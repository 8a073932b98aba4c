import ScriptKit.Proofs.Grammar.Reads
import ScriptKit.Proofs.Program.Normal

namespace ScriptKit.Grammar

open Tree

/-- How tightly an operator binds its operands. -/
def level : String → Nat
  | "**" => 3
  | "*" | "/" | "%" => 2
  | "+" | "-" => 1
  | _ => 0

theorem level_le (x : String) : level x ≤ 3 := by
  unfold level
  split <;> omega

theorem level_eq_three {x : String} : level x = 3 ↔ x = "**" := by
  constructor
  · intro h
    unfold level at h
    split at h <;> simp_all
  · rintro rfl
    rfl

/-- Operands with binary operators between them, and the order in which these are applied. -/
inductive Formula
  | operand (t : Tree)
  | apply (symbol : String) (left right : Formula)

namespace Formula

/-- The first operand from the left. -/
def first : Formula → Tree
  | operand t => t
  | apply _ left _ => left.first

/-- The operators from left to right, each with the operand after it. -/
def rest : Formula → List (String × Tree)
  | operand _ => []
  | apply symbol left right => left.rest ++ (symbol, right.first) :: right.rest

/-- An operand binds more tightly than every operator. -/
def level : Formula → Nat
  | operand _ => 4
  | apply symbol _ _ => Grammar.level symbol

/-- Operators are applied by their levels, powers from the right and the others from the left. -/
def Binds : Formula → Prop
  | operand _ => True
  | apply symbol left right =>
    left.Binds ∧ right.Binds ∧
      if symbol = "**" then Grammar.level symbol < left.level ∧ Grammar.level symbol ≤ right.level
      else Grammar.level symbol ≤ left.level ∧ Grammar.level symbol < right.level

def tree : Formula → Tree
  | operand t => t
  | apply symbol left right => .node .binary symbol false 0 [left.tree, right.tree]

/-- The formula is the only one that binds operands and operators in their order. -/
def IsOnly (f : Formula) (t : Tree) (rest : List (String × Tree)) : Prop :=
  f.first = t ∧ f.rest = rest ∧ f.Binds ∧
    ∀ g : Formula, g.first = t → g.rest = rest → g.Binds → g = f

theorem IsOnly.unique {f g : Formula} {t : Tree} {rest : List (String × Tree)}
    (hf : f.IsOnly t rest) (hg : g.IsOnly t rest) : f = g :=
  hg.2.2.2 f hf.1 hf.2.1 hf.2.2.1

/-- Without operators there is nothing but the operand. -/
theorem IsOnly.tree_eq {f : Formula} {t : Tree} (h : f.IsOnly t []) : f.tree = t := by
  obtain ⟨hfirst, hrest, -, -⟩ := h
  cases f with
  | operand u => exact hfirst
  | apply symbol left right => simp [rest] at hrest

theorem level_le_of_mem {f : Formula} (h : f.Binds) : ∀ p ∈ f.rest, f.level ≤ Grammar.level p.1 := by
  induction f with
  | operand t => intro p hp; cases hp
  | apply symbol left right ihl ihr =>
    obtain ⟨hl, hr, hlevels⟩ := h
    have hle : Grammar.level symbol ≤ left.level ∧ Grammar.level symbol ≤ right.level := by
      split at hlevels <;> omega
    intro p hp
    rcases List.mem_append.mp hp with hp | hp
    · exact Nat.le_trans hle.1 (ihl hl p hp)
    · rcases List.mem_cons.mp hp with rfl | hp
      · exact Nat.le_refl _
      · exact Nat.le_trans hle.2 (ihr hr p hp)

/-- The last operators of two formulas cannot lie inside a part of the other, one inside the left
and one inside the right. -/
theorem Binds.not_crossed {s s' : String} {l r l' r' : Formula} {a b : Tree}
    (h : (apply s l r).Binds) (h' : (apply s' l' r').Binds) (hs : (s, a) ∈ l'.rest)
    (hs' : (s', b) ∈ r.rest) : False := by
  obtain ⟨-, hr, hlevels⟩ := h
  obtain ⟨hl', -, hlevels'⟩ := h'
  have hle : l'.level ≤ Grammar.level s := level_le_of_mem hl' (s, a) hs
  have hle' : r.level ≤ Grammar.level s' := level_le_of_mem hr (s', b) hs'
  have hmax := level_le s
  have hmax' := level_le s'
  by_cases hpower' : s' = "**"
  · -- nothing binds more tightly than a power
    rw [if_pos hpower'] at hlevels'
    have hthree := level_eq_three.mpr hpower'
    omega
  · rw [if_neg hpower'] at hlevels'
    have hne : Grammar.level s' ≠ 3 := fun h => hpower' (level_eq_three.mp h)
    by_cases hpower : s = "**"
    · rw [if_pos hpower] at hlevels
      have hthree := level_eq_three.mpr hpower
      omega
    · rw [if_neg hpower] at hlevels
      omega

/-- Operands and operators can be bound in one way only. -/
theorem Binds.unique {f : Formula} : ∀ {g : Formula}, f.Binds → g.Binds → f.first = g.first →
    f.rest = g.rest → f = g := by
  induction f with
  | operand t =>
    intro g _ _ hfirst hrest
    cases g with
    | operand u => exact congrArg operand hfirst
    | apply s l r => simp [rest] at hrest
  | apply s l r ihl ihr =>
    intro g hf hg hfirst hrest
    cases g with
    | operand u => simp [rest] at hrest
    | apply s' l' r' =>
      rcases List.append_eq_append_iff.mp hrest with ⟨as, hleft, hright⟩ | ⟨as, hleft, hright⟩
      · cases as with
        | nil =>
          simp only [List.nil_append, List.cons.injEq, Prod.mk.injEq] at hright
          obtain ⟨⟨rfl, hmid⟩, hend⟩ := hright
          rw [List.append_nil] at hleft
          rw [ihl hf.1 hg.1 hfirst hleft.symm, ihr hf.2.1 hg.2.1 hmid hend]
        | cons a as =>
          -- the last operator of the first formula is further to the left
          rw [List.cons_append, List.cons.injEq] at hright
          have hs : (s, r.first) ∈ l'.rest := by simp [hleft, hright.1]
          have hs' : (s', r'.first) ∈ r.rest := by simp [hright.2]
          exact (hf.not_crossed hg hs hs').elim
      · cases as with
        | nil =>
          simp only [List.nil_append, List.cons.injEq, Prod.mk.injEq] at hright
          obtain ⟨⟨rfl, hmid⟩, hend⟩ := hright
          rw [List.append_nil] at hleft
          rw [ihl hf.1 hg.1 hfirst hleft, ihr hf.2.1 hg.2.1 hmid.symm hend.symm]
        | cons a as =>
          rw [List.cons_append, List.cons.injEq] at hright
          have hs' : (s', r'.first) ∈ l.rest := by simp [hleft, hright.1]
          have hs : (s, r.first) ∈ r'.rest := by simp [hright.2]
          exact (hg.not_crossed hf hs' hs).elim

theorem Binds.isOnly {f : Formula} (h : f.Binds) : f.IsOnly f.first f.rest :=
  ⟨rfl, rfl, h, fun _ hfirst hrest hg => hg.unique h hfirst hrest⟩

end Formula

variable {tokens : Array Token}

/-- Operands from one position to another with operators between them. -/
inductive SequenceAt (tokens : Array Token) (Operand : Nat → Tree → Nat → Prop) :
    Nat → Tree → List (String × Tree) → Nat → Prop
  | one {pos next : Nat} {t : Tree} (h : Operand pos t next) :
    SequenceAt tokens Operand pos t [] next
  | more {pos m next : Nat} {t u : Tree} {x : String} {rest : List (String × Tree)}
    (h : Operand pos t m) (ho : TokenAt tokens m .operator x) (hx : 0 < level x)
    (hrest : SequenceAt tokens Operand (after tokens m) u rest next) :
    SequenceAt tokens Operand pos t ((x, u) :: rest) next

/-- No suffix follows, and no operator that binds more tightly than a level. -/
def Stops (tokens : Array Token) (n : Nat) (pos : Nat) : Prop :=
  Unsuffixed tokens pos ∧ ∀ x, TokenAt tokens pos .operator x → level x ≤ n

theorem TokenAt.unique {pos : Nat} {k k' : Token.Kind} {x x' : String} (h : TokenAt tokens pos k x)
    (h' : TokenAt tokens pos k' x') : k = k' ∧ x = x' := by
  obtain ⟨τ, hτ, rfl, rfl⟩ := h
  obtain ⟨τ', hτ', rfl, rfl⟩ := h'
  rw [hτ] at hτ'
  cases hτ'
  exact ⟨rfl, rfl⟩

theorem TokenAt.not_at {pos : Nat} {k k' : Token.Kind} {x : String} (h : TokenAt tokens pos k x)
    (hne : k ≠ k') : ¬ At tokens k' pos :=
  fun hat => hne (h.at.eq hat)

theorem TokenAt.stops {pos n : Nat} {x : String} (h : TokenAt tokens pos .operator x)
    (hx : level x ≤ n) : Stops tokens n pos := by
  refine ⟨⟨h.not_at (by simp), h.not_at (by simp), h.not_at (by simp)⟩, ?_⟩
  intro y hy
  rwa [(hy.unique h).2]

theorem Stops.not_next {pos n : Nat} (h : Stops tokens n pos) {x : String} (hx : n < level x) :
    nextIs .operator (some x) (tokenAt? tokens pos) = false := by
  rw [Bool.eq_false_iff]
  intro hnext
  obtain ⟨τ, hτ, hk, hw⟩ := nextIs_iff.mp hnext
  have hle := h.2 x ⟨τ, hτ, hk, (hw x rfl).symm⟩
  omega

/-- A rule reads every sequence of operators that bind more tightly than a level, in the way they
bind. -/
def ReadsLevel (tokens : Array Token) (r : Rule) (n : Nat) : Prop :=
  ∀ {pos t rest next}, SequenceAt tokens (Operand tokens) pos t rest next →
    (∀ p ∈ rest, n < level p.1) → Stops tokens n next →
    ∃ f : Formula, f.first = t ∧ f.rest = rest ∧ f.Binds ∧ n < f.level ∧
      Reads tokens r pos f.tree next

theorem power_level : ReadsLevel tokens .power 2 := by
  intro pos t rest next h
  induction h with
  | one h =>
    intro _ hstops
    refine ⟨.operand _, rfl, rfl, trivial, show 2 < 4 by omega, ?_⟩
    exact (h.reads hstops.1).power (hstops.not_next (by decide))
  | @more pos m next t u x rest h ho _ _ ih =>
    intro hlevels hstops
    have hx : x = "**" := by
      have hlevel : 2 < level x := hlevels (x, u) List.mem_cons_self
      have hmax := level_le x
      exact level_eq_three.mp (by omega)
    subst hx
    obtain ⟨f, hfirst, hrest, hbinds, hlevel, hreads⟩ :=
      ih (fun p hp => hlevels p (List.mem_cons_of_mem _ hp)) hstops
    have hthree : level "**" = 3 := rfl
    refine ⟨.apply "**" (.operand t) f, rfl, ?_, ⟨trivial, hbinds, ?_⟩, show 2 < 3 by omega, ?_⟩
    · simp [Formula.rest, hfirst, hrest]
    · rw [if_pos rfl, hthree]
      exact ⟨show 3 < 4 by omega, hlevel⟩
    · have hstop : Stops tokens 3 m := ho.stops (by decide)
      exact (h.reads hstop.1).raised ho hreads

section Loop

variable {pos next n : Nat} {t : Tree} {rest : List (String × Tree)}

/-- A sequence up to its first operator that does not bind more tightly than a level. -/
theorem SequenceAt.split {O : Nat → Tree → Nat → Prop} (h : SequenceAt tokens O pos t rest next)
    (n : Nat) : ∃ before m, SequenceAt tokens O pos t before m ∧ (∀ p ∈ before, n < level p.1) ∧
      ((rest = before ∧ m = next) ∨
        ∃ x u later, rest = before ++ (x, u) :: later ∧ level x ≤ n ∧ 0 < level x ∧
          TokenAt tokens m .operator x ∧ SequenceAt tokens O (after tokens m) u later next) := by
  induction h with
  | one h => exact ⟨[], _, .one h, by simp, Or.inl ⟨rfl, rfl⟩⟩
  | @more pos m next t u x rest h ho hx hrest ih =>
    by_cases hlevel : n < level x
    · obtain ⟨before, k, hbefore, hall, hor⟩ := ih
      refine ⟨(x, u) :: before, k, .more h ho hx hbefore, ?_, ?_⟩
      · intro p hp
        rcases List.mem_cons.mp hp with rfl | hp
        · exact hlevel
        · exact hall p hp
      · rcases hor with ⟨rfl, rfl⟩ | ⟨y, v, later, rfl, hy⟩
        · exact Or.inl ⟨rfl, rfl⟩
        · exact Or.inr ⟨y, v, later, rfl, hy⟩
    · exact ⟨[], m, .one h, by simp, Or.inr ⟨x, u, rest, rfl, by omega, hx, ho, hrest⟩⟩

theorem Reads.line {r : Rule} (h : Reads tokens r pos t next) : t.line = 0 := by
  obtain ⟨raw, -, rfl⟩ := h
  exact line_withoutLines _

variable {r r' : Rule} {symbols : List String}

/-- The repetition of one level. -/
def rounds (symbols : List String) (r : Rule) : List Production :=
  [.choice (symbols.map fun s => [op s]), .rule r]

theorem fails_rounds (hsymbols : ∀ x ∈ symbols, n < level x) (h : Stops tokens n pos) :
    Fails tokens (rounds symbols r) pos := by
  refine fails_of_start ?_
  rw [rounds, partsStart, Production.starts]
  induction symbols with
  | nil => rfl
  | cons s symbols ih =>
    have hno := h.not_next (hsymbols s List.mem_cons_self)
    rw [List.map_cons, choiceStarts, ih fun x hx => hsymbols x (List.mem_cons_of_mem _ hx)]
    simpa [partsStart, op, Production.starts] using hno

/-- What a rule reads of a sequence up to the first operator of the level below. -/
theorem ReadsLevel.head (hlevel : ReadsLevel tokens r (n + 1))
    (h : SequenceAt tokens (Operand tokens) pos t rest next) (hall : ∀ p ∈ rest, n < level p.1)
    (hstops : Stops tokens n next) :
    ∃ (f : Formula) (e : Nat), f.first = t ∧ f.Binds ∧ n + 1 < f.level ∧
      Reads tokens r pos f.tree e ∧
      ((rest = f.rest ∧ e = next) ∨ ∃ x u later, rest = f.rest ++ (x, u) :: later ∧
        level x = n + 1 ∧ TokenAt tokens e .operator x ∧
        SequenceAt tokens (Operand tokens) (after tokens e) u later next) := by
  obtain ⟨before, e, hbefore, htight, hor⟩ := h.split (n + 1)
  have hstop : Stops tokens (n + 1) e := by
    rcases hor with ⟨-, rfl⟩ | ⟨y, v, later, -, hy, -, hoy, -⟩
    · exact ⟨hstops.1, fun y hy => Nat.le_succ_of_le (hstops.2 y hy)⟩
    · exact hoy.stops hy
  obtain ⟨f, hfirst, rfl, hbinds, hflevel, hreads⟩ := hlevel hbefore htight hstop
  refine ⟨f, e, hfirst, hbinds, hflevel, hreads, hor.imp_right ?_⟩
  rintro ⟨y, v, later, rfl, hy, -, hoy, hlater⟩
  have hlow : n < level y := hall (y, v) (by simp)
  exact ⟨y, v, later, rfl, by omega, hoy, hlater⟩

/-- The operators and operands of one level, applied to a formula from the left as they are read. -/
structure Rounds (tokens : Array Token) (n : Nat) (parts : List Production) (m next : Nat)
    (f : Formula) (sequence : List (String × Tree)) (pairs : List (Tree × Tree)) (g : Formula) :
    Prop where
  nonempty : pairs ≠ []
  operators : ∀ p ∈ pairs, ∃ x l, p.1 = .leaf .operator x l
  gives : Gives tokens (.many parts) m (pairs.flatMap fun p => [p.1, p.2]) next
  first : g.first = f.first
  rest : g.rest = f.rest ++ sequence
  binds : g.Binds
  level : n < g.level
  folds : foldChain 0 f.tree (pairs.flatMap fun p => [p.1, p.2]) = g.tree

namespace Rounds

variable {parts : List Production} {m e : Nat} {x : String} {f g u : Formula}
  {later : List (String × Tree)} {pairs : List (Tree × Tree)}

theorem one (hround : GivesAll tokens parts m [.leaf .operator x 0, u.tree] e)
    (hend : Gives tokens (.many parts) e [] e)
    (hd : (Production.many parts).descends 10 = true) (hbinds : (Formula.apply x f u).Binds)
    (hx : n < Grammar.level x) :
    Rounds tokens n parts m e f ((x, u.first) :: u.rest) [(.leaf .operator x 0, u.tree)]
      (.apply x f u) where
  nonempty := by simp
  operators := by simp
  gives := hround.many hd hend
  first := rfl
  rest := rfl
  binds := hbinds
  level := hx
  folds := rfl

theorem cons (hround : GivesAll tokens parts m [.leaf .operator x 0, u.tree] e)
    (hd : (Production.many parts).descends 10 = true) (hline : f.tree.line = 0)
    (h : Rounds tokens n parts e next (.apply x f u) later pairs g) :
    Rounds tokens n parts m next f ((x, u.first) :: u.rest ++ later)
      ((.leaf .operator x 0, u.tree) :: pairs) g where
  nonempty := by simp
  operators p hp := by
    rcases List.mem_cons.mp hp with rfl | hp
    · exact ⟨x, 0, rfl⟩
    · exact h.operators p hp
  gives := hround.many hd h.gives
  first := h.first
  rest := by
    rw [h.rest, Formula.rest]
    simp
  binds := h.binds
  level := h.level
  folds := by
    obtain ⟨p, pairs, rfl⟩ := List.exists_cons_of_ne_nil h.nonempty
    rw [List.flatMap_cons, List.flatMap_cons, ← h.folds, List.flatMap_cons]
    simp only [List.cons_append, List.nil_append, foldChain, hline]
    rfl

end Rounds

/-- The operators of one level are applied from the left, as far as the sequence goes. -/
theorem gives_rounds (hlevel : ReadsLevel tokens r (n + 1)) (hn : n + 1 < 3)
    (hsymbols : ∀ x, x ∈ symbols ↔ level x = n + 1)
    (hd : (Production.many (rounds symbols r)).descends 10 = true) (k : Nat) :
    ∀ {m : Nat} {x : String} {u : Tree} {rest : List (String × Tree)} {f : Formula},
    rest.length < k → TokenAt tokens m .operator x → level x = n + 1 →
    SequenceAt tokens (Operand tokens) (after tokens m) u rest next →
    (∀ p ∈ rest, n < level p.1) → Stops tokens n next → f.Binds → n < f.level →
    f.tree.line = 0 →
    ∃ pairs g, Rounds tokens n (rounds symbols r) m next f ((x, u) :: rest) pairs g := by
  induction k with
  | zero => intro m x u rest f hk; omega
  | succ k ih =>
    intro m x u rest f hk ho hx hseq hall hstops hbinds hf hline
    obtain ⟨g, e, rfl, hgbinds, hglevel, hreads, hor⟩ := hlevel.head hseq hall hstops
    -- the formula so far, the operator and what binds more tightly after it
    have hround : GivesAll tokens (rounds symbols r) m [.leaf .operator x 0, g.tree] e :=
      (ho.operator ((hsymbols x).mpr hx)).then (hreads.then givesAll_nil)
    have hnotpower : x ≠ "**" := fun h => by
      rw [level_eq_three.mpr h] at hx
      omega
    have hbinds' : (Formula.apply x f g).Binds := by
      refine ⟨hbinds, hgbinds, ?_⟩
      rw [if_neg hnotpower]
      omega
    have hlow : n < level x := by omega
    rcases hor with ⟨rfl, rfl⟩ | ⟨y, v, later, rfl, hy, hoy, hlater⟩
    · have hend : Gives tokens (.many (rounds symbols r)) e [] e :=
        gives_many_none (fails_rounds (fun s hs => by rw [(hsymbols s).mp hs]; omega) hstops)
      exact ⟨_, _, .one hround hend hd hbinds' hlow⟩
    · obtain ⟨pairs, g', hrounds⟩ :=
        ih (f := .apply x f g) (by simp at hk; omega) hoy hy hlater
          (fun p hp => hall p (by simp [hp])) hstops hbinds' hlow rfl
      exact ⟨_, _, hrounds.cons hround hd hline⟩

theorem loop_level (symbols : List String) (hr : r.isOperand = true)
    (hlevel : ReadsLevel tokens r (n + 1)) (hn : n + 1 < 3)
    (hsymbols : ∀ x, x ∈ symbols ↔ level x = n + 1)
    (hd : (Production.many (rounds symbols r)).descends 10 = true)
    (hp : production r' = .node .expression [[.rule r, .many (rounds symbols r)]]) :
    ReadsLevel tokens r' n := by
  intro pos t rest next h hall hstops
  obtain ⟨f, e, hfirst, hbinds, hflevel, hreads, hor⟩ := hlevel.head h hall hstops
  rcases hor with ⟨rfl, rfl⟩ | ⟨y, v, later, rfl, hy, hoy, hlater⟩
  · have hend : Gives tokens (.many (rounds symbols r)) e [] e :=
      gives_many_none (fails_rounds (fun s hs => by rw [(hsymbols s).mp hs]; omega) hstops)
    exact ⟨f, hfirst, rfl, hbinds, by omega, hreads.loop hp hend⟩
  · obtain ⟨pairs, g, hrounds⟩ :=
      gives_rounds hlevel hn hsymbols hd _ (Nat.lt_succ_self _) hoy hy hlater
        (fun p hp => hall p (by simp [hp])) hstops hbinds (by omega) hreads.line
    refine ⟨g, hrounds.first.trans hfirst, hrounds.rest, hrounds.binds, hrounds.level, ?_⟩
    have hchain : expressionOf 0 (f.tree :: pairs.flatMap fun p => [p.1, p.2]) =
        foldChain 0 f.tree (pairs.flatMap fun p => [p.1, p.2]) :=
      expressionOf_chain (f := id) (hreads.value hr) hrounds.operators hrounds.nonempty
    have hloop := hreads.loop hp hrounds.gives
    rwa [hchain, hrounds.folds] at hloop

theorem multiplicative_level : ReadsLevel tokens .multiplicative 1 := by
  refine loop_level ["*", "/", "%"] rfl power_level (by omega) ?_ rfl rfl
  intro x
  unfold level
  split <;> simp_all

theorem additive_level : ReadsLevel tokens .additive 0 := by
  refine loop_level ["+", "-"] rfl multiplicative_level (by omega) ?_ rfl rfl
  intro x
  unfold level
  split <;> simp_all

end Loop

section Sequences

variable {pos m next : Nat} {t u : Tree} {rest rest' : List (String × Tree)}
  {O O' : Nat → Tree → Nat → Prop}

theorem SequenceAt.mono (h : SequenceAt tokens O pos t rest next)
    (hO : ∀ pos t next, O pos t next → O' pos t next) : SequenceAt tokens O' pos t rest next := by
  induction h with
  | one h => exact .one (hO _ _ _ h)
  | more h ho hx _ ih => exact .more (hO _ _ _ h) ho hx ih

theorem SequenceAt.levels (h : SequenceAt tokens O pos t rest next) :
    ∀ p ∈ rest, 0 < level p.1 := by
  induction h with
  | one h => simp
  | more h ho hx _ ih =>
    intro p hp
    rcases List.mem_cons.mp hp with rfl | hp
    · exact hx
    · exact ih p hp

/-- An operator, or what is after the sequence, follows the first operand. -/
theorem SequenceAt.head (h : SequenceAt tokens O pos t rest next) :
    ∃ m, O pos t m ∧ (m = next ∨ ∃ x, TokenAt tokens m .operator x) := by
  cases h with
  | one h => exact ⟨next, h, Or.inl rfl⟩
  | more h ho => exact ⟨_, h, Or.inr ⟨_, ho⟩⟩

/-- Nothing follows that an expression could go on with. -/
structure Closed (tokens : Array Token) (pos : Nat) : Prop where
  stops : Stops tokens 0 pos
  comparator : ¬ At tokens .comparator pos
  assignment : ¬ At tokens .assignment pos

theorem At.closed {k : Token.Kind} (h : At tokens k pos)
    (hk : k = .semicolon ∨ k = .comma ∨ k = .rightParen ∨ k = .rightBracket) :
    Closed tokens pos := by
  have hno : ∀ {k' : Token.Kind}, k ≠ k' → ¬ At tokens k' pos := fun hne h' => hne (h.eq h')
  have hkind : ∀ {k' : Token.Kind}, k' ≠ .semicolon → k' ≠ .comma → k' ≠ .rightParen →
      k' ≠ .rightBracket → ¬ At tokens k' pos := by
    intro k' h₁ h₂ h₃ h₄
    rcases hk with rfl | rfl | rfl | rfl
    · exact hno h₁.symm
    · exact hno h₂.symm
    · exact hno h₃.symm
    · exact hno h₄.symm
  refine ⟨⟨⟨?_, ?_, ?_⟩, fun x hx => absurd hx.at ?_⟩, ?_, ?_⟩
  all_goals exact hkind (by simp) (by simp) (by simp) (by simp)

/-- The first operand of a sequence is not assigned to. -/
theorem SequenceAt.expression (h : SequenceAt tokens (Operand tokens) pos t rest m)
    (hstops : Stops tokens 0 m) (hno : ¬ At tokens .assignment m)
    (hreads : Reads tokens .comparison pos u next) : Reads tokens .expression pos u next := by
  obtain ⟨k, hfirst, hk⟩ := h.head
  have hfree : Unsuffixed tokens k ∧ ¬ At tokens .assignment k := by
    rcases hk with rfl | ⟨x, hx⟩
    · exact ⟨hstops.1, hno⟩
    · have hstop : Stops tokens 3 k := hx.stops (level_le x)
      exact ⟨hstop.1, hx.not_at (by simp)⟩
  exact (hfirst.reads hfree.1).expression hfree.2 hreads

theorem SequenceAt.reads (h : SequenceAt tokens (Operand tokens) pos t rest next)
    (hend : Closed tokens next) : ∃ f : Formula, f.IsOnly t rest ∧
      Reads tokens .expression pos f.tree next := by
  obtain ⟨f, rfl, rfl, hbinds, -, hreads⟩ := additive_level h h.levels hend.stops
  exact ⟨f, hbinds.isOnly,
    h.expression hend.stops hend.assignment (hreads.comparison hend.comparator)⟩

theorem SequenceAt.compared {x : String} (h : SequenceAt tokens (Operand tokens) pos t rest m)
    (hc : TokenAt tokens m .comparator x)
    (h' : SequenceAt tokens (Operand tokens) (after tokens m) u rest' next)
    (hend : Stops tokens 0 next) : ∃ f g : Formula, f.IsOnly t rest ∧ g.IsOnly u rest' ∧
      Reads tokens .expression pos (.node .comparison x false 0 [f.tree, g.tree]) next := by
  have hstops : Stops tokens 0 m := by
    refine ⟨⟨hc.not_at (by simp), hc.not_at (by simp), hc.not_at (by simp)⟩, ?_⟩
    intro y hy
    exact absurd (hy.unique hc).1 (by simp)
  obtain ⟨f, rfl, rfl, hbinds, -, hreads⟩ := additive_level h h.levels hstops
  obtain ⟨g, rfl, rfl, hbinds', -, hreads'⟩ := additive_level h' h'.levels hend
  exact ⟨f, g, hbinds.isOnly, hbinds'.isOnly,
    h.expression hstops (hc.not_at (by simp)) (hreads.compared hc hreads')⟩

/-- An operand as it is written: a literal, a name or an expression in parentheses, with arguments,
indices and members after it. -/
inductive OperandAt (tokens : Array Token) : Nat → Tree → Nat → Prop
  | literal {pos : Nat} {k : Token.Kind} {x : String} (h : TokenAt tokens pos k x)
    (hk : (terminalKind k).isLiteral = true) :
    OperandAt tokens pos (mark ⟨k, x, 0⟩) (after tokens pos)
  | parenthesised {pos m : Nat} {t : Tree} (hopen : At tokens .leftParen pos)
    (h : Reads tokens .expression (after tokens pos) t m) (hclose : At tokens .rightParen m) :
    OperandAt tokens pos t (after tokens m)
  | call {pos m next : Nat} {t list : Tree} (h : OperandAt tokens pos t m)
    (hopen : At tokens .leftParen m) (hlist : Reads tokens .expressionList (after tokens m) list next)
    (hclose : At tokens .rightParen next) :
    OperandAt tokens pos (.node .call "" false 0 [t, list]) (after tokens next)
  | index {pos m next : Nat} {t i : Tree} (h : OperandAt tokens pos t m)
    (hopen : At tokens .leftBracket m) (hindex : Reads tokens .expression (after tokens m) i next)
    (hclose : At tokens .rightBracket next) :
    OperandAt tokens pos (.node .index "" false 0 [t, i]) (after tokens next)
  | member {pos m : Nat} {t : Tree} {x : String} (h : OperandAt tokens pos t m)
    (hdot : At tokens .dot m) (hname : TokenAt tokens (after tokens m) .identifier x) :
    OperandAt tokens pos (.node .member "" false 0 [t, .leaf .identifier x 0])
      (after tokens (after tokens m))

theorem OperandAt.operand (h : OperandAt tokens pos t next) : Operand tokens pos t next := by
  induction h with
  | literal h hk => exact (h.primary hk).operand
  | parenthesised hopen h hclose =>
    obtain ⟨x, hopen⟩ := hopen.tokenAt
    obtain ⟨y, hclose⟩ := hclose.tokenAt
    exact (reads_parenthesised hopen h hclose (h.value rfl)).operand
  | call _ hopen hlist hclose ih =>
    obtain ⟨x, hopen⟩ := hopen.tokenAt
    obtain ⟨y, hclose⟩ := hclose.tokenAt
    exact ih.call hopen hlist hclose
  | index _ hopen hindex hclose ih =>
    obtain ⟨x, hopen⟩ := hopen.tokenAt
    obtain ⟨y, hclose⟩ := hclose.tokenAt
    exact ih.index hopen hindex hclose
  | member _ hdot hname ih =>
    obtain ⟨x, hdot⟩ := hdot.tokenAt
    exact ih.member hdot hname

theorem OperandAt.first (h : OperandAt tokens pos t next) :
    ∃ k x, TokenAt tokens pos k x ∧ k ≠ .keyword := by
  induction h with
  | literal h hk =>
    refine ⟨_, _, h, ?_⟩
    rintro rfl
    cases hk
  | parenthesised hopen _ _ =>
    obtain ⟨x, hopen⟩ := hopen.tokenAt
    exact ⟨_, _, hopen, by simp⟩
  | call _ _ _ _ ih | index _ _ _ _ ih | member _ _ _ ih => exact ih

end Sequences

/-- The statements of a program that was read to its end. -/
def IsProgram (p : Parsed) (statements : List Tree) : Prop :=
  p.diagnostic = none ∧ ∃ t, p.arena.normalised.toTree Arena.root = some t ∧
    t.withoutLines = .node .program "" false 0 [.node .block "" false 0 statements]

theorem IsProgram.unique {p : Parsed} {ts us : List Tree} (h : IsProgram p ts)
    (h' : IsProgram p us) : ts = us := by
  obtain ⟨-, t, ht, htree⟩ := h
  obtain ⟨-, u, hu, hutree⟩ := h'
  obtain rfl : t = u := Option.some.inj (ht.symm.trans hu)
  simpa using htree.symm.trans hutree

/-- One expression with a semicolon after it. -/
theorem isProgram_expression {list : List Token} (file : String) {k : Token.Kind} {x : String}
    {t : Tree} {next : Nat} (hfirst : TokenAt list.toArray 0 k x) (hk : k ≠ .keyword)
    (h : Reads list.toArray .expression 0 t next) (hsemicolon : At list.toArray .semicolon next)
    (hend : tokenAt? list.toArray (after list.toArray next) = none) :
    IsProgram (parseTokens list file) [statementOf 0 [t]] := by
  obtain ⟨y, hy⟩ := hsemicolon.tokenAt
  have hnone : Gives list.toArray (.many [.rule .statement]) (after list.toArray next) []
      (after list.toArray next) := gives_statements_none (by rw [hend]; rfl)
  have hblock := ((h.statement hfirst hk hy).more hnone).block
  have hstart : tokenAt? list.toArray 0 ≠ none := by
    obtain ⟨τ, hτ, -⟩ := hfirst
    simp [hτ]
  obtain ⟨hdiagnostic, hroot⟩ := hblock.program file hstart hend
  exact ⟨hdiagnostic, _, toTree_normalised list file, hroot⟩

theorem statementOf_plain {t : Tree} {line : Nat}
    (h : t.kind ≠ .function ∧ t.kind ≠ .classLiteral) : statementOf line [t] = t := by
  rw [statementOf]
  split
  · exact absurd ‹_› h.1
  · exact absurd ‹_› h.2
  · rfl

/-- A formula with operators is no function and no class. -/
theorem Formula.IsOnly.statementOf {f : Formula} {t : Tree} {rest : List (String × Tree)}
    (h : f.IsOnly t rest) (ht : rest ≠ [] ∨ (t.kind ≠ .function ∧ t.kind ≠ .classLiteral)) :
    Tree.statementOf 0 [f.tree] = f.tree := by
  obtain ⟨rfl, rfl, -, -⟩ := h
  cases f with
  | apply x l r => rfl
  | operand t => exact statementOf_plain (ht.resolve_left fun hne => hne rfl)

/-- A sequence of operands and operators up to a semicolon is read in full and in the one way it
can be bound; two sequences with a comparator between them are compared. A single operand may be a
function or a class in parentheses: as a statement it is a definition. -/
theorem parse_sequences (list : List Token) (file : String) :
    (∀ {t rest next}, SequenceAt list.toArray (OperandAt list.toArray) 0 t rest next →
      At list.toArray .semicolon next → tokenAt? list.toArray (after list.toArray next) = none →
      ∃ f : Formula, f.IsOnly t rest ∧ Reads list.toArray .expression 0 f.tree next ∧
        IsProgram (parseTokens list file) [statementOf 0 [f.tree]] ∧
        (rest ≠ [] ∨ (t.kind ≠ .function ∧ t.kind ≠ .classLiteral) →
          IsProgram (parseTokens list file) [f.tree])) ∧
    (∀ {t rest m x u rest' next}, SequenceAt list.toArray (OperandAt list.toArray) 0 t rest m →
      TokenAt list.toArray m .comparator x →
      SequenceAt list.toArray (OperandAt list.toArray) (after list.toArray m) u rest' next →
      At list.toArray .semicolon next → tokenAt? list.toArray (after list.toArray next) = none →
      ∃ f g : Formula, f.IsOnly t rest ∧ g.IsOnly u rest' ∧
        Reads list.toArray .expression 0 (.node .comparison x false 0 [f.tree, g.tree]) next ∧
        IsProgram (parseTokens list file) [.node .comparison x false 0 [f.tree, g.tree]]) := by
  have hmono : ∀ {pos t rest next}, SequenceAt list.toArray (OperandAt list.toArray) pos t rest next →
      SequenceAt list.toArray (Operand list.toArray) pos t rest next :=
    fun h => h.mono fun _ _ _ => OperandAt.operand
  -- a formula alone, and two formulas with a comparator between them
  constructor
  · intro t rest next h hsemicolon hend
    obtain ⟨f, honly, hreads⟩ := (hmono h).reads (hsemicolon.closed (Or.inl rfl))
    obtain ⟨m, hoperand, -⟩ := h.head
    obtain ⟨k, x, hx, hk⟩ := hoperand.first
    have hprogram := isProgram_expression file hx hk hreads hsemicolon hend
    refine ⟨f, honly, hreads, hprogram, ?_⟩
    intro hplain
    rwa [honly.statementOf hplain] at hprogram
  · intro t rest m x u rest' next h hx h' hsemicolon hend
    obtain ⟨f, g, hf, hg, hreads⟩ :=
      (hmono h).compared hx (hmono h') (hsemicolon.closed (Or.inl rfl)).stops
    obtain ⟨e, hoperand, -⟩ := h.head
    obtain ⟨k, y, hy, hk⟩ := hoperand.first
    exact ⟨f, g, hf, hg, hreads, isProgram_expression file hy hk hreads hsemicolon hend⟩

section Mixed

/-- The tokens of `a - 2 * b.c ** d;`. -/
def mixed : List Token :=
  [⟨.identifier, "a", 1⟩, ⟨.whitespace, " ", 1⟩, ⟨.operator, "-", 1⟩, ⟨.number, "2", 1⟩,
    ⟨.operator, "*", 1⟩, ⟨.identifier, "b", 1⟩, ⟨.dot, ".", 1⟩, ⟨.identifier, "c", 1⟩,
    ⟨.operator, "**", 1⟩, ⟨.identifier, "d", 1⟩, ⟨.semicolon, ";", 1⟩]

/-- The tokens of `a - b < 1;`. -/
def below : List Token :=
  [⟨.identifier, "a", 1⟩, ⟨.operator, "-", 1⟩, ⟨.identifier, "b", 1⟩, ⟨.comparator, "<", 1⟩,
    ⟨.number, "1", 1⟩, ⟨.semicolon, ";", 1⟩]

/-- The last operator applied is the minus sign, the first the power. -/
def mixedFormula : Formula :=
  .apply "-" (.operand (.leaf .identifier "a" 0))
    (.apply "*" (.operand (.node .number "2" true 0 []))
      (.apply "**"
        (.operand (.node .member "" false 0 [.leaf .identifier "b" 0, .leaf .identifier "c" 0]))
        (.operand (.leaf .identifier "d" 0))))

theorem sequenceAt_mixed : ∃ next, SequenceAt mixed.toArray (OperandAt mixed.toArray) 0
    mixedFormula.first mixedFormula.rest next ∧ At mixed.toArray .semicolon next ∧
    tokenAt? mixed.toArray (after mixed.toArray next) = none := by
  have literal : ∀ {pos k x}, TokenAt mixed.toArray pos k x → (terminalKind k).isLiteral = true →
      OperandAt mixed.toArray pos (mark ⟨k, x, 0⟩) (after mixed.toArray pos) := OperandAt.literal
  refine ⟨_, .more (literal (k := .identifier) (x := "a") ?_ rfl) ?_ (by decide)
    (.more (literal (k := .number) (x := "2") ?_ rfl) ?_ (by decide)
    (.more (.member (literal (k := .identifier) (x := "b") ?_ rfl) ?_ ?_) ?_ (by decide)
    (.one (literal (k := .identifier) (x := "d") ?_ rfl)))), ?_, ?_⟩
  all_goals
    simp [TokenAt, At, nextIs, accepts, tokenAt?, skip, after, Token.isBlank, mixed]

theorem sequenceAt_below : ∃ m next, SequenceAt below.toArray (OperandAt below.toArray) 0
    (.leaf .identifier "a" 0) [("-", .leaf .identifier "b" 0)] m ∧
    TokenAt below.toArray m .comparator "<" ∧
    SequenceAt below.toArray (OperandAt below.toArray) (after below.toArray m)
      (.node .number "1" true 0 []) [] next ∧ At below.toArray .semicolon next ∧
    tokenAt? below.toArray (after below.toArray next) = none := by
  have literal : ∀ {pos k x}, TokenAt below.toArray pos k x → (terminalKind k).isLiteral = true →
      OperandAt below.toArray pos (mark ⟨k, x, 0⟩) (after below.toArray pos) := OperandAt.literal
  refine ⟨_, _, .more (literal (k := .identifier) (x := "a") ?_ rfl) ?_ (by decide)
    (.one (literal (k := .identifier) (x := "b") ?_ rfl)), ?_,
    .one (literal (k := .number) (x := "1") ?_ rfl), ?_, ?_⟩
  all_goals
    simp [TokenAt, At, nextIs, accepts, tokenAt?, skip, after, Token.isBlank, below]

theorem parse_sequences_mixed :
    (∃ next, SequenceAt mixed.toArray (OperandAt mixed.toArray) 0 mixedFormula.first
      mixedFormula.rest next ∧ At mixed.toArray .semicolon next ∧
      tokenAt? mixed.toArray (after mixed.toArray next) = none) ∧
    IsProgram (parseTokens mixed "") [mixedFormula.tree] ∧
    ∃ f g : Formula, f.IsOnly (.leaf .identifier "a" 0) [("-", .leaf .identifier "b" 0)] ∧
      g.IsOnly (.node .number "1" true 0 []) [] ∧
      IsProgram (parseTokens below "") [.node .comparison "<" false 0 [f.tree, g.tree]] := by
  refine ⟨sequenceAt_mixed, ?_, ?_⟩
  · obtain ⟨next, hsequence, hsemicolon, hend⟩ := sequenceAt_mixed
    obtain ⟨f, ⟨-, -, -, honly⟩, -, -, hprogram⟩ :=
      (parse_sequences mixed "").1 hsequence hsemicolon hend
    have hbinds : mixedFormula.Binds := by
      simp [mixedFormula, Formula.Binds, Formula.level, level]
    rw [honly mixedFormula rfl rfl hbinds]
    exact hprogram (Or.inl (by simp [mixedFormula, Formula.rest]))
  · obtain ⟨m, next, hleft, hless, hright, hsemicolon, hend⟩ := sequenceAt_below
    obtain ⟨f, g, hf, hg, -, hprogram⟩ :=
      (parse_sequences below "").2 hleft hless hright hsemicolon hend
    exact ⟨f, g, hf, hg, hprogram⟩

end Mixed

section Enclosed

/-- The tokens of `(func(){});`. -/
def enclosed : List Token :=
  [⟨.leftParen, "(", 1⟩, ⟨.keyword, "func", 1⟩, ⟨.leftParen, "(", 1⟩, ⟨.rightParen, ")", 1⟩,
    ⟨.leftCurly, "\x7b", 1⟩, ⟨.rightCurly, "\x7d", 1⟩, ⟨.rightParen, ")", 1⟩,
    ⟨.semicolon, ";", 1⟩]

/-- A function without a name, parameters and statements. -/
def emptyFunction : Tree :=
  .node .function "" false 0 [.node .argumentList "" false 0 [], .node .block "" false 0 []]

theorem reads_emptyFunction : Reads enclosed.toArray .expression 1 emptyFunction 6 := by
  refine ⟨?raw, ?hread, ?hmeans⟩
  case hread => cbv; rfl
  case hmeans => cbv

/-- A single operand that is a function in parentheses is not the statement that is read, which is a
definition of the function. -/
theorem enclosed_function_not_kept :
    (∃ next, SequenceAt enclosed.toArray (OperandAt enclosed.toArray) 0 emptyFunction [] next ∧
      At enclosed.toArray .semicolon next ∧
      tokenAt? enclosed.toArray (after enclosed.toArray next) = none) ∧
    ∀ f : Formula, f.IsOnly emptyFunction [] →
      ¬ IsProgram (parseTokens enclosed "") [f.tree] := by
  have hopen : TokenAt enclosed.toArray 0 .leftParen "(" := ⟨_, by cbv, by cbv⟩
  have hafter : after enclosed.toArray 0 = 1 := by cbv
  have hsemicolon : At enclosed.toArray .semicolon (after enclosed.toArray 6) := by cbv
  have hend : tokenAt? enclosed.toArray (after enclosed.toArray (after enclosed.toArray 6)) =
      none := by cbv
  have hoperand : OperandAt enclosed.toArray 0 emptyFunction (after enclosed.toArray 6) :=
    .parenthesised hopen.at (by rw [hafter]; exact reads_emptyFunction) (by cbv)
  refine ⟨⟨_, .one hoperand, hsemicolon, hend⟩, ?_⟩
  intro f hf hkept
  obtain ⟨g, hg, hreads⟩ := (SequenceAt.one hoperand.operand).reads (hsemicolon.closed (Or.inl rfl))
  obtain rfl : f = g := hf.unique hg
  have hread := isProgram_expression "" hopen (by simp) hreads hsemicolon hend
  -- a definition is no function
  have hsame : [statementOf 0 [f.tree]] = [f.tree] := hread.unique hkept
  rw [hf.tree_eq] at hsame
  simp [statementOf, emptyFunction] at hsame

end Enclosed

end ScriptKit.Grammar
