import ScriptKit.Proofs.Grammar.PlainReading

namespace ScriptKit

/-- What a leaf of a program tree says about the token it stands for. -/
structure Tree.Lexeme where
  kind : Tree.Kind
  text : String
  line : Nat
  deriving DecidableEq

mutual

/-- The literal and terminal nodes of a tree, each before its children. -/
def Tree.lexemes : Tree → List Tree.Lexeme
  | .node k text _ line children =>
    (if k.isLiteral || k.isTerminal then [⟨k, text, line⟩] else []) ++ lexemesAll children

def Tree.lexemesAll : List Tree → List Tree.Lexeme
  | [] => []
  | t :: ts => t.lexemes ++ lexemesAll ts

end

theorem Tree.lexemesAll_append (ts us : List Tree) :
    lexemesAll (ts ++ us) = lexemesAll ts ++ lexemesAll us := by
  induction ts with
  | nil => rfl
  | cons t ts ih => simp only [List.cons_append, lexemesAll, ih, List.append_assoc]

theorem Tree.lexemes_branch {k : Tree.Kind} (h : (k.isLiteral || k.isTerminal) = false) (line : Nat)
    (ts : List Tree) : (Tree.branch k line ts).lexemes = lexemesAll ts := by
  rw [branch, lexemes, h]
  rfl

namespace Grammar

open Arena (root)

/-- The leaf that a token becomes. -/
def lexeme (t : Token) : Tree.Lexeme :=
  ⟨terminalKind t.kind, terminalText t, t.line⟩

/-- The leaves for the significant tokens with an index below a bound. -/
def lexemesBelow (tokens : Array Token) (n : Nat) : List Tree.Lexeme :=
  ((tokens.toList.take n).filter fun t => !t.isBlank).map lexeme

variable {tokens : Array Token}

theorem lexemesBelow_succ {n : Nat} {t : Token} (h : tokens[n]? = some t) :
    lexemesBelow tokens (n + 1) =
      lexemesBelow tokens n ++ if t.isBlank then [] else [lexeme t] := by
  have hlist : tokens.toList[n]? = some t := by simpa using h
  unfold lexemesBelow
  rw [List.take_add_one, hlist, List.filter_append, List.map_append]
  cases hb : t.isBlank <;> simp [hb]

/-- Skipping passes over blank tokens only. -/
theorem lexemesBelow_skip (tokens : Array Token) (pos : Nat) :
    lexemesBelow tokens (skip tokens pos) = lexemesBelow tokens pos := by
  fun_induction skip tokens pos with
  | case1 pos h hb ih =>
    rw [ih, lexemesBelow_succ (Array.getElem?_eq_getElem h), hb]
    simp
  | case2 pos h hb => rfl
  | case3 pos h => rfl

theorem not_isBlank_of_tokenAt? {pos : Nat} {t : Token} (h : tokenAt? tokens pos = some t) :
    t.isBlank = false := by
  unfold tokenAt? at h
  fun_induction skip tokens pos with
  | case1 pos hlt hb ih => exact ih h
  | case2 pos hlt hb =>
    rw [Array.getElem?_eq_getElem hlt] at h
    cases h
    exact Bool.eq_false_iff.mpr hb
  | case3 pos hge =>
    rw [Array.getElem?_eq_none (Nat.le_of_not_lt hge)] at h
    cases h

/-- Trees that were read between two positions have the tokens between them as their leaves. -/
def Spells (tokens : Array Token) (pos : Nat) (ts : List Tree) (next : Nat) : Prop :=
  lexemesBelow tokens next = lexemesBelow tokens pos ++ Tree.lexemesAll ts

theorem spells_nil (tokens : Array Token) (pos : Nat) : Spells tokens pos [] pos := by
  simp [Spells, Tree.lexemesAll]

theorem Spells.append {pos m next : Nat} {ts us : List Tree} (h : Spells tokens pos ts m)
    (h' : Spells tokens m us next) : Spells tokens pos (ts ++ us) next := by
  calc lexemesBelow tokens next
      = lexemesBelow tokens m ++ Tree.lexemesAll us := h'
    _ = (lexemesBelow tokens pos ++ Tree.lexemesAll ts) ++ Tree.lexemesAll us := by rw [h]
    _ = lexemesBelow tokens pos ++ Tree.lexemesAll (ts ++ us) := by
      rw [Tree.lexemesAll_append, List.append_assoc]

theorem Spells.branch {pos next : Nat} {ts : List Tree} {k : Tree.Kind} (h : Spells tokens pos ts next)
    (hk : (k.isLiteral || k.isTerminal) = false) (line : Nat) :
    Spells tokens pos [.branch k line ts] next := by
  unfold Spells at h ⊢
  rw [h, Tree.lexemesAll, Tree.lexemesAll, Tree.lexemes_branch hk, List.append_nil]

theorem spells_token {pos : Nat} {t : Token} (h : tokenAt? tokens pos = some t) :
    Spells tokens pos [terminal t] (skip tokens pos + 1) := by
  have hb := not_isBlank_of_tokenAt? h
  have hk : ((terminalKind t.kind).isLiteral || (terminalKind t.kind).isTerminal) = true := by
    -- blank tokens are the only ones without a kind of leaf
    unfold Token.isBlank at hb
    cases hkind : t.kind <;> simp_all [terminalKind, Tree.Kind.isLiteral, Tree.Kind.isTerminal]
  unfold Spells
  rw [lexemesBelow_succ (show tokens[skip tokens pos]? = some t from h), lexemesBelow_skip, hb]
  simp [terminal, Tree.leaf, Tree.lexemesAll, Tree.lexemes, hk, lexeme]

mutual

/-- Whether a production makes only nodes that stand for no token, and puts suffixes only after an
operand. -/
def Production.isInner : Production → Bool
  | .token _ _ | .rule _ => true
  | .node k alternatives => !(k.isLiteral || k.isTerminal) && choiceInner alternatives
  | .choice alternatives => choiceInner alternatives
  | .many parts => partsInner parts
  | .optional p => p.isInner
  | .chain (.rule .primary) suffix => suffix.isInner
  | .chain _ _ => false

def partsInner : List Production → Bool
  | [] => true
  | p :: parts => p.isInner && partsInner parts

def choiceInner : List (List Production) → Bool
  | [] => true
  | parts :: alternatives => partsInner parts && choiceInner alternatives

end

theorem production_isInner (r : Rule) : (production r).isInner = true := by
  cases r <;> decide

theorem readMany_spells {step : Nat → Attempt}
    (hstep : ∀ {pos ts next}, (step pos).outcome = .matched ts next → Spells tokens pos ts next)
    (rounds : Nat) :
    ∀ {pos ts next}, (readMany step rounds pos).outcome = .matched ts next →
      Spells tokens pos ts next := by
  induction rounds with
  | zero => intro pos ts next h; cases h
  | succ rounds ih =>
    intro pos ts next h
    rw [readMany] at h
    cases ho : (step pos).outcome with
    | exhausted => simp [ho] at h
    | failed =>
      simp only [ho, Outcome.matched.injEq] at h
      obtain ⟨rfl, rfl⟩ := h
      exact spells_nil tokens pos
    | matched us m =>
      simp only [ho] at h
      split at h
      · rw [ho] at h
        cases h
        exact hstep ho
      · obtain ⟨vs, hrest, rfl⟩ := Attempt.outcome_map_eq_matched.mp h
        exact (hstep ho).append (ih hrest)

theorem readSuffixes_spells {step : Nat → Attempt}
    (hstep : ∀ {pos ts next}, (step pos).outcome = .matched ts next → Spells tokens pos ts next)
    (rounds : Nat) :
    ∀ {start pos target ts next}, Spells tokens start [target] pos →
      (readSuffixes step rounds target pos).outcome = .matched ts next →
      Spells tokens start ts next := by
  induction rounds with
  | zero => intro start pos target ts next _ h; cases h
  | succ rounds ih =>
    intro start pos target ts next hs h
    rw [readSuffixes] at h
    cases ho : (step pos).outcome with
    | exhausted => simp [ho] at h
    | failed =>
      simp only [ho, Outcome.matched.injEq] at h
      obtain ⟨rfl, rfl⟩ := h
      exact hs
    | matched us m =>
      simp only [ho, Attempt.outcome_reaching] at h
      exact ih ((hs.append (hstep ho)).branch rfl target.line) h

section Production

/-- A way to read rules whose trees have the tokens they take as their leaves, and where an operand
is one tree. -/
structure Faithful (tokens : Array Token) (rule : Rule → Nat → Attempt) : Prop where
  spells : ∀ {r pos ts next}, (rule r pos).outcome = .matched ts next → Spells tokens pos ts next
  single : ∀ {pos ts next}, (rule .primary pos).outcome = .matched ts next → ∃ t, ts = [t]

variable {rule : Rule → Nat → Attempt}

mutual

/-- What a production reads has the tokens it takes as its leaves. -/
theorem readProduction_spells (hrule : Faithful tokens rule) :
    ∀ (p : Production) {pos ts next}, p.isInner = true →
    (readProduction tokens rule p pos).outcome = .matched ts next → Spells tokens pos ts next
  | .token kind text, pos, ts, next, _, h => by
    obtain ⟨t, ht, -, rfl, rfl⟩ := token_matched_iff.mp h
    exact spells_token ht
  | .rule r, pos, ts, next, _, h => hrule.spells (rule_matched_iff.mp h)
  | .node k alternatives, pos, ts, next, hp, h => by
    obtain ⟨us, h', rfl⟩ := node_matched_iff.mp h
    simp only [Production.isInner, Bool.and_eq_true, Bool.not_eq_true'] at hp
    exact (readChoice_spells hrule alternatives hp.2 h').branch hp.1 _
  | .choice alternatives, pos, ts, next, hp, h =>
    readChoice_spells hrule alternatives (by simpa only [Production.isInner] using hp)
      (choice_matched_iff.mp h)
  | .many parts, pos, ts, next, hp, h => by
    simp only [readProduction] at h
    simp only [Production.isInner] at hp
    exact readMany_spells (fun h => readParts_spells hrule parts hp h) _ h
  | .optional p, pos, ts, next, hp, h => by
    rcases optional_matched_iff.mp h with h | ⟨-, rfl, rfl⟩
    · exact readProduction_spells hrule p (by simpa only [Production.isInner] using hp) h
    · exact spells_nil tokens _
  | .chain (.rule .primary) suffix, pos, ts, next, hp, h => by
    simp only [Production.isInner] at hp
    obtain ⟨t, us, m, hhead, hsuffixes⟩ := chain_matched_iff.mp h
    rw [rule_matched_iff] at hhead
    obtain ⟨_, hone⟩ := hrule.single hhead
    cases hone
    exact readSuffixes_spells (fun h => readProduction_spells hrule suffix hp h) _
      (hrule.spells hhead) hsuffixes

theorem readParts_spells (hrule : Faithful tokens rule) :
    ∀ (parts : List Production) {pos ts next}, partsInner parts = true →
    (readParts tokens rule parts pos).outcome = .matched ts next → Spells tokens pos ts next
  | [], pos, ts, next, _, h => by
    obtain ⟨rfl, rfl⟩ := parts_nil_matched_iff.mp h
    exact spells_nil tokens _
  | p :: parts, pos, ts, next, hp, h => by
    obtain ⟨us, m, vs, h₁, h₂, rfl⟩ := parts_cons_matched_iff.mp h
    simp only [partsInner, Bool.and_eq_true] at hp
    exact (readProduction_spells hrule p hp.1 h₁).append (readParts_spells hrule parts hp.2 h₂)

theorem readChoice_spells (hrule : Faithful tokens rule) :
    ∀ (alternatives : List (List Production)) {pos ts next},
    choiceInner alternatives = true →
    (readChoice tokens rule alternatives pos).outcome = .matched ts next → Spells tokens pos ts next
  | [], pos, ts, next, _, h => absurd h not_choice_nil_matched
  | parts :: alternatives, pos, ts, next, hp, h => by
    simp only [choiceInner, Bool.and_eq_true] at hp
    rcases choice_cons_matched_iff.mp h with h | ⟨-, h⟩
    · exact readParts_spells hrule parts hp.1 h
    · exact readChoice_spells hrule alternatives hp.2 h

end

end Production

theorem readRule_spells (fuel : Nat) :
    ∀ {r pos ts next}, (readRule tokens fuel r pos).outcome = .matched ts next →
      Spells tokens pos ts next := by
  induction fuel with
  | zero => intro r pos ts next h; cases h
  | succ fuel ih =>
    intro r pos ts next h
    refine readProduction_spells ⟨ih, ?_⟩ (production r) (production_isInner r) h
    -- an operand is one tree, with little fuel as with enough
    intro pos ts next ho
    rw [readRule_extends fuel .primary pos (by simp [ho])] at ho
    exact primary_single ho

theorem reading_spells {r : Rule} {pos next : Nat} {ts : List Tree}
    (h : (reading tokens r pos).outcome = .matched ts next) : Spells tokens pos ts next :=
  readRule_spells _ h

/-- Where an attempt has come to: it takes no token if it does not match. -/
def Result.stop : Result → Nat
  | .matched next => next
  | _ => 0

/-- The index of the first significant token that building a program leaves unread, or the number
of tokens if it reads them all. -/
def firstUnread (tokens : Array Token) (file : String) : Nat :=
  skip tokens (buildRule tokens (enoughFuel tokens) .block root 0 (.start file)).1.stop

theorem skip_le_size {pos : Nat} (h : pos ≤ tokens.size) : skip tokens pos ≤ tokens.size := by
  fun_induction skip tokens pos with
  | case1 pos hlt hb ih => exact ih hlt
  | case2 pos hlt hb => exact h
  | case3 pos hge => exact h

theorem lexemesBelow_zero (tokens : Array Token) : lexemesBelow tokens 0 = [] := by
  simp [lexemesBelow]

theorem lexemesBelow_prefix {m n : Nat} (h : m ≤ n) :
    lexemesBelow tokens m <+: lexemesBelow tokens n :=
  ((List.take_prefix_take_left h).filter _).map _

/-- Without significant tokens there are no leaves, and nothing is left unread. -/
theorem lexemesBelow_of_blank (h : tokens.size ≤ skip tokens 0) {n : Nat} (hn : n ≤ tokens.size) :
    lexemesBelow tokens n = [] := by
  have hall : lexemesBelow tokens (skip tokens 0) = [] := by
    rw [lexemesBelow_skip, lexemesBelow_zero]
  have hpre : lexemesBelow tokens n <+: lexemesBelow tokens (skip tokens 0) :=
    lexemesBelow_prefix (Nat.le_trans hn h)
  rw [hall] at hpre
  exact List.prefix_nil.mp hpre

theorem size_le_skip_of_blank (h : tokens.size ≤ skip tokens 0) (pos : Nat) :
    tokens.size ≤ skip tokens pos := by
  by_contra hlt
  have hget : tokenAt? tokens pos = some _ := Array.getElem?_eq_getElem (Nat.lt_of_not_le hlt)
  have hb := not_isBlank_of_tokenAt? hget
  have hsucc := lexemesBelow_succ hget
  rw [lexemesBelow_of_blank h (Nat.lt_of_not_le hlt), hb] at hsucc
  simp at hsucc

theorem programTree_lexemes (ts : List Tree) : (programTree ts).lexemes = Tree.lexemesAll ts :=
  Tree.lexemes_branch rfl 1 ts

theorem parseTokens_root (tokens : List Token) (file : String) :
    (parseTokens tokens file).root = (readProgram tokens.toArray).root := by
  rw [Parsed.root, (parseTokens_holds tokens file).2.toTree_eq]
  rfl

/-- The leaves of a program are the significant tokens before the first unread one, in their order,
and there is a diagnostic exactly if one is unread. -/
theorem parseTokens_lexemes (tokens : List Token) (file : String) :
    firstUnread tokens.toArray file ≤ tokens.length ∧
    (∀ t, tokens[firstUnread tokens.toArray file]? = some t → t.isBlank = false) ∧
    (parseTokens tokens file).root.lexemes =
      ((tokens.take (firstUnread tokens.toArray file)).filter fun t => !t.isBlank).map lexeme ∧
    ((parseTokens tokens file).diagnostic.isSome ↔
      firstUnread tokens.toArray file < tokens.length) := by
  obtain ⟨trees, next, b, hrun, ho, -, -, -⟩ := build_program tokens.toArray file
  have hunread : firstUnread tokens.toArray file = skip tokens.toArray next := by
    rw [firstUnread, hrun]
    rfl
  have hin : next ≤ tokens.toArray.size := by
    rcases (reading_proper .block 0).inside ho with rfl | hle
    · exact Nat.zero_le _
    · exact hle
  have hle : skip tokens.toArray next ≤ tokens.length := by simpa using skip_le_size hin
  -- the trees spell the tokens before them, and up to the first unread one only blanks are left
  have hlexemes : Tree.lexemesAll trees = lexemesBelow tokens.toArray (skip tokens.toArray next) := by
    have hspells := reading_spells ho
    rw [Spells, lexemesBelow_zero, List.nil_append] at hspells
    rw [lexemesBelow_skip, hspells]
  rw [hunread]
  refine ⟨hle, ?_, ?_, ?_⟩
  · intro t ht
    have hat : tokenAt? tokens.toArray next = some t := by simpa [tokenAt?] using ht
    exact not_isBlank_of_tokenAt? hat
  · rw [parseTokens_root]
    change _ = lexemesBelow tokens.toArray (skip tokens.toArray next)
    unfold readProgram
    -- a program without tokens has only blank ones
    split
    · rename_i hblank
      rw [lexemesBelow_of_blank hblank (by simpa using hle)]
      rfl
    · rw [ho, programTree_lexemes, hlexemes]
  · unfold parseTokens
    dsimp only
    -- there is a diagnostic if tokens are left
    split
    · rename_i hblank
      have hge := size_le_skip_of_blank hblank next
      simp only [List.size_toArray] at hge
      simp only [Option.isSome_none, Bool.false_eq_true, false_iff]
      omega
    · rw [hrun]
      simp only [leftOver, List.size_toArray]
      split <;> simp_all

end Grammar

end ScriptKit
