import ScriptKit.Proofs.Grammar.Operators
import ScriptKit.Proofs.Token.Words

namespace ScriptKit.Grammar

open Tree Word Token

/-- The parts of a program that are written in ways of their own. -/
inductive Role
  | value
  | operand
  | definition
  | statement
  | conditional
  | statements
  | items
  | indices

/-- A name as a word. -/
def named (x : String) : Word := ⟨.identifier, x⟩

/-- A name as a tree. -/
def nameTree (x : String) : Tree := .leaf .identifier x 0

/-- A function may be without a name. -/
def nameOf (x : String) : List Word :=
  if x = "" then [] else [named x]

/-- How the parts of a program are written. -/
inductive Printed : Role → List Tree → List Word → Prop
  | literal {w : Word} (hw : IsWord false w) (hk : (terminalKind w.kind).isLiteral = true) :
    Printed .operand [mark ⟨w.kind, w.text, 0⟩] [w]
  | operand {t : Tree} {w : List Word} (h : Printed .operand [t] w) : Printed .value [t] w
  | binary {x : String} {l r : Tree} {wl wr : List Word} (hx : IsWord false ⟨.operator, x⟩)
    (hl : Printed .value [l] wl) (hr : Printed .value [r] wr) :
    Printed .value [.node .binary x false 0 [l, r]]
      (l.asOperand wl ++ ⟨.operator, x⟩ :: r.asOperand wr)
  | comparison {x : String} {l r : Tree} {wl wr : List Word} (hx : IsWord false ⟨.comparator, x⟩)
    (hl : Printed .value [l] wl) (hr : Printed .value [r] wr) :
    Printed .value [.node .comparison x false 0 [l, r]]
      (l.asOperand wl ++ ⟨.comparator, x⟩ :: r.asOperand wr)
  | call {t : Tree} {ts : List Tree} {w ws : List Word} (h : Printed .value [t] w)
    (hs : Printed .items ts ws) :
    Printed .operand [.node .call "" false 0 [t, .node .expressionList "" false 0 ts]]
      (t.asOperand w ++ inParens ws)
  | member {x : String} {t : Tree} {w : List Word} (h : Printed .value [t] w)
    (hx : IsWord false (named x)) :
    Printed .operand [.node .member "" false 0 [t, nameTree x]]
      (t.asOperand w ++ [of .dot, named x])
  | index {t i : Tree} {w wi : List Word} (h : Printed .value [t] w) (hi : Printed .value [i] wi) :
    Printed .operand [.node .index "" false 0 [t, i]] (t.asOperand w ++ inBrackets wi)
  | array {ts : List Tree} {ws : List Word} (hs : Printed .items ts ws) :
    Printed .operand [.node .array "" false 0 [.node .expressionList "" false 0 ts]] (inBrackets ws)
  | assign {t v : Tree} {w wv : List Word} (ht : t.kind = .identifier ∨ t.kind = .member)
    (h : Printed .operand [t] w) (hv : Printed .value [v] wv) :
    Printed .value [.node .assign "" false 0 [t, v]] (w ++ of .assignment :: wv)
  | indexWrite {t v : Tree} {ts : List Tree} {w ws wv : List Word} (ht : t.kind ≠ .index)
    (h : Printed .value [t] w) (hne : ts ≠ []) (hs : Printed .indices ts ws)
    (hv : Printed .value [v] wv) :
    Printed .value [.node .indexWrite "" false 0 [t, .node .expressionList "" false 0 ts, v]]
      (t.asOperand w ++ ws ++ of .assignment :: wv)
  | defined {t : Tree} {w : List Word} (h : Printed .definition [t] w) : Printed .operand [t] w
  | function {x : String} {names : List String} {ts : List Tree} {ws : List Word}
    (hx : x = "" ∨ IsWord false (named x)) (hnames : ∀ n ∈ names, IsWord false (named n))
    (hs : Printed .statements ts ws) :
    Printed .definition [.node .function x false 0 [.node .argumentList "" false 0
      (names.map nameTree), .node .block "" false 0 ts]]
      (keyword "func" :: nameOf x ++ inParens (itemWords (names.map nameTree)) ++ inBraces ws)
  | classLiteral {x : String} {ts : List Tree} {ws : List Word} (hx : IsWord false (named x))
    (hs : Printed .statements ts ws) :
    Printed .definition [.node .classLiteral x false 0 [.node .block "" false 0 ts]]
      (keyword "class" :: named x :: inBraces ws)
  | expression {t : Tree} {w : List Word} (ht : t.kind ≠ .function ∧ t.kind ≠ .classLiteral)
    (h : Printed .value [t] w) : Printed .statement [t] (w ++ [of .semicolon])
  | definition {t : Tree} {w : List Word} (h : Printed .definition [t] w) :
    Printed .statement [statementOf 0 [t]] (w ++ [of .semicolon])
  | declaration {x : String} (hx : IsWord false (named x)) :
    Printed .statement [.node .declaration "" false 0 [nameTree x]]
      [keyword "let", named x, of .semicolon]
  | initialisation {x : String} {v : Tree} {wv : List Word} (hx : IsWord false (named x))
    (hv : Printed .value [v] wv) :
    Printed .statement [.node .initialisation "" false 0 [nameTree x, v]]
      (keyword "let" :: named x :: of .assignment :: wv ++ [of .semicolon])
  | loop {t : Tree} {ts : List Tree} {w ws : List Word} (h : Printed .value [t] w)
    (hs : Printed .statements ts ws) :
    Printed .statement [.node .whileStatement "" false 0 [t, .node .block "" false 0 ts]]
      (keyword "while" :: inParens w ++ inBraces ws)
  | conditional {t : Tree} {w : List Word} (h : Printed .conditional [t] w) :
    Printed .statement [t] w
  | plain {t : Tree} {ts : List Tree} {w ws : List Word} (h : Printed .value [t] w)
    (hs : Printed .statements ts ws) :
    Printed .conditional [.node .ifStatement "" false 0 [t, .node .block "" false 0 ts]]
      (keyword "if" :: inParens w ++ inBraces ws)
  | withElse {t : Tree} {ts us : List Tree} {w ws wu : List Word} (h : Printed .value [t] w)
    (hs : Printed .statements ts ws) (hu : Printed .statements us wu) :
    Printed .conditional [.node .ifStatement "" false 0
      [t, .node .block "" false 0 ts, .node .block "" false 0 us]]
      (keyword "if" :: inParens w ++ inBraces ws ++ keyword "else" :: inBraces wu)
  | withElseIf {t u : Tree} {ts : List Tree} {w ws wu : List Word} (h : Printed .value [t] w)
    (hs : Printed .statements ts ws) (hu : Printed .conditional [u] wu) :
    Printed .conditional [.node .ifStatement "" false 0 [t, .node .block "" false 0 ts, u]]
      (keyword "if" :: inParens w ++ inBraces ws ++ keyword "else" :: wu)
  | noStatements : Printed .statements [] []
  | moreStatements {t : Tree} {ts : List Tree} {w ws : List Word} (h : Printed .statement [t] w)
    (hs : Printed .statements ts ws) : Printed .statements (t :: ts) (w ++ ws)
  | noItems : Printed .items [] []
  | lastItem {t : Tree} {w : List Word} (h : Printed .value [t] w) : Printed .items [t] w
  | moreItems {t u : Tree} {ts : List Tree} {w ws : List Word} (h : Printed .value [t] w)
    (hs : Printed .items (u :: ts) ws) : Printed .items (t :: u :: ts) (w ++ of .comma :: ws)
  | noIndices : Printed .indices [] []
  | moreIndices {t : Tree} {ts : List Tree} {w ws : List Word} (h : Printed .value [t] w)
    (hs : Printed .indices ts ws) : Printed .indices (t :: ts) (inBrackets w ++ ws)

section Clear

variable {role : Role} {t : Tree} {ts : List Tree} {w ws : List Word} {b : Bool}

/-- What stands without parentheses as an operand is a single word. -/
theorem Printed.simple (h : Printed .value [t] ws) (hs : t.isSimple = true) :
    ∃ w : Word, ws = [w] ∧ (∀ b, IsWord b w) ∧ (terminalKind w.kind).isLiteral = true ∧
      t = mark ⟨w.kind, w.text, 0⟩ := by
  cases h with
  | operand h =>
    cases h with
    | literal hw hk =>
      refine ⟨_, rfl, hw.anywhere ?_, hk, rfl⟩
      intro hnumber hminus
      have hmark : ∀ x, mark ⟨.number, x, 0⟩ = .node .number x true 0 [] := fun _ => rfl
      simp [hnumber, hmark, isSimple, hminus] at hs
    | defined h => cases h <;> cases hs
    | _ => cases hs
  | _ => cases hs

theorem clear_operand (h : Printed .value [t] w) (hw : Clear false w) (b : Bool) :
    Clear b (t.asOperand w) := by
  rw [asOperand]
  split
  · rename_i hs
    obtain ⟨w, rfl, hword, -, -⟩ := h.simple hs
    exact ⟨hword b, trivial⟩
  · exact ⟨isWord_of b (by decide), clear_append.mpr ⟨hw, isWord_of _ (by decide), trivial⟩⟩

/-- The words of a part can be told apart where the part can stand. After a statement a minus sign
is not an operator. -/
def ClearAs : Role → List Word → Prop
  | .statement, ws | .conditional, ws | .statements, ws =>
    Clear false ws ∧ minusAfter false ws = false
  | .indices, ws => ∀ b, Clear b ws
  | _, ws => Clear false ws

theorem clear_of {k : Token.Kind} (hk : (of k).text ≠ "") :
    Clear b (of k :: ws) ↔ Clear k.endsOperand ws :=
  ⟨fun h => h.2, fun h => ⟨isWord_of b hk, h⟩⟩

theorem clear_keyword {x : String} (hx : x ∈ ["let", "func", "if", "else", "while", "class"]) :
    Clear b (keyword x :: ws) ↔ Clear false ws :=
  ⟨fun h => h.2, fun h => ⟨isWord_keyword b hx, h⟩⟩

theorem clear_between {first last : Token.Kind} (hfirst : (of first).text ≠ "")
    (hlast : (of last).text ≠ "") (hends : first.endsOperand = false) :
    Clear b (between first last ws) ↔ Clear false ws := by
  rw [between, List.cons_append, clear_of hfirst, hends, clear_append, clear_of hlast]
  exact ⟨fun h => h.1, fun h => ⟨h, trivial⟩⟩

theorem clear_inParens : Clear b (inParens ws) ↔ Clear false ws :=
  clear_between (by decide) (by decide) rfl

theorem clear_inBrackets : Clear b (inBrackets ws) ↔ Clear false ws :=
  clear_between (by decide) (by decide) rfl

theorem clear_inBraces : Clear b (inBraces ws) ↔ Clear false ws :=
  clear_between (by decide) (by decide) rfl

theorem minusAfter_between {first last : Token.Kind} :
    minusAfter b (between first last ws) = last.endsOperand := by
  rw [between, List.cons_append, minusAfter, minusAfter_append]
  rfl

/-- A test in parentheses and a block, after a keyword. -/
theorem clear_test {x : String} (hx : x ∈ ["let", "func", "if", "else", "while", "class"])
    (hw : Clear false w) (hws : Clear false ws) :
    Clear false (keyword x :: inParens w ++ inBraces ws) :=
  clear_append.mpr ⟨(clear_keyword hx).mpr (clear_inParens.mpr hw), clear_inBraces.mpr hws⟩

/-- Names with commas between them. -/
theorem clear_names {names : List String} (h : ∀ n ∈ names, IsWord false (named n)) :
    Clear false (itemWords (names.map nameTree)) := by
  induction names with
  | nil => trivial
  | cons n names ih =>
    have hn := h n List.mem_cons_self
    have hnames := ih fun m hm => h m (List.mem_cons_of_mem _ hm)
    cases names with
    | nil => exact ⟨hn, trivial⟩
    | cons m names => exact ⟨hn, (clear_of (by decide)).mpr hnames⟩

theorem Printed.clear (h : Printed role ts ws) : ClearAs role ws := by
  -- a word that is no number may stand anywhere; only a minus and its digits are one token
  have hword : ∀ {k : Token.Kind} {x : String} {b : Bool} {ws : List Word}, IsWord false ⟨k, x⟩ →
      k ≠ .number → Clear k.endsOperand ws → Clear b (⟨k, x⟩ :: ws) := by
    intro k x b ws hx hk hws
    exact ⟨hx.anywhere (fun hnumber => absurd hnumber hk) b, hws⟩
  induction h with
  | literal hw hk => exact ⟨hw, trivial⟩
  | binary hx hl hr ihl ihr | comparison hx hl hr ihl ihr =>
    exact clear_append.mpr ⟨clear_operand hl ihl _, hword hx (by simp) (clear_operand hr ihr _)⟩
  | call h hs ih ihs => exact clear_append.mpr ⟨clear_operand h ih _, clear_inParens.mpr ihs⟩
  | member h hx ih =>
    refine clear_append.mpr ⟨clear_operand h ih _, (clear_of (by decide)).mpr ?_⟩
    exact ⟨hx, trivial⟩
  | index h hi ih ihi => exact clear_append.mpr ⟨clear_operand h ih _, clear_inBrackets.mpr ihi⟩
  | array hs ihs => exact clear_inBrackets.mpr ihs
  | assign ht h hv ih ihv => exact clear_append.mpr ⟨ih, (clear_of (by decide)).mpr ihv⟩
  | indexWrite ht h hne hs hv ih ihs ihv =>
    refine clear_append.mpr ⟨clear_append.mpr ⟨clear_operand h ih _, ihs _⟩, ?_⟩
    exact (clear_of (by decide)).mpr ihv
  | operand h ih | defined h ih => exact ih
  | @function x names ts ws hx hnames hs ihs =>
    have hbody : ∀ {b}, Clear b (inParens (itemWords (names.map nameTree)) ++ inBraces ws) :=
      clear_append.mpr ⟨clear_inParens.mpr (clear_names hnames), clear_inBraces.mpr ihs.1⟩
    rw [List.cons_append, List.cons_append]
    refine (clear_keyword (by simp)).mpr ?_
    rw [List.append_assoc, nameOf]
    split
    · exact hbody
    · rename_i hne
      exact ⟨hx.resolve_left hne, hbody⟩
  | classLiteral hx hs ihs => exact (clear_keyword (by simp)).mpr ⟨hx, clear_inBraces.mpr ihs.1⟩
  | expression ht h ih | definition h ih =>
    exact ⟨clear_append.mpr ⟨ih, (clear_of (by decide)).mpr trivial⟩, minusAfter_append _ _⟩
  | declaration hx =>
    exact ⟨(clear_keyword (by simp)).mpr ⟨hx, (clear_of (by decide)).mpr trivial⟩, rfl⟩
  | initialisation hx hv ihv =>
    refine ⟨(clear_keyword (by simp)).mpr ⟨hx, (clear_of (by decide)).mpr ?_⟩,
      minusAfter_append (_ :: _ :: _ :: _) _⟩
    exact clear_append.mpr ⟨ihv, (clear_of (by decide)).mpr trivial⟩
  | loop h hs ih ihs | plain h hs ih ihs =>
    exact ⟨clear_test (by simp) ih ihs.1, (minusAfter_append (_ :: _) _).trans minusAfter_between⟩
  | conditional h ih => exact ih
  | withElse h hs hu ih ihs ihu =>
    refine ⟨clear_append.mpr ⟨clear_test (by simp) ih ihs.1, ?_⟩, ?_⟩
    · exact (clear_keyword (by simp)).mpr (clear_inBraces.mpr ihu.1)
    · rw [minusAfter_append, minusAfter, inBraces, minusAfter_between]
      rfl
  | withElseIf h hs hu ih ihs ihu =>
    refine ⟨clear_append.mpr ⟨clear_test (by simp) ih ihs.1, ?_⟩, ?_⟩
    · exact (clear_keyword (by simp)).mpr ihu.1
    · exact (minusAfter_append _ (_ :: _)).trans ihu.2
  | noStatements => exact ⟨trivial, rfl⟩
  | moreStatements h hs ih ihs =>
    refine ⟨clear_append.mpr ⟨ih.1, ?_⟩, ?_⟩
    · rw [ih.2]
      exact ihs.1
    · rw [minusAfter_append, ih.2, ihs.2]
  | noItems => trivial
  | noIndices => exact fun _ => trivial
  | lastItem h ih => exact ih
  | moreItems h hs ih ihs => exact clear_append.mpr ⟨ih, (clear_of (by decide)).mpr ihs⟩
  | moreIndices h hs ih ihs =>
    intro b
    exact clear_append.mpr ⟨clear_inBrackets.mpr ih, ihs _⟩

end Clear

end ScriptKit.Grammar
