import ScriptKit.Proofs.Grammar.Printed

namespace ScriptKit.Grammar

open Tree Word Token

section Trees

/-- What is known of the words of a node, by its kind. -/
structure Prints (t : Tree) : Prop where
  value : t.isValue = true → Printed .value [t.withoutLines] t.words
  target : t.kind = .identifier ∨ t.kind = .member → Printed .operand [t.withoutLines] t.words
  definition : t.kind = .function ∨ t.kind = .classLiteral →
    Printed .definition [t.withoutLines] t.words
  conditional : t.kind = .ifStatement → Printed .conditional [t.withoutLines] t.words
  statement : t.kind.isStatement = true → Printed .statement [t.withoutLines] (t.words ++ t.ending)
  block : t.kind = .block → ∃ ts ws, t.withoutLines = .node .block "" false 0 ts ∧
    t.words = inBraces ws ∧ Printed .statements ts ws
  list : t.kind = .expressionList → ∃ ts, t.withoutLines = .node .expressionList "" false 0 ts ∧
    Printed .items ts t.words ∧ Printed .indices ts (indexWords t.children) ∧
    (t.children ≠ [] → ts ≠ [])
  name : t.kind = .identifier → t.withoutLines = nameTree t.text ∧ t.words = [named t.text] ∧
    IsWord false (named t.text)
  names : t.kind = .argumentList → ∃ names : List String, t.withoutLines =
    .node .argumentList "" false 0 (names.map nameTree) ∧
    t.words = itemWords (names.map nameTree) ∧ ∀ n ∈ names, IsWord false (named n)

theorem asOperand_withoutLines (t : Tree) (ws : List Word) :
    t.withoutLines.asOperand ws = t.asOperand ws := by
  simp [asOperand, isSimple]

theorem isWord_of_isText {k : Token.Kind} {x : String} (h : isText k x = true)
    (hk : k ≠ .whitespace ∧ k ≠ .comment) : IsWord false ⟨k, x⟩ :=
  ⟨by simpa [isText] using h, hk⟩

theorem printed_statements {ts : List Tree} (h : ∀ t ∈ ts, Prints t)
    (hk : ∀ t ∈ ts, t.kind.isStatement = true) :
    Printed .statements (ts.map withoutLines) (statementWords ts) := by
  induction ts with
  | nil => exact .noStatements
  | cons t ts ih =>
    rw [List.map_cons, statementWords]
    refine .moreStatements ((h t List.mem_cons_self).statement (hk t List.mem_cons_self)) (ih ?_ ?_)
    · exact fun u hu => h u (List.mem_cons_of_mem _ hu)
    · exact fun u hu => hk u (List.mem_cons_of_mem _ hu)

theorem printed_items {ts : List Tree} (h : ∀ t ∈ ts, Printed .value [t.withoutLines] t.words) :
    Printed .items (ts.map withoutLines) (itemWords ts) := by
  induction ts with
  | nil => exact .noItems
  | cons t ts ih =>
    have ht := h t List.mem_cons_self
    cases ts with
    | nil => exact .lastItem ht
    | cons u ts => exact .moreItems ht (ih fun v hv => h v (List.mem_cons_of_mem _ hv))

theorem printed_indices {ts : List Tree} (h : ∀ t ∈ ts, Printed .value [t.withoutLines] t.words) :
    Printed .indices (ts.map withoutLines) (indexWords ts) := by
  induction ts with
  | nil => exact .noIndices
  | cons t ts ih =>
    exact .moreIndices (h t List.mem_cons_self) (ih fun v hv => h v (List.mem_cons_of_mem _ hv))

theorem Prints.of_value {t : Tree} (hv : t.isValue = true)
    (hk : t.kind ≠ .function ∧ t.kind ≠ .classLiteral) (h : Printed .value [t.withoutLines] t.words)
    (htarget : t.kind = .identifier ∨ t.kind = .member → Printed .operand [t.withoutLines] t.words)
    (hname : t.kind = .identifier → t.withoutLines = nameTree t.text ∧ t.words = [named t.text] ∧
      IsWord false (named t.text)) : Prints t := by
  have hother : ∀ k : Tree.Kind, k.isValue = false → t.kind ≠ k := by
    rintro k hk' rfl
    rw [isValue, hk'] at hv
    cases hv
  refine ⟨fun _ => h, htarget, ?_, ?_, fun _ => ?_, ?_, ?_, hname, ?_⟩
  · exact fun hd => (hd.elim hk.1 hk.2).elim
  · exact fun hc => (hother _ rfl hc).elim
  · rw [ending, if_neg (not_or.mpr ⟨hother _ rfl, hother _ rfl⟩)]
    exact .expression (by simpa using hk) h
  all_goals exact fun hc => (hother _ rfl hc).elim

theorem Prints.of_statement {t : Tree} (hv : t.isValue = false) (hk : t.kind.isStatement = true)
    (h : Printed .statement [t.withoutLines] (t.words ++ t.ending))
    (hc : t.kind = .ifStatement → Printed .conditional [t.withoutLines] t.words) : Prints t := by
  have hother : ∀ k : Tree.Kind, k.isStatement = false → t.kind ≠ k := by
    rintro k hk' rfl
    rw [hk'] at hk
    cases hk
  have hvalue : ∀ k : Tree.Kind, k.isValue = true → t.kind ≠ k := by
    rintro k hk' rfl
    rw [isValue, hk'] at hv
    cases hv
  refine ⟨fun h' => ?_, ?_, ?_, hc, fun _ => h, ?_, ?_, ?_, ?_⟩
  · rw [hv] at h'
    cases h'
  · exact fun hd => hd.elim (fun hd => (hvalue _ rfl hd).elim) (fun hd => (hvalue _ rfl hd).elim)
  · exact fun hd => hd.elim (fun hd => (hother _ rfl hd).elim) (fun hd => (hother _ rfl hd).elim)
  · exact fun hc => (hother _ rfl hc).elim
  · exact fun hc => (hother _ rfl hc).elim
  · exact fun hc => (hvalue _ rfl hc).elim
  · exact fun hc => (hother _ rfl hc).elim

variable {text : String} {evaluated : Bool} {line : Nat} {children : List Tree}

/-- A node of a kind that has no text. -/
theorem textFits_plain {kind : Tree.Kind}
    (h : textFits (.node kind text evaluated line children) = true)
    (hk : kind.isLiteral = false ∧ kind ≠ .classLiteral ∧ kind ≠ .function ∧ kind ≠ .binary ∧
      kind ≠ .comparison) : text = "" ∧ evaluated = false := by
  obtain ⟨hliteral, hc, hf, hb, hcmp⟩ := hk
  cases kind <;> first
    | contradiction
    | (simp [textFits] at h; exact ⟨h.2, h.1⟩)
    | (simp [textFits] at h)

theorem prints_literal {kind : Tree.Kind} (hk : kind.isLiteral = true)
    (h : textFits (.node kind text evaluated line []) = true) :
    ∃ w : Word, IsWord false w ∧ (terminalKind w.kind).isLiteral = true ∧
      Tree.withoutLines (.node kind text evaluated line []) = mark ⟨w.kind, w.text, 0⟩ ∧
      words (.node kind text evaluated line []) = [w] := by
  cases kind <;> try { cases hk }
  · obtain ⟨rfl, hx⟩ : evaluated = true ∧ isText .number text = true := by simpa [textFits] using h
    exact ⟨_, isWord_of_isText hx (by simp), rfl, rfl, rfl⟩
  · obtain rfl : evaluated = false := by simpa [textFits] using h
    refine ⟨_, isWord_quoted false text, rfl, ?_, rfl⟩
    have hmark :
        mark ⟨.string, (quoted text).text, 0⟩ = .leaf .string (unquote (quoted text).text) 0 :=
      rfl
    rw [show (quoted text).kind = .string from rfl, hmark, unquote_quoted]
    rfl
  · obtain ⟨rfl, hx⟩ : evaluated = false ∧ isText .boolean text = true := by simpa [textFits] using h
    exact ⟨_, isWord_of_isText hx (by simp), rfl, rfl, rfl⟩
  · obtain ⟨rfl, hx⟩ : evaluated = false ∧ isText .identifier text = true := by
      simpa [textFits] using h
    exact ⟨_, isWord_of_isText hx (by simp), rfl, rfl, rfl⟩
  · obtain ⟨rfl, hx⟩ : evaluated = false ∧ isText .null text = true := by simpa [textFits] using h
    exact ⟨_, isWord_of_isText hx (by simp), rfl, rfl, rfl⟩

theorem prints_binary {l r : Tree} (h : textFits (.node .binary text evaluated line [l, r]) = true)
    (hl : Printed .value [l.withoutLines] l.words) (hr : Printed .value [r.withoutLines] r.words) :
    Prints (.node .binary text evaluated line [l, r]) := by
  obtain ⟨rfl, hx⟩ : evaluated = false ∧ isText .operator text = true := by simpa [textFits] using h
  refine .of_value rfl (by simp) ?_ (by simp) (by simp)
  have hprinted := Printed.binary (isWord_of_isText hx (by simp)) hl hr
  rwa [asOperand_withoutLines, asOperand_withoutLines] at hprinted

theorem prints_comparison {l r : Tree}
    (h : textFits (.node .comparison text evaluated line [l, r]) = true)
    (hl : Printed .value [l.withoutLines] l.words) (hr : Printed .value [r.withoutLines] r.words) :
    Prints (.node .comparison text evaluated line [l, r]) := by
  obtain ⟨rfl, hx⟩ : evaluated = false ∧ isText .comparator text = true := by
    simpa [textFits] using h
  refine .of_value rfl (by simp) ?_ (by simp) (by simp)
  have hprinted := Printed.comparison (isWord_of_isText hx (by simp)) hl hr
  rwa [asOperand_withoutLines, asOperand_withoutLines] at hprinted

theorem prints_assign {t v : Tree} (h : textFits (.node .assign text evaluated line [t, v]) = true)
    (ht : Prints t) (hk : t.kind = .identifier ∨ t.kind = .member)
    (hv : Printed .value [v.withoutLines] v.words) :
    Prints (.node .assign text evaluated line [t, v]) := by
  obtain ⟨rfl, rfl⟩ := textFits_plain h (by simp [Kind.isLiteral])
  refine .of_value rfl (by simp) ?_ (by simp) (by simp)
  exact .assign (by simpa using hk) (ht.target hk) hv

theorem prints_indexWrite {t list v : Tree}
    (h : textFits (.node .indexWrite text evaluated line [t, list, v]) = true)
    (ht : Printed .value [t.withoutLines] t.words) (hk : t.kind ≠ .index) (hlist : Prints list)
    (hkind : list.kind = .expressionList) (hne : list.children ≠ [])
    (hv : Printed .value [v.withoutLines] v.words) :
    Prints (.node .indexWrite text evaluated line [t, list, v]) := by
  obtain ⟨rfl, rfl⟩ := textFits_plain h (by simp [Kind.isLiteral])
  obtain ⟨ts, htree, -, hindices, hts⟩ := hlist.list hkind
  refine .of_value rfl (by simp) ?_ (by simp) (by simp)
  have hprinted := Printed.indexWrite (by simpa using hk) ht (hts hne) hindices hv
  rw [asOperand_withoutLines, ← htree] at hprinted
  obtain ⟨k, x, e, l, indices⟩ := list
  exact hprinted

theorem prints_call {t list : Tree} (h : textFits (.node .call text evaluated line [t, list]) = true)
    (ht : Printed .value [t.withoutLines] t.words) (hlist : Prints list)
    (hkind : list.kind = .expressionList) : Prints (.node .call text evaluated line [t, list]) := by
  obtain ⟨rfl, rfl⟩ := textFits_plain h (by simp [Kind.isLiteral])
  obtain ⟨ts, htree, hitems, -⟩ := hlist.list hkind
  refine .of_value rfl (by simp) ?_ (by simp) (by simp)
  have hprinted := Printed.operand <| Printed.call ht hitems
  rwa [asOperand_withoutLines, ← htree] at hprinted

theorem prints_member {t name : Tree}
    (h : textFits (.node .member text evaluated line [t, name]) = true)
    (ht : Printed .value [t.withoutLines] t.words) (hname : Prints name)
    (hkind : name.kind = .identifier) : Prints (.node .member text evaluated line [t, name]) := by
  obtain ⟨rfl, rfl⟩ := textFits_plain h (by simp [Kind.isLiteral])
  obtain ⟨htree, hwords, hx⟩ := hname.name hkind
  have hprinted := Printed.member ht hx
  rw [asOperand_withoutLines, ← htree, ← hwords] at hprinted
  exact .of_value rfl (by simp) (.operand hprinted) (fun _ => hprinted) (by simp)

theorem prints_index {t i : Tree} (h : textFits (.node .index text evaluated line [t, i]) = true)
    (ht : Printed .value [t.withoutLines] t.words) (hi : Printed .value [i.withoutLines] i.words) :
    Prints (.node .index text evaluated line [t, i]) := by
  obtain ⟨rfl, rfl⟩ := textFits_plain h (by simp [Kind.isLiteral])
  refine .of_value rfl (by simp) ?_ (by simp) (by simp)
  have hprinted := Printed.operand <| Printed.index ht hi
  rwa [asOperand_withoutLines] at hprinted

theorem prints_array {list : Tree} (h : textFits (.node .array text evaluated line [list]) = true)
    (hlist : Prints list) (hkind : list.kind = .expressionList) :
    Prints (.node .array text evaluated line [list]) := by
  obtain ⟨rfl, rfl⟩ := textFits_plain h (by simp [Kind.isLiteral])
  obtain ⟨ts, htree, hitems, -⟩ := hlist.list hkind
  refine .of_value rfl (by simp) ?_ (by simp) (by simp)
  have hprinted := Printed.operand <| Printed.array hitems
  rwa [← htree] at hprinted

theorem Prints.of_definition {t : Tree} (hk : t.kind = .function ∨ t.kind = .classLiteral)
    (h : Printed .definition [t.withoutLines] t.words) : Prints t := by
  have hother : ∀ k : Tree.Kind, k ≠ .function → k ≠ .classLiteral → t.kind ≠ k := by
    rintro k hf hc rfl
    exact hk.elim hf hc
  have hnone : t.kind.isStatement = false := by
    rcases hk with hk | hk <;> rw [hk] <;> rfl
  refine ⟨fun _ => .operand (.defined h), fun _ => .defined h, fun _ => h, ?_, ?_, ?_, ?_, ?_, ?_⟩
  · exact fun hc => (hother _ (by simp) (by simp) hc).elim
  · exact fun hs => absurd hs (by simp [hnone])
  all_goals exact fun hc => (hother _ (by simp) (by simp) hc).elim

theorem prints_function {parameters body : Tree}
    (h : textFits (.node .function text evaluated line [parameters, body]) = true)
    (hp : Prints parameters) (hpk : parameters.kind = .argumentList) (hb : Prints body)
    (hbk : body.kind = .block) : Prints (.node .function text evaluated line [parameters, body]) := by
  obtain ⟨rfl, hx⟩ : evaluated = false ∧ (text = "" ∨ isText .identifier text = true) := by
    simpa [textFits] using h
  have hname : text = "" ∨ IsWord false (named text) :=
    hx.imp_right fun hx => isWord_of_isText hx (by simp)
  obtain ⟨names, hnames, hpwords, hall⟩ := hp.names hpk
  obtain ⟨ts, ws, htree, hbwords, hs⟩ := hb.block hbk
  refine .of_definition (Or.inl rfl) ?_
  have hprinted := Printed.function hname hall hs
  rwa [← hnames, ← htree, ← hpwords, ← hbwords] at hprinted

theorem prints_class {body : Tree}
    (h : textFits (.node .classLiteral text evaluated line [body]) = true)
    (hb : Prints body) (hbk : body.kind = .block) :
    Prints (.node .classLiteral text evaluated line [body]) := by
  obtain ⟨rfl, hx⟩ : evaluated = false ∧ isText .identifier text = true := by
    simpa [textFits] using h
  obtain ⟨ts, ws, htree, hbwords, hs⟩ := hb.block hbk
  refine .of_definition (Or.inr rfl) ?_
  have hprinted := Printed.classLiteral (isWord_of_isText hx (by simp)) hs
  rwa [← htree, ← hbwords] at hprinted

/-- A function or a class as a statement. -/
theorem prints_definition {kind : Tree.Kind} {t : Tree}
    (h : textFits (.node kind text evaluated line [t]) = true) (ht : Prints t)
    (hk : (kind = .functionDefinition ∧ t.kind = .function) ∨
      (kind = .classDefinition ∧ t.kind = .classLiteral)) :
    Prints (.node kind text evaluated line [t]) := by
  rcases hk with ⟨rfl, hk⟩ | ⟨rfl, hk⟩
  · obtain ⟨rfl, rfl⟩ := textFits_plain h (by simp [Kind.isLiteral])
    have hprinted := Printed.definition (ht.definition (Or.inl hk))
    rw [statementOf, kind_withoutLines, hk] at hprinted
    exact .of_statement rfl rfl hprinted (by simp)
  · obtain ⟨rfl, rfl⟩ := textFits_plain h (by simp [Kind.isLiteral])
    have hprinted := Printed.definition (ht.definition (Or.inr hk))
    rw [statementOf, kind_withoutLines, hk] at hprinted
    exact .of_statement rfl rfl hprinted (by simp)

theorem prints_declaration {name : Tree}
    (h : textFits (.node .declaration text evaluated line [name]) = true) (hname : Prints name)
    (hk : name.kind = .identifier) : Prints (.node .declaration text evaluated line [name]) := by
  obtain ⟨rfl, rfl⟩ := textFits_plain h (by simp [Kind.isLiteral])
  obtain ⟨htree, hwords, hx⟩ := hname.name hk
  refine .of_statement rfl rfl ?_ (by simp)
  have hprinted := Printed.declaration hx
  rw [← htree] at hprinted
  have hall : words (.node .declaration "" false line [name]) ++ [of .semicolon] =
      [keyword "let", named name.text, of .semicolon] := by
    rw [show words (.node .declaration "" false line [name]) = keyword "let" :: name.words from rfl,
      hwords]
    rfl
  exact hall ▸ hprinted

theorem prints_initialisation {name v : Tree}
    (h : textFits (.node .initialisation text evaluated line [name, v]) = true) (hname : Prints name)
    (hk : name.kind = .identifier) (hv : Printed .value [v.withoutLines] v.words) :
    Prints (.node .initialisation text evaluated line [name, v]) := by
  obtain ⟨rfl, rfl⟩ := textFits_plain h (by simp [Kind.isLiteral])
  obtain ⟨htree, hwords, hx⟩ := hname.name hk
  refine .of_statement rfl rfl ?_ (by simp)
  have hprinted := Printed.initialisation hx hv
  rw [← htree] at hprinted
  have hall : words (.node .initialisation "" false line [name, v]) ++ [of .semicolon] =
      keyword "let" :: named name.text :: of .assignment :: v.words ++ [of .semicolon] := by
    rw [show words (.node .initialisation "" false line [name, v]) =
      keyword "let" :: name.words ++ of .assignment :: v.words from rfl, hwords]
    rfl
  exact hall ▸ hprinted

theorem prints_loop {t body : Tree}
    (h : textFits (.node .whileStatement text evaluated line [t, body]) = true)
    (ht : Printed .value [t.withoutLines] t.words) (hb : Prints body) (hbk : body.kind = .block) :
    Prints (.node .whileStatement text evaluated line [t, body]) := by
  obtain ⟨rfl, rfl⟩ := textFits_plain h (by simp [Kind.isLiteral])
  obtain ⟨ts, ws, htree, hbwords, hs⟩ := hb.block hbk
  refine .of_statement rfl rfl ?_ (by simp)
  have hprinted := Printed.loop ht hs
  rw [← htree, ← hbwords] at hprinted
  rw [show ending (.node .whileStatement "" false line [t, body]) = [] from rfl, List.append_nil]
  exact hprinted

theorem Prints.of_conditional {t : Tree} (hk : t.kind = .ifStatement)
    (h : Printed .conditional [t.withoutLines] t.words) : Prints t := by
  have hending : t.ending = [] := by
    rw [ending, if_pos (Or.inl hk)]
  refine .of_statement (by rw [isValue, hk]; rfl) (by rw [hk]; rfl) ?_ fun _ => h
  rw [hending, List.append_nil]
  exact .conditional h

theorem prints_conditional {t body : Tree}
    (h : textFits (.node .ifStatement text evaluated line [t, body]) = true)
    (ht : Printed .value [t.withoutLines] t.words) (hb : Prints body) (hbk : body.kind = .block) :
    Prints (.node .ifStatement text evaluated line [t, body]) := by
  obtain ⟨rfl, rfl⟩ := textFits_plain h (by simp [Kind.isLiteral])
  obtain ⟨ts, ws, htree, hbwords, hs⟩ := hb.block hbk
  refine .of_conditional rfl ?_
  have hprinted := Printed.plain ht hs
  rwa [← htree, ← hbwords] at hprinted

theorem prints_alternative {t body other : Tree}
    (h : textFits (.node .ifStatement text evaluated line [t, body, other]) = true)
    (ht : Printed .value [t.withoutLines] t.words) (hb : Prints body) (hbk : body.kind = .block)
    (ho : Prints other) (hok : other.kind = .block ∨ other.kind = .ifStatement) :
    Prints (.node .ifStatement text evaluated line [t, body, other]) := by
  obtain ⟨rfl, rfl⟩ := textFits_plain h (by simp [Kind.isLiteral])
  obtain ⟨ts, ws, htree, hbwords, hs⟩ := hb.block hbk
  refine .of_conditional rfl ?_
  rcases hok with hok | hok
  · obtain ⟨us, wu, hotree, howords, hu⟩ := ho.block hok
    have hprinted := Printed.withElse ht hs hu
    rwa [← htree, ← hbwords, ← hotree, ← howords] at hprinted
  · have hprinted := Printed.withElseIf ht hs (ho.conditional hok)
    rwa [← htree, ← hbwords] at hprinted

theorem prints_block (h : textFits (.node .block text evaluated line children) = true)
    (hall : ∀ c ∈ children, Prints c) (hk : ∀ c ∈ children, c.kind.isStatement = true) :
    Prints (.node .block text evaluated line children) := by
  obtain ⟨rfl, rfl⟩ := textFits_plain h (by simp [Kind.isLiteral])
  refine ⟨by simp [isValue, Kind.isValue], by simp, by simp, by simp,
    by simp [Kind.isStatement, Kind.isValue], fun _ => ?_, by simp, by simp, by simp⟩
  exact ⟨_, _, withoutLines_node _ _ _ _ _, rfl, printed_statements hall hk⟩

theorem prints_list (h : textFits (.node .expressionList text evaluated line children) = true)
    (hall : ∀ c ∈ children, Printed .value [c.withoutLines] c.words) :
    Prints (.node .expressionList text evaluated line children) := by
  obtain ⟨rfl, rfl⟩ := textFits_plain h (by simp [Kind.isLiteral])
  refine ⟨by simp [isValue, Kind.isValue], by simp, by simp, by simp,
    by simp [Kind.isStatement, Kind.isValue], by simp, fun _ => ?_, by simp, by simp⟩
  refine ⟨_, withoutLines_node _ _ _ _ _, printed_items hall, printed_indices hall, ?_⟩
  simp

theorem itemWords_map {f : Tree → Tree} {ts : List Tree} (h : ∀ t ∈ ts, (f t).words = t.words) :
    itemWords (ts.map f) = itemWords ts := by
  induction ts with
  | nil => rfl
  | cons t ts ih =>
    have ht := h t List.mem_cons_self
    have hts := ih fun u hu => h u (List.mem_cons_of_mem _ hu)
    cases ts with
    | nil => exact ht
    | cons u ts =>
      rw [List.map_cons] at hts
      rw [List.map_cons, List.map_cons, itemWords_cons_cons, itemWords_cons_cons, ht, hts]

theorem prints_names (h : textFits (.node .argumentList text evaluated line children) = true)
    (hall : ∀ c ∈ children, Prints c) (hk : ∀ c ∈ children, c.kind = .identifier) :
    Prints (.node .argumentList text evaluated line children) := by
  obtain ⟨rfl, rfl⟩ := textFits_plain h (by simp [Kind.isLiteral])
  have hname : ∀ c ∈ children, c.withoutLines = nameTree c.text ∧ c.words = [named c.text] ∧
      IsWord false (named c.text) := fun c hc => (hall c hc).name (hk c hc)
  have htrees : children.map withoutLines = (children.map Tree.text).map nameTree := by
    rw [List.map_map]
    exact List.map_congr_left fun c hc => (hname c hc).1
  have hwords : itemWords (children.map withoutLines) = itemWords children := by
    refine itemWords_map fun c hc => ?_
    rw [(hname c hc).1, (hname c hc).2.1]
    rfl
  refine ⟨by simp [isValue, Kind.isValue], by simp, by simp, by simp,
    by simp [Kind.isStatement, Kind.isValue], by simp, by simp, by simp, fun _ => ?_⟩
  refine ⟨children.map Tree.text, ?_, ?_, ?_⟩
  · rw [withoutLines_node, htrees]
  · rw [← htrees, hwords]
    rfl
  · intro n hn
    obtain ⟨c, hc, rfl⟩ := List.mem_map.mp hn
    exact (hname c hc).2.2

theorem prints_other {kind : Tree.Kind} (hk : kind = .program ∨ kind = .assignment) :
    Prints (.node kind text evaluated line children) := by
  rcases hk with rfl | rfl
  all_goals
    exact ⟨by simp [isValue, Kind.isValue], by simp, by simp, by simp,
      by simp [Kind.isStatement, Kind.isValue], by simp, by simp, by simp, by simp⟩

theorem prints_leaf {kind : Tree.Kind} (hk : kind.isLiteral = true)
    (h : textFits (.node kind text evaluated line []) = true) :
    Prints (.node kind text evaluated line []) := by
  obtain ⟨w, hw, hliteral, htree, hwords⟩ := prints_literal hk h
  have hprinted := Printed.literal hw hliteral
  rw [← htree, ← hwords] at hprinted
  have hvalue : kind.isValue = true ∧ kind ≠ .function ∧ kind ≠ .classLiteral := by
    cases kind <;> first | (cases hk; done) | decide
  refine .of_value hvalue.1 hvalue.2 (.operand hprinted) (fun _ => hprinted) ?_
  rintro hk
  obtain rfl : kind = .identifier := hk
  obtain ⟨rfl, hx⟩ : evaluated = false ∧ isText .identifier text = true := by
    simpa [textFits] using h
  exact ⟨rfl, rfl, isWord_of_isText hx (by simp)⟩

/-- The words of a node, given those of its children. -/
theorem prints_node {kind : Tree.Kind}
    (hfits : fits (.node kind text evaluated line children) = true)
    (htext : textFits (.node kind text evaluated line children) = true)
    (hall : ∀ c ∈ children, Prints c) : Prints (.node kind text evaluated line children) := by
  -- one case for each shape that fits, in their order there
  unfold fits at hfits
  dsimp only at hfits
  split at hfits
  all_goals try simp only [Bool.and_eq_true, Bool.or_eq_true, Bool.not_eq_true', hasKind_iff,
    List.all_eq_true, List.isEmpty_eq_false_iff] at hfits
  case h_1 | h_2 => exact prints_other (Or.inl rfl)
  case h_3 => exact prints_block htext hall hfits
  case h_4 l r =>
    exact prints_binary htext ((hall l (by simp)).value hfits.1) ((hall r (by simp)).value hfits.2)
  case h_5 l r =>
    exact prints_comparison htext ((hall l (by simp)).value hfits.1)
      ((hall r (by simp)).value hfits.2)
  case h_6 t v =>
    exact prints_assign htext (hall t (by simp)) hfits.1 ((hall v (by simp)).value hfits.2)
  case h_7 t list v =>
    obtain ⟨⟨⟨⟨ht, hk⟩, hlist⟩, hne⟩, hv⟩ := hfits
    refine prints_indexWrite htext ((hall t (by simp)).value ht) ?_ (hall list (by simp)) hlist hne
      ((hall v (by simp)).value hv)
    intro hindex
    rw [hasKind_iff.mpr hindex] at hk
    cases hk
  case h_8 t list =>
    exact prints_call htext ((hall t (by simp)).value hfits.1) (hall list (by simp)) hfits.2
  case h_9 t name =>
    exact prints_member htext ((hall t (by simp)).value hfits.1) (hall name (by simp)) hfits.2
  case h_10 t i =>
    exact prints_index htext ((hall t (by simp)).value hfits.1) ((hall i (by simp)).value hfits.2)
  case h_11 parameters body =>
    exact prints_function htext (hall parameters (by simp)) hfits.1 (hall body (by simp)) hfits.2
  case h_12 body => exact prints_class htext (hall body (by simp)) hfits
  case h_13 t => exact prints_definition htext (hall t (by simp)) (Or.inl ⟨rfl, hfits⟩)
  case h_14 t => exact prints_definition htext (hall t (by simp)) (Or.inr ⟨rfl, hfits⟩)
  case h_15 name => exact prints_declaration htext (hall name (by simp)) hfits
  case h_16 name v =>
    exact prints_initialisation htext (hall name (by simp)) hfits.1 ((hall v (by simp)).value hfits.2)
  case h_17 t body =>
    exact prints_conditional htext ((hall t (by simp)).value hfits.1) (hall body (by simp)) hfits.2
  case h_18 t body =>
    exact prints_loop htext ((hall t (by simp)).value hfits.1) (hall body (by simp)) hfits.2
  case h_19 t body other =>
    obtain ⟨⟨ht, hb⟩, ho⟩ := hfits
    exact prints_alternative htext ((hall t (by simp)).value ht) (hall body (by simp)) hb
      (hall other (by simp)) ho
  case h_20 list => exact prints_array htext (hall list (by simp)) hfits
  case h_21 => exact prints_list htext fun c hc => (hall c hc).value (hfits c hc)
  case h_22 => exact prints_names htext hall hfits
  case h_23 | h_24 | h_25 | h_26 | h_27 => exact prints_leaf rfl htext
  case h_28 => exact prints_other (Or.inr rfl)
  case h_29 => simp [textFits] at htext
  case h_30 => cases hfits

mutual

theorem prints_of_legible : ∀ {t : Tree}, t.shaped = true → t.legible = true → Prints t
  | .node k x e l children, hshaped, hlegible => by
    rw [shaped, Bool.and_eq_true] at hshaped
    rw [legible, Bool.and_eq_true] at hlegible
    exact prints_node hshaped.1 hlegible.1 (prints_of_legibleAll hshaped.2 hlegible.2)

theorem prints_of_legibleAll : ∀ {ts : List Tree}, shapedAll ts = true → legibleAll ts = true →
    ∀ t ∈ ts, Prints t
  | [], _, _ => by simp
  | t :: ts, hshaped, hlegible => by
    rw [shapedAll, Bool.and_eq_true] at hshaped
    rw [legibleAll, Bool.and_eq_true] at hlegible
    intro u hu
    rcases List.mem_cons.mp hu with heq | hu
    · rw [heq]
      exact prints_of_legible hshaped.1 hlegible.1
    · exact prints_of_legibleAll hshaped.2 hlegible.2 u hu

end

end Trees

end ScriptKit.Grammar
