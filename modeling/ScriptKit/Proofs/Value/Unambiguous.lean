import ScriptKit.Proofs.Value.Printing

namespace ScriptKit

namespace Value

/-- Null, a boolean or a number. -/
def IsWord (v : Value) : Prop :=
  v.kind ∈ [Kind.null, .boolean, .numeric]

/-- Null, a boolean, a number, a text or an array. -/
def IsPlain (v : Value) : Prop :=
  v.kind ∈ [Kind.null, .boolean, .numeric, .string, .array]

theorem IsPlain.cases {v : Value} (h : v.IsPlain) :
    v.IsWord ∨ (∃ t, v = .string t) ∨ ∃ a, v = .array a := by
  cases v with
  | null | boolean | number => exact Or.inl (by simp [IsWord, kind])
  | string t => exact Or.inr (Or.inl ⟨t, rfl⟩)
  | array a => exact Or.inr (Or.inr ⟨a, rfl⟩)
  | absent | function | classValue | object => simp [IsPlain, kind] at h

end Value

namespace Store

/-- Values that are the same apart from the identities of their arrays, numbers being taken as
they are printed. -/
inductive Matches (s s' : Store) : Value → Value → Prop
  | null : s.Matches s' .null .null
  | boolean (b : Bool) : s.Matches s' (.boolean b) (.boolean b)
  | number {x y : Float} (h : Number.render x = Number.render y) :
      s.Matches s' (.number x) (.number y)
  | string (t : String) : s.Matches s' (.string t) (.string t)
  | array {a b : ArrayId}
      (h : List.Forall₂ (s.Matches s') (s.elements a).toList (s'.elements b).toList) :
      s.Matches s' (.array a) (.array b)

/-- An array from which no cycle is reached and no value that is not plain. -/
structure Readable (s : Store) (a : ArrayId) : Prop where
  acyclic : s.Acyclic a
  plain : ∀ b, Relation.ReflTransGen s.Nests a b → ∀ v ∈ s.elements b, v.IsPlain

/-- An element of such an array. -/
structure Element (s : Store) (v : Value) : Prop where
  plain : v.IsPlain
  readable : ∀ a, v = .array a → s.Readable a

variable {s s' : Store} {a b : ArrayId} {v w : Value} {t u : List Char}

theorem Readable.element (h : s.Readable a) (hv : v ∈ (s.elements a).toList) : s.Element v := by
  have hv := Array.mem_toList_iff.mp hv
  refine ⟨h.plain a .refl v hv, ?_⟩
  rintro b rfl
  have hnests : s.Nests a b := hv
  exact ⟨h.acyclic.of_nests hnests, fun c hc => h.plain c (.head hnests hc)⟩

section Words

@[simp] theorem elementText_null (s : Store) : s.elementText .null = "null" := rfl

@[simp] theorem elementText_boolean (s : Store) (b : Bool) :
    s.elementText (.boolean b) = if b then "true" else "false" := rfl

@[simp] theorem elementText_number (s : Store) (x : Float) :
    s.elementText (.number x) = Number.render x := rfl

theorem elementText_start (s : Store) (v : Value) :
    ∃ c rest, (s.elementText v).toList = c :: rest ∧ c ∉ ['.', ',', ']'] := by
  have hpart : s.elementText v = s.part [] v := by cases v <;> rfl
  rw [hpart]
  exact s.part_start [] v

/-- The characters that stand for the nesting of arrays and around texts. -/
def isSign (c : Char) : Bool :=
  c = '"' || c = ',' || c = '[' || c = ']'

/-- What comes after an element. -/
def Delimited (t : List Char) : Prop :=
  ∀ c ∈ t.head?, c = ',' ∨ c = ']'

theorem word_signs (hv : v.IsWord) : ∀ c ∈ (s.elementText v).toList, isSign c = false := by
  cases v with
  | null =>
    rw [elementText_null]
    simp [isSign]
  | boolean b =>
    rw [elementText_boolean]
    cases b <;> simp [isSign]
  | number x =>
    intro c hc
    have hnumeral := (Number.isNumeral_render x).chars c hc
    by_contra hsign
    simp only [isSign, Bool.not_eq_false, Bool.or_eq_true, decide_eq_true_eq] at hsign
    rcases hsign with ((rfl | rfl) | rfl) | rfl <;> cases hnumeral
  | _ => simp [Value.IsWord, Value.kind] at hv

/-- The text of a number is none of the other words. -/
theorem render_ne (x : Float) : Number.render x ≠ "null" ∧
    ∀ b : Bool, Number.render x ≠ if b then "true" else "false" := by
  obtain ⟨c, rest, hc, hstart⟩ := (Number.isNumeral_render x).start
  have hne : ∀ {d : Char} {more : List Char}, Number.startsNumeral d = false →
      (Number.render x).toList ≠ d :: more := by
    intro d more hd heq
    obtain rfl : c = d := (List.cons.inj (hc.symm.trans heq)).1
    rw [hstart] at hd
    cases hd
  refine ⟨fun h => ?_, fun b h => ?_⟩
  · exact hne (by decide : Number.startsNumeral 'n' = false) (congrArg String.toList h)
  · cases b with
    | false => exact hne (by decide : Number.startsNumeral 'f' = false) (congrArg String.toList h)
    | true => exact hne (by decide : Number.startsNumeral 't' = false) (congrArg String.toList h)

theorem word_matches (hv : v.IsWord) (hw : w.IsWord) (h : s.elementText v = s'.elementText w) :
    s.Matches s' v w := by
  have hnull : ∀ b : Bool, (if b then "true" else "false") ≠ "null" := by decide
  have hinj : ∀ b b' : Bool, (if b then "true" else "false") =
      (if b' then "true" else "false") → b = b' := by decide
  cases v with
  | null =>
    cases w with
    | null => exact .null
    | boolean b => exact absurd h.symm (hnull b)
    | number y => exact absurd h.symm (render_ne y).1
    | _ => simp [Value.IsWord, Value.kind] at hw
  | boolean b =>
    cases w with
    | null => exact absurd h (hnull b)
    | boolean b' =>
      obtain rfl := hinj b b' h
      exact .boolean b
    | number y => exact absurd h.symm ((render_ne y).2 b)
    | _ => simp [Value.IsWord, Value.kind] at hw
  | number x =>
    cases w with
    | null => exact absurd h (render_ne x).1
    | boolean b => exact absurd h ((render_ne x).2 b)
    | number y => exact .number h
    | _ => simp [Value.IsWord, Value.kind] at hw
  | _ => simp [Value.IsWord, Value.kind] at hv

/-- Words end where a sign comes. -/
theorem append_inj_of_delimited {p q : List Char} (hp : ∀ c ∈ p, isSign c = false)
    (hq : ∀ c ∈ q, isSign c = false) (ht : Delimited t) (hu : Delimited u)
    (h : p ++ t = q ++ u) : p = q ∧ t = u := by
  have hends : ∀ {c : Char} {rest t : List Char}, Delimited t → t = c :: rest →
      isSign c ≠ false := by
    rintro c rest t ht rfl
    rcases ht c rfl with rfl | rfl <;> decide
  induction p generalizing q with
  | nil =>
    cases q with
    | nil => exact ⟨rfl, h⟩
    | cons d q => exact absurd (hq d List.mem_cons_self) (hends ht h)
  | cons c p ih =>
    cases q with
    | nil => exact absurd (hp c List.mem_cons_self) (hends hu h.symm)
    | cons d q =>
      rw [List.cons_append, List.cons_append, List.cons.injEq] at h
      obtain ⟨rfl, h⟩ := h
      obtain ⟨rfl, htu⟩ := ih (fun c hc => hp c (List.mem_cons_of_mem _ hc))
        (fun c hc => hq c (List.mem_cons_of_mem _ hc)) h
      exact ⟨rfl, htu⟩

end Words

section Elements

/-- The texts of elements after the first one. -/
def further (s : Store) (l : List Value) : List Char :=
  l.flatMap fun v => ',' :: ' ' :: (s.elementText v).toList

/-- The texts of all elements. -/
def inside (s : Store) : List Value → List Char
  | [] => []
  | v :: l => (s.elementText v).toList ++ s.further l

theorem toList_text (h : s.Acyclic a) :
    (s.text (.array a)).toList = '[' :: s.inside (s.elements a).toList ++ [']'] := by
  rw [text_of_acyclic h, String.toList_append, String.toList_append]
  cases (s.elements a).toList with
  | nil => rfl
  | cons v l =>
    rw [List.map_cons, toList_intercalate_cons, List.flatMap_map]
    rfl

theorem length_elementText_lt (h : s.Acyclic a) (hv : v ∈ (s.elements a).toList) :
    (s.elementText v).toList.length < (s.text (.array a)).toList.length := by
  have hinside : ∀ {l : List Value}, v ∈ l →
      (s.elementText v).toList.length ≤ (s.inside l).length := by
    intro l hv
    cases l with
    | nil => cases hv
    | cons w l =>
      rw [inside, List.length_append]
      rcases List.mem_cons.mp hv with rfl | hv
      · exact Nat.le_add_right _ _
      · have hsub : (',' :: ' ' :: (s.elementText v).toList).Sublist (s.further l) := by
          rw [further, List.flatMap_def]
          exact List.sublist_flatten_of_mem (List.mem_map_of_mem hv)
        have hle := hsub.length_le
        simp only [List.length_cons] at hle
        omega
  have hle := hinside hv
  rw [toList_text h]
  simp only [List.length_cons, List.length_append, List.length_nil]
  omega

/-- Two values can be told apart by their texts, whatever comes after these. -/
def ToldApart (s s' : Store) (v w : Value) : Prop :=
  ∀ t u, Delimited t → Delimited u →
    (s.elementText v).toList ++ t = (s'.elementText w).toList ++ u → s.Matches s' v w ∧ t = u

theorem delimited_further (s : Store) (l : List Value) (t : List Char) :
    Delimited (s.further l ++ ']' :: t) := by
  intro c hc
  cases l with
  | nil => exact Or.inr (Option.some.inj hc).symm
  | cons v l => exact Or.inl (Option.some.inj hc).symm

theorem further_append_inj {l l' : List Value} (h : ∀ v ∈ l, ∀ w ∈ l', s.ToldApart s' v w)
    (heq : s.further l ++ ']' :: t = s'.further l' ++ ']' :: u) :
    List.Forall₂ (s.Matches s') l l' ∧ t = u := by
  induction l generalizing l' with
  | nil =>
    cases l' with
    | nil => exact ⟨.nil, (List.cons.inj heq).2⟩
    | cons w l' => cases (List.cons.inj heq).1
  | cons v l ih =>
    cases l' with
    | nil => cases (List.cons.inj heq).1
    | cons w l' =>
      simp only [further, List.flatMap_cons, List.cons_append, List.append_assoc,
        List.cons.injEq, true_and] at heq
      obtain ⟨hvw, hrest⟩ := h v List.mem_cons_self w List.mem_cons_self _ _
        (delimited_further s l t) (delimited_further s' l' u) heq
      obtain ⟨hll', htu⟩ := ih (fun v hv w hw =>
        h v (List.mem_cons_of_mem _ hv) w (List.mem_cons_of_mem _ hw)) hrest
      exact ⟨.cons hvw hll', htu⟩

theorem inside_append_inj {l l' : List Value} (h : ∀ v ∈ l, ∀ w ∈ l', s.ToldApart s' v w)
    (heq : s.inside l ++ ']' :: t = s'.inside l' ++ ']' :: u) :
    List.Forall₂ (s.Matches s') l l' ∧ t = u := by
  -- no text of an element begins with the closing bracket
  have hopen : ∀ (s : Store) v rest t, ']' :: t ≠ (s.elementText v).toList ++ rest := by
    intro s v rest t hclose
    obtain ⟨c, more, hc, hne⟩ := s.elementText_start v
    rw [hc, List.cons_append, List.cons.injEq] at hclose
    exact hne (by simp [← hclose.1])
  cases l with
  | nil =>
    cases l' with
    | nil => exact ⟨.nil, (List.cons.inj heq).2⟩
    | cons w l' => exact absurd (heq.trans (List.append_assoc _ _ _)) (hopen s' w _ t)
  | cons v l =>
    cases l' with
    | nil => exact absurd (heq.symm.trans (List.append_assoc _ _ _)) (hopen s v _ u)
    | cons w l' =>
      rw [inside, inside, List.append_assoc, List.append_assoc] at heq
      obtain ⟨hvw, hrest⟩ := h v List.mem_cons_self w List.mem_cons_self _ _
        (delimited_further s l t) (delimited_further s' l' u) heq
      obtain ⟨hll', htu⟩ := further_append_inj (fun v hv w hw =>
        h v (List.mem_cons_of_mem _ hv) w (List.mem_cons_of_mem _ hw)) hrest
      exact ⟨.cons hvw hll', htu⟩

theorem word_append_ne (hv : v.IsWord) {c : Char} (hc : isSign c = true) (t rest : List Char) :
    (s.elementText v).toList ++ t ≠ c :: rest := by
  intro h
  obtain ⟨d, more, hd, -⟩ := s.elementText_start v
  have hsign := word_signs (s := s) hv d (by simp [hd])
  rw [hd, List.cons_append, List.cons.injEq] at h
  rw [h.1, hc] at hsign
  cases hsign

theorem toList_elementText_string (s : Store) (t : String) :
    (s.elementText (.string t)).toList = '"' :: t.toList.flatMap Text.quoteChar ++ ['"'] := by
  rw [elementText, Text.quote, String.toList_ofList, Text.quoteChars]

/-- Elements that are written the same way are the same, whatever comes after them. -/
theorem toldApart : ∀ {n : Nat} {v w : Value}, (s.elementText v).toList.length < n →
    s.Element v → s'.Element w → s.ToldApart s' v w
  | n + 1, v, w, hlen, hv, hw => by
    intro t u ht hu heq
    rcases hv.plain.cases with hword | ⟨x, rfl⟩ | ⟨a, rfl⟩ <;>
      rcases hw.plain.cases with hword' | ⟨y, rfl⟩ | ⟨b, rfl⟩
    · obtain ⟨htext, htu⟩ := append_inj_of_delimited (word_signs hword) (word_signs hword') ht hu heq
      exact ⟨word_matches hword hword' (String.toList_inj.mp htext), htu⟩
    · rw [toList_elementText_string] at heq
      exact absurd heq (word_append_ne hword (by decide) _ _)
    · have hb : (s'.elementText (.array b)).toList = _ := toList_text (hw.readable b rfl).acyclic
      rw [hb] at heq
      exact absurd heq (word_append_ne hword (by decide) _ _)
    · rw [toList_elementText_string] at heq
      exact absurd heq.symm (word_append_ne hword' (by decide) _ _)
    · have hquoted : Text.quoteChars x.toList ++ t = Text.quoteChars y.toList ++ u := by
        rwa [toList_elementText_string, toList_elementText_string] at heq
      obtain ⟨hxy, htu⟩ := Text.quoteChars_append_inj hquoted
      obtain rfl := String.toList_inj.mp hxy
      exact ⟨.string x, htu⟩
    · have hb : (s'.elementText (.array b)).toList = _ := toList_text (hw.readable b rfl).acyclic
      rw [toList_elementText_string, hb] at heq
      cases (List.cons.inj heq).1
    · have ha : (s.elementText (.array a)).toList = _ := toList_text (hv.readable a rfl).acyclic
      rw [ha] at heq
      exact absurd heq.symm (word_append_ne hword' (by decide) _ _)
    · have ha : (s.elementText (.array a)).toList = _ := toList_text (hv.readable a rfl).acyclic
      rw [toList_elementText_string, ha] at heq
      cases (List.cons.inj heq).1
    · -- the elements have shorter texts than the arrays
      have hreadable := hv.readable a rfl
      have hreadable' := hw.readable b rfl
      have ha : (s.elementText (.array a)).toList = _ := toList_text hreadable.acyclic
      have hb : (s'.elementText (.array b)).toList = _ := toList_text hreadable'.acyclic
      rw [ha, hb, List.cons_append, List.cons_append, List.cons_append, List.cons_append,
        List.append_assoc, List.append_assoc] at heq
      obtain ⟨helements, htu⟩ := inside_append_inj (fun v hv w hw => toldApart
        (Nat.lt_of_lt_of_le (length_elementText_lt hreadable.acyclic hv) (Nat.le_of_lt_succ hlen))
        (hreadable.element hv) (hreadable'.element hw)) (List.cons.inj heq).2
      exact ⟨.array helements, htu⟩

theorem map_eq_map_of_forall₂ {α β : Type} {R : α → α → Prop} {f g : α → β} {l l' : List α}
    (h : List.Forall₂ R l l') (hfg : ∀ v ∈ l, ∀ w ∈ l', R v w → f v = g w) :
    l.map f = l'.map g := by
  induction h with
  | nil => rfl
  | cons hvw hrest ih =>
    rw [List.map_cons, List.map_cons, hfg _ List.mem_cons_self _ List.mem_cons_self hvw,
      ih fun v hv w hw => hfg v (List.mem_cons_of_mem _ hv) w (List.mem_cons_of_mem _ hw)]

theorem elementText_eq_of_matches : ∀ {n : Nat} {v w : Value},
    (s.elementText v).toList.length < n → s.Element v → s'.Element w → s.Matches s' v w →
    s.elementText v = s'.elementText w
  | n + 1, _, _, hlen, hv, hw, h => by
    cases h with
    | null | boolean | string => rfl
    | number h => exact h
    | array h =>
      rename_i a b
      have hreadable := hv.readable a rfl
      have hreadable' := hw.readable b rfl
      have ha : s.elementText (.array a) = _ := text_of_acyclic hreadable.acyclic
      have hb : s'.elementText (.array b) = _ := text_of_acyclic hreadable'.acyclic
      rw [ha, hb, map_eq_map_of_forall₂ h fun v hv w hw => elementText_eq_of_matches
        (Nat.lt_of_lt_of_le (length_elementText_lt hreadable.acyclic hv) (Nat.le_of_lt_succ hlen))
        (hreadable.element hv) (hreadable'.element hw)]

end Elements

/-- Printing an array comes to an end, cuts an array short exactly where it is inside of itself, and
prints each in full where there are no cycles. There, and if all leaves are null, booleans, numbers
and texts, the text of an array tells everything but the identities in it. -/
theorem text_faithful (s : Store) :
    WellFounded s.Calls ∧
    (∀ a, s.text (.array a) = s.printed [] a) ∧
    (∀ outer a, s.printed outer a = if a ∈ outer then "[...]"
      else "[" ++ ", ".intercalate ((s.elements a).toList.map (s.part (a :: outer))) ++ "]") ∧
    (∀ outer a, s.printed outer a = "[...]" ↔ a ∈ outer) ∧
    (∀ a, s.Acyclic a → s.text (.array a) =
      "[" ++ ", ".intercalate ((s.elements a).toList.map s.elementText) ++ "]") ∧
    ∀ (s' : Store) (a b : ArrayId), s.Readable a → s'.Readable b →
      (s.text (.array a) = s'.text (.array b) ↔ s.Matches s' (.array a) (.array b)) := by
  refine ⟨s.wellFounded_calls, fun _ => rfl, s.printed_eq, fun _ _ => printed_eq_cut_iff,
    -- a readable array is an element whose text stands apart from all that may come behind it
    fun _ => text_of_acyclic, fun s' a b ha hb => ?_⟩
  have hv : s.Element (.array a) := ⟨by simp [Value.IsPlain, Value.kind], by rintro _ ⟨⟩; exact ha⟩
  have hw : s'.Element (.array b) := ⟨by simp [Value.IsPlain, Value.kind], by rintro _ ⟨⟩; exact hb⟩
  constructor
  · intro h
    have hchars : (s.elementText (.array a)).toList ++ [] = (s'.elementText (.array b)).toList ++ [] :=
      congrArg (fun t : String => t.toList ++ []) h
    have hend : Delimited [] := by
      intro c hc
      cases hc
    exact (toldApart (Nat.lt_succ_self _) hv hw [] [] hend hend hchars).1
  · exact elementText_eq_of_matches (Nat.lt_succ_self _) hv hw

/-- An array that holds another one twice, and one that holds two arrays with the same element. -/
def shared : Store :=
  { empty with arrays := #[#[.string "a, [b", .array 1, .array 1], #[.null],
      #[.string "a, [b", .array 3, .array 1], #[.null]] }

theorem readable_shared (a : ArrayId) : shared.Readable a := by
  have hnests : ∀ a b, shared.Nests a b → (a = 0 ∨ a = 2) ∧ (b = 1 ∨ b = 3) := by
    rintro (_ | _ | _ | _ | a) b h <;> simp [Nests, elements, shared, empty] at h
    · exact ⟨Or.inl rfl, Or.inl h⟩
    · exact ⟨Or.inr rfl, h.symm⟩
  refine ⟨fun b _ hb => ?_, ?_⟩
  · obtain ⟨c, hbc, -⟩ := Relation.TransGen.head'_iff.mp hb
    obtain ⟨d, -, hdb⟩ := Relation.TransGen.tail'_iff.mp hb
    rcases (hnests b c hbc).1 with rfl | rfl <;> simpa using (hnests d _ hdb).2
  · rintro (_ | _ | _ | _ | b) _ v hv <;> simp [elements, shared, empty] at hv
    · rcases hv with rfl | rfl <;> simp [Value.IsPlain, Value.kind]
    · simp [hv, Value.IsPlain, Value.kind]
    · rcases hv with rfl | rfl | rfl <;> simp [Value.IsPlain, Value.kind]
    · simp [hv, Value.IsPlain, Value.kind]

/-- The two arrays are printed in the same way, and in full. -/
theorem text_faithful_shared :
    shared.Readable 0 ∧ shared.Readable 2 ∧ shared.text (.array 0) = "[\"a, [b\", [null], [null]]" ∧
      shared.Matches shared (.array 0) (.array 2) := by
  obtain ⟨-, -, -, -, -, hread⟩ := shared.text_faithful
  have htext : shared.text (.array 0) = "[\"a, [b\", [null], [null]]" := by decide
  have htext' : shared.text (.array 2) = "[\"a, [b\", [null], [null]]" := by decide
  exact ⟨readable_shared 0, readable_shared 2, htext,
    (hread shared 0 2 (readable_shared 0) (readable_shared 2)).mp (htext.trans htext'.symm)⟩

end Store

end ScriptKit
