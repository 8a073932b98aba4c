import Mathlib.Data.Finset.Range
import Mathlib.Data.Finset.SDiff
import Mathlib.Logic.Relation
import Mathlib.Tactic.ByContra
import ScriptKit.Proofs.Number.Numeral
import ScriptKit.Proofs.Text.Quoted
import ScriptKit.Proofs.Value.Equality
import ScriptKit.Value.Text

namespace ScriptKit.Store

variable {s : Store} {outer : List ArrayId} {id a b : ArrayId} {v : Value}

section Fuel

/-- The arrays of a store that are not among the enclosing ones. -/
def unvisited (s : Store) (outer : List ArrayId) : Finset Nat :=
  Finset.range s.arrays.size \ outer.toFinset

/-- To print one array inside of others, another one is printed inside of it and the others. -/
def Calls (s : Store) (inner outer : List ArrayId × ArrayId) : Prop :=
  outer.2 ∉ outer.1 ∧ .array inner.2 ∈ s.elements outer.2 ∧ inner.1 = outer.2 :: outer.1

theorem card_unvisited_lt (hv : v ∈ s.elements id) (hnew : id ∉ outer) :
    (s.unvisited (id :: outer)).card < (s.unvisited outer).card := by
  have hlt : id < s.arrays.size := lt_of_mem_elements (Array.mem_toList_iff.mpr hv)
  refine Finset.card_lt_card (Finset.ssubset_iff_of_subset ?_ |>.mpr ⟨id, ?_, ?_⟩)
  · refine Finset.sdiff_subset_sdiff (Finset.Subset.refl _) ?_
    rw [List.toFinset_cons]
    exact Finset.subset_insert _ _
  · simp [unvisited, hlt, hnew]
  · simp [unvisited]

/-- No array is printed inside of itself, so printing comes to an end. -/
theorem wellFounded_calls (s : Store) : WellFounded s.Calls := by
  refine Subrelation.wf ?_ (measure fun p => (s.unvisited p.1).card).wf
  rintro ⟨inner, b⟩ ⟨outer, a⟩ ⟨hnew, hb, hinner⟩
  dsimp only at hnew hb hinner
  subst hinner
  exact card_unvisited_lt hb hnew

theorem bracketed_congr {f g : Value → String} {l : List Value} (h : ∀ v ∈ l, f v = g v) :
    "[" ++ ", ".intercalate (l.map f) ++ "]" = "[" ++ ", ".intercalate (l.map g) ++ "]" := by
  rw [List.map_congr_left h]

theorem arrayText_fuel : ∀ {n n' : Nat} {outer : List ArrayId} {id : ArrayId},
    (s.unvisited outer).card < n → (s.unvisited outer).card < n' →
    s.arrayText n outer id = s.arrayText n' outer id
  | n + 1, n' + 1, outer, id, h, h' => by
    unfold arrayText
    split
    · rfl
    rename_i hnew
    refine bracketed_congr fun v hv => ?_
    have hless := card_unvisited_lt (Array.mem_toList_iff.mp hv) (by simpa using hnew)
    -- an inner array has one more array around it, so fewer are left to visit
    cases v with
    | array inner => exact arrayText_fuel (by omega) (by omega)
    | _ => rfl

/-- An array as it is printed inside of others. -/
def printed (s : Store) (outer : List ArrayId) (id : ArrayId) : String :=
  s.arrayText (s.arrays.size + 1) outer id

/-- An element as it is printed inside of some arrays. -/
def part (s : Store) (outer : List ArrayId) : Value → String
  | .string t => Text.quote t
  | .array inner => s.printed outer inner
  | v => s.scalarText v

theorem printed_eq (s : Store) (outer : List ArrayId) (id : ArrayId) : s.printed outer id =
    if id ∈ outer then "[...]"
    else "[" ++ ", ".intercalate ((s.elements id).toList.map (s.part (id :: outer))) ++ "]" := by
  have henough : ∀ outer, (s.unvisited outer).card ≤ s.arrays.size := fun outer =>
    (Finset.card_le_card Finset.sdiff_subset).trans (Finset.card_range _).le
  rw [printed, arrayText]
  by_cases hid : id ∈ outer
  · simp [hid]
  have hparts : ∀ v ∈ (s.elements id).toList, (match v with
      | .string t => Text.quote t
      | .array inner => s.arrayText s.arrays.size (id :: outer) inner
      | v => s.scalarText v) = s.part (id :: outer) v := by
    intro v hv
    have hless := card_unvisited_lt (Array.mem_toList_iff.mp hv) hid
    have hle := henough outer
    cases v with
    | array inner => exact arrayText_fuel (by omega) (by omega)
    | _ => rfl
  simp only [List.contains_eq_mem, decide_eq_true_eq, if_neg hid]
  exact bracketed_congr hparts

end Fuel

section Texts

/-- Texts with a comma and a space between them. -/
theorem toList_intercalate_cons (p : String) (ps : List String) :
    (", ".intercalate (p :: ps)).toList =
      p.toList ++ ps.flatMap fun q => ',' :: ' ' :: q.toList := by
  induction ps generalizing p with
  | nil => simp [String.intercalate_singleton]
  | cons q ps ih =>
    rw [String.intercalate_cons_cons, String.toList_append, String.toList_append, ih,
      List.flatMap_cons, List.append_assoc]
    rfl

/-- The texts of all values but strings begin with a character that cannot be taken for a sign
between elements. -/
theorem part_start (s : Store) (outer : List ArrayId) (v : Value) :
    ∃ c rest, (s.part outer v).toList = c :: rest ∧ c ∉ ['.', ',', ']'] := by
  have happend : ∀ {t u : String} {c rest}, t.toList = c :: rest → c ∉ ['.', ',', ']'] →
      ∃ c rest, (t ++ u).toList = c :: rest ∧ c ∉ ['.', ',', ']'] := by
    intro t u c rest ht hc
    exact ⟨c, rest ++ u.toList, by rw [String.toList_append, ht, List.cons_append], hc⟩
  cases v with
  | absent | null =>
    exact ⟨'n', _, (by decide : "null".toList = ['n', 'u', 'l', 'l']), by decide⟩
  -- a numeral begins with a digit or a sign
  | number x =>
    obtain ⟨c, rest, hc, hstart⟩ := (Number.isNumeral_render x).start
    refine ⟨c, rest, hc, ?_⟩
    intro hmem
    simp only [List.mem_cons, List.not_mem_nil, or_false] at hmem
    rcases hmem with rfl | rfl | rfl <;> cases hstart
  | string t =>
    refine ⟨'"', t.toList.flatMap Text.quoteChar ++ ['"'], ?_, by decide⟩
    simp [part, Text.quote, Text.quoteChars]
  | boolean b =>
    cases b with
    | false => exact ⟨'f', _, (by decide : "false".toList = ['f', 'a', 'l', 's', 'e']), by decide⟩
    | true => exact ⟨'t', _, (by decide : "true".toList = ['t', 'r', 'u', 'e']), by decide⟩
  | array inner =>
    rw [part, printed_eq]
    split
    · exact ⟨'[', ['.', '.', '.', ']'], by decide, by decide⟩
    · rw [String.append_assoc]
      exact happend (by decide : "[".toList = ['[']) (by decide)
  | function id =>
    rw [part, scalarText, functionText]
    · split
      · exact ⟨'<', ['f', 'u', 'n', 'c', '>'], by decide, by decide⟩
      split
      · exact ⟨'<', ['f', 'u', 'n', 'c', '>'], by decide, by decide⟩
      · rw [String.append_assoc]
        exact happend (by decide : "<func ".toList = '<' :: ['f', 'u', 'n', 'c', ' ']) (by decide)
    all_goals nofun
  | classValue id =>
    rw [part, scalarText, String.append_assoc]
    · exact happend (by decide : "<class ".toList = '<' :: ['c', 'l', 'a', 's', 's', ' ']) (by decide)
    all_goals nofun
  | object id =>
    rw [part, scalarText, objectText]
    · split
      · exact ⟨'<', ['o', 'b', 'j', 'e', 'c', 't', '>'], by decide, by decide⟩
      · rw [String.append_assoc]
        exact happend (by decide : "<".toList = ['<']) (by decide)
    all_goals nofun

/-- An array is cut short exactly if it is one of those around it. -/
theorem printed_eq_cut_iff : s.printed outer id = "[...]" ↔ id ∈ outer := by
  constructor
  · intro h
    by_contra hid
    rw [printed_eq, if_neg hid] at h
    have hchars := congrArg String.toList h
    rw [String.toList_append, String.toList_append] at hchars
    cases hl : (s.elements id).toList with
    | nil =>
      rw [hl, List.map_nil, String.intercalate_nil] at hchars
      cases hchars
    | cons v l =>
      -- the first element would have to begin with a dot
      obtain ⟨c, rest, hc, hne⟩ := s.part_start (id :: outer) v
      rw [hl, List.map_cons, toList_intercalate_cons, hc] at hchars
      have hdot : c = '.' := (List.cons.inj (List.cons.inj hchars).2).1
      exact hne (by simp [hdot])
  · intro h
    rw [printed_eq, if_pos h]

end Texts

section Full

/-- An array has another one as an element. -/
def Nests (s : Store) (a b : ArrayId) : Prop :=
  .array b ∈ s.elements a

/-- No array that is reached from an array reaches itself. -/
def Acyclic (s : Store) (a : ArrayId) : Prop :=
  ∀ b, Relation.ReflTransGen s.Nests a b → ¬ Relation.TransGen s.Nests b b

theorem Acyclic.of_nests (h : s.Acyclic a) (hab : s.Nests a b) : s.Acyclic b :=
  fun c hc => h c (.head hab hc)

/-- Which arrays are around it does not matter to an array that reaches none of them. -/
theorem arrayText_of_apart : ∀ {n : Nat} {outer outer' : List ArrayId} {a : ArrayId},
    s.Acyclic a →
    (∀ b, Relation.ReflTransGen s.Nests a b → b ∉ outer ∧ b ∉ outer') →
    s.arrayText n outer a = s.arrayText n outer' a
  | 0, _, _, _, _, _ => rfl
  | n + 1, outer, outer', a, hacyclic, hapart => by
    obtain ⟨houter, houter'⟩ := hapart a .refl
    simp only [arrayText, List.contains_eq_mem, decide_eq_true_eq, if_neg houter, if_neg houter']
    refine bracketed_congr fun v hv => ?_
    cases v with
    | array inner =>
      have hnests : s.Nests a inner := Array.mem_toList_iff.mp hv
      refine arrayText_of_apart (hacyclic.of_nests hnests) fun b hb => ?_
      obtain ⟨hb₁, hb₂⟩ := hapart b (.head hnests hb)
      -- the array itself is around its elements now, and no way leads back to it
      have hne : b ≠ a := by
        rintro rfl
        exact hacyclic b .refl (.head' hnests hb)
      exact ⟨by simp [hne, hb₁], by simp [hne, hb₂]⟩
    | _ => rfl

/-- The text of a value inside of an array. -/
def elementText (s : Store) : Value → String
  | .string t => Text.quote t
  | v => s.text v

/-- Where there are no cycles, every array is printed in full. -/
theorem text_of_acyclic (h : s.Acyclic a) :
    s.text (.array a) = "[" ++ ", ".intercalate ((s.elements a).toList.map s.elementText) ++ "]" := by
  have hparts : ∀ v ∈ (s.elements a).toList, s.part [a] v = s.elementText v := by
    intro v hv
    cases v with
    | array inner =>
      have hnests : s.Nests a inner := Array.mem_toList_iff.mp hv
      refine arrayText_of_apart (h.of_nests hnests) fun b hb => ⟨?_, List.not_mem_nil⟩
      rw [List.mem_singleton]
      rintro rfl
      exact h b .refl (.head' hnests hb)
    | _ => rfl
  have heq : s.text (.array a) = s.printed [] a := rfl
  rw [heq, printed_eq, if_neg List.not_mem_nil, bracketed_congr hparts]

end Full

end ScriptKit.Store
