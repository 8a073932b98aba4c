import ScriptKit.Proofs.Text.Quoted
import ScriptKit.Proofs.Token.Words

namespace ScriptKit.Token

open ScriptKit.Text

theorem isHexadecimal_ne {c : Char} (h : (hexValue? c).isSome = true) : c ≠ '"' ∧ c ≠ '\\' := by
  constructor <;> rintro rfl <;> cases h

theorem foldl_next_plain {s : List Char} (h : ∀ c ∈ s, c ≠ '"' ∧ c ≠ '\\') :
    s.foldl StringState.next .inside = .inside := by
  induction s with
  | nil => rfl
  | cons c s ih =>
    obtain ⟨hc, hs⟩ := List.forall_mem_cons.mp h
    have hstep : StringState.next .inside c = .inside := by simp [StringState.next, hc]
    rw [List.foldl_cons, hstep, ih hs]

/-- What is written for a character opens and closes nothing. -/
theorem foldl_next_quoteChar (c : Char) :
    (quoteChar c).foldl StringState.next .inside = .inside := by
  have hcoded := coded_quoteChar c
  generalize quoteChar c = text at hcoded ⊢
  cases hcoded with
  | escaped hc => rcases hc with rfl | rfl <;> rfl
  | plain hquote hbackslash => simp [StringState.next, hquote, hbackslash]
  | letter hc =>
    simp only [controls, List.mem_cons, Prod.mk.injEq, List.not_mem_nil, or_false] at hc
    rcases hc with ⟨-, rfl⟩ | ⟨-, rfl⟩ | ⟨-, rfl⟩ | ⟨-, rfl⟩ | ⟨-, rfl⟩ | ⟨-, rfl⟩ | ⟨-, rfl⟩ <;> rfl
  | number =>
    have hmark : StringState.next (StringState.next .inside '\\') (numbering c.toNat).1 = .inside := by
      unfold numbering
      split
      · rfl
      · split <;> rfl
    rw [List.foldl_cons, List.foldl_cons, hmark]
    exact foldl_next_plain fun d hd => isHexadecimal_ne (isSome_hexValue?_of_mem_hex hd)

theorem unescape_plain {s : List Char} (h : '\\' ∉ s) (rest : List Char) :
    unescape (s ++ rest) = s ++ unescape rest := by
  induction s with
  | nil => rfl
  | cons c s ih =>
    obtain ⟨hc, hs⟩ := not_or.mp fun hm => h (List.mem_cons.mpr hm)
    rw [List.cons_append, unescape, ih hs, List.cons_append]
    all_goals simp [Ne.symm hc]

/-- A character that is read back as itself: a printable one, a line feed, a carriage return or a
tab. -/
def Kept (c : Char) : Prop :=
  isPrintable c = true ∨ c = '\n' ∨ c = '\r' ∨ c = '\t'

theorem not_kept_of_number {c : Char} (hc : isPrintable c = false)
    (hletter : ∀ l, (c, l) ∉ controls) : ¬ Kept c := by
  rintro (h | rfl | rfl | rfl)
  · rw [hc] at h
    cases h
  · exact hletter 'n' (by decide)
  · exact hletter 'r' (by decide)
  · exact hletter 't' (by decide)

theorem hex_ne_empty (c : Char) : (hex (numbering c.toNat).2 c.toNat).toList ≠ [] := by
  intro hdigits
  have hnumber := hexNumber_hex (numbering c.toNat).2 c.toNat
  rw [hdigits] at hnumber
  obtain rfl : c = '\x00' := Char.toNat_inj.mp hnumber.symm
  exact absurd hdigits (by decide)

/-- Of a number only the backslash is dropped. -/
theorem unescape_number (c : Char) (rest : List Char) :
    unescape ('\\' :: (numbering c.toNat).1 :: (hex (numbering c.toNat).2 c.toNat).toList ++ rest) =
      (numbering c.toNat).1 :: (hex (numbering c.toNat).2 c.toNat).toList ++ unescape rest := by
  have hplain : '\\' ∉ (hex (numbering c.toNat).2 c.toNat).toList :=
    fun h => (isHexadecimal_ne (isSome_hexValue?_of_mem_hex h)).2 rfl
  have hmark : ∀ t, unescape ('\\' :: (numbering c.toNat).1 :: t) =
      (numbering c.toNat).1 :: unescape t := by
    intro t
    unfold numbering
    split
    · simp [unescape]
    · split <;> simp [unescape]
  rw [List.cons_append, List.cons_append, hmark, unescape_plain hplain, List.cons_append]

/-- What is written for a character is read on its own: as that character if it is kept, and
otherwise as another one or as several. -/
theorem unescape_quoteChar (c : Char) : ∃ read, read ≠ [] ∧ (read = [c] ↔ Kept c) ∧
    ∀ rest, unescape (quoteChar c ++ rest) = read ++ unescape rest := by
  have hcoded := coded_quoteChar c
  generalize quoteChar c = text at hcoded ⊢
  cases hcoded with
  | escaped hc =>
    refine ⟨[c], by simp, ?_, ?_⟩
    · have hprint : isPrintable c = true := by rcases hc with rfl | rfl <;> decide
      simp [Kept, hprint]
    · intro rest
      rcases hc with rfl | rfl <;> simp [unescape]
  | plain hquote hbackslash hc =>
    exact ⟨[c], by simp, by simp [Kept, hc], unescape_plain (by simpa using Ne.symm hbackslash)⟩
  | letter hc =>
    simp only [controls, List.mem_cons, Prod.mk.injEq, List.not_mem_nil, or_false] at hc
    rcases hc with ⟨rfl, rfl⟩ | ⟨rfl, rfl⟩ | ⟨rfl, rfl⟩ | ⟨rfl, rfl⟩ | ⟨rfl, rfl⟩ | ⟨rfl, rfl⟩ |
      ⟨rfl, rfl⟩
    · exact ⟨['a'], by decide, by unfold Kept; decide, fun rest => by simp [unescape]⟩
    · exact ⟨['b'], by decide, by unfold Kept; decide, fun rest => by simp [unescape]⟩
    · exact ⟨['\t'], by decide, by unfold Kept; decide, fun rest => by simp [unescape]⟩
    · exact ⟨['\n'], by decide, by unfold Kept; decide, fun rest => by simp [unescape]⟩
    · exact ⟨['v'], by decide, by unfold Kept; decide, fun rest => by simp [unescape]⟩
    · exact ⟨['f'], by decide, by unfold Kept; decide, fun rest => by simp [unescape]⟩
    · exact ⟨['\r'], by decide, by unfold Kept; decide, fun rest => by simp [unescape]⟩
  | number hc hletter =>
    -- the letter is kept, and the digits after it make the reading too long
    refine ⟨_, List.cons_ne_nil _ _, iff_of_false ?_ (not_kept_of_number hc hletter),
      unescape_number c⟩
    exact fun h => hex_ne_empty c (List.cons.inj h).2

/-- If every piece has some member, the pieces make up the list only if each is its member. -/
theorem flatMap_eq_self_iff {α : Type} {f : α → List α} (hf : ∀ a, f a ≠ []) {l : List α} :
    l.flatMap f = l ↔ ∀ a ∈ l, f a = [a] := by
  -- nothing gets lost, so that the lengths agree only if each piece is as long as its character
  have hlen : ∀ l : List α, l.length ≤ (l.flatMap f).length := by
    intro l
    induction l with
    | nil => exact Nat.le_refl _
    | cons a l ih =>
      have hpos := List.length_pos_iff.mpr (hf a)
      rw [List.flatMap_cons, List.length_append, List.length_cons]
      omega
  induction l with
  | nil => simp
  | cons a l ih =>
    rw [List.forall_mem_cons, List.flatMap_cons]
    constructor
    · intro h
      have hone : (f a).length = [a].length := by
        have hpos := List.length_pos_iff.mpr (hf a)
        have htotal := congrArg List.length h
        have := hlen l
        rw [List.length_append, List.length_cons] at htotal
        simp only [List.length_singleton]
        omega
      have hsplit : f a ++ l.flatMap f = [a] ++ l := h
      obtain ⟨ha, hl⟩ := List.append_inj hsplit hone
      exact ⟨ha, ih.mp hl⟩
    · rintro ⟨ha, hl⟩
      rw [ha, ih.mpr hl]
      rfl

/-- The text between quotes is a string literal and the only token of its text. The literal stands
for the text if and only if every character of it is kept. -/
theorem scan_quote (s : String) :
    (scan (quote s)).tokens = [⟨.string, quote s, 1⟩] ∧ (scan (quote s)).failure = none ∧
    (unquote (quote s) = s ↔ ∀ c ∈ s.toList, Kept c) := by
  have hclosed : stringState (quote s).toList = .closed := by
    rw [quote, String.toList_ofList, quoteChars, stringState_pieces foldl_next_quoteChar]
  have hlongest : IsLongest false (quote s).toList (quote s).toList .string := by
    refine ⟨?_, List.prefix_rfl, fullKind_eq_some_iff.mp (fullKind_closed hclosed), ?_⟩
    · simp [quote, quoteChars]
    · exact fun p hp _ => hp.length_le
  have hscan : scan (quote s) = ⟨[⟨.string, quote s, 1⟩], none⟩ := by
    have hsplit : (quote s).toList = (quote s).toList ++ [] := (List.append_nil _).symm
    rw [scan, scanFrom_token hsplit hlongest, scanFrom, String.ofList_toList]
    rfl
  refine ⟨by rw [hscan], by rw [hscan], ?_⟩
  choose read hne hkept hread using unescape_quoteChar
  -- what is between the quotes is unescaped character by character
  have hbody : ∀ l : List Char, unescape (l.flatMap quoteChar) = l.flatMap read := by
    intro l
    induction l with
    | nil => rfl
    | cons c l ih => rw [List.flatMap_cons, List.flatMap_cons, hread, ih]
  calc unquote (quote s) = s
      ↔ s.toList.flatMap read = s.toList := by
        rw [unquote, quote, String.toList_ofList, quoteChars, stripQuotes_quoted, hbody,
          ← String.toList_inj, String.toList_ofList]
    _ ↔ ∀ c ∈ s.toList, read c = [c] := flatMap_eq_self_iff hne
    _ ↔ ∀ c ∈ s.toList, Kept c := forall₂_congr fun c _ => hkept c

end ScriptKit.Token
