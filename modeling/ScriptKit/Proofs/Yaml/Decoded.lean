import ScriptKit.Yaml.Decode

namespace ScriptKit.Yaml

namespace Document

variable {doc : Document} {tag : String}

@[simp] theorem target_scalar (text : String) : doc.target (.scalar tag text) = .scalar tag text :=
  rfl

@[simp] theorem target_sequence (items : List Node) :
    doc.target (.sequence tag items) = .sequence tag items :=
  rfl

@[simp] theorem target_mapping (es : List (Node × Node)) :
    doc.target (.mapping tag es) = .mapping tag es :=
  rfl

theorem size_pos (doc : Document) : 0 < doc.size := by
  have hroot : 0 < doc.root.size := by
    cases doc.root <;> simp [Node.size]
  unfold size
  omega

end Document

namespace Decode

variable {doc : Document} {ε α β : Type} {P : α → Prop} {Q : β → Prop} {d : Decode ε α}
  {f : α → Decode ε β}

/-- Whatever a step of decoding gives has a property. -/
def Gives (d : Decode ε α) (P : α → Prop) : Prop :=
  ∀ s a t, d s = .ok (a, t) → P a

namespace Gives

theorem pure {a : α} (h : P a) : Gives (Pure.pure a : Decode ε α) P := by
  intro s b t hb
  cases hb
  exact h

theorem malformed : Gives (Decode.malformed : Decode ε α) P := by
  intro s a t h
  cases h

theorem refuse (e : ε) : Gives (Decode.refuse e : Decode ε α) P := by
  intro s a t h
  cases h

theorem bind (hd : Gives d P) (hf : ∀ a, P a → Gives (f a) Q) : Gives (d >>= f) Q := by
  intro s b t h
  change (d s >>= fun r => f r.1 r.2) = .ok (b, t) at h
  cases hs : d s with
  | error e =>
    rw [hs] at h
    cases h
  | ok r =>
    rw [hs] at h
    exact hf r.1 (hd s r.1 r.2 hs) r.2 b t h

/-- What comes after a step whose value does not matter. -/
theorem after (hf : ∀ a, Gives (f a) Q) : Gives (d >>= f) Q :=
  bind (P := fun _ => True) (fun _ _ _ _ => trivial) fun a _ => hf a

theorem of_run (h : Gives d P) {a : α} (ha : d.run = .ok a) : P a := by
  unfold Decode.run at ha
  split at ha
  · rename_i hd
    cases ha
    exact h _ _ _ hd
  · cases ha
  · cases ha

theorem of_map_run {γ : Type} {g : α → γ} {c : γ} (h : Gives d P) (hc : d.run.map g = .ok c) :
    ∃ a, P a ∧ g a = c := by
  cases hrun : d.run with
  | error e =>
    rw [hrun] at hc
    cases hc
  | ok a =>
    rw [hrun] at hc
    exact ⟨a, h.of_run hrun, Except.ok.inj hc⟩

variable {fields : List String} {strict merging : Bool} {set : α → String → Node → Decode ε α}

/-- Reading entries keeps what setting a field keeps. -/
theorem entries (hset : ∀ a field n, P a → Gives (set a field n) P) :
    ∀ (es : List (Node × Node)) {done : List String} {a : α}, P a →
      Gives (Decode.entries doc fields strict merging set done a es) fun r => P r.2
  | [], _, _, ha => .pure ha
  | (k, v) :: es, done, a, ha => by
    rw [Decode.entries]
    split
    · exact entries hset es ha
    · refine .after fun found => ?_
      split
      · exact entries hset es ha
      · split
        · split
          · exact .after fun _ => entries hset es ha
          · exact entries hset es ha
        · split
          · exact .bind (hset a _ v ha) fun b hb => entries hset es hb
          · split
            · exact .after fun _ => entries hset es ha
            · exact entries hset es ha

theorem foldlM {step : α → β → Decode ε α} (hstep : ∀ a b, P a → Gives (step a b) P) :
    ∀ (bs : List β) {a : α}, P a → Gives (bs.foldlM step a) P
  | [], _, ha => .pure ha
  | b :: bs, a, ha => by
    rw [List.foldlM_cons]
    exact .bind (hstep a b ha) fun c hc => foldlM hstep bs hc

theorem mapping {next : α → List (Node × Node) → Decode ε α} {a : α}
    (h : ∀ es, Gives (next a es) P) (n : Node) : Gives (Decode.mapping next a n) P := by
  cases n with
  | mapping _ es => exact h es
  | _ => exact malformed

theorem fill (hset : ∀ a field n, P a → Gives (set a field n) P) (fuel : Nat) :
    ∀ (merging : Bool) (r : List String × α) (es : List (Node × Node)), P r.2 →
      Gives (Decode.fill doc fields strict set fuel merging r es) fun r => P r.2 := by
  induction fuel with
  | zero => exact fun _ _ _ _ => .malformed
  | succ fuel ih =>
    intro merging r es h
    rw [Decode.fill]
    split
    · exact .after fun _ => .pure h
    · refine .bind (entries hset es h) fun own hown => ?_
      split
      · exact .pure hown
      · exact foldlM (fun r n hr => mapping (fun es => ih true r es hr) n) _ hown

theorem record (hset : ∀ a field n, P a → Gives (set a field n) P) {a : α} (ha : P a) (n : Node) :
    Gives (Decode.record doc fields strict set a n) fun r => ∀ b ∈ r, P b := by
  unfold Decode.record
  split
  · refine .bind (fill hset _ false ([], a) _ ha) fun r hr => .pure ?_
    rintro b ⟨⟩
    exact hr
  · refine .after fun found => ?_
    split
    · exact .pure (by simp)
    · exact .after fun _ => .pure (by simp)
  · exact .after fun _ => .pure (by simp)

end Gives

section Written

variable {fields : List String} {strict merging : Bool} {set : α → String → Node → Decode ε α}

/-- The entries of a record as they are written. -/
def named (es : List (String × Node)) : List (Node × Node) :=
  es.map fun e => (.scalar Tag.text.name e.1, e.2)

theorem string_text (s : String) :
    (string doc (.scalar Tag.text.name s) : Decode ε (Option String)) = pure (some s) := by
  rw [string, Document.target_scalar]
  dsimp only
  rw [scalarText, if_neg (by decide), if_neg (by decide)]

theorem isMergeKey_text (s : String) : isMergeKey (.scalar Tag.text.name s) = false := by
  have htag : Tag.text.name ≠ Node.mergeTag := by decide
  simp [isMergeKey, htag]

theorem hasRepeatedKey_named {es : List (String × Node)} (h : (es.map (·.1)).Nodup) :
    hasRepeatedKey (named es) = false := by
  induction es with
  | nil => rfl
  | cons e es ih =>
    obtain ⟨he, hes⟩ := List.nodup_cons.mp h
    have hnone : (named es).any (fun k => sameKey (.scalar Tag.text.name e.1) k.1) = false := by
      rw [named, List.any_map, List.any_eq_false]
      intro f hf hsame
      have hname : e.1 = f.1 := by simpa [sameKey] using hsame
      exact he (List.mem_map.mpr ⟨f, hf, hname.symm⟩)
    rw [named, List.map_cons, ← named, hasRepeatedKey, hnone, ih hes]
    rfl

/-- Known names that are different set their fields in turn. -/
theorem entries_named : ∀ (es : List (String × Node)) {done : List String} {a : α},
    (∀ e ∈ es, e.1 ∈ fields ∧ e.1 ∉ done) → (es.map (·.1)).Nodup →
      entries doc fields strict merging set done a (named es) = do
        let b ← es.foldlM (fun b e => set b e.1 e.2) a
        return ((es.map (·.1)).reverse ++ done, b)
  | [], _, _, _, _ => rfl
  | (name, value) :: es, done, a, hnames, hnodup => by
    obtain ⟨⟨hname, hdone⟩, hnames⟩ := List.forall_mem_cons.mp hnames
    obtain ⟨hnew, hnodup⟩ := List.nodup_cons.mp hnodup
    -- the names that are left are not among those read, nor is the first one among them
    have hrest : ∀ e ∈ es, e.1 ∈ fields ∧ e.1 ∉ name :: done := by
      intro e he
      refine ⟨(hnames e he).1, fun hmem => ?_⟩
      rcases List.mem_cons.mp hmem with heq | hmem
      · exact hnew (List.mem_map.mpr ⟨e, he, heq⟩)
      · exact (hnames e he).2 hmem
    have hknown : fields.contains name = true := List.contains_iff_mem.mpr hname
    have hfirst : ¬done.contains name = true := fun h => hdone (List.contains_iff_mem.mp h)
    rw [named, List.map_cons, ← named, entries, if_neg (by rw [isMergeKey_text]; decide),
      string_text, pure_bind]
    dsimp only
    rw [if_neg hfirst, if_pos hknown, List.foldlM_cons, bind_assoc]
    refine bind_congr fun b => ?_
    rw [entries_named es hrest hnodup, List.map_cons, List.reverse_cons, List.append_assoc]
    rfl

/-- A record is read from its entries as they are written by setting its fields in turn. -/
theorem record_named {es : List (String × Node)} {a : α} (tag : String)
    (hnames : ∀ e ∈ es, e.1 ∈ fields) (hnodup : (es.map (·.1)).Nodup) :
    record doc fields strict set a (.mapping tag (named es)) =
      some <$> es.foldlM (fun b e => set b e.1 e.2) a := by
  have hplain : mergeSource? (named es) = none := by
    rw [mergeSource?, Option.map_eq_none_iff, List.getLast?_eq_none_iff, named, List.filter_map,
      List.map_eq_nil_iff, List.filter_eq_nil_iff]
    intro e he
    rw [Function.comp_apply, isMergeKey_text]
    decide
  obtain ⟨fuel, hfuel⟩ := Nat.exists_eq_add_one.mpr doc.size_pos
  rw [record, Document.target_mapping]
  dsimp only
  rw [hfuel, fill, if_neg (by rw [hasRepeatedKey_named hnodup]; decide),
    entries_named es (fun e he => ⟨hnames e he, List.not_mem_nil⟩) hnodup, hplain]
  simp

end Written

end Decode

end ScriptKit.Yaml
