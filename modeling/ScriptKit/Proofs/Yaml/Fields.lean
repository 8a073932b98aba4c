import ScriptKit.Proofs.Yaml.Decoded

namespace ScriptKit.Yaml

namespace Document

open Decode

mutual

/-- What the merge key of a mapping brings in: the entries of the mappings that its value stands
for, each followed by what is brought into it in turn. -/
inductive Brings (doc : Document) : List (Node × Node) → List (Node × Node) → Prop
  | nothing {es : List (Node × Node)} (h : mergeSource? es = none) : Brings doc es []
  | sources {es more : List (Node × Node)} {source : Node} (hsource : mergeSource? es = some source)
    (h : BringAll doc (sources doc source) more) : Brings doc es more

inductive BringAll (doc : Document) : List Node → List (Node × Node) → Prop
  | nil : BringAll doc [] []
  | cons {tag : String} {es more rest : List (Node × Node)} {ns : List Node}
    (h : Brings doc es more) (hrest : BringAll doc ns rest) :
    BringAll doc (.mapping tag es :: ns) (es ++ more ++ rest)

end

mutual

theorem Brings.unique {doc : Document} {es more more' : List (Node × Node)} :
    Brings doc es more → Brings doc es more' → more = more'
  | .nothing _, .nothing _ => rfl
  | .nothing h, .sources h' _ => by
    rw [h] at h'
    cases h'
  | .sources h _, .nothing h' => by
    rw [h] at h'
    cases h'
  | .sources h hall, .sources h' hall' => by
    rw [h] at h'
    cases h'
    exact hall.unique hall'

theorem BringAll.unique {doc : Document} {ns : List Node} {more more' : List (Node × Node)} :
    BringAll doc ns more → BringAll doc ns more' → more = more'
  | .nil, .nil => rfl
  | .cons h hrest, .cons h' hrest' => by rw [h.unique h', hrest.unique hrest']

end

end Document

namespace Decode

open Document

variable {doc : Document} {ε α β : Type} {d : Decode ε α} {f : α → Decode ε β} {a : α} {b : β}

section Steps

/-- A step of decoding gives a value and meets nothing of the wrong type. -/
def Reads (d : Decode ε α) (a : α) : Prop :=
  d false = .ok (a, false)

/-- A step of decoding does not forget that something had the wrong type. -/
def Remembers (d : Decode ε α) : Prop :=
  ∀ a t, d true = .ok (a, t) → t = true

theorem run_eq_ok_iff : d.run = .ok a ↔ Reads d a := by
  unfold Decode.run Reads
  split <;> simp_all

theorem reads_of_map_run {γ : Type} {g : α → γ} {c : γ} (h : d.run.map g = .ok c) :
    ∃ a, Reads d a ∧ g a = c := by
  cases hrun : d.run with
  | error e =>
    rw [hrun] at h
    cases h
  | ok a =>
    rw [hrun] at h
    exact ⟨a, run_eq_ok_iff.mp hrun, Except.ok.inj h⟩

theorem Reads.unique {a' : α} (h : Reads d a) (h' : Reads d a') : a = a' := by
  cases h.symm.trans h'
  rfl

theorem reads_pure_iff {a' : α} : Reads (pure a : Decode ε α) a' ↔ a = a' := by
  constructor
  · intro h
    cases h
    rfl
  · rintro rfl
    rfl

theorem not_reads_malformed : ¬Reads (malformed : Decode ε α) a := by
  intro h
  cases h

theorem not_reads_refuse {e : ε} : ¬Reads (refuse e : Decode ε α) a := by
  intro h
  cases h

theorem bind_eq (d : Decode ε α) (f : α → Decode ε β) (s : Bool) :
    (d >>= f) s = (d s).bind fun r => f r.1 r.2 := rfl

/-- What is read in two steps is read in each of them. -/
theorem Reads.of_bind (h : Reads (d >>= f) b) (hf : ∀ a, Remembers (f a)) :
    ∃ a, Reads d a ∧ Reads (f a) b := by
  rw [Reads, bind_eq] at h
  cases hd : d false with
  | error e =>
    rw [hd] at h
    cases h
  | ok r =>
    obtain ⟨a, t⟩ := r
    rw [hd] at h
    cases t with
    | false => exact ⟨a, hd, h⟩
    | true => cases hf a b false h

theorem not_reads_mismatch {g : Unit → Decode ε β} (hg : ∀ u, Remembers (g u)) :
    ¬Reads (mismatch >>= g) b := fun h => by
  obtain ⟨u, hu, -⟩ := h.of_bind hg
  cases hu

/-- What becomes of an entry, and of those behind it, after its key was read. -/
def entry (fields : List String) (strict merging : Bool) (set : α → String → Node → Decode ε α)
    (done : List String) (a : α) (v : Node) (rest : List String → α → Decode ε (List String × α)) :
    Option String → Decode ε (List String × α)
  | none => rest done a
  | some name => do
    if done.contains name then
      if !merging then mismatch
      rest done a
    else if fields.contains name then
      let a ← set a name v
      rest (name :: done) a
    else
      if strict then mismatch
      rest done a

theorem entries_cons (doc : Document) (fields : List String) (strict merging : Bool)
    (set : α → String → Node → Decode ε α) (done : List String) (a : α) (k v : Node)
    (es : List (Node × Node)) :
    entries doc fields strict merging set done a ((k, v) :: es) =
      if isMergeKey k then entries doc fields strict merging set done a es
      else string doc k >>= entry fields strict merging set done a v fun done a =>
        entries doc fields strict merging set done a es := by
  rw [entries]
  congr 1

namespace Remembers

theorem pure : Remembers (Pure.pure a : Decode ε α) := by
  rintro b t ⟨⟩
  rfl

theorem malformed : Remembers (Decode.malformed : Decode ε α) := by
  rintro b t ⟨⟩

theorem refuse (e : ε) : Remembers (Decode.refuse e : Decode ε α) := by
  rintro b t ⟨⟩

theorem mismatch : Remembers (Decode.mismatch : Decode ε Unit) := by
  rintro b t ⟨⟩
  rfl

theorem bind (hd : Remembers d) (hf : ∀ a, Remembers (f a)) : Remembers (d >>= f) := by
  intro b t h
  rw [bind_eq] at h
  cases hs : d true with
  | error e =>
    rw [hs] at h
    cases h
  | ok r =>
    obtain ⟨a, s⟩ := r
    obtain rfl := hd a s hs
    rw [hs] at h
    exact hf a b t h

theorem string (doc : Document) (n : Node) :
    Remembers (Decode.string doc n : Decode ε (Option String)) := by
  unfold Decode.string
  split
  · unfold scalarText
    dsimp only
    split
    · split
      · exact pure
      · exact malformed
    · split
      · split
        · exact pure
        · exact malformed
      · exact pure
  · exact bind mismatch fun _ => pure

variable {fields : List String} {strict merging : Bool} {set : α → String → Node → Decode ε α}

theorem entry (hset : ∀ a name n, Remembers (set a name n)) {done : List String} {a : α}
    {v : Node} {rest : List String → α → Decode ε (List String × α)}
    (hrest : ∀ done a, Remembers (rest done a)) (found : Option String) :
    Remembers (Decode.entry fields strict merging set done a v rest found) := by
  unfold Decode.entry
  split
  · exact hrest done a
  · split
    · split
      · exact bind mismatch fun _ => hrest done a
      · exact hrest done a
    · split
      · exact bind (hset a _ v) fun b => hrest _ b
      · split
        · exact bind mismatch fun _ => hrest done a
        · exact hrest done a

theorem entries (hset : ∀ a name n, Remembers (set a name n)) :
    ∀ (es : List (Node × Node)) (done : List String) (a : α),
      Remembers (Decode.entries doc fields strict merging set done a es)
  | [], _, _ => pure
  | (k, v) :: es, done, a => by
    rw [entries_cons]
    split
    · exact entries hset es done a
    · exact bind (string doc k) (entry hset (entries hset es))

theorem foldlM {step : α → β → Decode ε α} (hstep : ∀ a b, Remembers (step a b)) :
    ∀ (bs : List β) (a : α), Remembers (bs.foldlM step a)
  | [], _ => pure
  | b :: bs, a => by
    rw [List.foldlM_cons]
    exact bind (hstep a b) fun c => foldlM hstep bs c

theorem mapM {step : β → Decode ε α} (hstep : ∀ b, Remembers (step b)) :
    ∀ bs : List β, Remembers (bs.mapM step)
  | [] => pure
  | b :: bs => by
    rw [List.mapM_cons]
    exact bind (hstep b) fun _ => bind (mapM hstep bs) fun _ => pure

theorem mapping {next : α → List (Node × Node) → Decode ε α} (h : ∀ a es, Remembers (next a es))
    (a : α) (n : Node) : Remembers (Decode.mapping next a n) := by
  cases n with
  | mapping _ es => exact h a es
  | _ => exact malformed

theorem fill (hset : ∀ a name n, Remembers (set a name n)) (fuel : Nat) :
    ∀ (merging : Bool) (r : List String × α) (es : List (Node × Node)),
      Remembers (Decode.fill doc fields strict set fuel merging r es) := by
  induction fuel with
  | zero => exact fun _ _ _ => malformed
  | succ fuel ih =>
    intro merging r es
    rw [Decode.fill]
    split
    · exact bind mismatch fun _ => pure
    · refine bind (entries hset es _ _) fun own => ?_
      split
      · exact pure
      · exact foldlM (mapping (ih true)) _ own

end Remembers

end Steps

section Names

/-- A node is read as a text, or as nothing if it stands for null. -/
def Spells (doc : Document) (n : Node) (text : Option String) : Prop :=
  Reads (string doc n : Decode Empty (Option String)) text

/-- A key is the name of a field, and not the mark of what is merged in. -/
def Named (doc : Document) (k : Node) (name : String) : Prop :=
  isMergeKey k = false ∧ Spells doc k (some name)

/-- What texts are read as does not depend on what else may be refused. -/
theorem reads_string_iff {n : Node} {text : Option String} :
    Reads (string doc n : Decode ε (Option String)) text ↔ Spells doc n text := by
  unfold Spells string
  cases doc.target n with
  | scalar tag encoded =>
    dsimp only [scalarText]
    split
    · split
      · exact reads_pure_iff.trans reads_pure_iff.symm
      · exact iff_of_false not_reads_malformed not_reads_malformed
    · split
      · cases Text.Base64.decode encoded with
        | some decoded => exact reads_pure_iff.trans reads_pure_iff.symm
        | none => exact iff_of_false not_reads_malformed not_reads_malformed
      · exact reads_pure_iff.trans reads_pure_iff.symm
  | _ =>
    exact iff_of_false (not_reads_mismatch fun _ => .pure) (not_reads_mismatch fun _ => .pure)

theorem Named.unique {k : Node} {name other : String} (h : Named doc k name)
    (h' : Named doc k other) : name = other :=
  Option.some.inj (h.2.unique h'.2)

/-- The value of the first entry with a name. -/
inductive First (doc : Document) (name : String) : List (Node × Node) → Node → Prop
  | here {k v rest} (h : Named doc k name) : First doc name ((k, v) :: rest) v
  | later {e rest v} (h : ¬Named doc e.1 name) (hrest : First doc name rest v) :
    First doc name (e :: rest) v

theorem First.append {name : String} {es : List (Node × Node)} {v : Node} (h : First doc name es v)
    (more : List (Node × Node)) : First doc name (es ++ more) v := by
  induction h with
  | here h => exact .here h
  | later h _ ih => exact .later h ih

theorem First.after {name : String} {v : Node} {more : List (Node × Node)}
    (h : First doc name more v) :
    ∀ {es : List (Node × Node)}, (∀ e ∈ es, ¬Named doc e.1 name) → First doc name (es ++ more) v
  | [], _ => h
  | e :: _, hnone =>
    .later (hnone e List.mem_cons_self) (h.after fun f hf => hnone f (List.mem_cons_of_mem e hf))

theorem First.exists_of_mem {name : String} {e : Node × Node} (hk : Named doc e.1 name) :
    ∀ {es : List (Node × Node)}, e ∈ es → ∃ v, First doc name es v
  | f :: es, h => by
    by_cases hf : Named doc f.1 name
    · exact ⟨f.2, .here hf⟩
    · rcases List.mem_cons.mp h with rfl | h
      · exact absurd hk hf
      · obtain ⟨v, hv⟩ := First.exists_of_mem hk h
        exact ⟨v, .later hf hv⟩

/-- Setting fields from entries, one after the other: an entry is passed over if it names no field,
or one that is done. -/
inductive Assigns (doc : Document) (fields : List String) (set : α → String → Node → Decode ε α) :
    List String × α → List (Node × Node) → List String × α → Prop
  | nil {r : List String × α} : Assigns doc fields set r [] r
  | passed {r r' : List String × α} {k v : Node} {es : List (Node × Node)}
    (h : ∀ name ∈ fields, Named doc k name → name ∈ r.1) (hrest : Assigns doc fields set r es r') :
    Assigns doc fields set r ((k, v) :: es) r'
  | sets {done : List String} {a b : α} {r' : List String × α} {name : String} {k v : Node}
    {es : List (Node × Node)} (hname : name ∈ fields) (hk : Named doc k name) (hnew : name ∉ done)
    (hb : Reads (set a name v) b) (hrest : Assigns doc fields set (name :: done, b) es r') :
    Assigns doc fields set (done, a) ((k, v) :: es) r'

end Names

section Entries

variable {fields : List String} {strict merging : Bool} {set : α → String → Node → Decode ε α}
  {done : List String} {es more : List (Node × Node)} {k v : Node} {r : List String × α}
  {name : String}

/-- An entry is passed over, or it sets the field that it names. -/
theorem Reads.entries_cons (hset : ∀ a name n, Remembers (set a name n))
    (h : Reads (entries doc fields strict merging set done a ((k, v) :: es)) r) :
    (∀ name ∈ fields, Named doc k name → merging = true ∧ name ∈ done) ∧
        Reads (entries doc fields strict merging set done a es) r ∨
      ∃ name ∈ fields, Named doc k name ∧ name ∉ done ∧ ∃ b, Reads (set a name v) b ∧
        Reads (entries doc fields strict merging set (name :: done) b es) r := by
  have hrest : ∀ done a, Remembers (entries doc fields strict merging set done a es) :=
    Remembers.entries hset es
  rw [Decode.entries_cons] at h
  split at h
  -- a key that merges names no field
  · rename_i hmerge
    refine Or.inl ⟨fun name _ hname => ?_, h⟩
    cases hmerge.symm.trans hname.1
  · rename_i hmerge
    obtain ⟨found, hfound, h⟩ := h.of_bind (Remembers.entry hset hrest)
    rw [reads_string_iff] at hfound
    cases found with
    | none =>
      refine Or.inl ⟨fun name _ hname => ?_, h⟩
      cases hname.2.unique hfound
    -- the key has a text: of a field that is done, of one that is still to be read, or of none
    | some text =>
      have hnamed : Named doc k text := ⟨Bool.not_eq_true _ ▸ hmerge, hfound⟩
      unfold entry at h
      dsimp only at h
      split at h
      · rename_i hdone
        cases merging with
        | false => exact absurd h (not_reads_mismatch fun _ => hrest done a)
        | true =>
          refine Or.inl ⟨fun name _ hname => ⟨rfl, ?_⟩, h⟩
          rw [hname.unique hnamed]
          exact List.contains_iff_mem.mp hdone
      · rename_i hdone
        split at h
        · rename_i hknown
          obtain ⟨b, hb, h⟩ := h.of_bind fun b => hrest _ b
          exact Or.inr ⟨text, List.contains_iff_mem.mp hknown, hnamed,
            fun hmem => hdone (List.contains_iff_mem.mpr hmem), b, hb, h⟩
        · rename_i hknown
          have hpassed : ∀ name ∈ fields, Named doc k name → merging = true ∧ name ∈ done := by
            intro name hname hk
            rw [hk.unique hnamed] at hname
            exact absurd (List.contains_iff_mem.mpr hname) hknown
          split at h
          · exact absurd h (not_reads_mismatch fun _ => hrest done a)
          · exact Or.inl ⟨hpassed, h⟩

/-- Among the own entries of a mapping a field is named once. -/
theorem Reads.first_of_mem (hset : ∀ a name n, Remembers (set a name n)) (hname : name ∈ fields)
    (hk : Named doc k name) : ∀ {es : List (Node × Node)} {done : List String} {a : α},
      Reads (entries doc fields strict false set done a es) r → (k, v) ∈ es →
        name ∉ done ∧ First doc name es v
  | (k', v') :: es, done, a, h, hmem => by
    rcases h.entries_cons hset with ⟨hpassed, h⟩ | ⟨text, -, hk', hdone, b, -, h⟩
    · have hne : ¬Named doc k' name := fun hk' => by cases (hpassed name hname hk').1
      rcases List.mem_cons.mp hmem with heq | hmem
      · cases heq
        exact absurd hk hne
      · obtain ⟨hnot, hfirst⟩ := h.first_of_mem hset hname hk hmem
        exact ⟨hnot, .later hne hfirst⟩
    · rcases List.mem_cons.mp hmem with heq | hmem
      · cases heq
        rw [hk.unique hk']
        exact ⟨hdone, .here hk'⟩
      · obtain ⟨hnot, hfirst⟩ := h.first_of_mem hset hname hk hmem
        refine ⟨fun hmem => hnot (List.mem_cons_of_mem text hmem), .later (fun hagain => ?_) hfirst⟩
        rw [hagain.unique hk'] at hnot
        exact hnot List.mem_cons_self

theorem Reads.assigns (hset : ∀ a name n, Remembers (set a name n)) :
    ∀ {es : List (Node × Node)} {done : List String} {a : α},
      Reads (entries doc fields strict merging set done a es) r →
        Assigns doc fields set (done, a) es r
  | [], _, _, h => by
    cases h
    exact .nil
  | (k, v) :: es, done, a, h => by
    obtain ⟨hpassed, h⟩ | ⟨name, hname, hk, hnew, b, hb, h⟩ := h.entries_cons hset
    · exact .passed (fun name hname hk => (hpassed name hname hk).2) (h.assigns hset)
    · exact .sets hname hk hnew hb (h.assigns hset)

variable {r' r'' : List String × α}

theorem Assigns.append (h : Assigns doc fields set r es r')
    (h' : Assigns doc fields set r' more r'') : Assigns doc fields set r (es ++ more) r'' := by
  induction h with
  | nil => exact h'
  | passed hpassed _ ih => exact .passed hpassed (ih h')
  | sets hname hk hnew hb _ ih => exact .sets hname hk hnew hb (ih h')

variable {γ : Type} {get : α → γ}

/-- A part of the value that only one field changes. -/
def OnlyBy (fields : List String) (set : α → String → Node → Decode ε α) (get : α → γ)
    (name : String) : Prop :=
  ∀ a other n b, other ∈ fields → other ≠ name → Reads (set a other n) b → get b = get a

/-- A field that is done, or that no entry names, stays as it is. -/
theorem Assigns.get_eq (h : Assigns doc fields set r es r') (hget : OnlyBy fields set get name)
    (hnone : name ∈ r.1 ∨ ∀ e ∈ es, ¬Named doc e.1 name) : get r'.2 = get r.2 := by
  induction h with
  | nil => rfl
  | passed _ _ ih =>
    exact ih (hnone.imp_right fun h e he => h e (List.mem_cons_of_mem _ he))
  | @sets done a b r' other k v es hother hk hnew hb _ ih =>
    have hne : other ≠ name := by
      rintro rfl
      rcases hnone with hdone | hnone
      · exact hnew hdone
      · exact hnone (k, v) List.mem_cons_self hk
    rw [ih (hnone.imp (List.mem_cons_of_mem _) fun h e he => h e (List.mem_cons_of_mem _ he))]
    exact hget a other v b hother hne hb

/-- A field is set from the first entry that names it, and by nothing else. -/
theorem Assigns.get_of_first (h : Assigns doc fields set r es r')
    (hget : OnlyBy fields set get name) (hname : name ∈ fields) (hnew : name ∉ r.1)
    (hfirst : First doc name es v) :
    ∃ a b, get a = get r.2 ∧ Reads (set a name v) b ∧ get r'.2 = get b := by
  induction h with
  | nil => cases hfirst
  | passed hpassed _ ih =>
    cases hfirst with
    | here hk => exact absurd (hpassed name hname hk) hnew
    | later _ hfirst => exact ih hnew hfirst
  | @sets done a b r' other k w es hother hk _ hb hrest ih =>
    cases hfirst with
    | here hk' =>
      obtain rfl := hk.unique hk'
      exact ⟨a, b, rfl, hb, hrest.get_eq hget (Or.inl List.mem_cons_self)⟩
    | later hne hfirst =>
      have hother' : other ≠ name := by
        rintro rfl
        exact hne hk
      obtain ⟨a', b', ha', hb', hr'⟩ := ih (by simp [hother'.symm, hnew]) hfirst
      exact ⟨a', b', ha'.trans (hget a other w b hother hother' hb), hb', hr'⟩

end Entries

section Merging

variable {fields : List String} {strict : Bool} {set : α → String → Node → Decode ε α}
  {es : List (Node × Node)} {r r' : List String × α} {n : Node}

theorem Reads.of_mapping {next : α → List (Node × Node) → Decode ε α} {a b : α}
    (h : Reads (Decode.mapping next a n) b) :
    ∃ tag es, n = .mapping tag es ∧ Reads (next a es) b := by
  cases n with
  | mapping tag es => exact ⟨tag, es, rfl, h⟩
  | _ => exact absurd h not_reads_malformed

/-- Steps that each take their fields from a mapping take them from all mappings in turn. -/
theorem Assigns.of_foldlM
    {next : List String × α → List (Node × Node) → Decode ε (List String × α)}
    (hnext : ∀ r es, Remembers (next r es))
    (hassigns : ∀ {r es r'}, Reads (next r es) r' → ∃ more, Brings doc es more ∧
      Assigns doc fields set r (es ++ more) r') :
    ∀ {ns : List Node} {r : List String × α}, Reads (ns.foldlM (Decode.mapping next) r) r' →
      ∃ all, BringAll doc ns all ∧ Assigns doc fields set r all r'
  | [], r, h => by
    cases h
    exact ⟨[], .nil, .nil⟩
  | n :: ns, r, h => by
    rw [List.foldlM_cons] at h
    obtain ⟨s, hs, hns⟩ := h.of_bind fun s => .foldlM (.mapping hnext) ns s
    obtain ⟨rest, hall, hrest⟩ := Assigns.of_foldlM hnext hassigns hns
    obtain ⟨tag, es, rfl, hs⟩ := hs.of_mapping
    obtain ⟨more, hbrings, hfirst⟩ := hassigns hs
    exact ⟨_, .cons hbrings hall, hfirst.append hrest⟩

/-- The fields of a mapping are set from its own entries and then from those that are brought in. -/
theorem Reads.fill (hset : ∀ a name n, Remembers (set a name n)) (fuel : Nat) :
    ∀ {merging : Bool} {r : List String × α} {es : List (Node × Node)} {r' : List String × α},
      Reads (Decode.fill doc fields strict set fuel merging r es) r' →
        (∃ more, Brings doc es more ∧ Assigns doc fields set r (es ++ more) r') ∧
          ∃ own, Reads (entries doc fields strict merging set r.1 r.2 es) own := by
  induction fuel with
  | zero => exact fun h => absurd h not_reads_malformed
  | succ fuel ih =>
    intro merging r es r' h
    rw [Decode.fill] at h
    split at h
    · exact absurd h (not_reads_mismatch fun _ => .pure)
    · obtain ⟨own, hown, h⟩ := h.of_bind fun own => by
        split
        · exact .pure
        · exact .foldlM (.mapping (.fill hset fuel true)) _ own
      refine ⟨?_, own, hown⟩
      split at h
      · rename_i hsource
        cases h
        exact ⟨[], .nothing hsource, (hown.assigns hset).append .nil⟩
      · rename_i source hsource
        obtain ⟨more, hall, hmore⟩ :=
          Assigns.of_foldlM (.fill hset fuel true) (fun h => (ih h).1) h
        exact ⟨more, .sources hsource hall, (hown.assigns hset).append hmore⟩

/-- A record that is read from a mapping has its fields from all entries in order of precedence, and
its own entries name a field once. -/
theorem Reads.record {tag : String} {found : Option α}
    (hset : ∀ a name n, Remembers (set a name n)) (hn : doc.target n = .mapping tag es)
    (h : Reads (Decode.record doc fields strict set a n) found) :
    ∃ b more, found = some b ∧ Brings doc es more ∧
      (∃ done, Assigns doc fields set ([], a) (es ++ more) (done, b)) ∧
      ∀ k v, ∀ name ∈ fields, (k, v) ∈ es → Named doc k name → First doc name (es ++ more) v := by
  rw [Decode.record, hn] at h
  obtain ⟨⟨done, b⟩, hfill, h⟩ := h.of_bind fun _ => .pure
  cases h
  obtain ⟨⟨more, hbrings, hassigns⟩, own, hown⟩ := hfill.fill hset _
  exact ⟨b, more, rfl, hbrings, ⟨done, hassigns⟩, fun k v name hname hmem hk =>
    (hown.first_of_mem hset hname hk hmem).2.append _⟩

/-- Only mappings are read as records. -/
theorem Reads.mapping_of_record {b : α}
    (h : Reads (Decode.record doc fields strict set a n) (some b)) :
    ∃ tag es, doc.target n = .mapping tag es := by
  unfold Decode.record at h
  split at h
  · rename_i hn
    exact ⟨_, _, hn⟩
  · obtain ⟨found, -, h⟩ := h.of_bind fun found => by
      split
      · exact .pure
      · exact .bind .mismatch fun _ => .pure
    split at h
    · cases h
    · exact absurd h (not_reads_mismatch fun _ => .pure)
  · exact absurd h (not_reads_mismatch fun _ => .pure)

end Merging

end Decode

end ScriptKit.Yaml
