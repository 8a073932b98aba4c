import ScriptKit.Proofs.Evaluation.Nesting
import ScriptKit.Proofs.Evaluation.Recorded

namespace ScriptKit

namespace Machine

variable {m : Machine} {path other : String} {entry : Option Value}

theorem mark_value? (h : other ≠ path) :
    (m.mark path entry).session.value? other = m.session.value? other := by
  unfold mark
  split
  · simp [h]
  · rfl

theorem reset_value? : (m.reset path entry).session.value? other =
    if other = path then entry else m.session.value? other := by
  unfold reset
  cases entry <;> simp

theorem names_prefix_mark : m.session.names <+: (m.mark path entry).session.names := by
  unfold mark
  split
  · exact NameTable.names_prefix_insert
  · exact List.prefix_rfl

/-- What came before a path was marked stays when the path gets the entry back that it had. -/
theorem names_prefix_reset {m' : Machine} (h : m.session.names <+: m'.session.names) :
    m.session.names <+: (m'.reset path (m.session.value? path)).session.names := by
  unfold reset
  cases hentry : m.session.value? path with
  | none => exact NameTable.names_prefix_erase h (NameTable.find?_eq_none_iff.mp hentry)
  | some v => exact h.trans NameTable.names_prefix_insert

end Machine

theorem Event.Aside.ne_completed {e : Event} (h : e.Aside) (path : String) (p : Program)
    (v : Value) : e ≠ .completed path p v := by
  rintro rfl
  simpa [Event.track] using h [(path, none)]

/-- What has become of the session at the end of a computation. The files recorded before come first,
every other entry is the value of an evaluation that was completed, and after a failure each path in
progress has the entry back that it had when the outermost evaluation of it began. -/
structure Restores (source : String → Program → Prop) (m : Machine) (es : List Event)
    (o : Outcome Unit) (m' : Machine) : Prop where
  nesting : Nesting es o
  names : m.session.names <+: m'.session.names
  values : (∀ s, o ≠ .stopped s) → ∀ path, m'.session.value? path = m.session.value? path ∨
    ∃ p v, .completed path p v ∈ es ∧ m'.session.value? path = some v
  restored : ∀ e, o = .failure e → ∀ inner path entry outer,
    inProgress es = inner ++ (path, entry) :: outer → (∀ f ∈ outer, f.1 ≠ path) →
    m'.session.value? path = entry
  sources : ∀ path p v, .completed path p v ∈ es → source path p

namespace Restores

variable {source : String → Program → Prop} {m m₁ m' : Machine} {es es' : List Event} {e : Event}
  {o : Outcome Unit} {path : String} {byRequire : Bool} {p : Program}

theorem quiet (h : m'.session = m.session) : Restores source m [] o m' where
  nesting := .nil
  names := h ▸ List.prefix_rfl
  values _ _ := Or.inl (by rw [h])
  restored e _ inner path entry outer hin := by simp [inProgress] at hin
  sources _ _ _ := nofun

theorem aside (he : e.Aside) (h : m'.session = m.session) : Restores source m [e] o m' where
  nesting := .singleton he
  names := h ▸ List.prefix_rfl
  values _ _ := Or.inl (by rw [h])
  restored e' _ inner path entry outer hin := by
    rw [inProgress, List.foldl_cons, he, List.foldl_nil] at hin
    simp at hin
  sources path p v hmem := absurd (List.mem_singleton.mp hmem).symm (he.ne_completed path p v)

theorem seq (h : Restores source m es (.value ()) m₁) (h' : Restores source m₁ es' o m') :
    Restores source m (es ++ es') o m' where
  nesting := h.nesting.append h'.nesting
  names := h.names.trans h'.names
  values ho path := by
    rcases h'.values ho path with hsame' | ⟨p, v, hmem, hv⟩
    · rcases h.values (fun _ => nofun) path with hsame | ⟨p, v, hmem, hv⟩
      · exact Or.inl (hsame'.trans hsame)
      · exact Or.inr ⟨p, v, List.mem_append_left _ hmem, hsame'.trans hv⟩
    · exact Or.inr ⟨p, v, List.mem_append_right _ hmem, hv⟩
  restored e he inner path entry outer hin := by
    -- all that the first part has begun is completed
    rw [inProgress_append (h.nesting.done rfl)] at hin
    exact h'.restored e he inner path entry outer hin
  sources path p v hmem :=
    (List.mem_append.mp hmem).elim (h.sources path p v) (h'.sources path p v)

theorem left {f f' : Failure} (he : e.Aside) (h : Restores source m es (.failure f) m') :
    Restores source m (es ++ [e]) (.failure f') m' where
  nesting := ⟨h.nesting.nested.concat he, nofun⟩
  names := h.names
  values _ path := (h.values (fun _ => nofun) path).imp_right fun ⟨p, v, hmem, hv⟩ =>
    ⟨p, v, List.mem_append_left _ hmem, hv⟩
  restored _ _ inner path entry outer hin := by
    rw [inProgress_concat he] at hin
    exact h.restored f rfl inner path entry outer hin
  sources path p v hmem := by
    rcases List.mem_append.mp hmem with hmem | hmem
    · exact h.sources path p v hmem
    · exact absurd (List.mem_singleton.mp hmem).symm (he.ne_completed path p v)

theorem returned (v : Value) (hsource : source path p)
    (h : Restores source (m.mark path (m.session.value? path)) es (.value ()) m') :
    Restores source m
      (.began path byRequire (m.session.value? path) :: (es ++ [.completed path p v]))
      (.value ()) { m' with session := m'.session.record path v } where
  nesting := h.nesting.completed
  names := (Machine.names_prefix_mark.trans h.names).trans NameTable.names_prefix_insert
  values _ q := by
    -- the path has the value that it is completed with, any other one what it had before
    by_cases hq : q = path
    · exact Or.inr ⟨p, v, by simp [hq], by simp [hq]⟩
    · have hrecord : (m'.session.record path v).value? q = m'.session.value? q := by simp [hq]
      rcases h.values (fun _ => nofun) q with hsame | ⟨p', v', hmem, hv⟩
      · exact Or.inl ((hrecord.trans hsame).trans (Machine.mark_value? hq))
      · exact Or.inr ⟨p', v', by simp [hmem], hrecord.trans hv⟩
  restored _ := nofun
  sources q p' v' hmem := by
    rcases List.mem_cons.mp hmem with hmem | hmem
    · cases hmem
    rcases List.mem_append.mp hmem with hmem | hmem
    · exact h.sources q p' v' hmem
    · cases List.mem_singleton.mp hmem
      exact hsource

theorem thrown {f : Failure}
    (h : Restores source (m.mark path (m.session.value? path)) es (.failure f) m') :
    Restores source m (.began path byRequire (m.session.value? path) :: es) (.failure f)
      (m'.reset path (m.session.value? path)) where
  nesting := h.nesting.began nofun
  names := Machine.names_prefix_reset (Machine.names_prefix_mark.trans h.names)
  values _ q := by
    rw [Machine.reset_value?]
    split
    · rename_i hq
      exact Or.inl (by rw [hq])
    · rename_i hq
      rcases h.values (fun _ => nofun) q with hsame | ⟨p', v', hmem, hv⟩
      · exact Or.inl (hsame.trans (Machine.mark_value? hq))
      · exact Or.inr ⟨p', v', List.mem_cons_of_mem _ hmem, hv⟩
  restored e he inner q entry outer hin houter := by
    rw [h.nesting.nested.inProgress_began] at hin
    rw [Machine.reset_value?]
    -- the outermost evaluation of the path is this one, or else it is of another path
    rcases List.eq_nil_or_concat outer with rfl | ⟨outer, last, rfl⟩
    · obtain ⟨-, hlast⟩ := List.append_inj' hin rfl
      obtain ⟨rfl, rfl⟩ : path = q ∧ m.session.value? path = entry := by simpa using hlast
      rw [if_pos rfl]
    · rw [List.concat_eq_append, ← List.cons_append, ← List.append_assoc] at hin
      obtain ⟨hinner, hlast⟩ := List.append_inj' hin rfl
      obtain rfl := List.singleton_inj.mp hlast
      have hq : path ≠ q := houter (path, m.session.value? path) (by simp)
      rw [if_neg (Ne.symm hq)]
      exact h.restored f rfl inner q entry outer hinner fun f' hf' => houter f' (by simp [hf'])
  sources q p' v' hmem := by
    rcases List.mem_cons.mp hmem with hmem | hmem
    · cases hmem
    · exact h.sources q p' v' hmem

theorem stopped {s : Stop}
    (h : Restores source (m.mark path (m.session.value? path)) es (.stopped s) m') :
    Restores source m (.began path byRequire (m.session.value? path) :: es) (.stopped s) m' where
  nesting := h.nesting.began nofun
  names := Machine.names_prefix_mark.trans h.names
  values ho := absurd rfl (ho s)
  restored _ := nofun
  sources q p' v' hmem := by
    rcases List.mem_cons.mp hmem with hmem | hmem
    · cases hmem
    · exact h.sources q p' v' hmem

end Restores

end ScriptKit
