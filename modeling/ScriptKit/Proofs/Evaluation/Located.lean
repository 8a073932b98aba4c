import ScriptKit.Proofs.Evaluation.Modular
import ScriptKit.Proofs.Program.Lines

namespace ScriptKit

/-- A node of the program that is read from a file. -/
def SourceFile.Contains (file : SourceFile) (t : Tree) : Prop :=
  ∃ p, (Program.parse file).1 = .ok p ∧ t ∈ p.tree.subtrees

namespace SourceFile.Contains

variable {file : SourceFile} {t u : Tree}

theorem line_pos (h : file.Contains t) : 1 ≤ t.line :=
  let ⟨_, hp, ht⟩ := h
  Program.line_pos_of_parse hp t ht

theorem child (h : file.Contains t) (hu : u ∈ t.children) : file.Contains u :=
  let ⟨p, hp, ht⟩ := h
  ⟨p, hp, Tree.mem_subtrees_trans ht (Tree.mem_subtrees_of_mem_children hu)⟩

end SourceFile.Contains

/-- The node that is left with a failure, and the frame it is evaluated in. -/
def Event.left? : Event → Option (Frame × Tree)
  | .failed frame t => some (frame, t)
  | _ => none

/-- The innermost node that is left with a failure. The nodes around it are left later. -/
def innermost (es : List Event) : Option (Frame × Tree) :=
  es.findSome? Event.left?

theorem innermost_append (es es' : List Event) :
    innermost (es ++ es') = (innermost es).or (innermost es') :=
  List.findSome?_append

/-- No node is left with a failure unless the computation fails, and then a fault has the place of
the innermost one, or no place if there is none. -/
structure Placed (es : List Event) (o : Outcome Unit) : Prop where
  still : (∀ e, o ≠ .failure e) → innermost es = none
  placed : ∀ f location, o = .failure (.fault f location) →
    match innermost es with
    | none => location = .nowhere
    | some (frame, t) => location = ⟨frame.file.name, t.line⟩ ∧ frame.file.Contains t

namespace Placed

variable {es es' : List Event} {o : Outcome Unit} {e : Failure} {frame : Frame} {t : Tree}

theorem of_raw (hes : innermost es = none) (ho : o.Raw) : Placed es o where
  still _ := hes
  placed f location h := by
    subst h
    rw [hes]
    exact ho

theorem congr (h : Placed es o) (hes : innermost es' = innermost es) : Placed es' o where
  still ho := hes.trans (h.still ho)
  placed f location ho := by
    rw [hes]
    exact h.placed f location ho

theorem of_value (h : Placed es (.value ())) : innermost es = none :=
  h.still fun _ => nofun

theorem seq (h : Placed es (.value ())) (h' : Placed es' o) : Placed (es ++ es') o :=
  h'.congr (by rw [innermost_append, h.of_value, Option.none_or])

/-- What is around a program that gives a value is no node. -/
theorem returned (h : Placed es (.value ())) (path : String) (byRequire : Bool)
    (entry : Option Value) (p : Program) (v : Value) :
    Placed (.began path byRequire entry :: (es ++ [.completed path p v])) (.value ()) := by
  have hes : innermost (es ++ [.completed path p v]) = none := by
    rw [innermost_append, h.of_value, Option.none_or]
    rfl
  exact .of_raw hes trivial

/-- A fault that has a place keeps it. -/
theorem left (ht : frame.file.Contains t) (h : Placed es (.failure e)) :
    Placed (es ++ [.failed frame t]) (.failure (e.locate ⟨frame.file.name, t.line⟩)) where
  still ho := absurd rfl (ho _)
  placed f location ho := by
    cases e with
    | lexical | incomplete | device => cases ho
    | fault f' before =>
      have hbefore := h.placed f' before rfl
      simp only [Failure.locate, Outcome.failure.injEq, Failure.fault.injEq] at ho
      obtain ⟨-, rfl⟩ := ho
      rw [innermost_append]
      cases hin : innermost es with
      | none =>
        -- the node is the innermost one, and gives the fault its place
        rw [hin] at hbefore
        subst hbefore
        exact ⟨rfl, ht⟩
      | some inner =>
        obtain ⟨frame', t'⟩ := inner
        rw [hin] at hbefore
        obtain ⟨rfl, ht'⟩ := hbefore
        -- no place is on line zero, so the test whether there is one finds it
        have hne : t'.line ≠ 0 := Nat.ne_of_gt ht'.line_pos
        exact ⟨if_neg hne, ht'⟩

end Placed

namespace Law

/-- Faults are located at the innermost node they come from, which is one of the program of its
file. -/
def locating : Law where
  node own frame t := own = some frame.scope ∧ frame.file.Contains t
  step _ _ es o _ := Placed es o

theorem locating_body {file : SourceFile} {ts : List Tree} (h : ∀ t ∈ ts, file.Contains t) :
    locating.Body file ts :=
  fun t ht _ => ⟨rfl, h t ht⟩

theorem locating_stable : locating.Stable where
  parts := by
    rintro own frame t ⟨hown, ht⟩
    refine Evaluator.asks_of_children (fun t ht u hu => SourceFile.Contains.child ht hu) ?_ ?_ hown ht
    · exact fun node hnode u hu => ⟨hown, hnode u hu⟩
    · exact fun ts hts => locating_body hts
  quiet _ _ ho := .of_raw rfl ho
  seq h h' := h.seq h'
  fresh _ h := h
  called _ _ := .of_raw rfl trivial
  written _ _ _ _ := .of_raw rfl trivial
  refused _ := .of_raw rfl rfl
  left ht h := h.left ht.2

theorem locating_parsed {file : SourceFile} {p : Program} (h : (Program.parse file).1 = .ok p) :
    locating.Runs p := by
  intro b hb
  rw [Program.file_of_parse h]
  have hb' : b ∈ p.tree.subtrees :=
    Tree.mem_subtrees_of_mem_children (List.mem_of_getElem? hb)
  exact locating_body fun t ht => SourceFile.Contains.child ⟨p, h, hb'⟩ ht

theorem locating_modular : locating.Modular fun _ _ => True where
  stable := locating_stable
  shift h := h
  parsed := locating_parsed
  required _ _ := .of_raw rfl trivial
  returned v _ _ h := h.returned _ _ _ _ v
  thrown _ h := h.congr rfl
  stopped _ h := h.congr rfl

end Law

/-- A computation that fails within a node if it fails. -/
def Told.FailsInside {α : Type} (y : Told α) : Prop :=
  ∀ m e, (y m).outcome = .failure e → (innermost (y m).events).isSome = true

namespace Told.FailsInside

variable {α β : Type} {y : Told α} {f : α → Told β}

theorem act {x : Eval α} (h : ∀ m, ∃ a, (x m).1 = .value a) :
    (MonadMachine.act x : Told α).FailsInside := by
  intro m e he
  obtain ⟨a, ha⟩ := h m
  cases ha.symm.trans he

theorem pure (a : α) : (Pure.pure a : Told α).FailsInside :=
  fun _ _ => nofun

theorem bind (h : y.FailsInside) (hf : ∀ a, (f a).FailsInside) : (y >>= f).FailsInside := by
  intro m e
  simp only [Bind.bind, Told.andThen]
  rcases hy : y m with ⟨es, a | e' | _, m₁⟩
  · intro he
    rw [innermost_append, Option.isSome_or, hf a m₁ e he, Bool.or_true]
  · intro _
    have hinside := h m e' (by rw [hy])
    rwa [hy] at hinside
  · intro he
    cases he

theorem leaving (frame : Frame) (t : Tree) (y : Told α) :
    (MonadMachine.leaving frame t y).FailsInside := by
  intro m e
  simp only [MonadMachine.leaving, Told.leaving]
  rcases hy : y m with ⟨es, a | e' | _, m₁⟩
  · intro he
    cases he
  · intro _
    rw [innermost_append, Option.isSome_or]
    exact Bool.or_true _
  · intro he
    cases he

theorem undoing (undo : Machine → Machine) (h : y.FailsInside) :
    (MonadMachine.undoing undo y).FailsInside := by
  intro m e
  have hinside := h m e
  simp only [MonadMachine.undoing, Told.undoing]
  rcases hy : y m with ⟨es, a | e' | _, m₁⟩ <;> rw [hy] at hinside <;> exact hinside

end Told.FailsInside

namespace Evaluator

variable {ev : Evaluator Told} (hev : ∀ frame node, (ev frame node).FailsInside)

include hev

end Evaluator

/-- What a machine can be after runs of programs that have been read. -/
inductive Machine.Reachable : Machine → Prop
  | start (input : Input) : Reachable (.start input)
  | run {m m' : Machine} {host : Host} {fuel : Nat} {ps : List Program} {o : Outcome Value}
      (h : Reachable m) (hps : ∀ p ∈ ps, ∃ file, (Program.parse file).1 = .ok p)
      (hrun : runPrograms host fuel ps m = (o, m')) : Reachable m'

theorem Law.locating_programs {host : Host} {fuel : Nat} {ps : List Program}
    (hps : ∀ p ∈ ps, ∃ file, (Program.parse file).1 = .ok p) :
    locating.Obeys none (fun _ => True) ((tell host fuel).programs .null ps) := by
  have hrules : locating.Rules (tell host fuel) :=
    locating_modular.rules (fun _ _ _ => trivial) fuel
  refine hrules.programs locating_modular .null fun p hp => ?_
  obtain ⟨file, hfile⟩ := hps p hp
  exact ⟨locating_parsed hfile, trivial⟩

/-- All the functions and classes that there are come from programs that have been read. -/
theorem Machine.Reachable.sound {m : Machine} (h : m.Reachable) :
    m.store.Sound Law.locating.Body := by
  induction h with
  | start input => exact ⟨nofun, nofun⟩
  | run _ hps hrun ih =>
    rw [← (runPrograms_told hrun).2]
    exact (Law.locating_programs hps _ ih).sound

end ScriptKit
