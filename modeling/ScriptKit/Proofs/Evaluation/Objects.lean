import ScriptKit.Proofs.Evaluation.Runs
import ScriptKit.Proofs.Program.Normal
import ScriptKit.Proofs.Text.Basic

namespace ScriptKit

open Evaluator (constructorName argumentsName)

/-- An object of a class with a scope that is locked and binds just the given names, neither the
constructor nor its arguments among them. -/
structure Store.Keeps (s : Store) (object : ObjectId) (ofClass : ClassId) (scope : ScopeId)
    (names : List String) : Prop where
  owned : s.objects[object]? = some ⟨some ofClass, some scope⟩
  locked : s.isLocked scope = true
  names : s.boundNames scope = names
  noConstructor : s.binds scope constructorName = false
  noArguments : s.binds scope argumentsName = false

theorem Store.keeps_of_sealed {s : Store} {o : ObjectId} {c : ClassId} {id : ScopeId}
    {scope : Scope} (ho : s.objects[o]? = some ⟨some c, some id⟩) (hid : s.scopes[id]? = some scope)
    (hs : scope.Sealed) : s.Keeps o c id (Text.sort scope.bindings.names) where
  owned := ho
  locked := by rw [isLocked, scope?, hid, Option.any_some, hs.locked]
  names := by rw [boundNames, scope?, hid, Option.elim_some]
  noConstructor := by
    rw [binds, get?, scope?, hid, Option.bind_some, NameTable.find?_eq_none hs.noConstructor]
    rfl
  noArguments := by
    rw [binds, get?, scope?, hid, Option.bind_some, NameTable.find?_eq_none hs.noArguments]
    rfl

/-- What is made of a scope at the end is sealed, whatever it has bound. -/
theorem Store.sealed_of_lock {s : Store} {id : ScopeId} {scope : Scope}
    (h : s.scopes[id]? = some scope) :
    ∃ scope', (((s.lock id).unbind id constructorName).unbind id argumentsName).scopes[id]? =
      some scope' ∧ scope'.Sealed := by
  refine ⟨⟨(scope.bindings.erase constructorName).erase argumentsName, scope.parent, true⟩, ?_, ?_⟩
  · simp only [unbind, lock, updateScope, Array.getElem?_modify, if_pos, h, Option.map_some]
  · exact ⟨rfl, fun hmem => NameTable.not_mem_names_erase (NameTable.mem_names_erase hmem),
      NameTable.not_mem_names_erase⟩

/-- A sealed object is kept as it is by everything that comes later. -/
theorem Store.Later.keeps {s s' : Store} (h : s.Later s') {o : ObjectId} {c : ClassId}
    {id : ScopeId} {scope : Scope} (howned : s.objects[o]? = some ⟨some c, some id⟩)
    (hscope : s.scopes[id]? = some scope) (hsealed : scope.Sealed) :
    s'.Keeps o c id (Text.sort scope.bindings.names) := by
  obtain ⟨scope', hscope', hkept⟩ := h.scopes _ _ hscope
  obtain ⟨hsealed', hnames⟩ := hkept hsealed
  rw [← hnames]
  exact Store.keeps_of_sealed (h.objects _ _ howned) hscope' hsealed'

namespace Conduct

/-- Nothing is asked of the programs that run. -/
def any : Conduct where
  node _ := True
  value _ := True
  fault _ := True
  value_of_ne _ _ := trivial
  fault_of_ordinary _ _ := trivial
  parts t _ := by
    unfold Evaluator.PartsIn
    cases t.kind <;> simp
    unfold Evaluator.TargetIn
    split <;> trivial
  parsed _ _ _ _ _ _ _ := trivial

theorem any_sound (m : Machine) : any.Sound m :=
  ⟨⟨⟨fun _ _ _ _ _ => trivial, fun _ _ _ _ _ => trivial⟩, fun _ _ _ _ _ => trivial,
    fun _ _ _ _ _ => trivial⟩, fun _ _ => trivial⟩

theorem any_later {α : Type} {Q : α → Prop} {x y : Eval α} {m m' : Machine} {o : Outcome α}
    (h : any.Governs False Q x y) (hy : y m = (o, m')) : m.store.Later m'.store := by
  have hlater := (h m (any_sound m)).later
  rwa [hy] at hlater

end Conduct

theorem Eval.of_bind {α β : Type} {x : Eval α} {f : α → Eval β} {m m' : Machine} {b : β}
    (h : (x >>= f) m = (.value b, m')) :
    ∃ a m₁, x m = (.value a, m₁) ∧ f a m₁ = (.value b, m') := by
  simp only [Bind.bind, Eval.andThen] at h
  rcases hx : x m with ⟨_ | _ | _, m₁⟩ <;> rw [hx] at h
  · exact ⟨_, m₁, rfl, h⟩
  · cases h
  · cases h

theorem Eval.of_allocate {α : Type} {f : Store → α × Store} {m m' : Machine} {a : α}
    (h : Eval.allocate f m = (.value a, m')) : a = (f m.store).1 ∧ m'.store = (f m.store).2 := by
  cases h
  exact ⟨rfl, rfl⟩

/-- The object that is made has been there since before its class body ran, and its scope is sealed
in the end. -/
theorem Evaluator.construct_made {ev : Evaluator Eval} (hev : Conduct.any.Follows False ev ev)
    {id : ClassId} {c : Class} {arguments : List Value} {v : Value} {m m' : Machine}
    (h : ev.construct id c arguments m = (.value v, m')) :
    ∃ o scopeId scope, v = .object o ∧ m'.store.objects[o]? = some ⟨some id, some scopeId⟩ ∧
      m'.store.scopes[scopeId]? = some scope ∧ scope.Sealed := by
  unfold Evaluator.construct at h
  obtain ⟨scopeId, m₁, hscope, h⟩ := Eval.of_bind h
  obtain ⟨object, m₂, hobject, h⟩ := Eval.of_bind h
  obtain ⟨_, m₃, hself, h⟩ := Eval.of_bind h
  obtain ⟨_, m₄, hbody, h⟩ := Eval.of_bind h
  obtain ⟨_, m₅, hconstructor, h⟩ := Eval.of_bind h
  obtain ⟨hscopeId, hstore₁⟩ := Eval.of_allocate hscope
  obtain ⟨rfl, hstore₂⟩ := Eval.of_allocate hobject
  obtain ⟨rfl, hstore⟩ := Eval.of_allocate h
  have howned : m₂.store.objects[m₁.store.objects.size]? = some ⟨some id, some scopeId⟩ := by
    rw [hstore₂, Store.newObject, Array.getElem?_push_size]
  have hopen : ∃ scope, m₂.store.scopes[scopeId]? = some scope := by
    rw [hstore₂, Store.newObject, hstore₁, Store.newScope, hscopeId, Store.newScope]
    exact ⟨_, Array.getElem?_push_size⟩
  -- neither the class body nor the constructor can take the object away
  have hself : m₂.store.Later m₃.store := Conduct.any_later (.declare _ _ trivial) hself
  have hbody : m₃.store.Later m₄.store := Conduct.any_later (hev.block _ fun _ _ => trivial) hbody
  have hconstructor : m₄.store.Later m₅.store :=
    Conduct.any_later (hev.callConstructor c (fun _ _ => trivial) _) hconstructor
  have hlater : m₂.store.Later m₅.store := (hself.trans hbody).trans hconstructor
  obtain ⟨before, hbefore⟩ := hopen
  obtain ⟨scope, hscope₅, -⟩ := hlater.scopes _ _ hbefore
  obtain ⟨scope', hscope', hsealed⟩ := Store.sealed_of_lock hscope₅
  rw [hstore]
  exact ⟨_, _, scope', rfl, hlater.objects _ _ howned, hscope', hsealed⟩

/-- Of two runs of the same programs, the store of the one that stops earlier becomes that of the
other. -/
theorem calls_later {early late : Moment → Bool}
    (hstop : ∀ moment, late moment = true → early moment = true) (host : Host) (fuel : Nat)
    (calls : List (List Program)) (start : Machine) :
    ((evaluateUpTo early host fuel).calls calls start).2.store.Later
      ((evaluateUpTo late host fuel).calls calls start).2.store := by
  have hfollows : Conduct.any.Follows True (evaluateUpTo early host fuel)
      (evaluateUpTo late host fuel) := by
    refine Conduct.follows_evaluateUpTo (fun moment _ => ?_) host fuel
    -- at a moment where the one stops and the other does not, the run is cut short
    cases hearly : early moment with
    | true => exact Or.inr ⟨trivial, rfl⟩
    | false =>
      refine Or.inl ?_
      cases hlate : late moment with
      | true => rw [← hearly, hstop moment hlate]
      | false => rfl
  have hcalls : Conduct.any.Governs True _ ((evaluateUpTo early host fuel).calls calls)
      ((evaluateUpTo late host fuel).calls calls) :=
    hfollows.calls fun _ _ _ _ _ _ _ _ => trivial
  obtain ⟨-, -, -, heq | ⟨-, -, hlater⟩⟩ := hcalls start (Conduct.any_sound start)
  · rw [heq]
    exact .refl _
  · exact hlater

/-- From the moment on at which an object has been made, in whatever run, at every later moment of
the run or of other programs after it, and when all of them have ended, the scope of the object is
locked, binds the same names, and neither the constructor nor its arguments are among them. -/
theorem objects_stay_sealed {early late : Moment → Bool}
    (hstop : ∀ moment, late moment = true → early moment = true) {host : Host} {fuel depth : Nat}
    {calls : List (List Program)} {start before made : Machine} {id : ClassId} {c : Class}
    {arguments : List Value} {v : Value}
    (hmade : (evaluateUpTo early host depth).construct id c arguments before = (.value v, made))
    (hrun : ((evaluateUpTo early host fuel).calls calls start).2 = made) :
    ∃ o scope names, v = .object o ∧ made.store.Keeps o id scope names ∧
      ((evaluateUpTo late host fuel).calls calls start).2.store.Keeps o id scope names ∧
      ((evaluate host fuel).calls calls start).2.store.Keeps o id scope names := by
  have hsame : Conduct.any.Follows False (evaluateUpTo early host depth)
      (evaluateUpTo early host depth) :=
    Conduct.follows_evaluateUpTo (fun _ _ => Or.inl rfl) host depth
  obtain ⟨o, scopeId, scope, rfl, howned, hscope, hsealed⟩ := Evaluator.construct_made hsame hmade
  have hlater : made.store.Later ((evaluateUpTo late host fuel).calls calls start).2.store :=
    hrun ▸ calls_later hstop host fuel calls start
  -- the run itself is the one that is never stopped
  have hend : made.store.Later ((evaluate host fuel).calls calls start).2.store := by
    rw [← evaluateUpTo_never host fuel, ← hrun]
    exact calls_later (fun _ h => absurd h Bool.false_ne_true) host fuel calls start
  exact ⟨o, scopeId, Text.sort scope.bindings.names, rfl,
    Store.keeps_of_sealed howned hscope hsealed, hlater.keeps howned hscope hsealed,
    hend.keeps howned hscope hsealed⟩

/-- A class with a member that its constructor sets, an object of it, and two assignments to members
of the object; the second one would add a member, and fails. -/
def memberFile : SourceFile where
  content := "class A\x7blet n;func constructor(x)\x7bself.n=x;\x7d;\x7d;\n" ++
    "let o=A(true);\no.n=false;\no.m=o;"
  name := "members"
  directory := ""
  path := ""
  virtual := true

def memberClass : Tree :=
  let name (text : String) : Tree := .leaf .identifier text 1
  .node .classLiteral "A" false 1 [.branch .block 1 [
    .branch .declaration 1 [name "n"],
    .branch .functionDefinition 1 [.node .function "constructor" false 1 [
      .branch .argumentList 1 [name "x"],
      .branch .block 1 [
        .branch .assign 1 [.branch .member 1 [name "self", name "n"], name "x"]]]]]]

def memberProgram : Program where
  file := memberFile
  executable := true
  tree :=
    let name (text : String) (line : Nat) : Tree := .leaf .identifier text line
    .branch .program 1 [.branch .block 1 [
      .branch .classDefinition 1 [memberClass],
      .branch .initialisation 2 [name "o" 2, .branch .call 2 [name "A" 2,
        .branch .expressionList 2 [.leaf .boolean "true" 2]]],
      .branch .assign 3 [.branch .member 3 [name "o" 3, name "n" 3], .leaf .boolean "false" 3],
      .branch .assign 4 [.branch .member 4 [name "o" 4, name "m" 4], name "o" 4]]]
  diagnostic := none

theorem parse_memberFile : (Program.parse memberFile).1 = .ok memberProgram := by
  obtain ⟨hscan, hexecutable, htree, hdiagnostic⟩ :
      (Token.scan memberFile.content).failure = none ∧
        (Grammar.readProgram (Token.scan memberFile.content).tokens.toArray).executable = true ∧
        (Grammar.readProgram (Token.scan memberFile.content).tokens.toArray).root.meaning =
          memberProgram.tree ∧
        (Grammar.readProgram (Token.scan memberFile.content).tokens.toArray).diagnostic = none := by
    decide +kernel
  rw [Program.parse_plain hscan, hexecutable, htree, hdiagnostic]
  rfl

/-- Stops after a node of one of the kinds, each given with a line. -/
def afterNode (kinds : List (Tree.Kind × Nat)) : Moment → Bool
  | .done _ (some t) _ _ => kinds.contains (t.kind, t.line)
  | _ => false

/-- The object is looked at after the call that makes it, after the member that is there has been
written, and after the program has failed to write the other. -/
theorem objects_stay_sealed_members :
    (Program.parse memberFile).1 = .ok memberProgram ∧ ∃ scope,
      ((evaluateUpTo (afterNode [(.call, 2), (.assign, 3)]) {} 9).calls [[memberProgram]]
        (.start [])).2.store.Keeps 0 0 scope ["n", "self", "x"] ∧
      ((evaluateUpTo (afterNode [(.assign, 3)]) {} 9).calls [[memberProgram]]
        (.start [])).2.store.Keeps 0 0 scope ["n", "self", "x"] ∧
      ((evaluate {} 9).calls [[memberProgram]]
        (.start [])).2.store.Keeps 0 0 scope ["n", "self", "x"] := by
  have hmade : (evaluateUpTo (afterNode [(.call, 2), (.assign, 3)]) {} 5).construct 0
      (Evaluator.classOf ⟨memberFile, Machine.rootScope⟩ memberClass) [.boolean true]
      ((evaluateUpTo (afterNode [(.boolean, 2)]) {} 9).calls [[memberProgram]] (.start [])).2 =
      (.value (.object 0), ((evaluateUpTo (afterNode [(.call, 2), (.assign, 3)]) {} 9).calls
        [[memberProgram]] (.start [])).2) := by rfl
  have hstop : ∀ moment, afterNode [(.assign, 3)] moment = true →
      afterNode [(.call, 2), (.assign, 3)] moment = true := by
    rintro (_ | ⟨_, _ | t, _, _⟩) h
    · cases h
    · cases h
    · simp only [afterNode, List.contains_cons, Bool.or_eq_true] at h ⊢
      exact Or.inr h
  obtain ⟨o, scope, names, ho, hmade, hlate, hend⟩ := objects_stay_sealed hstop hmade rfl
  cases ho
  -- its scope is the one made after that of the program
  have hscope : some (⟨some 0, some 1⟩ : Object) = some ⟨some 0, some scope⟩ := hmade.owned
  obtain rfl : 1 = scope := Option.some.inj (Object.mk.inj (Option.some.inj hscope)).2
  have hscope : (((evaluateUpTo (afterNode [(.call, 2), (.assign, 3)]) {} 9).calls
      [[memberProgram]] (.start [])).2.store.scope? 1).map (·.bindings.names) =
      some ["self", "n", "x"] := by rfl
  obtain ⟨bound, hbound, hbindings⟩ := Option.map_eq_some_iff.mp hscope
  have hnames := hmade.names
  rw [Store.boundNames, hbound, Option.elim_some, hbindings] at hnames
  have hsorted : Text.sort ["self", "n", "x"] = ["n", "self", "x"] := by
    refine Text.eq_of_pairwise_lt (Text.pairwise_sort (by decide)) (by decide) fun n => ?_
    rw [(Text.sort_perm _).mem_iff]
    simp [or_left_comm]
  rw [hsorted] at hnames
  subst hnames
  exact ⟨parse_memberFile, 1, hmade, hlate, hend⟩

end ScriptKit
