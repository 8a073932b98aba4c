import ScriptKit.Proofs.Arena.Sweep

namespace ScriptKit

namespace Tree

def hasKind (t : Tree) (k : Kind) : Bool := t.kind = k

def isKeyword (t : Tree) (word : String) : Bool := t.hasKind .keyword && t.text = word

def isOperand (t : Tree) : Bool := t.kind.isOperand

def isOperatorChain (ts : List Tree) : Bool :=
  5 ≤ ts.length && ts.length % 2 = 1 &&
    ts.zipIdx.all fun (t, i) => t.hasKind .operator = (i % 2 = 1)

/-- The structuring step, on a tree. -/
def structureStep : Step := fun t =>
  match t with
  | .node kind text evaluated line children =>
    match kind, children with
    | .number, _ => if evaluated then ([t], false) else ([.node kind text true line children], true)
    | .comma, _ | .semicolon, _ => ([], true)
    | .expression, [only] => ([only], true)
    | .expression, ts =>
      match ts with
      | [l, inner, r] =>
        if l.hasKind .leftParen && r.hasKind .rightParen then ([inner], true) else ([t], false)
      | _ =>
        if isOperatorChain ts then
          ([.node kind text evaluated line
            (.node .expression "" false ((ts.head?.map Tree.line).getD 0) (ts.take 3) ::
              ts.drop 3)], true)
        else ([t], false)
    | _, _ => ([t], false)

/-- The node that a chain of index reads is applied to, and the indices in source order. -/
def indexChain : Tree → List Tree → Tree × List Tree
  | .node .index _ _ _ (base :: index :: _), indices => indexChain base (index :: indices)
  | t, indices => (t, indices)

/-- A node without a text of its own token takes the place of another. -/
def regroup (line : Nat) (kind : Kind) (text : String) (children : List Tree) : List Tree × Bool :=
  ([.node kind text false line children], true)

def groupAssignment (t : Tree) (target value : Tree) : List Tree × Bool :=
  match target.kind with
  | .identifier | .member => regroup t.line .assign "" [target, value]
  | .index =>
    regroup t.line .indexWrite ""
      [(target.indexChain []).1, .node .expressionList "" false target.line (target.indexChain []).2,
        value]
  | _ => ([t], false)

def groupExpression (t : Tree) : List Tree × Bool :=
  match t.children with
  | [l, mid, r] =>
    if mid.hasKind .operator && l.isOperand && r.isOperand then
      regroup t.line .binary mid.text [l, r]
    else if mid.hasKind .comparator && l.isOperand && r.isOperand then
      regroup t.line .comparison mid.text [l, r]
    else if mid.hasKind .assignment && r.isOperand then groupAssignment t l r
    else if mid.hasKind .dot && l.isOperand && r.hasKind .identifier then
      regroup t.line .member "" [l, r]
    else ([t], false)
  | [target, l, inner, r] =>
    if target.isOperand && (l.hasKind .leftParen && inner.hasKind .expressionList &&
        r.hasKind .rightParen) then
      regroup t.line .call "" [target, inner]
    else if target.isOperand && l.hasKind .leftBracket && r.hasKind .rightBracket &&
        inner.isOperand then
      regroup t.line .index "" [target, inner]
    else ([t], false)
  | [word, name, l, body, r] =>
    if word.isKeyword "class" && (name.hasKind .identifier && l.hasKind .leftCurly &&
        body.hasKind .block && r.hasKind .rightCurly) then
      regroup t.line .classLiteral name.text [body]
    else ([t], false)
  | [word, lp, params, rp, lc, body, rc] =>
    if word.isKeyword "func" && (lp.hasKind .leftParen && params.hasKind .argumentList &&
        rp.hasKind .rightParen && lc.hasKind .leftCurly && body.hasKind .block &&
        rc.hasKind .rightCurly) then
      regroup t.line .function "" [params, body]
    else ([t], false)
  | [word, name, lp, params, rp, lc, body, rc] =>
    if word.isKeyword "func" && name.hasKind .identifier && (lp.hasKind .leftParen &&
        params.hasKind .argumentList && rp.hasKind .rightParen && lc.hasKind .leftCurly &&
        body.hasKind .block && rc.hasKind .rightCurly) then
      regroup t.line .function name.text [params, body]
    else ([t], false)
  | _ => ([t], false)

def isConditional (lp test rp lc body rc : Tree) : Bool :=
  (lp.hasKind .leftParen && rp.hasKind .rightParen && lc.hasKind .leftCurly && body.hasKind .block &&
    rc.hasKind .rightCurly) && test.isOperand

def groupStatement (t : Tree) : List Tree × Bool :=
  match t.children with
  | [] => ([], true)
  | [word, name, eq, value] =>
    if word.isKeyword "let" && (name.hasKind .identifier && eq.hasKind .assignment) &&
        value.isOperand then
      regroup t.line .initialisation "" [name, value]
    else ([t], false)
  | [word, name] =>
    if word.isKeyword "let" && name.hasKind .identifier then regroup t.line .declaration "" [name]
    else ([t], false)
  | word :: lp :: test :: rp :: lc :: body :: rc :: rest =>
    if word.isKeyword "if" then
      if !isConditional lp test rp lc body rc then ([t], false)
      else match rest with
        | [] => regroup t.line .ifStatement "" [test, body]
        | [other, next] =>
          if other.isKeyword "else" && next.hasKind .ifStatement then
            regroup t.line .ifStatement "" [test, body, next]
          else ([t], false)
        | [other, l, block, r] =>
          if other.isKeyword "else" && (l.hasKind .leftCurly && block.hasKind .block &&
              r.hasKind .rightCurly) then
            regroup t.line .ifStatement "" [test, body, block]
          else ([t], false)
        | _ => ([t], false)
    else if rest.isEmpty && word.isKeyword "while" && isConditional lp test rp lc body rc then
      regroup t.line .whileStatement "" [test, body]
    else ([t], false)
  | [only] =>
    if only.hasKind .function then regroup t.line .functionDefinition "" [only]
    else if only.hasKind .classLiteral then regroup t.line .classDefinition "" [only]
    else if only.isOperand then ([only], true)
    else ([t], false)
  | _ => ([t], false)

/-- The grouping step, on a tree. -/
def groupStep : Step := fun t =>
  match t.kind with
  | .expression => groupExpression t
  | .statement => groupStatement t
  | .array =>
    match t with
    | .node kind text evaluated line [l, list, _] =>
      if l.hasKind .leftBracket && list.hasKind .expressionList then
        ([.node kind text evaluated line [list]], true)
      else ([t], false)
    | _ => ([t], false)
  | _ => ([t], false)

theorem Faithful.keep (t : Tree) : Faithful t ([t], false) := fun _ => rfl

theorem Faithful.change (t : Tree) (ts : List Tree) : Faithful t (ts, true) := by
  intro h
  cases h

theorem structureStep_honest : structureStep.Honest := by
  intro t
  cases t with
  | node kind text evaluated line children =>
    show Faithful _ _
    unfold structureStep
    dsimp only
    split
    · split <;> first | exact .keep _ | exact .change _ _
    · exact .change _ _
    · exact .change _ _
    · exact .change _ _
    · split <;> split <;> first | exact .keep _ | exact .change _ _
    · exact .keep _

theorem groupAssignment_faithful (t target value : Tree) :
    Faithful t (groupAssignment t target value) := by
  unfold groupAssignment
  split <;> first | exact .keep _ | exact .change _ _

theorem groupExpression_faithful (t : Tree) : Faithful t (groupExpression t) := by
  unfold groupExpression
  split <;> repeat' split
  all_goals first | exact .keep _ | exact .change _ _ | exact groupAssignment_faithful _ _ _

theorem groupStatement_faithful (t : Tree) : Faithful t (groupStatement t) := by
  unfold groupStatement
  split <;> repeat' split
  all_goals first | exact .keep _ | exact .change _ _

theorem groupStep_honest : groupStep.Honest := by
  intro t
  show Faithful _ _
  unfold groupStep
  split
  · exact groupExpression_faithful t
  · exact groupStatement_faithful t
  · repeat' split
    all_goals first | exact .keep _ | exact .change _ _
  · exact .keep _

end Tree

namespace Arena

open Named

variable {a : Arena} {p : Nat} {pre post : List Nat} {t u : Named} {us : List Named}

theorem Follows.keep (h : Spot a p pre [t] post) :
    Follows a p pre post t (a, false) ([t.tree], false) :=
  ⟨[t], h.keep, rfl⟩

theorem Follows.ite {c : Bool} {r r' : Arena × Bool} {s s' : List Tree × Bool}
    (h : Follows a p pre post t r s) (h' : Follows a p pre post t r' s') :
    Follows a p pre post t (if c then r else r') (if c then s else s') := by
  cases c with
  | true => exact h
  | false => exact h'

/-- Some of the children of a tree can be moved below another node. -/
theorem Spot.movable (h : Spot a p pre [t] post) (hus : us.Sublist t.children) :
    Movable a t.ids us := by
  have hnodup := h.nodup_ids
  rw [ids_eq] at hnodup
  obtain ⟨hkey, hnodup⟩ := List.nodup_cons.mp hnodup
  have hsub := idsAll_sublist hus
  refine ⟨hsub.nodup hnodup, ?_, ?_⟩
  · intro x hx
    rw [ids_eq]
    exact List.mem_cons_of_mem _ (hsub.subset hx)
  · intro v hv
    refine ⟨some t.key, standAll_iff.mp h.stands.stand_children v (hus.subset hv), ?_⟩
    rintro x ⟨⟩
    exact ⟨fun hm => hkey (hsub.subset hm), t.key_mem_ids⟩

theorem Spot.key_not_mem (h : Spot a p pre [t] post) (hus : us.Sublist t.children) :
    t.key ∉ idsAll us :=
  fun hm => h.stands.key_not_below ((idsAll_sublist hus).subset hm)

theorem Spot.key_lt (h : Spot a p pre [t] post) : t.key < a.size :=
  h.stands.lt_size t.key t.key_mem_ids

theorem Follows.regroup (h : Spot a p pre [t] post) (hus : us.Sublist t.children)
    (kind : Tree.Kind) (text : String) :
    Follows a p pre post t (a.regroup t.key kind text (us.map key))
      (Tree.regroup t.tree.line kind text (us.map Named.tree)) := by
  refine ⟨_, h.hole.regroup h.key_lt (h.movable hus) (h.key_not_mem hus) kind text, ?_⟩
  rw [h.stands.line_key, line_tree]
  simp [Tree.regroup, Arena.regroup]

/-- A child takes the place of its parent. -/
theorem Follows.collapse (h : Spot a p pre [t] post) (hu : u ∈ t.children) :
    Follows a p pre post t (a.replace t.key u.key, true) ([u.tree], true) := by
  have hsub : [u].Sublist t.children := List.singleton_sublist.mpr hu
  have hmovable := h.movable hsub
  have hstands := standAll_iff.mp h.stands.stand_children u hu
  refine ⟨[u], h.hole.fill hstands (Or.inr rfl) ?_ ?_ ?_, rfl⟩
  · intro x hx
    exact hmovable.sub x (by simpa [idsAll] using hx)
  · simpa [idsAll] using h.key_not_mem hsub
  · simpa [idsAll] using hmovable.nodup

theorem Follows.remove (h : Spot a p pre [t] post) :
    Follows a p pre post t (a.detach t.key, true) ([], true) :=
  ⟨[], h.hole.remove, rfl⟩

/-- A tree keeps its first node and gets some of its children only. -/
theorem Follows.setChildren {id line : Nat} {kind : Tree.Kind} {text : String} {evaluated : Bool}
    {ts : List Named} (h : Spot a p pre [.node id kind text evaluated line ts] post)
    (hus : us.Sublist ts) :
    Follows a p pre post (.node id kind text evaluated line ts)
      (a.setChildren id (us.map key), true)
      ([.node kind text evaluated line (us.map Named.tree)], true) := by
  have hstands := h.stands
  rw [Stands] at hstands
  exact ⟨_, h.hole.setChildren hstands.1 (h.movable hus) (h.key_not_mem hus), by simp⟩

theorem Follows.evaluate {id line : Nat} {kind : Tree.Kind} {text : String} {evaluated : Bool}
    {ts : List Named} (h : Spot a p pre [.node id kind text evaluated line ts] post) :
    Follows a p pre post (.node id kind text evaluated line ts)
      (a.update id fun n => { n with evaluated := true }, true)
      ([.node kind text true line (ts.map Named.tree)], true) := by
  have hhole := h.hole
  have hne : p ≠ id := hhole.ne (by simp [Named.ids])
  have hstands := h.stands
  rw [Stands] at hstands
  -- the update changes one entry of one node, so the rest of the arena is as it was
  have hsame : ∀ x, x ≠ id → (a.update id fun n => { n with evaluated := true }).node? x =
      a.node? x := by
    intro x hx
    rw [node?_update, if_neg hx]
  have hsize : (a.update id fun n => { n with evaluated := true }).size = a.size := by
    simp [Arena.size, update]
  refine ⟨[.node id kind text true line ts], ?_, by simp⟩
  refine Edit.of_node h.lt (Nat.le_of_eq hsize.symm) ⟨?_, trivial⟩ ?_ hhole.above hhole.beside ?_ ?_ ?_
  · rw [Stands]
    refine ⟨?_, hstands.2.transfer fun x hx => hsame x ?_⟩
    · rw [node?_update, if_pos rfl, hstands.1]
      rfl
    · rintro rfl
      exact h.stands.key_not_below hx
  · exact h.nodup
  · intro x hx
    rw [idsAll, idsAll, List.append_nil] at hx
    exact Or.inl hx
  · rw [hsame p hne]
    exact h.keep.parent
  · intro x _ _ hxo
    refine hsame x ?_
    rintro rfl
    exact hxo hhole.mem

theorem isOperatorChain_eq {q : Option Nat} {ts : List Named} (h : StandAll a q ts) :
    a.isOperatorChain (ts.map key) = Tree.isOperatorChain (ts.map Named.tree) := by
  have hkinds : ∀ n, ((ts.map key).zipIdx n).all (fun x =>
      decide ((a.hasKind x.1 .operator = true) = (x.2 % 2 = 1))) =
      ((ts.map Named.tree).zipIdx n).all fun x =>
        decide ((x.1.hasKind .operator = true) = (x.2 % 2 = 1)) := by
    induction ts with
    | nil => intro n; rfl
    | cons t ts ih =>
      intro n
      simp only [List.map_cons, List.zipIdx_cons, List.all_cons, ih h.2, h.1.hasKind_key,
        Tree.hasKind, kind_tree]
  simp only [isOperatorChain, Tree.isOperatorChain, List.length_map, hkinds]

section

variable {id line : Nat} {kind : Tree.Kind} {text : String} {evaluated : Bool} {ts : List Named}

/-- The first three children of a node are put below a new first child. -/
theorem Follows.associateLeft (h : Spot a p pre [.node id kind text evaluated line (u :: ts)] post) :
    Follows a p pre post (.node id kind text evaluated line (u :: ts))
      (a.associateLeft id ((u :: ts).map key), true)
      ([.node kind text evaluated line
        (.node .expression "" false u.line (((u :: ts).map Named.tree).take 3) ::
          ((u :: ts).map Named.tree).drop 3)], true) := by
  let gathered := a.gather .expression "" u.line (((u :: ts).take 3).map key)
  let head : Named := .node a.size .expression "" false u.line ((u :: ts).take 3)
  have htake : ((u :: ts).take 3).Sublist (u :: ts) := List.take_sublist _ _
  have hmovable := h.movable htake
  have hall : Movable a (Named.ids (.node id kind text evaluated line (u :: ts)))
      ([] ++ (u :: ts).take 3 ++ (u :: ts).drop 3) := by
    rw [List.nil_append, List.take_append_drop]
    exact h.movable (List.Sublist.refl _)
  have hmovable' : Movable gathered (a.size :: Named.ids (.node id kind text evaluated line (u :: ts)))
      (head :: (u :: ts).drop 3) :=
    hall.gathered h.stands.lt_size .expression "" u.line
  have hid : id ∉ idsAll (u :: ts) := h.key_not_mem (List.Sublist.refl _)
  have hidnew : id ∉ idsAll (head :: (u :: ts).drop 3) := by
    rw [← List.nil_append (head :: _), mem_idsAll_gathered, List.nil_append,
      List.take_append_drop, not_or]
    exact ⟨Nat.ne_of_lt h.key_lt, hid⟩
  -- the node itself keeps everything but its children
  have hkeep := hmovable.gather .expression "" u.line |>.2.2.2 id h.key_lt
    (Movable.not_mem_keys (h.key_not_mem htake))
  obtain ⟨n, hn, rfl, rfl, rfl, rfl⟩ : ∃ n, gathered.node? id = some n ∧
      n.kind = kind ∧ n.text = text ∧ n.evaluated = evaluated ∧ n.line = line := by
    have hstands := h.stands
    rw [Stands] at hstands
    rw [bare?, bare?, hstands.1, Option.map_some] at hkeep
    obtain ⟨n, hn, he⟩ := Option.map_eq_some_iff.mp hkeep
    simp only [Node.mk.injEq] at he
    exact ⟨n, hn, he.1, he.2.2.2.1, he.2.2.2.2.1, he.2.2.2.2.2⟩
  have hhole := h.hole.gather h.key_lt hmovable (h.key_not_mem htake) .expression "" u.line
  have hedit := h.hole.edit_of_gather hmovable (hhole.setChildren hn hmovable' hidnew)
  have hline : a.line u.key = u.line := h.stands.stand_children.1.line_key
  have hunfold : a.associateLeft id ((u :: ts).map key) =
      gathered.setChildren id ((head :: (u :: ts).drop 3).map key) := by
    simp only [gathered, Arena.associateLeft, Arena.gather, List.map_cons, List.head?_cons,
      Option.map_some, Option.getD_some, hline, List.map_take, List.map_drop]
    rfl
  refine ⟨_, by rw [hunfold]; exact hedit, ?_⟩
  simp [head, List.map_take, List.map_drop]

/-- The structuring step on an arena follows the one on trees. -/
theorem structureStep_follows : Simulates structureStep Tree.structureStep := by
  intro a p pre post t h
  have hkeep := Follows.keep h
  cases t with
  | node id kind text evaluated line ts =>
    have hstand := h.stands.stand_children
    have hstands := h.stands
    rw [Stands] at hstands
    simp only [tree_node] at hkeep
    unfold structureStep Tree.structureStep
    simp only [Named.key, tree_node, hstands.1]
    by_cases hnumber : kind = .number
    · subst hnumber
      cases evaluated with
      | true => exact hkeep
      | false => exact .evaluate h
    by_cases hpunct : kind = .comma ∨ kind = .semicolon
    · rcases hpunct with rfl | rfl <;> exact .remove h
    obtain ⟨hcomma, hsemicolon⟩ := not_or.mp hpunct
    by_cases hexpr : kind = .expression
    swap
    · cases kind <;> first | contradiction | exact hkeep
    subst hexpr
    -- what an expression becomes goes by how many children it has
    rcases ts with _ | ⟨u, _ | ⟨v, _ | ⟨w, _ | ⟨x, ts⟩⟩⟩⟩
    · exact hkeep
    · exact .collapse h List.mem_cons_self
    · exact hkeep
    · obtain ⟨hu, -, hw, -⟩ := hstand
      simp only [List.map_cons, List.map_nil, hu.hasKind_key, hw.hasKind_key, Tree.hasKind,
        kind_tree]
      exact .ite (.collapse h (by simp [Named.children])) hkeep
    · have hchain := isOperatorChain_eq hstand
      simp only [Named.children, List.map_cons] at hchain
      simp only [List.map_cons, hchain]
      refine .ite ?_ hkeep
      have hfollow := Follows.associateLeft h
      simp only [List.map_cons, List.head?_cons, Option.map_some, Option.getD_some, line_tree]
        at hfollow ⊢
      exact hfollow

end

/-- The chain of index reads with the ids of its nodes. -/
def Named.indexChain : Named → List Named → Named × List Named
  | .node _ .index _ _ _ (base :: index :: _), indices => indexChain base (index :: indices)
  | t, indices => (t, indices)

theorem tree_indexChain (t : Named) (us : List Named) :
    t.tree.indexChain (us.map Named.tree) =
      ((t.indexChain us).1.tree, (t.indexChain us).2.map Named.tree) := by
  induction t, us using Named.indexChain.induct with
  | case1 id text evaluated line base index ts us ih =>
    rw [Named.indexChain, ← ih]
    simp only [tree_node, List.map_cons, Tree.indexChain]
  | case2 t us hno =>
    rw [Named.indexChain.eq_2 t us hno]
    refine Tree.indexChain.eq_2 _ _ ?_
    intro text evaluated line base index ts he
    cases t with
    | node id kind text' evaluated' line' cs =>
      rw [tree_node] at he
      simp only [Tree.node.injEq] at he
      obtain ⟨rfl, -, -, -, hcs⟩ := he
      rcases cs with _ | ⟨c, _ | ⟨d, cs⟩⟩
      · simp at hcs
      · simp at hcs
      · exact hno id text' evaluated' line' c d cs rfl

theorem indexChain_key (t : Named) (us : List Named) : ∀ {q : Option Nat} {fuel : Nat},
    Stands a q t → t.tree.depth ≤ fuel →
    a.indexChain fuel t.key (us.map key) = ((t.indexChain us).1.key, (t.indexChain us).2.map key) := by
  -- each round takes one index read off the base
  induction t, us using Named.indexChain.induct with
  | case1 id text evaluated line base index ts us ih =>
    intro q fuel h hd
    have hchildren := h.children_key
    have hstand := h.stand_children
    cases fuel with
    | zero => simp [Tree.depth] at hd
    | succ fuel =>
      have hdepth : base.tree.depth ≤ fuel := by
        simp only [tree_node, List.map_cons, Tree.depth, Tree.depthAll] at hd
        omega
      simp only [Named.children, List.map_cons, Named.key] at hchildren
      rw [Named.indexChain, ← ih hstand.1 hdepth, Arena.indexChain, h.hasKind_key, left?, right?,
        child?, child?, show (Named.node id .index text evaluated line (base :: index :: ts)).key = id
        from rfl, hchildren]
      rfl
  -- the base is no index read, so the chain ends
  | case2 t us hno =>
    intro q fuel h hd
    rw [Named.indexChain.eq_2 t us hno]
    cases fuel with
    | zero => rfl
    | succ fuel =>
      rw [Arena.indexChain, h.hasKind_key, left?, right?, child?, child?, h.children_key]
      cases t with
      | node id kind text evaluated line cs =>
        rcases cs with _ | ⟨c, _ | ⟨d, cs⟩⟩
        · simp [Named.children]
        · simp [Named.children]
        · have hkind : kind ≠ .index := by
            rintro rfl
            exact hno id text evaluated line c d cs rfl
          simp [Named.kind, hkind]

/-- The node that a chain of index reads is applied to and its indices are parts of the chain, each
below a node of the chain that is none of them. -/
structure Chained (a : Arena) (t : Named) (us : List Named) (base : Named) (indices : List Named) :
    Prop where
  nodup : (idsAll (base :: indices)).Nodup
  sub : ∀ x ∈ idsAll (base :: indices), x ∈ idsAll (t :: us)
  top : base = t ∨ ∃ y ∈ t.ids, Stands a (some y) base ∧ y ∉ idsAll (base :: indices)
  items : ∀ u ∈ indices, u ∈ us ∨
    ∃ y ∈ t.ids, Stands a (some y) u ∧ y ∉ idsAll (base :: indices)

theorem chained_indexChain (t : Named) (us : List Named) : ∀ {q : Option Nat}, Stands a q t →
    (idsAll (t :: us)).Nodup → Chained a t us (t.indexChain us).1 (t.indexChain us).2 := by
  induction t, us using Named.indexChain.induct with
  | case1 id text evaluated line base index ts us ih =>
    intro q h hnodup
    obtain ⟨hbase, hindex, -⟩ := h.stand_children
    have hids : idsAll (.node id .index text evaluated line (base :: index :: ts) :: us) =
        id :: (base.ids ++ (index.ids ++ idsAll ts) ++ idsAll us) := rfl
    rw [hids] at hnodup
    obtain ⟨hid, hnodup⟩ := List.nodup_cons.mp hnodup
    -- the ids of the parts are among those of the node and of what has been collected
    have hinner : (idsAll (base :: index :: us)).Nodup := by
      refine List.Sublist.nodup ?_ hnodup
      rw [idsAll, idsAll, List.append_assoc]
      refine (List.Sublist.refl _).append ?_
      rw [List.append_assoc]
      exact (List.Sublist.refl _).append (List.sublist_append_right _ _)
    have hchained := ih hbase hinner
    have hsub : ∀ x ∈ idsAll (base :: index :: us),
        x ∈ base.ids ++ (index.ids ++ idsAll ts) ++ idsAll us := by
      intro x hx
      simp only [idsAll, List.mem_append] at hx ⊢
      tauto
    have hidout : id ∉ idsAll ((base.indexChain (index :: us)).1 ::
        (base.indexChain (index :: us)).2) :=
      fun hm => hid (hsub id (hchained.sub id hm))
    have hbelow : ∀ y ∈ base.ids, y ∈ Named.ids (.node id .index text evaluated line
        (base :: index :: ts)) := by
      intro y hy
      exact List.mem_cons_of_mem _ (List.mem_append_left _ hy)
    rw [Named.indexChain]
    refine ⟨hchained.nodup, ?_, ?_, ?_⟩
    · intro x hx
      rw [hids]
      exact List.mem_cons_of_mem _ (hsub x (hchained.sub x hx))
    -- the base is still where it was, unless the chain goes on below it
    · right
      rcases hchained.top with he | ⟨y, hy, hstands, hout⟩
      · refine ⟨id, List.mem_cons_self, ?_, hidout⟩
        rw [he]
        exact hbase
      · exact ⟨y, hbelow y hy, hstands, hout⟩
    -- an index that is not one of those collected before is the one of this node
    · intro u hu
      rcases hchained.items u hu with hm | ⟨y, hy, hstands, hout⟩
      · rcases List.mem_cons.mp hm with rfl | hm
        · exact Or.inr ⟨id, List.mem_cons_self, hindex, hidout⟩
        · exact Or.inl hm
      · exact Or.inr ⟨y, hbelow y hy, hstands, hout⟩
  | case2 t us hno =>
    intro q h hnodup
    rw [Named.indexChain.eq_2 t us hno]
    exact ⟨hnodup, fun x hx => hx, Or.inl rfl, fun u hu => Or.inl hu⟩

theorem line_of_bare? {b : Arena} {x : Nat} (h : b.bare? x = a.bare? x) : b.line x = a.line x := by
  have hline : ∀ c : Arena, c.line x = (c.bare? x).elim 0 (·.line) := by
    intro c
    rw [line, bare?]
    cases c.node? x <;> rfl
  rw [hline, hline, h]

section IndexWrite

variable {id line : Nat} {kind : Tree.Kind} {text : String} {evaluated : Bool}
  {target mid value : Named} {base : Named} {indices : List Named}

theorem Chained.sub_children (hc : Chained a target [] base indices) :
    ∀ x ∈ idsAll ([base] ++ indices ++ [value]), x ∈ idsAll [target, mid, value] := by
  intro x hx
  rw [idsAll_append] at hx
  rcases List.mem_append.mp hx with hx | hx
  · have hm : x ∈ target.ids := by simpa [idsAll] using hc.sub x hx
    exact List.mem_append_left _ hm
  · exact List.mem_append_right _ (List.mem_append_right _ hx)

/-- The base of an index chain, its indices and the value can be moved away from the node that
assigns the value. -/
theorem Chained.movable (hc : Chained a target [] base indices)
    (h : Spot a p pre [.node id kind text evaluated line [target, mid, value]] post) :
    Movable a (Named.ids (.node id kind text evaluated line [target, mid, value]))
      ([base] ++ indices ++ [value]) := by
  obtain ⟨htarget, -, hvalue, -⟩ := h.stands.stand_children
  have hnodup : (target.ids ++ (mid.ids ++ value.ids)).Nodup := by
    simpa [idsAll] using (List.nodup_cons.mp h.nodup_ids).2
  obtain ⟨-, hrest, hdisjoint⟩ := List.nodup_append.mp hnodup
  have hvapart : ∀ x ∈ target.ids, x ∉ value.ids := by
    intro x hx hv
    exact hdisjoint x hx x (List.mem_append_right _ hv) rfl
  have hsub : ∀ x ∈ idsAll (base :: indices), x ∈ target.ids := by
    intro x hx
    simpa [idsAll] using hc.sub x hx
  have hall : idsAll ([base] ++ indices ++ [value]) = idsAll (base :: indices) ++ value.ids := by
    simp [idsAll_append, idsAll]
  have hid : id ∉ idsAll ([base] ++ indices ++ [value]) ∧
      id ∈ Named.ids (.node id kind text evaluated line [target, mid, value]) :=
    ⟨fun hm => h.stands.key_not_below (hc.sub_children id hm), List.mem_cons_self⟩
  -- a node of the chain that is above one of its parts is itself in none of them
  have hinner : ∀ y ∈ target.ids, y ∉ idsAll (base :: indices) →
      y ∉ idsAll ([base] ++ indices ++ [value]) ∧
        y ∈ Named.ids (.node id kind text evaluated line [target, mid, value]) := by
    intro y hy hout
    rw [hall, List.mem_append, not_or]
    exact ⟨⟨hout, hvapart y hy⟩, List.mem_cons_of_mem _ (List.mem_append_left _ hy)⟩
  refine ⟨?_, fun x hx => List.mem_cons_of_mem _ (hc.sub_children x hx), ?_⟩
  · rw [hall]
    refine List.nodup_append.mpr ⟨hc.nodup, (List.nodup_append.mp hrest).2.1, ?_⟩
    rintro x hx _ hy rfl
    exact hvapart x (hsub x hx) hy
  · intro u hu
    have hcases : u = base ∨ u ∈ indices ∨ u = value := by simpa using hu
    rcases hcases with rfl | hm | rfl
    · rcases hc.top with rfl | ⟨y, hy, hstands, hout⟩
      · exact ⟨some id, htarget, fun x hx => Option.some.inj hx ▸ hid⟩
      · exact ⟨some y, hstands, fun x hx => Option.some.inj hx ▸ hinner y hy hout⟩
    · rcases hc.items u hm with hm | ⟨y, hy, hstands, hout⟩
      · cases hm
      · exact ⟨some y, hstands, fun x hx => Option.some.inj hx ▸ hinner y hy hout⟩
    · exact ⟨some id, hvalue, fun x hx => Option.some.inj hx ▸ hid⟩

/-- A write to an index chain: a list of the indices, and a node above it, the base and the
value. -/
theorem Follows.indexWrite
    (h : Spot a p pre [.node id kind text evaluated line [target, mid, value]] post) :
    Follows a p pre post (.node id kind text evaluated line [target, mid, value])
      ((a.gather .expressionList "" target.line ((target.indexChain []).2.map key)).regroup id
        .indexWrite "" [(target.indexChain []).1.key, a.size, value.key])
      (Tree.regroup line .indexWrite ""
        [(target.indexChain []).1.tree,
          .node .expressionList "" false target.line ((target.indexChain []).2.map Named.tree),
          value.tree]) := by
  have htarget := h.stands.stand_children.1
  have htnodup : (idsAll [target]).Nodup := by
    refine (idsAll_sublist ?_).nodup (List.nodup_cons.mp h.nodup_ids).2
    exact List.singleton_sublist.mpr List.mem_cons_self
  have hchained := chained_indexChain target [] htarget htnodup
  generalize target.indexChain [] = chain at hchained ⊢
  obtain ⟨base, indices⟩ := chain
  dsimp only at hchained ⊢
  -- the indices go under the list that is made for them, and base, list and value under the node
  have hall := hchained.movable h
  have hsub : indices.Sublist ([base] ++ indices ++ [value]) :=
    (List.sublist_append_right _ _).trans (List.sublist_append_left _ _)
  have hmovable := hall.sublist hsub
  let gathered := a.gather .expressionList "" target.line (indices.map key)
  let list : Named := .node a.size .expressionList "" false target.line indices
  have hmovable' : Movable gathered
      (a.size :: Named.ids (.node id kind text evaluated line [target, mid, value]))
      [base, list, value] :=
    hall.gathered h.stands.lt_size .expressionList "" target.line
  have hid : id ∉ idsAll ([base] ++ indices ++ [value]) :=
    fun hm => h.stands.key_not_below (hchained.sub_children id hm)
  have hidindices : id ∉ idsAll indices := fun hm => hid ((idsAll_sublist hsub).subset hm)
  have hidnew : id ∉ idsAll ([base] ++ list :: [value]) := by
    rw [mem_idsAll_gathered, not_or]
    exact ⟨Nat.ne_of_lt h.key_lt, hid⟩
  obtain ⟨hsize, -, -, hbare⟩ := hmovable.gather .expressionList "" target.line
  have hidlt : id < a.size := h.key_lt
  have hhole := h.hole.gather h.key_lt hmovable hidindices .expressionList "" target.line
  have hedit := h.hole.edit_of_gather hmovable
    (hhole.regroup (show id < _ by omega) hmovable' hidnew .indexWrite "")
  refine ⟨_, hedit, ?_⟩
  have hline : gathered.line id = line := by
    rw [line_of_bare? (hbare id hidlt (Movable.not_mem_keys hidindices))]
    exact h.stands.line_key
  simp only [Named.key, List.map_cons, List.map_nil, tree_node, list]
  rw [hline]
  rfl

end IndexWrite

namespace Stands

variable {q : Option Nat}

theorem hasKind_eq (h : Stands a q t) (k : Tree.Kind) : a.hasKind t.key k = t.tree.hasKind k := by
  rw [h.hasKind_key, Tree.hasKind, kind_tree]

theorem isOperand_eq (h : Stands a q t) : a.isOperand t.key = t.tree.isOperand := by
  simp [Arena.isOperand, h.kind?_key, Tree.isOperand]

theorem isKeyword_eq (h : Stands a q t) (word : String) :
    a.isKeyword t.key word = t.tree.isKeyword word := by
  simp [Arena.isKeyword, Tree.isKeyword, h.hasKind_eq, h.text_key]

end Stands

theorem haveKinds_cons (c : Nat) (cs : List Nat) (k : Tree.Kind) (ks : List Tree.Kind) :
    a.haveKinds (c :: cs) (k :: ks) = (a.hasKind c k && a.haveKinds cs ks) := by
  simp only [haveKinds, List.length_cons, Nat.add_right_cancel_iff, List.zip_cons_cons,
    List.all_cons]
  exact Bool.and_left_comm _ _ _

theorem haveKinds_nil : a.haveKinds [] [] = true := rfl

section

variable {id line : Nat} {kind : Tree.Kind} {text : String} {evaluated : Bool} {ts : List Named}

theorem groupAssignment_follows {target mid value : Named}
    (h : Spot a p pre [.node id kind text evaluated line [target, mid, value]] post) :
    Follows a p pre post (.node id kind text evaluated line [target, mid, value])
      (a.groupAssignment id target.key value.key)
      (Tree.groupAssignment (Named.tree (.node id kind text evaluated line [target, mid, value]))
        target.tree value.tree) := by
  have htarget := h.stands.stand_children.1
  have hpair : [target, value].Sublist [target, mid, value] := by simp
  unfold groupAssignment Tree.groupAssignment
  rw [htarget.kind?_key, kind_tree]
  cases hk : target.kind
  case identifier => exact .regroup h hpair .assign ""
  case member => exact .regroup h hpair .assign ""
  case index =>
    have hchain := indexChain_key target [] htarget htarget.holds.depth_le_size
    have htree := tree_indexChain target []
    rw [List.map_nil] at hchain htree
    simp only [hchain, htree, htarget.line_key, line_tree]
    exact .indexWrite h
  all_goals exact .keep h

theorem groupExpression_follows (h : Spot a p pre [.node id kind text evaluated line ts] post) :
    Follows a p pre post (.node id kind text evaluated line ts) (a.groupExpression id)
      (Tree.groupExpression (Named.tree (.node id kind text evaluated line ts))) := by
  have hkeep := Follows.keep h
  have hstand := h.stands.stand_children
  have hchildren : a.children id = ts.map key := h.stands.children_key
  unfold groupExpression Tree.groupExpression
  rw [hchildren, show (Named.tree (.node id kind text evaluated line ts)).children =
    ts.map Named.tree from by rw [tree_node]; rfl]
  -- one case for each number of children
  rcases ts with _ | ⟨c₁, _ | ⟨c₂, _ | ⟨c₃, _ | ⟨c₄, _ | ⟨c₅, _ | ⟨c₆, _ | ⟨c₇,
    _ | ⟨c₈, _ | ⟨c₉, ts⟩⟩⟩⟩⟩⟩⟩⟩⟩
  · exact hkeep
  · exact hkeep
  · exact hkeep
  · obtain ⟨h₁, h₂, h₃, -⟩ := hstand
    simp only [List.map_cons, List.map_nil, h₁.isOperand_eq, h₂.hasKind_eq, h₃.hasKind_eq,
      h₃.isOperand_eq, h₂.text_key, text_tree]
    have hpair : [c₁, c₃].Sublist [c₁, c₂, c₃] := by simp
    exact .ite (.regroup h hpair _ _) (.ite (.regroup h hpair _ _)
      (.ite (groupAssignment_follows h) (.ite (.regroup h hpair _ _) hkeep)))
  · obtain ⟨h₁, h₂, h₃, h₄, -⟩ := hstand
    simp only [List.map_cons, List.map_nil, haveKinds_cons, haveKinds_nil, Bool.and_true,
      Bool.and_assoc, h₁.isOperand_eq, h₂.hasKind_eq, h₃.hasKind_eq, h₃.isOperand_eq, h₄.hasKind_eq]
    have hpair : [c₁, c₃].Sublist [c₁, c₂, c₃, c₄] := by simp
    exact .ite (.regroup h hpair _ _) (.ite (.regroup h hpair _ _) hkeep)
  · obtain ⟨h₁, h₂, h₃, h₄, h₅, -⟩ := hstand
    simp only [List.map_cons, List.map_nil, haveKinds_cons, haveKinds_nil, Bool.and_true,
      Bool.and_assoc, h₁.isKeyword_eq, h₂.hasKind_eq, h₃.hasKind_eq, h₄.hasKind_eq, h₅.hasKind_eq,
      h₂.text_key, text_tree]
    have hbody : [c₄].Sublist [c₁, c₂, c₃, c₄, c₅] := by simp
    exact .ite (.regroup h hbody _ _) hkeep
  · exact hkeep
  · obtain ⟨h₁, h₂, h₃, h₄, h₅, h₆, h₇, -⟩ := hstand
    simp only [List.map_cons, List.map_nil, haveKinds_cons, haveKinds_nil, Bool.and_true,
      Bool.and_assoc, h₁.isKeyword_eq, h₂.hasKind_eq, h₃.hasKind_eq, h₄.hasKind_eq, h₅.hasKind_eq,
      h₆.hasKind_eq, h₇.hasKind_eq]
    have hparts : [c₃, c₆].Sublist [c₁, c₂, c₃, c₄, c₅, c₆, c₇] := by simp
    exact .ite (.regroup h hparts _ _) hkeep
  · obtain ⟨h₁, h₂, h₃, h₄, h₅, h₆, h₇, h₈, -⟩ := hstand
    simp only [List.map_cons, List.map_nil, haveKinds_cons, haveKinds_nil, Bool.and_true,
      Bool.and_assoc, h₁.isKeyword_eq, h₂.hasKind_eq, h₃.hasKind_eq, h₄.hasKind_eq, h₅.hasKind_eq,
      h₆.hasKind_eq, h₇.hasKind_eq, h₈.hasKind_eq, h₂.text_key, text_tree]
    have hparts : [c₄, c₇].Sublist [c₁, c₂, c₃, c₄, c₅, c₆, c₇, c₈] :=
      .cons _ (.cons _ (.cons _ (.cons_cons _ (.cons _ (.cons _ (.cons_cons _ (.cons _ .slnil)))))))
    exact .ite (.regroup h hparts _ _) hkeep
  · exact hkeep

theorem groupStatement_follows (h : Spot a p pre [.node id kind text evaluated line ts] post) :
    Follows a p pre post (.node id kind text evaluated line ts) (a.groupStatement id)
      (Tree.groupStatement (Named.tree (.node id kind text evaluated line ts))) := by
  have hkeep := Follows.keep h
  have hstand := h.stands.stand_children
  have hchildren : a.children id = ts.map key := h.stands.children_key
  unfold groupStatement Tree.groupStatement
  rw [hchildren, show (Named.tree (.node id kind text evaluated line ts)).children =
    ts.map Named.tree from by rw [tree_node]; rfl]
  -- one case for each number of children; the conditions of seven and more may have an else
  rcases ts with _ | ⟨c₁, _ | ⟨c₂, _ | ⟨c₃, _ | ⟨c₄, _ | ⟨c₅, _ | ⟨c₆, _ | ⟨c₇, ts⟩⟩⟩⟩⟩⟩⟩
  · exact .remove h
  · have h₁ := hstand.1
    simp only [List.map_cons, List.map_nil, h₁.hasKind_eq, h₁.isOperand_eq]
    have hone : [c₁].Sublist [c₁] := List.Sublist.refl _
    exact .ite (.regroup h hone _ _) (.ite (.regroup h hone _ _)
      (.ite (.collapse h List.mem_cons_self) hkeep))
  · obtain ⟨h₁, h₂, -⟩ := hstand
    simp only [List.map_cons, List.map_nil, h₁.isKeyword_eq, h₂.hasKind_eq]
    have hone : [c₂].Sublist [c₁, c₂] := by simp
    exact .ite (.regroup h hone _ _) hkeep
  · exact hkeep
  · obtain ⟨h₁, h₂, h₃, h₄, -⟩ := hstand
    simp only [List.map_cons, List.map_nil, haveKinds_cons, haveKinds_nil, Bool.and_true,
      Bool.and_assoc, h₁.isKeyword_eq, h₂.hasKind_eq, h₃.hasKind_eq, h₄.isOperand_eq]
    have hpair : [c₂, c₄].Sublist [c₁, c₂, c₃, c₄] := by simp
    exact .ite (.regroup h hpair _ _) hkeep
  · exact hkeep
  · exact hkeep
  · obtain ⟨h₁, h₂, h₃, h₄, h₅, h₆, h₇, hrest⟩ := hstand
    have hconditional : a.isConditional c₂.key c₃.key c₄.key c₅.key c₆.key c₇.key =
        Tree.isConditional c₂.tree c₃.tree c₄.tree c₅.tree c₆.tree c₇.tree := by
      simp only [isConditional, Tree.isConditional, haveKinds_cons, haveKinds_nil, Bool.and_true,
        Bool.and_assoc, h₂.hasKind_eq, h₃.isOperand_eq, h₄.hasKind_eq, h₅.hasKind_eq, h₆.hasKind_eq,
        h₇.hasKind_eq]
    have hpair : [c₃, c₆].Sublist (c₁ :: c₂ :: c₃ :: c₄ :: c₅ :: c₆ :: c₇ :: ts) := by simp
    simp only [List.map_cons, h₁.isKeyword_eq, hconditional]
    rcases ts with _ | ⟨d₁, _ | ⟨d₂, _ | ⟨d₃, _ | ⟨d₄, _ | ⟨d₅, ts⟩⟩⟩⟩⟩
    · exact .ite (.ite hkeep (.regroup h hpair _ _)) (.ite (.regroup h hpair _ _) hkeep)
    · exact .ite (.ite hkeep hkeep) (.ite (.regroup h hpair _ _) hkeep)
    · obtain ⟨k₁, k₂, -⟩ := hrest
      have hthree : [c₃, c₆, d₂].Sublist [c₁, c₂, c₃, c₄, c₅, c₆, c₇, d₁, d₂] :=
        .cons _ (.cons _ (.cons_cons _ (.cons _ (.cons _ (.cons_cons _
          (.cons _ (.cons _ (.cons_cons _ .slnil))))))))
      simp only [List.map_cons, List.map_nil, k₁.isKeyword_eq, k₂.hasKind_eq]
      exact .ite (.ite hkeep (.ite (.regroup h hthree _ _) hkeep)) (.ite (.regroup h hpair _ _) hkeep)
    · exact .ite (.ite hkeep hkeep) (.ite (.regroup h hpair _ _) hkeep)
    · obtain ⟨k₁, k₂, k₃, k₄, -⟩ := hrest
      have hthree : [c₃, c₆, d₃].Sublist [c₁, c₂, c₃, c₄, c₅, c₆, c₇, d₁, d₂, d₃, d₄] :=
        .cons _ (.cons _ (.cons_cons _ (.cons _ (.cons _ (.cons_cons _ (.cons _
          (.cons _ (.cons _ (.cons_cons _ (.cons _ .slnil))))))))))
      simp only [List.map_cons, List.map_nil, haveKinds_cons, haveKinds_nil, Bool.and_true,
        Bool.and_assoc, k₁.isKeyword_eq, k₂.hasKind_eq, k₃.hasKind_eq, k₄.hasKind_eq]
      exact .ite (.ite hkeep (.ite (.regroup h hthree _ _) hkeep)) (.ite (.regroup h hpair _ _) hkeep)
    · exact .ite (.ite hkeep hkeep) (.ite (.regroup h hpair _ _) hkeep)

/-- The grouping step on an arena follows the one on trees. -/
theorem groupStep_follows : Simulates groupStep Tree.groupStep := by
  intro a p pre post t h
  have hkeep := Follows.keep h
  cases t with
  | node id kind text evaluated line ts =>
    have hkind : a.kind? id = some kind := h.stands.kind?_key
    unfold groupStep Tree.groupStep
    rw [show (Named.node id kind text evaluated line ts).key = id from rfl, hkind]
    rw [kind_tree, show (Named.node id kind text evaluated line ts).kind = kind from rfl]
    cases kind
    case expression => exact groupExpression_follows h
    case statement => exact groupStatement_follows h
    case array =>
      have hstand := h.stands.stand_children
      have hchildren : a.children id = ts.map key := h.stands.children_key
      simp only [tree_node] at hkeep ⊢
      rw [hchildren]
      -- an array keeps what is between its brackets
      rcases ts with _ | ⟨c₁, _ | ⟨c₂, _ | ⟨c₃, _ | ⟨c₄, ts⟩⟩⟩⟩
      · exact hkeep
      · exact hkeep
      · exact hkeep
      · obtain ⟨h₁, h₂, -⟩ := hstand
        have hone : [c₂].Sublist [c₁, c₂, c₃] := by simp
        simp only [List.map_cons, List.map_nil, h₁.hasKind_eq, h₂.hasKind_eq]
        exact .ite (.setChildren h hone) hkeep
      · exact hkeep
    all_goals exact hkeep

end

end Arena

end ScriptKit
