import ObjectGraph.Proofs.Graph.Changes

/-! # The nodes that rows add

What adding a row comes to, without a graph that changes on the way: `nodesOf` lists the nodes of a
row in the order in which they are added, or says why it cannot be unpacked, and `insert_result`
states that adding the row adds these nodes.  Since a node is only numbered after the graph, the
list depends on nothing but the size of the graph. -/

namespace ObjectGraph

namespace Graph

open Plan (NodePlan FieldPlan FieldKind)

/-! ### Results of changes -/

section

variable {α β : Type} {graph : Graph}

/-- The value of a change and the graph that it leads to. -/
def Growing.result (change : Growing α) (graph : Graph) : Except Fault (α × Graph) :=
  (change.on graph).1.map fun a => (a, (change.on graph).2)

theorem on_of_result {change : Growing α} {a : α} {graph' : Graph}
    (h : change.result graph = .ok (a, graph')) : change.on graph = (.ok a, graph') := by
  unfold Growing.result at h
  rcases hon : change.on graph with ⟨_ | b, graph''⟩
  · rw [hon] at h
    cases h
  · rw [hon] at h
    cases h
    rfl

theorem result_lift (x : Except Fault α) :
    Growing.result (liftM x) graph = x.map fun a => (a, graph) := by
  cases x <;> rfl

theorem result_bind (change : Growing α) (next : α → Growing β) :
    (change >>= next).result graph =
      (change.result graph).bind fun p => (next p.1).result p.2 := by
  unfold Growing.result
  rw [on_bind]
  rcases change.on graph with ⟨_ | a, graph'⟩ <;> rfl

theorem runs_iff {change : Growing α} {post : α → Graph → Prop} {fault : Fault → Prop} :
    Runs change graph post fault ↔
      match change.result graph with
      | .ok (a, graph') => post a graph'
      | .error e => fault e := by
  unfold Runs Growing.result
  rcases change.on graph with ⟨e | a, graph'⟩ <;> exact Iff.rfl

end

/-! ### Nodes of a row -/

mutual

/-- The nodes that a row adds to a graph of a size: those of the objects packed into it, and then
its own. -/
def nodesOf : NodePlan → Row → (size : Nat) → Except Fault (List Node)
  | ⟨origin, typeName, fields, many⟩, row, size => do
    let (nodes, row, links) ← nodesOfFields typeName fields row size
    pure (nodes ++ [⟨⟨origin, typeName, fields, many⟩, row, links⟩])

/-- The nodes of the objects that fields pack into a row, the row without them, and the links of
the fields. -/
def nodesOfFields (typeName : String) : List (FieldPlan NodePlan) → Row → (size : Nat) →
    Except Fault (List Node × Row × List Link)
  | [], row, _ => pure ([], row, [])
  | field :: fields, row, size => do
    let (nodes, row, link) ← nodesOfField typeName field row size
    let (nodes', row, links) ← nodesOfFields typeName fields row (size + nodes.length)
    pure (nodes ++ nodes', row, link :: links)

/-- The nodes of the object that a field packs into a row. -/
def nodesOfField (typeName : String) : FieldPlan NodePlan → Row → (size : Nat) →
    Except Fault (List Node × Row × Link)
  | ⟨name, kind, _, _⟩, row, size => nodesOfKind typeName name kind row size

/-- The nodes of the object that a field of a name and a kind packs into a row. -/
def nodesOfKind (typeName name : String) : FieldKind NodePlan → Row → (size : Nat) →
    Except Fault (List Node × Row × Link)
  | .value, row, _ => pure ([], row, .value)
  | .many _, row, _ => pure ([], row, .pending)
  | .single plan, row, size => do
    match ← relatedObject typeName name ((row.get? name).getD .null) with
    | none => pure ([], row.erase name, .single none)
    | some related =>
      let nodes ← nodesOf plan related size
      pure (nodes, row.erase name, .single (some (size + nodes.length - 1)))

end

/-- Add nodes to a graph. -/
def pushAll (graph : Graph) (nodes : List Node) : Graph := nodes.foldl pushed graph

theorem pushAll_append (graph : Graph) (nodes nodes' : List Node) :
    pushAll graph (nodes ++ nodes') = pushAll (pushAll graph nodes) nodes' := List.foldl_append

theorem size_pushAll (graph : Graph) (nodes : List Node) :
    (pushAll graph nodes).nodes.size = graph.nodes.size + nodes.length := by
  induction nodes generalizing graph with
  | nil => rfl
  | cons node nodes ih =>
    change (pushAll (pushed graph node) nodes).nodes.size = _
    rw [ih, pushed, Array.size_push, List.length_cons]
    omega

theorem node_pushAll (graph : Graph) (nodes : List Node) (id : Nat) :
    (pushAll graph nodes).nodes[id]? =
      if id < graph.nodes.size then graph.nodes[id]? else nodes[id - graph.nodes.size]? := by
  induction nodes generalizing graph with
  | nil =>
    split
    · rfl
    · next h => exact Array.getElem?_eq_none (Nat.le_of_not_lt h)
  | cons node nodes ih =>
    change (pushAll (pushed graph node) nodes).nodes[id]? = _
    have hsize : (pushed graph node).nodes.size = graph.nodes.size + 1 := Array.size_push _
    rw [ih, hsize, pushed_node]
    by_cases hlt : id < graph.nodes.size
    · rw [if_pos (by omega), if_pos hlt, if_neg (Nat.ne_of_lt hlt)]
    · by_cases heq : id = graph.nodes.size
      · rw [if_pos (by omega), if_neg hlt, if_pos heq, heq, Nat.sub_self]
        rfl
      · rw [if_neg (by omega), if_neg hlt,
          show id - graph.nodes.size = (id - (graph.nodes.size + 1)) + 1 by omega,
          List.getElem?_cons_succ]

theorem keeps_pushAll (graph : Graph) (nodes : List Node) : graph.Keeps (pushAll graph nodes) := by
  intro id node hn
  obtain ⟨hlt, -⟩ := Array.getElem?_eq_some_iff.1 hn
  refine ⟨node, ?_, rfl, rfl⟩
  rw [node_pushAll, if_pos hlt, hn]

theorem push_result (graph : Graph) (plan : NodePlan) (row : Row) (links : List Link) :
    (push plan row links).result graph =
      .ok (graph.nodes.size, pushAll graph [⟨plan, row, links⟩]) := rfl

mutual

/-- Adding a row adds its nodes, and its own is the last of them. -/
theorem insert_result (graph : Graph) : (plan : NodePlan) → (row : Row) →
    (insert plan row).result graph = (nodesOf plan row graph.nodes.size).map fun nodes =>
      (graph.nodes.size + nodes.length - 1, pushAll graph nodes)
  | ⟨origin, typeName, fields, many⟩, row => by
    rw [insert, result_bind, insertFields_result graph typeName fields row, nodesOf]
    cases nodesOfFields typeName fields row graph.nodes.size with
    | error e => rfl
    | ok p =>
      obtain ⟨nodes, row, links⟩ := p
      change (push _ row links).result (pushAll graph nodes) = _
      rw [push_result, size_pushAll, ← pushAll_append]
      change _ = Except.ok (_, _)
      rw [List.length_append]
      rfl

theorem insertFields_result (graph : Graph) (typeName : String) :
    (fields : List (FieldPlan NodePlan)) → (row : Row) →
    (insertFields typeName fields row).result graph =
      (nodesOfFields typeName fields row graph.nodes.size).map fun p =>
        (p.2, pushAll graph p.1)
  | [], row => rfl
  | field :: fields, row => by
    rw [insertFields, result_bind, insertField_result graph typeName field row, nodesOfFields]
    cases nodesOfField typeName field row graph.nodes.size with
    | error e => rfl
    | ok p =>
      obtain ⟨nodes, row, link⟩ := p
      change Growing.result (insertFields typeName fields row >>= _) (pushAll graph nodes) = _
      rw [result_bind, insertFields_result (pushAll graph nodes) typeName fields row,
        size_pushAll]
      simp only [bind, Except.bind]
      cases nodesOfFields typeName fields row (graph.nodes.size + nodes.length) with
      | error e => rfl
      | ok p' =>
        obtain ⟨nodes', row, links⟩ := p'
        change Except.ok (_, pushAll (pushAll graph nodes) nodes') =
          Except.ok (_, pushAll graph (nodes ++ nodes'))
        rw [pushAll_append]

theorem insertField_result (graph : Graph) (typeName : String) :
    (field : FieldPlan NodePlan) → (row : Row) →
    (insertField typeName field row).result graph =
      (nodesOfField typeName field row graph.nodes.size).map fun p => (p.2, pushAll graph p.1)
  | ⟨name, kind, _, _⟩, row => insertKind_result graph typeName name kind row

theorem insertKind_result (graph : Graph) (typeName name : String) :
    (kind : FieldKind NodePlan) → (row : Row) →
    (insertKind typeName name kind row).result graph =
      (nodesOfKind typeName name kind row graph.nodes.size).map fun p => (p.2, pushAll graph p.1)
  | .value, row => rfl
  | .many _, row => rfl
  | .single plan, row => by
    rw [insertKind, result_bind, result_lift, nodesOfKind]
    cases relatedObject typeName name ((row.get? name).getD .null) with
    | error e => rfl
    | ok related =>
      cases related with
      | none => rfl
      | some related =>
        change Growing.result (insert plan related >>= _) graph = _
        rw [result_bind, insert_result graph plan related]
        simp only [bind, Except.bind]
        cases nodesOf plan related graph.nodes.size <;> rfl

end

/-! ### Rows -/

/-- The nodes of rows, and the node of each row. -/
def nodesOfAll (plan : NodePlan) : List Row → (size : Nat) → Except Fault (List Node × List NodeId)
  | [], _ => pure ([], [])
  | row :: rows, size => do
    let nodes ← nodesOf plan row size
    let (nodes', ids) ← nodesOfAll plan rows (size + nodes.length)
    pure (nodes ++ nodes', (size + nodes.length - 1) :: ids)

theorem addRows_result (graph : Graph) (plan : NodePlan) (rows : List Row) :
    (addRows plan rows).result graph =
      (nodesOfAll plan rows graph.nodes.size).map fun p => (p.2, pushAll graph p.1) := by
  induction rows generalizing graph with
  | nil => rfl
  | cons row rows ih =>
    unfold addRows at ih ⊢
    rw [List.mapM_cons, result_bind, insert_result, nodesOfAll]
    simp only [bind, Except.bind]
    cases nodesOf plan row graph.nodes.size with
    | error e => rfl
    | ok nodes =>
      change Growing.result (rows.mapM (insert plan) >>= _) (pushAll graph nodes) = _
      rw [result_bind, ih, size_pushAll]
      simp only
      cases nodesOfAll plan rows (graph.nodes.size + nodes.length) with
      | error e => rfl
      | ok p =>
        change Except.ok (_, pushAll (pushAll graph nodes) p.1) =
          Except.ok (_, pushAll graph (nodes ++ p.1))
        rw [pushAll_append]

/-! ### Rows of a follow-up -/

/-- The nodes of the rows of a follow-up, and the node of each row with the key of its parent. -/
def nodesOfRows (relation : Plan.ManyPlan) (plan : NodePlan) (labels : List String) :
    List Row → (size : Nat) → Except Fault (List Node × List (String × NodeId))
  | [], _ => pure ([], [])
  | row :: rows, size =>
    match rowKey? row labels with
    | none => throw (.data relation.parentType relation.field .noParentKey)
    | some key => do
      let nodes ← nodesOf plan row size
      let (nodes', children) ← nodesOfRows relation plan labels rows (size + nodes.length)
      pure (nodes ++ nodes', (key, size + nodes.length - 1) :: children)

theorem addChildren_result (graph : Graph) (relation : Plan.ManyPlan) (plan : NodePlan)
    (labels : List String) (rows : List Row) :
    (addChildren relation plan labels rows).result graph =
      (nodesOfRows relation plan labels rows graph.nodes.size).map fun p =>
        (p.2, pushAll graph p.1) := by
  induction rows generalizing graph with
  | nil => rfl
  | cons row rows ih =>
    unfold addChildren nodesOfRows
    cases rowKey? row labels with
    | none => rfl
    | some key =>
      change Growing.result (insert plan row >>= _) graph = _
      rw [result_bind, insert_result]
      simp only [bind, Except.bind]
      cases nodesOf plan row graph.nodes.size with
      | error e => rfl
      | ok nodes =>
        change Growing.result (addChildren relation plan labels rows >>= _)
          (pushAll graph nodes) = _
        rw [result_bind, ih, size_pushAll]
        simp only
        cases nodesOfRows relation plan labels rows (graph.nodes.size + nodes.length) with
        | error e => rfl
        | ok p =>
          change Except.ok (_, pushAll (pushAll graph nodes) p.1) =
            Except.ok (_, pushAll graph (nodes ++ p.1))
          rw [pushAll_append]

/-- Attaching the rows of a follow-up adds their nodes and links them to the parents. -/
theorem attach_result (graph : Graph) {group : Group} {relation : Plan.ManyPlan} {field : Nat}
    (hrelation : group.relation? = some relation) (hfield : group.field? = some field)
    (plan : NodePlan) (labels : List String) (pageSize : Option Nat) (rows : List Row) :
    (attach group plan labels pageSize rows).result graph =
      (nodesOfRows relation plan labels rows graph.nodes.size).map fun p =>
        ((), (pushAll graph p.1).setLinks group.parents field fun parent =>
          .many ((pushAll graph p.1).childrenOf relation.keyLabels p.2 parent) pageSize) := by
  unfold attach
  rw [hrelation]
  change Growing.result (addChildren relation plan labels rows >>= _) graph = _
  rw [result_bind, addChildren_result, hfield]
  cases nodesOfRows relation plan labels rows graph.nodes.size <;> rfl

theorem attach_ok {graph graph' : Graph} {group : Group} {plan : NodePlan} {labels : List String}
    {pageSize : Option Nat} {rows : List Row}
    (h : (attach group plan labels pageSize rows).result graph = .ok ((), graph')) :
    ∃ relation field nodes children, group.relation? = some relation ∧
      group.field? = some field ∧
      nodesOfRows relation plan labels rows graph.nodes.size = .ok (nodes, children) ∧
      graph' = (pushAll graph nodes).setLinks group.parents field fun parent =>
        .many ((pushAll graph nodes).childrenOf relation.keyLabels children parent) pageSize := by
  cases hrelation : group.relation? with
  | none =>
    unfold attach at h
    rw [hrelation] at h
    cases h
  | some relation =>
    cases hfield : group.field? with
    | none =>
      unfold attach at h
      rw [hrelation] at h
      change Growing.result (addChildren relation plan labels rows >>= _) graph = _ at h
      rw [result_bind, addChildren_result, hfield] at h
      cases hn : nodesOfRows relation plan labels rows graph.nodes.size with
      | error e =>
        rw [hn] at h
        cases h
      | ok p =>
        rw [hn] at h
        cases h
    | some field =>
      rw [attach_result graph hrelation hfield] at h
      cases hn : nodesOfRows relation plan labels rows graph.nodes.size with
      | error e =>
        rw [hn] at h
        cases h
      | ok p =>
        rw [hn] at h
        cases h
        exact ⟨relation, field, p.1, p.2, rfl, rfl, hn, rfl⟩

/-- Attaching the rows of a follow-up keeps all nodes. -/
theorem attach_keeps {graph graph' : Graph} {group : Group} {plan : NodePlan}
    {labels : List String} {pageSize : Option Nat} {rows : List Row}
    (h : (attach group plan labels pageSize rows).result graph = .ok ((), graph')) :
    graph.Keeps graph' := by
  obtain ⟨_, _, nodes, _, -, -, -, rfl⟩ := attach_ok h
  exact (keeps_pushAll graph nodes).trans keeps_setLinks

end Graph

end ObjectGraph
