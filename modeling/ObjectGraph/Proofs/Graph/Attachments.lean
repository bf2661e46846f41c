import ObjectGraph.Proofs.Graph.Counterparts
import ObjectGraph.Proofs.Graph.Veils

/-! # Attached rows

What attaching the rows of a follow-up comes to, for any graph and any group (`attach_children`):
every row becomes a node of its own, and every parent of the group is linked to the nodes of the
rows that have its key, in their order.  Nothing else of the graph changes. -/

namespace ObjectGraph

namespace Graph

open Plan (NodePlan FieldPlan FieldKind ManyPlan)

/-! ### The node of a row -/

/-- What is left of a row once all fields have taken their objects out. -/
def stripped (fields : List (FieldPlan NodePlan)) (row : Row) : Row :=
  fields.foldl (fun row field => without field row) row

/-- A node is that of a row. -/
structure IsOf (plan : NodePlan) (row : Row) (node : Node) : Prop where
  planned : node.plan = plan
  row : node.row = stripped plan.fields row
  links : node.links.length = plan.fields.length

section

variable {plan : NodePlan} {row : Row} {size : Nat} {nodes : List Node}

theorem nodesOfField_row {typeName : String} {field : FieldPlan NodePlan} {row' : Row}
    {link : Link} (h : nodesOfField typeName field row size = .ok (nodes, row', link)) :
    row' = without field row := by
  obtain ⟨name, kind, _, _⟩ := field
  cases kind with
  | value =>
    cases h
    rfl
  | many index =>
    cases h
    rfl
  | single child =>
    rw [nodesOfField, nodesOfKind] at h
    obtain ⟨related, -, h⟩ := Outcome.bind_ok.1 h
    cases related with
    | none =>
      cases h
      rfl
    | some related =>
      obtain ⟨_, -, h⟩ := Outcome.bind_ok.1 h
      cases h
      rfl

theorem nodesOfFields_row {typeName : String} {fields : List (FieldPlan NodePlan)} {row' : Row}
    {links : List Link} (h : nodesOfFields typeName fields row size = .ok (nodes, row', links)) :
    row' = stripped fields row := by
  induction fields generalizing row size nodes links with
  | nil =>
    cases h
    rfl
  | cons field fields ih =>
    obtain ⟨_, between, _, _, _, hfirst, hrest, -, -⟩ := nodesOfFields_cons_ok h
    rw [ih hrest, nodesOfField_row hfirst]
    rfl

/-- The last node that a row adds is its own. -/
theorem nodesOf_last (h : nodesOf plan row size = .ok nodes) :
    ∃ before node, nodes = before ++ [node] ∧ IsOf plan row node := by
  obtain ⟨origin, typeName, fields, many⟩ := plan
  rw [nodesOf] at h
  obtain ⟨⟨before, row', links⟩, hfields, h⟩ := Outcome.bind_ok.1 h
  cases h
  exact ⟨before, _, rfl, rfl, nodesOfFields_row hfields,
    (nodesOfFields_starts hfields).length_eq.symm⟩

end

/-! ### The nodes of rows -/

/-- The node of a number is that of a row. -/
def NodeOf (graph : Graph) (plan : NodePlan) (row : Row) (id : NodeId) : Prop :=
  ∃ node, graph.nodes[id]? = some node ∧ IsOf plan row node

/-- The nodes, of those of rows, whose rows have a key. -/
def withKey (labels : List String) (key : Option String) (rows : List Row) (ids : List NodeId) :
    List NodeId :=
  ((rows.zip ids).filter fun item => rowKey? item.1 labels == key).map Prod.snd

theorem mem_withKey {labels : List String} {key : Option String} {rows : List Row}
    {ids : List NodeId} {id : NodeId} :
    id ∈ withKey labels key rows ids ↔
      ∃ (i : Nat) (row : Row), rows[i]? = some row ∧ ids[i]? = some id ∧
        rowKey? row labels = key := by
  unfold withKey
  rw [List.mem_map]
  constructor
  · rintro ⟨⟨row, _⟩, hitem, rfl⟩
    obtain ⟨hmem, hkey⟩ := List.mem_filter.1 hitem
    obtain ⟨i, hi⟩ := List.getElem?_of_mem hmem
    obtain ⟨hrow, hid⟩ := List.getElem?_zip_eq_some.1 hi
    exact ⟨i, row, hrow, hid, beq_iff_eq.1 hkey⟩
  · rintro ⟨i, row, hrow, hid, hkey⟩
    have hitem : (rows.zip ids)[i]? = some (row, id) := List.getElem?_zip_eq_some.2 ⟨hrow, hid⟩
    have hmem := List.mem_of_getElem? hitem
    exact ⟨(row, id), List.mem_filter.2 ⟨hmem, beq_iff_eq.2 hkey⟩, rfl⟩

section

variable {relation : ManyPlan} {plan : NodePlan} {labels : List String} {rows : List Row}

/-- Every row of a follow-up has a key and a node, and the nodes are numbered in the order of their
rows. -/
theorem nodesOfRows_spec {size : Nat} {nodes : List Node} {children : List (String × NodeId)}
    (h : nodesOfRows relation plan labels rows size = .ok (nodes, children)) :
    List.Forall₂ (fun row child => rowKey? row labels = some child.1 ∧ size ≤ child.2 ∧
        ∃ node, nodes[child.2 - size]? = some node ∧ IsOf plan row node) rows children ∧
      (children.map Prod.snd).Nodup := by
  induction rows generalizing size nodes children with
  | nil =>
    cases h
    exact ⟨.nil, List.nodup_nil⟩
  | cons row rows ih =>
    unfold nodesOfRows at h
    cases hkey : rowKey? row labels with
    | none =>
      rw [hkey] at h
      cases h
    | some key =>
      rw [hkey] at h
      obtain ⟨first, hfirst, h⟩ := Outcome.bind_ok.1 h
      obtain ⟨⟨rest, others⟩, hrest, h⟩ := Outcome.bind_ok.1 h
      cases h
      obtain ⟨before, node, rfl, hnode⟩ := nodesOf_last hfirst
      obtain ⟨hothers, hnodup⟩ := ih hrest
      have hlength : (before ++ [node]).length = before.length + 1 := by simp
      rw [hlength] at hothers ⊢
      refine ⟨.cons ⟨hkey, by omega, node, ?_, hnode⟩ (hothers.imp ?_), ?_⟩
      · rw [List.append_assoc, List.getElem?_append_right (by omega)]
        rw [show size + (before.length + 1) - 1 - size - before.length = 0 by omega]
        rfl
      · rintro row' child ⟨hkey', hle, node', hn', hnode'⟩
        refine ⟨hkey', by omega, node', ?_, hnode'⟩
        rw [List.getElem?_append_right (by rw [hlength]; omega), hlength, ← hn']
        congr 1
        omega
      · rw [List.map_cons, List.nodup_cons]
        refine ⟨fun hmem => ?_, hnodup⟩
        obtain ⟨child, hc, heq⟩ := List.mem_map.1 hmem
        obtain ⟨row', -, -, hle, -⟩ := Outcome.forall₂_mem hothers.flip hc
        have hlt : size + (before.length + 1) - 1 < child.2 := by omega
        exact Nat.ne_of_gt hlt heq

/-- The children of a parent are the nodes of the rows with its key. -/
theorem childrenOf_eq {graph : Graph} {keyLabels : List String} {parent : NodeId} {node : Node}
    {children : List (String × NodeId)} (hnode : graph.nodes[parent]? = some node)
    (h : List.Forall₂ (fun row child => rowKey? row labels = some child.1) rows children) :
    graph.childrenOf keyLabels children parent =
      withKey labels (rowKey? node.row keyLabels) rows (children.map Prod.snd) := by
  unfold childrenOf withKey
  rw [hnode, Option.bind_some]
  induction h with
  | nil => cases rowKey? node.row keyLabels <;> rfl
  | @cons row child rows children hkey _ ih =>
    cases hk : rowKey? node.row keyLabels with
    | none =>
      rw [hk] at ih
      rw [List.map_cons, List.zip_cons_cons, List.filter_cons_of_neg (by simp [hkey])]
      exact ih
    | some key =>
      rw [hk] at ih
      simp only at ih ⊢
      rw [List.map_cons, List.zip_cons_cons]
      by_cases heq : child.1 = key
      · rw [List.filter_cons_of_pos (by simp [hkey, heq]), List.map_cons, ← ih]
        simp [heq]
      · rw [List.filter_cons_of_neg (by simp [hkey, heq]), ← ih]
        simp [heq]

end

/-! ### Attaching -/

/-- What attaching rows to the parents of a group leads to: every row has a node of its own, and
every parent is linked to the nodes of the rows that have its key. -/
structure Attached (graph graph' : Graph) (group : Group) (plan : NodePlan) (labels : List String)
    (pageSize : Option Nat) (rows : List Row) (relation : ManyPlan) (field : Nat)
    (ids : List NodeId) : Prop where
  list : group.relation? = some relation
  position : group.field? = some field
  keyed : ∀ row ∈ rows, ∃ key, rowKey? row labels = some key
  stands : List.Forall₂ (graph'.NodeOf plan) rows ids
  nodup : ids.Nodup
  parents : ∀ parent ∈ group.parents, ∀ node, graph.nodes[parent]? = some node →
    graph'.nodes[parent]? = some { node with
      links := node.links.set field (.many
        (withKey labels (rowKey? node.row relation.keyLabels) rows ids) pageSize) }

/-- Nodes of rows that are pushed and linked to the parents of a group are attached. -/
theorem attached_of_nodesOfRows {graph : Graph} {group : Group} {plan : NodePlan}
    {labels : List String} (pageSize : Option Nat) {rows : List Row} {relation : ManyPlan}
    {field : Nat} {nodes : List Node} {children : List (String × NodeId)}
    (hrelation : group.relation? = some relation) (hfield : group.field? = some field)
    (hnodes : nodesOfRows relation plan labels rows graph.nodes.size = .ok (nodes, children)) :
    Attached graph ((pushAll graph nodes).setLinks group.parents field fun parent =>
        .many ((pushAll graph nodes).childrenOf relation.keyLabels children parent) pageSize)
      group plan labels pageSize rows relation field (children.map Prod.snd) := by
  obtain ⟨hchildren, hnodup⟩ := nodesOfRows_spec hnodes
  refine ⟨hrelation, hfield, ?_, ?_, hnodup, ?_⟩
  · intro row hrow
    obtain ⟨child, -, hkey, -⟩ := Outcome.forall₂_mem hchildren hrow
    exact ⟨child.1, hkey⟩
  · rw [List.forall₂_map_right_iff]
    refine hchildren.imp ?_
    rintro row child ⟨-, hle, node, hn, hnode⟩
    refine ⟨_, by rw [setLinks_node, node_pushAll, if_neg (by omega), hn, Option.map_some], ?_⟩
    · split
      · refine ⟨hnode.planned, hnode.row, ?_⟩
        rw [← hnode.links]
        exact List.length_set
      · exact hnode
  · intro parent hparent node hnode
    obtain ⟨hlt, -⟩ := Array.getElem?_eq_some_iff.1 hnode
    have hpushed : (pushAll graph nodes).nodes[parent]? = some node := by
      rw [node_pushAll, if_pos hlt, hnode]
    rw [setLinks_node, hpushed, Option.map_some, if_pos hparent,
      childrenOf_eq hpushed (hchildren.imp fun _ _ h => h.1)]

theorem attach_children {graph graph' : Graph} {group : Group} {plan : NodePlan}
    {labels : List String} {pageSize : Option Nat} {rows : List Row}
    (h : (attach group plan labels pageSize rows).result graph = .ok ((), graph')) :
    ∃ relation field ids,
      Attached graph graph' group plan labels pageSize rows relation field ids := by
  obtain ⟨relation, field, nodes, children, hrelation, hfield, hnodes, rfl⟩ := attach_ok h
  exact ⟨relation, field, _, attached_of_nodesOfRows pageSize hrelation hfield hnodes⟩

end Graph

end ObjectGraph
