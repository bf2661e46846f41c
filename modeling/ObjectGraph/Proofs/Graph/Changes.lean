import Mathlib.Data.List.Forall2
import ObjectGraph.Graph.Growth

/-! # Changes of the graph

`Runs` says what a change of the graph comes to: a graph that satisfies something, or a fault.  It
is composed along the steps of the change (`Runs.bind`).  Then come the parts of the steps: the
groups after a node was enqueued, and the links after they were set. -/

namespace ObjectGraph

/-- Something that a request leads to is not in the graph: the field of a list, the objects of a
list, or a node. -/
def Fault.IsGap : Fault → Prop
  | .data _ _ .noField | .data _ _ .unresolved | .data _ _ (.unknownNode _) => True
  | _ => False

namespace Graph

theorem relatedObject_error {typeName field : String} {packed : Json} {e : Fault}
    (h : relatedObject typeName field packed = .error e) :
    e = .data typeName field .relatedText ∨
      ∃ value, e = .data typeName field (.notObject value) := by
  cases packed with
  | str text =>
    cases hp : Json.parse? text with
    | none =>
      simp only [relatedObject, hp] at h
      cases h
      exact .inl rfl
    | some value =>
      simp only [relatedObject, hp] at h
      cases value <;> cases h <;> exact .inr ⟨_, rfl⟩
  | _ => cases h <;> exact .inr ⟨_, rfl⟩

theorem not_isGap_relatedObject {typeName field : String} {packed : Json} {e : Fault}
    (h : relatedObject typeName field packed = .error e) : ¬e.IsGap := by
  rcases relatedObject_error h with rfl | ⟨_, rfl⟩ <;> exact id

/-! ### Outcomes -/

/-- A change succeeds with a value and a graph that satisfy `post`, or it fails for a reason that
satisfies `fault`. -/
def Runs {α : Type} (change : Growing α) (graph : Graph) (post : α → Graph → Prop)
    (fault : Fault → Prop) : Prop :=
  match change.on graph with
  | (.ok a, graph') => post a graph'
  | (.error e, _) => fault e

section

variable {α β : Type} {graph : Graph} {fault : Fault → Prop}

theorem Runs.pure {a : α} {post : α → Graph → Prop} (h : post a graph) :
    Runs (Pure.pure a) graph post fault := h

theorem Runs.throw {e : Fault} {post : α → Graph → Prop} (h : fault e) :
    Runs (MonadExcept.throw e) graph post fault := h

theorem Runs.lift {x : Except Fault α} {post : α → Graph → Prop}
    (hok : ∀ a, x = .ok a → post a graph) (herror : ∀ e, x = .error e → fault e) :
    Runs (liftM x) graph post fault := by
  cases x with
  | error e => exact herror e rfl
  | ok a => exact hok a rfl

/-- A change that fails stops those after it. -/
theorem on_bind (change : Growing α) (next : α → Growing β) (graph : Graph) :
    (change >>= next).on graph = match change.on graph with
      | (.ok a, graph') => (next a).on graph'
      | (.error e, graph') => (.error e, graph') := by
  change (ExceptT.bindCont next (change graph).1) (change graph).2 = _
  change _ = match change graph with
    | (.ok a, graph') => (next a) graph'
    | (.error e, graph') => (.error e, graph')
  rcases change graph with ⟨_ | a, graph'⟩ <;> rfl

theorem Runs.bind {change : Growing α} {next : α → Growing β} {post : α → Graph → Prop}
    {post' : β → Graph → Prop} (h : Runs change graph post fault)
    (hnext : ∀ a graph', post a graph' → Runs (next a) graph' post' fault) :
    Runs (change >>= next) graph post' fault := by
  unfold Runs at h ⊢
  rw [on_bind]
  rcases hc : change.on graph with ⟨e | a, graph'⟩
  · rw [hc] at h
    exact h
  · rw [hc] at h
    exact hnext a graph' h

theorem Runs.mono {change : Growing α} {post post' : α → Graph → Prop} {fault' : Fault → Prop}
    (h : Runs change graph post fault) (hp : ∀ a graph', post a graph' → post' a graph')
    (hfault : ∀ e, fault e → fault' e) : Runs change graph post' fault' := by
  unfold Runs at h ⊢
  rcases hc : change.on graph with ⟨e | a, graph'⟩
  · rw [hc] at h
    exact hfault e h
  · rw [hc] at h
    exact hp a graph' h

end

/-! ### Groups -/

/-- The place of the list that a group waits for. -/
def Group.place (group : Group) : List Nat × Nat := (group.plan.origin, group.index)

theorem Group.isFor_iff {group : Group} {plan : Plan.NodePlan} {index : Nat} :
    group.isFor plan index = true ↔ group.place = (plan.origin, index) := by
  simp [Group.isFor, Group.place]

section

variable {plan : Plan.NodePlan} {id : NodeId}

theorem enqueueIn_places {index : Nat} {groups : List Group}
    (h : (groups.map Group.place).Nodup) :
    ((enqueueIn plan index id groups).map Group.place).Nodup ∧
      ∀ place ∈ (enqueueIn plan index id groups).map Group.place,
        place ∈ groups.map Group.place ∨ place = (plan.origin, index) := by
  induction groups with
  | nil => simp [enqueueIn, Group.place]
  | cons group groups ih =>
    simp only [List.map_cons, List.nodup_cons] at h
    unfold enqueueIn
    split
    · refine ⟨List.nodup_cons.2 h, ?_⟩
      intro place hp
      exact .inl hp
    · next hfor =>
      obtain ⟨hnodup, hplaces⟩ := ih h.2
      refine ⟨List.nodup_cons.2 ⟨?_, hnodup⟩, ?_⟩
      · intro hp
        rcases hplaces _ hp with hp | hp
        · exact h.1 hp
        · exact hfor (Group.isFor_iff.2 hp)
      · intro place hp
        rcases List.mem_cons.1 hp with rfl | hp
        · exact .inl List.mem_cons_self
        · rcases hplaces _ hp with hp | hp
          · exact .inl (List.mem_cons_of_mem _ hp)
          · exact .inr hp

/-- A property of groups that nodes of a plan may join. -/
theorem enqueueIn_all {index : Nat} {groups : List Group} {P : Group → Prop}
    (h : ∀ group ∈ groups, P group)
    (hjoin : ∀ group ∈ groups, group.isFor plan index = true →
      P { group with parents := group.parents ++ [id] })
    (hnew : P ⟨plan, index, [id]⟩) : ∀ group ∈ enqueueIn plan index id groups, P group := by
  induction groups with
  | nil =>
    intro group hg
    rw [enqueueIn, List.mem_singleton] at hg
    rw [hg]
    exact hnew
  | cons first groups ih =>
    intro group hg
    unfold enqueueIn at hg
    split at hg
    · next hfor =>
      rcases List.mem_cons.1 hg with rfl | hg
      · exact hjoin first List.mem_cons_self hfor
      · exact h group (List.mem_cons_of_mem _ hg)
    · rcases List.mem_cons.1 hg with rfl | hg
      · exact h group List.mem_cons_self
      · exact ih (fun g hg => h g (List.mem_cons_of_mem _ hg))
          (fun g hg => hjoin g (List.mem_cons_of_mem _ hg)) group hg

/-- A group is for a place and has a node among its parents. -/
def Waits (groups : List Group) (place : List Nat × Nat) (id : NodeId) : Prop :=
  ∃ group ∈ groups, group.place = place ∧ id ∈ group.parents

theorem enqueueIn_waits {index : Nat} {groups : List Group} :
    Waits (enqueueIn plan index id groups) (plan.origin, index) id := by
  induction groups with
  | nil => exact ⟨_, List.mem_singleton_self _, rfl, List.mem_singleton_self _⟩
  | cons group groups ih =>
    unfold enqueueIn
    split
    · next hfor =>
      exact ⟨_, List.mem_cons_self, Group.isFor_iff.1 hfor,
        List.mem_append_right _ (List.mem_singleton_self _)⟩
    · obtain ⟨g, hg, hp, hid⟩ := ih
      exact ⟨g, List.mem_cons_of_mem _ hg, hp, hid⟩

theorem Waits.enqueueIn {index : Nat} {groups : List Group} {place : List Nat × Nat}
    {other : NodeId} (h : Waits groups place other) :
    Waits (Graph.enqueueIn plan index id groups) place other := by
  induction groups with
  | nil =>
    obtain ⟨group, hg, -⟩ := h
    simp at hg
  | cons first groups ih =>
    obtain ⟨group, hg, hp, ho⟩ := h
    unfold Graph.enqueueIn
    split
    · rcases List.mem_cons.1 hg with rfl | hg
      · exact ⟨_, List.mem_cons_self, hp, List.mem_append_left _ ho⟩
      · exact ⟨group, List.mem_cons_of_mem _ hg, hp, ho⟩
    · rcases List.mem_cons.1 hg with rfl | hg
      · exact ⟨group, List.mem_cons_self, hp, ho⟩
      · obtain ⟨g, hg, hp, ho⟩ := ih ⟨group, hg, hp, ho⟩
        exact ⟨g, List.mem_cons_of_mem _ hg, hp, ho⟩

/-- Add a node to the groups of lists of its plan. -/
def enqueueAll (plan : Plan.NodePlan) (id : NodeId) (indices : List Nat) (groups : List Group) :
    List Group :=
  indices.foldl (fun groups index => enqueueIn plan index id groups) groups

theorem enqueueAll_nodup {indices : List Nat} {groups : List Group}
    (h : (groups.map Group.place).Nodup) :
    ((enqueueAll plan id indices groups).map Group.place).Nodup := by
  induction indices generalizing groups with
  | nil => exact h
  | cons index indices ih => exact ih (enqueueIn_places h).1

theorem enqueueAll_all {indices : List Nat} {groups : List Group} {P : Group → Prop}
    (h : ∀ group ∈ groups, P group)
    (hjoin : ∀ index ∈ indices, ∀ group, P group → group.isFor plan index = true →
      P { group with parents := group.parents ++ [id] })
    (hnew : ∀ index ∈ indices, P ⟨plan, index, [id]⟩) :
    ∀ group ∈ enqueueAll plan id indices groups, P group := by
  induction indices generalizing groups with
  | nil => exact h
  | cons index indices ih =>
    refine ih (enqueueIn_all h ?_ (hnew index List.mem_cons_self)) ?_ ?_
    · intro group hg
      exact hjoin index List.mem_cons_self group (h group hg)
    · intro index hi
      exact hjoin index (List.mem_cons_of_mem _ hi)
    · intro index hi
      exact hnew index (List.mem_cons_of_mem _ hi)

theorem Waits.enqueueAll {indices : List Nat} {groups : List Group} {place : List Nat × Nat}
    {other : NodeId} (h : Waits groups place other) :
    Waits (Graph.enqueueAll plan id indices groups) place other := by
  induction indices generalizing groups with
  | nil => exact h
  | cons index indices ih => exact ih h.enqueueIn

theorem enqueueAll_waits {indices : List Nat} {groups : List Group} {index : Nat}
    (h : index ∈ indices) :
    Waits (enqueueAll plan id indices groups) (plan.origin, index) id := by
  induction indices generalizing groups with
  | nil => simp at h
  | cons first indices ih =>
    rcases List.mem_cons.1 h with rfl | h
    · change Waits (enqueueAll plan id indices (enqueueIn plan index id groups)) _ id
      exact Waits.enqueueAll enqueueIn_waits
    · exact ih h

end

theorem mem_manyIndices {plan : Plan.NodePlan} {index : Nat} :
    index ∈ manyIndices plan ↔ ∃ field ∈ plan.fields, field.kind = .many index := by
  simp only [manyIndices, List.mem_filterMap]
  constructor
  · rintro ⟨field, hf, hk⟩
    refine ⟨field, hf, ?_⟩
    cases hkind : field.kind with
    | many i => simpa [hkind] using hk
    | value => simp [hkind] at hk
    | single child => simp [hkind] at hk
  · rintro ⟨field, hf, hk⟩
    exact ⟨field, hf, by simp [hk]⟩

/-- A graph with one more node, which waits for its lists. -/
def pushed (graph : Graph) (node : Node) : Graph :=
  { nodes := graph.nodes.push node
    waiting := enqueueAll node.plan graph.nodes.size (manyIndices node.plan) graph.waiting }

theorem pushed_node {graph : Graph} {node : Node} {id : NodeId} :
    (pushed graph node).nodes[id]? =
      if id = graph.nodes.size then some node else graph.nodes[id]? :=
  Array.getElem?_push

/-- A graph has the nodes of another, at most with other links. -/
def Keeps (graph graph' : Graph) : Prop :=
  ∀ (id : NodeId) (node : Node), graph.nodes[id]? = some node →
    ∃ node', graph'.nodes[id]? = some node' ∧ node'.plan = node.plan ∧ node'.row = node.row

theorem Keeps.refl {graph : Graph} : Keeps graph graph := fun _ node h => ⟨node, h, rfl, rfl⟩

theorem Keeps.trans {graph graph' graph'' : Graph} (h : Keeps graph graph')
    (h' : Keeps graph' graph'') : Keeps graph graph'' := by
  intro id node hn
  obtain ⟨node', hn', hp, hr⟩ := h id node hn
  obtain ⟨node'', hn'', hp', hr'⟩ := h' id node' hn'
  exact ⟨node'', hn'', hp'.trans hp, hr'.trans hr⟩

/-! ### Links -/

/-- The nodes that a link leads to. -/
def Link.targets : Link → List NodeId
  | .single (some id) => [id]
  | .many ids _ => ids
  | _ => []

/-- Set a link of some nodes. -/
def setLinks (graph : Graph) (ids : List NodeId) (field : Nat) (link : NodeId → Link) : Graph :=
  ids.foldl (fun graph id => graph.setLink id field (link id)) graph

theorem setLinks_waiting {graph : Graph} {ids : List NodeId} {field : Nat}
    {link : NodeId → Link} : (graph.setLinks ids field link).waiting = graph.waiting := by
  induction ids generalizing graph with
  | nil => rfl
  | cons id ids ih => exact ih

theorem setLinks_size {graph : Graph} {ids : List NodeId} {field : Nat} {link : NodeId → Link} :
    (graph.setLinks ids field link).nodes.size = graph.nodes.size := by
  induction ids generalizing graph with
  | nil => rfl
  | cons id ids ih =>
    change ((graph.setLink id field (link id)).setLinks ids field link).nodes.size = _
    rw [ih]
    exact Array.size_modify

theorem setLinks_node {graph : Graph} {ids : List NodeId} {field : Nat} {link : NodeId → Link}
    {id : NodeId} :
    (graph.setLinks ids field link).nodes[id]? = (graph.nodes[id]?).map fun node =>
      if id ∈ ids then { node with links := node.links.set field (link id) } else node := by
  induction ids generalizing graph with
  | nil => simp [setLinks]
  | cons first ids ih =>
    change ((graph.setLink first field (link first)).setLinks ids field link).nodes[id]? = _
    rw [ih]
    simp only [setLink, Array.getElem?_modify]
    cases hn : graph.nodes[id]? with
    | none => simp
    | some node =>
      by_cases hid : first = id
      · subst hid
        by_cases hmem : first ∈ ids <;> simp [hmem]
      · have hid' : id ≠ first := fun h => hid h.symm
        simp [hid, hid', List.mem_cons]

/-- What setting empty lists keeps, it keeps to give the parents of a group empty lists. -/
theorem attachNone_invariant {P : Graph → Prop} {group : Group}
    (h : ∀ graph field, P graph →
      P (graph.setLinks group.parents field fun _ => .many [] none))
    {graph : Graph} (hp : P graph) : P (graph.attachNone group) := by
  unfold attachNone
  generalize group.plan.fields.zipIdx = positions
  induction positions generalizing graph with
  | nil => exact hp
  | cons position positions ih =>
    rw [List.foldl_cons]
    refine ih ?_
    dsimp only
    split
    · exact h graph position.2 hp
    · exact hp

theorem keeps_setLinks {graph : Graph} {ids : List NodeId} {field : Nat} {link : NodeId → Link} :
    graph.Keeps (graph.setLinks ids field link) := by
  intro id node hn
  refine ⟨_, by rw [setLinks_node, hn, Option.map_some], ?_⟩
  split
  · exact ⟨rfl, rfl⟩
  · exact ⟨rfl, rfl⟩

end Graph

end ObjectGraph
