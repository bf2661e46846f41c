import ObjectGraph.Proofs.Graph.Counterparts
import ObjectGraph.Proofs.Graph.Queues

/-! # Graphs that mirror each other

A graph mirrors another where its nodes have counterparts there (`Mirrors`).  The second graph may
always go on, since links that are not pending stay (`Settles`).  The first one may follow: it gets
nodes whose counterparts are there (`Mirrors.push`), and links to what their counterparts lead to
(`Mirrors.setLinks`). -/

namespace ObjectGraph

namespace Graph

open Plan (NodePlan ManyPlan Twin TwinsWithin Stands)

/-! ### Progress of a graph -/

/-- A node gets links where they were pending. -/
structure Node.Becomes (node node' : Node) : Prop where
  plan : node.plan = node'.plan
  row : node.row = node'.row
  links : ∀ {i : Nat} {link : Link}, node.links[i]? = some link →
    ∃ link', node'.links[i]? = some link' ∧ (link = link' ∨ link = .pending)

/-- A graph gets nodes, and links where they were pending. -/
def Settles (graph graph' : Graph) : Prop :=
  ∀ (id : NodeId) (node : Node), graph.nodes[id]? = some node →
    ∃ node', graph'.nodes[id]? = some node' ∧ node.Becomes node'

/-- A graph has some nodes from a number on, at most with more links. -/
def HasBlock (graph : Graph) (start : Nat) (nodes : List Node) : Prop :=
  ∀ (k : Nat) (node : Node), nodes[k]? = some node →
    ∃ node', graph.nodes[start + k]? = some node' ∧ node.Becomes node'

section

variable {node node' node'' : Node} {g g' g'' : Graph} {start : Nat} {nodes : List Node}

theorem Node.Becomes.refl : node.Becomes node := ⟨rfl, rfl, fun hl => ⟨_, hl, .inl rfl⟩⟩

theorem Node.Becomes.trans (h : node.Becomes node') (h' : node'.Becomes node'') :
    node.Becomes node'' := by
  refine ⟨h.plan.trans h'.plan, h.row.trans h'.row, fun hl => ?_⟩
  obtain ⟨link', hl', heq⟩ := h.links hl
  obtain ⟨link'', hl'', heq'⟩ := h'.links hl'
  refine ⟨link'', hl'', ?_⟩
  rcases heq with rfl | hpending
  · exact heq'
  · exact .inr hpending

theorem Settles.trans (h : Settles g g') (h' : Settles g' g'') : Settles g g'' := by
  intro id node hn
  obtain ⟨node', hn', hb⟩ := h id node hn
  obtain ⟨node'', hn'', hb'⟩ := h' id node' hn'
  exact ⟨node'', hn'', hb.trans hb'⟩

theorem settles_pushAll : Settles g (pushAll g nodes) := by
  intro id node hn
  obtain ⟨hlt, -⟩ := Array.getElem?_eq_some_iff.1 hn
  refine ⟨node, ?_, .refl⟩
  rw [node_pushAll, if_pos hlt, hn]

/-- Pending links may be set. -/
theorem settles_setLinks {ids : List NodeId} {i : Nat} {link : NodeId → Link}
    (h : ∀ id ∈ ids, ∀ (node : Node) (old : Link), g.nodes[id]? = some node →
      node.links[i]? = some old → old = .pending) : Settles g (g.setLinks ids i link) := by
  intro id node hn
  refine ⟨_, by rw [setLinks_node, hn, Option.map_some], ?_⟩
  split
  · next hid =>
    refine ⟨rfl, rfl, fun {k old} hl => ?_⟩
    by_cases hk : i = k
    · subst hk
      obtain ⟨hlt, -⟩ := List.getElem?_eq_some_iff.1 hl
      refine ⟨link id, ?_, .inr (h id hid node old hn hl)⟩
      rw [List.getElem?_set, if_pos rfl, if_pos hlt]
    · refine ⟨old, ?_, .inl rfl⟩
      rw [List.getElem?_set, if_neg hk]
      exact hl
  · exact .refl

theorem HasBlock.settles (h : HasBlock g start nodes) (hs : Settles g g') :
    HasBlock g' start nodes := by
  intro k node hk
  obtain ⟨node', hn', hb⟩ := h k node hk
  obtain ⟨node'', hn'', hb'⟩ := hs _ node' hn'
  exact ⟨node'', hn'', hb.trans hb'⟩

theorem hasBlock_pushAll : HasBlock (pushAll g nodes) g.nodes.size nodes := by
  intro k node hk
  refine ⟨node, ?_, .refl⟩
  rw [node_pushAll, if_neg (Nat.not_lt.2 (Nat.le_add_right _ _)), Nat.add_sub_cancel_left]
  exact hk

/-- The children of a parent are found by its row. -/
theorem Settles.childrenOf (h : Settles g g') {labels : List String}
    {children : List (String × NodeId)} {parent : NodeId} (hn : g.nodes[parent]? = some node) :
    g'.childrenOf labels children parent = g.childrenOf labels children parent := by
  obtain ⟨node', hn', hb⟩ := h parent node hn
  unfold Graph.childrenOf
  rw [hn, hn', Option.bind_some, Option.bind_some, hb.row]

end

/-! ### Mirrors -/

/-- Related nodes are counterparts, and every node of the first graph is related to at most one. -/
structure Mirrors (env : Plan.Environment) (repeatable : Schema.Resolved → Prop)
    (R : NodeId → NodeId → Prop) (g g' : Graph) : Prop where
  nodes : ∀ {id id' : NodeId}, R id id' → ∃ node node', g.nodes[id]? = some node ∧
    g'.nodes[id']? = some node' ∧ NodeTwin env repeatable R node node'
  unique : ∀ {id a b : NodeId}, R id a → R id b → a = b

section

variable {env : Plan.Environment} {repeatable : Schema.Resolved → Prop}
  {R : NodeId → NodeId → Prop} {g g₁ g' g₁' : Graph} {node node' node₁' : Node}

theorem NodeTwin.becomes (h : NodeTwin env repeatable R node node') (hb : node'.Becomes node₁') :
    NodeTwin env repeatable R node node₁' := by
  refine ⟨hb.plan ▸ h.plan, h.row.trans hb.row, fun i i' hs => ?_⟩
  rw [← hb.plan] at hs
  obtain ⟨link, link', hl, hl', ht⟩ := h.links i i' hs
  obtain ⟨link₁', hl₁', rfl | rfl⟩ := hb.links hl'
  · exact ⟨link, _, hl, hl₁', ht⟩
  · -- what is pending in the second graph is pending in the first
    cases ht
    exact ⟨_, link₁', hl, hl₁', .pending⟩

namespace Mirrors

theorem settles (h : Mirrors env repeatable R g g') (hs : Settles g' g₁') :
    Mirrors env repeatable R g g₁' := by
  refine ⟨fun hR => ?_, h.unique⟩
  obtain ⟨node, node', hn, hn', ht⟩ := h.nodes hR
  obtain ⟨node₁', hn₁', hb⟩ := hs _ node' hn'
  exact ⟨node, node₁', hn, hn₁', ht.becomes hb⟩

/-- The first graph may get nodes whose counterparts are there. -/
theorem push (h : Mirrors env repeatable R g g') {root root' : NodePlan} {start : Nat}
    {nodes nodes' : List Node}
    (hblock : BlockTwin env repeatable root root' (Shift g.nodes.size start nodes.length) nodes
      nodes') (hthere : HasBlock g' start nodes') :
    Mirrors env repeatable (fun id id' => R id id' ∨ Shift g.nodes.size start nodes.length id id')
      (pushAll g nodes) g' := by
  have hold : ∀ {id id' : Nat}, R id id' → id < g.nodes.size := by
    intro id id' hR
    obtain ⟨node, -, hn, -⟩ := h.nodes hR
    exact (Array.getElem?_eq_some_iff.1 hn).1
  constructor
  case nodes =>
    rintro id id' (hR | ⟨k, hk, rfl, rfl⟩)
    · obtain ⟨node, node', hn, hn', ht⟩ := h.nodes hR
      refine ⟨node, node', ?_, hn', ht.mono fun _ _ => .inl⟩
      rw [node_pushAll, if_pos (hold hR)]
      exact hn
    · obtain ⟨hlength, hall⟩ := List.forall₂_iff_get.1 hblock
      obtain ⟨node', hn', hb⟩ := hthere k _ (List.getElem?_eq_getElem (hlength ▸ hk))
      refine ⟨nodes[k], node', ?_, hn', ?_⟩
      · rw [node_pushAll, if_neg (Nat.not_lt.2 (Nat.le_add_right _ _)), Nat.add_sub_cancel_left]
        exact List.getElem?_eq_getElem hk
      · exact ((hall k hk (hlength ▸ hk)).1.mono fun _ _ => .inr).becomes hb
  case unique =>
    rintro id a b (ha | ⟨k, hk, hid, ha⟩) (hb | ⟨k', hk', hid', hb⟩)
    · exact h.unique ha hb
    · have := hold ha
      omega
    · have := hold hb
      omega
    · have hkk : k = k' := by omega
      rw [ha, hb, hkk]

/-- The first graph may get links of a group to what their counterparts lead to. -/
theorem setLinks (h : Mirrors env repeatable R g g') {group group' : Group}
    (hgroup : GroupTwin env repeatable R group group')
    (hplan : ∀ id ∈ group.parents, ∀ node, g.nodes[id]? = some node → node.plan = group.plan)
    (hplan' : ∀ id ∈ group'.parents, ∀ node, g'.nodes[id]? = some node → node.plan = group'.plan)
    {i i' : Nat} (hi : Stands env repeatable group.plan group'.plan i i')
    {link link' : NodeId → Link}
    (hlink' : ∀ id ∈ group'.parents, ∀ node, g'.nodes[id]? = some node →
      node.links[i']? = some (link' id))
    (hlink : ∀ id id', R id id' → LinkTwin R (link id) (link' id')) :
    Mirrors env repeatable R (g.setLinks group.parents i link) g' := by
  refine ⟨fun {id id'} hR => ?_, h.unique⟩
  obtain ⟨node, node', hn, hn', ht⟩ := h.nodes hR
  refine ⟨_, node', by rw [setLinks_node, hn, Option.map_some], hn', ?_⟩
  split
  · next hid =>
    obtain ⟨other, hother, hR'⟩ := Outcome.forall₂_mem hgroup.parents hid
    cases h.unique hR hR'
    refine ⟨ht.plan, ht.row, fun k k' hk => ?_⟩
    obtain ⟨old, old', hl, hl', htwin⟩ := ht.links k k' hk
    by_cases hki : i = k
    · subst hki
      obtain ⟨hlt, -⟩ := List.getElem?_eq_some_iff.1 hl
      change Stands env repeatable node.plan node'.plan i k' at hk
      rw [hplan id hid node hn, hplan' id' hother node' hn'] at hk
      cases Plan.Twin.stands_unique hi hk
      refine ⟨link id, link' id', ?_, hlink' id' hother node' hn', hlink id id' hR⟩
      rw [List.getElem?_set, if_pos rfl, if_pos hlt]
    · refine ⟨old, old', ?_, hl', htwin⟩
      rw [List.getElem?_set, if_neg hki]
      exact hl
  · exact ht

/-- Counterparts have counterparts as children. -/
theorem childrenOf (h : Mirrors env repeatable R g g') {labels : List String}
    {children children' : List (String × NodeId)} {parent parent' : NodeId} (hR : R parent parent')
    (hchildren : List.Forall₂ (fun c c' => c.1 = c'.1 ∧ R c.2 c'.2) children children') :
    List.Forall₂ R (g.childrenOf labels children parent)
      (g'.childrenOf labels children' parent') := by
  obtain ⟨node, node', hn, hn', ht⟩ := h.nodes hR
  unfold Graph.childrenOf
  rw [hn, hn', Option.bind_some, Option.bind_some, ht.row]
  cases rowKey? node'.row labels with
  | none => exact .nil
  | some key =>
    refine List.rel_filterMap ?_ hchildren
    rintro c c' ⟨hkey, hid⟩
    simp only [hkey]
    split
    · exact .some hid
    · exact .none

/-- Groups for lists that stand for each other ask for the same keys. -/
theorem parentKeys (h : Mirrors env repeatable R g g') {group group' : Group}
    (hgroup : GroupTwin env repeatable R group group') {m m' : ManyPlan}
    (hm : group.relation? = some m) (hm' : group'.relation? = some m')
    (hmany : Plan.ManyTwin env repeatable m m') : g.parentKeys group = g'.parentKeys group' := by
  unfold Graph.parentKeys
  rw [hm, hm']
  simp only
  rw [hmany.keyLabels]
  have hvalues : ∀ {ids ids' : List NodeId}, List.Forall₂ R ids ids' →
      ids.filterMap (fun id => (g.nodes[id]?).bind fun node => keyValues? node.row m'.keyLabels) =
        ids'.filterMap fun id => (g'.nodes[id]?).bind fun node =>
          keyValues? node.row m'.keyLabels := by
    intro ids ids' hids
    induction hids with
    | nil => rfl
    | cons hR _ ih =>
      obtain ⟨node, node', hn, hn', ht⟩ := h.nodes hR
      rw [List.filterMap_cons, List.filterMap_cons, hn, hn', Option.bind_some, Option.bind_some,
        ht.row, ih]
  rw [hvalues hgroup.parents]

end Mirrors

end

end Graph

end ObjectGraph
