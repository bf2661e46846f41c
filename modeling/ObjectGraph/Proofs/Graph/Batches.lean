import ObjectGraph.Proofs.Graph.Histories

/-! # Batches of nodes

A node that is packed into a row is added before the node of the row, and a node that comes with a
follow-up is added after its parents; nodes may be shared, and lists may be attached again.  So
neither the numbers of the nodes nor the shape of the graph tells what is below what.  What does is
the batch in which a node was added (`Below`): lists lead to later batches, and related objects that
came with their row to earlier nodes of the same batch.

Rows that are added to a graph extend it by nodes that lead to earlier nodes among themselves
(`Extends`, `addRows_adds`, `addChildren_adds`), even where some row cannot be unpacked.
`History.layered` is the invariant of all graphs: links lead to nodes, and to such as are below. -/

namespace ObjectGraph

namespace Graph

open Plan (NodePlan FieldPlan FieldKind ManyPlan)

/-- A node is linked to another one. -/
def Child (graph : Graph) (child parent : NodeId) : Prop :=
  ∃ node link, graph.nodes[parent]? = some node ∧ link ∈ node.links ∧ child ∈ link.targets

/-- The parents of a group are nodes. -/
def Group.StandsIn (graph : Graph) (group : Group) : Prop :=
  ∀ id ∈ group.parents, id < graph.nodes.size

theorem Group.StandsIn.mono {graph graph' : Graph} {group : Group} (h : group.StandsIn graph)
    (hsize : graph.nodes.size ≤ graph'.nodes.size) : group.StandsIn graph' :=
  fun id hid => Nat.lt_of_lt_of_le (h id hid) hsize

/-! ### Adding nodes -/

/-- A graph has the nodes of another as they were, and further ones that lead to earlier ones among
themselves; those who wait are nodes. -/
structure Extends (graph graph' : Graph) : Prop where
  size : graph.nodes.size ≤ graph'.nodes.size
  old : ∀ id < graph.nodes.size, graph'.nodes[id]? = graph.nodes[id]?
  new : ∀ {child parent : NodeId}, graph'.Child child parent → graph.nodes.size ≤ parent →
    graph.nodes.size ≤ child ∧ child < parent
  waiting : ∀ group ∈ graph'.waiting, group.StandsIn graph'

section

variable {α β : Type} {base graph : Graph}

theorem Extends.refl (h : ∀ group ∈ graph.waiting, group.StandsIn graph) : graph.Extends graph where
  size := Nat.le_refl _
  old _ _ := rfl
  new := by
    rintro child parent ⟨node, -, hn, -⟩ hle
    exact absurd (Array.getElem?_eq_some_iff.1 hn).1 (Nat.not_lt.2 hle)
  waiting := h

/-- A node can be added that leads to nodes which are new as well. -/
theorem Extends.pushed (h : base.Extends graph) {node : Node}
    (hlinks : ∀ link ∈ node.links, ∀ child ∈ link.targets,
      base.nodes.size ≤ child ∧ child < graph.nodes.size) : base.Extends (pushed graph node) := by
  have hsize : (Graph.pushed graph node).nodes.size = graph.nodes.size + 1 := Array.size_push _
  constructor
  case size => exact Nat.le_trans h.size (by omega)
  case old =>
    intro id hid
    rw [pushed_node, if_neg (Nat.ne_of_lt (Nat.lt_of_lt_of_le hid h.size)), h.old id hid]
  case new =>
    rintro child parent ⟨node', link, hn, hlink, hchild⟩ hle
    rw [pushed_node] at hn
    split at hn
    · next heq =>
      cases hn
      rw [heq]
      exact hlinks link hlink child hchild
    · exact h.new ⟨node', link, hn, hlink, hchild⟩ hle
  case waiting =>
    have hown : graph.nodes.size < (Graph.pushed graph node).nodes.size := by omega
    refine enqueueAll_all (fun group hg => (h.waiting group hg).mono (by omega)) ?_ ?_
    · intro index _ group hg _ id hid
      rcases List.mem_append.1 hid with hid | hid
      · exact hg id hid
      · rwa [List.mem_singleton.1 hid]
    · intro index _ id hid
      rwa [List.mem_singleton.1 hid]

/-- A change adds nodes to a graph that extends another, even where it fails; something holds of its
value and the number of nodes then. -/
def Adds (base : Graph) (change : Growing α) (graph : Graph) (post : α → Nat → Prop) : Prop :=
  base.Extends (change.on graph).2 ∧ graph.nodes.size ≤ (change.on graph).2.nodes.size ∧
    ∀ a, (change.on graph).1 = .ok a → post a (change.on graph).2.nodes.size

theorem Adds.pure {a : α} {post : α → Nat → Prop} (h : base.Extends graph)
    (hpost : post a graph.nodes.size) : Adds base (Pure.pure a) graph post := by
  refine ⟨h, Nat.le_refl _, ?_⟩
  intro b hb
  cases hb
  exact hpost

theorem Adds.throw {e : Fault} {post : α → Nat → Prop} (h : base.Extends graph) :
    Adds base (MonadExcept.throw e) graph post :=
  ⟨h, Nat.le_refl _, fun _ hb => nomatch hb⟩

theorem Adds.lift (x : Except Fault α) (h : base.Extends graph) :
    Adds base (liftM x) graph fun _ size => size = graph.nodes.size := by
  cases x with
  | error e => exact ⟨h, Nat.le_refl _, fun _ _ => rfl⟩
  | ok a => exact ⟨h, Nat.le_refl _, fun _ _ => rfl⟩

theorem Adds.bind {change : Growing α} {next : α → Growing β} {post : α → Nat → Prop}
    {post' : β → Nat → Prop} (h : Adds base change graph post)
    (hnext : ∀ a graph', base.Extends graph' → graph.nodes.size ≤ graph'.nodes.size →
      post a graph'.nodes.size → Adds base (next a) graph' post') :
    Adds base (change >>= next) graph post' := by
  obtain ⟨hextends, hsize, hpost⟩ := h
  unfold Adds
  rw [on_bind]
  rcases hc : change.on graph with ⟨e | a, graph'⟩
  · rw [hc] at hextends hsize
    exact ⟨hextends, hsize, fun _ hb => nomatch hb⟩
  · rw [hc] at hextends hsize hpost
    obtain ⟨hextends', hsize', hpost'⟩ := hnext a graph' hextends hsize (hpost a rfl)
    exact ⟨hextends', Nat.le_trans hsize hsize', hpost'⟩

end

/-! ### Adding rows -/

section

variable {base : Graph}

mutual

theorem insert_adds : (plan : NodePlan) → (row : Row) → {graph : Graph} → base.Extends graph →
    Adds base (insert plan row) graph fun id size => base.nodes.size ≤ id ∧ id < size
  | ⟨origin, typeName, fields, many⟩, row, graph, h => by
    rw [insert]
    refine (insertFields_adds typeName fields row h).bind ?_
    rintro ⟨row', links⟩ graph' h' - hlinks
    have hsize : (pushed graph' ⟨⟨origin, typeName, fields, many⟩, row', links⟩).nodes.size =
        graph'.nodes.size + 1 := Array.size_push _
    refine ⟨h'.pushed hlinks, by change _ ≤ (pushed graph' _).nodes.size; omega, ?_⟩
    intro id hid
    cases hid
    change _ ∧ _ < (pushed graph' _).nodes.size
    exact ⟨h'.size, by omega⟩

theorem insertFields_adds (typeName : String) : (fields : List (FieldPlan NodePlan)) →
    (row : Row) → {graph : Graph} → base.Extends graph →
    Adds base (insertFields typeName fields row) graph fun p size =>
      ∀ link ∈ p.2, ∀ child ∈ link.targets, base.nodes.size ≤ child ∧ child < size
  | [], _, _, h => .pure h fun _ hlink => nomatch hlink
  | field :: fields, row, graph, h => by
    rw [insertFields]
    refine (insertField_adds typeName field row h).bind ?_
    rintro ⟨row', link⟩ graph' h' - hlink
    refine (insertFields_adds typeName fields row' h').bind ?_
    rintro ⟨row'', links⟩ graph'' h'' hsize hlinks
    refine .pure h'' ?_
    intro link' hlink'
    rcases List.mem_cons.1 hlink' with rfl | hlink'
    · exact fun child hc => ⟨(hlink child hc).1, Nat.lt_of_lt_of_le (hlink child hc).2 hsize⟩
    · exact hlinks link' hlink'

theorem insertField_adds (typeName : String) : (field : FieldPlan NodePlan) → (row : Row) →
    {graph : Graph} → base.Extends graph →
    Adds base (insertField typeName field row) graph fun p size =>
      ∀ child ∈ p.2.targets, base.nodes.size ≤ child ∧ child < size
  | ⟨name, kind, _, _⟩, row, _, h => insertKind_adds typeName name kind row h

theorem insertKind_adds (typeName name : String) : (kind : FieldKind NodePlan) → (row : Row) →
    {graph : Graph} → base.Extends graph →
    Adds base (insertKind typeName name kind row) graph fun p size =>
      ∀ child ∈ p.2.targets, base.nodes.size ≤ child ∧ child < size
  | .value, _, _, h => .pure h fun _ hc => nomatch hc
  | .many _, _, _, h => .pure h fun _ hc => nomatch hc
  | .single plan, row, graph, h => by
    rw [insertKind]
    refine (Adds.lift _ h).bind fun related graph' h' _ _ => ?_
    cases related with
    | none => exact .pure h' fun _ hc => nomatch hc
    | some related =>
      refine (insert_adds plan related h').bind fun id graph'' h'' _ hid => .pure h'' ?_
      intro child hc
      rwa [List.mem_singleton.1 hc]

end

theorem addRows_adds (plan : NodePlan) (rows : List Row) {graph : Graph}
    (h : base.Extends graph) : Adds base (addRows plan rows) graph fun _ _ => True := by
  unfold addRows
  induction rows generalizing graph with
  | nil => exact .pure h trivial
  | cons row rows ih =>
    rw [List.mapM_cons]
    exact (insert_adds plan row h).bind fun _ _ h' _ _ =>
      (ih h').bind fun _ _ h'' _ _ => .pure h'' trivial

theorem addChildren_adds (relation : ManyPlan) (plan : NodePlan) (labels : List String)
    (rows : List Row) {graph : Graph} (h : base.Extends graph) :
    Adds base (addChildren relation plan labels rows) graph fun children size =>
      ∀ child ∈ children, base.nodes.size ≤ child.2 ∧ child.2 < size := by
  induction rows generalizing graph with
  | nil => exact .pure h fun _ hc => nomatch hc
  | cons row rows ih =>
    unfold addChildren
    split
    · exact .throw h
    · next key _ =>
      refine (insert_adds plan row h).bind fun id graph' h' _ hid => ?_
      refine (ih h').bind fun children graph'' h'' hsize hchildren => ?_
      refine .pure h'' ?_
      intro child hc
      rcases List.mem_cons.1 hc with rfl | hc
      · exact ⟨hid.1, Nat.lt_of_lt_of_le hid.2 hsize⟩
      · exact hchildren child hc

end

/-! ### Batches -/

/-- A node is below another one: it is of a later batch, or of the same and was added before. -/
def Below (batch : NodeId → Nat) (child parent : NodeId) : Prop :=
  batch parent < batch child ∨ batch parent = batch child ∧ child < parent

/-- Links lead to nodes that are below, and those who wait or waited are nodes.  The batch of a node
is told by the number of nodes when it began. -/
structure Layered (taken : List Group) (graph : Graph) (batch : NodeId → Nat) : Prop where
  waiting : ∀ group ∈ graph.waiting, group.StandsIn graph
  taken : ∀ group ∈ taken, group.StandsIn graph
  batch_le : ∀ id, batch id ≤ id
  below : ∀ {child parent : NodeId}, graph.Child child parent →
    child < graph.nodes.size ∧ Below batch child parent

/-- The batches once another one begins. -/
def withBatch (batch : NodeId → Nat) (size : Nat) (id : NodeId) : Nat :=
  if id < size then batch id else size

namespace Layered

variable {taken : List Group} {graph graph' : Graph} {batch : NodeId → Nat}

/-- What extends a graph is a batch of its own. -/
theorem extend (h : Layered taken graph batch) (hextends : graph.Extends graph') :
    Layered taken graph' (withBatch batch graph.nodes.size) := by
  constructor
  case waiting => exact hextends.waiting
  case taken => exact fun group hg => (h.taken group hg).mono hextends.size
  case batch_le =>
    intro id
    unfold withBatch
    split
    · exact h.batch_le id
    · next hge => exact Nat.le_of_not_lt hge
  case below =>
    intro child parent hchild
    obtain ⟨node, link, hn, hlink, htarget⟩ := hchild
    unfold Below withBatch
    by_cases hparent : parent < graph.nodes.size
    · rw [hextends.old parent hparent] at hn
      obtain ⟨hlt, hbelow⟩ := h.below ⟨node, link, hn, hlink, htarget⟩
      rw [if_pos hparent, if_pos hlt]
      exact ⟨Nat.lt_of_lt_of_le hlt hextends.size, hbelow⟩
    · obtain ⟨hsize, -⟩ := Array.getElem?_eq_some_iff.1 hn
      obtain ⟨hle, hlt⟩ := hextends.new ⟨node, link, hn, hlink, htarget⟩ (Nat.not_lt.1 hparent)
      rw [if_neg hparent, if_neg (Nat.not_lt.2 hle)]
      exact ⟨Nat.lt_trans hlt hsize, .inr ⟨rfl, hlt⟩⟩

/-- Links can be set that lead to nodes which are below. -/
theorem setLinks (h : Layered taken graph batch) {ids : List NodeId} (field : Nat)
    {link : NodeId → Link} (hlinks : ∀ id ∈ ids, ∀ child ∈ (link id).targets,
      child < graph.nodes.size ∧ Below batch child id) :
    Layered taken (graph.setLinks ids field link) batch := by
  have hstands : ∀ {group : Group}, group.StandsIn graph →
      group.StandsIn (graph.setLinks ids field link) :=
    fun hg => hg.mono (Nat.le_of_eq setLinks_size.symm)
  constructor
  case waiting =>
    rw [setLinks_waiting]
    exact fun group hg => hstands (h.waiting group hg)
  case taken => exact fun group hg => hstands (h.taken group hg)
  case batch_le => exact h.batch_le
  case below =>
    rintro child parent ⟨node', link', hn, hlink, htarget⟩
    rw [setLinks_size]
    rw [setLinks_node, Option.map_eq_some_iff] at hn
    obtain ⟨node, hn, rfl⟩ := hn
    split at hlink
    · next hparent =>
      rcases List.mem_or_eq_of_mem_set hlink with hlink | rfl
      · exact h.below ⟨node, link', hn, hlink, htarget⟩
      · exact hlinks parent hparent child htarget
    · exact h.below ⟨node, link', hn, hlink, htarget⟩

theorem attachNone (h : Layered taken graph batch) (group : Group) :
    Layered taken (graph.attachNone group) batch :=
  attachNone_invariant (P := (Layered taken · batch))
    (fun _ field h => h.setLinks field fun _ _ _ hc => nomatch hc) h

theorem takeWaiting (h : Layered taken graph batch) :
    Layered (taken ++ graph.takeWaiting.1) graph.takeWaiting.2 batch := by
  constructor
  case waiting => exact fun group hg => absurd hg List.not_mem_nil
  case taken =>
    intro group hg
    rcases List.mem_append.1 hg with hg | hg
    · exact h.taken group hg
    · exact h.waiting group hg
  case batch_le => exact h.batch_le
  case below => exact h.below

theorem addRows (h : Layered taken graph batch) (plan : NodePlan) (rows : List Row) :
    Layered taken ((addRows plan rows).on graph).2 (withBatch batch graph.nodes.size) :=
  h.extend (addRows_adds plan rows (.refl h.waiting)).1

/-- The rows of a follow-up are a batch, later than the parents that it is attached to. -/
theorem attach (h : Layered taken graph batch) {group : Group} (hgroup : group ∈ taken)
    (plan : NodePlan) (labels : List String) (pageSize : Option Nat) (rows : List Row) :
    ∃ batch', Layered taken ((attach group plan labels pageSize rows).on graph).2 batch' := by
  unfold Graph.attach
  split
  · exact ⟨batch, h⟩
  · next relation _ =>
    refine ⟨withBatch batch graph.nodes.size, ?_⟩
    obtain ⟨hextends, -, hchildren⟩ :=
      addChildren_adds relation plan labels rows (Extends.refl h.waiting)
    rw [on_bind]
    rcases hadd : (addChildren relation plan labels rows).on graph with ⟨e | children, graph'⟩
    · rw [hadd] at hextends
      exact h.extend hextends
    · rw [hadd] at hextends hchildren
      have hnew := hchildren children rfl
      dsimp only
      split
      · exact h.extend hextends
      · next field _ =>
        refine (h.extend hextends).setLinks field fun parent hparent child hchild => ?_
        have hlisted : ∃ entry ∈ children, entry.2 = child := by
          change child ∈ graph'.childrenOf relation.keyLabels children parent at hchild
          unfold childrenOf at hchild
          split at hchild
          · cases hchild
          · obtain ⟨entry, hentry, hkey⟩ := List.mem_filterMap.1 hchild
            split at hkey
            · exact ⟨entry, hentry, Option.some.inj hkey⟩
            · cases hkey
        obtain ⟨entry, hentry, rfl⟩ := hlisted
        obtain ⟨hle, hlt⟩ := hnew entry hentry
        have hold := h.taken group hgroup parent hparent
        -- The parent was there when the batch began, and the child was not.
        refine ⟨hlt, .inl ?_⟩
        unfold withBatch
        rw [if_pos hold, if_neg (Nat.not_lt.2 hle)]
        exact Nat.lt_of_le_of_lt (h.batch_le parent) hold

end Layered

theorem History.layered {plans : NodePlan → Prop} {graph : Graph} {taken : List Group}
    (h : History plans graph taken) : ∃ batch, Layered taken graph batch := by
  induction h with
  | start =>
    refine ⟨fun _ => 0, fun group hg => ?_, fun group hg => ?_, fun id => Nat.zero_le id, ?_⟩
    · cases hg
    · cases hg
    · rintro child parent ⟨node, link, hn, -⟩
      cases hn
  | addRows rows _ _ ih =>
    obtain ⟨batch, h⟩ := ih
    exact ⟨_, h.addRows _ rows⟩
  | take _ ih =>
    obtain ⟨batch, h⟩ := ih
    exact ⟨batch, h.takeWaiting⟩
  | attach labels pageSize rows _ hgroup _ ih =>
    obtain ⟨batch, h⟩ := ih
    exact h.attach hgroup _ labels pageSize rows
  | attachNone _ _ ih =>
    obtain ⟨batch, h⟩ := ih
    exact ⟨batch, h.attachNone _⟩

end Graph

end ObjectGraph
