import ObjectGraph.Proofs.Graph.Histories
import ObjectGraph.Proofs.Graph.Malformed
import ObjectGraph.Proofs.Graph.Queues
import ObjectGraph.Proofs.Plan.Labels

/-! # What attaching rows changes

Attaching the rows of a follow-up fills one slot of every parent of a group and adds the nodes of
the rows; all else is framed (`Framed`), and the new nodes queue up for their lists, once for each
(`Awaiting`).  That a node is in the queue once is read off the groups as the lists that it is a
parent for (`awaited`): a node that is enqueued is added to what it awaits and to nothing else
(`awaited_enqueueIn`), since no two plans have one place.

`attach_exact` puts this together for plans that are each for a place of its own, as those of a
request are (`requested_identified`), with the rows that make attaching fail. -/

namespace ObjectGraph

namespace Graph

open Plan (NodePlan FieldPlan FieldKind ManyPlan PlannedFor Requested)

/-! ### The queue -/

/-- The lists that a node waits for, each as often as the node is a parent of a group for it. -/
def awaited (groups : List Group) (id : NodeId) : List (NodePlan × Nat) :=
  groups.flatMap fun group => List.replicate (group.parents.count id) (group.plan, group.index)

section

variable {plan : NodePlan} {id other : NodeId} {index : Nat} {indices : List Nat}
  {group : Group} {groups : List Group}

theorem awaited_cons : awaited (group :: groups) id =
    List.replicate (group.parents.count id) (group.plan, group.index) ++ awaited groups id :=
  List.flatMap_cons

theorem awaited_eq_nil (h : ∀ group ∈ groups, id ∉ group.parents) : awaited groups id = [] := by
  unfold awaited
  rw [List.flatMap_eq_nil_iff]
  intro group hg
  rw [List.count_eq_zero.2 (h group hg), List.replicate_zero]

theorem awaited_enqueueIn_of_ne (h : other ≠ id) :
    awaited (enqueueIn plan index id groups) other = awaited groups other := by
  induction groups with
  | nil =>
    refine awaited_eq_nil fun group hg => ?_
    rw [List.mem_singleton.1 hg, List.mem_singleton]
    exact h
  | cons group groups ih =>
    unfold enqueueIn
    split
    · rw [awaited_cons, awaited_cons, List.count_append,
        List.count_eq_zero.2 (List.mem_singleton.not.2 h), Nat.add_zero]
    · rw [awaited_cons, awaited_cons, ih]

/-- A node that is enqueued for a list of its plan awaits one list more. -/
theorem awaited_enqueueIn
    (h : ∀ group ∈ groups, group.plan.origin = plan.origin → group.plan = plan) :
    (awaited (enqueueIn plan index id groups) id).Perm ((plan, index) :: awaited groups id) := by
  induction groups with
  | nil => simp [enqueueIn, awaited]
  | cons group groups ih =>
    unfold enqueueIn
    split
    · next hfor =>
      have hplace := Group.isFor_iff.1 hfor
      have hplan : group.plan = plan := h group List.mem_cons_self (congrArg Prod.fst hplace)
      have hindex : group.index = index := congrArg Prod.snd hplace
      rw [awaited_cons, awaited_cons, List.count_append, List.count_singleton_self,
        List.replicate_succ, hplan, hindex]
      exact .refl _
    · have hrest := ih fun g hg => h g (List.mem_cons_of_mem _ hg)
      rw [awaited_cons, awaited_cons]
      exact (hrest.append_left _).trans List.perm_middle

theorem awaited_enqueueAll_of_ne (h : other ≠ id) :
    awaited (enqueueAll plan id indices groups) other = awaited groups other := by
  induction indices generalizing groups with
  | nil => rfl
  | cons index indices ih => exact ih.trans (awaited_enqueueIn_of_ne h)

theorem awaited_enqueueAll
    (h : ∀ group ∈ groups, group.plan.origin = plan.origin → group.plan = plan) :
    (awaited (enqueueAll plan id indices groups) id).Perm
      (indices.map (plan, ·) ++ awaited groups id) := by
  induction indices generalizing groups with
  | nil => exact .refl _
  | cons index indices ih =>
    have hnext : ∀ group ∈ enqueueIn plan index id groups,
        group.plan.origin = plan.origin → group.plan = plan :=
      enqueueIn_all h (fun group hg _ => h group hg) fun _ => rfl
    have hfirst : (awaited (enqueueIn plan index id groups) id).Perm
        ((plan, index) :: awaited groups id) := awaited_enqueueIn h
    exact ((ih hnext).trans (hfirst.append_left _)).trans List.perm_middle

end

section

variable {nodes : List Node} {groups : List Group}

/-- New nodes leave the places of earlier ones in the queue. -/
theorem awaited_queue_of_lt {size : Nat} {id : NodeId} (h : id < size) :
    awaited (queue nodes size groups) id = awaited groups id := by
  induction nodes generalizing size groups with
  | nil => rfl
  | cons node nodes ih =>
    exact (ih (Nat.lt_succ_of_lt h)).trans (awaited_enqueueAll_of_ne (Nat.ne_of_lt h))

/-- A new node awaits each list of its plan, and what its number awaited before. -/
theorem awaited_queue {plans : NodePlan → Prop} (hplans : Identified plans)
    (hgroups : ∀ group ∈ groups, plans group.plan) (hnodes : ∀ node ∈ nodes, plans node.plan)
    (size : Nat) {k : Nat} {node : Node} (hk : nodes[k]? = some node) :
    (awaited (queue nodes size groups) (size + k)).Perm
      ((manyIndices node.plan).map (node.plan, ·) ++ awaited groups (size + k)) := by
  induction nodes generalizing size groups k with
  | nil => cases hk
  | cons first nodes ih =>
    have hfirst := hnodes first List.mem_cons_self
    unfold queue
    cases k with
    | zero =>
      cases hk
      rw [Nat.add_zero size, awaited_queue_of_lt (Nat.lt_succ_self size)]
      exact awaited_enqueueAll fun group hg => hplans.unique (hgroups group hg) hfirst
    | succ k =>
      have hnext : ∀ group ∈ enqueueAll first.plan size (manyIndices first.plan) groups,
          plans group.plan :=
        enqueueAll_all hgroups (fun _ _ _ hg _ => hg) fun _ _ => hfirst
      have hrest := ih hnext (fun node hn => hnodes node (List.mem_cons_of_mem _ hn)) (size + 1) hk
      have hne : size + (k + 1) ≠ size := by omega
      rw [show size + 1 + k = size + (k + 1) by omega, awaited_enqueueAll_of_ne hne] at hrest
      exact hrest

end

/-! ### Frames -/

/-- A graph has the nodes of another with the same links, except for those of a field of some
nodes, and they wait for what they waited for. -/
structure Framed (graph graph' : Graph) (ids : List NodeId) (field : Nat) : Prop where
  nodes : ∀ (id : NodeId) (node : Node), graph.nodes[id]? = some node →
    ∃ node', graph'.nodes[id]? = some node' ∧ node'.plan = node.plan ∧ node'.row = node.row ∧
      node'.links.length = node.links.length ∧
      ∀ i, id ∉ ids ∨ i ≠ field → node'.links[i]? = node.links[i]?
  waiting : ∀ id < graph.nodes.size, awaited graph'.waiting id = awaited graph.waiting id

/-- A node that a graph has in addition to another waits for each list of its plan, once. -/
def Awaiting (graph graph' : Graph) : Prop :=
  ∀ (id : NodeId) (node : Node), graph.nodes.size ≤ id → graph'.nodes[id]? = some node →
    (awaited graph'.waiting id).Perm ((manyIndices node.plan).map (node.plan, ·)) ∧
      (manyIndices node.plan).Nodup

theorem framed_setLinks (graph : Graph) (nodes : List Node) (ids : List NodeId) (field : Nat)
    (link : NodeId → Link) : Framed graph ((pushAll graph nodes).setLinks ids field link) ids
      field := by
  constructor
  case nodes =>
    intro id node hn
    obtain ⟨hlt, -⟩ := Array.getElem?_eq_some_iff.1 hn
    refine ⟨_, by rw [setLinks_node, node_pushAll, if_pos hlt, hn, Option.map_some], ?_⟩
    split
    · next hid =>
      refine ⟨rfl, rfl, List.length_set, fun i hi => ?_⟩
      exact List.getElem?_set_ne fun heq => hi.elim (· hid) fun hne => hne heq.symm
    · exact ⟨rfl, rfl, rfl, fun _ _ => rfl⟩
  case waiting =>
    intro id hlt
    rw [setLinks_waiting, waiting_pushAll, awaited_queue_of_lt hlt]

/-- The parents of the groups that wait are nodes, so no new node waits twice. -/
theorem awaiting_setLinks {plans : NodePlan → Prop} (hplans : Identified plans)
    (hplanned : ∀ plan, plans plan → ∃ env selections, PlannedFor env selections plan)
    {taken : List Group} {graph : Graph} (h : Coherent plans taken graph) {nodes : List Node}
    (hnodes : ∀ node ∈ nodes, plans node.plan) (ids : List NodeId) (field : Nat)
    (link : NodeId → Link) :
    Awaiting graph ((pushAll graph nodes).setLinks ids field link) := by
  intro id node' hle hn
  rw [setLinks_node, node_pushAll, if_neg (Nat.not_lt.2 hle), Option.map_eq_some_iff] at hn
  obtain ⟨node, hn, rfl⟩ := hn
  have hplan : plans node.plan := hnodes node (List.mem_of_getElem? hn)
  have hold : awaited graph.waiting id = [] := by
    refine awaited_eq_nil fun group hg hid => ?_
    obtain ⟨_, hparent, -⟩ := (h.waiting group hg).2 id hid
    exact Nat.not_lt.2 hle (Array.getElem?_eq_some_iff.1 hparent).1
  have hqueue := awaited_queue hplans (fun group hg => (h.waiting group hg).1.1) hnodes
    graph.nodes.size hn
  rw [Nat.add_sub_cancel' hle, hold, List.append_nil] at hqueue
  obtain ⟨_, _, hp⟩ := hplanned _ hplan
  rw [setLinks_waiting, waiting_pushAll]
  split
  · exact ⟨hqueue, manyIndices_nodup hp⟩
  · exact ⟨hqueue, manyIndices_nodup hp⟩

/-! ### Attaching -/

theorem withKey_sublist {labels : List String} {key : Option String} {rows : List Row}
    {ids : List NodeId} (h : rows.length = ids.length) :
    (withKey labels key rows ids).Sublist ids := by
  have hsub := (List.filter_sublist (p := fun item => rowKey? item.1 labels == key)
    (l := rows.zip ids)).map Prod.snd
  rwa [List.map_snd_zip (Nat.le_of_eq h.symm)] at hsub

/-- A key that is missing is that of no row. -/
theorem withKey_none {labels : List String} {rows : List Row} {ids : List NodeId}
    (h : ∀ row ∈ rows, ∃ key, rowKey? row labels = some key) :
    withKey labels none rows ids = [] := by
  rw [List.eq_nil_iff_forall_not_mem]
  intro id hid
  obtain ⟨i, row, hrow, -, hkey⟩ := mem_withKey.1 hid
  obtain ⟨key, hsome⟩ := h row (List.mem_of_getElem? hrow)
  cases hkey.symm.trans hsome

/-- Once rows are attached, a parent is linked to the nodes of those with its key, in their order
and none of them twice; without a key it is linked to none. -/
structure Filled (graph graph' : Graph) (labels keyLabels : List String) (pageSize : Option Nat)
    (rows : List Row) (field : Nat) (ids : List NodeId) (parent : NodeId) (node node' : Node)
    (children : List NodeId) : Prop where
  before : graph.nodes[parent]? = some node
  after : graph'.nodes[parent]? = some node'
  link : node'.links[field]? = some (.many children pageSize)
  keyed : children = withKey labels (rowKey? node.row keyLabels) rows ids
  nodup : children.Nodup
  keyless : keyValues? node.row keyLabels = none → children = []

section

variable {plans : NodePlan → Prop} {taken : List Group} {graph graph' : Graph} {group : Group}
  {plan : NodePlan} {labels : List String} {pageSize : Option Nat} {rows : List Row}

/-- The list of a group is there, and so is its field. -/
theorem Gathers.list_at
    (hplanned : ∀ plan, plans plan → ∃ env selections, PlannedFor env selections plan)
    (h : Gathers plans graph group) :
    ∃ relation field, group.relation? = some relation ∧ group.field? = some field := by
  obtain ⟨⟨hplan, hindex⟩, -⟩ := h
  obtain ⟨field, hf, hkind⟩ := mem_manyIndices.1 hindex
  obtain ⟨i, hi⟩ := List.getElem?_of_mem hf
  obtain ⟨_, _, hp⟩ := hplanned _ hplan
  obtain ⟨relation, hrelation, -⟩ := hp.many_at hi hkind
  have hsome : group.field?.isSome := by
    unfold Group.field?
    rw [List.findIdx?_isSome, List.any_eq_true]
    exact ⟨field, hf, by simp [hkind, FieldKind.isMany]⟩
  obtain ⟨position, hposition⟩ := Option.isSome_iff_exists.1 hsome
  exact ⟨relation, position, hrelation, hposition⟩

theorem attach_error_iff {relation : ManyPlan} {field : Nat}
    (hrelation : group.relation? = some relation) (hfield : group.field? = some field) :
    (∃ e, (attach group plan labels pageSize rows).result graph = .error e) ↔
      ∃ row ∈ rows,
        (∃ label ∈ labels, ∀ value, row.get? label = some value → value = .null) ∨
          Malformed plan row := by
  rw [attach_result graph hrelation hfield, ← nodesOfRows_error_iff relation graph.nodes.size]
  cases nodesOfRows relation plan labels rows graph.nodes.size with
  | error e => exact iff_of_true ⟨e, rfl⟩ ⟨e, rfl⟩
  | ok p =>
    refine iff_of_false ?_ ?_
    · rintro ⟨_, h⟩
      cases h
    · rintro ⟨_, h⟩
      cases h

theorem Attached.filled (hcoherent : Coherent plans taken graph) (hgroup : group ∈ taken)
    {relation : ManyPlan} {field : Nat} {ids : List NodeId}
    (h : Attached graph graph' group plan labels pageSize rows relation field ids)
    {parent : NodeId} (hparent : parent ∈ group.parents) :
    ∃ node node' children,
      Filled graph graph' labels relation.keyLabels pageSize rows field ids parent node node'
        children := by
  obtain ⟨node, hn, hplan⟩ := (hcoherent.taken group hgroup).2 parent hparent
  have hfield : field < node.links.length := by
    rw [(hcoherent.nodes parent node hn).2, hplan]
    exact (List.findIdx?_eq_some_iff_getElem.1 h.position).1
  refine ⟨node, _, _, hn, h.parents parent hparent node hn, List.getElem?_set_self hfield, rfl,
    (withKey_sublist h.stands.length_eq).nodup h.nodup, fun hnone => ?_⟩
  have hkey : rowKey? node.row relation.keyLabels = none := by
    unfold rowKey?
    rw [hnone, Option.bind_none]
  rw [hkey]
  exact withKey_none h.keyed

/-- The nodes that rows add are of the plans that the rows are for. -/
theorem nodesOfRows_plans (hplans : Identified plans) (hplan : plans plan)
    (hcoherent : Coherent plans taken graph) {relation : ManyPlan} {nodes : List Node}
    {children : List (String × NodeId)}
    (h : nodesOfRows relation plan labels rows graph.nodes.size = .ok (nodes, children)) :
    ∀ node ∈ nodes, plans node.plan := by
  have hresult := addChildren_result graph relation plan labels rows
  rw [h] at hresult
  have hkept := (addChildren_coherent hplans hplan relation labels rows graph hcoherent).1
  rw [on_of_result hresult] at hkept
  intro node hnode
  obtain ⟨k, hk⟩ := List.getElem?_of_mem hnode
  refine (hkept.nodes (graph.nodes.size + k) node ?_).1
  rw [node_pushAll, if_neg (by omega), Nat.add_sub_cancel_left, hk]

end

/-- Let plans come from planning, each for a place of its own.  Attaching rows to the parents of a
group that was taken from a graph of such plans fails exactly if some row has no value under a label
of the key or is malformed.  Otherwise every row has a new node, every parent is linked to the nodes
of the rows with its key, and that is all that happens to the nodes that were there; the new ones
wait once for each of their lists. -/
theorem attach_exact {plans : NodePlan → Prop} (hplans : Identified plans)
    (hplanned : ∀ plan, plans plan → ∃ env selections, PlannedFor env selections plan)
    {graph : Graph} {taken : List Group} (h : History plans graph taken) {group : Group}
    (hgroup : group ∈ taken) {plan : NodePlan} (hplan : plans plan)
    (labels : List String) (pageSize : Option Nat) (rows : List Row) :
    ((∃ e, (attach group plan labels pageSize rows).result graph = .error e) ↔
      ∃ row ∈ rows,
        (∃ label ∈ labels, ∀ value, row.get? label = some value → value = .null) ∨
          Malformed plan row) ∧
    ∀ graph', (attach group plan labels pageSize rows).result graph = .ok ((), graph') →
      ∃ relation field ids,
        Attached graph graph' group plan labels pageSize rows relation field ids ∧
        (∀ id ∈ ids, graph.nodes.size ≤ id) ∧
        (∀ parent ∈ group.parents, ∃ node node' children,
          Filled graph graph' labels relation.keyLabels pageSize rows field ids parent node node'
            children) ∧
        Framed graph graph' group.parents field ∧ Awaiting graph graph' := by
  have hcoherent := h.coherent hplans
  obtain ⟨relation, field, hrelation, hfield⟩ := (hcoherent.taken group hgroup).list_at hplanned
  refine ⟨attach_error_iff hrelation hfield, fun graph' hattach => ?_⟩
  obtain ⟨relation, field, nodes, children, hrelation, hfield, hnodes, rfl⟩ := attach_ok hattach
  have hattached := attached_of_nodesOfRows pageSize hrelation hfield hnodes
  have hplansOf := nodesOfRows_plans hplans hplan hcoherent hnodes
  refine ⟨relation, field, _, hattached, ?_, fun parent hp => hattached.filled hcoherent hgroup hp,
    framed_setLinks _ _ _ _ _, awaiting_setLinks hplans hplanned hcoherent hplansOf _ _ _⟩
  intro id hid
  obtain ⟨child, hchild, rfl⟩ := List.mem_map.1 hid
  obtain ⟨_, -, -, hle, -⟩ := Outcome.forall₂_mem (nodesOfRows_spec hnodes).1.flip hchild
  exact hle

/-! ### The plans of a request -/

/-- The plans of a request come with those of their single related objects, and no two of them are
for one place. -/
theorem requested_identified {env : Plan.Environment} {request : Request}
    {filter : Option Schema.TypeFilter} : Identified (Requested env request filter) := by
  constructor
  case single =>
    rintro plan child field ⟨root, round, hroot, hoccurs⟩ hfield hkind
    obtain ⟨i, hi⟩ := List.getElem?_of_mem hfield
    exact ⟨root, round, hroot, .single hoccurs hi hkind⟩
  case unique =>
    intro plan plan' hplan hplan' horigin
    exact hplan.unique hplan' horigin

/-! ### Two authors, one of them with books -/

namespace Authors

def authorPlan : NodePlan :=
  { origin := [], typeName := "Author"
    fields := [{ name := "name", kind := .value },
      { name := "publisher"
        kind := .single ⟨[1], "Publisher", [{ name := "title", kind := .value }], []⟩ },
      { name := "books", kind := .many 0 }]
    many := [{ field := "books", parentType := "Author", target := "Book"
               selection := [.scalar "title"], keyLabels := ["__key_id"], depth := 2
               paging := none, origin := [2] }] }

def bookPlan : NodePlan :=
  { origin := [2], typeName := "Book", fields := [{ name := "title", kind := .value }], many := [] }

/-- The plans of authors and of their books. -/
def Asked : NodePlan → Prop := Requested Plan.Shelf.environment Plan.Shelf.request none

def publisherField : Schema.Resolved :=
  { mapping := some { source := .relation Plan.Shelf.publisherOf }, field := "publisher" }

def booksField : Schema.Resolved :=
  { mapping := some { source := .relation Plan.Shelf.booksOf }, field := "books" }

theorem authorPlan_eq {root : Plan.Compiled}
    (h : Plan.compileRoot Plan.Shelf.environment Plan.Shelf.request none = .ok root) :
    root.plan = authorPlan := by
  obtain ⟨horigin, htype, mapping, hmapping, hp⟩ := Plan.compileRoot_planned h
  cases hmapping
  have hbooks : Plan.Planned Plan.Shelf.environment ⟨"Author", Plan.Shelf.author, 1, []⟩ 2 0
      [.nested "books" [.scalar "title"]] [{ name := "books", kind := .many 0 }]
      authorPlan.many :=
    @Plan.Planned.many _ _ _ _ _ booksField Plan.Shelf.booksOf _ _ _ _ rfl rfl rfl .nil
  have hpublisher : Plan.Planned Plan.Shelf.environment ⟨"Publisher", {}, 2, [1]⟩ 0 0
      [.scalar "title"] [{ name := "title", kind := .value }] [] :=
    @Plan.Planned.value _ _ _ _ _ { mapping := none, field := "title" } _ _ _ rfl rfl .nil
  have hplanned : Plan.Planned Plan.Shelf.environment ⟨"Author", Plan.Shelf.author, 1, []⟩ 0 0
      Plan.Shelf.request.fields authorPlan.fields authorPlan.many :=
    @Plan.Planned.value _ _ _ _ _ { mapping := none, field := "name" } _ _ _ rfl rfl
      (@Plan.Planned.single _ _ _ _ _ publisherField Plan.Shelf.publisherOf _ _ _ _ _ _ _
        rfl rfl rfl rfl hpublisher hbooks)
  exact hp.plan_eq horigin htype hplanned

theorem bookPlan_eq {m : ManyPlan} (hm : m ∈ authorPlan.many) {keys : List (List Json)}
    {books : Plan.Compiled}
    (h : Plan.compileMany Plan.Shelf.environment m keys = .ok books) : books.plan = bookPlan := by
  cases List.mem_singleton.1 hm
  obtain ⟨horigin, htype, mapping, hmapping, hp⟩ := Plan.compileMany_planned h
  cases hmapping
  have hplanned : Plan.Planned Plan.Shelf.environment ⟨"Book", {}, 2, [2]⟩ 0 0 [.scalar "title"]
      bookPlan.fields bookPlan.many :=
    @Plan.Planned.value _ _ _ _ _ { mapping := none, field := "title" } _ _ _ rfl rfl .nil
  exact hp.plan_eq horigin htype hplanned

theorem asked : Asked authorPlan ∧ Asked bookPlan := by
  obtain ⟨books, hsome⟩ := Option.isSome_iff_exists.1 Plan.Shelf.compiles
  obtain ⟨root, hroot, hsome⟩ := Option.bind_eq_some_iff.1 hsome
  obtain ⟨⟨field, child, m⟩, hfound, hbooks⟩ := Option.bind_eq_some_iff.1 hsome
  have hroot := Outcome.toOption_some.1 hroot
  have hbooks := Outcome.toOption_some.1 hbooks
  obtain ⟨-, -, hm⟩ := Plan.Shelf.packedAndListed_some hfound
  have hauthor := authorPlan_eq hroot
  rw [hauthor] at hm
  have hoccurs : Plan.Occurs Plan.Shelf.environment root.plan 0 authorPlan := hauthor ▸ .root
  refine ⟨⟨root, 0, hroot, hoccurs⟩, root, 1, hroot, ?_⟩
  have hlist : authorPlan.many[0]? = some m := by
    rw [List.mem_singleton.1 hm]
    rfl
  rw [← bookPlan_eq hm hbooks]
  exact .many (i := 2) (j := 0) hoccurs rfl rfl hlist hbooks

def authors : List Row :=
  [[("name", .str "Ann"), ("publisher", .obj [("title", .str "Ink")]),
      ("__key_id", Json.ofNat 1)],
    [("name", .str "Bo"), ("__key_id", .null)]]

def books : List Row :=
  [[("title", .str "Dawn"), ("__pk0", Json.ofNat 1)],
    [("title", .str "Dusk"), ("__pk0", Json.ofNat 1)]]

/-- An author whose publisher is no object. -/
def flagged : Row := [("publisher", .bool true), ("__pk0", Json.ofNat 1)]

/-- The authors, once the group of their books is taken. -/
def shelf : Graph := ((addRows authorPlan authors).on {}).2.takeWaiting.2

def group : Group := ⟨authorPlan, 0, [1, 2]⟩

theorem shelf_history : ∃ taken, History Asked shelf taken ∧ group ∈ taken :=
  ⟨_, .take (.addRows authors .start asked.1), List.mem_singleton_self group⟩

end Authors

open Authors in
/-- The books become those of the author with their key, in their order, and the author without a
key has none; a row that packs a flag for a publisher cannot be attached. -/
theorem attach_exact_authors :
    (∃ e, (attach group authorPlan ["__pk0"] none [flagged]).result shelf = .error e) ∧
    ∃ graph' ids node node',
      (attach group bookPlan ["__pk0"] (some 2) books).result shelf = .ok ((), graph') ∧
        ids.length = 2 ∧ graph'.nodes[1]? = some node ∧ graph'.nodes[2]? = some node' ∧
        node.links[2]? = some (.many ids (some 2)) ∧
        node'.links[2]? = some (.many [] (some 2)) := by
  obtain ⟨taken, hhistory, hgroup⟩ := shelf_history
  have hplanned : ∀ plan, Asked plan → ∃ env selections, PlannedFor env selections plan :=
    fun _ hp => ⟨_, hp.plannedFor⟩
  obtain ⟨hfails, -⟩ :=
    attach_exact requested_identified hplanned hhistory hgroup asked.1 ["__pk0"] none [flagged]
  obtain ⟨-, hattached⟩ :=
    attach_exact requested_identified hplanned hhistory hgroup asked.2 ["__pk0"] (some 2) books
  constructor
  · refine hfails.2 ⟨flagged, List.mem_singleton_self _, .inr ?_⟩
    have hplan : packedPlan? authorPlan.fields "publisher" =
        some ⟨[1], "Publisher", [{ name := "title", kind := .value }], []⟩ := rfl
    exact .packs hplan rfl (.value nofun nofun)
  · obtain ⟨graph', hresult⟩ : ∃ graph',
        (attach group bookPlan ["__pk0"] (some 2) books).result shelf = .ok ((), graph') :=
      ⟨_, rfl⟩
    obtain ⟨relation, field, ids, hlist, -, hfilled, -, -⟩ := hattached graph' hresult
    cases hlist.list
    cases hlist.position
    have hlength : ids.length = 2 := hlist.stands.length_eq.symm
    obtain ⟨ann, ann', children, hann⟩ := hfilled 1 (by decide)
    obtain ⟨bo, bo', others, hbo⟩ := hfilled 2 (by decide)
    cases hann.before
    cases hbo.before
    have hchildren : children = ids := by
      obtain ⟨first, second, rfl⟩ := List.length_eq_two.1 hlength
      exact hann.keyed.trans rfl
    have hothers : others = [] := hbo.keyless rfl
    exact ⟨graph', ids, ann', bo', hresult, hlength, hann.after, hbo.after, hchildren ▸ hann.link,
      hothers ▸ hbo.link⟩

end Graph

end ObjectGraph
