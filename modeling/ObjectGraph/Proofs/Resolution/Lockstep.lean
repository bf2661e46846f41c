import ObjectGraph.Proofs.Graph.Mirrors
import ObjectGraph.Proofs.Resolution.Termination

/-! # Rounds side by side

A request and one whose selection thins that of the first go through their rounds side by side, as
long as the storage of each answers alike for lists that stand for each other (`FetchesAlike`).  In
every phase of a round the second request goes ahead and the first follows: the groups are planned
(`planGroups_twin`), their statements are issued (`fetchGroups_twin`), and the rows are attached
(`attachAll_twin`).  A group of a dropped list comes after the one that it copies, so that what it
needs is there. -/

namespace ObjectGraph

namespace Resolution

open ObjectGraph.Graph (Group Link Node NodeId GroupTwin Mirrors Settles setLinks)
open Outcome (Same)
open Plan (Environment Compiled NodePlan ManyPlan FieldPlan PlannedFor ManyTwin Stands)

variable {env : Environment} {repeatable : Schema.Resolved → Prop} {R : NodeId → NodeId → Prop}
  {root root' : NodePlan} {selections selections' : List Selection} {round : Nat} {g g' : Graph}
  {group group' : Group}

/-! ### Groups that are still to be served -/

/-- The lists of a group are pending. -/
structure Open (g : Graph) (group : Group) (i : Nat) : Prop where
  listField : ListField group i
  parents : ∀ id ∈ group.parents, ∃ node, g.nodes[id]? = some node ∧ node.plan = group.plan ∧
    node.links[i]? = some .pending

theorem Kept.open_at (hroot : PlannedFor env selections root) (pre : List Group) {post : List Group}
    (h : Kept env root round (pre ++ group :: post) g) :
    (∃ i, Open g group i) ∧ ∃ r, Grouped env root r g group := by
  obtain ⟨sources, h⟩ := h
  have hmem : group ∈ pre ++ group :: post := List.mem_append_right _ List.mem_cons_self
  obtain ⟨r, -, hgroup⟩ := h.todo_grouped group hmem
  obtain ⟨i, m, hs⟩ := hgroup.served hroot
  refine ⟨⟨i, hs.listField, fun id hid => ?_⟩, r, hgroup⟩
  obtain ⟨node, hn, hp⟩ := hgroup.parents id hid
  obtain ⟨source, hsource⟩ := h.source hn
  obtain ⟨field, hf, hk⟩ := hs.listField.field
  rw [← hp] at hf
  obtain ⟨link, -, hl, -⟩ := (h.placed hn hsource).linked hf
  have hpending := h.todo_open group hmem ⟨hn, ⟨field, hf, hk⟩, hl⟩ hp
  exact ⟨node, hn, hp, hpending ▸ hl⟩

theorem Grouped.listed {m : ManyPlan} {r : Nat} (h : Grouped env root r g group)
    (hm : group.relation? = some m) : Plan.Listed env root m := by
  obtain ⟨i, field, m', hi, hk, hm'⟩ := h.list
  cases hm.symm.trans hm'
  exact ⟨r, i, _, _, field, h.occurs, hi, hk, hm'⟩

theorem Open.plan {i : Nat} (h : Open g group i) :
    ∀ id ∈ group.parents, ∀ node, g.nodes[id]? = some node → node.plan = group.plan := by
  intro id hid node hn
  obtain ⟨node', hn', hp, -⟩ := h.parents id hid
  cases hn.symm.trans hn'
  exact hp

theorem Open.settles {i : Nat} (h : Open g group i) (link : NodeId → Link) :
    Settles g (setLinks g group.parents i link) := by
  refine Graph.settles_setLinks fun id hid node old hn hl => ?_
  obtain ⟨node', hn', -, hl'⟩ := h.parents id hid
  cases hn.symm.trans hn'
  cases hl.symm.trans hl'
  rfl

/-- The parents of a group have links at a position. -/
def LinkedTo (g : Graph) (group : Group) (i : Nat) (link : NodeId → Link) : Prop :=
  ∀ id ∈ group.parents, ∃ node, g.nodes[id]? = some node ∧ node.plan = group.plan ∧
    node.links[i]? = some (link id)

theorem Open.linkedTo {i : Nat} (h : Open g group i) (link : NodeId → Link) :
    LinkedTo (setLinks g group.parents i link) group i link := by
  intro id hid
  obtain ⟨node, hn, hp, hl⟩ := h.parents id hid
  obtain ⟨hlt, -⟩ := List.getElem?_eq_some_iff.1 hl
  refine ⟨{ node with links := node.links.set i (link id) }, ?_, hp, ?_⟩
  · rw [Graph.setLinks_node, hn, Option.map_some, if_pos hid]
  · rw [List.getElem?_set, if_pos rfl, if_pos hlt]

theorem LinkedTo.settles {i : Nat} {link : NodeId → Link} (h : LinkedTo g group i link)
    (hs : Settles g g') (hlink : ∀ id, link id ≠ .pending) : LinkedTo g' group i link := by
  intro id hid
  obtain ⟨node, hn, hp, hl⟩ := h id hid
  obtain ⟨node', hn', hb⟩ := hs id node hn
  obtain ⟨link', hl', heq⟩ := hb.links hl
  refine ⟨node', hn', hb.plan.symm.trans hp, ?_⟩
  rw [hl', heq.resolve_right (hlink id)]

theorem LinkedTo.congr {i : Nat} {link link' : NodeId → Link} (h : LinkedTo g group i link)
    (hlink : ∀ id ∈ group.parents, link id = link' id) : LinkedTo g group i link' := by
  intro id hid
  rw [← hlink id hid]
  exact h id hid

/-- The graph of the first request follows where the parents of a group lead to. -/
theorem Mirrors.follow (h : Mirrors env repeatable R g g')
    (hgroup : GroupTwin env repeatable R group group') {i i' : Nat} (hopen : Open g group i)
    (hfield : ListField group' i') {link link' : NodeId → Link}
    (hlinked : LinkedTo g' group' i' link')
    (hlink : ∀ id id', R id id' → Graph.LinkTwin R (link id) (link' id')) :
    Mirrors env repeatable R (setLinks g group.parents i link) g' := by
  obtain ⟨a, a', field, field', hs, hf, hk, hf', hk'⟩ := hgroup.list
  rw [hopen.listField.unique a field hf hk, hfield.unique a' field' hf' hk'] at hs
  refine h.setLinks hgroup hopen.plan ?_ hs ?_ hlink
  · intro id hid node hn
    obtain ⟨node', hn', hp, -⟩ := hlinked id hid
    cases hn.symm.trans hn'
    exact hp
  · intro id hid node hn
    obtain ⟨node', hn', -, hl⟩ := hlinked id hid
    cases hn.symm.trans hn'
    exact hl

theorem parentKeys_setLinks {ids : List NodeId} {i : Nat} {link : NodeId → Link} :
    (setLinks g ids i link).parentKeys group = g.parentKeys group := by
  unfold Graph.parentKeys
  have hrow : ∀ (labels : List String) (id : NodeId),
      ((setLinks g ids i link).nodes[id]?).bind (fun node => Graph.keyValues? node.row labels) =
        (g.nodes[id]?).bind fun node => Graph.keyValues? node.row labels := by
    intro labels id
    rw [Graph.setLinks_node]
    cases g.nodes[id]? with
    | none => rfl
    | some node =>
      simp only [Option.map_some, Option.bind_some]
      split <;> rfl
  simp only [hrow]

/-! ### Planning -/

variable {storage storage' : Storage}

/-- Follow-ups of lists that stand for each other are refused alike or answered alike. -/
def FetchesAlike (env : Environment) (repeatable : Schema.Resolved → Prop) (root root' : NodePlan)
    (storage storage' : Storage) : Prop :=
  ∀ (m m' : ManyPlan) (keys : List (List Json)), Plan.Listed env root m → Plan.Listed env root' m' →
    ManyTwin env repeatable m m' →
    Same (fun compiled compiled' => ∀ log log',
        storage.answer log compiled.statement = storage'.answer log' compiled'.statement)
      (Plan.compileMany env m keys) (Plan.compileMany env m' keys)

/-- Groups for lists that stand for each other, planned with follow-ups that are answered alike. -/
structure PlannedTwin (env : Environment) (repeatable : Schema.Resolved → Prop)
    (storage storage' : Storage) (R : NodeId → NodeId → Prop) (planned planned' : Planned) :
    Prop where
  group : GroupTwin env repeatable R planned.group planned'.group
  asked : Asked env planned
  asked' : Asked env planned'
  plan : Plan.Twin env repeatable planned.compiled.plan planned'.compiled.plan
  labels : planned.compiled.partitionLabels = planned'.compiled.partitionLabels
  pageSize : planned.compiled.pageSize = planned'.compiled.pageSize
  answers : ∀ log log',
    storage.answer log planned.statement = storage'.answer log' planned'.statement

theorem PlannedTwin.of_compiled {m m' : ManyPlan} {keys : List (List Json)}
    {compiled compiled' : Compiled} (hgroup : GroupTwin env repeatable R group group')
    (hrelation : group.relation? = some m) (hrelation' : group'.relation? = some m')
    (hm : ManyTwin env repeatable m m') (hc : Plan.compileMany env m keys = .ok compiled)
    (hc' : Plan.compileMany env m' keys = .ok compiled')
    (hanswers : ∀ log log',
      storage.answer log compiled.statement = storage'.answer log' compiled'.statement) :
    PlannedTwin env repeatable storage storage' R ⟨group, compiled⟩ ⟨group', compiled'⟩ := by
  obtain ⟨hlabels, hsize⟩ :=
    Plan.compileMany_labels hm.field hm.parentType hm.target hm.paging hc hc'
  exact ⟨hgroup, ⟨m, keys, hrelation, hc⟩, ⟨m', keys, hrelation', hc'⟩,
    Plan.compileMany_twin hm hc hc', hlabels, hsize, hanswers⟩

/-- A group was given empty lists or is planned. -/
def Handled (env : Environment) (root : NodePlan) (g : Graph) (seen : List Planned)
    (group : Group) : Prop :=
  (g.parentKeys group = [] ∧ ∃ i, ListField group i ∧ LinkedTo g group i fun _ => .many [] none) ∨
    g.parentKeys group ≠ [] ∧ ∃ planned ∈ seen, planned.group = group ∧
      ∃ m, group.relation? = some m ∧ Plan.Listed env root m ∧
        Plan.compileMany env m (g.parentKeys group) = .ok planned.compiled

theorem Handled.setLinks {seen : List Planned} {ids : List NodeId} {i : Nat} {link : NodeId → Link}
    (h : Handled env root g seen group) (hs : Settles g (setLinks g ids i link)) :
    Handled env root (setLinks g ids i link) seen group := by
  unfold Handled
  rw [parentKeys_setLinks]
  rcases h with ⟨hkeys, k, hk, hlinked⟩ | h
  · exact .inl ⟨hkeys, k, hk, hlinked.settles hs fun _ => nofun⟩
  · exact .inr h

theorem Handled.attachNone {seen : List Planned} {other : Group} {i : Nat}
    (h : Handled env root g seen group) (hopen : Open g other i) :
    Handled env root (g.attachNone other) seen group := by
  rw [hopen.listField.attachNone]
  exact h.setLinks (hopen.settles _)

/-- A group without keys is given empty lists. -/
theorem Open.handled {seen : List Planned} {i : Nat} (h : Open g group i)
    (hkeys : g.parentKeys group = []) : Handled env root (g.attachNone group) seen group := by
  rw [h.listField.attachNone]
  exact .inl ⟨parentKeys_setLinks.trans hkeys, i, h.listField, h.linkedTo _⟩

theorem Handled.mono {seen seen' : List Planned} (h : Handled env root g seen group)
    (hseen : seen ⊆ seen') : Handled env root g seen' group := by
  rcases h with h | ⟨hne, planned, hp, h⟩
  · exact .inl h
  · exact .inr ⟨hne, planned, hseen hp, h⟩

theorem Kept.attachNone (hroot : PlannedFor env selections root) (horigin : root.origin = [])
    {pre post : List Group} (h : Kept env root round (pre ++ group :: post) g)
    (hkeys : g.parentKeys group = []) : Kept env root round (pre ++ post) (g.attachNone group) := by
  obtain ⟨sources, h⟩ := h
  exact ⟨sources, (attachNone_ledger hroot horigin h hkeys).1⟩

theorem Open.waiting_attachNone {i : Nat} (h : Open g group i) :
    (g.attachNone group).waiting = g.waiting := by
  rw [h.listField.attachNone]
  exact Graph.setLinks_waiting

/-- The first graph gives a group empty lists once the second has done so. -/
theorem Mirrors.attachNone (h : Mirrors env repeatable R g g')
    (hgroup : GroupTwin env repeatable R group group') {i i' : Nat} (hopen : Open g group i)
    (hfield : ListField group' i') (hlinked : LinkedTo g' group' i' fun _ => .many [] none) :
    Mirrors env repeatable R (g.attachNone group) g' := by
  rw [hopen.listField.attachNone]
  exact Mirrors.follow h hgroup hopen hfield hlinked fun _ _ _ => .many .nil

/-- Both graphs give a group empty lists. -/
theorem Mirrors.attachNone_both (h : Mirrors env repeatable R g g')
    (hgroup : GroupTwin env repeatable R group group') {i i' : Nat} (hopen : Open g group i)
    (hopen' : Open g' group' i') :
    Mirrors env repeatable R (g.attachNone group) (g'.attachNone group') := by
  rw [hopen'.listField.attachNone]
  exact Mirrors.attachNone (h.settles (hopen'.settles _)) hgroup hopen hopen'.listField
    (hopen'.linkedTo _)

/-- What planning the groups of both requests comes to. -/
structure PlanningTwin (env : Environment) (repeatable : Schema.Resolved → Prop)
    (storage storage' : Storage) (R : NodeId → NodeId → Prop) (seen : List Planned)
    (waiting waiting' : List Group) (p p' : List Planned × Graph) : Prop where
  planned : Copies (PlannedTwin env repeatable storage storage' R) seen p.1 p'.1
  mirrors : Mirrors env repeatable R p.2 p'.2
  waiting : p.2.waiting = waiting
  waiting' : p'.2.waiting = waiting'

section

variable (hroot : PlannedFor env selections root) (horigin : root.origin = [])
  (hroot' : PlannedFor env selections' root') (horigin' : root'.origin = [])
  (halike : FetchesAlike env repeatable root root' storage storage')

include hroot horigin hroot' horigin' halike

/-- Groups and their counterparts are planned alike. -/
theorem planGroups_twin {groups groups' seen : List Group} {seenPlanned : List Planned}
    (pre pre' : List Group)
    (hgroups : Copies (GroupTwin env repeatable R) seen groups groups')
    (hmirrors : Mirrors env repeatable R g g')
    (hkept : Kept env root round (pre ++ groups) g)
    (hkept' : Kept env root' round (pre' ++ groups') g')
    (hseen : ∀ group ∈ seen, Handled env root' g' seenPlanned group) :
    Same (PlanningTwin env repeatable storage storage' R seenPlanned g.waiting g'.waiting)
      (planGroups env groups g) (planGroups env groups' g') := by
  induction hgroups generalizing g g' seenPlanned pre pre' with
  | nil => exact .ok ⟨.nil, hmirrors, rfl, rfl⟩
  | @keep seen groups' groups group group' hgroup _ ih =>
    obtain ⟨⟨i, hopen⟩, r, hgrouped⟩ := hkept.open_at hroot pre
    obtain ⟨⟨i', hopen'⟩, r', hgrouped'⟩ := hkept'.open_at hroot' pre'
    obtain ⟨m, m', hrelation, hrelation', hm⟩ := hgroup.relations
    have hkeys := hmirrors.parentKeys hgroup hrelation hrelation' hm
    by_cases hk : g'.parentKeys group' = []
    · have hrest := ih pre pre' (Mirrors.attachNone_both hmirrors hgroup hopen hopen')
        (hkept.attachNone hroot horigin (hkeys.trans hk))
        (hkept'.attachNone hroot' horigin' hk) (List.forall_mem_append.2
          ⟨fun other ho => (hseen other ho).attachNone hopen',
            List.forall_mem_singleton.2 (hopen'.handled hk)⟩)
      rw [hopen.waiting_attachNone, hopen'.waiting_attachNone] at hrest
      rw [planGroups_cons_none hrelation (hkeys.trans hk), planGroups_cons_none hrelation' hk]
      exact hrest
    · have hlisted : Plan.Listed env root m := hgrouped.listed hrelation
      have hlisted' : Plan.Listed env root' m' := hgrouped'.listed hrelation'
      rw [planGroups_cons_some hrelation (hkeys ▸ hk), planGroups_cons_some hrelation' hk, hkeys]
      refine (halike m m' _ hlisted hlisted' hm).with_ok.mapError.bind ?_
      rintro compiled compiled' ⟨hanswers, hc, hc'⟩
      rw [List.append_cons] at hkept hkept'
      have hplanned : Handled env root' g' (seenPlanned ++ [⟨group', compiled'⟩]) group' :=
        .inr ⟨hk, _, List.mem_append_right _ (List.mem_singleton_self _), rfl, m', hrelation',
          hlisted', hc'⟩
      have hseen' : ∀ other ∈ seen ++ [group'],
          Handled env root' g' (seenPlanned ++ [⟨group', compiled'⟩]) other :=
        List.forall_mem_append.2 ⟨fun other ho => (hseen other ho).mono
          (List.subset_append_left _ _), List.forall_mem_singleton.2 hplanned⟩
      refine (ih (pre ++ [group]) (pre' ++ [group']) hmirrors hkept hkept' hseen').map
        fun p p' hp => ⟨.keep ?_ hp.planned, hp.mirrors, hp.waiting, hp.waiting'⟩
      exact PlannedTwin.of_compiled hgroup hrelation hrelation' hm hc hc' hanswers
  | @again seen groups' groups group group' hmem hgroup _ ih =>
    obtain ⟨⟨i, hopen⟩, r, hgrouped⟩ := hkept.open_at hroot pre
    obtain ⟨m, m', hrelation, hrelation', hm⟩ := hgroup.relations
    have hkeys := hmirrors.parentKeys hgroup hrelation hrelation' hm
    rcases hseen group' hmem with ⟨hk, i', hfield', hlinked⟩ |
      ⟨hk, planned', hp, rfl, m₂, hrelation₂, hlisted', hc'⟩
    · have hrest := ih pre pre' (Mirrors.attachNone hmirrors hgroup hopen hfield' hlinked)
        (hkept.attachNone hroot horigin (hkeys.trans hk)) hkept' hseen
      rw [hopen.waiting_attachNone] at hrest
      rw [planGroups_cons_none hrelation (hkeys.trans hk)]
      exact hrest
    · cases hrelation'.symm.trans hrelation₂
      obtain ⟨compiled, hc, hanswers⟩ :=
        (halike m m' _ (hgrouped.listed hrelation) hlisted' hm).ok_of_right hc'
      rw [planGroups_cons_some hrelation (hkeys ▸ hk), hkeys, hc]
      rw [List.append_cons] at hkept
      refine (ih (pre ++ [group]) pre' hmirrors hkept hkept' hseen).map_left fun p p' hp =>
        ⟨.again ‹_› ?_ hp.planned, hp.mirrors, hp.waiting, hp.waiting'⟩
      exact PlannedTwin.of_compiled hgroup hrelation hrelation' hm hc hc' hanswers

end

/-! ### Fetching -/

/-- Groups for lists that stand for each other, with the same rows. -/
structure FetchedTwin (env : Environment) (repeatable : Schema.Resolved → Prop)
    (storage storage' : Storage) (R : NodeId → NodeId → Prop) (fetched fetched' : Fetched) :
    Prop where
  planned : PlannedTwin env repeatable storage storage' R fetched.planned fetched'.planned
  rows : fetched.rows = fetched'.rows

theorem fetchGroups_cons (first : Planned) (planned : List Planned) (log : List Sql.Statement) :
    (((first :: planned).mapM fetchGroup : Session Fault _) storage log).1 =
      (storage.answer log first.statement).mapError Fault.storage >>= fun rows =>
        ((planned.mapM fetchGroup : Session Fault _) storage (log ++ [first.statement])).1.map
          fun fetched => ⟨first, rows⟩ :: fetched := by
  rw [List.mapM_cons, Session.bind_apply, fetchGroup_apply]
  cases storage.answer log first.statement with
  | error e => rfl
  | ok rows =>
    change ((planned.mapM fetchGroup >>= _ : Session Fault _) storage _).1 = _
    rw [Session.bind_apply]
    change _ = ((planned.mapM fetchGroup : Session Fault _) storage
      (log ++ [first.statement])).1.map _
    rcases (planned.mapM fetchGroup : Session Fault _) storage (log ++ [first.statement]) with
      ⟨_ | _, _⟩ <;> rfl

/-- Groups and their counterparts are fetched alike. -/
theorem fetchGroups_twin {planned planned' seen : List Planned} {seenFetched : List Fetched}
    (h : Copies (PlannedTwin env repeatable storage storage' R) seen planned planned')
    (hseen : ∀ p ∈ seen, ∃ f ∈ seenFetched, f.planned = p ∧
      ∀ log, storage'.answer log p.statement = .ok f.rows) (log log' : List Sql.Statement) :
    Same (Copies (FetchedTwin env repeatable storage storage' R) seenFetched)
      ((planned.mapM fetchGroup : Session Fault _) storage log).1
      ((planned'.mapM fetchGroup : Session Fault _) storage' log').1 := by
  induction h generalizing seenFetched log log' with
  | nil => exact .ok .nil
  | @keep seen planned' planned first first' hfirst _ ih =>
    have hanswer : ∀ log',
        storage'.answer log' first'.statement = storage.answer log first.statement :=
      fun log' => (hfirst.answers log log').symm
    rw [fetchGroups_cons, fetchGroups_cons, hanswer]
    cases hrows : storage.answer log first.statement with
    | error e => exact .error _
    | ok rows =>
      have hseen' : ∀ p ∈ seen ++ [first'], ∃ f ∈ seenFetched ++ [⟨first', rows⟩], f.planned = p ∧
          ∀ log, storage'.answer log p.statement = .ok f.rows := by
        refine List.forall_mem_append.2 ⟨fun p hp => ?_, List.forall_mem_singleton.2 ?_⟩
        · obtain ⟨f, hf, hplanned⟩ := hseen p hp
          exact ⟨f, List.mem_append_left _ hf, hplanned⟩
        · exact ⟨_, List.mem_append_right _ (List.mem_singleton_self _), rfl,
            fun log' => (hanswer log').trans hrows⟩
      exact (ih hseen' _ _).map fun fs fs' hfs => .keep ⟨hfirst, rfl⟩ hfs
  | @again seen planned' planned first first' hmem hfirst _ ih =>
    obtain ⟨f, hf, rfl, hrows⟩ := hseen first' hmem
    rw [fetchGroups_cons, hfirst.answers log log', hrows]
    exact (ih hseen _ _).map_left fun fs fs' hfs => .again hf ⟨hfirst, rfl⟩ hfs

/-! ### Attaching -/

section

variable {m : ManyPlan} {plan : NodePlan} {labels : List String} {rows : List Row} {start : Nat}
  {nodes : List Node} {children : List (String × NodeId)}
  (hunpacked : Graph.nodesOfRows m plan labels rows start = .ok (nodes, children))

include hunpacked

/-- The groups that queue up for the nodes of unpacked rows come from their plan. -/
theorem within_queue : ∀ group ∈ Graph.queue nodes start [], Plan.Within plan group.plan := by
  intro group hg
  rcases Graph.queue_origins hg with ⟨_, ho, -⟩ | ⟨node, hnode, hplan⟩
  · cases ho
  · rw [hplan]
    exact within_nodesOfRows hunpacked _ hnode

/-- The groups for the nodes of unpacked rows queue up behind those of other places. -/
theorem queue_unpacked {groups : List Group} (hfresh : ∀ other, Plan.Within plan other →
      ∀ group ∈ groups, group.plan.origin ≠ other.origin) :
    Graph.queue nodes start groups = groups ++ Graph.queue nodes start [] :=
  Graph.queue_fresh fun group hg _ hn => hfresh _ (within_nodesOfRows hunpacked _ hn) group hg

end

/-- Groups of a plan have queued up behind those that wait. -/
structure Grew (plan : NodePlan) (g g₁ : Graph) (groups : List Group) : Prop where
  waiting : g₁.waiting = g.waiting ++ groups
  within : ∀ group ∈ groups, Plan.Within plan group.plan

/-- The rows of a group are attached: their nodes are there and have queued up, and the parents are
linked to theirs. -/
structure Attached (g : Graph) (fetched : Fetched) (m : ManyPlan) (i start : Nat)
    (nodes : List Node) (children : List (String × NodeId)) : Prop where
  relation : fetched.planned.group.relation? = some m
  listField : ListField fetched.planned.group i
  unpacked : Graph.nodesOfRows m fetched.planned.compiled.plan
    fetched.planned.compiled.partitionLabels fetched.rows start = .ok (nodes, children)
  block : Graph.HasBlock g start nodes
  linked : LinkedTo g fetched.planned.group i fun id =>
    .many (g.childrenOf m.keyLabels children id) fetched.planned.compiled.pageSize
  queued : Graph.queue nodes start [] ⊆ g.waiting

theorem Attached.settles {fetched : Fetched} {m : ManyPlan} {i start : Nat} {nodes : List Node}
    {children : List (String × NodeId)} (h : Attached g fetched m i start nodes children)
    (hs : Settles g g') (hwaiting : g.waiting ⊆ g'.waiting) :
    Attached g' fetched m i start nodes children := by
  refine ⟨h.relation, h.listField, h.unpacked, h.block.settles hs,
    (h.linked.settles hs fun _ => nofun).congr fun id hid => ?_,
    List.Subset.trans h.queued hwaiting⟩
  obtain ⟨node, hn, -⟩ := h.linked id hid
  simp only [hs.childrenOf hn]

/-- The rows of a group are attached. -/
def Arrived (g : Graph) (f : Fetched) : Prop :=
  ∃ m i start nodes children, Attached g f m i start nodes children

theorem Arrived.settles {f : Fetched} (h : Arrived g f) (hs : Settles g g')
    (hwaiting : g.waiting ⊆ g'.waiting) : Arrived g' f := by
  obtain ⟨m, i, start, nodes, children, hattached⟩ := h
  exact ⟨m, i, start, nodes, children, hattached.settles hs hwaiting⟩

theorem Fetched.attach_result {fetched : Fetched} {m : ManyPlan} {i : Nat}
    (hrelation : fetched.planned.group.relation? = some m)
    (hfield : ListField fetched.planned.group i) (g : Graph) :
    fetched.attach.result g =
      (Graph.nodesOfRows m fetched.planned.compiled.plan
        fetched.planned.compiled.partitionLabels fetched.rows g.nodes.size).map fun p =>
        ((), (Graph.pushAll g p.1).setLinks fetched.planned.group.parents i fun parent =>
          .many ((Graph.pushAll g p.1).childrenOf m.keyLabels p.2 parent)
            fetched.planned.compiled.pageSize) :=
  Graph.attach_result g hrelation hfield.field? _ _ _ _

theorem Open.pushAll {i : Nat} (h : Open g group i) (nodes : List Node) :
    Open (Graph.pushAll g nodes) group i := by
  refine ⟨h.listField, fun id hid => ?_⟩
  obtain ⟨node, hn, hp, hl⟩ := h.parents id hid
  obtain ⟨hlt, -⟩ := Array.getElem?_eq_some_iff.1 hn
  refine ⟨node, ?_, hp, hl⟩
  rw [Graph.node_pushAll, if_pos hlt, hn]

/-- The second graph goes ahead. -/
theorem attach_ahead {fetched : Fetched} {m : ManyPlan} {i : Nat} {nodes : List Node}
    {children : List (String × NodeId)} (hopen : Open g fetched.planned.group i)
    (hrelation : fetched.planned.group.relation? = some m)
    (hunpacked : Graph.nodesOfRows m fetched.planned.compiled.plan
      fetched.planned.compiled.partitionLabels fetched.rows g.nodes.size = .ok (nodes, children))
    (hfresh : ∀ plan, Plan.Within fetched.planned.compiled.plan plan →
      ∀ group ∈ g.waiting, group.plan.origin ≠ plan.origin) :
    ∃ g₁, fetched.attach.result g = .ok ((), g₁) ∧ Settles g g₁ ∧
      Grew fetched.planned.compiled.plan g g₁ (Graph.queue nodes g.nodes.size []) ∧
      Attached g₁ fetched m i g.nodes.size nodes children := by
  have hopen₁ := hopen.pushAll nodes
  have hsettles := hopen₁.settles fun id =>
    .many ((Graph.pushAll g nodes).childrenOf m.keyLabels children id)
      fetched.planned.compiled.pageSize
  have hwaiting := Graph.waiting_pushAll g nodes
  rw [queue_unpacked hunpacked hfresh] at hwaiting
  refine ⟨_, ?_, Graph.settles_pushAll.trans hsettles, ⟨?_, within_queue hunpacked⟩, hrelation,
    hopen.listField, hunpacked, Graph.hasBlock_pushAll.settles hsettles, ?_, ?_⟩
  · rw [Fetched.attach_result hrelation hopen.listField, hunpacked]
    rfl
  · rw [Graph.setLinks_waiting, hwaiting]
  · refine (hopen₁.linkedTo _).congr fun id hid => ?_
    obtain ⟨node, hn, -⟩ := hopen₁.parents id hid
    simp only [hsettles.childrenOf hn]
  · rw [Graph.setLinks_waiting, hwaiting]
    exact List.subset_append_right _ _

section

variable {R' : NodeId → NodeId → Prop}

theorem FetchedTwin.mono {fetched fetched' : Fetched}
    (h : FetchedTwin env repeatable storage storage' R fetched fetched')
    (hR : ∀ id id', R id id' → R' id id') :
    FetchedTwin env repeatable storage storage' R' fetched fetched' :=
  ⟨{ h.planned with group := h.planned.group.mono hR }, h.rows⟩

/-- The first graph follows. -/
theorem attach_follows {fetched fetched' : Fetched} {m' : ManyPlan} {i i' start : Nat}
    {nodes' : List Node} {children' : List (String × NodeId)}
    (hattached : Attached g' fetched' m' i' start nodes' children')
    (hfetched : FetchedTwin env repeatable storage storage' R fetched fetched')
    (hmirrors : Mirrors env repeatable R g g') (hopen : Open g fetched.planned.group i)
    (hfresh : ∀ plan, Plan.Within fetched.planned.compiled.plan plan →
      ∀ group ∈ g.waiting, group.plan.origin ≠ plan.origin) :
    ∃ g₁ R' groups, (∀ id id', R id id' → R' id id') ∧ fetched.attach.result g = .ok ((), g₁) ∧
      Mirrors env repeatable R' g₁ g' ∧ Grew fetched.planned.compiled.plan g g₁ groups ∧
      Copies (GroupTwin env repeatable R') [] groups (Graph.queue nodes' start []) := by
  have hgroup := hfetched.planned.group
  obtain ⟨m, m₂, hrelation, hrelation', hm⟩ := hgroup.relations
  cases hrelation'.symm.trans hattached.relation
  have hrows := Graph.nodesOfRows_twin hfetched.planned.plan hm
    fetched.planned.compiled.partitionLabels fetched.rows g.nodes.size start
  have hunpacked' := hattached.unpacked
  rw [← hfetched.planned.labels, ← hfetched.rows] at hunpacked'
  obtain ⟨⟨nodes, children⟩, hunpacked, hblock, hids⟩ := hrows.ok_of_right hunpacked'
  simp only at hblock hids
  have hpush := hmirrors.push hblock hattached.block
  have hlink : ∀ id id', R id id' ∨ Graph.Shift g.nodes.size start nodes.length id id' →
      Graph.LinkTwin (fun id id' => R id id' ∨ Graph.Shift g.nodes.size start nodes.length id id')
        (.many ((Graph.pushAll g nodes).childrenOf m.keyLabels children id)
          fetched.planned.compiled.pageSize)
        (.many (g'.childrenOf m'.keyLabels children' id') fetched'.planned.compiled.pageSize) := by
    intro id id' hR
    rw [hfetched.planned.pageSize, hm.keyLabels]
    exact .many (hpush.childrenOf hR (hids.imp fun _ _ hc => ⟨hc.1, .inr hc.2⟩))
  have hwaiting := Graph.waiting_pushAll g nodes
  rw [queue_unpacked hunpacked hfresh] at hwaiting
  refine ⟨_, _, Graph.queue nodes g.nodes.size [], fun _ _ => .inl, ?_,
    Mirrors.follow hpush (hgroup.mono fun _ _ => .inl) (hopen.pushAll nodes) hattached.listField
      hattached.linked hlink, ⟨?_, within_queue hunpacked⟩, ?_⟩
  · rw [Fetched.attach_result hrelation hopen.listField, hunpacked]
    rfl
  · rw [Graph.setLinks_waiting, hwaiting]
  · have hids : ∀ k < nodes.length, R (g.nodes.size + k) (start + k) ∨
        Graph.Shift g.nodes.size start nodes.length (g.nodes.size + k) (start + k) :=
      fun k hk => .inr ⟨k, hk, rfl, rfl⟩
    have hcopies := Graph.queue_copies (R := fun id id' => R id id' ∨
        Graph.Shift g.nodes.size start nodes.length id id') hfetched.planned.plan
      (hblock.imp fun _ _ hn => hn.2) hids .nil .nil .nil
    exact hcopies.mono fun _ _ h => h.1

end

/-- The groups that are attached are those of different lists, and the groups that wait come from
those that were attached. -/
structure Fed (env : Environment) (root : NodePlan) (past rest : List Fetched) (g : Graph) :
    Prop where
  fetches : ∀ f ∈ past ++ rest, Plan.Fetches env root f.planned.group.plan f.planned.group.index
    f.planned.compiled.plan
  nodup : ((past ++ rest).map fun f => f.planned.group.place).Nodup
  waiting : ∀ group ∈ g.waiting, ∃ f ∈ past, Plan.Within f.planned.compiled.plan group.plan

section

variable (hroot : PlannedFor env selections root) (horigin : root.origin = [])
  {past rest : List Fetched} {fetched : Fetched}

theorem Fed.fresh (hroot : PlannedFor env selections root) (horigin : root.origin = [])
    (h : Fed env root past (fetched :: rest) g) :
    ∀ plan, Plan.Within fetched.planned.compiled.plan plan →
      ∀ group ∈ g.waiting, group.plan.origin ≠ plan.origin := by
  intro plan hw group hg horigins
  obtain ⟨f, hf, hw'⟩ := h.waiting group hg
  have hfirst := h.fetches fetched (List.mem_append_right _ List.mem_cons_self)
  have hpast := h.fetches f (List.mem_append_left _ hf)
  obtain ⟨hplan, hindex⟩ := hpast.unique hroot horigin hfirst hw' hw horigins
  have hnodup := h.nodup
  rw [List.map_append, List.nodup_append] at hnodup
  refine hnodup.2.2 _ (List.mem_map_of_mem hf) _ (List.mem_map_of_mem List.mem_cons_self) ?_
  unfold Graph.Group.place
  rw [hplan, hindex]

theorem Fed.step {groups : List Group} {g₁ : Graph} (h : Fed env root past (fetched :: rest) g)
    (hgrew : Grew fetched.planned.compiled.plan g g₁ groups) :
    Fed env root (past ++ [fetched]) rest g₁ := by
  refine ⟨?_, ?_, fun group hg => ?_⟩
  · rw [← List.append_cons]
    exact h.fetches
  · rw [← List.append_cons]
    exact h.nodup
  · rw [hgrew.waiting] at hg
    rcases List.mem_append.1 hg with hg | hg
    · obtain ⟨f, hf, hw⟩ := h.waiting group hg
      exact ⟨f, List.mem_append_left _ hf, hw⟩
    · exact ⟨fetched, List.mem_append_right _ (List.mem_singleton_self _), hgrew.within group hg⟩

theorem Kept.attach (hroot : PlannedFor env selections root) (horigin : root.origin = [])
    {post : List Group} {g₁ : Graph}
    (h : Kept env root round (fetched.planned.group :: post) g) (hasked : Asked env fetched.planned)
    (hattach : fetched.attach.result g = .ok ((), g₁)) : Kept env root round post g₁ := by
  obtain ⟨sources, h⟩ := h
  have hruns := hasked.attach_runs hroot horigin h
  rw [Graph.runs_iff] at hruns
  unfold Fetched.attach at hattach
  rw [hattach] at hruns
  obtain ⟨sources', h', -⟩ := hruns
  exact ⟨sources', h'⟩

end

/-- What attaching the rows of one group and of its counterpart comes to. -/
structure ArrivedTwin (env : Environment) (repeatable : Schema.Resolved → Prop)
    (R : NodeId → NodeId → Prop) (fetched fetched' : Fetched) (g g' : Graph)
    (p p' : Unit × Graph) : Prop where
  settles : Settles g' p'.2
  arrived : Arrived p'.2 fetched'
  grew : ∃ (R' : NodeId → NodeId → Prop) (groups groups' : List Group),
    (∀ id id', R id id' → R' id id') ∧ Mirrors env repeatable R' p.2 p'.2 ∧
      Grew fetched.planned.compiled.plan g p.2 groups ∧
      Grew fetched'.planned.compiled.plan g' p'.2 groups' ∧
      Copies (GroupTwin env repeatable R') [] groups groups'

/-- The rows of a group and of its counterpart are attached alike. -/
theorem attach_twin {fetched fetched' : Fetched} {i i' : Nat}
    (hfetched : FetchedTwin env repeatable storage storage' R fetched fetched')
    (hmirrors : Mirrors env repeatable R g g') (hopen : Open g fetched.planned.group i)
    (hopen' : Open g' fetched'.planned.group i')
    (hfresh : ∀ plan, Plan.Within fetched.planned.compiled.plan plan →
      ∀ group ∈ g.waiting, group.plan.origin ≠ plan.origin)
    (hfresh' : ∀ plan, Plan.Within fetched'.planned.compiled.plan plan →
      ∀ group ∈ g'.waiting, group.plan.origin ≠ plan.origin) :
    Same (ArrivedTwin env repeatable R fetched fetched' g g') (fetched.attach.result g)
      (fetched'.attach.result g') := by
  obtain ⟨m, m', hrelation, hrelation', hm⟩ := hfetched.planned.group.relations
  have hrows := Graph.nodesOfRows_twin hfetched.planned.plan hm
    fetched.planned.compiled.partitionLabels fetched.rows g.nodes.size g'.nodes.size
  rw [hfetched.planned.labels, hfetched.rows] at hrows
  cases hunpacked' : Graph.nodesOfRows m' fetched'.planned.compiled.plan
      fetched'.planned.compiled.partitionLabels fetched'.rows g'.nodes.size with
  | error e =>
    rw [Fetched.attach_result hrelation hopen.listField, hfetched.planned.labels, hfetched.rows,
      hrows.error_of_right hunpacked', Fetched.attach_result hrelation' hopen'.listField,
      hunpacked']
    exact .error e
  | ok p' =>
    obtain ⟨g₁', hattach', hsettles, hgrew', hattached⟩ :=
      attach_ahead hopen' hrelation' hunpacked' hfresh'
    obtain ⟨g₁, R', groups, hR', hattach, hmirrors₁, hgrew, hgroups⟩ :=
      attach_follows hattached hfetched (hmirrors.settles hsettles) hopen hfresh
    rw [hattach, hattach']
    exact .ok ⟨hsettles, ⟨_, _, _, _, _, hattached⟩, R', groups, _, hR', hmirrors₁, hgrew, hgrew',
      hgroups⟩

/-- What attaching the rows of both requests comes to. -/
def AttachingTwin (env : Environment) (repeatable : Schema.Resolved → Prop)
    (R : NodeId → NodeId → Prop) (p p' : Unit × Graph) : Prop :=
  ∃ R' : NodeId → NodeId → Prop, (∀ id id', R id id' → R' id id') ∧
    Mirrors env repeatable R' p.2 p'.2 ∧
    Copies (GroupTwin env repeatable R') [] p.2.waiting p'.2.waiting

theorem AttachingTwin.of_ge {R R' : NodeId → NodeId → Prop} {p p' : Unit × Graph}
    (h : AttachingTwin env repeatable R' p p') (hR : ∀ id id', R id id' → R' id id') :
    AttachingTwin env repeatable R p p' := by
  obtain ⟨R'', hR', h⟩ := h
  exact ⟨R'', fun id id' h => hR' id id' (hR id id' h), h⟩

section

variable (hroot : PlannedFor env selections root) (horigin : root.origin = [])
  (hroot' : PlannedFor env selections' root') (horigin' : root'.origin = [])

include hroot horigin hroot' horigin'

/-- The rows of groups and of their counterparts are attached alike. -/
theorem attachAll_twin {R₀ : NodeId → NodeId → Prop}
    {fetched fetched' seen past past' : List Fetched}
    (h : Copies (FetchedTwin env repeatable storage storage' R₀) seen fetched fetched')
    (hR : ∀ id id', R₀ id id' → R id id') (hmirrors : Mirrors env repeatable R g g')
    (hkept : Kept env root round (fetched.map fun f => f.planned.group) g)
    (hkept' : Kept env root' round (fetched'.map fun f => f.planned.group) g')
    (hfed : Fed env root past fetched g) (hfed' : Fed env root' past' fetched' g')
    (hwaiting : Copies (GroupTwin env repeatable R) [] g.waiting g'.waiting)
    (hseen : ∀ f ∈ seen, Arrived g' f) :
    Same (AttachingTwin env repeatable R) ((attachAll fetched).result g)
      ((attachAll fetched').result g') := by
  induction h generalizing R g g' past past' with
  | nil => exact .ok ⟨R, fun _ _ h => h, hmirrors, hwaiting⟩
  | @keep seen fetched' fetched first first' hfirst _ ih =>
    have hfirst := hfirst.mono hR
    obtain ⟨⟨i, hopen⟩, -⟩ := Kept.open_at hroot [] hkept
    obtain ⟨⟨i', hopen'⟩, -⟩ := Kept.open_at hroot' [] hkept'
    rw [attachAll_cons, attachAll_cons]
    refine (attach_twin hfirst hmirrors hopen hopen' (hfed.fresh hroot horigin)
      (hfed'.fresh hroot' horigin')).with_ok.bind ?_
    rintro ⟨⟨⟩, g₁⟩ ⟨⟨⟩, g₁'⟩ ⟨⟨hsettles, harrived, R', groups, groups', hR', hmirrors₁, hgrew,
      hgrew', hgroups⟩, hattach, hattach'⟩
    refine (ih (fun _ _ h => hR' _ _ (hR _ _ h)) hmirrors₁
      (hkept.attach hroot horigin hfirst.planned.asked hattach)
      (hkept'.attach hroot' horigin' hfirst.planned.asked' hattach') (hfed.step hgrew)
      (hfed'.step hgrew') ?_ (List.forall_mem_append.2 ⟨fun f hf => ?_,
        List.forall_mem_singleton.2 harrived⟩)).mono fun _ _ h => h.of_ge hR'
    · rw [hgrew.waiting, hgrew'.waiting]
      exact (hwaiting.mono fun _ _ h => h.mono hR').append (hgroups.weaken (List.nil_subset _))
    · refine (hseen f hf).settles hsettles ?_
      rw [hgrew'.waiting]
      exact List.subset_append_left _ _
  | @again seen fetched' fetched first first' hmem hfirst _ ih =>
    have hfirst := hfirst.mono hR
    obtain ⟨⟨i, hopen⟩, -⟩ := Kept.open_at hroot [] hkept
    obtain ⟨m', i', start, nodes', children', hattached⟩ := hseen first' hmem
    obtain ⟨g₁, R', groups, hR', hattach, hmirrors₁, hgrew, hgroups⟩ :=
      attach_follows hattached hfirst hmirrors hopen (hfed.fresh hroot horigin)
    rw [attachAll_cons, hattach]
    refine (ih (fun _ _ h => hR' _ _ (hR _ _ h)) hmirrors₁ (hkept.attach hroot horigin
      hfirst.planned.asked hattach) hkept' (hfed.step hgrew) hfed' ?_ hseen).mono
      fun _ _ h => h.of_ge hR'
    rw [hgrew.waiting]
    -- the groups of the copied list are those that wait already
    have hcopies : Copies (GroupTwin env repeatable R') ([] ++ g'.waiting) groups [] := by
      refine .of_mem fun group hg => ?_
      obtain ⟨group', hg', htwin⟩ := hgroups.exists_right hg
      exact ⟨group', hattached.queued hg', htwin⟩
    have happend := Copies.append (hwaiting.mono fun _ _ h => h.mono hR') hcopies
    rw [List.append_nil] at happend
    exact happend

end

end Resolution

end ObjectGraph
