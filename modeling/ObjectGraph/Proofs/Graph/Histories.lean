import ObjectGraph.Proofs.Graph.CompositeKeys

/-! # Histories of a graph

A graph starts empty and changes by rows that are added, groups that are taken and rows that are
attached to groups that were taken (`History`).  Whatever is done and whether or not it fails, the
nodes keep to their plans and the parents of a group are nodes of its plan (`History.coherent`), so
rows that are attached do get linked.

`attached_iff_sameForm` is about where they get linked: of the rows whose key a database finds
equal to that of a parent, those whose numbers are written in the form of the parent's become its
children, and no others. -/

namespace ObjectGraph

namespace Graph

open Plan (NodePlan FieldPlan FieldKind ManyPlan)

/-! ### Changes that may fail -/

section

variable {α β : Type} {P : Graph → Prop} {post : α → Prop} {post' : β → Prop}

/-- A change keeps a property of graphs, even where it fails, and its values satisfy something. -/
def Growing.Keeps (P : Graph → Prop) (change : Growing α) (post : α → Prop) : Prop :=
  ∀ graph, P graph → P (change.on graph).2 ∧ ∀ a, (change.on graph).1 = .ok a → post a

namespace Growing.Keeps

theorem pure {a : α} (h : post a) : Growing.Keeps P (Pure.pure a) post := by
  intro graph hp
  refine ⟨hp, ?_⟩
  intro b hb
  cases hb
  exact h

theorem lift (x : Except Fault α) : Growing.Keeps P (liftM x) fun _ => True := by
  intro graph hp
  cases x with
  | error e => exact ⟨hp, fun _ _ => trivial⟩
  | ok a => exact ⟨hp, fun _ _ => trivial⟩

theorem throw (e : Fault) : Growing.Keeps P (MonadExcept.throw e : Growing α) post :=
  fun _ hp => ⟨hp, fun _ h => nomatch h⟩

theorem bind {change : Growing α} {next : α → Growing β} (h : change.Keeps P post)
    (hnext : ∀ a, post a → (next a).Keeps P post') : (change >>= next).Keeps P post' := by
  intro graph hp
  obtain ⟨hp', hpost⟩ := h graph hp
  rw [on_bind]
  rcases hc : change.on graph with ⟨e | a, graph'⟩
  · rw [hc] at hp'
    exact ⟨hp', fun _ h => nomatch h⟩
  · rw [hc] at hp' hpost
    exact hnext a (hpost a rfl) graph' hp'

theorem modify {f : Graph → Graph} (h : ∀ graph, P graph → P (f graph)) :
    Growing.Keeps P (modify f) fun _ => True :=
  fun graph hp => ⟨h graph hp, fun _ _ => trivial⟩

end Growing.Keeps

end

/-! ### Coherent graphs -/

/-- Plans that come with the plans of the single related objects of each, no two of them for one
place. -/
structure Identified (plans : NodePlan → Prop) : Prop where
  single : ∀ {plan child : NodePlan} {field : FieldPlan NodePlan}, plans plan →
    field ∈ plan.fields → field.kind = .single child → plans child
  unique : ∀ {plan plan' : NodePlan}, plans plan → plans plan' → plan.origin = plan'.origin →
    plan = plan'

/-- A group is for a list of one of some plans, and its parents are nodes of the plan. -/
def Gathers (plans : NodePlan → Prop) (graph : Graph) (group : Group) : Prop :=
  (plans group.plan ∧ group.index ∈ manyIndices group.plan) ∧
    ∀ id ∈ group.parents, ∃ node, graph.nodes[id]? = some node ∧ node.plan = group.plan

/-- Every node keeps to one of some plans, and so do the groups that wait or were taken. -/
structure Coherent (plans : NodePlan → Prop) (taken : List Group) (graph : Graph) : Prop where
  nodes : ∀ (id : NodeId) (node : Node), graph.nodes[id]? = some node →
    plans node.plan ∧ node.links.length = node.plan.fields.length
  waiting : ∀ group ∈ graph.waiting, Gathers plans graph group
  taken : ∀ group ∈ taken, Gathers plans graph group

section

variable {plans : NodePlan → Prop} {taken : List Group} {graph graph' : Graph}

theorem Gathers.mono {group : Group} (h : Gathers plans graph group) (hkeeps : graph.Keeps graph') :
    Gathers plans graph' group := by
  refine ⟨h.1, fun id hid => ?_⟩
  obtain ⟨node, hn, hplan⟩ := h.2 id hid
  obtain ⟨node', hn', hplan', -⟩ := hkeeps id node hn
  exact ⟨node', hn', hplan'.trans hplan⟩

namespace Coherent

theorem mono {plans' : NodePlan → Prop} (h : Coherent plans taken graph)
    (hplans : ∀ plan, plans plan → plans' plan) : Coherent plans' taken graph := by
  constructor
  case nodes => exact fun id node hn => (h.nodes id node hn).imp_left (hplans _)
  case waiting => exact fun group hg => (h.waiting group hg).imp_left (And.imp_left (hplans _))
  case taken => exact fun group hg => (h.taken group hg).imp_left (And.imp_left (hplans _))

/-- A node that keeps to one of the plans can be added. -/
theorem pushed (hplans : Identified plans) (h : Coherent plans taken graph) {node : Node}
    (hplan : plans node.plan) (hlinks : node.links.length = node.plan.fields.length) :
    Coherent plans taken (pushed graph node) := by
  have hkeeps : graph.Keeps (Graph.pushed graph node) := keeps_pushAll graph [node]
  have hown : (Graph.pushed graph node).nodes[graph.nodes.size]? = some node := by
    rw [pushed_node, if_pos rfl]
  constructor
  case nodes =>
    intro id node' hn
    rw [pushed_node] at hn
    split at hn
    · cases hn
      exact ⟨hplan, hlinks⟩
    · exact h.nodes id node' hn
  case waiting =>
    refine enqueueAll_all (fun group hg => (h.waiting group hg).mono hkeeps) ?_ ?_
    · intro index _ group hg hfor
      have horigin : group.plan.origin = node.plan.origin :=
        congrArg Prod.fst (Group.isFor_iff.1 hfor)
      refine ⟨hg.1, fun id hid => ?_⟩
      rcases List.mem_append.1 hid with hid | hid
      · exact hg.2 id hid
      · rw [List.mem_singleton.1 hid]
        exact ⟨node, hown, (hplans.unique hg.1.1 hplan horigin).symm⟩
    · intro index hindex
      refine ⟨⟨hplan, hindex⟩, fun id hid => ?_⟩
      rw [List.mem_singleton.1 hid]
      exact ⟨node, hown, rfl⟩
  case taken => exact fun group hg => (h.taken group hg).mono hkeeps

/-- Links can be set. -/
theorem setLinks (h : Coherent plans taken graph) (ids : List NodeId) (field : Nat)
    (link : NodeId → Link) : Coherent plans taken (graph.setLinks ids field link) := by
  constructor
  case nodes =>
    intro id node' hn
    rw [setLinks_node, Option.map_eq_some_iff] at hn
    obtain ⟨node, hn, rfl⟩ := hn
    split
    · exact ⟨(h.nodes id node hn).1, List.length_set.trans (h.nodes id node hn).2⟩
    · exact h.nodes id node hn
  case waiting =>
    rw [setLinks_waiting]
    exact fun group hg => (h.waiting group hg).mono keeps_setLinks
  case taken => exact fun group hg => (h.taken group hg).mono keeps_setLinks

theorem attachNone (h : Coherent plans taken graph) (group : Group) :
    Coherent plans taken (graph.attachNone group) :=
  attachNone_invariant (fun _ field h => h.setLinks group.parents field fun _ => .many [] none) h

/-- The groups that wait can be taken. -/
theorem takeWaiting (h : Coherent plans taken graph) :
    Coherent plans (taken ++ graph.takeWaiting.1) graph.takeWaiting.2 := by
  constructor
  case nodes => exact h.nodes
  case waiting => exact fun group hg => absurd hg List.not_mem_nil
  case taken =>
    intro group hg
    rcases List.mem_append.1 hg with hg | hg
    · exact h.taken group hg
    · exact h.waiting group hg

end Coherent

end

/-! ### Rows keep a graph coherent -/

section

variable {plans : NodePlan → Prop} {taken : List Group}

mutual

/-- Adding the node of a row keeps a graph coherent, even where some object cannot be unpacked. -/
theorem insert_coherent (hplans : Identified plans) : (plan : NodePlan) → plans plan →
    (row : Row) → (insert plan row).Keeps (Coherent plans taken) fun _ => True
  | ⟨origin, typeName, fields, many⟩, hplan, row => by
    rw [insert]
    refine (insertFields_coherent hplans typeName fields (fun field hf child hk =>
      hplans.single hplan hf hk) row).bind ?_
    rintro ⟨row', links⟩ hlinks
    intro graph h
    exact ⟨h.pushed hplans hplan hlinks, fun _ _ => trivial⟩

theorem insertFields_coherent (hplans : Identified plans) (typeName : String) :
    (fields : List (FieldPlan NodePlan)) →
    (∀ field ∈ fields, ∀ child, field.kind = .single child → plans child) → (row : Row) →
    (insertFields typeName fields row).Keeps (Coherent plans taken)
      fun p => p.2.length = fields.length
  | [], _, row => .pure rfl
  | field :: fields, hfields, row => by
    rw [insertFields]
    refine (insertField_coherent hplans typeName field
      (hfields field List.mem_cons_self) row).bind fun p _ => ?_
    refine (insertFields_coherent hplans typeName fields
      (fun field' hf => hfields field' (List.mem_cons_of_mem _ hf)) p.1).bind fun p' hp' => ?_
    exact .pure (congrArg Nat.succ hp')

theorem insertField_coherent (hplans : Identified plans) (typeName : String) :
    (field : FieldPlan NodePlan) → (∀ child, field.kind = .single child → plans child) →
    (row : Row) → (insertField typeName field row).Keeps (Coherent plans taken) fun _ => True
  | ⟨name, kind, _, _⟩, hfield, row => insertKind_coherent hplans typeName name kind hfield row

theorem insertKind_coherent (hplans : Identified plans) (typeName name : String) :
    (kind : FieldKind NodePlan) → (∀ child, kind = .single child → plans child) → (row : Row) →
    (insertKind typeName name kind row).Keeps (Coherent plans taken) fun _ => True
  | .value, _, row => .pure trivial
  | .many _, _, row => .pure trivial
  | .single plan, hplan, row => by
    rw [insertKind]
    refine (Growing.Keeps.lift _).bind fun related _ => ?_
    cases related with
    | none => exact .pure trivial
    | some related =>
      exact (insert_coherent hplans plan (hplan plan rfl) related).bind fun _ _ => .pure trivial

end

variable (hplans : Identified plans)

include hplans

theorem addRows_coherent {plan : NodePlan} (hplan : plans plan) (rows : List Row) :
    (addRows plan rows).Keeps (Coherent plans taken) fun _ => True := by
  unfold addRows
  induction rows with
  | nil => exact .pure trivial
  | cons row rows ih =>
    rw [List.mapM_cons]
    exact (insert_coherent hplans plan hplan row).bind fun _ _ => ih.bind fun _ _ => .pure trivial

theorem addChildren_coherent {plan : NodePlan} (hplan : plans plan) (relation : ManyPlan)
    (labels : List String) (rows : List Row) :
    (addChildren relation plan labels rows).Keeps (Coherent plans taken) fun _ => True := by
  induction rows with
  | nil => exact .pure trivial
  | cons row rows ih =>
    unfold addChildren
    split
    · exact .throw _
    · exact (insert_coherent hplans plan hplan row).bind fun _ _ => ih.bind fun _ _ => .pure trivial

theorem attach_coherent {plan : NodePlan} (hplan : plans plan) (group : Group)
    (labels : List String) (pageSize : Option Nat) (rows : List Row) :
    (attach group plan labels pageSize rows).Keeps (Coherent plans taken) fun _ => True := by
  unfold attach
  split
  · exact .throw _
  · next relation _ =>
    refine (addChildren_coherent hplans hplan relation labels rows).bind fun children _ => ?_
    split
    · exact .throw _
    · exact .modify fun graph h => h.setLinks group.parents _ _

end

/-! ### Histories -/

/-- The graphs that rows of some plans lead to, each with the groups that were taken from it.  What
fails leaves behind what it has done. -/
inductive History (plans : NodePlan → Prop) : Graph → List Group → Prop
  | start : History plans {} []
  | addRows {graph : Graph} {taken : List Group} {plan : NodePlan} (rows : List Row) :
      History plans graph taken → plans plan →
      History plans ((Graph.addRows plan rows).on graph).2 taken
  | take {graph : Graph} {taken : List Group} :
      History plans graph taken →
      History plans graph.takeWaiting.2 (taken ++ graph.takeWaiting.1)
  | attach {graph : Graph} {taken : List Group} {group : Group} {plan : NodePlan}
      (labels : List String) (pageSize : Option Nat) (rows : List Row) :
      History plans graph taken → group ∈ taken → plans plan →
      History plans ((Graph.attach group plan labels pageSize rows).on graph).2 taken
  | attachNone {graph : Graph} {taken : List Group} {group : Group} :
      History plans graph taken → group ∈ taken → History plans (graph.attachNone group) taken

theorem History.coherent {plans : NodePlan → Prop} (hplans : Identified plans) {graph : Graph}
    {taken : List Group} (h : History plans graph taken) : Coherent plans taken graph := by
  induction h with
  | start =>
    refine ⟨fun id node hn => ?_, fun group hg => ?_, fun group hg => ?_⟩
    · cases hn
    · cases hg
    · cases hg
  | addRows rows _ hplan ih => exact (addRows_coherent hplans hplan rows _ ih).1
  | take _ ih => exact ih.takeWaiting
  | attach labels pageSize rows _ _ hplan ih =>
    exact (attach_coherent hplans hplan _ labels pageSize rows _ ih).1
  | attachNone _ _ ih => exact ih.attachNone _

/-! ### Rows that a database matches -/

/-- Keys whose components are equal in a database have the same identities exactly if their numbers
are written in one form. -/
theorem sameIdentities_iff_sameForm {values values' : List Json}
    (h : List.Forall₂ Json.SqlEqual values values') :
    SameIdentities values values' ↔ List.Forall₂ Json.SameForm values values' := by
  induction h with
  | nil => exact iff_of_true .nil .nil
  | cons hfirst _ ih =>
    unfold SameIdentities at ih ⊢
    rw [List.forall₂_cons, List.forall₂_cons, ih, Json.identityKey?_eq_iff hfirst]

/-- Components that are equal in a database have as many pieces. -/
theorem noMorePieces_of_sqlEqual {values values' : List Json}
    (h : List.Forall₂ Json.SqlEqual values values') : NoMorePieces values values' := by
  have hnumber : ∀ n : Number, (piecesOf (Json.identityText (.num n))).length = 1 := by
    intro n
    rw [piecesOf_of_not_mem (separator_not_mem fun text heq => by cases heq)]
    rfl
  refine h.imp fun value value' hequal => ?_
  cases value with
  | null => exact hequal.elim
  | num n =>
    cases value' with
    | num m => rw [hnumber, hnumber]
    | _ => cases hequal
  | _ =>
    have heq : _ = value' := hequal
    rw [heq]

/-- After rows are attached to the parents of a group, a row whose key is equal to that of a parent
in a database is among the children of the parent exactly if the numbers of the two keys are written
in one form.  Every row is a node of its own, and every parent is linked to a list. -/
theorem attached_iff_sameForm {plans : NodePlan → Prop} (hplans : Identified plans) {graph : Graph}
    {taken : List Group} (h : History plans graph taken) {group : Group} (hgroup : group ∈ taken)
    {plan : NodePlan} {labels : List String} {pageSize : Option Nat} {rows : List Row}
    {graph' : Graph}
    (hattach : (attach group plan labels pageSize rows).result graph = .ok ((), graph')) :
    ∃ relation field ids,
      Attached graph graph' group plan labels pageSize rows relation field ids ∧
      ∀ parent ∈ group.parents, ∃ node children, graph'.nodes[parent]? = some node ∧
        node.links[field]? = some (.many children pageSize) ∧
        ∀ (i : Nat) (row : Row) (id : NodeId) (values values' : List Json),
          rows[i]? = some row → ids[i]? = some id → keyValues? row labels = some values →
          keyValues? node.row relation.keyLabels = some values' →
          List.Forall₂ Json.SqlEqual values values' →
          (id ∈ children ↔ List.Forall₂ Json.SameForm values values') := by
  obtain ⟨relation, field, ids, hattached⟩ := attach_children hattach
  refine ⟨relation, field, ids, hattached, fun parent hparent => ?_⟩
  have hcoherent := h.coherent hplans
  obtain ⟨node, hn, hplan⟩ := (hcoherent.taken group hgroup).2 parent hparent
  have hfield : field < node.links.length := by
    rw [(hcoherent.nodes parent node hn).2, hplan]
    exact (List.findIdx?_eq_some_iff_getElem.1 hattached.position).1
  refine ⟨_, _, hattached.parents parent hparent node hn, List.getElem?_set_self hfield, ?_⟩
  intro i row id values values' hrow hid hvalues hvalues' hequal
  obtain ⟨-, hnull⟩ := keyValues?_spec hvalues
  obtain ⟨-, hnull'⟩ := keyValues?_spec hvalues'
  rw [← sameIdentities_iff_sameForm hequal,
    ← (noMorePieces_of_sqlEqual hequal).inj_iff hnull hnull', mem_withKey]
  have hkeys : rowKey? row labels = compositeKey? values ∧
      rowKey? node.row relation.keyLabels = compositeKey? values' := by
    unfold rowKey?
    rw [hvalues, hvalues']
    exact ⟨rfl, rfl⟩
  constructor
  · rintro ⟨i', row', hrow', hid', hkey⟩
    -- no two rows have one node
    obtain ⟨hlt, -⟩ := List.getElem?_eq_some_iff.1 hid'
    obtain rfl := (List.getElem?_inj hlt hattached.nodup).1 (hid'.trans hid.symm)
    rw [hrow] at hrow'
    cases hrow'
    rw [← hkeys.1, ← hkeys.2, hkey]
  · intro hkey
    exact ⟨i, row, hrow, hid, by rw [hkeys.1, hkeys.2, hkey]⟩

namespace Sample

def plans (plan : NodePlan) : Prop := plan = postPlan ∨ plan = partPlan

theorem plans_identified : Identified plans := by
  constructor
  · rintro plan child field (rfl | rfl) hfield hkind
    · rw [List.mem_singleton.1 hfield] at hkind
      cases hkind
    · rw [List.mem_singleton.1 hfield] at hkind
      cases hkind
  · rintro plan plan' (rfl | rfl) (rfl | rfl) horigin
    · rfl
    · cases horigin
    · cases horigin
    · rfl

/-- The posts of two keys, with the group of their parts. -/
theorem posts_history (keys : List (List Json)) (hkeys : keys.length = 2) :
    ∃ taken, History plans (posts keys) taken ∧ group ∈ taken := by
  obtain ⟨key, key', rfl⟩ := List.length_eq_two.1 hkeys
  exact ⟨_, .take (.addRows _ .start (.inl rfl)), List.mem_singleton_self group⟩

/-- The double `1.0`. -/
def one : Binary64 := ⟨false, 2 ^ 52, 1022, by decide, .inr (by decide), by decide⟩

def integerKey : List Json := [.num (.int 1), .str "a"]

def realKey : List Json := [.num (.float one), .str "a"]

theorem units_one : (Number.float one).units = (Number.int 1).units := by decide +kernel

theorem attachPart_real : ∃ graph',
    attachPart realKey (posts [integerKey, [.num (.int 2), .str "a"]]) = .ok ((), graph') :=
  ⟨_, rfl⟩

end Sample

open Sample in
/-- A part with the key `1.0` is no child of the post with the key `1`. -/
theorem attached_iff_sameForm_real :
    List.Forall₂ Json.SqlEqual realKey integerKey ∧
      ∃ graph' node children id,
        attachPart realKey (posts [integerKey, [.num (.int 2), .str "a"]]) = .ok ((), graph') ∧
        graph'.nodes[0]? = some node ∧ node.links[0]? = some (.many children none) ∧
        graph'.NodeOf partPlan (["p0", "p1"].zip realKey) id ∧ id ∉ children := by
  have hequal : List.Forall₂ Json.SqlEqual realKey integerKey :=
    .cons units_one (.cons rfl .nil)
  refine ⟨hequal, ?_⟩
  obtain ⟨taken, hhistory, hgroup⟩ := posts_history [integerKey, [.num (.int 2), .str "a"]] rfl
  obtain ⟨graph', hattach⟩ := attachPart_real
  obtain ⟨relation, field, ids, hattached, hparents⟩ :=
    attached_iff_sameForm plans_identified hhistory hgroup hattach
  obtain rfl : relation = _ := (Option.some.inj hattached.list).symm
  obtain rfl : field = 0 := (Option.some.inj hattached.position).symm
  obtain ⟨node, children, hnode, hlink, hmem⟩ := hparents 0 (by decide)
  have hstands := hattached.stands
  cases hstands with
  | cons hstands hnil =>
    cases hnil
    refine ⟨graph', node, children, _, hattach, hnode, hlink, hstands, ?_⟩
    have hrow : node.row = ["k0", "k1"].zip integerKey := by
      have hnew := hattached.parents 0 (by decide) _ rfl
      rw [hnode] at hnew
      exact congrArg Node.row (Option.some.inj hnew)
    have hkey : keyValues? node.row ["k0", "k1"] = some integerKey := by
      rw [hrow]
      rfl
    rw [hmem 0 _ _ realKey integerKey rfl rfl rfl hkey hequal]
    intro h
    cases h with
    | cons hfirst _ => exact hfirst

end Graph

end ObjectGraph
