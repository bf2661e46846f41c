import ObjectGraph.Proofs.Resolution.Shape

/-! # The rounds end

A group that waits after some rounds leads to one more level of the request, so there are fewer
rounds than levels, and the bound of the loop never cuts it short (`Kept.rounds_eq`).  The reason is
seen in one round: a node whose list waits after it was added with the rows of a follow-up
(`Kept.waits_added`), and its list is deeper than that of the follow-up (`AddedBy.depth_lt`).
`rounds_end` puts this together with what the rounds are for: every list is resolved. -/

namespace ObjectGraph

namespace Resolution

open ObjectGraph.Graph (Group Node NodeId nodesOf nodesOfFields nodesOfField nodesOfKind nodesOfRows)
open Plan (Environment Compiled NodePlan ManyPlan FieldPlan Within)

/-! ### The plans of new nodes -/

mutual

/-- The nodes of a row are planned by its plan and by those of single related objects. -/
theorem within_nodesOf : (plan : NodePlan) → {row : Row} → {size : Nat} → {nodes : List Node} →
    nodesOf plan row size = .ok nodes → ∀ node ∈ nodes, Within plan node.plan
  | ⟨origin, typeName, fields, many⟩, row, size, nodes, h => by
    simp only [nodesOf, Outcome.bind_ok, Outcome.pure_ok] at h
    obtain ⟨⟨below, row', links⟩, hfields, rfl⟩ := h
    intro node hnode
    rcases List.mem_append.1 hnode with hnode | hnode
    · obtain ⟨i, field, child, hi, hk, hw⟩ := within_nodesOfFields fields hfields node hnode
      exact (Within.single .self hi hk).trans hw
    · rw [List.mem_singleton.1 hnode]
      exact .self

theorem within_nodesOfFields {typeName : String} : (fields : List (FieldPlan NodePlan)) →
    {row row' : Row} → {size : Nat} → {nodes : List Node} → {links : List Graph.Link} →
    nodesOfFields typeName fields row size = .ok (nodes, row', links) → ∀ node ∈ nodes,
      ∃ (i : Nat) (field : FieldPlan NodePlan) (child : NodePlan),
        fields[i]? = some field ∧ field.kind = .single child ∧ Within child node.plan
  | [], row, row', size, nodes, links, h => by
    cases h
    intro node hnode
    cases hnode
  | ⟨name, kind, json, transform⟩ :: fields, row, row', size, nodes, links, h => by
    simp only [nodesOfFields, nodesOfField, Outcome.bind_ok, Outcome.pure_ok] at h
    obtain ⟨⟨first, row₁, link⟩, hfirst, ⟨rest, row₂, links'⟩, hrest, h⟩ := h
    cases h
    intro node hnode
    rcases List.mem_append.1 hnode with hnode | hnode
    · obtain ⟨child, hk, hw⟩ := within_nodesOfKind kind hfirst node hnode
      exact ⟨0, _, child, rfl, hk, hw⟩
    · obtain ⟨i, field, child, hi, hk, hw⟩ := within_nodesOfFields fields hrest node hnode
      exact ⟨i + 1, field, child, hi, hk, hw⟩

theorem within_nodesOfKind {typeName name : String} : (kind : Plan.FieldKind NodePlan) →
    {row row' : Row} → {size : Nat} → {nodes : List Node} → {link : Graph.Link} →
    nodesOfKind typeName name kind row size = .ok (nodes, row', link) → ∀ node ∈ nodes,
      ∃ child, kind = .single child ∧ Within child node.plan
  | .value, row, row', size, nodes, link, h => by
    cases h
    intro node hnode
    cases hnode
  | .many _, row, row', size, nodes, link, h => by
    cases h
    intro node hnode
    cases hnode
  | .single plan, row, row', size, nodes, link, h => by
    simp only [nodesOfKind, Outcome.bind_ok] at h
    obtain ⟨_ | related, -, h⟩ := h
    · cases h
      intro node hnode
      cases hnode
    · simp only [Outcome.bind_ok, Outcome.pure_ok] at h
      obtain ⟨below, hbelow, h⟩ := h
      cases h
      intro node hnode
      exact ⟨plan, rfl, within_nodesOf plan hbelow node hnode⟩

end

theorem within_nodesOfRows {relation : ManyPlan} {plan : NodePlan} {labels : List String}
    {rows : List Row} {size : Nat} {nodes : List Node} {children : List (String × NodeId)}
    (h : nodesOfRows relation plan labels rows size = .ok (nodes, children)) :
    ∀ node ∈ nodes, Within plan node.plan := by
  induction rows generalizing size nodes children with
  | nil =>
    cases h
    intro node hnode
    cases hnode
  | cons row rows ih =>
    unfold nodesOfRows at h
    split at h
    · cases h
    · simp only [Outcome.bind_ok, Outcome.pure_ok] at h
      obtain ⟨first, hfirst, ⟨rest, others⟩, hrest, h⟩ := h
      cases h
      intro node hnode
      rcases List.mem_append.1 hnode with hnode | hnode
      · exact within_nodesOf plan hfirst node hnode
      · exact ih hrest node hnode

/-- A node that attaching adds is planned by the plan of the follow-up. -/
theorem attach_within {g g' : Graph} {group : Group} {plan : NodePlan} {labels : List String}
    {pageSize : Option Nat} {rows : List Row}
    (h : (Graph.attach group plan labels pageSize rows).result g = .ok ((), g')) {id : NodeId}
    (hle : g.nodes.size ≤ id) (hlt : id < g'.nodes.size) :
    ∃ node, g'.nodes[id]? = some node ∧ Within plan node.plan := by
  obtain ⟨relation, field, nodes, children, -, -, hnodes, rfl⟩ := Graph.attach_ok h
  rw [Graph.setLinks_size, Graph.size_pushAll] at hlt
  have hget : (Graph.pushAll g nodes).nodes[id]? = nodes[(id : Nat) - g.nodes.size]? := by
    rw [Graph.node_pushAll, if_neg (Nat.not_lt.2 hle)]
  have hnode := List.getElem?_eq_getElem (l := nodes) (i := (id : Nat) - g.nodes.size)
    (Nat.sub_lt_left_of_lt_add hle hlt)
  rw [hnode] at hget
  obtain ⟨node', hn', hplan, -⟩ := Graph.keeps_setLinks id _ hget
  refine ⟨node', hn', ?_⟩
  rw [hplan]
  exact within_nodesOfRows hnodes _ (List.mem_of_getElem? hnode)

/-! ### The nodes of a round -/

/-- Attach the rows of a group. -/
def Fetched.attach (f : Fetched) : Graph.Growing Unit :=
  Graph.attach f.planned.group f.planned.compiled.plan f.planned.compiled.partitionLabels
    f.planned.compiled.pageSize f.rows

theorem attachAll_cons (f : Fetched) (fetched : List Fetched) (g : Graph) :
    (attachAll (f :: fetched)).result g =
      f.attach.result g >>= fun p => (attachAll fetched).result p.2 :=
  Graph.result_bind f.attach fun _ => attachAll fetched

/-- What a group adds to the graph when the groups of a round are attached in order. -/
structure Adds (fetched : List Fetched) (g : Graph) (f : Fetched) (g₁ g₂ : Graph) : Prop where
  split : ∃ before after, fetched = before ++ f :: after ∧
    (attachAll before).result g = .ok ((), g₁)
  attached : f.attach.result g₁ = .ok ((), g₂)

theorem attachAll_keeps {fetched : List Fetched} {g g' : Graph}
    (h : (attachAll fetched).result g = .ok ((), g')) : g.Keeps g' := by
  induction fetched generalizing g with
  | nil =>
    cases h
    exact Graph.Keeps.refl
  | cons f fetched ih =>
    rw [attachAll_cons] at h
    obtain ⟨⟨⟨⟩, g₁⟩, hf, hrest⟩ := Outcome.bind_ok.1 h
    exact (Graph.attach_keeps hf).trans (ih hrest)

/-- Every new node is added by some group. -/
theorem attachAll_adds {fetched : List Fetched} {g g' : Graph}
    (h : (attachAll fetched).result g = .ok ((), g')) {id : NodeId} (hle : g.nodes.size ≤ id)
    (hlt : id < g'.nodes.size) :
    ∃ f g₁ g₂, Adds fetched g f g₁ g₂ ∧ g₁.nodes.size ≤ id ∧ id < g₂.nodes.size := by
  induction fetched generalizing g with
  | nil =>
    cases h
    exact absurd hlt (Nat.not_lt.2 hle)
  | cons f fetched ih =>
    rw [attachAll_cons] at h
    obtain ⟨⟨⟨⟩, g₁⟩, hf, hrest⟩ := Outcome.bind_ok.1 h
    by_cases hid : id < g₁.nodes.size
    · exact ⟨f, g, g₁, ⟨⟨[], fetched, rfl, rfl⟩, hf⟩, hle, hid⟩
    · obtain ⟨f', g₂, g₃, ⟨⟨before, after, rfl, hbefore⟩, hf'⟩, hle', hlt'⟩ :=
        ih hrest (Nat.le_of_not_lt hid)
      refine ⟨f', g₂, g₃, ⟨⟨f :: before, after, rfl, ?_⟩, hf'⟩, hle', hlt'⟩
      rw [attachAll_cons, hf]
      exact hbefore

/-- What a group adds stays as the rest of the groups is attached. -/
theorem Adds.keeps {fetched : List Fetched} {g g₁ g₂ g' : Graph} {f : Fetched}
    (h : Adds fetched g f g₁ g₂) (hall : (attachAll fetched).result g = .ok ((), g')) :
    g₂.Keeps g' := by
  obtain ⟨⟨before, after, rfl, hbefore⟩, hf⟩ := h
  induction before generalizing g with
  | nil =>
    change Except.ok ((), g) = _ at hbefore
    cases hbefore
    rw [List.nil_append, attachAll_cons, hf] at hall
    exact attachAll_keeps hall
  | cons first before ih =>
    rw [attachAll_cons] at hbefore
    obtain ⟨⟨⟨⟩, g₃⟩, hfirst, hbefore⟩ := Outcome.bind_ok.1 hbefore
    rw [List.cons_append, attachAll_cons, hfirst] at hall
    exact ih hbefore hall

/-- A round from a graph adds a node with the rows of one of the groups that it fetched. -/
def AddedBy (env : Environment) (storage : Storage) (g : Graph) (log : List Sql.Statement)
    (f : Fetched) (id : NodeId) : Prop :=
  ∃ planned g₁ fetched log' g₂ g₃,
    planGroups env g.waiting { g with waiting := [] } = .ok (planned, g₁) ∧
    (planned.mapM fetchGroup : Session Fault _) storage log = (.ok fetched, log') ∧
    Adds fetched g₁ f g₂ g₃ ∧ g₂.nodes.size ≤ id ∧ id < g₃.nodes.size

section

variable {env : Environment} {request : Request} {filter : Option Schema.TypeFilter}
  {storage : Storage} {root : Compiled} {n : Nat} {g g' : Graph} {log log' : List Sql.Statement}
  (hcompile : Plan.compileRoot env request filter = .ok root)
  (h : Kept env root.plan n [] g)
  (hround : Resolution.round env g storage log = (.ok g', log'))
  {group : Group} (hgroup : group ∈ g'.waiting)

include hcompile h hround hgroup

theorem Kept.waiting_grouped : Grouped env root.plan (n + 1) g' group := by
  obtain ⟨hroot, horigin⟩ := Plan.compileRoot_plannedFor hcompile
  have hends : Session.Ends storage _ _ _ := h.round_ends hroot horigin
  have hends := hends log
  rw [hround] at hends
  obtain ⟨⟨sources, h'⟩, -⟩ := hends
  exact h'.waiting_grouped group hgroup

/-- A node whose list waits after a round was added in the round. -/
theorem Kept.waits_added {id : NodeId} (hid : id ∈ group.parents) :
    ∃ f, AddedBy env storage g log f id := by
  obtain ⟨hroot, horigin⟩ := Plan.compileRoot_plannedFor hcompile
  have hgrouped := h.waiting_grouped hcompile hround hgroup
  obtain ⟨node, hn, hplan⟩ := hgrouped.parents id hid
  obtain ⟨planned, g₁, fetched, hplanned, hfetch, hattach⟩ := round_ok hround
  have hstep := h.planGroups hroot horigin
  rw [hplanned] at hstep
  obtain ⟨-, hkeeps, hsize, -⟩ := hstep
  have hnew : g₁.nodes.size ≤ id := by
    -- an old node stands at a place of an earlier round
    by_contra hold
    rw [hsize, Nat.not_le] at hold
    obtain ⟨sources, hledger⟩ := h
    have hget := Array.getElem?_eq_getElem hold
    obtain ⟨node', hn', hplan', -⟩ := (hkeeps.trans (attachAll_keeps hattach)) id _ hget
    rw [hn] at hn'
    cases hn'
    obtain ⟨source, hsource⟩ := hledger.source hget
    obtain ⟨r, hr, ho⟩ := (hledger.placed hget hsource).occurs
    rw [← hplan', hplan] at ho
    have := (ho.unique hroot horigin hgrouped.occurs rfl).2
    omega
  obtain ⟨hlt, -⟩ := Array.getElem?_eq_some_iff.1 hn
  obtain ⟨f, g₂, g₃, hadds, hle, hlt⟩ := attachAll_adds hattach hnew hlt
  exact ⟨f, planned, g₁, fetched, log', g₂, g₃, hplanned, hfetch, hadds, hle, hlt⟩

/-- A list that waits after a round is deeper than the list whose follow-up added its nodes. -/
theorem Kept.depth_lt {m : ManyPlan} (hm : group.relation? = some m) {id : NodeId}
    (hid : id ∈ group.parents) {f : Fetched} (hf : AddedBy env storage g log f id) :
    ∃ m', f.planned.group.relation? = some m' ∧ m'.depth < m.depth := by
  obtain ⟨hroot, horigin⟩ := Plan.compileRoot_plannedFor hcompile
  have hgrouped := h.waiting_grouped hcompile hround hgroup
  obtain ⟨node, hn, hplan⟩ := hgrouped.parents id hid
  obtain ⟨planned, g₁, fetched, hplanned, hfetch, hattach⟩ := round_ok hround
  obtain ⟨_, _, _, _, g₂, g₃, hplanned', hfetch', hadds, hle, hlt⟩ := hf
  cases hplanned.symm.trans hplanned'
  cases hfetch.symm.trans hfetch'
  have hasked : Asked env f.planned := by
    have hstep := h.planGroups hroot horigin
    rw [hplanned] at hstep
    obtain ⟨-, -, -, hall⟩ := hstep
    obtain ⟨_, -, -, hok, -⟩ := fetchGroups_log hfetch
    obtain ⟨before, after, rfl, -⟩ := hadds.split
    refine hall _ ?_
    rw [← (hok _ rfl).2]
    exact List.mem_map_of_mem (List.mem_append_right _ List.mem_cons_self)
  obtain ⟨m', keys, hm', hc⟩ := hasked
  refine ⟨m', hm', ?_⟩
  obtain ⟨node₃, hn₃, hwithin⟩ := attach_within hadds.attached hle hlt
  obtain ⟨node', hn', hplan', -⟩ := hadds.keeps hattach id node₃ hn₃
  rw [hn] at hn'
  cases hn'
  rw [← hplan', hplan] at hwithin
  obtain ⟨i, field, m₂, hi, hk, hm₂⟩ := hgrouped.list
  cases hm.symm.trans hm₂
  exact Plan.depth_lt_of_within hc hwithin hi hk hm

end

/-! ### The loop -/

section

variable {env : Environment} {request : Request} {filter : Option Schema.TypeFilter}
  {storage : Storage} {root : Compiled} {n : Nat} {g g' : Graph} {log log' : List Sql.Statement}

theorem rounds_of_none {bound : Nat} (h : g.waiting = []) : rounds env bound g = pure g := by
  cases bound with
  | zero => rfl
  | succ bound =>
    unfold rounds
    rw [h]
    rfl

theorem rounds_of_some {bound : Nat} (h : g.waiting ≠ []) :
    rounds env (bound + 1) g = Resolution.round env g >>= rounds env bound := by
  unfold rounds
  cases hw : g.waiting with
  | nil => exact absurd hw h
  | cons group groups => rfl

/-- A bound that leaves room for all levels does not cut the rounds short. -/
theorem Kept.rounds_eq (hcompile : Plan.compileRoot env request filter = .ok root)
    (h : Kept env root.plan n [] g) {bound bound' : Nat} (hbound : request.depth ≤ n + 1 + bound)
    (hbound' : request.depth ≤ n + 1 + bound') : rounds env bound g = rounds env bound' g := by
  obtain ⟨hroot, horigin⟩ := Plan.compileRoot_plannedFor hcompile
  induction bound generalizing n g bound' with
  | zero =>
    have hwaiting : g.waiting = [] := by
      by_contra hwaiting
      have := h.lt_depth hcompile hwaiting
      omega
    rw [rounds_of_none hwaiting, rounds_of_none hwaiting]
  | succ bound ih =>
    by_cases hwaiting : g.waiting = []
    · rw [rounds_of_none hwaiting, rounds_of_none hwaiting]
    · have hlt := h.lt_depth hcompile hwaiting
      obtain ⟨bound', rfl⟩ : ∃ b, bound' = b + 1 := ⟨bound' - 1, by omega⟩
      rw [rounds_of_some hwaiting, rounds_of_some hwaiting]
      funext storage log
      have hends : Session.Ends storage _ _ _ := h.round_ends hroot horigin
      have hround := hends log
      rw [Session.bind_apply, Session.bind_apply]
      rcases hr : Resolution.round env g storage log with ⟨e | g', log'⟩
      · rfl
      · rw [hr] at hround
        simp only
        have heq : rounds env bound g' = rounds env bound' g' :=
          ih hround.1 (by omega) (by omega)
        rw [heq]

theorem Reached.lt_depth (h : Reached env request filter storage n g log) :
    n < request.depth := by
  obtain ⟨root, hcompile⟩ := h.compiled
  cases h with
  | start _ _ _ =>
    unfold Request.depth
    omega
  | next h hwaiting _ => exact (h.kept hcompile).lt_depth hcompile hwaiting

/-- The loop ends with a graph that its rounds lead to. -/
theorem Reached.rounds_ok (h : Reached env request filter storage n g log) {bound : Nat}
    (hrounds : rounds env bound g storage log = (.ok g', log')) :
    ∃ last, Reached env request filter storage last g' log' := by
  induction bound generalizing n g log with
  | zero =>
    cases hrounds
    exact ⟨n, h⟩
  | succ bound ih =>
    by_cases hwaiting : g.waiting = []
    · rw [rounds_of_none hwaiting] at hrounds
      cases hrounds
      exact ⟨n, h⟩
    · rw [rounds_of_some hwaiting, Session.bind_apply] at hrounds
      rcases hr : Resolution.round env g storage log with ⟨e | g₁, log₁⟩
      · rw [hr] at hrounds
        cases hrounds
      · rw [hr] at hrounds
        exact ih (.next h hwaiting hr) hrounds

variable (env request filter storage) in
/-- What is said of a graph between the rounds of a request. -/
structure RoundsEnd (n : Nat) (g : Graph) (log : List Sql.Statement) : Prop where
  /-- A round in which a group waits leaves fewer rounds than the request has levels. -/
  fewer : g.waiting ≠ [] → n + 1 < request.depth
  /-- The loop would go on no longer if it could. -/
  uncut : ∀ bound, request.depth ≤ n + 1 + bound → rounds env bound g = rounds env request.depth g
  /-- Where the loop succeeds, no group waits in the end. -/
  ended : ∀ g' log', rounds env request.depth g storage log = (.ok g', log') →
    g'.waiting = [] ∧ ∃ last < request.depth, Reached env request filter storage last g' log'
  /-- A list that waits after a round is deeper than the list whose follow-up added its nodes. -/
  deeper : ∀ g' log', round env g storage log = (.ok g', log') → ∀ group ∈ g'.waiting,
    ∃ m, group.relation? = some m ∧ ∀ id ∈ group.parents,
      (∃ f, AddedBy env storage g log f id) ∧ ∀ f, AddedBy env storage g log f id →
        ∃ m', f.planned.group.relation? = some m' ∧ m'.depth < m.depth

variable (env request filter storage) in
/-- The rounds of a request end before there are as many as it has levels, each a level deeper than
the one before, and no request fails because a list was not resolved, a list has no field, or a node
is not there. -/
theorem rounds_end :
    (∀ n g log, Reached env request filter storage n g log →
      RoundsEnd env request filter storage n g log) ∧
    ∀ typeName field fault,
      ((answer env request filter).outcome storage).1 = .error (.data typeName field fault) →
      fault ≠ .unresolved ∧ fault ≠ .noField ∧ ∀ id, fault ≠ .unknownNode id := by
  refine ⟨fun n g log h => ?_, fun typeName field fault herror => ?_⟩
  · obtain ⟨root, hcompile⟩ := h.compiled
    have hkept := h.kept hcompile
    refine ⟨hkept.lt_depth hcompile, ?_, ?_, ?_⟩
    · intro bound hbound
      exact hkept.rounds_eq hcompile hbound (by omega)
    · intro g' log' hrounds
      have hends : Session.Ends storage (rounds env request.depth g) _ _ :=
        hkept.rounds_ends hcompile (by omega)
      have hended := hends log
      rw [hrounds] at hended
      obtain ⟨last, hlast⟩ := h.rounds_ok hrounds
      exact ⟨hended.2, last, hlast.lt_depth, hlast⟩
    · intro g' log' hround group hgroup
      obtain ⟨i, field, m, -, -, hm⟩ := (hkept.waiting_grouped hcompile hround hgroup).list
      refine ⟨m, hm, fun id hid => ⟨hkept.waits_added hcompile hround hgroup hid, ?_⟩⟩
      exact fun f hf => hkept.depth_lt hcompile hround hgroup hm hid hf
  · have hends : Session.Ends storage (answer env request filter) _ _ := answer_ends
    have hgap := hends []
    change ((answer env request filter) storage []).1 = _ at herror
    rw [herror] at hgap
    refine ⟨?_, ?_, ?_⟩
    · rintro rfl
      exact hgap trivial
    · rintro rfl
      exact hgap trivial
    · rintro id rfl
      exact hgap trivial

end

theorem rounds_end_posts :
    ∃ g log, Reached Instance.environment Instance.request none (.ofFunction .sqlite Instance.fetch)
        0 g log ∧ g.waiting ≠ [] ∧
      RoundsEnd Instance.environment Instance.request none (.ofFunction .sqlite Instance.fetch)
        0 g log := by
  have hempty := Instance.root_params
  cases hroot : Plan.compileRoot Instance.environment Instance.request none with
  | error e =>
    rw [hroot] at hempty
    cases hempty
  | ok root =>
    obtain ⟨roots, g, hadd, hwaiting⟩ : ∃ roots g,
        (Graph.addRows root.plan Instance.posts).result {} = .ok (roots, g) ∧ g.waiting ≠ [] := by
      rw [Instance.plan_root hroot]
      exact ⟨_, _, rfl, List.cons_ne_nil _ _⟩
    have hstart := Reached.start hroot (Instance.serves.root root hroot) hadd
    exact ⟨g, _, hstart, hwaiting, (rounds_end _ _ _ _).1 _ _ _ hstart⟩

end Resolution

end ObjectGraph
