import Mathlib.Data.List.Nodup
import ObjectGraph.Proofs.Graph.Nodes
import ObjectGraph.Proofs.Plan.Twins

/-! # The groups that new nodes form

New nodes queue up for their lists, in a group for every list of a place (`queue`).  A node of a
place that has groups joins all of them, and a node of a new place begins all of its groups
(`enqueueAll_join`, `enqueueAll_new`).  So where two graphs get nodes of twins of plans, the groups
of the first are those of the second, and copies of them for the lists that were dropped
(`queue_copies`). -/

namespace ObjectGraph

/-! ### Lists with copies -/

/-- The members of a list are related to those of another in turn, except for copies, which are
related to a member that was there already. -/
inductive Copies {α β : Type} (S : α → β → Prop) : (seen : List β) → List α → List β → Prop
  | nil {seen : List β} : Copies S seen [] []
  | keep {seen ys : List β} {xs : List α} {x : α} {y : β} :
      S x y → Copies S (seen ++ [y]) xs ys → Copies S seen (x :: xs) (y :: ys)
  | again {seen ys : List β} {xs : List α} {x : α} {y : β} :
      y ∈ seen → S x y → Copies S seen xs ys → Copies S seen (x :: xs) ys

namespace Copies

variable {α β α' β' : Type} {S S' : α → β → Prop} {seen seen' ys ys' : List β} {xs xs' : List α}

theorem weaken (h : Copies S seen xs ys) (hseen : seen ⊆ seen') : Copies S seen' xs ys := by
  induction h generalizing seen' with
  | nil => exact .nil
  | keep hs _ ih =>
    refine .keep hs (ih ?_)
    exact List.append_subset.2 ⟨List.Subset.trans hseen (List.subset_append_left _ _),
      List.subset_append_right _ _⟩
  | again hy hs _ ih => exact .again (hseen hy) hs (ih hseen)

theorem append (h : Copies S seen xs ys) (h' : Copies S (seen ++ ys) xs' ys') :
    Copies S seen (xs ++ xs') (ys ++ ys') := by
  induction h with
  | nil =>
    rw [List.append_nil] at h'
    exact h'
  | keep hs _ ih =>
    refine .keep hs (ih ?_)
    rw [List.append_assoc]
    exact h'
  | again hy hs _ ih => exact .again hy hs (ih h')

theorem of_mem (h : ∀ x ∈ xs, ∃ y ∈ seen, S x y) : Copies S seen xs [] := by
  induction xs with
  | nil => exact .nil
  | cons x xs ih =>
    obtain ⟨y, hy, hs⟩ := h x List.mem_cons_self
    exact .again hy hs (ih fun x hx => h x (List.mem_cons_of_mem _ hx))

theorem exists_right (h : Copies S seen xs ys) {x : α} (hx : x ∈ xs) :
    ∃ y ∈ seen ++ ys, S x y := by
  induction h with
  | nil => cases hx
  | keep hs _ ih =>
    rcases List.mem_cons.1 hx with rfl | hx
    · exact ⟨_, List.mem_append_right _ List.mem_cons_self, hs⟩
    · obtain ⟨y, hy, hs⟩ := ih hx
      rw [List.append_assoc] at hy
      exact ⟨y, hy, hs⟩
  | again hy hs _ ih =>
    rcases List.mem_cons.1 hx with rfl | hx
    · exact ⟨_, List.mem_append_left _ hy, hs⟩
    · exact ih hx

theorem exists_left (h : Copies S seen xs ys) {y : β} (hy : y ∈ ys) : ∃ x ∈ xs, S x y := by
  induction h with
  | nil => cases hy
  | keep hs _ ih =>
    rcases List.mem_cons.1 hy with rfl | hy
    · exact ⟨_, List.mem_cons_self, hs⟩
    · obtain ⟨x, hx, hs⟩ := ih hy
      exact ⟨x, List.mem_cons_of_mem _ hx, hs⟩
  | again _ _ _ ih =>
    obtain ⟨x, hx, hs⟩ := ih hy
    exact ⟨x, List.mem_cons_of_mem _ hx, hs⟩

theorem map {T : α' → β' → Prop} {f : α → α'} {f' : β → β'} (h : Copies S seen xs ys)
    (hf : ∀ x y, S x y → T (f x) (f' y)) : Copies T (seen.map f') (xs.map f) (ys.map f') := by
  induction h with
  | nil => exact .nil
  | keep hs _ ih =>
    rw [List.map_append] at ih
    exact .keep (hf _ _ hs) ih
  | again hy hs _ ih => exact .again (List.mem_map_of_mem hy) (hf _ _ hs) ih

theorem mono (h : Copies S seen xs ys) (hS : ∀ x y, S x y → S' x y) : Copies S' seen xs ys := by
  induction h with
  | nil => exact .nil
  | keep hs _ ih => exact .keep (hS _ _ hs) ih
  | again hy hs _ ih => exact .again hy (hS _ _ hs) ih

theorem nil_iff (h : Copies S [] xs ys) : xs = [] ↔ ys = [] := by
  cases h with
  | nil => exact ⟨fun _ => rfl, fun _ => rfl⟩
  | keep _ _ => exact ⟨nofun, nofun⟩
  | again hy _ _ => cases hy

end Copies

namespace Graph

open Plan (NodePlan FieldPlan PlannedFor)

/-! ### A node among groups -/

section

variable {plan : NodePlan} {id : NodeId} {index : Nat} {indices : List Nat} {groups : List Group}

theorem enqueueIn_new (h : ∀ group ∈ groups, group.place ≠ (plan.origin, index)) :
    enqueueIn plan index id groups = groups ++ [⟨plan, index, [id]⟩] := by
  induction groups with
  | nil => rfl
  | cons group groups ih =>
    have hfirst : ¬group.isFor plan index = true :=
      fun hfor => h group List.mem_cons_self (Group.isFor_iff.1 hfor)
    unfold enqueueIn
    rw [if_neg hfirst, ih fun g hg => h g (List.mem_cons_of_mem _ hg)]
    rfl

/-- A node of a place without groups begins all of its groups. -/
theorem enqueueAll_new (hnodup : indices.Nodup)
    (h : ∀ index ∈ indices, ∀ group ∈ groups, group.place ≠ (plan.origin, index)) :
    enqueueAll plan id indices groups =
      groups ++ indices.map fun index => ⟨plan, index, [id]⟩ := by
  induction indices generalizing groups with
  | nil => exact (List.append_nil _).symm
  | cons index indices ih =>
    obtain ⟨hindex, hrest⟩ := List.nodup_cons.1 hnodup
    change enqueueAll plan id indices (enqueueIn plan index id groups) = _
    rw [enqueueIn_new (h index List.mem_cons_self), ih hrest]
    · rw [List.append_assoc]
      rfl
    · intro other ho group hg hplace
      rcases List.mem_append.1 hg with hg | hg
      · exact h other (List.mem_cons_of_mem _ ho) group hg hplace
      · rw [List.mem_singleton.1 hg] at hplace
        cases hplace
        exact hindex ho

/-- Add a node to a group of one of some lists of its plan. -/
def Group.join (plan : NodePlan) (id : NodeId) (indices : List Nat) (group : Group) : Group :=
  if group.plan.origin = plan.origin ∧ group.index ∈ indices then
    { group with parents := group.parents ++ [id] }
  else group

theorem Group.plan_join (group : Group) : (group.join plan id indices).plan = group.plan := by
  unfold Group.join
  split <;> rfl

theorem Group.index_join (group : Group) : (group.join plan id indices).index = group.index := by
  unfold Group.join
  split <;> rfl

theorem Group.place_join (group : Group) : (group.join plan id indices).place = group.place := by
  unfold Group.place
  rw [group.plan_join, group.index_join]

theorem map_place_join : (groups.map (Group.join plan id indices)).map Group.place =
    groups.map Group.place := by
  rw [List.map_map]
  exact List.map_congr_left fun group _ => group.place_join

theorem enqueueIn_join (hnodup : (groups.map Group.place).Nodup)
    (h : (plan.origin, index) ∈ groups.map Group.place) :
    enqueueIn plan index id groups = groups.map (Group.join plan id [index]) := by
  induction groups with
  | nil => cases h
  | cons group groups ih =>
    obtain ⟨hplace, hrest⟩ := List.nodup_cons.1 hnodup
    unfold enqueueIn
    by_cases hfor : group.isFor plan index = true
    · have hself := Group.isFor_iff.1 hfor
      have hothers : groups.map (Group.join plan id [index]) = groups := by
        refine (List.map_congr_left fun other ho => ?_).trans (List.map_id _)
        refine if_neg ?_
        rintro ⟨horigin, hindex⟩
        refine hplace ?_
        rw [hself, ← horigin, ← List.mem_singleton.1 hindex]
        exact List.mem_map_of_mem (f := Group.place) ho
      rw [if_pos hfor, List.map_cons, hothers]
      unfold Group.join
      rw [if_pos ⟨congrArg Prod.fst hself, List.mem_singleton.2 (congrArg Prod.snd hself)⟩]
    · have hne : ¬(group.plan.origin = plan.origin ∧ group.index ∈ [index]) := by
        rintro ⟨horigin, hindex⟩
        refine hfor (Group.isFor_iff.2 ?_)
        unfold Group.place
        rw [horigin, List.mem_singleton.1 hindex]
      rw [if_neg hfor, List.map_cons, ih hrest]
      · unfold Group.join
        rw [if_neg hne]
      · rcases List.mem_cons.1 h with heq | h
        · exact absurd (Group.isFor_iff.2 heq.symm) hfor
        · exact h

/-- A node of a place that has groups for all of its lists joins them. -/
theorem enqueueAll_join (hindices : indices.Nodup) (hnodup : (groups.map Group.place).Nodup)
    (h : ∀ index ∈ indices, (plan.origin, index) ∈ groups.map Group.place) :
    enqueueAll plan id indices groups = groups.map (Group.join plan id indices) := by
  induction indices generalizing groups with
  | nil =>
    refine (List.map_id _).symm.trans (List.map_congr_left fun group _ => ?_)
    exact (if_neg fun hj => List.not_mem_nil hj.2).symm
  | cons index indices ih =>
    obtain ⟨hindex, hrest⟩ := List.nodup_cons.1 hindices
    change enqueueAll plan id indices (enqueueIn plan index id groups) = _
    rw [enqueueIn_join hnodup (h index List.mem_cons_self), ih hrest, List.map_map]
    · refine List.map_congr_left fun group _ => ?_
      rw [Function.comp_apply]
      -- a group is for one list only
      by_cases horigin : group.plan.origin = plan.origin
      · by_cases hself : group.index = index
        · simp [Group.join, horigin, hself, hindex]
        · simp [Group.join, horigin, hself]
      · simp [Group.join, horigin]
    · rw [map_place_join]
      exact hnodup
    · intro other ho
      rw [map_place_join]
      exact h other (List.mem_cons_of_mem _ ho)

end

theorem manyIndices_nodup {env : Plan.Environment} {selections : List Selection} {plan : NodePlan}
    (h : PlannedFor env selections plan) : (manyIndices plan).Nodup := by
  unfold manyIndices List.Nodup
  rw [List.pairwise_filterMap, List.pairwise_iff_getElem]
  intro i i' hi hi' hlt j hj j' hj' heq
  subst heq
  have hkind : (plan.fields[i]).kind = .many j := by
    cases hk : (plan.fields[i]).kind <;> rw [hk] at hj <;> cases hj
    rfl
  have hkind' : (plan.fields[i']).kind = .many j := by
    cases hk : (plan.fields[i']).kind <;> rw [hk] at hj' <;> cases hj'
    rfl
  have := h.many_unique (List.getElem?_eq_getElem hi) (List.getElem?_eq_getElem hi') hkind hkind'
  omega

/-! ### Nodes one after another -/

/-- The groups after nodes are added to a graph of a size. -/
def queue : List Node → (size : Nat) → List Group → List Group
  | [], _, groups => groups
  | node :: nodes, size, groups =>
    queue nodes (size + 1) (enqueueAll node.plan size (manyIndices node.plan) groups)

theorem waiting_pushAll (graph : Graph) (nodes : List Node) :
    (pushAll graph nodes).waiting = queue nodes graph.nodes.size graph.waiting := by
  induction nodes generalizing graph with
  | nil => rfl
  | cons node nodes ih =>
    change (pushAll (pushed graph node) nodes).waiting = _
    rw [ih, pushed, Array.size_push]
    rfl

theorem enqueueIn_append {plan : NodePlan} {id : NodeId} {index : Nat} {before groups : List Group}
    (h : ∀ group ∈ before, group.plan.origin ≠ plan.origin) :
    enqueueIn plan index id (before ++ groups) = before ++ enqueueIn plan index id groups := by
  induction before with
  | nil => rfl
  | cons group before ih =>
    have hfirst : ¬group.isFor plan index = true := by
      intro hfor
      exact h group List.mem_cons_self (congrArg Prod.fst (Group.isFor_iff.1 hfor))
    rw [List.cons_append, enqueueIn, if_neg hfirst,
      ih fun g hg => h g (List.mem_cons_of_mem _ hg)]
    rfl

/-- Nodes of other places leave groups as they are. -/
theorem queue_append {nodes : List Node} {size : Nat} {before groups : List Group}
    (h : ∀ group ∈ before, ∀ node ∈ nodes, group.plan.origin ≠ node.plan.origin) :
    queue nodes size (before ++ groups) = before ++ queue nodes size groups := by
  induction nodes generalizing size groups with
  | nil => rfl
  | cons node nodes ih =>
    have hall : ∀ indices groups, enqueueAll node.plan size indices (before ++ groups) =
        before ++ enqueueAll node.plan size indices groups := by
      intro indices
      induction indices with
      | nil => exact fun _ => rfl
      | cons index indices ihIndices =>
        intro groups
        change enqueueAll node.plan size indices (enqueueIn node.plan index size _) = _
        rw [enqueueIn_append fun group hg => h group hg node List.mem_cons_self, ihIndices]
        rfl
    unfold queue
    rw [hall, ih fun group hg n hn => h group hg n (List.mem_cons_of_mem _ hn)]

theorem queue_fresh {nodes : List Node} {size : Nat} {groups : List Group}
    (h : ∀ group ∈ groups, ∀ node ∈ nodes, group.plan.origin ≠ node.plan.origin) :
    queue nodes size groups = groups ++ queue nodes size [] := by
  have happend : queue nodes size (groups ++ []) = groups ++ queue nodes size [] := queue_append h
  rw [List.append_nil] at happend
  exact happend

theorem queue_origins {nodes : List Node} {size : Nat} {groups : List Group} {group : Group}
    (h : group ∈ queue nodes size groups) :
    (∃ other ∈ groups, group.plan = other.plan) ∨ ∃ node ∈ nodes, group.plan = node.plan := by
  induction nodes generalizing size groups with
  | nil => exact .inl ⟨group, h, rfl⟩
  | cons node nodes ih =>
    rcases ih h with ⟨other, ho, hplan⟩ | ⟨other, ho, hplan⟩
    · have hall : ∀ g ∈ enqueueAll node.plan size (manyIndices node.plan) groups,
          (∃ other ∈ groups, g.plan = other.plan) ∨ g.plan = node.plan :=
        enqueueAll_all (fun g hg => .inl ⟨g, hg, rfl⟩) (fun _ _ _ hg _ => hg) fun _ _ => .inr rfl
      rcases hall other ho with ⟨first, hf, hplan'⟩ | hplan'
      · exact .inl ⟨first, hf, hplan.trans hplan'⟩
      · exact .inr ⟨node, List.mem_cons_self, hplan.trans hplan'⟩
    · exact .inr ⟨other, List.mem_cons_of_mem _ ho, hplan⟩

/-- Every place that has a group has one for each of its lists. -/
structure Queued (groups : List Group) : Prop where
  nodup : (groups.map Group.place).Nodup
  all : ∀ group ∈ groups, ∀ index ∈ manyIndices group.plan,
    (group.plan.origin, index) ∈ groups.map Group.place

theorem Queued.nil : Queued [] := ⟨List.nodup_nil, fun _ hg => nomatch hg⟩

section

variable {plan : NodePlan} {id : NodeId} {groups : List Group} (hplan : (manyIndices plan).Nodup)

theorem Queued.join (h : Queued groups) {indices : List Nat} :
    Queued (groups.map (Group.join plan id indices)) := by
  constructor
  case nodup =>
    rw [map_place_join]
    exact h.nodup
  case all =>
    intro group hg index hi
    obtain ⟨other, ho, rfl⟩ := List.mem_map.1 hg
    rw [other.plan_join] at hi ⊢
    rw [map_place_join]
    exact h.all other ho index hi

include hplan

theorem Queued.new (h : Queued groups)
    (hnew : ∀ group ∈ groups, group.plan.origin ≠ plan.origin) :
    Queued (groups ++ (manyIndices plan).map fun index => ⟨plan, index, [id]⟩) := by
  have hplaces : ((manyIndices plan).map fun index => (⟨plan, index, [id]⟩ : Group)).map
      Group.place = (manyIndices plan).map fun index => (plan.origin, index) := by
    rw [List.map_map]
    rfl
  constructor
  case nodup =>
    rw [List.map_append, hplaces]
    refine List.nodup_append.2 ⟨h.nodup, List.Nodup.map ?_ hplan, ?_⟩
    · exact fun _ _ heq => congrArg Prod.snd heq
    · rintro place hold _ hnew' rfl
      obtain ⟨group, hg, hplace⟩ := List.mem_map.1 hold
      obtain ⟨index, -, hi⟩ := List.mem_map.1 hnew'
      exact hnew group hg (congrArg Prod.fst (hplace.trans hi.symm))
  case all =>
    intro group hg index hi
    rw [List.map_append, List.mem_append, hplaces]
    rcases List.mem_append.1 hg with hg | hg
    · exact .inl (h.all group hg index hi)
    · obtain ⟨_, _, rfl⟩ := List.mem_map.1 hg
      exact .inr (List.mem_map.2 ⟨index, hi, rfl⟩)

end

/-! ### Nodes of twins -/

section

variable (env : Plan.Environment) (repeatable : Schema.Resolved → Prop)
  (R : NodeId → NodeId → Prop)

/-- Lists of twins that stand for each other. -/
def ListsStand (plan plan' : NodePlan) (j j' : Nat) : Prop :=
  ∃ (i i' : Nat) (field field' : FieldPlan NodePlan), Plan.Stands env repeatable plan plan' i i' ∧
    plan.fields[i]? = some field ∧ field.kind = .many j ∧
    plan'.fields[i']? = some field' ∧ field'.kind = .many j'

/-- Groups for lists that stand for each other, with the same parents. -/
structure GroupTwin (group group' : Group) : Prop where
  plan : Plan.Twin env repeatable group.plan group'.plan
  list : ListsStand env repeatable group.plan group'.plan group.index group'.index
  parents : List.Forall₂ R group.parents group'.parents

end

section

variable {env : Plan.Environment} {repeatable : Schema.Resolved → Prop}
  {R : NodeId → NodeId → Prop} {plan plan' : NodePlan}

/-- Groups for lists that stand for each other are for twins of lists. -/
theorem GroupTwin.relations {group group' : Group} (h : GroupTwin env repeatable R group group') :
    ∃ m m', group.relation? = some m ∧ group'.relation? = some m' ∧
      Plan.ManyTwin env repeatable m m' := by
  obtain ⟨i, i', field, field', hs, hf, hk, hf', hk'⟩ := h.list
  obtain ⟨other, other', ho, ho', ht⟩ := h.plan.stands_fields hs
  cases hf.symm.trans ho
  cases hf'.symm.trans ho'
  have hkind := ht.kind
  rw [hk, hk'] at hkind
  cases hkind with
  | many hm hm' htwin => exact ⟨_, _, hm, hm', htwin⟩

theorem GroupTwin.mono {R' : NodeId → NodeId → Prop} {group group' : Group}
    (h : GroupTwin env repeatable R group group') (hR : ∀ id id', R id id' → R' id id') :
    GroupTwin env repeatable R' group group' :=
  ⟨h.plan, h.list, h.parents.imp fun _ _ => hR _ _⟩

theorem ListsStand.mem {j j' : Nat} (h : ListsStand env repeatable plan plan' j j') :
    j ∈ manyIndices plan ∧ j' ∈ manyIndices plan' := by
  obtain ⟨i, i', field, field', -, hf, hk, hf', hk'⟩ := h
  exact ⟨mem_manyIndices.2 ⟨field, List.mem_of_getElem? hf, hk⟩,
    mem_manyIndices.2 ⟨field', List.mem_of_getElem? hf', hk'⟩⟩

/-- The list that a field is. -/
def listOf (field : FieldPlan NodePlan) : Option Nat :=
  match field.kind with
  | .many index => some index
  | _ => none

theorem listOf_eq_some {field : FieldPlan NodePlan} {j : Nat} :
    listOf field = some j ↔ field.kind = .many j := by
  unfold listOf
  cases field.kind <;> simp

theorem listOf_twin {field field' : FieldPlan NodePlan}
    (h : Plan.FieldTwin env repeatable plan plan' field field') :
    (listOf field = none ∧ listOf field' = none) ∨
      ∃ j j', field.kind = .many j ∧ field'.kind = .many j' := by
  have hkind := h.kind
  unfold listOf
  cases hk : field.kind with
  | value =>
    rw [hk] at hkind
    cases hk' : field'.kind with
    | value => exact .inl ⟨rfl, rfl⟩
    | single _ => rw [hk'] at hkind; cases hkind
    | many _ => rw [hk'] at hkind; cases hkind
  | single child =>
    rw [hk] at hkind
    cases hk' : field'.kind with
    | single _ => exact .inl ⟨rfl, rfl⟩
    | value => rw [hk'] at hkind; cases hkind
    | many _ => rw [hk'] at hkind; cases hkind
  | many j =>
    rw [hk] at hkind
    cases hk' : field'.kind with
    | many j' => exact .inr ⟨j, j', rfl, rfl⟩
    | value => rw [hk'] at hkind; cases hkind
    | single _ => rw [hk'] at hkind; cases hkind

theorem fieldsTwin_lists {taken a : Nat} {slots : List Nat}
    {fields fields' : List (FieldPlan NodePlan)} {seen : List Nat}
    (h : Plan.FieldsTwin env repeatable plan plan' taken slots fields fields')
    (hslots : (Plan.slotsOf env repeatable plan plan').drop a = slots)
    (hfields : plan.fields.drop a = fields) (hfields' : plan'.fields.drop taken = fields')
    (hseen : ∀ (i : Nat) (field : FieldPlan NodePlan) (j : Nat), i < taken →
      plan'.fields[i]? = some field → field.kind = .many j → j ∈ seen) :
    Copies (ListsStand env repeatable plan plan') seen (fields.filterMap listOf)
      (fields'.filterMap listOf) := by
  induction h generalizing a seen with
  | nil => exact .nil
  | @keep taken _ field field' _ _ hf _ ih =>
    obtain ⟨hslot, hslots⟩ := Plan.drop_cons hslots
    obtain ⟨hfield, hfields⟩ := Plan.drop_cons hfields
    obtain ⟨hfield', hfields'⟩ := Plan.drop_cons hfields'
    have hcase : ∀ i, i < taken + 1 → i < taken ∨ i = taken := fun i hi => by omega
    rcases listOf_twin hf with ⟨hl, hl'⟩ | ⟨j, j', hk, hk'⟩
    · rw [List.filterMap_cons_none hl, List.filterMap_cons_none hl']
      refine ih hslots hfields hfields' ?_
      intro i other j hi ho hj
      rcases hcase i hi with hi | rfl
      · exact hseen i other j hi ho hj
      · cases hfield'.symm.trans ho
        rw [listOf_eq_some.2 hj] at hl'
        cases hl'
    · rw [List.filterMap_cons_some (listOf_eq_some.2 hk),
        List.filterMap_cons_some (listOf_eq_some.2 hk')]
      refine .keep ⟨a, taken, field, field', hslot, hfield, hk, hfield', hk'⟩
        (ih hslots hfields hfields' ?_)
      intro i other k hi ho hj
      rcases hcase i hi with hi | rfl
      · exact List.mem_append_left _ (hseen i other k hi ho hj)
      · cases hfield'.symm.trans ho
        cases hk'.symm.trans hj
        exact List.mem_append_right _ (List.mem_singleton_self _)
  | @again taken i _ field field' _ _ hlast hf _ _ _ ih =>
    obtain ⟨hslot, hslots⟩ := Plan.drop_cons hslots
    obtain ⟨hfield, hfields⟩ := Plan.drop_cons hfields
    rcases listOf_twin hf with ⟨hl, -⟩ | ⟨j, j', hk, hk'⟩
    · rw [List.filterMap_cons_none hl]
      exact ih hslots hfields hfields' hseen
    · rw [List.filterMap_cons_some (listOf_eq_some.2 hk)]
      exact .again (hseen i field' j' hlast.lt hlast.at_i hk')
        ⟨a, i, field, field', hslot, hfield, hk, hlast.at_i, hk'⟩ (ih hslots hfields hfields' hseen)

/-- The lists of a plan are those of its twin and copies of them. -/
theorem manyIndices_copies (h : Plan.Twin env repeatable plan plan') :
    Copies (ListsStand env repeatable plan plan') [] (manyIndices plan) (manyIndices plan') :=
  fieldsTwin_lists (a := 0) h.fieldsTwin rfl rfl rfl
    fun _ _ _ hlt => absurd hlt (Nat.not_lt_zero _)

/-- Nodes of twins that join groups of twins leave them groups of twins. -/
theorem join_twin {root root' : NodePlan} (hroot : Plan.Twin env repeatable root root')
    (hplan : Plan.TwinsWithin env repeatable root root' plan plan') {id id' : NodeId}
    (hid : R id id')
    {group group' : Group} (h : GroupTwin env repeatable R group group')
    (hw : Plan.TwinsWithin env repeatable root root' group.plan group'.plan) :
    GroupTwin env repeatable R (group.join plan id (manyIndices plan))
        (group'.join plan' id' (manyIndices plan')) ∧
      Plan.TwinsWithin env repeatable root root' (group.join plan id (manyIndices plan)).plan
        (group'.join plan' id' (manyIndices plan')).plan := by
  obtain ⟨hmem, hmem'⟩ := h.list.mem
  refine ⟨?_, by rwa [group.plan_join, group'.plan_join]⟩
  by_cases horigin : group.plan.origin = plan.origin
  · obtain ⟨hself, hself'⟩ := hw.unique hroot hplan (.inl horigin)
    rw [hself] at hmem
    rw [hself'] at hmem'
    unfold Group.join
    rw [if_pos ⟨horigin, hmem⟩, if_pos ⟨congrArg NodePlan.origin hself', hmem'⟩]
    exact ⟨h.plan, h.list, List.rel_append h.parents (.cons hid .nil)⟩
  · have horigin' : group'.plan.origin ≠ plan'.origin := by
      intro ho
      obtain ⟨hself, -⟩ := hw.unique hroot hplan (.inr ho)
      exact horigin (congrArg NodePlan.origin hself)
    unfold Group.join
    rw [if_neg fun hj => horigin hj.1, if_neg fun hj => horigin' hj.1]
    exact h

/-- The nodes of twins of plans form groups for lists that stand for each other, with copies where
a list was dropped. -/
theorem queue_copies {root root' : NodePlan} (hroot : Plan.Twin env repeatable root root')
    {nodes nodes' : List Node} {size size' : Nat} {groups groups' : List Group}
    (h : List.Forall₂ (fun n n' => Plan.TwinsWithin env repeatable root root' n.plan n'.plan) nodes
      nodes')
    (hR : ∀ k < nodes.length, R (size + k) (size' + k)) (hq : Queued groups) (hq' : Queued groups')
    (hgroups : Copies (fun group group' => GroupTwin env repeatable R group group' ∧
      Plan.TwinsWithin env repeatable root root' group.plan group'.plan) [] groups groups') :
    Copies (fun group group' => GroupTwin env repeatable R group group' ∧
      Plan.TwinsWithin env repeatable root root' group.plan group'.plan) []
      (queue nodes size groups) (queue nodes' size' groups') := by
  induction h generalizing size size' groups groups' with
  | nil => exact hgroups
  | @cons node node' nodes nodes' hn _ ih =>
    have hid : R size size' := hR 0 (Nat.zero_lt_succ _)
    have htwin := hn.twin hroot
    obtain ⟨⟨_, hp⟩, ⟨_, hp'⟩⟩ := htwin.plannedFor
    have hnodup := manyIndices_nodup hp
    have hnodup' := manyIndices_nodup hp'
    have hrest : ∀ k < nodes.length, R (size + 1 + k) (size' + 1 + k) := by
      intro k hk
      have hstep := hR (k + 1) (Nat.succ_lt_succ hk)
      rwa [show size + (k + 1) = size + 1 + k by omega,
        show size' + (k + 1) = size' + 1 + k by omega] at hstep
    unfold queue
    by_cases hplace : ∃ group ∈ groups, group.plan.origin = node.plan.origin
    · -- both nodes join the groups of their places
      obtain ⟨group, hg, ho⟩ := hplace
      obtain ⟨group', hg', -, hw⟩ := hgroups.exists_right hg
      obtain ⟨hself, hself'⟩ := hw.unique hroot hn (.inl ho)
      have hall : ∀ index ∈ manyIndices node.plan,
          (node.plan.origin, index) ∈ groups.map Group.place := by
        rw [← hself]
        exact hq.all group hg
      have hall' : ∀ index ∈ manyIndices node'.plan,
          (node'.plan.origin, index) ∈ groups'.map Group.place := by
        rw [← hself']
        exact hq'.all group' hg'
      rw [enqueueAll_join hnodup hq.nodup hall, enqueueAll_join hnodup' hq'.nodup hall']
      refine ih hrest hq.join hq'.join ?_
      exact hgroups.map fun x y hxy => join_twin hroot hn hid hxy.1 hxy.2
    · have hnew : ∀ group ∈ groups, group.plan.origin ≠ node.plan.origin :=
        fun group hg ho => hplace ⟨group, hg, ho⟩
      have hnew' : ∀ group ∈ groups', group.plan.origin ≠ node'.plan.origin := by
        intro group' hg' ho
        obtain ⟨group, hg, -, hw⟩ := hgroups.exists_left hg'
        obtain ⟨hself, -⟩ := hw.unique hroot hn (.inr ho)
        exact hnew group hg (congrArg NodePlan.origin hself)
      rw [enqueueAll_new hnodup fun _ _ group hg ho => hnew group hg (congrArg Prod.fst ho),
        enqueueAll_new hnodup' fun _ _ group hg ho => hnew' group hg (congrArg Prod.fst ho)]
      refine ih hrest (hq.new hnodup hnew) (hq'.new hnodup' hnew') (hgroups.append ?_)
      have hlists : Copies (fun group group' => GroupTwin env repeatable R group group' ∧
            Plan.TwinsWithin env repeatable root root' group.plan group'.plan) []
          ((manyIndices node.plan).map fun index => ⟨node.plan, index, [size]⟩)
          ((manyIndices node'.plan).map fun index => ⟨node'.plan, index, [size']⟩) :=
        (manyIndices_copies htwin).map fun j j' hj => ⟨⟨htwin, hj, .cons hid .nil⟩, hn⟩
      exact hlists.weaken (List.nil_subset _)

end

end Graph

end ObjectGraph
