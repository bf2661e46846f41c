import Mathlib.Data.List.Perm.Subperm
import ObjectGraph.Proofs.Resolution.Loop

/-! # The statements of a request

A request is fetched with one root statement and at most one follow-up for every list that it
selects, however many objects there are.  `listPlaces` counts the lists of a request by the
selection and the schema alone.  All nodes of a place wait in one group, so a round issues one
statement for each place (`Kept.round_log`), and no place is served in two rounds, since its objects
are all added in one (`Logged.round`). -/

namespace ObjectGraph

namespace Resolution

open ObjectGraph.Graph (Group NodeId)
open Plan (Environment Compiled NodePlan ManyPlan FieldPlan PlannedAt Occurs)
open Schema (Registry)

/-! ### The lists that a request selects -/

mutual

/-- The places of the lists that a selected field at a place leads to: its own, if it is a list,
and those below it. -/
def placesOf (registry : Registry) (typeName : String) (place : List Nat) :
    Selection → List (List Nat)
  | .scalar _ => []
  | .nested name fields =>
    match registry.resolve typeName name with
    | .error _ => []
    | .ok resolved =>
      match resolved.relation? with
      | none => []
      | some relation =>
        let target := resolved.view.getD relation.target
        let below := placesBelow registry target place 0 fields
        if relation.many then place :: below else below

/-- The places of the lists that selected fields lead to, the first of them at a position of their
level. -/
def placesBelow (registry : Registry) (typeName : String) (origin : List Nat) (position : Nat) :
    List Selection → List (List Nat)
  | [] => []
  | field :: fields =>
    placesOf registry typeName (origin ++ [position]) field ++
      placesBelow registry typeName origin (position + 1) fields

end

/-- The places of all lists that a request selects, also inside single related objects. -/
def listPlaces (registry : Registry) (request : Request) : List (List Nat) :=
  placesBelow registry request.typeName [] 0 request.fields

section

variable {registry : Registry} {typeName : String} {origin : List Nat}

theorem placesOf_subset {selections : List Selection} {i : Nat} {selection : Selection}
    (h : selections[i]? = some selection) (position : Nat) :
    placesOf registry typeName (origin ++ [position + i]) selection ⊆
      placesBelow registry typeName origin position selections := by
  induction selections generalizing i position with
  | nil => simp at h
  | cons first selections ih =>
    unfold placesBelow
    cases i with
    | zero =>
      cases h
      exact List.subset_append_left _ _
    | succ i =>
      have hrest := ih h (position + 1)
      rw [show position + 1 + i = position + (i + 1) by omega] at hrest
      exact List.Subset.trans hrest (List.subset_append_right _ _)

variable {place : List Nat} {name : String} {fields : List Selection}
  {resolved : Schema.Resolved} {relation : Schema.Relation}

theorem placesOf_single (hr : registry.resolve typeName name = .ok resolved)
    (hn : resolved.relation? = some relation) (hm : relation.many = false) :
    placesOf registry typeName place (.nested name fields) =
      placesBelow registry (resolved.view.getD relation.target) place 0 fields := by
  simp only [placesOf, hr, hn, hm, Bool.false_eq_true, if_false]

theorem placesOf_many (hr : registry.resolve typeName name = .ok resolved)
    (hn : resolved.relation? = some relation) (hm : relation.many = true) :
    placesOf registry typeName place (.nested name fields) =
      place :: placesBelow registry (resolved.view.getD relation.target) place 0 fields := by
  simp only [placesOf, hr, hn, hm, if_true]

end

/-- The place of a list of a level and those below it are among the places of the level. -/
theorem places_of_list {env : Environment} {depth : Nat} {selections : List Selection}
    {plan : NodePlan} (hplan : PlannedAt env depth selections plan) {i j : Nat}
    {field : FieldPlan NodePlan} {m : ManyPlan} (hi : plan.fields[i]? = some field)
    (hk : field.kind = .many j) (hm : plan.many[j]? = some m) :
    m.origin :: placesBelow env.registry m.target m.origin 0 m.selection ⊆
      placesBelow env.registry plan.typeName plan.origin 0 selections := by
  obtain ⟨mapping, selection, hs, hf⟩ := hplan.field_at hi
  have hbelow : placesOf env.registry plan.typeName (plan.origin ++ [0 + i]) selection ⊆
      placesBelow env.registry plan.typeName plan.origin 0 selections := placesOf_subset hs 0
  rw [Nat.zero_add] at hbelow
  cases hf with
  | value _ _ => cases hk
  | single _ _ _ _ _ => cases hk
  | many hr hn hmany hl =>
    cases hk
    cases hm.symm.trans hl
    rw [placesOf_many hr hn hmany] at hbelow
    exact hbelow

section

variable {env : Environment} {request : Request} {filter : Option Schema.TypeFilter}
  {root : Compiled} (hcompile : Plan.compileRoot env request filter = .ok root)

include hcompile

/-- The lists below a level of a request are lists of the request. -/
theorem occurs_places {round : Nat} {plan : NodePlan} (h : Occurs env root.plan round plan) :
    ∃ depth selections, PlannedAt env depth selections plan ∧
      placesBelow env.registry plan.typeName plan.origin 0 selections ⊆
        listPlaces env.registry request := by
  induction h with
  | root =>
    obtain ⟨horigin, htype, -⟩ := Plan.compileRoot_planned hcompile
    refine ⟨1, request.fields, Plan.compileRoot_plannedAt hcompile, ?_⟩
    rw [horigin, htype]
    exact List.Subset.refl _
  | single _ hi hk ih =>
    obtain ⟨depth, selections, hplan, hsub⟩ := ih
    obtain ⟨mapping, selection, hs, hf⟩ := hplan.field_at hi
    have hbelow := List.Subset.trans (placesOf_subset hs 0) hsub
    rw [Nat.zero_add] at hbelow
    cases hf with
    | value _ _ => cases hk
    | many _ _ _ _ => cases hk
    | single hr hn hm _ hchild =>
      cases hk
      rw [placesOf_single hr hn hm] at hbelow
      exact ⟨depth + 1, _, ⟨_, hchild⟩, hbelow⟩
  | many _ hi hk hm hc ih =>
    obtain ⟨depth, selections, hplan, hsub⟩ := ih
    obtain ⟨horigin, htype, -⟩ := Plan.compileMany_planned hc
    refine ⟨_, _, Plan.compileMany_plannedAt hc, ?_⟩
    rw [horigin, htype]
    exact List.Subset.trans (List.subset_cons_self _ _)
      (List.Subset.trans (places_of_list hplan hi hk hm) hsub)

theorem listed_place {m : ManyPlan} (h : Plan.Listed env root.plan m) :
    m.origin ∈ listPlaces env.registry request := by
  obtain ⟨round, i, j, plan, field, ho, hi, hk, hm⟩ := h
  obtain ⟨depth, selections, hplan, hsub⟩ := occurs_places hcompile ho
  exact hsub (places_of_list hplan hi hk hm List.mem_cons_self)

end

/-! ### The statements of a round -/

/-- A list stands on a level whose objects are fetched in a round. -/
def ListedIn (env : Environment) (root : NodePlan) (round : Nat) (m : ManyPlan) : Prop :=
  ∃ (i j : Nat) (plan : NodePlan) (field : FieldPlan NodePlan),
    Occurs env root round plan ∧ plan.fields[i]? = some field ∧ field.kind = .many j ∧
      plan.many[j]? = some m

/-- A statement is a follow-up for the list of a place, on a level fetched in a round. -/
def FollowsUp (env : Environment) (root : NodePlan) (round : Nat) (place : List Nat)
    (statement : Sql.Statement) : Prop :=
  ∃ m keys compiled, ListedIn env root round m ∧ m.origin = place ∧
    Plan.compileMany env m keys = .ok compiled ∧ statement = compiled.statement

/-- The place of the list of a planned group. -/
def Planned.place (planned : Planned) : List Nat :=
  (planned.group.relation?.map ManyPlan.origin).getD []

/-- Statements are follow-ups for different places, whose levels were fetched before a round. -/
def Logged (env : Environment) (root : NodePlan) (round : Nat) (followUps : List Sql.Statement) :
    Prop :=
  ∃ places : List (List Nat), places.Nodup ∧
    List.Forall₂ (fun place statement => ∃ r < round, FollowsUp env root r place statement)
      places followUps

section

variable {env : Environment} {root : NodePlan} {selections : List Selection} {n : Nat}
  {g : Graph} {storage : Storage} {log log' : List Sql.Statement}
  (hroot : Plan.PlannedFor env selections root) (horigin : root.origin = [])

include hroot horigin

/-- The lists of one place are on one level, so fetched after one round. -/
theorem FollowsUp.unique {n' : Nat} {place : List Nat} {statement statement' : Sql.Statement}
    (h : FollowsUp env root n place statement)
    (h' : FollowsUp env root n' place statement') : n = n' := by
  obtain ⟨m, _, _, ⟨i, j, plan, field, ho, hi, hk, hm⟩, rfl, -⟩ := h
  obtain ⟨m', _, _, ⟨i', j', plan', field', ho', hi', hk', hm'⟩, hplace, -⟩ := h'
  obtain ⟨rfl, -⟩ := ho.list_unique hroot horigin ho' hi hi' hk hk' hm hm' hplace.symm
  exact (ho.unique hroot horigin ho' rfl).2

/-- The groups that wait are planned for different places, each with a follow-up of its list. -/
theorem Kept.planned_places (h : Kept env root n [] g) {planned : List Planned} {g₁ : Graph}
    (hplan : Resolution.planGroups env g.waiting { g with waiting := [] } = .ok (planned, g₁)) :
    (planned.map Planned.place).Nodup ∧
      ∀ p ∈ planned, ∃ m keys, ListedIn env root n m ∧ m.origin = p.place ∧
        Plan.compileMany env m keys = .ok p.compiled := by
  have hplanned := h.planGroups hroot horigin
  rw [hplan] at hplanned
  obtain ⟨⟨sources, h₁⟩, -, -, hasked⟩ := hplanned
  have hlists : ∀ p ∈ planned, ∃ (i : Nat) (field : FieldPlan NodePlan) (m : ManyPlan),
      p.group.plan.fields[i]? = some field ∧ field.kind = .many p.group.index ∧
      p.group.plan.many[p.group.index]? = some m ∧ Occurs env root n p.group.plan ∧
      p.place = m.origin := by
    intro p hp
    obtain ⟨r, hr, hgroup⟩ := h₁.todo_grouped p.group (List.mem_map_of_mem hp)
    cases hr
    obtain ⟨i, field, m, hi, hk, hm⟩ := hgroup.list
    refine ⟨i, field, m, hi, hk, hm, hgroup.occurs, ?_⟩
    unfold Planned.place Group.relation?
    rw [hm]
    rfl
  constructor
  · have hnodup := h₁.todo_nodup
    rw [List.map_map] at hnodup
    refine List.pairwise_map.2 ((List.pairwise_map.1 hnodup).imp_of_mem ?_)
    intro p p' hp hp' hne hplace
    obtain ⟨i, field, m, hi, hk, hm, ho, hmo⟩ := hlists p hp
    obtain ⟨i', field', m', hi', hk', hm', ho', hmo'⟩ := hlists p' hp'
    rw [hmo, hmo'] at hplace
    obtain ⟨hplans, hindex, -⟩ := ho.list_unique hroot horigin ho' hi hi' hk hk' hm hm' hplace
    exact hne (by simp only [Function.comp_apply, Group.place, hplans, hindex])
  · intro p hp
    obtain ⟨i, field, m, hi, hk, hm, ho, hmo⟩ := hlists p hp
    obtain ⟨m', keys, hm', hc⟩ := hasked p hp
    cases hm.symm.trans hm'
    exact ⟨m, keys, ⟨i, _, _, field, ho, hi, hk, hm⟩, hmo.symm, hc⟩

/-- A round issues one follow-up for each of some places. -/
theorem Kept.round_log {result : Except Fault Graph} (h : Kept env root n [] g)
    (hround : Resolution.round env g storage log = (result, log')) :
    ∃ issued : List Planned, log' = log ++ issued.map Planned.statement ∧
      (issued.map Planned.place).Nodup ∧
      ∀ p ∈ issued, FollowsUp env root n p.place p.statement := by
  rw [round_apply] at hround
  cases hplan : Resolution.planGroups env g.waiting { g with waiting := [] } with
  | error e =>
    rw [hplan] at hround
    cases hround
    exact ⟨[], (List.append_nil _).symm, List.nodup_nil, fun _ hp => nomatch hp⟩
  | ok p =>
    obtain ⟨planned, g₁⟩ := p
    obtain ⟨hnodup, hfollow⟩ := h.planned_places hroot horigin hplan
    rw [hplan] at hround
    simp only at hround
    rcases hfetch : (planned.mapM fetchGroup : Session Fault _) storage log with ⟨fetched, log₁⟩
    obtain ⟨issued, hissued, hlog, -⟩ := fetchGroups_log hfetch
    have hlog' : log' = log₁ := by
      rw [hfetch] at hround
      cases fetched <;> cases hround <;> rfl
    refine ⟨issued, hlog' ▸ hlog, hnodup.sublist (hissued.sublist.map _), fun p hp => ?_⟩
    obtain ⟨m, keys, hlisted, hmo, hc⟩ := hfollow p (hissued.subset hp)
    exact ⟨m, keys, p.compiled, hlisted, hmo, hc, rfl⟩

/-! ### The statements of all rounds -/

theorem Logged.round {followUps : List Sql.Statement} {statement : Sql.Statement}
    {result : Except Fault Graph} (hlogged : Logged env root n followUps)
    (h : Kept env root n [] g)
    (hround : Resolution.round env g storage (statement :: followUps) = (result, log')) :
    ∃ followUps', log' = statement :: followUps' ∧ Logged env root (n + 1) followUps' := by
  obtain ⟨issued, rfl, hnodup, hissued⟩ := h.round_log hroot horigin hround
  obtain ⟨places, hplaces, hall⟩ := hlogged
  refine ⟨followUps ++ issued.map Planned.statement, rfl, places ++ issued.map Planned.place, ?_,
    ?_⟩
  · refine List.nodup_append.2 ⟨hplaces, hnodup, ?_⟩
    rintro place hold _ hnew rfl
    obtain ⟨p, hp, rfl⟩ := List.mem_map.1 hnew
    obtain ⟨s, -, r, hr, hs⟩ := Outcome.forall₂_mem hall hold
    have := hs.unique hroot horigin (hissued p hp)
    omega
  · refine List.rel_append (hall.imp ?_) ?_
    · rintro place s ⟨r, hr, hs⟩
      exact ⟨r, by omega, hs⟩
    · rw [List.forall₂_map_left_iff, List.forall₂_map_right_iff, List.forall₂_same]
      exact fun p hp => ⟨_, Nat.lt_succ_self _, hissued p hp⟩

theorem Logged.rounds {followUps : List Sql.Statement} {statement : Sql.Statement} {bound : Nat}
    {result : Except Fault Graph} (hlogged : Logged env root n followUps)
    (h : Kept env root n [] g)
    (hrounds : Resolution.rounds env bound g storage (statement :: followUps) = (result, log')) :
    ∃ last followUps', log' = statement :: followUps' ∧ Logged env root last followUps' := by
  induction bound generalizing n g followUps with
  | zero =>
    cases hrounds
    exact ⟨n, followUps, rfl, hlogged⟩
  | succ bound ih =>
    unfold Resolution.rounds at hrounds
    split at hrounds
    · cases hrounds
      exact ⟨n, followUps, rfl, hlogged⟩
    · rw [Session.bind_apply] at hrounds
      have hends : Session.Ends storage _ _ _ := h.round_ends hroot horigin
      have hends := hends (statement :: followUps)
      rcases hround : Resolution.round env g storage (statement :: followUps) with ⟨e | g', log₁⟩
      · rw [hround] at hrounds
        cases hrounds
        obtain ⟨followUps', hlog, hlogged'⟩ := hlogged.round hroot horigin h hround
        exact ⟨_, followUps', hlog, hlogged'⟩
      · obtain ⟨followUps', rfl, hlogged'⟩ := hlogged.round hroot horigin h hround
        rw [hround] at hrounds hends
        exact ih hlogged' hends.1 hrounds

end

/-! ### The statements of a request -/

/-- The statements of a request before its objects are finished: none if there is no root
statement, otherwise that and one follow-up for each of some lists of the request. -/
def OncePerList (env : Environment) (request : Request) (filter : Option Schema.TypeFilter)
    (log : List Sql.Statement) : Prop :=
  match Plan.compileRoot env request filter with
  | .error _ => log = []
  | .ok root => ∃ followUps places, log = root.statement :: followUps ∧
      places.Nodup ∧ places ⊆ listPlaces env.registry request ∧
      List.Forall₂ (fun place statement => ∃ m keys compiled, Plan.Listed env root.plan m ∧
        m.origin = place ∧ Plan.compileMany env m keys = .ok compiled ∧
        statement = compiled.statement) places followUps

section

variable {env : Environment} {request : Request} {filter : Option Schema.TypeFilter}
  {storage : Storage}

theorem OncePerList.length_le {log : List Sql.Statement} (h : OncePerList env request filter log) :
    log.length ≤ 1 + (listPlaces env.registry request).length := by
  unfold OncePerList at h
  split at h
  · rw [h]
    exact Nat.zero_le _
  · obtain ⟨followUps, places, rfl, hnodup, hsub, hall⟩ := h
    have hle := (hnodup.subperm hsub).length_le
    have heq := hall.length_eq
    rw [List.length_cons]
    omega

theorem Logged.oncePerList {root : Compiled} {n : Nat} {followUps : List Sql.Statement}
    (hcompile : Plan.compileRoot env request filter = .ok root)
    (h : Logged env root.plan n followUps) :
    OncePerList env request filter (root.statement :: followUps) := by
  obtain ⟨places, hnodup, hall⟩ := h
  unfold OncePerList
  rw [hcompile]
  have hfollow : List.Forall₂ (fun place statement => ∃ m keys compiled,
      Plan.Listed env root.plan m ∧ m.origin = place ∧
      Plan.compileMany env m keys = .ok compiled ∧ statement = compiled.statement)
      places followUps := by
    refine hall.imp ?_
    rintro place s ⟨r, -, m, keys, compiled, ⟨i, j, plan, field, hlisted⟩, hrest⟩
    exact ⟨m, keys, compiled, ⟨r, i, j, plan, field, hlisted⟩, hrest⟩
  refine ⟨followUps, places, rfl, hnodup, fun place hplace => ?_, hfollow⟩
  obtain ⟨_, -, m, _, _, hlisted, rfl, -⟩ := Outcome.forall₂_mem hfollow hplace
  exact listed_place hcompile hlisted

theorem fetchAll_oncePerList :
    OncePerList env request filter ((fetchAll env request filter).outcome storage).2 := by
  unfold Session.outcome fetchAll
  cases hcompile : Plan.compileRoot env request filter with
  | error e =>
    unfold OncePerList
    rw [hcompile]
    rfl
  | ok root =>
    obtain ⟨hroot, horigin⟩ := Plan.compileRoot_plannedFor hcompile
    change OncePerList env request filter ((Session.ofExcept (.ok root) >>= _) storage []).2
    rw [Session.ofExcept_bind, Session.bind_apply]
    have hstart : OncePerList env request filter [root.statement] :=
      Logged.oncePerList (n := 0) hcompile ⟨[], List.nodup_nil, .nil⟩
    cases hrows : storage.answer [] root.statement with
    | error e =>
      unfold Session.mapError Session.fetch
      rw [hrows]
      exact hstart
    | ok rows =>
      unfold Session.mapError Session.fetch
      rw [hrows]
      change OncePerList env request filter (gather env request root.plan rows storage
        [root.statement]).2
      have hadded := kept_addRows hcompile rows
      have hgrowing : growing (Graph.addRows root.plan rows) {} =
        Session.ofExcept ((Graph.addRows root.plan rows).result {}) := rfl
      unfold gather
      rw [hgrowing]
      cases hresult : (Graph.addRows root.plan rows).result {} with
      | error e => exact hstart
      | ok p =>
        obtain ⟨roots, g⟩ := p
        rw [hresult] at hadded
        rw [Session.ofExcept_bind]
        change OncePerList env request filter
          ((rounds env request.depth g >>= _) storage [root.statement]).2
        rw [Session.bind_apply]
        rcases hrounds : rounds env request.depth g storage [root.statement] with ⟨result, log⟩
        have hlogged : Logged env root.plan 0 [] := ⟨[], List.nodup_nil, .nil⟩
        obtain ⟨last, followUps, rfl, hlogged'⟩ :=
          hlogged.rounds hroot horigin hadded.1 hrounds
        cases result <;> exact hlogged'.oncePerList hcompile

variable (env request filter storage) in
/-- Before the objects of a request are finished there is at most one statement for the root and
one for each list of the request, whatever the statements give. -/
theorem statements_le :
    answer env request filter = fetchAll env request filter >>= finishRoots env.caller ∧
    ((fetchAll env request filter).outcome storage).2.length ≤
      1 + (listPlaces env.registry request).length ∧
    OncePerList env request filter ((fetchAll env request filter).outcome storage).2 :=
  ⟨answer_eq env request filter, fetchAll_oncePerList.length_le, fetchAll_oncePerList⟩

end

end Resolution

end ObjectGraph
