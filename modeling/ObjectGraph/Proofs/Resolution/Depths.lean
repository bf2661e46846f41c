import ObjectGraph.Proofs.Plan.Faults
import ObjectGraph.Proofs.Plan.RequestFaults
import ObjectGraph.Proofs.Resolution.Validity

/-! # Depths

How deep a request is, is accounted for in three ways: by the nesting of its selections, by a
number that grows from level to level while a statement is compiled, and by the number that a list
carries to its follow-up.  They agree: the number of a level and the levels of objects selected
below it together never exceed the depth of the request (`Visits.bounded`, `Produced.bounded`).
Hence only the root statement can be refused for the depth (`depth_checked_once`). -/

namespace ObjectGraph

namespace Plan

open Compiling
open Schema (Registry TypeFilter Relation Resolved TypeMapping)

/-- The fault is that the request is too deep. -/
def Error.IsTooDeep (e : Error) : Prop := ∃ depth limit, e = .depthExceeded depth limit

/-- A step never finds the request too deep. -/
abbrev Compiling.NeverTooDeep {α : Type} (x : Compiling α) : Prop :=
  FailsOnly (fun e => ¬ e.IsTooDeep) x

/-- Levels within the limit are not found too deep. -/
theorem CompileFault.not_tooDeep {env : Environment} {bound : Nat} {e : Error}
    (h : CompileFault env bound e) (hbound : bound ≤ env.settings.maxDepth) : ¬ e.IsTooDeep := by
  rintro ⟨_, _, rfl⟩
  cases h with
  | tooDeep hdepth hlimit => omega

/-! ### Accounting for the depth -/

/-- The levels that compiling a request comes to, each with what is selected of it: that of the
root, those of the follow-ups, and from each level those of its single related objects. -/
inductive Visits (registry : Registry) (request : Request) : Level → List Selection → Prop
  | root {tableAlias : String} :
      Visits registry request
        { typeName := request.typeName, tableAlias, depth := 1, nested := false,
          extraRequired := [], origin := [] } request.fields
  | followUp {m : ManyPlan} {relation : Relation} {tableAlias : String} :
      Produced registry request m →
      Visits registry request (childLevel m relation tableAlias) m.selection
  | single {level : Level} {selections below : List Selection} {name tableAlias : String}
      {position : Nat} {resolved : Resolved} {relation : Relation} :
      Visits registry request level selections → .nested name below ∈ selections →
      registry.resolve level.typeName name = .ok resolved →
      resolved.relation? = some relation → relation.many = false →
      Visits registry request
        { typeName := resolved.view.getD relation.target, tableAlias, depth := level.depth + 1,
          nested := true, extraRequired := [], origin := level.origin ++ [position] } below

section

variable {env : Environment} {registry : Registry} {request : Request}

/-- A list of a level has no more levels from its own on than the level has. -/
theorem PlannedAt.list_bounded {depth : Nat} {selections : List Selection} {plan plan' : NodePlan}
    (h : PlannedAt env depth selections plan) (hw : Within plan plan') {m : ManyPlan}
    (hm : m ∈ plan'.many) :
    m.depth + Selection.depthOf m.selection ≤ depth + Selection.depthOf selections := by
  -- the single related objects on the way take a level each
  have hwithin : ∃ depth' selections', PlannedAt env depth' selections' plan' ∧
      depth' + Selection.depthOf selections' ≤ depth + Selection.depthOf selections := by
    clear hm
    induction hw with
    | self => exact ⟨depth, selections, h, Nat.le_refl _⟩
    | single _ hi hk ih =>
      obtain ⟨depth', selections', hp, hle⟩ := ih
      obtain ⟨mapping, selection, hs, hf⟩ := hp.field_at hi
      cases hf with
      | value _ _ => cases hk
      | many _ _ _ _ => cases hk
      | single _ _ _ _ hchild =>
        cases hk
        have hlt := depthOf_lt (List.mem_of_getElem? hs)
        exact ⟨depth' + 1, _, ⟨_, hchild⟩, by omega⟩
  obtain ⟨depth', selections', ⟨mapping, hp⟩, hle⟩ := hwithin
  obtain ⟨_, _, _, _, below, hmem, -, -, rfl⟩ := hp.list_mem hm
  have hlt := depthOf_lt hmem
  change depth' + 1 + Selection.depthOf below ≤ _
  omega

/-- The number that a list carries leaves room for the levels below it. -/
theorem Produced.bounded {m : ManyPlan} (h : Produced registry request m) :
    m.depth + Selection.depthOf m.selection ≤ request.depth := by
  induction h with
  | root _ hc hw hm => exact (compileRoot_plannedAt hc).list_bounded hw hm
  | followUp _ _ hc hw hm ih => exact ((compileMany_plannedAt hc).list_bounded hw hm).trans ih

/-- The number of a level leaves room for the levels below it. -/
theorem Visits.bounded {level : Level} {selections : List Selection}
    (h : Visits registry request level selections) :
    level.depth + Selection.depthOf selections ≤ request.depth := by
  induction h with
  | root => exact Nat.le_refl _
  | followUp hm => exact hm.bounded
  | single _ hmem _ _ _ ih =>
    have hlt := depthOf_lt hmem
    dsimp only
    omega

/-- A plan of a request comes with the root statement or with the follow-up of a list. -/
theorem Occurs.source {filter : Option TypeFilter} {root : Compiled} {plan : NodePlan} {n : Nat}
    (hc : compileRoot env request filter = .ok root) (h : Occurs env root.plan n plan) :
    Within root.plan plan ∨ ∃ m keys compiled, Produced env.registry request m ∧
      compileMany env m keys = .ok compiled ∧ Within compiled.plan plan := by
  induction h with
  | root => exact .inl .self
  | single _ hi hk ih =>
    rcases ih with hw | ⟨m, keys, compiled, hm, hcm, hw⟩
    · exact .inl (.single hw hi hk)
    · exact .inr ⟨m, keys, compiled, hm, hcm, .single hw hi hk⟩
  | many _ _ _ hm hcm ih =>
    refine .inr ⟨_, _, _, ?_, hcm, .self⟩
    rcases ih with hw | ⟨m, keys, compiled, hm', hcm', hw⟩
    · exact .root rfl hc hw (List.mem_of_getElem? hm)
    · exact .followUp hm' rfl hcm' hw (List.mem_of_getElem? hm)

/-- A list of a request comes of compiling it. -/
theorem Listed.produced {filter : Option TypeFilter} {root : Compiled} {m : ManyPlan}
    (hc : compileRoot env request filter = .ok root) (h : Listed env root.plan m) :
    Produced env.registry request m := by
  obtain ⟨n, i, j, plan, field, hoccurs, -, -, hm⟩ := h
  rcases hoccurs.source hc with hw | ⟨m', keys, compiled, hm', hcm, hw⟩
  · exact .root rfl hc hw (List.mem_of_getElem? hm)
  · exact .followUp hm' rfl hcm hw (List.mem_of_getElem? hm)

end

end Plan

namespace Resolution

open Plan (Environment ManyPlan Produced Visits Compiling.NeverTooDeep)

variable {env : Environment} {request : Request}

/-- A list that is asked for comes of compiling the request. -/
theorem AsksFor.produced {filter : Option Schema.TypeFilter} {storage : Storage} {m : ManyPlan}
    {keys : List (List Json)} (h : AsksFor env request filter storage m keys) :
    Produced env.registry request m := by
  obtain ⟨n, g, log, group, hreached, -⟩ := id h
  obtain ⟨root, hcompile⟩ := hreached.compiled
  exact (h.listed hcompile).produced hcompile

/-- What holds of a request that is not too deep: nothing that is done for it is refused for the
depth. -/
structure WithinDepth (env : Environment) (request : Request) : Prop where
  root : ∀ filter e, Plan.compileRoot env request filter = .error e → ¬ e.IsTooDeep
  level : ∀ level selections filter q, Visits env.registry request level selections →
    Compiling.NeverTooDeep (Plan.compileLevel env level filter q selections)
  followUp : ∀ m keys e, Produced env.registry request m →
    Plan.compileMany env m keys = .error e → ¬ e.IsTooDeep
  asked : ∀ filter storage m keys e, AsksFor env request filter storage m keys →
    Plan.compileMany env m keys = .error e → ¬ e.IsTooDeep
  answer : ∀ filter storage e,
    ((answer env request filter).outcome storage).1 = .error (.plan e) → ¬ e.IsTooDeep

/-- The depth is checked once, before anything else: a root statement is refused for the depth of
its request exactly if that is greater than the bound.  Otherwise no level and no follow-up that
the request leads to is refused for it, whatever is stored. -/
theorem depth_checked_once (env : Environment) (request : Request) :
    (∀ filter, Plan.compileRoot env request filter =
        .error (.depthExceeded request.depth env.settings.maxDepth) ↔
      env.settings.maxDepth < request.depth) ∧
    (request.depth ≤ env.settings.maxDepth → WithinDepth env request) := by
  constructor
  · intro filter
    constructor
    · intro h
      by_contra hdepth
      exact (Plan.compileRoot_fails h).not_tooDeep (Nat.not_lt.1 hdepth) ⟨_, _, rfl⟩
    · intro hdepth
      unfold Plan.compileRoot
      rw [if_pos hdepth]
      rfl
  · intro hdepth
    have hfollowUp : ∀ m keys e, Produced env.registry request m →
        Plan.compileMany env m keys = .error e → ¬ e.IsTooDeep :=
      fun m keys e hm h => (Plan.compileMany_fails h).not_tooDeep (hm.bounded.trans hdepth)
    constructor
    case root => exact fun filter e h => (Plan.compileRoot_fails h).not_tooDeep hdepth
    case level =>
      exact fun level selections filter q hvisits s e h =>
        (Plan.compileLevel_fails (Nat.le_refl _) s e h).not_tooDeep
          (hvisits.bounded.trans hdepth)
    case followUp => exact hfollowUp
    case asked => exact fun filter storage m keys e hasks => hfollowUp m keys e hasks.produced
    case answer =>
      intro filter storage e h
      rcases answer_rejected h with h | ⟨m, keys, hasks, h⟩
      · exact (Plan.compileRoot_fails h).not_tooDeep hdepth
      · exact hfollowUp m keys e hasks.produced h

/-- The boards, with a bound on the depth of requests. -/
def boardsWithin (maxDepth : Nat) : Environment :=
  { Plan.Boards.environment with settings := { maxDepth } }

/-- Boards with their threads are two levels deep: a bound of one refuses them, and with a bound of
two the depth is never mentioned again, also where the follow-up is refused for another reason. -/
theorem depth_checked_once_boards :
    Plan.compileRoot (boardsWithin 1) (Plan.Boards.request "mood") none =
      .error (.depthExceeded 2 1) ∧
    (Plan.Boards.request "mood").depth ≤ (boardsWithin 2).settings.maxDepth ∧
    WithinDepth (boardsWithin 2) (Plan.Boards.request "mood") := by
  have hdepth : (Plan.Boards.request "mood").depth ≤ (boardsWithin 2).settings.maxDepth := by
    decide
  refine ⟨?_, hdepth, (depth_checked_once _ _).2 hdepth⟩
  exact ((depth_checked_once (boardsWithin 1) (Plan.Boards.request "mood")).1 none).2 (by decide)

end Resolution

end ObjectGraph
