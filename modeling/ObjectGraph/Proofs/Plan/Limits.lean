import ObjectGraph.Proofs.Plan.Compiling

/-! # The limits of relations

A relation may have a limit of its own: what its join and the filter of its target leave as the
limit of the query of the children (`ownLimit`).  It depends on the caller alone, not on the query
or the scope.  A follow-up keeps as many rows of a parent as the smaller of that limit and the limit
of the paging says (`compileMany_pageSize`). -/

namespace ObjectGraph

namespace Sql

mutual

/-- The limit that a step leaves. -/
def Step.limitAfter (caller : Caller) (limit : Option Nat) : Step → Option Nat
  | .limit n => some n
  | .embed _ outer => outer.limitAfter caller limit
  | .when condition steps =>
    if condition.holds caller then Step.limitAfterAll caller limit steps else limit
  | .ask .takeOrdering => none
  | _ => limit

/-- The limit that steps leave. -/
def Step.limitAfterAll (caller : Caller) (limit : Option Nat) : List Step → Option Nat
  | [] => limit
  | step :: steps => Step.limitAfterAll caller (step.limitAfter caller limit) steps

end

variable {caller : Caller}

mutual

theorem step_limit {holes : Text.Holes} {q : Query} {s : Scope} : (step : Step) →
    (step.run caller holes q s).1.limit = step.limitAfter caller q.limit
  | .select _ => rfl
  | .addSelect _ => rfl
  | .addSelectAs _ _ => rfl
  | .fromTable _ _ => rfl
  | .fromFresh _ _ => rfl
  | .innerJoin _ _ _ _ => rfl
  | .leftJoin _ _ _ => rfl
  | .crossJoin _ _ => rfl
  | .andWhere _ _ => rfl
  | .orWhere _ => by
    change (Query.orWhere _ _).limit = _
    unfold Query.orWhere
    split <;> rfl
  | .orderBy _ _ => rfl
  | .limit _ => rfl
  | .embed steps outer => by
    rw [Step.limitAfter]
    exact step_limit outer
  | .when condition steps => by
    rw [Step.limitAfter, Step.run]
    split
    · exact steps_limit steps
    · rfl
  | .ask question => by cases question <;> rfl

theorem steps_limit {holes : Text.Holes} {q : Query} {s : Scope} : (steps : List Step) →
    (Step.runAll caller holes q steps s).1.limit = Step.limitAfterAll caller q.limit steps
  | [] => rfl
  | step :: steps => by
    rw [Step.limitAfterAll, ← step_limit step]
    exact steps_limit steps

end

end Sql

namespace Schema

variable {caller : Caller} {q : Sql.Query} {s : Sql.Scope}

/-- The limit that a filter leaves. -/
def TypeFilter.limitAfter (caller : Caller) (limit : Option Nat) : Option TypeFilter → Option Nat
  | some (.script steps) => Sql.Step.limitAfterAll caller limit steps
  | _ => limit

/-- The limit that a join sets. -/
def JoinRule.limit? (caller : Caller) : JoinRule → Option Nat
  | .columns _ _ => none
  | .limitedColumns _ _ limit => some limit
  | .condition _ limit => limit
  | .script steps => Sql.Step.limitAfterAll caller none steps

theorem applyOption_limit {tableAlias : String} (filter : Option TypeFilter) :
    (TypeFilter.applyOption caller tableAlias q filter s).1.limit =
      TypeFilter.limitAfter caller q.limit filter := by
  cases filter with
  | none => rfl
  | some filter =>
    cases filter with
    | template text => rfl
    | script steps => exact Sql.steps_limit steps

theorem join_limit {parent child : String} (rule : JoinRule) (hq : q.limit = none) :
    (rule.apply caller parent child q s).1.limit = rule.limit? caller := by
  cases rule with
  | columns _ _ => exact hq
  | limitedColumns _ _ _ => rfl
  | condition text limit =>
    cases limit with
    | none => exact hq
    | some limit => rfl
  | script steps =>
    rw [JoinRule.limit?, ← hq]
    exact Sql.steps_limit steps

end Schema

namespace Plan

open Schema (TypeMapping Relation)

variable {env : Environment}

/-- The limit of a relation itself: that of its join, and then what the filter of its target makes
of it. -/
def ownLimit (caller : Caller) (relation : Relation) (target : TypeMapping) : Option Nat :=
  Schema.TypeFilter.limitAfter caller (relation.join.limit? caller) target.filter

theorem restrictParents_limit {q : Sql.Query} {tableAlias : String} {columns : List String}
    {keys : List (List Json)} {s : Sql.Scope} (hq : q.limit = none) :
    (restrictParents q tableAlias columns keys s).1.limit = none := by
  match columns with
  | [] => exact hq
  | [_] => exact hq
  | _ :: _ :: _ => exact hq

theorem childQuery_limit {parentType target : String} {parent child : TypeMapping}
    {relation : Relation} {keys : List (List Json)} {s : Sql.Scope} :
    (childQuery env parentType target parent child relation keys s).1.query.limit =
      relation.join.limit? env.caller := by
  unfold childQuery
  cases hcolumns : relation.join.columns? with
  | some columns =>
    cases hjoin : relation.join with
    | columns _ _ => rfl
    | _ =>
      rw [hjoin] at hcolumns
      cases hcolumns
  | none => exact Schema.join_limit relation.join (restrictParents_limit rfl)

theorem compileLevel_limit {level : Level} {q q' : Sql.Query} {selections : List Selection}
    {s t : Sql.Scope} {select : SelectList} {plan : NodePlan} {mapping : TypeMapping}
    (hmapping : env.registry.lookup level.typeName = .ok mapping)
    (h : compileLevel env level none q selections s = .ok ((q', select, plan), t)) :
    q'.limit = Schema.TypeFilter.limitAfter env.caller q.limit mapping.filter := by
  obtain ⟨_, _, _, ho, -, rfl, -⟩ := compileLevel_ok h
  obtain ⟨-, mapping', _, _, _, hm, hf, hn, rfl⟩ := openLevel_ok ho
  rw [hmapping] at hm
  cases hm
  cases hn
  have hlimit : (Schema.TypeFilter.applyOption env.caller level.tableAlias q mapping.filter
      s).1.limit = _ := Schema.applyOption_limit mapping.filter
  rw [hf] at hlimit
  exact hlimit

/-- The size of a page is what the paging and the relation itself allow. -/
theorem compileMany_pageSize {many : ManyPlan} {keys : List (List Json)} {compiled : Compiled}
    (h : compileMany env many keys = .ok compiled) :
    ∃ resolved relation child,
      env.registry.resolve many.parentType many.field = .ok resolved ∧
      resolved.relation? = some relation ∧ env.registry.lookup many.target = .ok child ∧
      compiled.pageSize = some (pageCap many.paging (ownLimit env.caller relation child)
        env.settings.maxRelationRows) := by
  obtain ⟨-, parent, resolved, relation, child, f, _, -, hr, hn, hc, hf, -, -, -, hsize⟩ :=
    compileMany_ok h
  obtain ⟨c, s₁, q, _, _, _, _, _, _, hquery, hlevel, -, -, -, hcap, -, -⟩ := followUpLevel_ok hf
  refine ⟨resolved, relation, child, hr, hn, hc, ?_⟩
  have hlimit : (childQuery env many.parentType many.target parent child relation keys
      {}).1.query.limit = _ := childQuery_limit
  rw [hquery] at hlimit
  have hq : q.limit = ownLimit env.caller relation child := by
    have hmapping : env.registry.lookup (childLevel many relation c.tableAlias).typeName =
        .ok child := hc
    rw [compileLevel_limit hmapping hlevel, hlimit]
    rfl
  rw [hsize, hcap, hq]

end Plan

end ObjectGraph
