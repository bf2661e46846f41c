import ObjectGraph.Proofs.Plan.SameStatements

/-! # What a follow-up is refused for

Whether a list can be fetched is up to the schema, the settings and the selection: a level is
compiled in any scope or refused in any scope, with the same fault (`compileLevel_refused_alike`),
since a query of children always has a main table and something to select.  So a follow-up that is
refused for some keys is refused for all, with the same fault (`compileMany_refused`); only a
placeholder that no parameter was bound for can be one that other keys bind. -/

namespace ObjectGraph

namespace Sql

variable {caller : Caller}

mutual

/-- A step leaves a main table where there is one. -/
theorem step_source {holes : Text.Holes} {q : Query} {s : Scope} (hq : q.source.isSome = true) :
    (step : Step) → (step.run caller holes q s).1.source.isSome = true
  | .select _ => hq
  | .addSelect _ => hq
  | .addSelectAs _ _ => hq
  | .fromTable _ _ => rfl
  | .fromFresh _ _ => rfl
  | .innerJoin _ _ _ _ => hq
  | .leftJoin _ _ _ => hq
  | .crossJoin _ _ => hq
  | .andWhere _ _ => hq
  | .orWhere _ => by
    change (Query.orWhere _ _).source.isSome = true
    unfold Query.orWhere
    split <;> exact hq
  | .orderBy _ _ => hq
  | .limit _ => hq
  | .embed steps outer => by
    rw [Step.run]
    exact step_source hq outer
  | .when condition steps => by
    rw [Step.run]
    split
    · exact steps_source hq steps
    · exact hq
  | .ask question => by cases question <;> exact hq

theorem steps_source {holes : Text.Holes} {q : Query} {s : Scope} (hq : q.source.isSome = true) :
    (steps : List Step) → (Step.runAll caller holes q steps s).1.source.isSome = true
  | [] => hq
  | step :: steps => steps_source (step_source hq step) steps

end

/-- A query with a main table and a select list has a text. -/
theorem Query.render_some {q : Query} (hsource : q.source.isSome = true) (hitems : q.items ≠ []) :
    q.render = .ok q.text := by
  unfold Query.render
  rw [if_neg, if_neg]
  · rw [List.isEmpty_iff]
    exact hitems
  · rw [Option.isNone_iff_eq_none]
    rintro hnone
    rw [hnone] at hsource
    cases hsource

end Sql

namespace Schema

variable {caller : Caller} {q : Sql.Query} {s : Sql.Scope}

theorem applyOption_source (caller : Caller) (tableAlias : String) (filter : Option TypeFilter)
    (s : Sql.Scope) (hq : q.source.isSome = true) :
    (TypeFilter.applyOption caller tableAlias q filter s).1.source.isSome = true := by
  cases filter with
  | none => exact hq
  | some filter =>
    cases filter with
    | template text => exact hq
    | script steps => exact Sql.steps_source hq steps

theorem join_source {parent child : String} (rule : JoinRule) (hq : q.source.isSome = true) :
    (rule.apply caller parent child q s).1.source.isSome = true := by
  cases rule with
  | columns _ _ => exact hq
  | limitedColumns _ _ _ => exact hq
  | condition text limit => cases limit <;> exact hq
  | script steps => exact Sql.steps_source hq steps

end Schema

namespace Plan

open Outcome (Same)
open Sql (Query)
open Schema (TypeMapping Relation TypeFilter)
open Compiling (Alike)

variable {env : Environment}

theorem restrictParents_source {q : Query} {tableAlias : String} {columns : List String}
    {keys : List (List Json)} {s : Sql.Scope} (hq : q.source.isSome = true) :
    (restrictParents q tableAlias columns keys s).1.source.isSome = true := by
  match columns with
  | [] => exact hq
  | [_] => exact hq
  | _ :: _ :: _ => exact hq

theorem childQuery_source {parentType target : String} {parent child : TypeMapping}
    {relation : Relation} {keys : List (List Json)} {s : Sql.Scope} :
    (childQuery env parentType target parent child relation keys s).1.query.source.isSome =
      true := by
  unfold childQuery
  cases relation.join.columns? with
  | some columns => rfl
  | none => exact Schema.join_source relation.join (restrictParents_source rfl)

theorem compileLevel_source {level : Level} {filter : Option TypeFilter} {q q' : Query}
    {selections : List Selection} {s t : Sql.Scope} {select : SelectList} {plan : NodePlan}
    (hq : q.source.isSome = true)
    (h : compileLevel env level filter q selections s = .ok ((q', select, plan), t)) :
    q'.source.isSome = true := by
  obtain ⟨_, _, _, ho, -, rfl, -⟩ := compileLevel_ok h
  obtain ⟨-, mapping, q₁, s₁, q₂, -, hf, hn, rfl⟩ := openLevel_ok ho
  have hq₁ := Schema.applyOption_source env.caller level.tableAlias mapping.filter s hq
  rw [hf] at hq₁
  have hq₂ := Schema.applyOption_source env.caller level.tableAlias filter s₁ hq₁
  rw [hn] at hq₂
  exact hq₂

/-! ### Refusals -/

/-- What the first is refused for, other than a parameter that is missing, the second is refused
for as well. -/
def RefusedAlso {α β : Type} (x : Except Error α) (y : Except Error β) : Prop :=
  ∀ e, x = .error e → ¬e.IsUnbound → y = .error e

section

variable {α α' β β' : Type}

theorem RefusedAlso.error (e : Error) :
    RefusedAlso (.error e : Except Error α) (.error e : Except Error α') := by
  rintro _ ⟨⟩ _
  rfl

/-- Both begin with the same. -/
theorem RefusedAlso.after {x : Except Error α} {f : α → Except Error β} {g : α → Except Error β'}
    (h : ∀ a, RefusedAlso (f a) (g a)) : RefusedAlso (x >>= f) (x >>= g) := by
  cases x with
  | error e => exact RefusedAlso.error e
  | ok a => exact h a

theorem RefusedAlso.of_same {x : Except Error α} {y : Except Error α'} {R : α → α' → Prop}
    {f : α → Except Error β} {g : α' → Except Error β'} (h : Same R x y)
    (hf : ∀ a b, RefusedAlso (f a) (g b)) : RefusedAlso (x >>= f) (y >>= g) := by
  cases h with
  | ok _ => exact hf _ _
  | error e => exact RefusedAlso.error e

/-- A text is refused for a parameter that is missing, if at all. -/
theorem RefusedAlso.finish {sql : String} {s : Sql.Scope} {f : Sql.Statement → β}
    {y : Except Error β'} : RefusedAlso ((Plan.finish sql s).map f) y := by
  intro e h hbound
  have hfinish : Bound (Plan.finish sql s) := by
    rintro e' he'
    rw [he'] at h
    cases h
    exact hbound
  rw [finish_bound hfinish] at h
  cases h

end

section

variable (hnever : ∀ typeName name resolved, env.registry.resolve typeName name = .ok resolved →
  resolved.Unaliased)

include hnever

/-- A level is refused for what is selected, whatever its query and its scope are. -/
theorem compileLevel_refused_alike {level level' : Level} (h : LevelTwin False level level')
    (filter : Option TypeFilter) {q q' : Query} (hq : q.source.isSome = true)
    (hq' : q'.source.isSome = true) (selections : List Selection) :
    Alike False (fun r r' => r.1.source.isSome = true ∧ r'.1.source.isSome = true)
      (compileLevel env level filter q selections)
      (compileLevel env level' filter q' selections) := by
  have halike : Alike False (fun _ _ => True) (compileLevel env level filter q selections)
      (compileLevel env level' filter q' selections) := by
    unfold compileLevel
    refine (openLevel_alike h filter False.elim).bind ?_
    rintro o o' ⟨ho, -, -, extras, extras', hp, hp', -⟩
    have hstart : Ahead False False o.progress o'.progress := by
      rw [hp, hp']
      exact Ahead.start False.elim False.elim
    -- nothing is left out
    have hthins : Thins env.registry (fun _ => False) o.level.typeName [] selections selections :=
      Thins.refl _ _
    refine (entries_alike hnever (fun _ _ h => h.elim) ho hstart selections hthins
      fun _ he => absurd he List.not_mem_nil).bind fun _ _ _ => ?_
    exact Alike.pure trivial
  intro s s' hs
  refine (halike s s' hs).with_ok.mono ?_
  rintro ⟨⟨q₁, select, plan⟩, t⟩ ⟨⟨q₁', select', plan'⟩, t'⟩ ⟨-, hok, hok'⟩
  exact ⟨⟨compileLevel_source hq hok, compileLevel_source hq' hok'⟩, False.elim⟩

theorem followUpLevel_refused_alike (many : ManyPlan) (parent child : TypeMapping)
    (relation : Relation) (keys keys' : List (List Json)) :
    Alike False (fun _ _ => True) (followUpLevel env many parent child relation keys)
      (followUpLevel env many parent child relation keys') := by
  unfold followUpLevel
  refine Alike.bind (R := fun c c' => c.query.source.isSome = true ∧ c'.query.source.isSome = true)
    (fun s s' _ => .ok ⟨⟨childQuery_source, childQuery_source⟩, False.elim⟩) ?_
  rintro children children' ⟨hq, hq'⟩
  have hlevel : LevelTwin False (childLevel many relation children.tableAlias)
      (childLevel many relation children'.tableAlias) := ⟨rfl, rfl, rfl, rfl, False.elim⟩
  refine (compileLevel_refused_alike hnever hlevel none hq hq' many.selection).bind ?_
  rintro ⟨q, select, plan⟩ ⟨q', select', plan'⟩ ⟨hq, hq'⟩
  have hrender : ∀ (children : ChildQuery) (q : Query) (select : SelectList),
      q.source.isSome = true → (pageQuery children relation q select).render =
        .ok (pageQuery children relation q select).text := by
    intro children q select hq
    refine Query.render_some ?_ (List.append_ne_nil_of_right_ne_nil _ (List.cons_ne_nil _ _))
    change (addSelects (addSelects q.takeOrdering.2 select) _).source.isSome = true
    rw [source_addSelects, source_addSelects]
    exact hq
  have hsame : Same (fun _ _ => True) (pageQuery children relation q select).render
      (pageQuery children' relation q' select').render := by
    rw [hrender children q select hq, hrender children' q' select' hq']
    exact .ok trivial
  refine (Alike.ofSql hsame).bind fun _ _ _ => ?_
  refine (Alike.ofBuilding False.elim).bind fun _ _ _ => ?_
  exact (Alike.ofBuilding False.elim).bind fun _ _ _ => Alike.pure trivial

/-- What a list is refused for, other than a parameter that is missing, it is refused for whatever
the keys are. -/
theorem compileMany_refused (many : ManyPlan) (keys keys' : List (List Json)) :
    RefusedAlso (compileMany env many keys) (compileMany env many keys') := by
  unfold compileMany
  split
  · exact RefusedAlso.error _
  · refine RefusedAlso.after fun parent => RefusedAlso.after fun resolved => ?_
    cases resolved.relation? with
    | none => exact RefusedAlso.error _
    | some relation =>
      refine RefusedAlso.after fun child => ?_
      have hlevel := followUpLevel_refused_alike hnever many parent child relation keys keys' {} {}
        False.elim
      exact RefusedAlso.of_same hlevel fun p p' => RefusedAlso.finish

end

end Plan

end ObjectGraph
