import ObjectGraph.Proofs.Plan.Compiling
import ObjectGraph.Proofs.Sql.Names

/-! # The levels of a statement

Every object level that is compiled begins in one of three ways (`Start`): as the root of a
statement, as a single related object inside another level, or as the children of a follow-up.
`Compiles` follows the levels of compiled statements down to the innermost; a level has an alias of
its own, minted for it (`Compiles.isName`). -/

namespace ObjectGraph

namespace Plan

open Sql (Query qualified)
open Schema (TypeMapping TypeFilter Relation Resolved)

/-- How a level begins. -/
inductive Start
  | root (request : Request) (filter : Option TypeFilter)
  | single (parent : Level) (relation : Relation)
  | followUp (many : ManyPlan) (parent child : TypeMapping) (relation : Relation)
    (keys : List (List Json))

/-- The level of the root of a request. -/
def rootOf (request : Request) (tableAlias : String) : Level :=
  { typeName := request.typeName, tableAlias, depth := 1, nested := false, extraRequired := [],
    origin := [] }

/-- The levels of compiled statements, each with the scope it was opened with and with what is
compiled of its fields. -/
inductive Compiles (env : Environment) : Start → Opened → List Selection → Sql.Scope → Progress →
    Prop
  | root {request : Request} {filter : Option TypeFilter} {compiled : Compiled}
      {mapping : TypeMapping} {tableAlias : String} {s₁ s₂ t : Sql.Scope} {o : Opened}
      {p : Progress} :
      compileRoot env request filter = .ok compiled →
      env.registry.lookup request.typeName = .ok mapping →
      Sql.freshAlias request.typeName {} = (tableAlias, s₁) →
      openLevel env (rootOf request tableAlias) filter
        (({} : Query).fromTable (mapping.tableName request.typeName) tableAlias) s₁ =
          .ok (o, s₂) →
      entries env o o.progress 0 request.fields s₂ = .ok (p, t) →
      Compiles env (.root request filter) o request.fields s₂ p
  | followUp {many : ManyPlan} {keys : List (List Json)} {compiled : Compiled}
      {parent child : TypeMapping} {resolved : Resolved} {relation : Relation}
      {children : ChildQuery} {s₁ s₂ t : Sql.Scope} {o : Opened} {p : Progress} :
      compileMany env many keys = .ok compiled →
      env.registry.lookup many.parentType = .ok parent →
      env.registry.resolve many.parentType many.field = .ok resolved →
      resolved.relation? = some relation →
      env.registry.lookup many.target = .ok child →
      childQuery env many.parentType many.target parent child relation keys {} = (children, s₁) →
      openLevel env (childLevel many relation children.tableAlias) none children.query s₁ =
        .ok (o, s₂) →
      entries env o o.progress 0 many.selection s₂ = .ok (p, t) →
      Compiles env (.followUp many parent child relation keys) o many.selection s₂ p
  | single {start : Start} {o child : Opened} {selections selection : List Selection}
      {s s₁ s₂ t : Sql.Scope} {p q r : Progress} {position : Nat} {name : String}
      {resolved : Resolved} {relation : Relation} :
      Compiles env start o selections s p →
      selections[position]? = some (.nested name selection) →
      entries env o o.progress 0 (selections.take position) s = .ok (q, s₁) →
      env.registry.resolve o.level.typeName name = .ok resolved →
      resolved.relation? = some relation → relation.many = false →
      openSingle env o.level position relation (resolved.view.getD relation.target) s₁ =
        .ok (child, s₂) →
      entries env child child.progress 0 selection s₂ = .ok (r, t) →
      Compiles env (.single o.level relation) child selection s₂ r

variable {env : Environment}

/-! ### Every statement has its levels -/

theorem compileRoot_compiles {request : Request} {filter : Option TypeFilter}
    {compiled : Compiled} (h : compileRoot env request filter = .ok compiled) :
    ∃ o s p, Compiles env (.root request filter) o request.fields s p ∧
      compiled.plan = (closeLevel o p).2 := by
  obtain ⟨-, sql, plan, scope, hr, -, hplan⟩ := compileRoot_ok h
  obtain ⟨mapping, tableAlias, s₁, q, select, s₂, q', hm, ha, hl, -, -⟩ := rootLevel_ok hr
  obtain ⟨o, s, p, ho, he, -, hc⟩ := compileLevel_ok hl
  refine ⟨o, s, p, .root h hm ha ho he, ?_⟩
  rw [hplan, ← hc]

/-! ### How levels are opened -/

theorem isName_childQuery {parentType target : String} {parent child : TypeMapping}
    {relation : Relation} {keys : List (List Json)} {children : ChildQuery} {s t : Sql.Scope}
    (h : childQuery env parentType target parent child relation keys s = (children, t)) :
    Sql.IsName children.tableAlias := by
  unfold childQuery at h
  cases hcol : relation.join.columns? with
  | some columns =>
    rw [hcol] at h
    cases h
    exact Sql.isName_aliasFor _ _
  | none =>
    rw [hcol] at h
    cases h
    exact Sql.isName_aliasFor _ _

namespace Compiles

variable {start : Start} {o : Opened} {selections : List Selection} {s : Sql.Scope} {p : Progress}

/-- The fields of a level are compiled from its beginning. -/
theorem entries_ok (h : Compiles env start o selections s p) :
    ∃ t, entries env o o.progress 0 selections s = .ok (p, t) := by
  cases h with
  | root _ _ _ _ he => exact ⟨_, he⟩
  | followUp _ _ _ _ _ _ _ he => exact ⟨_, he⟩
  | single _ _ _ _ _ _ _ he => exact ⟨_, he⟩

theorem opened (h : Compiles env start o selections s p) :
    ∃ level filter q s₀, openLevel env level filter q s₀ = .ok (o, s) := by
  cases h with
  | root _ _ _ ho _ => exact ⟨_, _, _, _, ho⟩
  | followUp _ _ _ _ _ _ ho _ => exact ⟨_, _, _, _, ho⟩
  | single _ _ _ _ _ _ ho _ =>
    obtain ⟨_, _, _, _, _, -, -, -, ho⟩ := openSingle_ok ho
    exact ⟨_, _, _, _, ho⟩

/-- Nothing is compiled of the fields when a level is opened. -/
theorem progress_select (h : Compiles env start o selections s p) : o.progress.select = [] := by
  obtain ⟨_, _, _, _, ho⟩ := h.opened
  obtain ⟨-, _, _, _, _, -, -, -, rfl⟩ := openLevel_ok ho
  rfl

/-- The alias of a level is a plain identifier. -/
theorem isName (h : Compiles env start o selections s p) : Sql.IsName o.level.tableAlias := by
  cases h with
  | root _ _ ha ho _ =>
    obtain ⟨-, _, _, _, _, -, -, -, rfl⟩ := openLevel_ok ho
    cases ha
    exact Sql.isName_aliasFor _ _
  | followUp _ _ _ _ _ hq ho _ =>
    obtain ⟨-, _, _, _, _, -, -, -, rfl⟩ := openLevel_ok ho
    exact isName_childQuery hq
  | single _ _ _ _ _ _ ho _ =>
    obtain ⟨_, _, _, _, _, -, ha, -, ho⟩ := openSingle_ok ho
    obtain ⟨-, _, _, _, _, -, -, -, rfl⟩ := openLevel_ok ho
    cases ha
    exact Sql.isName_aliasFor _ _

end Compiles

end Plan

end ObjectGraph
