import ObjectGraph.Plan.FollowUp
import ObjectGraph.Plan.Root
import ObjectGraph.Proofs.Outcome

/-! # What a successful compilation went through

One inversion lemma for every step of compiling: a step succeeds exactly if its parts do, with the
scope threaded from part to part.  All that is said about compiled statements rests on them
(`openLevel_ok`, `valueEntry_ok`, `entry_nested_ok`, `entries_cons_ok`, `compileLevel_ok`,
`compileRoot_ok`, `compileMany_ok`). -/

namespace ObjectGraph

namespace Plan

open Sql (Query Building qualified)
open Schema (Registry TypeMapping TypeFilter Relation Resolved)

namespace Compiling

variable {α β : Type} {s t : Sql.Scope} {b : β}

theorem bind_ok {x : Compiling α} {f : α → Compiling β} :
    (x >>= f) s = .ok (b, t) ↔ ∃ a u, x s = .ok (a, u) ∧ f a u = .ok (b, t) := by
  change (Except.bind (x s) fun p => f p.1 p.2) = _ ↔ _
  cases x s with
  | error e => simp [Except.bind]
  | ok p =>
    constructor
    · intro h
      exact ⟨p.1, p.2, rfl, h⟩
    · rintro ⟨a, u, h, hf⟩
      cases h
      exact hf

theorem pure_ok {a : β} : (pure a : Compiling β) s = .ok (b, t) ↔ a = b ∧ s = t := by
  change Except.ok (a, s) = _ ↔ _
  simp

theorem throw_ok {e : Error} : (throw e : Compiling β) s = .ok (b, t) ↔ False := by
  change Except.error e = _ ↔ _
  simp

theorem ofBuilding_ok {x : Building β} : ofBuilding x s = .ok (b, t) ↔ x s = (b, t) := by
  change Except.ok (x s) = _ ↔ _
  simp

theorem lift_ok {ε : Type} {x : Except ε β} {f : ε → Error} :
    (StateT.lift (x.mapError f) : Compiling β) s = .ok (b, t) ↔ x = .ok b ∧ s = t := by
  cases x with
  | error e =>
    change (.error (f e) : Except Error (β × Sql.Scope)) = _ ↔ _
    simp
  | ok a =>
    change (.ok (a, s) : Except Error (β × Sql.Scope)) = _ ↔ _
    simp

theorem ofSchema_ok {x : Except Schema.Error β} :
    ofSchema x s = .ok (b, t) ↔ x = .ok b ∧ s = t :=
  lift_ok

theorem ofSql_ok {x : Except Sql.BuildError β} : ofSql x s = .ok (b, t) ↔ x = .ok b ∧ s = t :=
  lift_ok

/-! ### What a step may fail with -/

/-- In any scope a step fails with faults of one kind only. -/
def FailsOnly (P : Error → Prop) (x : Compiling α) : Prop := ∀ s e, x s = .error e → P e

section

variable {P : Error → Prop} {x : Compiling α}

theorem FailsOnly.bind {f : α → Compiling β} (hx : FailsOnly P x)
    (hf : ∀ a s t, x s = .ok (a, t) → FailsOnly P (f a)) : FailsOnly P (x >>= f) := by
  intro s e h
  change (Except.bind (x s) fun p => f p.1 p.2) = _ at h
  cases hs : x s with
  | error e' =>
    rw [hs] at h
    cases h
    exact hx s e hs
  | ok p =>
    rw [hs] at h
    exact hf p.1 s p.2 hs p.2 e h

theorem failsOnly_pure (a : α) : FailsOnly P (pure a : Compiling α) := fun _ _ h => by cases h

theorem failsOnly_throw {e : Error} (h : P e) : FailsOnly P (throw e : Compiling α) := by
  intro s e' he
  cases he
  exact h

theorem failsOnly_ofBuilding (build : Building α) : FailsOnly P (ofBuilding build) :=
  fun _ _ h => by cases h

theorem failsOnly_lift {ε : Type} {y : Except ε α} {f : ε → Error}
    (h : ∀ e, y = .error e → P (f e)) : FailsOnly P (StateT.lift (y.mapError f)) := by
  intro s e he
  cases y with
  | error e' =>
    cases he
    exact h e' rfl
  | ok a => cases he

theorem failsOnly_ofSchema {look : Except Schema.Error α}
    (h : ∀ fault, look = .error fault → P (.schema fault)) : FailsOnly P (ofSchema look) :=
  failsOnly_lift h

theorem failsOnly_ofSql {build : Except Sql.BuildError α} (h : ∀ fault, P (.sql fault)) :
    FailsOnly P (ofSql build) :=
  failsOnly_lift fun fault _ => h fault

end

end Compiling

open Compiling

variable {env : Environment} {s t : Sql.Scope}

/-! ### Levels -/

theorem addAll_append {select : SelectList} {items more : List (String × String)} :
    select.addAll (items ++ more) = (select.addAll items).addAll more :=
  List.foldl_append

theorem openLevel_ok {level : Level} {filter : Option TypeFilter} {q : Query} {o : Opened}
    (h : openLevel env level filter q s = .ok (o, t)) :
    level.depth ≤ env.settings.maxDepth ∧ ∃ mapping q₁ s₁ q₂,
      env.registry.lookup level.typeName = .ok mapping ∧
      TypeFilter.applyOption env.caller level.tableAlias q mapping.filter s = (q₁, s₁) ∧
      TypeFilter.applyOption env.caller level.tableAlias q₁ filter s₁ = (q₂, t) ∧
      o = ⟨level, mapping, q₂.takeLabelled.2, ⟨[], q₂.takeLabelled.1, [], []⟩⟩ := by
  unfold openLevel at h
  by_cases hd : env.settings.maxDepth < level.depth
  · simp [hd, bind_ok, throw_ok] at h
  · simp only [hd, if_false, bind_ok, pure_ok, ofSchema_ok, ofBuilding_ok] at h
    obtain ⟨mapping, _, ⟨hm, rfl⟩, q₁, s₁, h₁, q₂, _, h₂, rfl, rfl⟩ := h
    exact ⟨by omega, mapping, q₁, s₁, q₂, hm, h₁, h₂, rfl⟩

theorem openSingle_ok {level : Level} {position : Nat} {relation : Relation} {target : String}
    {o : Opened} (h : openSingle env level position relation target s = .ok (o, t)) :
    ∃ mapping tableAlias s₁ q s₂, env.registry.lookup target = .ok mapping ∧
      Sql.freshAlias target s = (tableAlias, s₁) ∧
      relation.join.apply env.caller level.tableAlias tableAlias
        (({} : Query).fromTable (mapping.tableName target) tableAlias) s₁ = (q, s₂) ∧
      openLevel env
        { typeName := target, tableAlias, depth := level.depth + 1, nested := true,
          extraRequired := [], origin := level.origin ++ [position] } none
        (match relation.sort with
          | some (column, order) => q.orderBy (qualified tableAlias column) order
          | none => q) s₂ = .ok (o, t) := by
  simp only [openSingle, bind_ok, ofSchema_ok, ofBuilding_ok] at h
  obtain ⟨mapping, _, ⟨hm, rfl⟩, tableAlias, s₁, ha, q, s₂, hj, ho⟩ := h
  exact ⟨mapping, tableAlias, s₁, q, s₂, hm, ha, hj, ho⟩

theorem openSingle_typeName {level : Level} {position : Nat} {relation : Relation}
    {target : String} {o : Opened} (h : openSingle env level position relation target s = .ok (o, t)) :
    o.level.typeName = target := by
  obtain ⟨mapping, tableAlias, s₁, q, s₂, -, -, -, hopen⟩ := openSingle_ok h
  obtain ⟨-, mapping', q₁, s₁', q₂, -, -, -, rfl⟩ := openLevel_ok hopen
  rfl

theorem valueEntry_ok {level : Level} {p p' : Progress} {name : String}
    (h : valueEntry env level p name s = .ok (p', t)) :
    ∃ resolved expression extras, env.registry.resolve level.typeName name = .ok resolved ∧
      resolved.relation? = none ∧
      valueExpression env level name resolved p.extras s = .ok ((expression, extras), t) ∧
      p' = { p with
        select := p.select.add name expression
        extras
        fields := p.fields ++
          [{ name, kind := .value, json := resolved.json, transform := resolved.transform? }] } := by
  simp only [valueEntry, bind_ok, ofSchema_ok] at h
  obtain ⟨resolved, _, ⟨hr, rfl⟩, h⟩ := h
  cases hn : resolved.relation? with
  | some relation => simp [hn, bind_ok, throw_ok] at h
  | none =>
    simp only [hn, Option.isSome_none, Bool.false_eq_true, if_false, bind_ok, pure_ok] at h
    obtain ⟨⟨expression, extras⟩, _, hv, rfl, rfl⟩ := h
    exact ⟨resolved, expression, extras, hr, hn, hv, rfl⟩

theorem entry_nested_ok {opened : Opened} {p p' : Progress} {position : Nat} {name : String}
    {selection : List Selection}
    (h : entry env opened p position (.nested name selection) s = .ok (p', t)) :
    ∃ resolved relation, env.registry.resolve opened.level.typeName name = .ok resolved ∧
      resolved.relation? = some relation ∧
      ((relation.many = true ∧ t = s ∧
          p' = manyEntry opened p position name resolved relation selection) ∨
        (relation.many = false ∧ ∃ child s₁ q,
          openSingle env opened.level position relation (resolved.view.getD relation.target) s =
            .ok (child, s₁) ∧
          entries env child child.progress 0 selection s₁ = .ok (q, t) ∧
          p' = closeSingle env opened.level p name resolved child q)) := by
  simp only [entry, bind_ok, ofSchema_ok] at h
  obtain ⟨resolved, _, ⟨hr, rfl⟩, h⟩ := h
  cases hn : resolved.relation? with
  | none => simp [hn, throw_ok] at h
  | some relation =>
    refine ⟨resolved, relation, hr, hn, ?_⟩
    cases hmany : relation.many with
    | true =>
      simp only [hn, hmany, if_true, pure_ok] at h
      exact .inl ⟨rfl, h.2.symm, h.1.symm⟩
    | false =>
      simp only [hn, hmany, Bool.false_eq_true, if_false, bind_ok, pure_ok] at h
      obtain ⟨child, s₁, ho, q, _, he, rfl, rfl⟩ := h
      exact .inr ⟨rfl, child, s₁, q, ho, he, rfl⟩

theorem entries_nil_ok {opened : Opened} {p p' : Progress} {position : Nat}
    (h : entries env opened p position [] s = .ok (p', t)) : p' = p ∧ t = s := by
  simp only [entries, pure_ok] at h
  exact ⟨h.1.symm, h.2.symm⟩

theorem entries_cons_ok {opened : Opened} {p p' : Progress} {position : Nat}
    {field : Selection} {fields : List Selection}
    (h : entries env opened p position (field :: fields) s = .ok (p', t)) :
    ∃ q s₁, entry env opened p position field s = .ok (q, s₁) ∧
      entries env opened q (position + 1) fields s₁ = .ok (p', t) := by
  simp only [entries, bind_ok] at h
  exact h

theorem compileLevel_ok {level : Level} {filter : Option TypeFilter} {q q' : Query}
    {fields : List Selection} {select : SelectList} {plan : NodePlan}
    (h : compileLevel env level filter q fields s = .ok ((q', select, plan), t)) :
    ∃ opened s₁ p, openLevel env level filter q s = .ok (opened, s₁) ∧
      entries env opened opened.progress 0 fields s₁ = .ok (p, t) ∧
      q' = opened.query ∧ (select, plan) = closeLevel opened p := by
  simp only [compileLevel, bind_ok, pure_ok] at h
  obtain ⟨opened, s₁, ho, p, _, he, h, rfl⟩ := h
  cases h
  exact ⟨opened, s₁, p, ho, he, rfl, rfl⟩

/-! ### Statements -/

theorem render_text {q : Query} {sql : String} (h : q.render = .ok sql) : sql = q.text := by
  unfold Query.render at h
  split at h
  · cases h
  · split at h
    · cases h
    · cases h
      rfl

theorem finish_ok {sql : String} {scope : Sql.Scope} {statement : Sql.Statement}
    (h : finish sql scope = .ok statement) :
    statement = scope.statement sql ∧ statement.verifyBound = .ok () := by
  simp only [finish, Outcome.bind_ok, Outcome.mapError_ok, Outcome.pure_ok] at h
  obtain ⟨_, hv, rfl⟩ := h
  exact ⟨rfl, hv⟩

theorem rootLevel_ok {request : Request} {filter : Option TypeFilter} {sql : String}
    {plan : NodePlan} (h : rootLevel env request filter s = .ok ((sql, plan), t)) :
    ∃ mapping tableAlias s₁ q select s₂ q',
      env.registry.lookup request.typeName = .ok mapping ∧
      Sql.freshAlias request.typeName s = (tableAlias, s₁) ∧
      compileLevel env
        { typeName := request.typeName, tableAlias, depth := 1, nested := false,
          extraRequired := [], origin := [] } filter
        (({} : Query).fromTable (mapping.tableName request.typeName) tableAlias) request.fields s₁ =
          .ok ((q, select, plan), s₂) ∧
      addRequestFilter tableAlias q request.filter s₂ = .ok (q', t) ∧
      (addSelects
        (match request.limit with
          | some limit => Query.withLimit
            (match request.orderBy with
              | some (column, order) => q'.orderBy (qualified tableAlias column) order
              | none => q') limit
          | none =>
            match request.orderBy with
            | some (column, order) => q'.orderBy (qualified tableAlias column) order
            | none => q') select).render = .ok sql := by
  simp only [rootLevel, bind_ok, pure_ok, ofSchema_ok, ofBuilding_ok, ofSql_ok] at h
  obtain ⟨mapping, _, ⟨hm, rfl⟩, tableAlias, s₁, ha, ⟨q, select, plan'⟩, s₂, hl, q', _, hf,
    sql', _, ⟨hs, rfl⟩, h, rfl⟩ := h
  cases h
  exact ⟨mapping, tableAlias, s₁, q, select, s₂, q', hm, ha, hl, hf, hs⟩

theorem compileRoot_ok {request : Request} {filter : Option TypeFilter} {compiled : Compiled}
    (h : compileRoot env request filter = .ok compiled) :
    request.depth ≤ env.settings.maxDepth ∧ ∃ sql plan scope,
      rootLevel env request filter {} = .ok ((sql, plan), scope) ∧
      finish sql scope = .ok compiled.statement ∧ compiled.plan = plan := by
  unfold compileRoot at h
  by_cases hd : env.settings.maxDepth < request.depth
  · simp [hd, Outcome.bind_ok, Outcome.throw_ok] at h
  · simp only [hd, if_false, Outcome.bind_ok, Outcome.pure_ok, StateT.run] at h
    obtain ⟨⟨⟨sql, plan⟩, scope⟩, hr, statement, hf, rfl⟩ := h
    exact ⟨by omega, sql, plan, scope, hr, hf, rfl⟩

/-- The level of the children in a follow-up. -/
def childLevel (many : ManyPlan) (relation : Relation) (tableAlias : String) : Level :=
  { typeName := many.target
    tableAlias
    depth := many.depth
    nested := false
    extraRequired :=
      (relation.sort.map Prod.fst).toList ++ ((many.paging.map Paging.cursorColumns).getD [])
    origin := many.origin }

/-- The inner query of a follow-up, once its level is compiled. -/
def pageQuery (children : ChildQuery) (relation : Relation) (q : Query) (select : SelectList) :
    Query :=
  let q' := addSelects q.takeOrdering.2 select
  let q' := addSelects q'
    (((List.range children.partition.length).map partitionLabel).zip children.partition)
  q'.addSelectAs
    (rowNumber children.partition
      ((relation.sort.toList.map fun (column, order) =>
        qualified children.tableAlias column ++ " " ++ order.keyword) ++ q.ordering))
    rowNumberLabel

theorem followUpLevel_ok {many : ManyPlan} {parent child : TypeMapping} {relation : Relation}
    {keys : List (List Json)} {f : FollowUp}
    (h : followUpLevel env many parent child relation keys s = .ok (f, t)) :
    ∃ children s₁ q select s₂ inner pageAlias s₃ param,
      childQuery env many.parentType many.target parent child relation keys s = (children, s₁) ∧
      compileLevel env (childLevel many relation children.tableAlias) none children.query
        many.selection s₁ = .ok ((q, select, f.plan), s₂) ∧
      (pageQuery children relation q select).render = .ok inner ∧
      Sql.freshAlias "page" s₂ = (pageAlias, s₃) ∧
      Sql.bind "pageLimit" (Json.ofNat f.cap) s₃ = (param, t) ∧
      f.cap = pageCap many.paging q.limit env.settings.maxRelationRows ∧
      f.labels = (List.range children.partition.length).map partitionLabel ∧
      f.sql = pageText inner pageAlias param f.labels := by
  simp only [followUpLevel, bind_ok, pure_ok, ofBuilding_ok, ofSql_ok] at h
  obtain ⟨children, s₁, hc, ⟨q, select, plan⟩, s₂, hl, inner, _, ⟨hr, rfl⟩, pageAlias, s₃, ha,
    param, _, hb, rfl, rfl⟩ := h
  exact ⟨children, s₁, q, select, s₂, inner, pageAlias, s₃, param, hc, hl, hr, ha, hb, rfl, rfl,
    rfl⟩

theorem compileMany_ok {many : ManyPlan} {keys : List (List Json)} {compiled : Compiled}
    (h : compileMany env many keys = .ok compiled) :
    many.depth ≤ env.settings.maxDepth ∧ ∃ parent resolved relation child f scope,
      env.registry.lookup many.parentType = .ok parent ∧
      env.registry.resolve many.parentType many.field = .ok resolved ∧
      resolved.relation? = some relation ∧
      env.registry.lookup many.target = .ok child ∧
      followUpLevel env many parent child relation keys {} = .ok (f, scope) ∧
      finish f.sql scope = .ok compiled.statement ∧ compiled.plan = f.plan ∧
      compiled.partitionLabels = f.labels ∧ compiled.pageSize = some f.cap := by
  unfold compileMany at h
  by_cases hd : env.settings.maxDepth < many.depth
  · simp [hd, Outcome.bind_ok, Outcome.throw_ok] at h
  · simp only [hd, if_false, Outcome.bind_ok, Outcome.mapError_ok] at h
    obtain ⟨parent, hp, resolved, hr, h⟩ := h
    cases hn : resolved.relation? with
    | none => simp [hn, Outcome.throw_ok] at h
    | some relation =>
      simp only [hn, Outcome.bind_ok, Outcome.mapError_ok, Outcome.pure_ok, StateT.run] at h
      obtain ⟨child, hc, ⟨f, scope⟩, hf, statement, hs, rfl⟩ := h
      exact ⟨by omega, parent, resolved, relation, child, f, scope, hp, hr, hn, hc, hf, hs, rfl,
        rfl, rfl⟩

end Plan

end ObjectGraph
