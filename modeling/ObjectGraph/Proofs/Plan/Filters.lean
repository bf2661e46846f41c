import ObjectGraph.Proofs.Plan.Levels
import ObjectGraph.Proofs.Sql.Conditions

/-! # What restricts the rows of a level

The conditions of a level come from several contributors: the join with the parent or the keys of
the parents, the filter of the type, the filter of the caller and, at the root, the columns that
the request asks for.  `Selects` says which they are at each level and which query is written for
it.  All of them add to one list of conditions, so that each is conjoined with the others exactly
if they are separate (`conditions_conjoined`). -/

namespace ObjectGraph

namespace Plan

open Sql (Query Building Addition Adds Holds extendAll qualified)
open Schema (TypeMapping TypeFilter Relation Resolved JoinRule)

/-! ### Contributors -/

/-- The turn of a contributor to the conditions of a query: the query and the scope it gets. -/
structure Turn where
  build : Query → Building Query
  query : Query
  scope : Sql.Scope

namespace Turn

/-- The conditions that a contributor makes where there are none yet. -/
def alone (turn : Turn) : List String :=
  (turn.build { turn.query with conditions := [] } turn.scope).1.conditions

/-- What a contributor adds. -/
def Adds (turn : Turn) (part : List Addition) : Prop :=
  ∃ q t, Sql.Adds turn.build turn.query turn.scope part q t

theorem Adds.alone_eq {turn : Turn} {part : List Addition} (h : turn.Adds part) :
    turn.alone = extendAll [] part := by
  obtain ⟨q, t, h⟩ := h
  rw [alone, h []]

theorem exists_part {turns : List Turn} {parts : List (List Addition)}
    (h : List.Forall₂ Adds turns parts) {turn : Turn} (hturn : turn ∈ turns) :
    ∃ part ∈ parts, turn.Adds part := by
  induction h with
  | nil => exact absurd hturn List.not_mem_nil
  | @cons first part turns parts hfirst _ ih =>
    rcases List.mem_cons.1 hturn with rfl | hturn
    · exact ⟨part, List.mem_cons_self, hfirst⟩
    · obtain ⟨part', hmem, hadds⟩ := ih hturn
      exact ⟨part', List.mem_cons_of_mem _ hmem, hadds⟩

/-- Contributors that are applied in turn. -/
def sequence : List (Query → Building Query) → Query → Sql.Scope → List Turn
  | [], _, _ => []
  | build :: builds, q, s => ⟨build, q, s⟩ :: sequence builds (build q s).1 (build q s).2

/-- The query after contributors were applied to it in turn. -/
def result : List (Query → Building Query) → Query → Sql.Scope → Query × Sql.Scope
  | [], q, s => (q, s)
  | build :: builds, q, s => result builds (build q s).1 (build q s).2

/-- Contributors account for the conditions that are there after them. -/
def Account (turns : List Turn) (before after : List String) : Prop :=
  ∃ parts, List.Forall₂ Adds turns parts ∧ after = extendAll before parts.flatten

theorem Account.append {turns turns' : List Turn} {before between after : List String}
    (h : Account turns before between) (h' : Account turns' between after) :
    Account (turns ++ turns') before after := by
  obtain ⟨parts, hparts, rfl⟩ := h
  obtain ⟨parts', hparts', rfl⟩ := h'
  refine ⟨parts ++ parts', List.rel_append hparts hparts', ?_⟩
  rw [List.flatten_append, Sql.extendAll_append]

/-- An action adds to the conditions, whatever the query. -/
def Contributes (build : Query → Building Query) : Prop :=
  ∀ q s, ∃ part q' t, Sql.Adds build q s part q' t

theorem account_sequence (builds : List (Query → Building Query))
    (h : ∀ build ∈ builds, Contributes build) (q : Query) (s : Sql.Scope) :
    Account (sequence builds q s) q.conditions (result builds q s).1.conditions := by
  induction builds generalizing q s with
  | nil => exact ⟨[], .nil, rfl⟩
  | cons build builds ih =>
    obtain ⟨part, q', t, hadds⟩ := h build List.mem_cons_self q s
    have hrest := ih (fun b hb => h b (List.mem_cons_of_mem _ hb)) (build q s).1 (build q s).2
    obtain ⟨parts, hparts, heq⟩ := hrest
    refine ⟨part :: parts, .cons ⟨q', t, hadds⟩ hparts, ?_⟩
    have hfirst : (build q s).1.conditions = extendAll q.conditions part := by
      rw [hadds.run]
    rw [List.flatten_cons, Sql.extendAll_append, ← hfirst]
    exact heq

end Turn

open Turn (Contributes)

theorem contributes_filter (caller : Caller) (tableAlias : String) (filter : Option TypeFilter) :
    Contributes fun q => TypeFilter.applyOption caller tableAlias q filter := by
  intro q s
  cases filter with
  | none => exact ⟨[], q, s, fun _ => rfl⟩
  | some filter =>
    cases filter with
    | template text => exact ⟨_, q, _, Sql.adds_andWhereWith _ _ s⟩
    | script steps => exact Sql.Step.exists_addsAll caller _ q s steps

theorem contributes_join (caller : Caller) (parentAlias childAlias : String) (join : JoinRule) :
    Contributes fun q => join.apply caller parentAlias childAlias q := by
  intro q s
  cases join with
  | columns parent child => exact ⟨_, q, s, Sql.adds_andWhere _ s⟩
  | limitedColumns parent child limit =>
    exact ⟨[⟨.conjoin, Schema.columnsEqual parentAlias parent childAlias child⟩],
      q.withLimit limit, s, fun _ => rfl⟩
  | condition text limit =>
    have hwhere := Sql.adds_andWhereWith (q := q)
      (Text.fill [(Sql.parentHole, parentAlias), (Sql.childHole, childAlias)] text)
      (Schema.userParams caller) s
    cases limit with
    | none => exact ⟨_, q, _, hwhere⟩
    | some limit =>
      have hlimit : ∀ t, Adds (fun q => pure (q.withLimit limit)) q t [] (q.withLimit limit) t :=
        fun _ _ => rfl
      exact ⟨_, _, _, hwhere.bind (hlimit _)⟩
  | script steps => exact Sql.Step.exists_addsAll caller _ q s steps

theorem contributes_restrictParents (tableAlias : String) (columns : List String)
    (keys : List (List Json)) :
    Contributes fun q => restrictParents q tableAlias columns keys := by
  intro q s
  match columns with
  | [column] => exact ⟨_, q, _, Sql.adds_andWhereWith _ _ s⟩
  | [] => exact ⟨[⟨.conjoin, _⟩], q, (keyConditions tableAlias [] 0 keys s).2, fun _ => rfl⟩
  | first :: second :: columns =>
    exact ⟨[⟨.conjoin, _⟩], q,
      (keyConditions tableAlias (first :: second :: columns) 0 keys s).2, fun _ => rfl⟩

theorem contributes_andWhereWith (condition : String) (params : Sql.Params) :
    Contributes fun q => q.andWhereWith condition params :=
  fun q s => ⟨_, q, _, Sql.adds_andWhereWith condition params s⟩

/-- The filter of a type, then that of the caller. -/
def filters (env : Environment) (tableAlias : String) (mapping : TypeMapping)
    (filter : Option TypeFilter) : List (Query → Building Query) :=
  [fun q => TypeFilter.applyOption env.caller tableAlias q mapping.filter,
    fun q => TypeFilter.applyOption env.caller tableAlias q filter]

/-- The columns that a request asks for, each with its value. -/
def requestFilters (tableAlias : String) (filter : Object) : List (Query → Building Query) :=
  filter.map fun item q =>
    q.andWhereWith
      (qualified tableAlias item.1 ++ " = :" ++ ("filter_" ++ Sql.snakeCase item.1))
      [("filter_" ++ Sql.snakeCase item.1, item.2)]

/-- What restricts the children of a follow-up to their parents: the keys of the parents, in the
column of a plain join; with any other join, the keys and the join. -/
def parentTurns (env : Environment) (parentType target : String) (parent child : TypeMapping)
    (relation : Relation) (keys : List (List Json)) : List Turn :=
  match relation.join.columns? with
  | some (_, column) =>
    let (tableAlias, s) := Sql.freshAlias target {}
    Turn.sequence
      [fun q => q.andWhereWith (qualified tableAlias column ++ " IN (:...parentKeys)")
        [("parentKeys", .arr (firstComponents keys))]]
      (({} : Query).fromTable (child.tableName target) tableAlias) s
  | none =>
    let (parentAlias, s) := Sql.freshAlias parentType {}
    let (tableAlias, s) := Sql.freshAlias target s
    Turn.sequence
      [fun q => restrictParents q parentAlias parent.key keys,
        fun q => relation.join.apply env.caller parentAlias tableAlias q]
      ((({} : Query).fromTable (parent.tableName parentType) parentAlias).join .cross
        (child.tableName target) tableAlias none) s

/-- A query ordered by the column of a relation. -/
def sorted (relation : Relation) (tableAlias : String) (q : Query) : Query :=
  match relation.sort with
  | some (column, order) => q.orderBy (qualified tableAlias column) order
  | none => q

/-- The query of the root of a request, once its level is compiled and its filter is added. -/
def rootQuery (request : Request) (tableAlias : String) (q : Query) (select : SelectList) :
    Query :=
  let q := match request.orderBy with
    | some (column, order) => q.orderBy (qualified tableAlias column) order
    | none => q
  let q := match request.limit with
    | some limit => q.withLimit limit
    | none => q
  addSelects q select

/-- The SELECT of a level: who contributes to its conditions, in order, and the query whose text
stands in the statement. -/
inductive Selects (env : Environment) : Start → Opened → List Selection → List Turn → Query → Prop
  | root {request : Request} {filter : Option TypeFilter} {compiled : Compiled}
      {mapping : TypeMapping} {tableAlias : String} {s₁ s₂ t : Sql.Scope} {o : Opened}
      {p : Progress} :
      compileRoot env request filter = .ok compiled →
      env.registry.lookup request.typeName = .ok mapping →
      Sql.freshAlias request.typeName {} = (tableAlias, s₁) →
      openLevel env (rootOf request tableAlias) filter
        (({} : Query).fromTable (mapping.tableName request.typeName) tableAlias) s₁ =
          .ok (o, s₂) →
      entries env o o.progress 0 request.fields s₂ = .ok (p, t) →
      (rootQuery request tableAlias
        (Turn.result (requestFilters tableAlias request.filter) o.query t).1
        (closeLevel o p).1).render = .ok compiled.statement.sql →
      Selects env (.root request filter) o request.fields
        (Turn.sequence (filters env tableAlias mapping filter)
            (({} : Query).fromTable (mapping.tableName request.typeName) tableAlias) s₁ ++
          Turn.sequence (requestFilters tableAlias request.filter) o.query t)
        (rootQuery request tableAlias
          (Turn.result (requestFilters tableAlias request.filter) o.query t).1 (closeLevel o p).1)
  | followUp {many : ManyPlan} {keys : List (List Json)} {compiled : Compiled}
      {parent child : TypeMapping} {relation : Relation} {children : ChildQuery}
      {s₁ s₂ t : Sql.Scope} {o : Opened} {p : Progress} {inner pageAlias param : String} :
      compileMany env many keys = .ok compiled →
      env.registry.lookup many.target = .ok child →
      childQuery env many.parentType many.target parent child relation keys {} = (children, s₁) →
      openLevel env (childLevel many relation children.tableAlias) none children.query s₁ =
        .ok (o, s₂) →
      entries env o o.progress 0 many.selection s₂ = .ok (p, t) →
      (pageQuery children relation o.query (closeLevel o p).1).render = .ok inner →
      compiled.statement.sql = pageText inner pageAlias param compiled.partitionLabels →
      Selects env (.followUp many parent child relation keys) o many.selection
        (parentTurns env many.parentType many.target parent child relation keys ++
          Turn.sequence (filters env children.tableAlias child none) children.query s₁)
        (pageQuery children relation o.query (closeLevel o p).1)
  | single {parent : Level} {mapping : TypeMapping} {relation : Relation} {child : Opened}
      {selection : List Selection} {position : Nat} {target tableAlias : String}
      {s s₁ s₂ s₃ t : Sql.Scope} {p : Progress} {joined : Query} :
      env.registry.lookup target = .ok mapping →
      Sql.freshAlias target s = (tableAlias, s₁) →
      relation.join.apply env.caller parent.tableAlias tableAlias
        (({} : Query).fromTable (mapping.tableName target) tableAlias) s₁ = (joined, s₂) →
      openLevel env
        { typeName := target, tableAlias, depth := parent.depth + 1, nested := true,
          extraRequired := [], origin := parent.origin ++ [position] } none
        (sorted relation tableAlias joined) s₂ = .ok (child, s₃) →
      entries env child child.progress 0 selection s₃ = .ok (p, t) →
      Selects env (.single parent relation) child selection
        (Turn.sequence
            [fun q => relation.join.apply env.caller parent.tableAlias tableAlias q]
            (({} : Query).fromTable (mapping.tableName target) tableAlias) s₁ ++
          Turn.sequence (filters env tableAlias mapping none) (sorted relation tableAlias joined) s₂)
        ((child.query.select (env.settings.dialect.jsonObject (closeLevel child p).1)).withLimit 1)

/-! ### Every level has its SELECT -/

theorem addRequestFilter_eq (tableAlias : String) (filter : Object) (q : Query) (s : Sql.Scope) :
    addRequestFilter tableAlias q filter s =
      .ok (Turn.result (requestFilters tableAlias filter) q s) := by
  induction filter generalizing q s with
  | nil => rfl
  | cons item filter ih =>
    obtain ⟨column, value⟩ := item
    exact ih _ _

section

variable {env : Environment} {start : Start} {o : Opened} {selections : List Selection}
  {turns : List Turn} {query : Query}

theorem conditions_addSelects (q : Query) (select : SelectList) :
    (addSelects q select).conditions = q.conditions := by
  unfold addSelects
  induction select generalizing q with
  | nil => rfl
  | cons item select ih => exact ih _

theorem conditions_pageQuery (children : ChildQuery) (relation : Relation) (q : Query)
    (select : SelectList) : (pageQuery children relation q select).conditions = q.conditions := by
  change (addSelects (addSelects q.takeOrdering.2 select) _).conditions = _
  rw [conditions_addSelects, conditions_addSelects]
  rfl

theorem conditions_rootQuery (request : Request) (tableAlias : String) (q : Query)
    (select : SelectList) :
    (rootQuery request tableAlias q select).conditions = q.conditions := by
  unfold rootQuery
  rw [conditions_addSelects]
  cases request.orderBy <;> cases request.limit <;> rfl

theorem conditions_sorted (relation : Relation) (tableAlias : String) (q : Query) :
    (sorted relation tableAlias q).conditions = q.conditions := by
  unfold sorted
  cases relation.sort <;> rfl

/-- Every level that is compiled has its SELECT. -/
theorem Compiles.selects {s : Sql.Scope} {p : Progress}
    (h : Compiles env start o selections s p) :
    ∃ turns query, Selects env start o selections turns query := by
  cases h with
  | root hcompiled hm ha ho he =>
    obtain ⟨-, sql, plan, scope, hr, hf, -⟩ := compileRoot_ok hcompiled
    obtain ⟨mapping, tableAlias, s₁, q, select, s₂, q', hm', ha', hl, hfilter, hs⟩ :=
      rootLevel_ok hr
    rw [hm] at hm'
    cases hm'
    rw [ha] at ha'
    cases ha'
    obtain ⟨o', s', p', ho', he', rfl, hclose⟩ := compileLevel_ok hl
    cases ho.symm.trans ho'
    rw [he] at he'
    cases he'
    cases hclose
    rw [addRequestFilter_eq] at hfilter
    have hquery := (Prod.mk.inj (Except.ok.inj hfilter)).1
    refine ⟨_, _, .root hcompiled hm ha ho he ?_⟩
    rw [hquery, (finish_ok hf).1]
    exact hs
  | followUp hcompiled hp hr hn hchild hq ho he =>
    obtain ⟨-, parent', resolved', relation', child', f, scope, hp', hr', hn', hchild', hf, hs, -,
      hlabels, -⟩ := compileMany_ok hcompiled
    rw [hp] at hp'
    cases hp'
    rw [hr] at hr'
    cases hr'
    rw [hn] at hn'
    cases hn'
    rw [hchild] at hchild'
    cases hchild'
    obtain ⟨children', s₁', q, select, s₂', inner, pageAlias, s₃, param, hq', hl, hrender, -, -, -,
      hlabels', hsql⟩ := followUpLevel_ok hf
    rw [hq] at hq'
    cases hq'
    obtain ⟨o', s', p', ho', he', rfl, hclose⟩ := compileLevel_ok hl
    cases ho.symm.trans ho'
    rw [he] at he'
    cases he'
    have hselect : select = (closeLevel o p).1 := congrArg Prod.fst hclose
    rw [hselect] at hrender
    rw [← hlabels] at hsql
    refine ⟨_, _, .followUp hcompiled hchild hq ho he hrender (Eq.trans ?_ hsql)⟩
    rw [(finish_ok hs).1]
    rfl
  | single hparent hfield htake hr hn hmany ho he =>
    obtain ⟨mapping, tableAlias, s₁, joined, s₂, hm, ha, hj, ho⟩ := openSingle_ok ho
    exact ⟨_, _, .single hm ha hj ho he⟩

/-- The filters of a level account for what is added when it is opened. -/
theorem account_openLevel {level : Level} {filter : Option TypeFilter} {q : Query}
    {mapping : TypeMapping} {s t : Sql.Scope}
    (hm : env.registry.lookup level.typeName = .ok mapping)
    (h : openLevel env level filter q s = .ok (o, t)) :
    Turn.Account (Turn.sequence (filters env level.tableAlias mapping filter) q s) q.conditions
      o.query.conditions := by
  obtain ⟨-, mapping', q₁, s₁, q₂, hm', h₁, h₂, rfl⟩ := openLevel_ok h
  rw [hm] at hm'
  cases hm'
  have hresult : Turn.result (filters env level.tableAlias mapping filter) q s = (q₂, t) := by
    rw [filters, Turn.result, Turn.result, Turn.result, h₁]
    exact h₂
  have haccount := Turn.account_sequence (filters env level.tableAlias mapping filter)
    (by
      intro build hbuild
      rcases List.mem_cons.1 hbuild with rfl | hbuild
      · exact contributes_filter env.caller level.tableAlias mapping.filter
      · rw [List.mem_singleton.1 hbuild]
        exact contributes_filter env.caller level.tableAlias filter) q s
  rw [hresult] at haccount
  exact haccount

theorem account_childQuery {parentType target : String} {parent child : TypeMapping}
    {relation : Relation} {keys : List (List Json)} {children : ChildQuery} {t : Sql.Scope}
    (h : childQuery env parentType target parent child relation keys {} = (children, t)) :
    Turn.Account (parentTurns env parentType target parent child relation keys) []
      children.query.conditions := by
  unfold childQuery at h
  unfold parentTurns
  cases hcolumns : relation.join.columns? with
  | some columns =>
    rw [hcolumns] at h
    cases h
    exact Turn.account_sequence _ (by
      intro build hbuild
      rw [List.mem_singleton.1 hbuild]
      exact contributes_andWhereWith _ _) _ _
  | none =>
    rw [hcolumns] at h
    cases h
    exact Turn.account_sequence _ (by
      intro build hbuild
      rcases List.mem_cons.1 hbuild with rfl | hbuild
      · exact contributes_restrictParents _ _ _
      · rw [List.mem_singleton.1 hbuild]
        exact contributes_join _ _ _ _) _ _

/-- The contributors of a level account for its conditions. -/
theorem Selects.account (h : Selects env start o selections turns query) :
    Turn.Account turns [] query.conditions := by
  cases h with
  | @root request filter _ mapping tableAlias _ _ t _ _ hcompiled hm ha ho he hrender =>
    rw [conditions_rootQuery]
    have hrequest := Turn.account_sequence (requestFilters tableAlias request.filter)
      (by
        intro build hbuild
        obtain ⟨item, -, rfl⟩ := List.mem_map.1 hbuild
        exact contributes_andWhereWith _ _) o.query t
    have hfilters := account_openLevel (by exact hm) ho
    exact hfilters.append hrequest
  | followUp hcompiled hchild hq ho he hrender hsql =>
    rw [conditions_pageQuery]
    have hfilters := account_openLevel (by exact hchild) ho
    exact (account_childQuery hq).append hfilters
  | @single parent mapping relation _ _ position target tableAlias _ s₁ s₂ _ _ _ joined hm ha hj ho
      he =>
    have hjoin := Turn.account_sequence
      [fun q => relation.join.apply env.caller parent.tableAlias tableAlias q]
      (by
        intro build hbuild
        rw [List.mem_singleton.1 hbuild]
        exact contributes_join _ _ _ _)
      (({} : Query).fromTable (mapping.tableName target) tableAlias) s₁
    rw [Turn.result, Turn.result, hj] at hjoin
    have hfilters := account_openLevel (by exact hm) ho
    rw [conditions_sorted] at hfilters
    exact Turn.Account.append hjoin hfilters

/-- Every level has its SELECT, and its contributors add to the conditions in turn.  If they are
separate, a row that satisfies the conditions of the SELECT satisfies those of every contributor on
its own.  If they are not, conditions can be added in the same way such that some row satisfies
them all in the SELECT and not those of a contributor. -/
theorem conditions_conjoined {s : Sql.Scope} {p : Progress}
    (h : Compiles env start o selections s p) :
    ∃ turns query parts, Selects env start o selections turns query ∧
      List.Forall₂ Turn.Adds turns parts ∧ query.conditions = extendAll [] parts.flatten ∧
      (Sql.Separate (Sql.shapes parts) →
        (∀ part ∈ parts, ∀ a ∈ part, Sql.Complete a.condition) →
          ∀ v, Holds v query.conditions → ∀ turn ∈ turns, Holds v turn.alone) ∧
      (¬Sql.Separate (Sql.shapes parts) →
        ∃ parts', Sql.shapes parts' = Sql.shapes parts ∧
          (∀ part ∈ parts', ∀ a ∈ part, Sql.Complete a.condition) ∧
          ∃ v, Holds v (extendAll [] parts'.flatten) ∧
            ∃ part ∈ parts', ¬Holds v (extendAll [] part)) := by
  obtain ⟨turns, query, hselects⟩ := h.selects
  obtain ⟨parts, hparts, hconditions⟩ := hselects.account
  refine ⟨turns, query, parts, hselects, hparts, hconditions, ?_, ?_⟩
  · intro hseparate hcomplete v hholds turn hturn
    rw [hconditions] at hholds
    have hpart := Sql.separate_iff.1 hseparate parts rfl hcomplete v hholds
    obtain ⟨part, hmem, hadds⟩ := Turn.exists_part hparts hturn
    rw [hadds.alone_eq]
    exact hpart part hmem
  · intro hnot
    by_contra hnone
    apply hnot
    rw [Sql.separate_iff]
    intro parts' hshapes hcomplete v hholds part hpart
    by_contra hout
    exact hnone ⟨parts', hshapes, hcomplete, v, hholds, part, hpart, hout⟩

end

/-! ### A filter that lets hidden rows through -/

namespace Hidden

/-- Posts that are deleted are hidden. -/
def visible : TypeFilter := .script [.andWhere (Sql.aliasHole ++ ".deleted = 0") []]

/-- A filter of the caller that disjoins. -/
def pinned : TypeFilter := .script [.orWhere (Sql.aliasHole ++ ".pinned = 1")]

def environment : Environment :=
  { registry := ⟨[("Post", { filter := some visible })], none⟩, settings := {}, caller := {} }

def request : Request := { typeName := "Post", fields := [.scalar "title"] }

/-- A post that is pinned and deleted. -/
def row : Sql.Atoms
  | .word text :: _ => if text = "post_1.pinned".toList then .yes else .no
  | _ => .no

def posts : Query := ({} : Query).fromTable "Post" "post_1"

def scope : Sql.Scope := ⟨["post_1"], []⟩

/-- The two filters. -/
def turns : List Turn :=
  [⟨fun q => TypeFilter.applyOption environment.caller "post_1" q (some visible), posts, scope⟩,
    ⟨fun q => TypeFilter.applyOption environment.caller "post_1" q (some pinned),
      posts.andWhere "post_1.deleted = 0", scope⟩]

theorem compiles : (compileRoot environment request (some pinned)).toOption.isSome = true := by
  decide +kernel

theorem alone_eq : turns.map Turn.alone = [["post_1.deleted = 0"], ["post_1.pinned = 1"]] := by
  decide +kernel

theorem shown : Sql.truth row "(post_1.deleted = 0) OR (post_1.pinned = 1)" = .yes := by
  decide +kernel

theorem not_visible : Sql.truth row "post_1.deleted = 0" = .no := by
  decide +kernel

/-- What the filter of the caller makes of two conditions. -/
theorem pinned_disjoins :
    (TypeFilter.applyOption environment.caller "post_1" { posts with conditions := ["a", "b"] }
      (some pinned) scope).1.conditions.length = 1 := by
  decide +kernel

theorem visible_conjoins :
    TypeFilter.applyOption environment.caller "post_1" posts (some visible) scope =
      (posts.andWhere "post_1.deleted = 0", scope) := by
  have hquery : (TypeFilter.applyOption environment.caller "post_1" posts (some visible) scope).1 =
      posts.andWhere "post_1.deleted = 0" := by
    decide +kernel
  exact Prod.ext hquery rfl

theorem selects_eq {o : Opened} {turns' : List Turn} {query : Query}
    (h : Selects environment (.root request (some pinned)) o request.fields turns' query) :
    turns' = turns ∧ query.conditions = ["(post_1.deleted = 0) OR (post_1.pinned = 1)"] := by
  cases h with
  | root _ hm ha ho _ _ =>
    obtain ⟨-, mapping, q₁, s₁, q₂, hm', h₁, h₂, rfl⟩ := openLevel_ok ho
    cases hm
    cases ha
    cases hm'
    cases h₁
    have hconditions := congrArg (fun r => r.1.conditions) h₂
    constructor
    · change [Turn.mk _ posts scope, Turn.mk _ (TypeFilter.applyOption environment.caller "post_1"
        posts (some visible) scope).1 (TypeFilter.applyOption environment.caller "post_1" posts
        (some visible) scope).2] = _
      rw [visible_conjoins]
      rfl
    · rw [conditions_rootQuery]
      change q₂.conditions = _
      rw [← hconditions]
      decide +kernel

/-- The filter of the type is a condition, and that of the caller disjoins. -/
theorem not_separate {parts : List (List Addition)} (h : List.Forall₂ Turn.Adds turns parts) :
    ¬Sql.Separate (Sql.shapes parts) := by
  cases h with
  | @cons _ first _ _ hfirst hrest =>
    cases hrest with
    | @cons _ second _ _ hsecond hnil =>
      cases hnil
      intro hseparate
      have hlater := (List.pairwise_cons.1 hseparate).1 _ List.mem_cons_self
      rcases hlater with hempty | hconjoin
      · have halone := hfirst.alone_eq
        rw [List.map_eq_nil_iff.1 hempty] at halone
        have hone := (List.cons.inj alone_eq).1
        rw [halone] at hone
        cases hone
      · obtain ⟨q', t, hadds⟩ := hsecond
        have hall : ∀ a ∈ second, a.junction = .conjoin :=
          fun a ha => hconjoin _ (List.mem_map_of_mem ha)
        have hlength := Sql.length_extendAll hall ["a", "b"]
        have hboth : (TypeFilter.applyOption environment.caller "post_1"
            { posts with conditions := ["a", "b"] } (some pinned) scope).1.conditions =
              extendAll ["a", "b"] second :=
          congrArg (fun r => r.1.conditions) (hadds ["a", "b"])
        have hone := pinned_disjoins
        rw [hboth, hlength, List.length_cons, List.length_singleton] at hone
        omega

end Hidden

/-- With a filter of the caller that disjoins, a row satisfies the conditions of the statement
although the filter of its type hides it. -/
theorem conditions_conjoined_hidden : ∃ o s p turns query parts,
    Compiles Hidden.environment (.root Hidden.request (some Hidden.pinned)) o Hidden.request.fields
      s p ∧
    Selects Hidden.environment (.root Hidden.request (some Hidden.pinned)) o Hidden.request.fields
      turns query ∧
    List.Forall₂ Turn.Adds turns parts ∧ ¬Sql.Separate (Sql.shapes parts) ∧
    ∃ v, Holds v query.conditions ∧ ∃ turn ∈ turns, ¬Holds v turn.alone := by
  cases hcompiled : compileRoot Hidden.environment Hidden.request (some Hidden.pinned) with
  | error e =>
    have hok := Hidden.compiles
    rw [hcompiled] at hok
    cases hok
  | ok compiled =>
    obtain ⟨o, s, p, hlevel, -⟩ := compileRoot_compiles hcompiled
    obtain ⟨turns, query, parts, hselects, hparts, -⟩ := conditions_conjoined hlevel
    obtain ⟨rfl, hconditions⟩ := Hidden.selects_eq hselects
    refine ⟨o, s, p, _, query, parts, hlevel, hselects, hparts, Hidden.not_separate hparts,
      Hidden.row, ?_, _, List.mem_cons_self, ?_⟩
    · rw [hconditions]
      intro t ht
      rw [← Option.some.inj ht]
      exact Hidden.shown
    · have halone : Turn.alone _ = ["post_1.deleted = 0"] := (List.cons.inj Hidden.alone_eq).1
      rw [halone]
      intro hholds
      have hyes := hholds _ rfl
      change Sql.truth Hidden.row "post_1.deleted = 0" = .yes at hyes
      rw [Hidden.not_visible] at hyes
      cases hyes

end Plan

end ObjectGraph
