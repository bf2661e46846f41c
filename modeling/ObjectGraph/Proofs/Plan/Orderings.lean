import ObjectGraph.Proofs.Plan.Compiling
import ObjectGraph.Proofs.Sql.Orderings

/-! # The order of related objects

What a relation declares to sort by, what its join orders by and what the filter of its target
orders by come together twice: in the sub-select of a single related object (`inlineTerms`) and in
the window that numbers the objects of a list (`windowTerms`).  The sub-select has the terms of the
join before the declared sort, and its filter can take both away; the window has the declared sort
first, and keeps it.  Hence the two orders agree only in some schemas (`inlineTerms_eq_iff`). -/

namespace ObjectGraph

namespace Schema

open Sql (Query Scope Step)

/-- Whether a filter leaves the terms of an ordering in place. -/
def TypeFilter.keepsOrdering (caller : Caller) : Option TypeFilter → Bool
  | some (.script steps) => Step.keepsOrderingAll caller steps
  | _ => true

/-- Whether a filter names the main table of the query. -/
def TypeFilter.namesMain : Option TypeFilter → Bool
  | some (.script steps) => Step.namesMainAny steps
  | _ => false

/-- Whether a join leaves the terms of an ordering in place. -/
def JoinRule.keepsOrdering (caller : Caller) : JoinRule → Bool
  | .script steps => Step.keepsOrderingAll caller steps
  | _ => true

/-- Whether a join names the main table of the query. -/
def JoinRule.namesMain : JoinRule → Bool
  | .script steps => Step.namesMainAny steps
  | _ => false

variable {caller : Caller} {q q' : Query} {s : Scope}

theorem applyOption_beside {tableAlias : String} (filter : Option TypeFilter)
    (h : TypeFilter.namesMain filter = true → q.tableAlias? = q'.tableAlias?) :
    Sql.Beside (TypeFilter.keepsOrdering caller filter) q q'
      (TypeFilter.applyOption caller tableAlias q filter s)
      (TypeFilter.applyOption caller tableAlias q' filter s) := by
  cases filter with
  | none => exact .untouched rfl rfl rfl id
  | some filter =>
    cases filter with
    | template text => exact .untouched rfl rfl rfl id
    | script steps => exact Sql.steps_beside steps h

theorem join_beside {parent child : String} (rule : JoinRule)
    (h : rule.namesMain = true → q.tableAlias? = q'.tableAlias?) :
    Sql.Beside (rule.keepsOrdering caller) q q' (rule.apply caller parent child q s)
      (rule.apply caller parent child q' s) := by
  cases rule with
  | columns _ _ => exact .untouched rfl rfl rfl id
  | limitedColumns _ _ _ => exact .untouched rfl rfl rfl id
  | condition text limit => cases limit <;> exact .untouched rfl rfl rfl id
  | script steps => exact Sql.steps_beside steps h

end Schema

namespace Plan

open Sql (Query Scope qualified Beside)
open Schema (TypeFilter TypeMapping Relation)

/-! ### The terms of a relation -/

section

variable (caller : Caller) (relation : Relation) (filter : Option TypeFilter)
  (main parent child : String) (s : Scope)

/-- The join of a relation, made on a query of a main table, for the aliases of the tables. -/
def joined : Query × Scope :=
  relation.join.apply caller parent child (({} : Query).fromTable "" main) s

/-- The terms that the join orders by. -/
def joinTerms : List String := (joined caller relation main parent child s).1.ordering

/-- The terms that the filter of the target orders by. -/
def filterTerms : List String :=
  (TypeFilter.applyOption caller child
    { (joined caller relation main parent child s).1 with ordering := [] } filter
    (joined caller relation main parent child s).2).1.ordering

/-- The declared sort. -/
def sortTerms : List String :=
  relation.sort.toList.map fun (column, order) => qualified child column ++ " " ++ order.keyword

/-- The order of a single related object: the join, the declared sort, and then the filter. -/
def inlineTerms : List String :=
  (if TypeFilter.keepsOrdering caller filter then
      joinTerms caller relation child parent child s ++ sortTerms relation child
    else []) ++ filterTerms caller relation filter child parent child s

/-- The main table of the query of a list: the parent, unless the column of the child is enough. -/
def windowMain : String := if relation.join.columns?.isSome then child else parent

/-- The order of the objects of a list: the declared sort, the join, and then the filter. -/
def windowTerms : List String :=
  sortTerms relation child ++
    ((if TypeFilter.keepsOrdering caller filter then
        joinTerms caller relation (windowMain relation parent child) parent child s
      else []) ++ filterTerms caller relation filter (windowMain relation parent child) parent child s)

end

section

variable (caller : Caller) (relation : Relation) (filter : Option TypeFilter)
  (main parent child : String) {s t : Scope} {q : Query}

/-- The join on any query of the main table that is not ordered yet. -/
theorem join_ordering (hmain : q.tableAlias? = some main) (hq : q.ordering = []) :
    (relation.join.apply caller parent child q s).1.ordering =
        joinTerms caller relation main parent child s ∧
      (relation.join.apply caller parent child q s).1.tableAlias? =
        (joined caller relation main parent child s).1.tableAlias? ∧
      (relation.join.apply caller parent child q s).2 =
        (joined caller relation main parent child s).2 := by
  have hjoin : Beside (relation.join.keepsOrdering caller) q (({} : Query).fromTable "" main)
      (relation.join.apply caller parent child q s) (joined caller relation main parent child s) :=
    Schema.join_beside relation.join fun _ => hmain
  obtain ⟨terms, hterms, hterms'⟩ := hjoin.added
  rw [hq] at hterms
  exact ⟨hterms.trans hterms'.symm, hjoin.main hmain, hjoin.scope⟩

/-- The filter on any query that has the main table of the joined one. -/
theorem filter_ordering
    (hmain : q.tableAlias? = (joined caller relation main parent child s).1.tableAlias?)
    (hs : t = (joined caller relation main parent child s).2) :
    (TypeFilter.applyOption caller child q filter t).1.ordering =
      (if TypeFilter.keepsOrdering caller filter then q.ordering else []) ++
        filterTerms caller relation filter main parent child s := by
  have hfilter : Beside (TypeFilter.keepsOrdering caller filter) q
      { (joined caller relation main parent child s).1 with ordering := [] }
      (TypeFilter.applyOption caller child q filter t)
      (TypeFilter.applyOption caller child _ filter t) :=
    Schema.applyOption_beside filter fun _ => hmain
  obtain ⟨terms, hadded, hadded'⟩ := hfilter.added
  have hterms : filterTerms caller relation filter main parent child s = terms := by
    unfold filterTerms
    rw [← hs, hadded']
    split
    · rfl
    · rfl
  rw [hadded, hterms]

end

/-! ### Where the terms are compiled -/

variable {env : Environment} {s t : Scope}

/-- The sub-select of a single related object is ordered by the terms of its relation. -/
theorem openSingle_ordering {relation : Relation} {level : Level} {position : Nat}
    {target : String} {o : Opened}
    (h : openSingle env level position relation target s = .ok (o, t)) :
    ∃ s₁, o.query.ordering = inlineTerms env.caller relation o.mapping.filter level.tableAlias
      o.level.tableAlias s₁ := by
  obtain ⟨mapping, tableAlias, s₁, q, s₂, hm, -, hjoin, hopen⟩ := openSingle_ok h
  obtain ⟨-, mapping', q₁, s₃, q₂, hm', hfilter, hcaller, rfl⟩ := openLevel_ok hopen
  cases hm.symm.trans hm'
  cases hcaller
  refine ⟨s₁, ?_⟩
  obtain ⟨hordering, hmain, hscope⟩ := join_ordering env.caller relation tableAlias
    level.tableAlias tableAlias (s := s₁)
    (q := ({} : Query).fromTable (mapping.tableName target) tableAlias) rfl rfl
  rw [hjoin] at hordering hmain hscope
  have hsorted : TypeFilter.applyOption env.caller tableAlias
      { q with ordering := q.ordering ++ sortTerms relation tableAlias } mapping.filter s₂ =
        (q₁, t) := by
    rw [← hfilter]
    unfold sortTerms
    cases relation.sort with
    | none => rw [Option.toList_none, List.map_nil, List.append_nil]
    | some sort => rfl
  have hterms := filter_ordering env.caller relation mapping.filter tableAlias level.tableAlias
    tableAlias (q := { q with ordering := q.ordering ++ sortTerms relation tableAlias }) hmain hscope
  rw [hsorted] at hterms
  change q₁.ordering = _
  rw [hterms, hordering]
  rfl

theorem restrictParents_ordering {tableAlias : String} {columns : List String} {q : Query}
    {keys : List (List Json)} :
    (restrictParents q tableAlias columns keys s).1.ordering = q.ordering ∧
      (restrictParents q tableAlias columns keys s).1.tableAlias? = q.tableAlias? := by
  match columns with
  | [] => exact ⟨rfl, rfl⟩
  | [_] => exact ⟨rfl, rfl⟩
  | _ :: _ :: _ => exact ⟨rfl, rfl⟩

/-- The query of the children has the main table and the order of the joined one. -/
theorem childQuery_ordering {parentType target : String} {parent child : TypeMapping}
    {relation : Relation} {keys : List (List Json)} {children : ChildQuery}
    (h : childQuery env parentType target parent child relation keys s = (children, t)) :
    ∃ parentAlias s₁,
      children.query.ordering = joinTerms env.caller relation
        (windowMain relation parentAlias children.tableAlias) parentAlias children.tableAlias s₁ ∧
      children.query.tableAlias? = (joined env.caller relation
        (windowMain relation parentAlias children.tableAlias) parentAlias children.tableAlias
        s₁).1.tableAlias? ∧
      t = (joined env.caller relation (windowMain relation parentAlias children.tableAlias)
        parentAlias children.tableAlias s₁).2 := by
  unfold childQuery at h
  unfold windowMain
  cases hcolumns : relation.join.columns? with
  | some columns =>
    cases hjoin : relation.join with
    | columns parentColumn childColumn =>
      -- such a join orders by nothing, and no table but that of the children is there
      simp only [hcolumns] at h
      refine ⟨"", t, ?_⟩
      unfold joinTerms joined
      rw [hjoin]
      cases h
      exact ⟨rfl, rfl, rfl⟩
    | _ =>
      rw [hjoin] at hcolumns
      cases hcolumns
  | none =>
    simp only [hcolumns] at h
    let a := Sql.freshAlias parentType s
    let b := Sql.freshAlias target a.2
    let r := restrictParents ((({} : Query).fromTable (parent.tableName parentType) a.1).join .cross
      (child.tableName target) b.1 none) a.1 parent.key keys b.2
    obtain ⟨hordering, hmain, hscope⟩ := join_ordering env.caller relation a.1 a.1 b.1
      (q := r.1) (s := r.2) (restrictParents_ordering.2.trans rfl)
      (restrictParents_ordering.1.trans rfl)
    cases h
    exact ⟨a.1, r.2, hordering, hmain, hscope⟩

/-- The window that numbers the objects of a list is ordered by the terms of its relation. -/
theorem compileMany_ordering {many : ManyPlan} {keys : List (List Json)} {compiled : Compiled}
    (h : compileMany env many keys = .ok compiled) :
    ∃ resolved relation child, env.registry.resolve many.parentType many.field = .ok resolved ∧
      resolved.relation? = some relation ∧ env.registry.lookup many.target = .ok child ∧
      ∃ (inner : Query) (partition labels : List String)
        (parentAlias tableAlias pageAlias param : String) (s₁ : Scope),
        compiled.statement.sql = pageText inner.text pageAlias param labels ∧
        ⟨rowNumber partition (windowTerms env.caller relation child.filter parentAlias tableAlias
          s₁), some rowNumberLabel⟩ ∈ inner.items := by
  obtain ⟨-, parent, resolved, relation, child, f, scope, -, hr, hn, hc, hf, hs, -, -, -⟩ :=
    compileMany_ok h
  obtain ⟨children, s₁, q, select, s₂, text, pageAlias, s₃, param, hchildren, hlevel, hrender, -,
    -, -, -, hsql⟩ := followUpLevel_ok hf
  obtain ⟨opened, s₄, p, hopen, -, rfl, -⟩ := compileLevel_ok hlevel
  obtain ⟨-, mapping, q₁, s₅, q₂, hm, hfilter, hcaller, rfl⟩ := openLevel_ok hopen
  cases hcaller
  obtain ⟨parentAlias, s₀, hordering, hmain, hscope⟩ := childQuery_ordering hchildren
  have hmapping : mapping = child := by
    have hlookup : env.registry.lookup (childLevel many relation children.tableAlias).typeName =
        .ok child := hc
    rw [hm] at hlookup
    exact Except.ok.inj hlookup
  subst hmapping
  have hterms := filter_ordering env.caller relation mapping.filter _ _ children.tableAlias hmain
    hscope
  change TypeFilter.applyOption env.caller children.tableAlias children.query mapping.filter s₁ =
    (q₁, s₄) at hfilter
  rw [hfilter, hordering] at hterms
  refine ⟨resolved, relation, mapping, hr, hn, hc,
    pageQuery children relation q₁.takeLabelled.2 select, children.partition, f.labels, parentAlias,
    children.tableAlias, pageAlias, param, s₀, ?_, ?_⟩
  · rw [(finish_ok hs).1, ← render_text hrender]
    exact hsql
  · refine List.mem_append_right _ (List.mem_singleton.2 ?_)
    change _ = (⟨rowNumber children.partition (sortTerms relation children.tableAlias ++
      q₁.ordering), some rowNumberLabel⟩ : Sql.SelectItem)
    rw [hterms]
    rfl

/-! ### When the orders agree -/

section

variable {caller : Caller} {relation : Relation} {filter : Option TypeFilter}
  {parent child : String}

/-- Where the main table is not named, it does not matter which it is. -/
theorem terms_of_unnamed (hjoin : relation.join.namesMain = false)
    (hfilter : TypeFilter.namesMain filter = false) (main main' : String) :
    joinTerms caller relation main parent child s = joinTerms caller relation main' parent child s ∧
      filterTerms caller relation filter main parent child s =
        filterTerms caller relation filter main' parent child s := by
  have hjoined : Beside (relation.join.keepsOrdering caller) (({} : Query).fromTable "" main)
      (({} : Query).fromTable "" main') (joined caller relation main parent child s)
      (joined caller relation main' parent child s) :=
    Schema.join_beside relation.join fun h => absurd (hjoin.symm.trans h) Bool.false_ne_true
  constructor
  · obtain ⟨terms, hterms, hterms'⟩ := hjoined.added
    exact hterms.trans hterms'.symm
  · unfold filterTerms
    rw [hjoined.scope]
    have hfiltered : Beside (TypeFilter.keepsOrdering caller filter)
        { (joined caller relation main parent child s).1 with ordering := [] }
        { (joined caller relation main' parent child s).1 with ordering := [] }
        (TypeFilter.applyOption caller child _ filter
          (joined caller relation main' parent child s).2)
        (TypeFilter.applyOption caller child _ filter
          (joined caller relation main' parent child s).2) :=
      Schema.applyOption_beside filter fun h => absurd (hfilter.symm.trans h) Bool.false_ne_true
    obtain ⟨terms, hterms, hterms'⟩ := hfiltered.added
    exact hterms.trans hterms'.symm

theorem append_singleton_comm_iff {α : Type} {xs : List α} {x : α} :
    xs ++ [x] = x :: xs ↔ ∀ y ∈ xs, y = x := by
  induction xs with
  | nil => exact iff_of_true rfl fun _ h => nomatch h
  | cons y ys ih =>
    rw [List.cons_append, List.cons.injEq, List.forall_mem_cons]
    constructor
    · rintro ⟨rfl, h⟩
      exact ⟨rfl, ih.1 h⟩
    · rintro ⟨rfl, h⟩
      exact ⟨rfl, ih.2 h⟩

/-- Both orders have the same terms, unless the filter takes away those before it. -/
theorem inlineTerms_perm (hjoin : relation.join.namesMain = false)
    (hfilter : TypeFilter.namesMain filter = false)
    (hkeeps : TypeFilter.keepsOrdering caller filter = true) :
    (inlineTerms caller relation filter parent child s).Perm
      (windowTerms caller relation filter parent child s) := by
  obtain ⟨hjoinTerms, hfilterTerms⟩ : _ ∧ _ :=
    terms_of_unnamed hjoin hfilter child (windowMain relation parent child)
  unfold inlineTerms windowTerms
  rw [hkeeps, if_pos rfl, if_pos rfl, hjoinTerms, hfilterTerms, ← List.append_assoc]
  exact List.perm_append_comm.append_right _

/-- They are the same if nothing is declared to sort by, or if whatever the join orders by is that
and the filter keeps it. -/
theorem inlineTerms_eq_iff (hjoin : relation.join.namesMain = false)
    (hfilter : TypeFilter.namesMain filter = false) :
    inlineTerms caller relation filter parent child s =
        windowTerms caller relation filter parent child s ↔
      relation.sort = none ∨ TypeFilter.keepsOrdering caller filter = true ∧
        ∀ term ∈ joinTerms caller relation child parent child s,
          term ∈ sortTerms relation child := by
  obtain ⟨hjoinTerms, hfilterTerms⟩ : _ ∧ _ :=
    terms_of_unnamed hjoin hfilter child (windowMain relation parent child)
  unfold inlineTerms windowTerms
  rw [← hjoinTerms, ← hfilterTerms, ← List.append_assoc, List.append_left_inj]
  unfold sortTerms
  cases relation.sort with
  | none => simp
  | some sort =>
    cases TypeFilter.keepsOrdering caller filter with
    | false => simp
    | true => simp [append_singleton_comm_iff]

end

/-- How related objects are ordered.  A single one is picked by the terms of the join, the declared
sort and the terms of the filter, in this order; the objects of a list are numbered by the declared
sort, the terms of the join and the terms of the filter.  With the same names in a schema that does
not name main tables, these are the same terms if the filter takes none away, and the same order
exactly if nothing is declared to sort by, or the join orders by nothing else and the filter keeps
it. -/
theorem orders_of_related_objects (env : Environment) (relation : Relation)
    (filter : Option TypeFilter) :
    (∀ (level : Level) (position : Nat) (target : String) (s t : Scope) (o : Opened),
      openSingle env level position relation target s = .ok (o, t) →
        ∃ s₁, o.query.ordering = inlineTerms env.caller relation o.mapping.filter level.tableAlias
          o.level.tableAlias s₁) ∧
    (∀ (many : ManyPlan) (keys : List (List Json)) (compiled : Compiled),
      compileMany env many keys = .ok compiled →
        ∃ resolved relation child, env.registry.resolve many.parentType many.field = .ok resolved ∧
          resolved.relation? = some relation ∧ env.registry.lookup many.target = .ok child ∧
          ∃ (inner : Query) (partition labels : List String)
            (parentAlias tableAlias pageAlias param : String) (s₁ : Scope),
            compiled.statement.sql = pageText inner.text pageAlias param labels ∧
            ⟨rowNumber partition (windowTerms env.caller relation child.filter parentAlias
              tableAlias s₁), some rowNumberLabel⟩ ∈ inner.items) ∧
    (relation.join.namesMain = false → TypeFilter.namesMain filter = false →
      ∀ (parent child : String) (s : Scope),
        (TypeFilter.keepsOrdering env.caller filter = true →
          (inlineTerms env.caller relation filter parent child s).Perm
            (windowTerms env.caller relation filter parent child s)) ∧
        (inlineTerms env.caller relation filter parent child s =
            windowTerms env.caller relation filter parent child s ↔
          relation.sort = none ∨ TypeFilter.keepsOrdering env.caller filter = true ∧
            ∀ term ∈ joinTerms env.caller relation child parent child s,
              term ∈ sortTerms relation child)) :=
  ⟨fun _ _ _ _ _ _ => openSingle_ordering, fun _ _ _ => compileMany_ordering,
    fun hjoin hfilter _ _ _ => ⟨inlineTerms_perm hjoin hfilter, inlineTerms_eq_iff hjoin hfilter⟩⟩

/-! ### Albums with songs by rank -/

namespace Charts

/-- The songs of an album by their rank, sorted by title where that does not decide. -/
def songsOf (many : Bool) : Relation :=
  { target := "Song"
    many
    join := .script
      [.andWhere "\x7bchild\x7d.album = \x7bparent\x7d.id" [], .orderBy "\x7bchild\x7d.rank" .asc]
    sort := some ("title", .desc) }

def album : TypeMapping :=
  { fields := [("first", { source := .relation (songsOf false) }),
      ("songs", { source := .relation (songsOf true) })] }

def environment : Environment :=
  { registry := ⟨[("Album", album), ("Song", {})], none⟩, settings := {}, caller := {} }

def level : Level :=
  { typeName := "Album", tableAlias := "album_1", depth := 1, nested := false, extraRequired := [],
    origin := [] }

def songs : ManyPlan :=
  { field := "songs", parentType := "Album", target := "Song", selection := [.scalar "title"],
    keyLabels := [keyLabel "id"], depth := 2, paging := none, origin := [1] }

end Charts

/-- Of the first songs of an album the rank decides before the title, among all songs the title
does before the rank. -/
theorem orders_of_related_objects_songs :
    (∃ o t s₁, openSingle Charts.environment Charts.level 0 (Charts.songsOf false) "Song" {} =
        .ok (o, t) ∧
      o.query.ordering = inlineTerms Charts.environment.caller (Charts.songsOf false)
        o.mapping.filter "album_1" o.level.tableAlias s₁) ∧
    (∃ compiled relation child, ∃ inner : Query, ∃ partition parentAlias tableAlias s₁,
      compileMany Charts.environment Charts.songs [[Json.ofNat 1]] = .ok compiled ∧
      ⟨rowNumber partition (windowTerms Charts.environment.caller relation child parentAlias
        tableAlias s₁), some rowNumberLabel⟩ ∈ inner.items) ∧
    inlineTerms {} (Charts.songsOf false) none "album_1" "song_1" {} =
      ["song_1.rank ASC", "song_1.\"title\" DESC"] ∧
    windowTerms {} (Charts.songsOf true) none "album_1" "song_1" {} =
      ["song_1.\"title\" DESC", "song_1.rank ASC"] ∧
    ∀ many parent child s, (inlineTerms {} (Charts.songsOf many) none parent child s).Perm
      (windowTerms {} (Charts.songsOf many) none parent child s) := by
  have hunnamed : ∀ many, (Charts.songsOf many).join.namesMain = false := by decide
  refine ⟨?_, ?_, by decide +kernel, by decide +kernel, fun many parent child s => ?_⟩
  · have hok : (openSingle Charts.environment Charts.level 0 (Charts.songsOf false) "Song"
        {}).toOption.isSome = true := by decide +kernel
    obtain ⟨⟨o, t⟩, ho⟩ := Option.isSome_iff_exists.1 hok
    have hopen := Outcome.toOption_some.1 ho
    obtain ⟨s₁, hordering⟩ := (orders_of_related_objects _ _ none).1 _ _ _ _ _ _ hopen
    exact ⟨o, t, s₁, hopen, hordering⟩
  · have hok : (compileMany Charts.environment Charts.songs
        [[Json.ofNat 1]]).toOption.isSome = true := by decide +kernel
    obtain ⟨compiled, hc⟩ := Option.isSome_iff_exists.1 hok
    have hcompiled := Outcome.toOption_some.1 hc
    obtain ⟨_, relation, child, -, -, -, inner, partition, _, parentAlias, tableAlias, _, _, s₁, -,
      hitem⟩ := (orders_of_related_objects _ (Charts.songsOf true) none).2.1 _ _ _ hcompiled
    exact ⟨compiled, relation, child.filter, inner, partition, parentAlias, tableAlias, s₁,
      hcompiled, hitem⟩
  · exact ((orders_of_related_objects Charts.environment (Charts.songsOf many) none).2.2
      (hunnamed many) rfl parent child s).1 rfl

end Plan

end ObjectGraph
