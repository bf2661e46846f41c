import ObjectGraph.Proofs.Plan.Filters
import ObjectGraph.Proofs.Plan.Unwritten
import ObjectGraph.Proofs.Sql.Minting

/-! # Aliases stay in their SELECT

Where no SQL is written in the schema (`Registry.WithoutSql`), root statements and follow-ups are
well-scoped: every column is qualified with an alias that the SELECT around it introduces, or one
around that, and no other SELECT introduces this alias (`well_scoped`).

A level is compiled among the aliases that are visible around it.  Each step mints aliases in the
scope of the statement, and what it adds to the select list of the level introduces only these
(`entries_show`, by induction on the fields and what is nested in them).  All aliases of a statement
differ, so what fits is well-scoped (`Select.wellScoped`). -/

namespace ObjectGraph

namespace Schema

/-- No SQL is written in the registry: its types have no filters, and its fields are columns, tests
whether a row exists, relations on columns, or aliases of these. -/
structure Registry.WithoutSql (r : Registry) : Prop where
  filter : ∀ entry ∈ r.types, entry.2.filter = none
  fields : ∀ entry ∈ r.types, ∀ field ∈ entry.2.fields, field.2.Unwritten

section

variable {registry : Registry} {typeName field : String} {resolved : Resolved}

theorem Registry.WithoutSql.of_resolved (h : registry.WithoutSql)
    (hr : registry.resolve typeName field = .ok resolved) {m : FieldMapping}
    (hm : resolved.mapping = some m) : m.Unwritten := by
  obtain ⟨mapping, f, hl, hf⟩ := Registry.resolve_mem hr hm
  exact h.fields _ (Registry.mem_types hl) _ (Dictionary.mem_of_lookup hf)

theorem Registry.WithoutSql.onColumns (h : registry.WithoutSql)
    (hr : registry.resolve typeName field = .ok resolved) {relation : Relation}
    (hn : resolved.relation? = some relation) : relation.join.OnColumns := by
  obtain ⟨m, hm, hsource⟩ := Resolved.relation_ok hn
  have hunwritten := (h.of_resolved hr hm).2
  rw [hsource] at hunwritten
  exact hunwritten

end

end Schema

namespace Sql

/-- A query that selects nothing yet. -/
structure Query.Started (visible names : List String) (q : Query) : Prop where
  fits : q.Scoped visible []
  items : q.items = []
  aliases : q.aliases = names

section

variable {visible names minted : List String} {q q' : Query} {name stored : String} {s t : Scope}

theorem Query.Scoped.isAlias (h : q.Scoped visible minted) (hname : name ∈ q.aliases) :
    IsAlias name := by
  obtain ⟨table, main, hsource, hmain⟩ := h.source
  rcases List.mem_append.1 hname with hname | hname
  · rw [hsource] at hname
    rw [List.mem_singleton.1 hname]
    exact hmain
  · obtain ⟨join, hjoin, rfl⟩ := List.mem_map.1 hname
    obtain ⟨-, table, other, -, rfl, hother⟩ := h.joins join hjoin
    exact hother

/-- A column compared with a parameter. -/
theorem shows_equal (hname : IsName name) (hvisible : name ∈ visible) {param : String}
    (hparam : IsName param) :
    Shows visible [] [] (qualified name stored ++ " = " ++ (":" ++ param)) :=
  (shows_qualified hname hvisible stored).link " = " (by decide) (by decide) (by decide)
    (shows_param hparam)

/-- The placeholders of the values of a list. -/
theorem shows_bindPlaceholder {param : String} (hparam : ParamName param) (items : List Json)
    (s : Scope) : Shows visible [] [] (bindPlaceholder true param (.arr items) s).1 := by
  cases items with
  | nil =>
    change Shows visible [] [] "NULL"
    exact shows_bare (by decide)
  | cons item items =>
    have hnames : ∀ bound ∈ (bindElements param 0 (item :: items) s).1, ParamName bound :=
      fun bound hb => ((bindElements_gives hparam 0 (item :: items) s).2 bound hb).1
    have hall : ShowsAll visible []
        ((bindElements param 0 (item :: items) s).1.map (":" ++ ·)) := by
      refine showsAll_of_forall fun text ht => ?_
      obtain ⟨bound, hb, rfl⟩ := List.mem_map.1 ht
      exact shows_param (hnames bound hb).bindable.2
    exact hall.intercalate ", " (by decide) (by decide) (by decide)

namespace Query.Started

theorem column (h : q.Started visible names) (hname : name ∈ names) (stored : String) :
    Shows (visible ++ names) [] [] (qualified name stored) := by
  have hall : name ∈ q.aliases := by rwa [h.aliases]
  exact shows_qualified (h.fits.isAlias hall).1 (List.mem_append_right _ hname) stored

theorem isName (h : q.Started visible names) (hname : name ∈ names) : IsName name := by
  have hall : name ∈ q.aliases := by rwa [h.aliases]
  exact (h.fits.isAlias hall).1

theorem fromTable (table : String) (hname : IsAlias name) :
    (Query.fromTable {} table name).Started visible [name] where
  fits :=
    { source := ⟨table, name, rfl, hname⟩
      joins := fun _ h => absurd h List.not_mem_nil
      items := .nil
      conditions := fun _ h => absurd h List.not_mem_nil
      ordering := fun _ h => absurd h List.not_mem_nil }
  items := rfl
  aliases := rfl

theorem crossJoin (table table' : String) {name' : String} (hname : IsAlias name)
    (hname' : IsAlias name') :
    ((Query.fromTable {} table name).join .cross table' name' none).Started visible
      [name, name'] where
  fits :=
    { source := ⟨table, name, rfl, hname⟩
      joins := fun join h => by
        rw [List.mem_singleton.1 h]
        exact ⟨rfl, table', name', rfl, rfl, hname'⟩
      items := .nil
      conditions := fun _ h => absurd h List.not_mem_nil
      ordering := fun _ h => absurd h List.not_mem_nil }
  items := rfl
  aliases := rfl

theorem andWhere (h : q.Started visible names) {condition : String}
    (hc : Shows (visible ++ names) [] [] condition) :
    (q.andWhere condition).Started visible names where
  fits :=
    { h.fits with
      conditions := fun c hmem => by
        rcases List.mem_append.1 hmem with hmem | hmem
        · exact h.fits.conditions c hmem
        · rw [List.mem_singleton.1 hmem]
          rw [← h.aliases] at hc
          exact hc }
  items := h.items
  aliases := h.aliases

theorem orderBy (h : q.Started visible names) (hname : name ∈ names) (stored : String)
    (order : SortOrder) : (q.orderBy (qualified name stored) order).Started visible names where
  fits :=
    { h.fits with
      ordering := fun term hmem => by
        rcases List.mem_append.1 hmem with hmem | hmem
        · exact h.fits.ordering term hmem
        · have hcolumn := h.column hname stored
          rw [← h.aliases] at hcolumn
          have hkeyword : Shows (visible ++ q.aliases) [] [] order.keyword := by
            cases order <;> exact shows_bare (by decide)
          rw [List.mem_singleton.1 hmem]
          exact hcolumn.link " " (by decide) (by decide) (by decide) hkeyword }
  items := h.items
  aliases := h.aliases

theorem withLimit (h : q.Started visible names) (limit : Nat) :
    (q.withLimit limit).Started visible names :=
  ⟨{ h.fits with }, h.items, h.aliases⟩

theorem takeOrdering (h : q.Started visible names) : q.takeOrdering.2.Started visible names :=
  ⟨{ h.fits with ordering := fun _ hmem => absurd hmem List.not_mem_nil }, h.items, h.aliases⟩

theorem takeLabelled (h : q.Started visible names) : q.takeLabelled = ([], q) := by
  obtain ⟨items, source, joins, conditions, ordering, limit⟩ := q
  obtain rfl : items = [] := h.items
  rfl

/-- The query with its select list. -/
theorem selecting (h : q.Started visible names) {items : List SelectItem}
    (hitems : ShowsAll (visible ++ names) minted (items.map SelectItem.expression)) :
    { q with items }.Scoped visible minted ∧ { q with items }.aliases = names := by
  rw [← h.aliases] at hitems
  exact ⟨{ h.fits with items := hitems }, h.aliases⟩

/-- A condition on a column and a value. -/
theorem andWhereWith_equal (h : q.Started visible names) (hname : name ∈ names) {param : String}
    (hparam : ParamName param) {value : Json}
    (hb : q.andWhereWith (qualified name stored ++ " = :" ++ param) [(param, value)] s = (q', t)) :
    q'.Started visible names ∧ Mints s [] t := by
  have hresult : q.andWhereWith (qualified name stored ++ " = :" ++ param) [(param, value)] s =
      (q.andWhere (bindTemplate (qualified name stored ++ " = :" ++ param) [(param, value)] s).1,
        (bindTemplate (qualified name stored ++ " = :" ++ param) [(param, value)] s).2) := rfl
  rw [hresult, bindTemplate_equal (h.isName hname) hparam.bindable value] at hb
  cases hb
  refine ⟨h.andWhere ?_, mints_nothing (aliases_bind s _ _)⟩
  exact shows_equal (h.isName hname) (List.mem_append_right _ hname)
    (hparam.bind value s).bindable.2

/-- A condition on a column and a list of values. -/
theorem andWhereWith_in (h : q.Started visible names) (hname : name ∈ names) {items : List Json}
    (hb : q.andWhereWith (qualified name stored ++ " IN (:...parentKeys)")
      [("parentKeys", .arr items)] s = (q', t)) :
    q'.Started visible names ∧ Mints s [] t := by
  have hresult : q.andWhereWith (qualified name stored ++ " IN (:...parentKeys)")
      [("parentKeys", .arr items)] s =
      (q.andWhere (bindTemplate (qualified name stored ++ " IN (:...parentKeys)")
        [("parentKeys", .arr items)] s).1,
        (bindTemplate (qualified name stored ++ " IN (:...parentKeys)")
          [("parentKeys", .arr items)] s).2) := rfl
  rw [hresult, bindTemplate_in (h.isName hname) items] at hb
  cases hb
  refine ⟨h.andWhere ?_, mints_nothing (aliases_bindPlaceholder s _ _ _)⟩
  have hlist : Shows (visible ++ names) [] []
      (bindPlaceholder true "parentKeys" (.arr items) s).1 := shows_bindPlaceholder .parentKeys _ _
  have hcondition := (h.column hname stored).append (hlist.parenthesized.lead (s := " IN ")
    (by decide)) (Breaks.append (by decide) (by decide) _)
  have hopen : " IN (" = " IN " ++ "(" := rfl
  rw [hopen]
  simp only [parenthesized, String.append_assoc, List.append_nil] at hcondition ⊢
  exact hcondition

end Query.Started

end

end Sql

namespace Schema

open Sql

variable {visible : List String} {s t : Scope} {caller : Caller} {tableAlias text : String}

/-- The test whether a row exists is a SELECT of its own, on the row and the alias of the level. -/
theorem ExistsByUser.render_shows {test : ExistsByUser} (hextra : test.extra = none)
    (hname : IsName tableAlias) (hvisible : tableAlias ∈ visible)
    (h : test.render caller tableAlias s = (text, t)) :
    ∃ sub, Mints s [sub] t ∧ Shows visible [] [sub] text := by
  obtain ⟨sub, s₁, ha⟩ : ∃ sub s₁, freshAlias test.table s = (sub, s₁) := ⟨_, _, rfl⟩
  have hsub : IsAlias sub := isAlias_freshAlias ha
  obtain ⟨q, s₂, hq⟩ : ∃ q s₂, (Query.fromTable {} test.table sub).andWhereWith
      (qualified sub test.userColumn ++ " = :" ++ "userId") (userParams caller) s₁ = (q, s₂) :=
    ⟨_, _, rfl⟩
  have hrender : test.render caller tableAlias s = ("EXISTS " ++ ((q.andWhere
      (qualified sub test.parentColumn ++ " = " ++ qualified tableAlias test.parentKey)).select
        "1").embedded, s₂) := by
    have htemplate : qualified sub test.userColumn ++ " = :" ++ "userId" =
        qualified sub test.userColumn ++ " = :userId" := String.append_assoc
    rw [htemplate] at hq
    cases ha
    cases hq
    unfold ExistsByUser.render
    rw [hextra]
    rfl
  rw [hrender] at h
  cases h
  have hstart : (Query.fromTable {} test.table sub).Started visible [sub] := .fromTable _ hsub
  obtain ⟨hquery, hbound⟩ := hstart.andWhereWith_equal List.mem_cons_self .userId hq
  have hkeys : Shows (visible ++ [sub]) [] []
      (qualified sub test.parentColumn ++ " = " ++ qualified tableAlias test.parentKey) :=
    (hquery.column List.mem_cons_self _).link " = " (by decide) (by decide) (by decide)
      (shows_qualified hname (List.mem_append_left _ hvisible) _)
  have hone : ShowsAll (visible ++ [sub]) []
      ([{ expression := "1" }].map SelectItem.expression) := .cons (shows_bare (by decide)) .nil
  obtain ⟨hselect, haliases⟩ := (hquery.andWhere hkeys).selecting hone
  have hembedded := hselect.embedded
  rw [haliases] at hembedded
  refine ⟨sub, (mints_freshAlias ha).trans hbound, ?_⟩
  exact hembedded.lead (by decide)

end Schema

namespace Plan

open Sql (Query Scope Shows ShowsAll Mints IsName IsAlias qualified)
open Schema (Registry TypeMapping Relation Resolved)
open Compiling

/-! ### Levels -/

/-- What a select list introduces are aliases of some, in their order. -/
def SelectShows (visible minted : List String) (select : SelectList) : Prop :=
  ∃ used, used.Sublist minted ∧ ShowsAll visible used (select.map Prod.snd)

namespace SelectShows

variable {visible minted minted' : List String} {select : SelectList} {expression : String}

theorem add (h : SelectShows visible minted select) (label : String)
    (he : Shows visible [] minted' expression) :
    SelectShows visible (minted ++ minted') (select.add label expression) := by
  obtain ⟨used, hused, hall⟩ := h
  unfold SelectList.add
  split
  · exact ⟨used, hused.trans (List.sublist_append_left _ _), hall⟩
  · refine ⟨used ++ (minted' ++ []), ?_, ?_⟩
    · rw [List.append_nil]
      exact hused.append (List.Sublist.refl _)
    · rw [List.map_append]
      exact hall.append (.cons he .nil)

/-- Columns are added, which introduce nothing. -/
theorem addAll (h : SelectShows visible minted select) {items : List (String × String)}
    (hitems : ∀ item ∈ items, Shows visible [] [] item.2) :
    SelectShows visible minted (select.addAll items) := by
  induction items generalizing select with
  | nil => exact h
  | cons item items ih =>
    have hfirst := h.add item.1 (hitems item List.mem_cons_self)
    rw [List.append_nil] at hfirst
    exact ih hfirst fun other ho => hitems other (List.mem_cons_of_mem _ ho)

end SelectShows

/-- A level whose query introduces its alias, among aliases that are visible around it. -/
structure Opened.Fits (visible names : List String) (o : Opened) : Prop where
  query : o.query.Started visible names
  tableAlias : o.level.tableAlias ∈ names

/-- What is compiled of a level so far; filters have added nothing. -/
structure Progress.Fits (visible minted : List String) (p : Progress) : Prop where
  select : SelectShows visible minted p.select
  extras : p.extras = []

section

variable {env : Environment} {visible names minted : List String} {s t : Scope} {o : Opened}
  {p p' : Progress}

theorem openLevel_fits (hsql : env.registry.WithoutSql) {level : Level} {q : Query}
    (hq : q.Started visible names) (ha : level.tableAlias ∈ names)
    (h : openLevel env level none q s = .ok (o, t)) :
    t = s ∧ o.level = level ∧ o.Fits visible names ∧
      o.progress.Fits (visible ++ names) [] := by
  obtain ⟨-, mapping, q₁, s₁, q₂, hl, h₁, h₂, rfl⟩ := openLevel_ok h
  rw [hsql.filter _ (Schema.Registry.mem_types hl)] at h₁
  cases h₁
  cases h₂
  rw [hq.takeLabelled]
  exact ⟨rfl, rfl, ⟨hq, ha⟩, ⟨[], List.Sublist.refl _, .nil⟩, rfl⟩

theorem Opened.Fits.column (h : o.Fits visible names) (stored : String) :
    Shows (visible ++ names) [] [] (qualified o.level.tableAlias stored) :=
  h.query.column h.tableAlias stored

/-- A value is a column, or the test whether a row exists. -/
theorem valueExpression_shows (hsql : env.registry.WithoutSql) (ho : o.Fits visible names)
    {name expression : String} {resolved : Resolved} {extras : List (String × String)}
    (hr : env.registry.resolve o.level.typeName name = .ok resolved)
    (h : valueExpression env o.level name resolved [] s = .ok ((expression, extras), t)) :
    extras = [] ∧ ∃ new, Mints s new t ∧ Shows (visible ++ names) [] new expression := by
  have hcolumn : ∀ {stored : String},
      (pure (qualified o.level.tableAlias stored, []) : Compiling _) s =
          .ok ((expression, extras), t) →
        extras = [] ∧ ∃ new, Mints s new t ∧ Shows (visible ++ names) [] new expression := by
    intro stored hpure
    cases hpure
    exact ⟨rfl, [], Sql.mints_nothing rfl, ho.column stored⟩
  unfold valueExpression at h
  cases hm : resolved.mapping with
  | none =>
    rw [hm] at h
    exact hcolumn h
  | some m =>
    obtain ⟨hraw, hsource⟩ := hsql.of_resolved hr hm
    rw [hm, Option.map_some, hraw] at h
    cases hs : m.source with
    | column stored =>
      rw [hs] at h
      cases stored with
      | none => exact hcolumn h
      | some stored => exact hcolumn h
    | computed computed =>
      rw [hs] at h hsource
      cases computed with
      | script steps wrap => cases hsource
      | existsByUser test =>
        obtain ⟨text, u, hrender, hpure⟩ := bind_ok.1 h
        obtain ⟨heq, rfl⟩ := pure_ok.1 hpure
        cases heq
        obtain ⟨sub, hmints, hshows⟩ := test.render_shows hsource (ho.query.isName ho.tableAlias)
          (List.mem_append_right _ ho.tableAlias) (ofBuilding_ok.1 hrender)
        exact ⟨rfl, [sub], hmints, hshows⟩
    | relation relation =>
      rw [hs] at h
      exact (throw_ok.1 h).elim
    | aliasOf field view =>
      rw [hs] at h
      exact (throw_ok.1 h).elim

theorem valueEntry_fits (hsql : env.registry.WithoutSql) (ho : o.Fits visible names)
    (hp : p.Fits (visible ++ names) minted) {name : String}
    (h : valueEntry env o.level p name s = .ok (p', t)) :
    ∃ new, Mints s new t ∧ p'.Fits (visible ++ names) (minted ++ new) := by
  obtain ⟨resolved, expression, extras, hr, -, hv, rfl⟩ := valueEntry_ok h
  rw [hp.extras] at hv
  obtain ⟨hextras, new, hmints, hshows⟩ := valueExpression_shows hsql ho hr hv
  exact ⟨new, hmints, hp.select.add name hshows, hextras⟩

/-- A list adds the key columns of its parent. -/
theorem manyEntry_fits (ho : o.Fits visible names) (hp : p.Fits (visible ++ names) minted)
    (position : Nat) (name : String) (resolved : Resolved) (relation : Relation)
    (selection : List Selection) :
    (manyEntry o p position name resolved relation selection).Fits (visible ++ names) minted := by
  refine ⟨hp.select.addAll fun item hi => ?_, hp.extras⟩
  obtain ⟨column, -, rfl⟩ := List.mem_map.1 hi
  exact ho.column column

/-- A join on columns adds a condition on both aliases. -/
theorem join_started {caller : Caller} {relation : Relation}
    (hcolumns : relation.join.OnColumns) {parentAlias childAlias : String} {q q' : Query}
    (hp : IsName parentAlias) (hvisible : parentAlias ∈ visible ++ names)
    (hc : childAlias ∈ names) (hq : q.Started visible names)
    (h : relation.join.apply caller parentAlias childAlias q s = (q', t)) :
    q'.Started visible names ∧ t = s := by
  have hequal : ∀ parent child, Shows (visible ++ names) [] []
      (Schema.columnsEqual parentAlias parent childAlias child) := fun parent child =>
    (hq.column hc child).link " = " (by decide) (by decide) (by decide)
      (Sql.shows_qualified hp hvisible parent)
  cases hjoin : relation.join with
  | columns parent child =>
    rw [hjoin] at h
    cases h
    exact ⟨hq.andWhere (hequal parent child), rfl⟩
  | limitedColumns parent child limit =>
    rw [hjoin] at h
    cases h
    exact ⟨(hq.andWhere (hequal parent child)).withLimit limit, rfl⟩
  | condition text limit | script steps =>
    rw [hjoin] at hcolumns
    cases hcolumns

/-- The level of a single related object introduces an alias of its own. -/
theorem openSingle_fits (hsql : env.registry.WithoutSql) (ho : o.Fits visible names)
    {relation : Relation} (hcolumns : relation.join.OnColumns) {position : Nat} {target : String}
    {child : Opened} (h : openSingle env o.level position relation target s = .ok (child, t)) :
    ∃ name, Mints s [name] t ∧ child.Fits (visible ++ names) [name] ∧
      child.progress.Fits (visible ++ names ++ [name]) [] := by
  obtain ⟨mapping, name, s₁, q, s₂, hl, ha, hj, hopen⟩ := openSingle_ok h
  have hname : IsAlias name := Sql.isAlias_freshAlias ha
  have hstart : (Query.fromTable {} (mapping.tableName target) name).Started (visible ++ names)
      [name] := .fromTable _ hname
  obtain ⟨hq, rfl⟩ := join_started hcolumns (ho.query.isName ho.tableAlias)
    (List.mem_append_left _ (List.mem_append_right _ ho.tableAlias)) List.mem_cons_self hstart hj
  have hsorted : Query.Started (visible ++ names) [name] (sorted relation name q) := by
    unfold sorted
    cases relation.sort with
    | none => exact hq
    | some sort => exact hq.orderBy List.mem_cons_self sort.1 sort.2
  obtain ⟨rfl, -, hchild, hprogress⟩ := openLevel_fits hsql hsorted List.mem_cons_self hopen
  exact ⟨name, Sql.mints_freshAlias ha, hchild, hprogress⟩

/-- Required columns are added at the end. -/
theorem closeLevel_shows (ho : o.Fits visible names) (hp : p.Fits (visible ++ names) minted) :
    SelectShows (visible ++ names) minted (closeLevel o p).1 := by
  unfold closeLevel
  simp only [hp.extras]
  refine hp.select.addAll fun item hi => ?_
  obtain ⟨column, -, rfl⟩ := List.mem_map.1 hi
  exact ho.column column

/-- A single related object is a SELECT in the select list. -/
theorem closeSingle_fits {child : Opened} {q : Progress} {name childName : String}
    {new : List String} {resolved : Resolved} (hp : p.Fits visible minted)
    (hchild : child.Fits visible [childName])
    (hq : q.Fits (visible ++ [childName]) new) (level : Level) :
    (closeSingle env level p name resolved child q).Fits visible
      (minted ++ ([childName] ++ new)) := by
  obtain ⟨used, hused, hall⟩ := closeLevel_shows hchild hq
  have hobject := (Sql.shows_jsonObject env.settings.dialect hall).mono (List.Subset.refl _) hused
  have hitems : ShowsAll (visible ++ [childName]) (new ++ [])
      ([{ expression := env.settings.dialect.jsonObject (closeLevel child q).1 }].map
        Sql.SelectItem.expression) := .cons hobject .nil
  rw [List.append_nil] at hitems
  obtain ⟨hselect, haliases⟩ := (hchild.query.withLimit 1).selecting hitems
  have hembedded := hselect.embedded
  rw [haliases] at hembedded
  refine ⟨hp.select.add name ?_, hp.extras⟩
  split
  · exact Sql.shows_embedJson _ hembedded
  · exact hembedded

mutual

/-- What a field adds introduces what is minted on the way. -/
theorem entry_fits (hsql : env.registry.WithoutSql) {visible names minted : List String}
    {s t : Scope} {o : Opened} {p p' : Progress} {position : Nat} (ho : o.Fits visible names)
    (hp : p.Fits (visible ++ names) minted) :
    (field : Selection) → entry env o p position field s = .ok (p', t) →
      ∃ new, Mints s new t ∧ p'.Fits (visible ++ names) (minted ++ new)
  | .scalar name, h => by
    rw [entry] at h
    exact valueEntry_fits hsql ho hp h
  | .nested name selection, h => by
    obtain ⟨resolved, relation, hr, hn, hcases⟩ := entry_nested_ok h
    rcases hcases with ⟨-, rfl, rfl⟩ | ⟨-, child, s₁, q, hopen, hentries, rfl⟩
    · refine ⟨[], Sql.mints_nothing rfl, ?_⟩
      rw [List.append_nil]
      exact manyEntry_fits ho hp position name resolved relation selection
    · obtain ⟨childName, hminted, hchild, hstart⟩ :=
        openSingle_fits hsql ho (hsql.onColumns hr hn) hopen
      obtain ⟨new, hmints, hq⟩ := entries_fits hsql hchild hstart selection hentries
      exact ⟨[childName] ++ new, hminted.trans hmints, closeSingle_fits hp hchild hq o.level⟩

/-- What fields add introduces what is minted on the way. -/
theorem entries_fits (hsql : env.registry.WithoutSql) {visible names minted : List String}
    {s t : Scope} {o : Opened} {p p' : Progress} {position : Nat} (ho : o.Fits visible names)
    (hp : p.Fits (visible ++ names) minted) :
    (fields : List Selection) → entries env o p position fields s = .ok (p', t) →
      ∃ new, Mints s new t ∧ p'.Fits (visible ++ names) (minted ++ new)
  | [], h => by
    obtain ⟨rfl, rfl⟩ := entries_nil_ok h
    refine ⟨[], Sql.mints_nothing rfl, ?_⟩
    rwa [List.append_nil]
  | field :: fields, h => by
    obtain ⟨q, u, hfirst, hrest⟩ := entries_cons_ok h
    obtain ⟨new, hmints, hq⟩ := entry_fits hsql ho hp field hfirst
    obtain ⟨more, hmore, hp'⟩ := entries_fits hsql ho hq fields hrest
    refine ⟨new ++ more, hmints.trans hmore, ?_⟩
    rwa [← List.append_assoc]

end

/-- A level with its select list, before its query is completed. -/
theorem compileLevel_fits (hsql : env.registry.WithoutSql) {level : Level} {q q' : Query}
    {fields : List Selection} {select : SelectList} {plan : NodePlan}
    (hq : q.Started visible names) (ha : level.tableAlias ∈ names)
    (h : compileLevel env level none q fields s = .ok ((q', select, plan), t)) :
    ∃ new, Mints s new t ∧ q'.Started visible names ∧
      SelectShows (visible ++ names) new select := by
  obtain ⟨opened, s₁, p, hopen, hentries, rfl, hclose⟩ := compileLevel_ok h
  obtain ⟨rfl, -, ho, hstart⟩ := openLevel_fits hsql hq ha hopen
  obtain ⟨new, hmints, hp⟩ := entries_fits hsql ho hstart fields hentries
  have hselect := closeLevel_shows ho hp
  rw [← hclose, List.nil_append] at hselect
  exact ⟨new, hmints, ho.query, hselect⟩

/-! ### Statements -/

theorem addSelects_eq (q : Query) (select : SelectList) :
    addSelects q select =
      { q with items := q.items ++ select.map fun item => ⟨item.2, some item.1⟩ } := by
  unfold addSelects
  induction select generalizing q with
  | nil => rw [List.map_nil, List.append_nil]; rfl
  | cons item select ih =>
    rw [List.foldl_cons, ih, List.map_cons, ← List.singleton_append, ← List.append_assoc]
    rfl

theorem SelectShows.append {select items : SelectList} (h : SelectShows visible minted select)
    (hitems : ∀ item ∈ items, Shows visible [] [] item.2) :
    SelectShows visible minted (select ++ items) := by
  obtain ⟨used, hused, hall⟩ := h
  have hmore : ShowsAll visible [] (items.map Prod.snd) := by
    refine Sql.showsAll_of_forall fun text ht => ?_
    obtain ⟨item, hi, rfl⟩ := List.mem_map.1 ht
    exact hitems item hi
  refine ⟨used, hused, ?_⟩
  rw [List.map_append]
  simpa only [List.append_nil] using hall.append hmore

/-- A query with its select list is a SELECT that fits. -/
theorem showsSelect_addSelects {q : Query} {select : SelectList} (hq : q.Started visible names)
    (hselect : SelectShows (visible ++ names) minted select) :
    Sql.ShowsSelect visible (names ++ minted) (addSelects q select).text := by
  obtain ⟨used, hused, hall⟩ := hselect
  have hitems : ShowsAll (visible ++ names) used
      ((select.map fun item : String × String => (⟨item.2, some item.1⟩ : Sql.SelectItem)).map
        Sql.SelectItem.expression) := by
    rw [List.map_map]
    exact hall
  obtain ⟨hscoped, haliases⟩ := hq.selecting hitems
  rw [addSelects_eq, hq.items, List.nil_append]
  obtain ⟨pieces, hread, hpieces, select, heq, hfits, hsub⟩ := hscoped.select
  rw [haliases] at hsub
  exact ⟨pieces, hread, hpieces, select, heq, hfits,
    hsub.trans ((List.Sublist.refl names).append hused)⟩

/-- A text is one SELECT with the SELECTs in it, and it is well-scoped. -/
def WellScoped (sql : String) : Prop :=
  ∃ select, Sql.selectOf? sql = some select ∧ select.WellScoped

/-- A SELECT that fits and introduces aliases of its scope is well-scoped. -/
theorem wellScoped_of_mints {sql : String} (h : Sql.ShowsSelect [] minted sql)
    (hnodup : minted.Nodup) : WellScoped sql := by
  obtain ⟨select, hselect, hfits, hsub⟩ := h.selectOf
  exact ⟨select, hselect, Sql.Select.wellScoped hfits (hnodup.sublist hsub)⟩

/-! ### Root statements -/

theorem addRequestFilter_started {tableAlias : String} {q q' : Query}
    (hq : q.Started visible names) (ha : tableAlias ∈ names) {filter : Object}
    (h : addRequestFilter tableAlias q filter s = .ok (q', t)) :
    q'.Started visible names ∧ Mints s [] t := by
  induction filter generalizing q s with
  | nil =>
    obtain ⟨rfl, rfl⟩ := pure_ok.1 h
    exact ⟨hq, Sql.mints_nothing rfl⟩
  | cons item filter ih =>
    obtain ⟨column, value⟩ := item
    rw [addRequestFilter] at h
    obtain ⟨q₁, s₁, hwhere, hrest⟩ := bind_ok.1 h
    obtain ⟨hq₁, hbound⟩ := hq.andWhereWith_equal ha (.filter column) (ofBuilding_ok.1 hwhere)
    obtain ⟨hq', hmore⟩ := ih hq₁ hrest
    exact ⟨hq', hbound.trans hmore⟩

theorem compileRoot_wellScoped (hsql : env.registry.WithoutSql) {request : Request}
    {compiled : Compiled} (h : compileRoot env request none = .ok compiled) :
    WellScoped compiled.statement.sql := by
  obtain ⟨-, sql, plan, scope, hr, hf, -⟩ := compileRoot_ok h
  obtain ⟨hstatement, -⟩ := finish_ok hf
  obtain ⟨mapping, tableAlias, s₁, q, select, s₂, q', -, ha, hl, hfilter, hs⟩ := rootLevel_ok hr
  have hname : IsAlias tableAlias := Sql.isAlias_freshAlias ha
  have hstart : (Query.fromTable {} (mapping.tableName request.typeName) tableAlias).Started []
      [tableAlias] := .fromTable _ hname
  obtain ⟨new, hmints, hq, hselect⟩ := compileLevel_fits hsql hstart List.mem_cons_self hl
  obtain ⟨hq', hbound⟩ := addRequestFilter_started hq List.mem_cons_self hfilter
  have hroot : Sql.ShowsSelect [] ([tableAlias] ++ new)
      (rootQuery request tableAlias q' select).text := by
    refine showsSelect_addSelects ?_ hselect
    cases request.orderBy with
    | none =>
      cases request.limit with
      | none => exact hq'
      | some limit => exact hq'.withLimit limit
    | some sort =>
      have hsorted := hq'.orderBy List.mem_cons_self sort.1 sort.2
      cases request.limit with
      | none => exact hsorted
      | some limit => exact hsorted.withLimit limit
  have hall := (Sql.mints_freshAlias ha).trans (hmints.trans hbound)
  rw [List.append_nil] at hall
  rw [hstatement, Scope.statement, render_text hs]
  exact wellScoped_of_mints hroot hall.nodup

/-! ### Follow-ups -/

theorem keyCondition_shows {tableAlias : String} (hname : IsName tableAlias)
    (hvisible : tableAlias ∈ visible) (index component : Nat) (pairs : List (String × Json))
    (s : Scope) :
    (∀ term ∈ (keyCondition tableAlias index component pairs s).1, Shows visible [] [] term) ∧
      Mints s [] (keyCondition tableAlias index component pairs s).2 := by
  induction pairs generalizing component s with
  | nil => exact ⟨fun _ ht => absurd ht List.not_mem_nil, Sql.mints_nothing rfl⟩
  | cons pair pairs ih =>
    obtain ⟨column, value⟩ := pair
    have hbound : Mints s [] (Sql.bind
        ("parentKey_" ++ toString index ++ "_" ++ toString component) value s).2 :=
      Sql.mints_nothing (Sql.aliases_bind s _ _)
    obtain ⟨hterms, hmore⟩ := ih (component + 1) (Sql.bind
      ("parentKey_" ++ toString index ++ "_" ++ toString component) value s).2
    refine ⟨fun term ht => ?_, hbound.trans hmore⟩
    rcases List.mem_cons.1 ht with rfl | ht
    · have hparam := (Sql.ParamName.parentKey index component).bind value s
      rw [← Sql.colon_append " = " " = :" rfl]
      exact Sql.shows_equal hname hvisible hparam.bindable.2
    · exact hterms term ht

theorem keyConditions_shows {tableAlias : String} (hname : IsName tableAlias)
    (hvisible : tableAlias ∈ visible) (columns : List String) (index : Nat)
    (keys : List (List Json)) (s : Scope) :
    (∀ condition ∈ (keyConditions tableAlias columns index keys s).1,
        Shows visible [] [] condition) ∧
      Mints s [] (keyConditions tableAlias columns index keys s).2 := by
  induction keys generalizing index s with
  | nil => exact ⟨fun _ ht => absurd ht List.not_mem_nil, Sql.mints_nothing rfl⟩
  | cons key keys ih =>
    obtain ⟨hterms, hfirst⟩ := keyCondition_shows hname hvisible index 0 (columns.zip key) s
    obtain ⟨hconditions, hmore⟩ := ih (index + 1)
      (keyCondition tableAlias index 0 (columns.zip key) s).2
    refine ⟨fun condition hc => ?_, hfirst.trans hmore⟩
    rcases List.mem_cons.1 hc with rfl | hc
    · exact (Sql.showsAll_of_forall hterms).intercalate " AND " (by decide) (by decide) (by decide)
    · exact hconditions condition hc

/-- The parents are told by their key columns. -/
theorem restrictParents_started {tableAlias : String} {columns : List String}
    {keys : List (List Json)} {q q' : Query} (hq : q.Started visible names)
    (ha : tableAlias ∈ names) (h : restrictParents q tableAlias columns keys s = (q', t)) :
    q'.Started visible names ∧ Mints s [] t := by
  unfold restrictParents at h
  split at h
  · exact hq.andWhereWith_in ha h
  · obtain ⟨hconditions, hmints⟩ :=
      keyConditions_shows (hq.isName ha) (List.mem_append_right visible ha) columns 0 keys s
    cases h
    refine ⟨hq.andWhere ?_, hmints⟩
    split
    · exact Sql.shows_bare (by decide)
    · refine (Sql.showsAll_of_forall fun text ht => ?_).intercalate " OR " (by decide) (by decide)
        (by decide)
      obtain ⟨condition, hc, rfl⟩ := List.mem_map.1 ht
      exact (hconditions condition hc).parenthesized

theorem building_bind {α β : Type} (x : Sql.Building α) (f : α → Sql.Building β) (s : Scope) :
    (x >>= f) s = f (x s).1 (x s).2 := rfl

/-- The query of the children introduces their alias, and that of the parents if it needs them. -/
theorem childQuery_started {parentType target : String} {parent child : TypeMapping}
    {relation : Relation} (hcolumns : relation.join.OnColumns) {keys : List (List Json)}
    {children : ChildQuery} (visible : List String)
    (h : childQuery env parentType target parent child relation keys s = (children, t)) :
    ∃ names, Mints s names t ∧ children.query.Started visible names ∧
      children.tableAlias ∈ names ∧
      ∀ expression ∈ children.partition, Shows (visible ++ names) [] [] expression := by
  unfold childQuery at h
  cases hjoin : relation.join.columns? with
  | some columns =>
    obtain ⟨parentColumn, column⟩ := columns
    obtain ⟨name, s₁, ha⟩ : ∃ name s₁, Sql.freshAlias target s = (name, s₁) := ⟨_, _, rfl⟩
    have hname : IsAlias name := Sql.isAlias_freshAlias ha
    obtain ⟨q, s₂, hwhere⟩ : ∃ q s₂,
        (Query.fromTable {} (child.tableName target) name).andWhereWith
          (qualified name column ++ " IN (:...parentKeys)")
          [("parentKeys", .arr (firstComponents keys))] s₁ = (q, s₂) := ⟨_, _, rfl⟩
    rw [hjoin] at h
    simp only [building_bind, ha, hwhere] at h
    cases h
    have hstart : (Query.fromTable {} (child.tableName target) name).Started visible [name] :=
      .fromTable _ hname
    obtain ⟨hq, hbound⟩ := hstart.andWhereWith_in List.mem_cons_self hwhere
    refine ⟨[name], (Sql.mints_freshAlias ha).trans hbound, hq, List.mem_cons_self, ?_⟩
    intro expression he
    rw [List.mem_singleton.1 he]
    exact hq.column List.mem_cons_self column
  | none =>
    obtain ⟨parentName, s₁, hp⟩ : ∃ name s₁, Sql.freshAlias parentType s = (name, s₁) :=
      ⟨_, _, rfl⟩
    obtain ⟨name, s₂, ha⟩ : ∃ name s₂, Sql.freshAlias target s₁ = (name, s₂) := ⟨_, _, rfl⟩
    have hparent : IsAlias parentName := Sql.isAlias_freshAlias hp
    have hname : IsAlias name := Sql.isAlias_freshAlias ha
    obtain ⟨q, s₃, hrestrict⟩ : ∃ q s₃, restrictParents
        ((Query.fromTable {} (parent.tableName parentType) parentName).join .cross
          (child.tableName target) name none) parentName parent.key keys s₂ = (q, s₃) :=
      ⟨_, _, rfl⟩
    obtain ⟨q', s₄, happly⟩ : ∃ q' s₄,
        relation.join.apply env.caller parentName name q s₃ = (q', s₄) := ⟨_, _, rfl⟩
    rw [hjoin] at h
    simp only [building_bind, hp, ha, hrestrict, happly] at h
    cases h
    have hstart : ((Query.fromTable {} (parent.tableName parentType) parentName).join .cross
        (child.tableName target) name none).Started visible [parentName, name] :=
      .crossJoin _ _ hparent hname
    have hchild : name ∈ [parentName, name] := List.mem_cons_of_mem _ List.mem_cons_self
    obtain ⟨hq, hbound⟩ := restrictParents_started hstart List.mem_cons_self hrestrict
    obtain ⟨hq', rfl⟩ := join_started hcolumns hparent.1
      (List.mem_append_right visible List.mem_cons_self) hchild hq happly
    refine ⟨[parentName, name], ?_, hq', hchild, ?_⟩
    · exact (Sql.mints_freshAlias hp).trans ((Sql.mints_freshAlias ha).trans hbound)
    · intro expression he
      obtain ⟨column, -, rfl⟩ := List.mem_map.1 he
      exact hq'.column List.mem_cons_self column

theorem rowNumber_shows {partition ordering : List String}
    (hpartition : ∀ expression ∈ partition, Shows visible [] [] expression)
    (hordering : ∀ term ∈ ordering, Shows visible [] [] term) :
    Shows visible [] [] (rowNumber partition ordering) := by
  have hlist := (Sql.showsAll_of_forall hpartition).intercalate ", " (by decide) (by decide)
    (by decide)
  obtain ⟨hterms, hbreaks⟩ := Sql.shows_orderingText hordering
  have hwindow := ((hlist.append hterms hbreaks).lead (s := "PARTITION BY ")
    (by decide)).parenthesized.lead (s := "ROW_NUMBER() OVER ") (by decide)
  have hopen : "ROW_NUMBER() OVER (PARTITION BY " = "ROW_NUMBER() OVER " ++ ("(" ++ "PARTITION BY ") :=
    rfl
  unfold rowNumber
  rw [hopen]
  simp only [Sql.parenthesized, String.append_assoc, List.append_nil] at hwindow ⊢
  exact hwindow

/-- The select list of a follow-up: that of the level, the columns that tell the parent, and the
number of the row. -/
theorem pageQuery_eq (children : ChildQuery) (relation : Relation) (q : Query)
    (select : SelectList) : ∃ ordering, pageQuery children relation q select =
      addSelects q.takeOrdering.2 (select ++
        (((List.range children.partition.length).map partitionLabel).zip children.partition ++
          [(rowNumberLabel, rowNumber children.partition (ordering ++ q.ordering))])) ∧
      ∀ term ∈ ordering, ∃ column order, term =
        qualified children.tableAlias column ++ " " ++ Sql.SortOrder.keyword order := by
  refine ⟨relation.sort.toList.map fun sort =>
    qualified children.tableAlias sort.1 ++ " " ++ sort.2.keyword, ?_, fun term ht => ?_⟩
  · unfold pageQuery addSelects
    rw [List.foldl_append, List.foldl_append]
    rfl
  · obtain ⟨sort, -, rfl⟩ := List.mem_map.1 ht
    exact ⟨sort.1, sort.2, rfl⟩

/-- The inner query of a follow-up is written on the aliases of the children and of their level. -/
theorem pageQuery_shows {children : ChildQuery} (relation : Relation) {q : Query}
    {select : SelectList} (hq : q.Started visible names) (ha : children.tableAlias ∈ names)
    (hpartition : ∀ expression ∈ children.partition, Shows (visible ++ names) [] [] expression)
    (hselect : SelectShows (visible ++ names) minted select) :
    Sql.ShowsSelect visible (names ++ minted) (pageQuery children relation q select).text := by
  obtain ⟨ordering, hpageQuery, hordering⟩ := pageQuery_eq children relation q select
  have hterms : ∀ term ∈ ordering ++ q.ordering, Shows (visible ++ names) [] [] term := by
    intro term ht
    rcases List.mem_append.1 ht with ht | ht
    · obtain ⟨column, order, rfl⟩ := hordering term ht
      have hkeyword : Shows (visible ++ names) [] [] order.keyword := by
        cases order <;> exact Sql.shows_bare (by decide)
      exact (hq.column ha column).link " " (by decide) (by decide) (by decide) hkeyword
    · have hterm := hq.fits.ordering term ht
      rwa [hq.aliases] at hterm
  have hcolumns : ∀ item ∈ ((List.range children.partition.length).map partitionLabel).zip
      children.partition ++
        [(rowNumberLabel, rowNumber children.partition (ordering ++ q.ordering))],
      Shows (visible ++ names) [] [] item.2 := by
    intro item hitem
    rcases List.mem_append.1 hitem with hitem | hitem
    · exact hpartition _ (List.of_mem_zip hitem).2
    · rw [List.mem_singleton.1 hitem]
      exact rowNumber_shows hpartition hterms
  rw [hpageQuery]
  exact showsSelect_addSelects hq.takeOrdering (hselect.append hcolumns)

/-- The statement around the inner query introduces one more alias. -/
theorem pageText_shows {inner pageAlias param : String} {labels : List String}
    (hinner : Sql.ShowsSelect [] minted inner) (ha : IsAlias pageAlias) (hparam : IsName param) :
    Sql.ShowsSelect [] ([pageAlias] ++ minted) (pageText inner pageAlias param labels) := by
  have hvisible : pageAlias ∈ [pageAlias] := List.mem_cons_self
  have hcolumn : ∀ label, Shows [pageAlias] [] [] (qualified pageAlias label) :=
    fun label => Sql.shows_qualified ha.1 hvisible label
  obtain ⟨pieces, hread, hpieces⟩ := hinner.parenthesized
  have hgap : Sql.Closes " AS " [.blank, .word ['A', 'S'], .blank] := rfl
  have htable : Shows [pageAlias] [pageAlias] minted
      (" FROM " ++ Sql.parenthesized inner ++ (" AS " ++ pageAlias)) :=
    Sql.shows_table rfl Sql.awaits_from hread
      (hpieces.mono (List.nil_subset _) (List.Sublist.refl _)) (fun _ => rfl) hgap
      (Sql.Breaks.append (by decide) (by decide) _) (List.all_eq_true.1 rfl) (fun _ => rfl) ha
  have hstar : Shows [pageAlias] [] [] "*" := Sql.shows_bare (by decide)
  have hnumber := (hcolumn rowNumberLabel).link " <= " (by decide) (by decide) (by decide)
    (Sql.shows_param hparam)
  have horder : Shows [pageAlias] [] [] (String.intercalate ", "
      ((labels ++ [rowNumberLabel]).map (qualified pageAlias))) := by
    refine (Sql.showsAll_of_forall fun text ht => ?_).intercalate ", " (by decide) (by decide)
      (by decide)
    obtain ⟨label, -, rfl⟩ := List.mem_map.1 ht
    exact hcolumn label
  have hfrom := hstar.append htable (by
    rw [String.append_assoc]
    exact Sql.Breaks.append (by decide) (by decide) _)
  have hrows := (hfrom.link " WHERE " (by decide) (by decide) (by decide) hnumber).link
    " ORDER BY " (by decide) (by decide) (by decide) horder
  rw [Sql.colon_append " <= " " <= :" rfl] at hrows
  simp only [List.append_nil, List.nil_append] at hrows
  rw [← List.nil_append [pageAlias]] at hrows
  have hselect := hrows.select
  have hopen : "SELECT * FROM (" = "SELECT " ++ ("*" ++ (" FROM " ++ "(")) := rfl
  have hclose : ") AS " = ")" ++ " AS " := rfl
  change Sql.ShowsSelect [] _ ("SELECT * FROM (" ++ inner ++ ") AS " ++ pageAlias ++ " WHERE " ++
    qualified pageAlias rowNumberLabel ++ " <= :" ++ param ++ " ORDER BY " ++
    String.intercalate ", " ((labels ++ [rowNumberLabel]).map (qualified pageAlias)))
  rw [hopen, hclose]
  simp only [Sql.parenthesized, String.append_assoc] at hselect ⊢
  exact hselect

theorem compileMany_wellScoped (hsql : env.registry.WithoutSql) {many : ManyPlan}
    {keys : List (List Json)} {compiled : Compiled}
    (h : compileMany env many keys = .ok compiled) : WellScoped compiled.statement.sql := by
  obtain ⟨-, parent, resolved, relation, child, f, scope, -, hr, hn, -, hfollow, hf, -⟩ :=
    compileMany_ok h
  obtain ⟨hstatement, -⟩ := finish_ok hf
  obtain ⟨children, s₁, q, select, s₂, inner, pageAlias, s₃, param, hchildren, hl, hinner, hpage,
    hbind, -, hlabels, hsql'⟩ := followUpLevel_ok hfollow
  obtain ⟨names, hminted, hstart, ha, hpartition⟩ :=
    childQuery_started (hsql.onColumns hr hn) [] hchildren
  obtain ⟨new, hmints, hq, hselect⟩ := compileLevel_fits hsql hstart ha hl
  have hshows := pageQuery_shows relation hq ha hpartition hselect
  rw [← render_text hinner] at hshows
  have hpageName : IsAlias pageAlias := Sql.isAlias_freshAlias hpage
  have hparam : IsName param := by
    have hname := (Sql.ParamName.pageLimit.bind (Json.ofNat f.cap) s₃).bindable.2
    rwa [hbind] at hname
  have hbound : Mints s₃ [] scope := by
    refine Sql.mints_nothing ?_
    have haliases := Sql.aliases_bind s₃ "pageLimit" (Json.ofNat f.cap)
    rwa [hbind] at haliases
  have hall := hminted.trans (hmints.trans ((Sql.mints_freshAlias hpage).trans hbound))
  have hnodup : ([pageAlias] ++ (names ++ new)).Nodup := by
    have hnodup := hall.nodup
    rw [List.append_nil, ← List.append_assoc] at hnodup
    exact List.nodup_append_comm.1 hnodup
  rw [hstatement, Scope.statement, hsql']
  exact wellScoped_of_mints (pageText_shows hshows hpageName hparam) hnodup

/-- Without written SQL, root statements and follow-ups are well-scoped. -/
theorem well_scoped (hsql : env.registry.WithoutSql) :
    (∀ request compiled, compileRoot env request none = .ok compiled →
      WellScoped compiled.statement.sql) ∧
    ∀ many keys compiled, compileMany env many keys = .ok compiled →
      WellScoped compiled.statement.sql :=
  ⟨fun _ _ h => compileRoot_wellScoped hsql h, fun _ _ _ h => compileMany_wellScoped hsql h⟩

end

/-! ### Plays of songs -/

namespace Songs

def songOf : Relation := { target := "Song", many := false, join := .columns "songId" "id" }

def playsOf : Relation :=
  { target := "Play", many := true, join := .limitedColumns "id" "songId" 5 }

def song : TypeMapping :=
  { fields := [("liked", .existsByUser { table := "Like", parentColumn := "songId" }),
      ("plays", { source := .relation playsOf })] }

def play : TypeMapping := { fields := [("song", { source := .relation songOf })] }

def environment : Environment :=
  { registry := ⟨[("Song", song), ("Play", play)], none⟩, settings := {}, caller := {} }

/-- Plays, and whether their songs are liked. -/
def request : Request :=
  { typeName := "Play", fields := [.nested "song" [.scalar "liked"]] }

/-- The plays of songs. -/
def plays : ManyPlan :=
  { field := "plays"
    parentType := "Song"
    target := "Play"
    selection := [.scalar "at"]
    keyLabels := ["__key_id"]
    depth := 2
    paging := none
    origin := [0] }

theorem withoutSql : environment.registry.WithoutSql where
  filter entry he := by
    rcases List.mem_cons.1 he with rfl | he
    · rfl
    · rw [List.mem_singleton.1 he]
      rfl
  fields entry he field hf := by
    rcases List.mem_cons.1 he with rfl | he
    · rcases List.mem_cons.1 hf with rfl | hf
      · exact ⟨rfl, rfl⟩
      · rw [List.mem_singleton.1 hf]
        exact ⟨rfl, trivial⟩
    · rw [List.mem_singleton.1 he] at hf
      rw [List.mem_singleton.1 hf]
      exact ⟨rfl, trivial⟩

end Songs

theorem well_scoped_songs :
    ∃ root followUp, Songs.environment.registry.WithoutSql ∧
      compileRoot Songs.environment Songs.request none = .ok root ∧
      compileMany Songs.environment Songs.plays [[Json.ofNat 1]] = .ok followUp ∧
      WellScoped root.statement.sql ∧ WellScoped followUp.statement.sql := by
  have hroot : (compileRoot Songs.environment Songs.request none).toOption.isSome = true := by
    decide +kernel
  have hfollowUp :
      (compileMany Songs.environment Songs.plays [[Json.ofNat 1]]).toOption.isSome = true := by
    decide +kernel
  obtain ⟨root, hroot⟩ := Option.isSome_iff_exists.1 hroot
  obtain ⟨followUp, hfollowUp⟩ := Option.isSome_iff_exists.1 hfollowUp
  have hroot := Outcome.toOption_some.1 hroot
  have hfollowUp := Outcome.toOption_some.1 hfollowUp
  obtain ⟨hroots, hlists⟩ := well_scoped Songs.withoutSql
  exact ⟨root, followUp, Songs.withoutSql, hroot, hfollowUp, hroots _ _ hroot,
    hlists _ _ _ hfollowUp⟩

end Plan

end ObjectGraph
