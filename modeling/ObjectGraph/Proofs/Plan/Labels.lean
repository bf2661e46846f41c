import ObjectGraph.Proofs.Plan.Columns
import ObjectGraph.Proofs.Plan.Filters
import ObjectGraph.Proofs.Plan.Places

/-! # Labels

A level is compiled into two things that are used apart: a select list, which is written into the
statement, and a plan, by which its rows are read.  They meet in labels only: values and single
related objects are read under the names of their fields, and the key of a parent under the hidden
labels of its lists; a list itself is found by its index.  `Agrees` says that everything a plan
reads is selected, and under one label once.  Each selected field keeps it (`entry_agrees`), so
every level that is compiled has it (`Compiles.agrees`).

A level is written in one of three ways: as the items of the root statement, as items of the inner
query of a follow-up, before the expressions that tell the parent of a row, or as the members of a
JSON object that packs a single related object (`RootSelect`, `FollowUpSelect`, `PackedSelect`). -/

namespace ObjectGraph

namespace Plan

open Sql (Query qualified)
open Compiling
open Schema (TypeMapping TypeFilter Relation)

/-! ### Select lists -/

section

variable {select : SelectList} {items : List (String × String)} {l label expression : String}

theorem mem_labels_add : l ∈ (select.add label expression).map Prod.fst ↔
    l ∈ select.map Prod.fst ∨ l = label := by
  unfold SelectList.add
  split
  · next h =>
    obtain ⟨item, hitem, hlabel⟩ := List.any_eq_true.1 h
    rw [beq_iff_eq] at hlabel
    refine ⟨.inl, ?_⟩
    rintro (h | rfl)
    · exact h
    · exact hlabel ▸ List.mem_map_of_mem hitem
  · rw [List.map_append, List.mem_append, List.map_singleton, List.mem_singleton]

theorem mem_labels_addAll : l ∈ (select.addAll items).map Prod.fst ↔
    l ∈ select.map Prod.fst ∨ l ∈ items.map Prod.fst := by
  induction items generalizing select with
  | nil => simp [SelectList.addAll]
  | cons item items ih =>
    change l ∈ ((select.add item.1 item.2).addAll items).map Prod.fst ↔ _
    rw [ih, mem_labels_add, List.map_cons, List.mem_cons, or_assoc]

/-- The labelled items of a query to which a select list was added. -/
theorem labelled_addSelects (q : Query) (select : SelectList) :
    (addSelects q select).takeLabelled.1 = q.takeLabelled.1 ++ select := by
  unfold addSelects
  induction select generalizing q with
  | nil => exact (List.append_nil _).symm
  | cons item select ih =>
    have hitem : (q.addSelectAs item.2 item.1).takeLabelled.1 = q.takeLabelled.1 ++ [item] :=
      List.filterMap_append
    rw [List.foldl_cons, ih, hitem, List.append_assoc, List.singleton_append]

end

/-! ### Agreement -/

/-- What the plan of a level reads is selected there: each label once, the values and the single
related objects under their names, and the keys of the lists under theirs.  A list stands at the
index of its field. -/
structure Agrees (select : SelectList) (fields : List (FieldPlan NodePlan))
    (many : List ManyPlan) : Prop where
  distinct : (select.map Prod.fst).Nodup
  named : ∀ field ∈ fields, (∀ i, field.kind ≠ .many i) → field.name ∈ select.map Prod.fst
  keyed : ∀ m ∈ many, ∀ label ∈ m.keyLabels, label ∈ select.map Prod.fst
  listed : ∀ field ∈ fields, ∀ i, field.kind = .many i →
    ∃ m, many[i]? = some m ∧ m.field = field.name

namespace Agrees

variable {select : SelectList} {fields : List (FieldPlan NodePlan)} {many : List ManyPlan}

theorem empty : Agrees [] [] [] where
  distinct := List.nodup_nil
  named _ h := absurd h List.not_mem_nil
  keyed _ h := absurd h List.not_mem_nil
  listed _ h := absurd h List.not_mem_nil

/-- More may be selected than is read. -/
theorem addAll (h : Agrees select fields many) (items : List (String × String)) :
    Agrees (select.addAll items) fields many where
  distinct := nodup_addAll h.distinct
  named field hf hk := mem_labels_addAll.2 (.inl (h.named field hf hk))
  keyed m hm label hl := mem_labels_addAll.2 (.inl (h.keyed m hm label hl))
  listed := h.listed

/-- A field that is read under its name. -/
theorem value (h : Agrees select fields many) {field : FieldPlan NodePlan} {label : String}
    (expression : String) (hname : field.name = label) (hk : ∀ i, field.kind ≠ .many i) :
    Agrees (select.add label expression) (fields ++ [field]) many where
  distinct := nodup_add h.distinct
  named other hf hother := by
    rw [mem_labels_add]
    rcases List.mem_append.1 hf with hf | hf
    · exact .inl (h.named other hf hother)
    · exact .inr (by rw [List.mem_singleton.1 hf, hname])
  keyed m hm label hl := mem_labels_add.2 (.inl (h.keyed m hm label hl))
  listed other hf i hi := by
    rcases List.mem_append.1 hf with hf | hf
    · exact h.listed other hf i hi
    · rw [List.mem_singleton.1 hf] at hi
      exact absurd hi (hk i)

/-- A list, found by the items that are selected for it. -/
theorem list (h : Agrees select fields many) {field : FieldPlan NodePlan} {m : ManyPlan}
    {items : List (String × String)} (hk : field.kind = .many many.length)
    (hname : m.field = field.name) (hitems : m.keyLabels = items.map Prod.fst) :
    Agrees (select.addAll items) (fields ++ [field]) (many ++ [m]) where
  distinct := nodup_addAll h.distinct
  named other hf hother := by
    rw [mem_labels_addAll]
    rcases List.mem_append.1 hf with hf | hf
    · exact .inl (h.named other hf hother)
    · rw [List.mem_singleton.1 hf] at hother
      exact absurd hk (hother _)
  keyed other hm label hl := by
    rw [mem_labels_addAll]
    rcases List.mem_append.1 hm with hm | hm
    · exact .inl (h.keyed other hm label hl)
    · rw [List.mem_singleton.1 hm, hitems] at hl
      exact .inr hl
  listed other hf i hi := by
    rcases List.mem_append.1 hf with hf | hf
    · obtain ⟨m', hm', hname'⟩ := h.listed other hf i hi
      refine ⟨m', ?_, hname'⟩
      rw [List.getElem?_append_left (List.getElem?_eq_some_iff.1 hm').1]
      exact hm'
    · rw [List.mem_singleton.1 hf, hk] at hi
      cases hi
      exact ⟨m, List.getElem?_concat_length, by rw [List.mem_singleton.1 hf, hname]⟩

end Agrees

section

variable {env : Environment} {start : Start} {o : Opened} {selections : List Selection}
  {s t : Sql.Scope} {p p' : Progress} {position : Nat}

/-- Compiling a field keeps the agreement. -/
theorem entry_agrees {field : Selection} (h : entry env o p position field s = .ok (p', t))
    (hp : Agrees p.select p.fields p.many) : Agrees p'.select p'.fields p'.many := by
  cases field with
  | scalar name =>
    obtain ⟨resolved, expression, extras, -, -, -, rfl⟩ := valueEntry_ok h
    have hkind : ∀ i, (FieldKind.value : FieldKind NodePlan) ≠ .many i := nofun
    exact hp.value expression rfl hkind
  | nested name selection =>
    obtain ⟨resolved, relation, -, -, ⟨-, -, rfl⟩ | ⟨-, child, s₁, q, -, -, rfl⟩⟩ :=
      entry_nested_ok h
    · refine hp.list rfl rfl ?_
      rw [List.map_map]
      rfl
    · have hkind : ∀ i, FieldKind.single (closeLevel child q).2 ≠ .many i := nofun
      exact hp.value _ rfl hkind

/-- So does compiling fields in turn. -/
theorem entries_agrees (h : entries env o p position selections s = .ok (p', t))
    (hp : Agrees p.select p.fields p.many) : Agrees p'.select p'.fields p'.many := by
  induction selections generalizing p position s with
  | nil =>
    obtain ⟨rfl, -⟩ := entries_nil_ok h
    exact hp
  | cons field selections ih =>
    obtain ⟨q, u, hentry, hrest⟩ := entries_cons_ok h
    exact ih hrest (entry_agrees hentry hp)

/-- Of every level that is compiled, the select list and the plan agree. -/
theorem Compiles.agrees (h : Compiles env start o selections s p) :
    Agrees (closeLevel o p).1 (closeLevel o p).2.fields (closeLevel o p).2.many := by
  obtain ⟨t, he⟩ := h.entries_ok
  have hopened : Agrees o.progress.select o.progress.fields o.progress.many := by
    obtain ⟨_, _, _, _, ho⟩ := h.opened
    obtain ⟨-, _, _, _, _, -, -, -, rfl⟩ := openLevel_ok ho
    exact .empty
  exact ((entries_agrees he hopened).addAll _).addAll _

end

/-! ### How a level is written -/

/-- The query of an opened level has no labelled items left. -/
theorem Compiles.unlabelled {env : Environment} {start : Start} {o : Opened}
    {selections : List Selection} {s : Sql.Scope} {p : Progress}
    (h : Compiles env start o selections s p) : o.query.takeLabelled.1 = [] := by
  obtain ⟨_, _, _, _, ho⟩ := h.opened
  obtain ⟨-, _, _, q, q', -, -, -, rfl⟩ := openLevel_ok ho
  change List.filterMap _ (List.filter _ q'.items) = []
  rw [List.filterMap_eq_nil_iff]
  intro item hitem
  have hnone := (List.mem_filter.1 hitem).2
  rw [Option.isNone_iff_eq_none] at hnone
  rw [hnone]
  rfl

/-- The root statement is a SELECT with the items of its level. -/
def RootSelect (env : Environment) (request : Request) (filter : Option TypeFilter)
    (compiled : Compiled) : Prop :=
  ∃ (o : Opened) (s : Sql.Scope) (p : Progress) (query : Query),
    Compiles env (.root request filter) o request.fields s p ∧
    compiled.plan = (closeLevel o p).2 ∧
    query.render = .ok compiled.statement.sql ∧
    query.takeLabelled.1 = (closeLevel o p).1

/-- The inner query of a follow-up is a SELECT with the items of its level; then come the
expressions by which the rows are parted, in this order and under the labels that tell the parent,
as many as the key of the parent has labels; last the number of the row. -/
def FollowUpSelect (env : Environment) (many : ManyPlan) (keys : List (List Json))
    (compiled : Compiled) : Prop :=
  ∃ (parent child : TypeMapping) (relation : Relation) (o : Opened) (s : Sql.Scope)
    (p : Progress) (query : Query) (inner pageAlias param : String)
    (partition ordering : List String),
    Compiles env (.followUp many parent child relation keys) o many.selection s p ∧
    compiled.plan = (closeLevel o p).2 ∧
    query.render = .ok inner ∧
    compiled.statement.sql = pageText inner pageAlias param compiled.partitionLabels ∧
    query.takeLabelled.1 = (closeLevel o p).1 ++ compiled.partitionLabels.zip partition ++
      [(rowNumberLabel, rowNumber partition ordering)] ∧
    compiled.partitionLabels.length = many.keyLabels.length ∧
    partition.length = many.keyLabels.length

/-- The expression that packs a single related object. -/
def packed (env : Environment) (parent : Level) (child : Opened) (select : SelectList) : String :=
  let sub := ((child.query.select (env.settings.dialect.jsonObject select)).withLimit 1).embedded
  if parent.nested then env.settings.dialect.embedJson sub else sub

/-- A single related object of a level comes as a JSON object with the items of its own level,
which is added to the select list under the name of its field, after what was there. -/
def PackedSelect (env : Environment) (o : Opened) (p : Progress) (name : String)
    (plan : NodePlan) : Prop :=
  ∃ (relation : Relation) (child : Opened) (selection : List Selection) (s : Sql.Scope)
    (r : Progress) (before : SelectList) (after : List (String × String)),
    Compiles env (.single o.level relation) child selection s r ∧
    plan = (closeLevel child r).2 ∧
    (closeLevel o p).1 =
      (before.add name (packed env o.level child (closeLevel child r).1)).addAll after

section

variable {env : Environment} {start : Start} {o : Opened} {selections : List Selection}
  {s : Sql.Scope} {p : Progress}

/-! ### Every statement is written so -/

theorem labelled_requestFilter {tableAlias : String} {filter : Object} {q q' : Query}
    {s t : Sql.Scope} (h : addRequestFilter tableAlias q filter s = .ok (q', t)) :
    q'.takeLabelled.1 = q.takeLabelled.1 := by
  induction filter generalizing q s with
  | nil =>
    obtain ⟨rfl, -⟩ := pure_ok.1 h
    rfl
  | cons item filter ih =>
    obtain ⟨column, value⟩ := item
    rw [addRequestFilter] at h
    obtain ⟨q₁, s₁, hwhere, hrest⟩ := bind_ok.1 h
    cases ofBuilding_ok.1 hwhere
    exact (ih hrest).trans rfl

theorem labelled_rootQuery (request : Request) (tableAlias : String) (q : Query)
    (select : SelectList) : (rootQuery request tableAlias q select).takeLabelled.1 =
      q.takeLabelled.1 ++ select := by
  unfold rootQuery
  rw [labelled_addSelects]
  cases request.orderBy <;> cases request.limit <;> rfl

theorem labelled_pageQuery (children : ChildQuery) (relation : Relation) (q : Query)
    (select : SelectList) : ∃ ordering, (pageQuery children relation q select).takeLabelled.1 =
      q.takeLabelled.1 ++ select ++
        ((List.range children.partition.length).map partitionLabel).zip children.partition ++
        [(rowNumberLabel, rowNumber children.partition ordering)] := by
  refine ⟨(relation.sort.toList.map fun sort =>
    qualified children.tableAlias sort.1 ++ " " ++ sort.2.keyword) ++ q.ordering, ?_⟩
  unfold pageQuery
  have hlast : ∀ (q : Query) (expression label : String),
      (q.addSelectAs expression label).takeLabelled.1 =
        q.takeLabelled.1 ++ [(label, expression)] := fun _ _ _ => List.filterMap_append
  rw [hlast, labelled_addSelects, labelled_addSelects]
  rfl

theorem compileRoot_select {request : Request} {filter : Option TypeFilter} {compiled : Compiled}
    (h : compileRoot env request filter = .ok compiled) :
    RootSelect env request filter compiled := by
  obtain ⟨-, sql, plan, scope, hr, hf, hplan⟩ := compileRoot_ok h
  obtain ⟨mapping, tableAlias, s₁, q, select, s₂, q', hm, ha, hl, hfilter, hs⟩ := rootLevel_ok hr
  obtain ⟨o, s, p, ho, he, rfl, hclose⟩ := compileLevel_ok hl
  have hlevel : Compiles env (.root request filter) o request.fields s p := .root h hm ha ho he
  refine ⟨o, s, p, rootQuery request tableAlias q' select, hlevel, ?_, ?_, ?_⟩
  · rw [hplan, ← hclose]
  · rw [(finish_ok hf).1]
    exact hs
  · rw [labelled_rootQuery, labelled_requestFilter hfilter, hlevel.unlabelled, List.nil_append,
      ← hclose]

/-- There are as many expressions that tell the parent of a row as the key of the parent has
columns. -/
theorem childQuery_partition {parentType target : String} {parent child : TypeMapping}
    {relation : Relation} {keys : List (List Json)} {children : ChildQuery} {s t : Sql.Scope}
    (h : childQuery env parentType target parent child relation keys s = (children, t)) :
    children.partition.length = (parentKeyColumns parent relation).length := by
  unfold childQuery at h
  unfold parentKeyColumns
  cases hcolumns : relation.join.columns? with
  | some columns =>
    rw [hcolumns] at h
    cases h
    rfl
  | none =>
    rw [hcolumns] at h
    cases h
    exact List.length_map _

/-- A list of a level is the relation of its field, and has a label for every column of the key of
its parent. -/
theorem Compiles.list_mem (h : Compiles env start o selections s p) {m : ManyPlan}
    (hm : m ∈ (closeLevel o p).2.many) :
    ∃ resolved relation, env.registry.lookup m.parentType = .ok o.mapping ∧
      env.registry.resolve m.parentType m.field = .ok resolved ∧
      resolved.relation? = some relation ∧
      m.keyLabels = (parentKeyColumns o.mapping relation).map keyLabel := by
  obtain ⟨t, he⟩ := h.entries_ok
  obtain ⟨fields, many, -, hmany, hplanned⟩ := entries_planned selections he
  obtain ⟨_, _, _, _, ho⟩ := h.opened
  obtain ⟨-, mapping, _, _, _, hlookup, -, -, rfl⟩ := openLevel_ok ho
  change m ∈ p.many at hm
  rw [hmany] at hm
  obtain ⟨place, name, resolved, relation, below, -, hr, hn, rfl⟩ := hplanned.list_mem hm
  exact ⟨resolved, relation, hlookup, hr, hn, rfl⟩

theorem compileMany_select (h : Compiles env start o selections s p) {m : ManyPlan}
    (hm : m ∈ (closeLevel o p).2.many) {keys : List (List Json)} {compiled : Compiled}
    (hc : compileMany env m keys = .ok compiled) : FollowUpSelect env m keys compiled := by
  obtain ⟨resolved, relation, hparent, hr, hn, hkeys⟩ := h.list_mem hm
  obtain ⟨-, parent', resolved', relation', child, f, _, hparent', hr', hn', hchild, hf, hs, hplan,
    hlabels, -⟩ := compileMany_ok hc
  cases hparent.symm.trans hparent'
  cases hr.symm.trans hr'
  cases hn.symm.trans hn'
  obtain ⟨children, s₁, q, select, s₂, inner, pageAlias, s₃, param, hq, hl, hrender, -, -, -,
    hlabels', hsql⟩ := followUpLevel_ok hf
  obtain ⟨o', s', p', ho, he, rfl, hclose⟩ := compileLevel_ok hl
  have hlevel : Compiles env (.followUp m o.mapping child relation keys) o' m.selection s' p' :=
    .followUp hc hparent hr hn hchild hq ho he
  obtain ⟨ordering, hitems⟩ := labelled_pageQuery children relation o'.query select
  have hpartition : children.partition.length = m.keyLabels.length := by
    rw [childQuery_partition hq, hkeys, List.length_map]
  have hselect : select = (closeLevel o' p').1 := congrArg Prod.fst hclose
  refine ⟨o.mapping, child, relation, o', s', p', pageQuery children relation o'.query select,
    inner, pageAlias, param, children.partition, ordering, hlevel, ?_, hrender, ?_, ?_, ?_,
    hpartition⟩
  · rw [hplan, ← hclose]
  · rw [(finish_ok hs).1, hlabels]
    exact hsql
  · rw [hitems, hlevel.unlabelled, List.nil_append, hlabels, hlabels', hselect]
  · rw [hlabels, hlabels', List.length_map, List.length_range, hpartition]

/-! ### Single related objects -/

/-- Fields only add to the select list. -/
theorem entries_select {position : Nat} {p p' : Progress} {t : Sql.Scope}
    (h : entries env o p position selections s = .ok (p', t)) :
    ∃ items, p'.select = p.select.addAll items := by
  induction selections generalizing p position s with
  | nil =>
    obtain ⟨rfl, -⟩ := entries_nil_ok h
    exact ⟨[], rfl⟩
  | cons field selections ih =>
    obtain ⟨q, u, hentry, hrest⟩ := entries_cons_ok h
    obtain ⟨more, hmore⟩ := ih hrest
    have hfield : ∃ items, q.select = p.select.addAll items := by
      cases field with
      | scalar name =>
        obtain ⟨_, expression, _, -, -, -, rfl⟩ := valueEntry_ok hentry
        exact ⟨[(name, expression)], rfl⟩
      | nested name selection =>
        obtain ⟨_, _, -, -, ⟨-, -, rfl⟩ | ⟨-, _, _, _, -, -, rfl⟩⟩ := entry_nested_ok hentry
        · exact ⟨_, rfl⟩
        · exact ⟨[(name, _)], rfl⟩
    obtain ⟨items, hitems⟩ := hfield
    exact ⟨items ++ more, by rw [hmore, hitems, ← addAll_append]⟩

/-- So does closing a level. -/
theorem closeLevel_select (o : Opened) (p : Progress) :
    ∃ items, (closeLevel o p).1 = p.select.addAll items :=
  ⟨_, addAll_append.symm⟩

/-- Every selection gives one field. -/
theorem entries_length {position : Nat} {p p' : Progress} {t : Sql.Scope}
    (h : entries env o p position selections s = .ok (p', t)) :
    p'.fields.length = p.fields.length + selections.length := by
  obtain ⟨fields, many, hfields, -, hplanned⟩ := entries_planned selections h
  have hlength := congrArg List.length hplanned.names
  rw [List.length_map, List.length_map] at hlength
  rw [hfields, List.length_append, hlength]

theorem Compiles.progress_fields (h : Compiles env start o selections s p) :
    o.progress.fields = [] := by
  obtain ⟨_, _, _, _, ho⟩ := h.opened
  obtain ⟨-, _, _, _, _, -, -, -, rfl⟩ := openLevel_ok ho
  rfl

/-- A field was compiled from the selection at its position, between those before and those after
it. -/
theorem Compiles.entry_at (h : Compiles env start o selections s p) {i : Nat}
    {field : FieldPlan NodePlan} (hi : p.fields[i]? = some field) :
    ∃ selection q u q' u' t, selections[i]? = some selection ∧
      entries env o o.progress 0 (selections.take i) s = .ok (q, u) ∧
      entry env o q i selection u = .ok (q', u') ∧
      entries env o q' (i + 1) (selections.drop (i + 1)) u' = .ok (p, t) ∧
      ∀ f, q'.fields = q.fields ++ [f] → f = field := by
  obtain ⟨t, he⟩ := h.entries_ok
  obtain ⟨hlt, -⟩ := List.getElem?_eq_some_iff.1 hi
  rw [entries_length he, h.progress_fields, List.length_nil, Nat.zero_add] at hlt
  have hsplit : selections = selections.take i ++ selections[i] :: selections.drop (i + 1) := by
    rw [← List.drop_eq_getElem_cons hlt, List.take_append_drop]
  rw [hsplit] at he
  obtain ⟨q, u, hbefore, hrest⟩ := entries_append_ok he
  obtain ⟨q', u', hentry, hafter⟩ := entries_cons_ok hrest
  rw [List.length_take, Nat.min_eq_left hlt.le, Nat.zero_add] at hentry hafter
  have hposition : q.fields.length = i := by
    rw [entries_length hbefore, h.progress_fields, List.length_take, Nat.min_eq_left hlt.le]
    exact Nat.zero_add i
  refine ⟨selections[i], q, u, q', u', t, List.getElem?_eq_getElem hlt, hbefore, hentry, hafter,
    fun f hf => ?_⟩
  obtain ⟨fields, many, hfields, -, -⟩ := entries_planned _ hafter
  rw [hfields, hf, List.append_assoc, ← hposition, List.getElem?_append_right le_rfl,
    Nat.sub_self] at hi
  exact Option.some.inj hi

/-- A single related object of a level is packed into a column of it. -/
theorem Compiles.packed (h : Compiles env start o selections s p) {field : FieldPlan NodePlan}
    {plan : NodePlan} (hf : field ∈ (closeLevel o p).2.fields) (hk : field.kind = .single plan) :
    PackedSelect env o p field.name plan := by
  obtain ⟨i, hi⟩ := List.getElem?_of_mem hf
  obtain ⟨selection, q, u, q', u', t, hat, hbefore, hentry, hafter, hfield⟩ := h.entry_at hi
  obtain ⟨items, hitems⟩ := entries_select hafter
  obtain ⟨closing, hclosing⟩ := closeLevel_select o p
  cases selection with
  | scalar name =>
    obtain ⟨_, _, _, -, -, -, rfl⟩ := valueEntry_ok hentry
    rw [← hfield _ rfl] at hk
    cases hk
  | nested name selection =>
    obtain ⟨resolved, relation, hr, hn, ⟨-, -, rfl⟩ | ⟨hmany, child, s₁, r, ho, hchild, rfl⟩⟩ :=
      entry_nested_ok hentry
    · rw [← hfield _ rfl] at hk
      cases hk
    · obtain rfl := hfield _ rfl
      cases hk
      refine ⟨relation, child, selection, s₁, r, q.select, items ++ closing, ?_, rfl, ?_⟩
      · exact .single h hat hbefore hr hn hmany ho hchild
      · rw [hclosing, hitems, ← addAll_append]
        rfl

end

/-- The planner and whoever reads the rows agree on labels, at every level of every statement: the
labels of a level are distinct, and among them are those that its plan reads by; lists stand at
the indices of their fields.  The levels are written accordingly: the root's into the root
statement, that of a list into its follow-up, together with as many labels for the expressions that
part the rows as the key of the parent has, and that of a single related object into a column of
its parent. -/
theorem labels_agree (env : Environment) :
    (∀ start o selections s p, Compiles env start o selections s p →
      Agrees (closeLevel o p).1 (closeLevel o p).2.fields (closeLevel o p).2.many ∧
      (∀ field ∈ (closeLevel o p).2.fields, ∀ plan, field.kind = .single plan →
        PackedSelect env o p field.name plan) ∧
      ∀ m ∈ (closeLevel o p).2.many, ∀ keys compiled, compileMany env m keys = .ok compiled →
        FollowUpSelect env m keys compiled) ∧
    ∀ request filter compiled, compileRoot env request filter = .ok compiled →
      RootSelect env request filter compiled := by
  refine ⟨fun start o selections s p h => ⟨h.agrees, ?_, ?_⟩, ?_⟩
  · intro field hf plan hk
    exact h.packed hf hk
  · intro m hm keys compiled hc
    exact compileMany_select h hm hc
  · intro request filter compiled hc
    exact compileRoot_select hc

/-! ### Authors with their publishers and their books -/

namespace Shelf

def publisherOf : Relation :=
  { target := "Publisher", many := false, join := .columns "publisherId" "id" }

def booksOf : Relation := { target := "Book", many := true, join := .columns "id" "authorId" }

def author : TypeMapping :=
  { fields := [("publisher", { source := .relation publisherOf }),
      ("books", { source := .relation booksOf })] }

def environment : Environment :=
  { registry := ⟨[("Author", author), ("Publisher", {}), ("Book", {})], none⟩, settings := {},
    caller := {} }

def request : Request :=
  { typeName := "Author"
    fields := [.scalar "name", .nested "publisher" [.scalar "title"],
      .nested "books" [.scalar "title"]] }

/-- What is packed and what is listed of an author. -/
def packedAndListed (plan : NodePlan) : Option (FieldPlan NodePlan × NodePlan × ManyPlan) :=
  match plan.fields[1]?, plan.many[0]? with
  | some field, some m =>
    match field.kind with
    | .single child => some (field, child, m)
    | _ => none
  | _, _ => none

theorem packedAndListed_some {plan child : NodePlan} {field : FieldPlan NodePlan} {m : ManyPlan}
    (h : packedAndListed plan = some (field, child, m)) :
    field ∈ plan.fields ∧ field.kind = .single child ∧ m ∈ plan.many := by
  unfold packedAndListed at h
  split at h
  · next hf hm =>
    split at h
    · next hk =>
      cases h
      exact ⟨List.mem_of_getElem? hf, hk, List.mem_of_getElem? hm⟩
    · cases h
  · cases h

/-- An author is compiled, and so are the books of authors that are keyed by a number. -/
theorem compiles : ((compileRoot environment request none).toOption.bind fun root =>
    (packedAndListed root.plan).bind fun found =>
      (compileMany environment found.2.2 [[Json.ofNat 1]]).toOption).isSome = true := by
  decide +kernel

end Shelf

theorem labels_agree_authors :
    ∃ root o s p field child m compiled,
      compileRoot Shelf.environment Shelf.request none = .ok root ∧
      Compiles Shelf.environment (.root Shelf.request none) o Shelf.request.fields s p ∧
      field ∈ (closeLevel o p).2.fields ∧ field.kind = .single child ∧
      m ∈ (closeLevel o p).2.many ∧
      compileMany Shelf.environment m [[Json.ofNat 1]] = .ok compiled ∧
      RootSelect Shelf.environment Shelf.request none root ∧
      Agrees (closeLevel o p).1 (closeLevel o p).2.fields (closeLevel o p).2.many ∧
      PackedSelect Shelf.environment o p field.name child ∧
      FollowUpSelect Shelf.environment m [[Json.ofNat 1]] compiled := by
  obtain ⟨compiled, hsome⟩ := Option.isSome_iff_exists.1 Shelf.compiles
  obtain ⟨root, hroot, hsome⟩ := Option.bind_eq_some_iff.1 hsome
  obtain ⟨⟨field, child, m⟩, hfound, hcompiled⟩ := Option.bind_eq_some_iff.1 hsome
  have hroot := Outcome.toOption_some.1 hroot
  have hcompiled := Outcome.toOption_some.1 hcompiled
  obtain ⟨o, s, p, hlevel, hplan⟩ := compileRoot_compiles hroot
  obtain ⟨hf, hk, hm⟩ := Shelf.packedAndListed_some hfound
  rw [hplan] at hf hm
  obtain ⟨hlevels, hroots⟩ := labels_agree Shelf.environment
  obtain ⟨hagrees, hpacked, hlists⟩ := hlevels _ o _ s p hlevel
  exact ⟨root, o, s, p, field, child, m, compiled, hroot, hlevel, hf, hk, hm, hcompiled,
    hroots _ _ _ hroot, hagrees, hpacked field hf child hk, hlists m hm _ _ hcompiled⟩

end Plan

end ObjectGraph
