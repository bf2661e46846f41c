import ObjectGraph.Proofs.Plan.Dropping
import ObjectGraph.Proofs.Sql.Renaming

/-! # Schemas without written SQL

What a schema contributes to statements when no SQL is written in it: columns, tests whether a row
exists, and joins on columns (`Registry.Unwritten`).  A renaming that keeps the names of the schema
and the hidden labels (`Registry.KeptBy`) keeps the texts of all of them
(`ExistsByUser.render_gives`, `JoinRule.apply_gives`), and a field is answered after it as it was
before (`Registry.resolve_rename`). -/

namespace ObjectGraph

namespace Schema

open Sql
open Sql.Building (Gives)

/-! ### Names of a schema -/

/-- The names in a test whether a row exists. -/
def ExistsByUser.names (e : ExistsByUser) : List String :=
  [e.table, e.parentColumn, e.userColumn, e.parentKey]

/-- The columns of a join. -/
def JoinRule.names : JoinRule → List String
  | .columns parent child | .limitedColumns parent child _ => [parent, child]
  | .condition _ _ | .script _ => []

/-- The names in a relation. -/
def Relation.names (r : Relation) : List String :=
  r.target :: (r.join.names ++ (r.sort.map Prod.fst).toList)

/-- The names in a source. -/
def FieldSource.names : FieldSource → List String
  | .column name => name.toList
  | .computed (.existsByUser test) => test.names
  | .computed (.script _ _) => []
  | .relation r => r.names
  | .aliasOf field view => field :: view.toList

/-- The names in the mapping of a field. -/
def FieldMapping.names (m : FieldMapping) : List String :=
  m.source.names ++ (m.paging.map Paging.cursorColumns).getD []

/-- The names in the mapping of a type. -/
def TypeMapping.names (m : TypeMapping) : List String :=
  m.table.toList ++ m.key ++ m.required ++ m.fields.flatMap fun entry => entry.1 :: entry.2.names

/-- The names in a registry: of types, tables, fields and columns. -/
def Registry.names (r : Registry) : List String :=
  r.types.flatMap fun entry => entry.1 :: entry.2.names

/-- The columns of a type that may tell the parents of a list. -/
def TypeMapping.keyColumns (m : TypeMapping) : List String :=
  m.key ++ m.fields.flatMap fun entry =>
    ((entry.2.relation?.bind fun r => r.join.columns?).map Prod.fst).toList

/-- The labels of hidden columns, those of the keys of parents included. -/
def Registry.hiddenLabels (r : Registry) : List String :=
  Plan.rowNumberLabel :: r.types.flatMap fun entry =>
    entry.2.keyColumns.map Plan.keyLabel ++
      (List.range (max 1 entry.2.key.length)).map Plan.partitionLabel

/-! ### Without written SQL -/

/-- A join on columns. -/
def JoinRule.OnColumns : JoinRule → Prop
  | .columns _ _ | .limitedColumns _ _ _ => True
  | .condition _ _ | .script _ => False

/-- A source that is no SQL text. -/
def FieldSource.Unwritten : FieldSource → Prop
  | .column _ | .aliasOf _ _ => True
  | .computed (.existsByUser test) => test.extra = none
  | .computed (.script _ _) => False
  | .relation r => r.join.OnColumns

/-- A mapping without SQL text. -/
def FieldMapping.Unwritten (m : FieldMapping) : Prop :=
  m.rawSelect = false ∧ m.source.Unwritten

/-- No SQL is written in the registry, and it lists no exposed fields. -/
structure Registry.Unwritten (r : Registry) : Prop where
  exposed : r.exposed = none
  filter : ∀ entry ∈ r.types, entry.2.filter = none
  fields : ∀ entry ∈ r.types, ∀ field ∈ entry.2.fields, field.2.Unwritten

/-- A renaming keeps the names of the registry and the hidden labels. -/
structure Registry.KeptBy (r : Registry) (σ : String → String) : Prop where
  injective : Function.Injective σ
  names : ∀ c ∈ r.names, σ c = c
  hidden : ∀ c ∈ r.hiddenLabels, σ c = c

section

variable {registry : Registry} {typeName field c : String} {mapping : TypeMapping}
  {m : FieldMapping} {resolved : Resolved} {relation : Relation}

theorem JoinRule.mem_names {rule : JoinRule} {parent child : String}
    (h : rule.columns? = some (parent, child)) : parent ∈ rule.names := by
  cases rule with
  | columns parent child =>
    cases h
    exact List.mem_cons_self
  | limitedColumns parent child limit | condition text limit | script steps => cases h

theorem Registry.mem_types (h : registry.lookup typeName = .ok mapping) :
    (typeName, mapping) ∈ registry.types :=
  Dictionary.mem_of_lookup (Registry.lookup_ok.1 h)

theorem Registry.mem_names (h : registry.lookup typeName = .ok mapping)
    (hc : c = typeName ∨ c ∈ mapping.names) : c ∈ registry.names :=
  List.mem_flatMap.2 ⟨_, Registry.mem_types h, List.mem_cons.2 hc⟩

theorem TypeMapping.mem_names_of_field (hf : mapping.fields.get? field = some m)
    (hc : c = field ∨ c ∈ m.names) : c ∈ mapping.names :=
  List.mem_append_right _
    (List.mem_flatMap.2 ⟨_, Dictionary.mem_of_lookup hf, List.mem_cons.2 hc⟩)

theorem TypeMapping.mem_names_of_key (h : c ∈ mapping.key) : c ∈ mapping.names :=
  List.mem_append_left _ (List.mem_append_left _ (List.mem_append_right _ h))

theorem TypeMapping.mem_names_of_required (h : c ∈ mapping.required) : c ∈ mapping.names :=
  List.mem_append_left _ (List.mem_append_right _ h)

theorem Registry.tableName_mem (h : registry.lookup typeName = .ok mapping) :
    mapping.tableName typeName ∈ registry.names := by
  refine Registry.mem_names h ?_
  unfold TypeMapping.tableName
  cases ht : mapping.table with
  | none => exact .inl rfl
  | some table =>
    refine .inr (List.mem_append_left _ (List.mem_append_left _ (List.mem_append_left _ ?_)))
    rw [ht]
    exact List.mem_singleton.2 rfl

theorem Registry.keyColumn_mem (h : registry.lookup typeName = .ok mapping)
    (hc : c ∈ mapping.keyColumns) : c ∈ registry.names := by
  refine Registry.mem_names h (.inr ?_)
  rcases List.mem_append.1 hc with hc | hc
  · exact TypeMapping.mem_names_of_key hc
  · obtain ⟨⟨field, m⟩, hfield, hc⟩ := List.mem_flatMap.1 hc
    obtain ⟨⟨parent, child⟩, hcolumns, rfl⟩ := Option.map_eq_some_iff.1 (Option.mem_toList.1 hc)
    obtain ⟨r, hr, hcolumns⟩ := Option.bind_eq_some_iff.1 hcolumns
    refine List.mem_append_right _ (List.mem_flatMap.2 ⟨_, hfield, List.mem_cons_of_mem _ ?_⟩)
    refine List.mem_append_left _ ?_
    have hsource := FieldMapping.relation_ok hr
    simp only at hsource
    rw [hsource]
    exact List.mem_cons_of_mem _ (List.mem_append_left _ (JoinRule.mem_names hcolumns))

theorem Registry.keyLabel_mem (h : registry.lookup typeName = .ok mapping)
    (hc : c ∈ mapping.keyColumns) : Plan.keyLabel c ∈ registry.hiddenLabels :=
  List.mem_cons_of_mem _ (List.mem_flatMap.2 ⟨_, Registry.mem_types h,
    List.mem_append_left _ (List.mem_map_of_mem hc)⟩)

theorem Registry.partitionLabel_mem (h : registry.lookup typeName = .ok mapping) {index : Nat}
    (hi : index < max 1 mapping.key.length) : Plan.partitionLabel index ∈ registry.hiddenLabels :=
  List.mem_cons_of_mem _ (List.mem_flatMap.2 ⟨_, Registry.mem_types h,
    List.mem_append_right _ (List.mem_map_of_mem (List.mem_range.2 hi))⟩)

/-! ### Answers -/

/-- The mapping that answers a field is one of its type. -/
theorem Registry.resolve_mem (hr : registry.resolve typeName field = .ok resolved)
    (hm : resolved.mapping = some m) : ∃ mapping f, registry.lookup typeName = .ok mapping ∧
      mapping.fields.get? f = some m := by
  obtain ⟨mapping, hl, hanswer⟩ := Registry.resolve_ok hr
  cases hanswer with
  | unmapped _ => cases hm
  | mapped hf _ =>
    cases hm
    exact ⟨mapping, _, hl, hf⟩
  | aliased _ _ htarget =>
    cases hm
    exact ⟨mapping, _, hl, htarget⟩

theorem Resolved.relation_ok (h : resolved.relation? = some relation) :
    ∃ m, resolved.mapping = some m ∧ m.source = .relation relation := by
  obtain ⟨m, hm, hr⟩ := Option.bind_eq_some_iff.1 h
  exact ⟨m, hm, FieldMapping.relation_ok hr⟩

/-- The names in the mapping that answers a field are names of the registry. -/
theorem Registry.resolved_names (hr : registry.resolve typeName field = .ok resolved)
    (hm : resolved.mapping = some m) (hc : c ∈ m.names) : c ∈ registry.names := by
  obtain ⟨mapping, f, hl, hf⟩ := Registry.resolve_mem hr hm
  exact Registry.mem_names hl (.inr (TypeMapping.mem_names_of_field hf (.inr hc)))

theorem Registry.relation_names (hr : registry.resolve typeName field = .ok resolved)
    (hn : resolved.relation? = some relation) (hc : c ∈ relation.names) : c ∈ registry.names := by
  obtain ⟨m, hm, hsource⟩ := Resolved.relation_ok hn
  refine Registry.resolved_names hr hm (List.mem_append_left _ ?_)
  rw [hsource]
  exact hc

theorem Registry.paging_names (hr : registry.resolve typeName field = .ok resolved)
    {paging : Paging} (hp : resolved.paging? = some paging) (hc : c ∈ paging.cursorColumns) :
    c ∈ registry.names := by
  obtain ⟨m, hm, hpaging⟩ := Option.bind_eq_some_iff.1 hp
  refine Registry.resolved_names hr hm (List.mem_append_right _ ?_)
  rw [hpaging]
  exact hc

/-- The columns by which the objects of a list are found are key columns. -/
theorem Registry.parentKeyColumns_mem (hl : registry.lookup typeName = .ok mapping)
    (hr : registry.resolve typeName field = .ok resolved)
    (hn : resolved.relation? = some relation) (hc : c ∈ Plan.parentKeyColumns mapping relation) :
    c ∈ mapping.keyColumns := by
  obtain ⟨m, hm, hsource⟩ := Resolved.relation_ok hn
  obtain ⟨mapping', f, hl', hf⟩ := Registry.resolve_mem hr hm
  cases hl.symm.trans hl'
  unfold Plan.parentKeyColumns at hc
  cases hcolumns : relation.join.columns? with
  | none =>
    rw [hcolumns] at hc
    exact List.mem_append_left _ hc
  | some columns =>
    rw [hcolumns] at hc
    refine List.mem_append_right _ (List.mem_flatMap.2 ⟨_, Dictionary.mem_of_lookup hf, ?_⟩)
    unfold FieldMapping.relation?
    simp only [hsource, Option.bind_some, hcolumns]
    exact hc

theorem Registry.Unwritten.of_resolved (h : registry.Unwritten)
    (hr : registry.resolve typeName field = .ok resolved) (hm : resolved.mapping = some m) :
    m.Unwritten := by
  obtain ⟨mapping, f, hl, hf⟩ := Registry.resolve_mem hr hm
  exact h.fields _ (Registry.mem_types hl) _ (Dictionary.mem_of_lookup hf)

theorem Registry.Unwritten.onColumns (h : registry.Unwritten)
    (hr : registry.resolve typeName field = .ok resolved)
    (hn : resolved.relation? = some relation) : relation.join.OnColumns := by
  obtain ⟨m, hm, hsource⟩ := Resolved.relation_ok hn
  have hunwritten := (h.of_resolved hr hm).2
  rw [hsource] at hunwritten
  exact hunwritten

/-! ### Renamed fields -/

/-- Rename the field, which is its column if it is not mapped. -/
def Resolved.rename (σ : String → String) (r : Resolved) : Resolved := { r with field := σ r.field }

theorem Resolved.rename_of_kept {σ : String → String} {r : Resolved} (h : σ r.field = r.field) :
    r.rename σ = r := by
  unfold Resolved.rename
  rw [h]

/-- A field is answered after a renaming as before: it is mapped and keeps its name, or it is not
mapped under any of the two names. -/
theorem Registry.resolve_rename {σ : String → String} (hexposed : registry.exposed = none)
    (hkept : registry.KeptBy σ) : registry.resolve typeName (σ field) =
      (registry.resolve typeName field).map (Resolved.rename σ) := by
  have hlists : ∀ f, registry.lists typeName f = true := fun f => by
    unfold Registry.lists
    rw [hexposed]
  unfold Registry.resolve
  cases hl : registry.lookup typeName with
  | error e => rfl
  | ok mapping =>
    have hmapped : ∀ {f : String} {m : FieldMapping}, mapping.fields.get? f = some m → σ f = f :=
      fun hf => hkept.names _
        (Registry.mem_names hl (.inr (TypeMapping.mem_names_of_field hf (.inl rfl))))
    change (if (!registry.lists typeName (σ field)) = true then _ else _) =
      (if (!registry.lists typeName field) = true then _ else _ : Except Error Resolved).map _
    rw [hlists, hlists]
    simp only [Bool.not_true, Bool.false_eq_true, if_false]
    cases hf : mapping.fields.get? field with
    | none =>
      have hrenamed : mapping.fields.get? (σ field) = none := by
        cases hf' : mapping.fields.get? (σ field) with
        | none => rfl
        | some m =>
          rw [hkept.injective (hmapped hf'), hf] at hf'
          cases hf'
      rw [hrenamed]
      rfl
    | some m =>
      rw [hmapped hf]
      simp only [hf]
      cases hsource : m.source with
      | aliasOf target view =>
        cases htarget : mapping.fields.get? target with
        | none =>
          simp only [htarget]
          rfl
        | some other =>
          simp only [htarget]
          exact congrArg Except.ok (Resolved.rename_of_kept (hmapped htarget)).symm
      | column name | computed computed | relation relation =>
        exact congrArg Except.ok (Resolved.rename_of_kept (hmapped hf)).symm

end

/-! ### What is built -/

section

variable {σ : String → String} {s : Scope} (caller : Caller) {tableAlias : String}

/-- The test whether a row exists is written like itself. -/
theorem ExistsByUser.render_gives {test : ExistsByUser} (hextra : test.extra = none)
    (hnames : ∀ c ∈ test.names, σ c = c) (ha : IsName tableAlias) :
    Gives s (test.render caller tableAlias) fun params text => Written σ params text text := by
  have hkept : σ test.table = test.table ∧ σ test.parentColumn = test.parentColumn ∧
      σ test.userColumn = test.userColumn ∧ σ test.parentKey = test.parentKey := by
    unfold ExistsByUser.names at hnames
    simpa using hnames
  obtain ⟨htable, hparent, huser, hkey⟩ := hkept
  unfold ExistsByUser.render
  rw [hextra]
  refine (fromFresh_gives test.table test.table s).bind fun q t _ hq => ?_
  obtain ⟨sub, hsub, rfl⟩ := hq
  have hquery : Query.Renamed σ t.params (Query.select (Query.fromTable {} test.table sub) "1")
      (Query.select (Query.fromTable {} test.table sub) "1") :=
    (Query.renamed_empty.fromTable htable hsub).select (written_plain (by decide))
  have htemplate : qualified sub test.userColumn ++ " = :userId" =
      qualified sub test.userColumn ++ " = :" ++ "userId" := by
    rw [String.append_assoc]
    rfl
  change Gives t (Query.andWhereWith _ (qualified sub test.userColumn ++ " = :userId") _ >>= _) _
  rw [htemplate]
  refine (andWhereWith_gives _ (equal_gives hsub huser .userId caller.userParam)).bind ?_
  rintro _ u hgrows ⟨text, rfl, htext⟩
  have hkeys : Written σ u.params (qualified tableAlias test.parentKey) _ :=
    written_qualified_kept ha hkey
  have hcolumns := (written_qualified_kept hsub hparent).link " = " (by decide) hkeys
  have hfinal := ((hquery.grow hgrows).andWhere htext).andWhere hcolumns
  exact Gives.pure (hfinal.embedded.prepend (by decide))

/-- A join on columns keeps the query of the children. -/
theorem JoinRule.apply_gives {rule : JoinRule} (hrule : rule.OnColumns)
    (hnames : ∀ c ∈ rule.names, σ c = c) {parentAlias childAlias : String}
    (hp : IsName parentAlias) (hc : IsName childAlias) {q : Query}
    (hq : q.Fixed σ s.params) :
    Gives s (rule.apply caller parentAlias childAlias q) fun params q' => q'.Fixed σ params := by
  have hequal : ∀ {parent child : String}, σ parent = parent → σ child = child →
      (q.andWhere (columnsEqual parentAlias parent childAlias child)).Fixed σ s.params :=
    fun hparent hchild => hq.andWhere <| (written_qualified_kept hc hchild).link " = " (by decide)
      (written_qualified_kept hp hparent)
  cases rule with
  | columns parent child =>
    exact Gives.pure (hequal (hnames parent List.mem_cons_self)
      (hnames child (List.mem_cons_of_mem _ List.mem_cons_self)))
  | limitedColumns parent child limit =>
    exact Gives.pure ((hequal (hnames parent List.mem_cons_self)
      (hnames child (List.mem_cons_of_mem _ List.mem_cons_self))).withLimit limit)
  | condition text limit => cases hrule
  | script steps => cases hrule

end

end Schema

end ObjectGraph
