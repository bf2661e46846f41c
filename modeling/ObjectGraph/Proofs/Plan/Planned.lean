import ObjectGraph.Proofs.Plan.Limits

/-! # The plan of a level, apart from its statement

`Planned` says what the fields and the lists of a level are planned as, by the schema and the
selection alone: neither the scope nor the query of the level counts.  Compiled fields are planned
(`entries_planned`, `compileLevel_planned`), and what is planned is unique (`Planned.unique`).
Therefore nothing of a follow-up but its statement depends on the keys it is compiled for
(`compileMany_uniform`). -/

namespace ObjectGraph

namespace Plan

open Schema (TypeMapping Relation Resolved)

/-- The place of a level: its type, its depth and its path in the request. -/
structure Site where
  typeName : String
  mapping : TypeMapping
  depth : Nat
  origin : List Nat

/-- The place of a level that is opened. -/
def Opened.site (o : Opened) : Site := ⟨o.level.typeName, o.mapping, o.level.depth, o.level.origin⟩

/-- A list at a position of a level. -/
def Site.manyPlan (site : Site) (position : Nat) (name : String) (resolved : Resolved)
    (relation : Relation) (selection : List Selection) : ManyPlan :=
  { field := name
    parentType := site.typeName
    target := resolved.view.getD relation.target
    selection
    keyLabels := (parentKeyColumns site.mapping relation).map keyLabel
    depth := site.depth + 1
    paging := resolved.paging?
    origin := site.origin ++ [position] }

/-- What selected fields are planned as, the first of them at a position of their level and after
so many lists. -/
inductive Planned (env : Environment) : Site → (position lists : Nat) → List Selection →
    List (FieldPlan NodePlan) → List ManyPlan → Prop
  | nil {site : Site} {position lists : Nat} : Planned env site position lists [] [] []
  | value {site : Site} {position lists : Nat} {name : String} {resolved : Resolved}
      {selections : List Selection} {fields : List (FieldPlan NodePlan)} {many : List ManyPlan} :
      env.registry.resolve site.typeName name = .ok resolved →
      resolved.relation? = none →
      Planned env site (position + 1) lists selections fields many →
      Planned env site position lists (.scalar name :: selections)
        ({ name, kind := .value, json := resolved.json, transform := resolved.transform? } ::
          fields) many
  | many {site : Site} {position lists : Nat} {name : String} {resolved : Resolved}
      {relation : Relation} {selection selections : List Selection}
      {fields : List (FieldPlan NodePlan)} {many : List ManyPlan} :
      env.registry.resolve site.typeName name = .ok resolved →
      resolved.relation? = some relation → relation.many = true →
      Planned env site (position + 1) (lists + 1) selections fields many →
      Planned env site position lists (.nested name selection :: selections)
        ({ name, kind := .many lists, transform := resolved.transform? } :: fields)
        (site.manyPlan position name resolved relation selection :: many)
  | single {site : Site} {position lists : Nat} {name : String} {resolved : Resolved}
      {relation : Relation} {mapping : TypeMapping} {selection selections : List Selection}
      {childFields fields : List (FieldPlan NodePlan)} {childMany many : List ManyPlan} :
      env.registry.resolve site.typeName name = .ok resolved →
      resolved.relation? = some relation → relation.many = false →
      env.registry.lookup (resolved.view.getD relation.target) = .ok mapping →
      Planned env
        ⟨resolved.view.getD relation.target, mapping, site.depth + 1, site.origin ++ [position]⟩
        0 0 selection childFields childMany →
      Planned env site (position + 1) lists selections fields many →
      Planned env site position lists (.nested name selection :: selections)
        ({ name, kind := .single ⟨site.origin ++ [position], resolved.view.getD relation.target,
            childFields, childMany⟩, transform := resolved.transform? } :: fields) many

variable {env : Environment}

/-- What is planned is unique. -/
theorem Planned.unique {site : Site} {position lists : Nat} {selections : List Selection}
    {fields fields' : List (FieldPlan NodePlan)} {many many' : List ManyPlan}
    (h : Planned env site position lists selections fields many)
    (h' : Planned env site position lists selections fields' many') :
    fields = fields' ∧ many = many' := by
  induction h generalizing fields' many' with
  | nil =>
    cases h'
    exact ⟨rfl, rfl⟩
  | value hr hn _ ih =>
    cases h' with
    | value hr' hn' hrest =>
      rw [hr] at hr'
      cases hr'
      obtain ⟨rfl, rfl⟩ := ih hrest
      exact ⟨rfl, rfl⟩
  | many hr hn hm _ ih =>
    cases h' with
    | many hr' hn' hm' hrest =>
      rw [hr] at hr'
      cases hr'
      rw [hn] at hn'
      cases hn'
      obtain ⟨rfl, rfl⟩ := ih hrest
      exact ⟨rfl, rfl⟩
    | single hr' hn' hm' =>
      rw [hr] at hr'
      cases hr'
      rw [hn] at hn'
      cases hn'
      rw [hm] at hm'
      cases hm'
  | single hr hn hm hl _ _ ihChild ih =>
    cases h' with
    | many hr' hn' hm' =>
      rw [hr] at hr'
      cases hr'
      rw [hn] at hn'
      cases hn'
      rw [hm] at hm'
      cases hm'
    | single hr' hn' hm' hl' hchild hrest =>
      rw [hr] at hr'
      cases hr'
      rw [hn] at hn'
      cases hn'
      rw [hl] at hl'
      cases hl'
      obtain ⟨rfl, rfl⟩ := ihChild hchild
      obtain ⟨rfl, rfl⟩ := ih hrest
      exact ⟨rfl, rfl⟩

/-- There is one plan for the fields that are selected at a place. -/
theorem Planned.plan_eq {site : Site} {position lists : Nat} {selections : List Selection}
    {plan plan' : NodePlan}
    (h : Planned env site position lists selections plan.fields plan.many)
    (horigin : plan.origin = plan'.origin) (htype : plan.typeName = plan'.typeName)
    (h' : Planned env site position lists selections plan'.fields plan'.many) : plan = plan' := by
  obtain ⟨hfields, hmany⟩ := h.unique h'
  obtain ⟨origin, typeName, fields, many⟩ := plan
  obtain ⟨origin', typeName', fields', many'⟩ := plan'
  cases horigin
  cases htype
  cases hfields
  cases hmany
  rfl

/-- Planned fields have the names of the selected ones. -/
theorem Planned.names {site : Site} {position lists : Nat} {selections : List Selection}
    {fields : List (FieldPlan NodePlan)} {many : List ManyPlan}
    (h : Planned env site position lists selections fields many) :
    fields.map FieldPlan.name = selections.map Selection.name := by
  induction h with
  | nil => rfl
  | value _ _ _ ih => exact congrArg (List.cons _) ih
  | many _ _ _ _ ih => exact congrArg (List.cons _) ih
  | single _ _ _ _ _ _ _ ih => exact congrArg (List.cons _) ih

/-- What a selected field is planned as, at a position of a level with some lists. -/
inductive PlannedField (env : Environment) (site : Site) (position : Nat)
    (isList : Nat → ManyPlan → Prop) : Selection → FieldPlan NodePlan → Prop
  | value {name : String} {resolved : Resolved} :
      env.registry.resolve site.typeName name = .ok resolved →
      resolved.relation? = none →
      PlannedField env site position isList (.scalar name)
        { name, kind := .value, json := resolved.json, transform := resolved.transform? }
  | many {name : String} {resolved : Resolved} {relation : Relation} {selection : List Selection}
      {index : Nat} :
      env.registry.resolve site.typeName name = .ok resolved →
      resolved.relation? = some relation → relation.many = true →
      isList index (site.manyPlan position name resolved relation selection) →
      PlannedField env site position isList (.nested name selection)
        { name, kind := .many index, transform := resolved.transform? }
  | single {name : String} {resolved : Resolved} {relation : Relation} {mapping : TypeMapping}
      {selection : List Selection} {fields : List (FieldPlan NodePlan)} {many : List ManyPlan} :
      env.registry.resolve site.typeName name = .ok resolved →
      resolved.relation? = some relation → relation.many = false →
      env.registry.lookup (resolved.view.getD relation.target) = .ok mapping →
      Planned env
        ⟨resolved.view.getD relation.target, mapping, site.depth + 1, site.origin ++ [position]⟩
        0 0 selection fields many →
      PlannedField env site position isList (.nested name selection)
        { name, kind := .single ⟨site.origin ++ [position], resolved.view.getD relation.target,
            fields, many⟩, transform := resolved.transform? }

theorem PlannedField.mono {site : Site} {position : Nat} {isList isList' : Nat → ManyPlan → Prop}
    {selection : Selection} {field : FieldPlan NodePlan}
    (h : PlannedField env site position isList selection field)
    (hlists : ∀ j m, isList j m → isList' j m) :
    PlannedField env site position isList' selection field := by
  cases h with
  | value hr hn => exact .value hr hn
  | many hr hn hm hl => exact .many hr hn hm (hlists _ _ hl)
  | single hr hn hm hl hp => exact .single hr hn hm hl hp

theorem PlannedField.name_eq {site : Site} {position : Nat} {isList : Nat → ManyPlan → Prop}
    {selection : Selection} {field : FieldPlan NodePlan}
    (h : PlannedField env site position isList selection field) :
    field.name = selection.name := by
  cases h <;> rfl

/-- Every planned field is that of the selection at its position. -/
theorem Planned.field_at {site : Site} {position lists : Nat} {selections : List Selection}
    {fields : List (FieldPlan NodePlan)} {many : List ManyPlan}
    (h : Planned env site position lists selections fields many) {i : Nat}
    {field : FieldPlan NodePlan} (hi : fields[i]? = some field) :
    ∃ selection, selections[i]? = some selection ∧
      PlannedField env site (position + i) (fun j m => lists ≤ j ∧ many[j - lists]? = some m)
        selection field := by
  induction h generalizing i with
  | nil => simp at hi
  | value hr hn _ ih =>
    cases i with
    | zero =>
      cases hi
      exact ⟨_, rfl, .value hr hn⟩
    | succ i =>
      obtain ⟨selection, hs, hp⟩ := ih hi
      rw [Nat.add_right_comm] at hp
      exact ⟨selection, hs, hp⟩
  | @many site position lists _ _ _ _ _ _ _ hr hn hm _ ih =>
    cases i with
    | zero =>
      cases hi
      exact ⟨_, rfl, .many hr hn hm ⟨Nat.le_refl _, by rw [Nat.sub_self]; rfl⟩⟩
    | succ i =>
      obtain ⟨selection, hs, hp⟩ := ih hi
      rw [Nat.add_right_comm] at hp
      refine ⟨selection, hs, hp.mono ?_⟩
      rintro j m ⟨hl, hm⟩
      refine ⟨by omega, ?_⟩
      rw [show j - lists = (j - (lists + 1)) + 1 by omega, List.getElem?_cons_succ]
      exact hm
  | single hr hn hm hl hchild _ _ ih =>
    cases i with
    | zero =>
      cases hi
      exact ⟨_, rfl, .single hr hn hm hl hchild⟩
    | succ i =>
      obtain ⟨selection, hs, hp⟩ := ih hi
      rw [Nat.add_right_comm] at hp
      exact ⟨selection, hs, hp⟩

/-- Every list of a level is the relation of a selected field, and has what was selected of it. -/
theorem Planned.list_mem {site : Site} {position lists : Nat} {selections : List Selection}
    {fields : List (FieldPlan NodePlan)} {many : List ManyPlan}
    (h : Planned env site position lists selections fields many)
    {m : ManyPlan} (hm : m ∈ many) :
    ∃ place name resolved relation below, .nested name below ∈ selections ∧
      env.registry.resolve site.typeName name = .ok resolved ∧
      resolved.relation? = some relation ∧
      m = site.manyPlan place name resolved relation below := by
  induction h with
  | nil => cases hm
  | value _ _ _ ih =>
    obtain ⟨place, name, resolved, relation, below, hmem, h⟩ := ih hm
    exact ⟨place, name, resolved, relation, below, List.mem_cons_of_mem _ hmem, h⟩
  | many hr hn _ _ ih =>
    rcases List.mem_cons.1 hm with rfl | hm
    · exact ⟨_, _, _, _, _, List.mem_cons_self, hr, hn, rfl⟩
    · obtain ⟨place, name, resolved, relation, below, hmem, h⟩ := ih hm
      exact ⟨place, name, resolved, relation, below, List.mem_cons_of_mem _ hmem, h⟩
  | single _ _ _ _ _ _ _ ih =>
    obtain ⟨place, name, resolved, relation, below, hmem, h⟩ := ih hm
    exact ⟨place, name, resolved, relation, below, List.mem_cons_of_mem _ hmem, h⟩

/-- An opened single related object stands at its position in the level of its parent. -/
theorem openSingle_site {level : Level} {position : Nat} {relation : Relation} {target : String}
    {s t : Sql.Scope} {o : Opened}
    (h : openSingle env level position relation target s = .ok (o, t)) :
    env.registry.lookup target = .ok o.mapping ∧
      o.site = ⟨target, o.mapping, level.depth + 1, level.origin ++ [position]⟩ ∧
      o.progress.fields = [] ∧ o.progress.many = [] := by
  obtain ⟨mapping, _, _, _, _, hm, _, _, ho⟩ := openSingle_ok h
  obtain ⟨_, mapping', _, _, _, hm', _, _, rfl⟩ := openLevel_ok ho
  rw [hm] at hm'
  cases hm'
  exact ⟨hm, rfl, rfl, rfl⟩

mutual

/-- A compiled field is planned. -/
theorem entry_planned {o : Opened} {p p' : Progress} {position : Nat} {s t : Sql.Scope}
    {selections : List Selection} {fields : List (FieldPlan NodePlan)} {many : List ManyPlan} :
    (selection : Selection) → entry env o p position selection s = .ok (p', t) →
    Planned env o.site (position + 1) p'.many.length selections fields many →
    ∃ fields' many', p'.fields = p.fields ++ fields' ∧ p'.many = p.many ++ many' ∧
      Planned env o.site position p.many.length (selection :: selections) (fields' ++ fields)
        (many' ++ many)
  | .scalar name, h, hrest => by
    obtain ⟨resolved, _, _, hr, hn, _, rfl⟩ := valueEntry_ok h
    exact ⟨_, [], rfl, (List.append_nil _).symm, .value hr hn hrest⟩
  | .nested name selection, h, hrest => by
    obtain ⟨resolved, relation, hr, hn, ⟨hm, rfl, rfl⟩ | ⟨hm, child, s₁, q, ho, he, rfl⟩⟩ :=
      entry_nested_ok h
    · refine ⟨_, _, rfl, rfl, .many hr hn hm ?_⟩
      simpa [manyEntry] using hrest
    · obtain ⟨hl, hsite, hf, hmany⟩ := openSingle_site ho
      obtain ⟨childFields, childMany, hcf, hcm, hchild⟩ := entries_planned selection he
      rw [hf, List.nil_append] at hcf
      rw [hmany, List.nil_append] at hcm
      rw [hsite, hmany] at hchild
      have horigin : child.level.origin = o.level.origin ++ [position] :=
        congrArg Site.origin hsite
      have htype : child.level.typeName = resolved.view.getD relation.target :=
        congrArg Site.typeName hsite
      refine ⟨[_], [], rfl, (List.append_nil _).symm, ?_⟩
      rw [horigin, htype, hcf, hcm]
      exact .single hr hn hm hl hchild hrest

/-- Compiled fields are planned. -/
theorem entries_planned {o : Opened} {p p' : Progress} {position : Nat} {s t : Sql.Scope} :
    (selections : List Selection) → entries env o p position selections s = .ok (p', t) →
    ∃ fields many, p'.fields = p.fields ++ fields ∧ p'.many = p.many ++ many ∧
      Planned env o.site position p.many.length selections fields many
  | [], h => by
    obtain ⟨rfl, rfl⟩ := entries_nil_ok h
    exact ⟨[], [], by simp, by simp, .nil⟩
  | selection :: selections, h => by
    obtain ⟨q, s₁, he, hrest⟩ := entries_cons_ok h
    obtain ⟨fields, many, hf, hm, hp⟩ := entries_planned selections hrest
    obtain ⟨fields', many', hf', hm', hp'⟩ := entry_planned selection he hp
    refine ⟨fields' ++ fields, many' ++ many, ?_, ?_, hp'⟩
    · rw [hf, hf', List.append_assoc]
    · rw [hm, hm', List.append_assoc]

end

/-- A compiled level is planned. -/
theorem compileLevel_planned {level : Level} {filter : Option Schema.TypeFilter} {q q' : Sql.Query}
    {selections : List Selection} {s t : Sql.Scope} {select : SelectList} {plan : NodePlan}
    (h : compileLevel env level filter q selections s = .ok ((q', select, plan), t)) :
    plan.origin = level.origin ∧ plan.typeName = level.typeName ∧ ∃ mapping,
      env.registry.lookup level.typeName = .ok mapping ∧
      Planned env ⟨level.typeName, mapping, level.depth, level.origin⟩ 0 0 selections plan.fields
        plan.many := by
  obtain ⟨o, s₁, p, ho, he, -, hc⟩ := compileLevel_ok h
  obtain ⟨-, mapping, _, _, _, hm, -, -, rfl⟩ := openLevel_ok ho
  obtain ⟨fields, many, hf, hmany, hp⟩ := entries_planned selections he
  simp only [closeLevel, Prod.mk.injEq] at hc
  obtain ⟨-, rfl⟩ := hc
  refine ⟨rfl, rfl, mapping, hm, ?_⟩
  simp only [List.nil_append] at hf hmany
  rw [hf, hmany]
  exact hp

/-- The plan of a root statement. -/
theorem compileRoot_planned {request : Request} {filter : Option Schema.TypeFilter}
    {compiled : Compiled} (h : compileRoot env request filter = .ok compiled) :
    compiled.plan.origin = [] ∧ compiled.plan.typeName = request.typeName ∧ ∃ mapping,
      env.registry.lookup request.typeName = .ok mapping ∧
      Planned env ⟨request.typeName, mapping, 1, []⟩ 0 0 request.fields compiled.plan.fields
        compiled.plan.many := by
  obtain ⟨-, sql, plan, scope, hr, -, hc⟩ := compileRoot_ok h
  obtain ⟨_, _, _, _, _, _, _, -, -, hl, -, -⟩ := rootLevel_ok hr
  rw [hc]
  exact compileLevel_planned hl

/-- The plan of a follow-up. -/
theorem compileMany_planned {many : ManyPlan} {keys : List (List Json)} {compiled : Compiled}
    (h : compileMany env many keys = .ok compiled) :
    compiled.plan.origin = many.origin ∧ compiled.plan.typeName = many.target ∧ ∃ mapping,
      env.registry.lookup many.target = .ok mapping ∧
      Planned env ⟨many.target, mapping, many.depth, many.origin⟩ 0 0 many.selection
        compiled.plan.fields compiled.plan.many := by
  obtain ⟨-, _, _, _, _, f, _, -, -, -, -, hf, -, hc, -, -⟩ := compileMany_ok h
  obtain ⟨_, _, _, _, _, _, _, _, _, -, hl, -, -, -, -, -, -⟩ := followUpLevel_ok hf
  rw [hc]
  exact compileLevel_planned hl

/-! ### Follow-ups for other keys -/

theorem childQuery_partition_length {parentType target : String} {parent child : TypeMapping}
    {relation : Relation} {keys keys' : List (List Json)} {s s' : Sql.Scope} :
    (childQuery env parentType target parent child relation keys s).1.partition.length =
      (childQuery env parentType target parent child relation keys' s').1.partition.length := by
  unfold childQuery
  cases relation.join.columns? with
  | some columns => rfl
  | none =>
    change (parent.key.map _).length = (parent.key.map _).length
    rw [List.length_map, List.length_map]

/-- The labels that tell the parent of a row and the size of a page depend on nothing of a list but
its field, its types and its paging. -/
theorem compileMany_labels {many many' : ManyPlan} {keys keys' : List (List Json)}
    {compiled compiled' : Compiled} (hfield : many.field = many'.field)
    (hparent : many.parentType = many'.parentType) (htarget : many.target = many'.target)
    (hpaging : many.paging = many'.paging) (h : compileMany env many keys = .ok compiled)
    (h' : compileMany env many' keys' = .ok compiled') :
    compiled.partitionLabels = compiled'.partitionLabels ∧
      compiled.pageSize = compiled'.pageSize := by
  obtain ⟨-, parent, resolved, relation, child, f, _, hpar, hres, hrel, hch, hf, -, -, hlab, -⟩ :=
    compileMany_ok h
  obtain ⟨-, parent', resolved', relation', child', f', _, hpar', hres', hrel', hch', hf', -,
    -, hlab', -⟩ := compileMany_ok h'
  rw [hparent, hpar'] at hpar
  cases hpar
  rw [hparent, hfield, hres'] at hres
  cases hres
  rw [hrel'] at hrel
  cases hrel
  rw [htarget, hch'] at hch
  cases hch
  obtain ⟨c, _, _, _, _, _, _, _, _, hc, -, -, -, -, -, hlabels, -⟩ := followUpLevel_ok hf
  obtain ⟨c', _, _, _, _, _, _, _, _, hc', -, -, -, -, -, hlabels', -⟩ := followUpLevel_ok hf'
  rw [hparent, htarget] at hc
  have hpartition : c.partition.length = c'.partition.length := by
    have h : (childQuery env many'.parentType many'.target parent child relation keys
        {}).1.partition.length = (childQuery env many'.parentType many'.target parent child
        relation keys' {}).1.partition.length := childQuery_partition_length
    rw [hc, hc'] at h
    exact h
  refine ⟨by rw [hlab, hlab', hlabels, hlabels', hpartition], ?_⟩
  obtain ⟨resolved₁, relation₁, child₁, hres₁, hrel₁, hch₁, hsize⟩ := compileMany_pageSize h
  obtain ⟨resolved₂, relation₂, child₂, hres₂, hrel₂, hch₂, hsize'⟩ := compileMany_pageSize h'
  rw [hparent, hfield, hres₂] at hres₁
  cases hres₁
  rw [hrel₂] at hrel₁
  cases hrel₁
  rw [htarget, hch₂] at hch₁
  cases hch₁
  rw [hsize, hsize', hpaging]

/-- The plan of a follow-up, the labels that tell the parent of a row, and the size of a page are
the same for all keys. -/
theorem compileMany_uniform {many : ManyPlan} {keys keys' : List (List Json)}
    {compiled compiled' : Compiled} (h : compileMany env many keys = .ok compiled)
    (h' : compileMany env many keys' = .ok compiled') :
    compiled.plan = compiled'.plan ∧ compiled.partitionLabels = compiled'.partitionLabels ∧
      compiled.pageSize = compiled'.pageSize := by
  obtain ⟨ho, ht, mapping, hm, hp⟩ := compileMany_planned h
  obtain ⟨ho', ht', mapping', hm', hp'⟩ := compileMany_planned h'
  cases hm.symm.trans hm'
  have hplan := hp.plan_eq (ho.trans ho'.symm) (ht.trans ht'.symm) hp'
  exact ⟨hplan, compileMany_labels rfl rfl rfl rfl h h'⟩

end Plan

end ObjectGraph
