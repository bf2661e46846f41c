import ObjectGraph.Proofs.Lookup
import ObjectGraph.Proofs.Outcome
import ObjectGraph.Schema.Registry

/-! # Registries that were built

What the checks of a draft say about the registry that is built from it.  A requested field is
answered in one of three ways (`Registry.resolve_ok`); the mapping that it comes from is never an
alias (`Draft.resolve_unaliased`), since an alias leads to a mapped field that is none. -/

namespace ObjectGraph

namespace Schema

/-- The mapping of a field is no alias. -/
def Resolved.Unaliased (resolved : Resolved) : Prop :=
  ∀ m field view, resolved.mapping = some m → m.source ≠ .aliasOf field view

section

variable {ε α : Type}

theorem forM_ok {check : α → Except ε Unit} {xs : List α} :
    xs.forM check = .ok () ↔ ∀ x ∈ xs, check x = .ok () := by
  induction xs with
  | nil => exact iff_of_true rfl fun _ hx => nomatch hx
  | cons x xs ih =>
    have hcons : (x :: xs).forM check = .ok () ↔ check x = .ok () ∧ xs.forM check = .ok () :=
      Outcome.bind_ok.trans ⟨fun ⟨⟨⟩, h, hrest⟩ => ⟨h, hrest⟩, fun ⟨h, hrest⟩ => ⟨(), h, hrest⟩⟩
    rw [hcons, ih, List.forall_mem_cons]

/-- The order in which entries are checked does not matter for whether all of them pass. -/
theorem sorted_forM_ok {d : Dictionary α} {check : String × α → Except ε Unit} :
    d.sorted.forM check = .ok () ↔ ∀ entry ∈ d, check entry = .ok () := by
  rw [forM_ok]
  unfold Dictionary.sorted
  simp only [List.mem_mergeSort]

end

variable {draft : Draft} {registry : Registry}

/-- A draft whose types pass their checks is built as it stands. -/
theorem Draft.build_ok (h : draft.build = .ok registry) :
    checkTypes draft.types = .ok () ∧ registry = ⟨draft.types, draft.exposed⟩ := by
  unfold Draft.build at h
  cases hd : draft.duplicates with
  | cons typeName rest =>
    rw [hd] at h
    cases h
  | nil =>
    rw [hd] at h
    obtain ⟨⟨⟩, htypes, h⟩ := Outcome.bind_ok.1 h
    refine ⟨htypes, ?_⟩
    cases hexposed : draft.exposed with
    | none =>
      rw [hexposed] at h
      cases h
      rfl
    | some exposed =>
      rw [hexposed] at h
      obtain ⟨_, -, h⟩ := Outcome.bind_ok.1 h
      cases h
      rfl

/-- Every mapping of a registry that was built has passed its check. -/
theorem Draft.build_checked (h : draft.build = .ok registry) {typeName field : String}
    {mapping : TypeMapping} {m : FieldMapping} (ht : registry.types.get? typeName = some mapping)
    (hf : mapping.fields.get? field = some m) :
    checkField registry.types typeName mapping field m = .ok () := by
  obtain ⟨htypes, rfl⟩ := Draft.build_ok h
  have htype := sorted_forM_ok.1 htypes _ (Dictionary.mem_of_lookup ht)
  exact sorted_forM_ok.1 htype _ (Dictionary.mem_of_lookup hf)

/-- Every exposed field of a registry that was built has passed its check. -/
theorem Draft.build_exposed (h : draft.build = .ok registry) {exposed : Exposure}
    (he : registry.exposed = some exposed) {typeName field : String}
    {fields : Dictionary ExposedKind} {kind : ExposedKind}
    (ht : exposed.get? typeName = some fields) (hf : fields.get? field = some kind) :
    ∃ mapping, registry.types.get? typeName = some mapping ∧
      checkExposedField registry.types typeName mapping field kind = .ok () := by
  obtain ⟨-, rfl⟩ := Draft.build_ok h
  obtain ⟨types, exposed', duplicates⟩ := draft
  cases he
  have hexposure : checkExposure types exposed = .ok () := by
    unfold Draft.build at h
    cases duplicates with
    | cons typeName rest => cases h
    | nil =>
      obtain ⟨⟨⟩, -, h⟩ := Outcome.bind_ok.1 h
      obtain ⟨⟨⟩, hexposure, -⟩ := Outcome.bind_ok.1 h
      exact hexposure
  have htype := sorted_forM_ok.1 hexposure _ (Dictionary.mem_of_lookup ht)
  dsimp only at htype ⊢
  cases hmapping : types.get? typeName with
  | none =>
    rw [hmapping] at htype
    cases htype
  | some mapping =>
    rw [hmapping] at htype
    exact ⟨mapping, rfl, sorted_forM_ok.1 htype _ (Dictionary.mem_of_lookup hf)⟩

/-- Types with fields that pass their checks are a registry, if no fields are exposed. -/
theorem Draft.build_of_checked {types : Dictionary TypeMapping}
    (h : ∀ entry ∈ types, ∀ field ∈ entry.2.fields,
      checkField types entry.1 entry.2 field.1 field.2 = .ok ()) :
    ({ types } : Draft).build = .ok ⟨types, none⟩ := by
  have htypes : checkTypes types = .ok () :=
    sorted_forM_ok.2 fun entry he => sorted_forM_ok.2 fun field hf => h entry he field hf
  unfold Draft.build
  change (checkTypes types >>= _) = _
  rw [htypes]
  rfl

/-- What an alias leads to is no alias. -/
theorem checkAlias_ok {types : Dictionary TypeMapping} {fields : Dictionary FieldMapping}
    {typeName field target : String} {view : Option String} {m : FieldMapping}
    (h : checkAlias types typeName field fields target view = .ok ())
    (hm : fields.get? target = some m) (other : String) (otherView : Option String) :
    m.source ≠ .aliasOf other otherView := by
  intro hsource
  unfold checkAlias at h
  split at h
  · cases h
  · simp only [hm, hsource] at h
    cases h

/-- How a field is answered: it is not mapped, mapped, or the alias of a mapped field. -/
inductive Answers (fields : Dictionary FieldMapping) (field : String) : Resolved → Prop
  | unmapped : fields.get? field = none → Answers fields field { mapping := none, field }
  | mapped {m : FieldMapping} : fields.get? field = some m →
      (∀ target view, m.source ≠ .aliasOf target view) →
      Answers fields field { mapping := some m, field }
  | aliased {m other : FieldMapping} {target : String} {view : Option String} :
      fields.get? field = some m → m.source = .aliasOf target view →
      fields.get? target = some other →
      Answers fields field
        { mapping := some other, field := target, view, aliasMapping := some m }

theorem Registry.resolve_ok {typeName field : String} {resolved : Resolved}
    (h : registry.resolve typeName field = .ok resolved) :
    ∃ mapping, registry.lookup typeName = .ok mapping ∧ Answers mapping.fields field resolved := by
  unfold Registry.resolve at h
  obtain ⟨mapping, hl, h⟩ := Outcome.bind_ok.1 h
  refine ⟨mapping, hl, ?_⟩
  change (if (!registry.lists typeName field) = true then _ else _) = _ at h
  split at h
  · cases h
  · cases hf : mapping.fields.get? field with
    | none =>
      simp only [hf] at h
      cases h
      exact .unmapped hf
    | some m =>
      simp only [hf] at h
      cases hsource : m.source with
      | aliasOf target view =>
        simp only [hsource] at h
        cases htarget : mapping.fields.get? target with
        | none =>
          simp only [htarget] at h
          cases h
        | some other =>
          simp only [htarget] at h
          cases h
          exact .aliased hf hsource htarget
      | column name | computed computed | relation relation =>
        simp only [hsource] at h
        cases h
        refine .mapped hf fun target view halias => ?_
        rw [hsource] at halias
        cases halias

theorem Registry.lookup_ok {typeName : String} {mapping : TypeMapping} :
    registry.lookup typeName = .ok mapping ↔ registry.types.get? typeName = some mapping := by
  unfold Registry.lookup
  cases registry.types.get? typeName with
  | none =>
    constructor
    · intro h
      cases h
    · intro h
      cases h
  | some found =>
    constructor
    · intro h
      cases h
      rfl
    · intro h
      cases h
      rfl

/-- What a field is checked for, by its source. -/
theorem Draft.build_source (h : draft.build = .ok registry) {typeName field : String}
    {mapping : TypeMapping} {m : FieldMapping} (hl : registry.lookup typeName = .ok mapping)
    (hf : mapping.fields.get? field = some m) :
    (match m.source with
      | .relation r => checkTarget registry.types typeName field r.target
      | .aliasOf target view => checkAlias registry.types typeName field mapping.fields target view
      | .column _ | .computed _ => .ok ()) = .ok () := by
  have hchecked := Draft.build_checked h (Registry.lookup_ok.1 hl) hf
  unfold checkField at hchecked
  obtain ⟨⟨⟩, -, hchecked⟩ := Outcome.bind_ok.1 hchecked
  obtain ⟨⟨⟩, -, hchecked⟩ := Outcome.bind_ok.1 hchecked
  exact hchecked

/-- A requested field is never resolved to an alias. -/
theorem Draft.resolve_unaliased (h : draft.build = .ok registry) {typeName field : String}
    {resolved : Resolved} (hr : registry.resolve typeName field = .ok resolved) :
    resolved.Unaliased := by
  obtain ⟨mapping, hl, hanswer⟩ := Registry.resolve_ok hr
  cases hanswer with
  | unmapped _ => exact fun _ _ _ hm => absurd hm (Option.some_ne_none _).symm
  | mapped _ hunaliased =>
    rintro _ target view ⟨⟩
    exact hunaliased target view
  | aliased hf hsource htarget =>
    have hchecked := Draft.build_source h hl hf
    rw [hsource] at hchecked
    rintro _ other view ⟨⟩
    exact checkAlias_ok hchecked htarget other view

theorem FieldMapping.relation_ok {m : FieldMapping} {relation : Relation}
    (h : m.relation? = some relation) : m.source = .relation relation := by
  unfold FieldMapping.relation? at h
  split at h
  · next hsource => exact hsource.trans (congrArg FieldSource.relation (Option.some.inj h))
  · cases h

theorem checkTarget_ok {types : Dictionary TypeMapping} {typeName field target : String}
    (h : checkTarget types typeName field target = .ok ()) :
    ∃ mapping, types.get? target = some mapping := by
  unfold checkTarget Dictionary.has at h
  split at h
  · next hhas => exact Option.isSome_iff_exists.1 hhas
  · cases h

/-- A relation leads to a registered type, also where an alias views it as another. -/
theorem Draft.target_registered (h : draft.build = .ok registry) {typeName field : String}
    {resolved : Resolved} {relation : Relation}
    (hr : registry.resolve typeName field = .ok resolved)
    (hn : resolved.relation? = some relation) :
    ∃ mapping, registry.lookup (resolved.view.getD relation.target) = .ok mapping := by
  simp only [Registry.lookup_ok]
  obtain ⟨mapping, hl, hanswer⟩ := Registry.resolve_ok hr
  cases hanswer with
  | unmapped _ => cases hn
  | mapped hf _ =>
    have hsource := FieldMapping.relation_ok hn
    have hchecked := Draft.build_source h hl hf
    rw [hsource] at hchecked
    exact checkTarget_ok hchecked
  | @aliased m other target view hf halias htarget =>
    have hsource := FieldMapping.relation_ok hn
    cases view with
    | none =>
      have hchecked := Draft.build_source h hl htarget
      rw [hsource] at hchecked
      exact checkTarget_ok hchecked
    | some view =>
      have hchecked := Draft.build_source h hl hf
      rw [halias] at hchecked
      unfold checkAlias at hchecked
      simp only [htarget, hsource] at hchecked
      split at hchecked
      · cases hchecked
      · exact checkTarget_ok hchecked

end Schema

end ObjectGraph
