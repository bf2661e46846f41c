import ObjectGraph.Proofs.Graph.CompositeKeys
import ObjectGraph.Proofs.Lookup

/-! # Rows that cannot be unpacked

A row comes with the single related objects of its node, as objects, as their JSON texts or as
nothing, and each of them comes with its own.  `Malformed` says that something else is packed into
a row, at whatever depth: it reads the row as it is, and follows the plan down.  Unpacking fails on
these rows only (`nodesOf_error_iff`), and the rows of a follow-up cannot be added exactly if one of
them is malformed or has no key (`nodesOfRows_error_iff`). -/

namespace ObjectGraph

namespace Graph

open Plan (NodePlan FieldPlan FieldKind ManyPlan)

/-! ### Packed values -/

/-- What a packed value says: the JSON of a text, and otherwise itself. -/
def unpacked? : Json → Option Json
  | .str text => Json.parse? text
  | value => some value

/-- The plan for what a row packs under a name, which is that of the first single related object of
the name: no later one finds anything. -/
def packedPlan? : List (FieldPlan NodePlan) → String → Option NodePlan
  | [], _ => none
  | ⟨name, .single plan, _, _⟩ :: fields, key =>
    if key = name then some plan else packedPlan? fields key
  | _ :: fields, key => packedPlan? fields key

mutual

/-- Something is packed into a row that is unfit for its plan. -/
inductive Malformed : NodePlan → Row → Prop
  | packs {plan child : NodePlan} {row : Row} {name : String} {packed : Json} :
      packedPlan? plan.fields name = some child → row.get? name = some packed →
      Unfit child packed → Malformed plan row

/-- A packed value is no object and does not say that there is none, or it is a malformed one. -/
inductive Unfit : NodePlan → Json → Prop
  | value {plan : NodePlan} {packed : Json} :
      unpacked? packed ≠ some .null → (∀ members, unpacked? packed ≠ some (.obj members)) →
      Unfit plan packed
  | object {plan : NodePlan} {packed : Json} {members : Row} :
      unpacked? packed = some (.obj members) → Malformed plan members → Unfit plan packed

end

section

variable {plan : NodePlan} {packed : Json}

theorem unfit_iff_of_obj {members : Row} (h : unpacked? packed = some (.obj members)) :
    Unfit plan packed ↔ Malformed plan members := by
  constructor
  · intro hu
    cases hu with
    | value _ hobj => exact absurd h (hobj members)
    | object hobj hm =>
      cases h.symm.trans hobj
      exact hm
  · exact .object h

theorem not_unfit_of_null (h : unpacked? packed = some .null) : ¬Unfit plan packed := by
  intro hu
  cases hu with
  | value hnull _ => exact hnull h
  | object hobj _ => cases h.symm.trans hobj

theorem relatedObject_eq (typeName field : String) (packed : Json) :
    relatedObject typeName field packed = match unpacked? packed with
      | none => .error (.data typeName field .relatedText)
      | some .null => .ok none
      | some (.obj members) => .ok (some members)
      | some value => .error (.data typeName field (.notObject value)) := by
  cases packed with
  | str text =>
    cases hp : Json.parse? text with
    | none =>
      simp only [relatedObject, unpacked?, hp]
      rfl
    | some value =>
      simp only [relatedObject, unpacked?, hp]
      cases value <;> rfl
  | _ => rfl

/-- An object is unpacked, or there is none, or what is packed is unfit for any plan. -/
theorem relatedObject_cases (typeName field : String) (packed : Json) :
    (∃ members, relatedObject typeName field packed = .ok (some members) ∧
        unpacked? packed = some (.obj members)) ∨
      (relatedObject typeName field packed = .ok none ∧ unpacked? packed = some .null) ∨
      ((∃ e, relatedObject typeName field packed = .error e) ∧ ∀ plan, Unfit plan packed) := by
  rw [relatedObject_eq]
  cases hu : unpacked? packed with
  | none => exact .inr (.inr ⟨⟨_, rfl⟩, fun _ => .value (by simp [hu]) (by simp [hu])⟩)
  | some value =>
    cases value with
    | null => exact .inr (.inl ⟨rfl, rfl⟩)
    | obj members => exact .inl ⟨members, rfl, rfl⟩
    | _ => exact .inr (.inr ⟨⟨_, rfl⟩, fun _ => .value (by simp [hu]) (by simp [hu])⟩)

end

/-- Nothing is the same as a `null`. -/
theorem unfit_getD {plan : NodePlan} {row : Row} {name : String} :
    Unfit plan ((row.get? name).getD .null) ↔
      ∃ packed, row.get? name = some packed ∧ Unfit plan packed := by
  cases row.get? name with
  | none => simpa using not_unfit_of_null rfl
  | some packed => simp

/-! ### Unpacking a row -/

/-- Something is packed under one of some fields that is unfit for its plan. -/
def MalformedAt (fields : List (FieldPlan NodePlan)) (row : Row) : Prop :=
  ∃ name child packed, packedPlan? fields name = some child ∧ row.get? name = some packed ∧
    Unfit child packed

theorem malformed_iff {plan : NodePlan} {row : Row} :
    Malformed plan row ↔ MalformedAt plan.fields row := by
  constructor
  · rintro ⟨hplan, hpacked, hunfit⟩
    exact ⟨_, _, _, hplan, hpacked, hunfit⟩
  · rintro ⟨_, _, _, hplan, hpacked, hunfit⟩
    exact .packs hplan hpacked hunfit

section

variable {field : FieldPlan NodePlan} {fields : List (FieldPlan NodePlan)} {row : Row}

theorem packedPlan?_cons_of_not_single (field : FieldPlan NodePlan)
    (h : ∀ child, field.kind ≠ .single child) (key : String) :
    packedPlan? (field :: fields) key = packedPlan? fields key := by
  obtain ⟨name, kind, _, _⟩ := field
  cases kind with
  | single child => exact absurd rfl (h child)
  | _ => rfl

/-- What a field does not take out is left to the others. -/
theorem malformedAt_cons : MalformedAt (field :: fields) row ↔
    (∃ child, field.kind = .single child ∧ Unfit child ((row.get? field.name).getD .null)) ∨
      MalformedAt fields (without field row) := by
  obtain ⟨name, kind, json, transform⟩ := field
  by_cases hsingle : ∃ child, kind = .single child
  · obtain ⟨child, rfl⟩ := hsingle
    simp only [MalformedAt, packedPlan?, without, FieldKind.single.injEq, exists_eq_left',
      unfit_getD, Dictionary.get?_erase]
    constructor
    · rintro ⟨key, plan, packed, hplan, hpacked, hunfit⟩
      split at hplan
      · next hkey =>
        cases hplan
        exact .inl ⟨packed, hkey ▸ hpacked, hunfit⟩
      · next hkey => exact .inr ⟨key, plan, packed, hplan, by rw [if_neg hkey, hpacked], hunfit⟩
    · rintro (⟨packed, hpacked, hunfit⟩ | ⟨key, plan, packed, hplan, hpacked, hunfit⟩)
      · exact ⟨name, child, packed, if_pos rfl, hpacked, hunfit⟩
      · split at hpacked
        · cases hpacked
        · next hkey => exact ⟨key, plan, packed, by rw [if_neg hkey, hplan], hpacked, hunfit⟩
  · have hkind : ∀ child, kind ≠ .single child := fun child h => hsingle ⟨child, h⟩
    have hwithout : without ⟨name, kind, json, transform⟩ row = row := by
      cases kind with
      | single child => exact absurd rfl (hkind child)
      | _ => rfl
    unfold MalformedAt
    rw [hwithout]
    simp [packedPlan?_cons_of_not_single ⟨name, kind, json, transform⟩ hkind, hkind]

end

mutual

/-- A row cannot be unpacked exactly if it is malformed. -/
theorem nodesOf_error_iff : (plan : NodePlan) → (row : Row) → (size : Nat) →
    ((∃ e, nodesOf plan row size = .error e) ↔ Malformed plan row)
  | ⟨origin, typeName, fields, many⟩, row, size => by
    rw [nodesOf, malformed_iff, ← nodesOfFields_error_iff typeName fields row size]
    exact Outcome.bind_error_of_ok fun _ => ⟨_, rfl⟩

theorem nodesOfFields_error_iff (typeName : String) : (fields : List (FieldPlan NodePlan)) →
    (row : Row) → (size : Nat) →
    ((∃ e, nodesOfFields typeName fields row size = .error e) ↔ MalformedAt fields row)
  | [], row, size => by
    constructor
    · rintro ⟨_, h⟩
      cases h
    · rintro ⟨_, _, _, h, -⟩
      cases h
  | field :: fields, row, size => by
    have hfirst := nodesOfField_error_iff typeName field row size
    rw [nodesOfFields, Outcome.bind_error, hfirst, malformedAt_cons]
    cases hfield : nodesOfField typeName field row size with
    | error e => simp [hfirst.1 ⟨e, hfield⟩]
    | ok p =>
      obtain ⟨nodes, row', link⟩ := p
      rw [← nodesOfField_row hfield,
        ← nodesOfFields_error_iff typeName fields row' (size + nodes.length)]
      simp only [Except.ok.injEq, exists_eq_left']
      exact or_congr_right (Outcome.bind_error_of_ok fun _ => ⟨_, rfl⟩)

theorem nodesOfField_error_iff (typeName : String) : (field : FieldPlan NodePlan) → (row : Row) →
    (size : Nat) → ((∃ e, nodesOfField typeName field row size = .error e) ↔
      ∃ child, field.kind = .single child ∧ Unfit child ((row.get? field.name).getD .null))
  | ⟨name, kind, _, _⟩, row, size => nodesOfKind_error_iff typeName name kind row size

theorem nodesOfKind_error_iff (typeName name : String) : (kind : FieldKind NodePlan) →
    (row : Row) → (size : Nat) → ((∃ e, nodesOfKind typeName name kind row size = .error e) ↔
      ∃ child, kind = .single child ∧ Unfit child ((row.get? name).getD .null))
  | .value, row, size => by
    constructor
    · rintro ⟨_, h⟩
      cases h
    · rintro ⟨_, h, -⟩
      cases h
  | .many _, row, size => by
    constructor
    · rintro ⟨_, h⟩
      cases h
    · rintro ⟨_, h, -⟩
      cases h
  | .single plan, row, size => by
    rw [nodesOfKind]
    simp only [FieldKind.single.injEq, exists_eq_left']
    rcases relatedObject_cases typeName name ((row.get? name).getD .null) with
      ⟨members, hok, hobj⟩ | ⟨hok, hnull⟩ | ⟨⟨e, herror⟩, hunfit⟩
    · rw [hok, unfit_iff_of_obj hobj, ← nodesOf_error_iff plan members size]
      exact Outcome.bind_error_of_ok fun _ => ⟨_, rfl⟩
    · rw [hok]
      refine iff_of_false ?_ (not_unfit_of_null hnull)
      rintro ⟨_, h⟩
      cases h
    · rw [herror]
      exact iff_of_true ⟨e, rfl⟩ (hunfit plan)

end

/-! ### The rows of a follow-up -/

theorem keyValues?_eq_none_iff {row : Row} {labels : List String} :
    keyValues? row labels = none ↔
      ∃ label ∈ labels, ∀ value, row.get? label = some value → value = .null := by
  unfold keyValues?
  induction labels with
  | nil => simp
  | cons label labels ih =>
    have hfirst : ((row.get? label).filter fun value => !value.isNull) = none ↔
        ∀ value, row.get? label = some value → value = .null := by
      rw [Option.filter_eq_none_iff]
      refine forall_congr' fun value => imp_congr_right fun _ => ?_
      cases value <;> simp [Json.isNull]
    rw [List.mapM_cons, List.exists_mem_cons_iff, ← ih, ← hfirst]
    cases (row.get? label).filter fun value => !value.isNull with
    | none => exact iff_of_true rfl (.inl rfl)
    | some value =>
      rw [or_iff_right (Option.some_ne_none value)]
      cases labels.mapM fun label => (row.get? label).filter fun value => !value.isNull <;> simp

/-- The rows of a follow-up cannot be added exactly if one of them has no value under some label of
the key of its parent, or is malformed. -/
theorem nodesOfRows_error_iff (relation : ManyPlan) {plan : NodePlan} {labels : List String}
    {rows : List Row} (size : Nat) :
    (∃ e, nodesOfRows relation plan labels rows size = .error e) ↔
      ∃ row ∈ rows,
        (∃ label ∈ labels, ∀ value, row.get? label = some value → value = .null) ∨
          Malformed plan row := by
  induction rows generalizing size with
  | nil =>
    constructor
    · rintro ⟨_, h⟩
      cases h
    · rintro ⟨_, h, -⟩
      cases h
  | cons row rows ih =>
    rw [List.exists_mem_cons_iff, nodesOfRows, ← keyValues?_eq_none_iff]
    cases hkey : rowKey? row labels with
    | none =>
      have hvalues : keyValues? row labels = none := by
        by_contra hne
        obtain ⟨key, hk⟩ := rowKey?_eq_some_iff.2 (Option.ne_none_iff_exists'.1 hne)
        cases hkey.symm.trans hk
      exact iff_of_true ⟨_, rfl⟩ (.inl (.inl hvalues))
    | some key =>
      obtain ⟨values, hvalues⟩ := rowKey?_eq_some_iff.1 ⟨key, hkey⟩
      have hsome : keyValues? row labels ≠ none := by simp [hvalues]
      rw [or_iff_right hsome, ← nodesOf_error_iff plan row size]
      refine Outcome.bind_error.trans ?_
      cases nodesOf plan row size with
      | error e => exact iff_of_true (.inl ⟨e, rfl⟩) (.inl ⟨e, rfl⟩)
      | ok nodes =>
        rw [← ih (size + nodes.length)]
        simp only [Except.ok.injEq, exists_eq_left']
        exact or_congr_right (Outcome.bind_error_of_ok fun _ => ⟨_, rfl⟩)

end Graph

end ObjectGraph
