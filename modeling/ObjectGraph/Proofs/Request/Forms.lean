import ObjectGraph.Proofs.Lookup
import ObjectGraph.Request.Reader

/-! # The forms of a request

A field is given by its name, or by a record with its name and, for a relation, a selection; an
absent selection may be `null`, and other members do not matter (`Selection.Spells`).  The members
of a request are given by name or by position; those that have a default may be missing, and an
ordering or limit may be `null` (`Request.Describes`).

The reader accepts exactly these forms (`Selection.ofJson?_iff`, `Request.ofJson?_iff`). -/

namespace ObjectGraph

theorem Json.bind_text? {value? : Option Json} {text : String} :
    value?.bind Json.text? = some text ↔ value? = some (.str text) := by
  constructor
  · intro h
    obtain ⟨value, rfl, htext⟩ := Option.bind_eq_some_iff.1 h
    cases value with
    | str _ =>
      cases htext
      rfl
    | _ => cases htext
  · rintro rfl
    rfl

namespace Selection

/-! ### Fields -/

mutual

/-- A value stands for a field. -/
inductive Spells : Json → Selection → Prop
  | name (name : String) : Spells (.str name) (.scalar name)
  | scalar {members : List (String × Json)} {name : String} :
      members.lookup "name" = some (.str name) →
      members.lookup "fields" = none ∨ members.lookup "fields" = some .null →
      Spells (.obj members) (.scalar name)
  | nested {members : List (String × Json)} {name : String} {items : List Json}
      {fields : List Selection} :
      members.lookup "name" = some (.str name) →
      members.lookup "fields" = some (.arr items) → SpellsAll items fields →
      Spells (.obj members) (.nested name fields)

/-- Values stand for fields, one for each. -/
inductive SpellsAll : List Json → List Selection → Prop
  | nil : SpellsAll [] []
  | cons {item : Json} {items : List Json} {field : Selection} {fields : List Selection} :
      Spells item field → SpellsAll items fields → SpellsAll (item :: items) (field :: fields)

end

/-- The selection is what is found under its key. -/
theorem selectionIn_eq (members : List (String × Json)) :
    selectionIn members = match members.lookup "fields" with
      | none | some .null => some none
      | some (.arr items) => (ofItems? items).map some
      | some _ => none := by
  induction members with
  | nil => rfl
  | cons member members ih =>
    obtain ⟨key, value⟩ := member
    unfold selectionIn
    rw [Dictionary.lookup_cons_eq]
    by_cases hkey : key = "fields"
    · rw [if_pos hkey, if_pos hkey]
      cases value <;> rfl
    · rw [if_neg hkey, if_neg hkey]
      exact ih

mutual

theorem Spells.read {value : Json} {field : Selection} : Spells value field →
    ofJson? value = some field
  | .name _ => rfl
  | .scalar hname habsent => by
    rw [ofJson?, hname, selectionIn_eq]
    rcases habsent with h | h
    · rw [h]
      rfl
    · rw [h]
      rfl
  | .nested hname hfields hitems => by
    rw [ofJson?, hname, selectionIn_eq, hfields]
    simp only [hitems.read]
    rfl

theorem SpellsAll.read {items : List Json} {fields : List Selection} : SpellsAll items fields →
    ofItems? items = some fields
  | .nil => rfl
  | .cons hitem hitems => by
    rw [ofItems?, hitem.read, hitems.read]
    rfl

end

-- The induction is on the value, so the selection has to be met on the way through the members; its
-- lookup (`selectionIn_eq`) tells nothing of its size.
mutual

theorem spells_of_read : (value : Json) → {field : Selection} → ofJson? value = some field →
    Spells value field
  | .str name, _, h => by
    cases h
    exact .name name
  | .obj members, field, h => by
    unfold ofJson? at h
    obtain ⟨name, hname, h⟩ := Option.bind_eq_some_iff.1 h
    obtain ⟨selection, hselection, h⟩ := Option.bind_eq_some_iff.1 h
    have hname := Json.bind_text?.1 hname
    obtain ⟨habsent, rfl⟩ | ⟨items, fields, hfields, hitems, rfl⟩ :=
      selection_of_read members hselection
    · cases h
      exact .scalar hname habsent
    · cases h
      exact .nested hname hfields hitems
  | .null, _, h => nomatch h
  | .bool _, _, h => nomatch h
  | .num _, _, h => nomatch h
  | .arr _, _, h => nomatch h

theorem selection_of_read : (members : List (String × Json)) →
    {selection : Option (List Selection)} → selectionIn members = some selection →
    ((members.lookup "fields" = none ∨ members.lookup "fields" = some .null) ∧
        selection = none) ∨
      ∃ items fields, members.lookup "fields" = some (.arr items) ∧ SpellsAll items fields ∧
        selection = some fields
  | [], _, h => by
    cases h
    exact .inl ⟨.inl rfl, rfl⟩
  | (key, value) :: rest, selection, h => by
    unfold selectionIn at h
    rw [Dictionary.lookup_cons_eq]
    by_cases hkey : key = "fields"
    · rw [if_pos hkey] at h ⊢
      cases value with
      | arr items =>
        obtain ⟨fields, hfields, rfl⟩ := Option.map_eq_some_iff.1 h
        exact .inr ⟨items, fields, rfl, spellsAll_of_read items hfields, rfl⟩
      | null =>
        cases h
        exact .inl ⟨.inr rfl, rfl⟩
      | _ => cases h
    · rw [if_neg hkey] at h ⊢
      exact selection_of_read rest h

theorem spellsAll_of_read : (items : List Json) → {fields : List Selection} →
    ofItems? items = some fields → SpellsAll items fields
  | [], _, h => by
    cases h
    exact .nil
  | item :: items, fields, h => by
    unfold ofItems? at h
    obtain ⟨field, hfield, h⟩ := Option.bind_eq_some_iff.1 h
    obtain ⟨rest, hrest, h⟩ := Option.bind_eq_some_iff.1 h
    cases h
    exact .cons (spells_of_read item hfield) (spellsAll_of_read items hrest)

end

theorem ofJson?_iff {value : Json} {field : Selection} :
    ofJson? value = some field ↔ Spells value field :=
  ⟨spells_of_read value, Spells.read⟩

theorem ofItems?_iff {items : List Json} {fields : List Selection} :
    ofItems? items = some fields ↔ SpellsAll items fields :=
  ⟨spellsAll_of_read items, SpellsAll.read⟩

end Selection

namespace Request

open Sql (SortOrder)

/-! ### Members -/

section

variable {α : Type} (members : Object) (name : String) (R : Json → α → Prop)

/-- A member stands for something, or is missing and has its default. -/
def Defaults (default x : α) : Prop :=
  (members.get? name = none ∧ x = default) ∨ ∃ value, members.get? name = some value ∧ R value x

/-- A member stands for something, or is missing or `null`. -/
def MayStand : Option α → Prop
  | none => members.get? name = none ∨ members.get? name = some .null
  | some x => ∃ value, members.get? name = some value ∧ value ≠ .null ∧ R value x

variable {members name R} {f : Json → Option α} (hf : ∀ {value x}, f value = some x ↔ R value x)

include hf

theorem defaulted?_iff {default x : α} :
    defaulted? members name default f = some x ↔ Defaults members name R default x := by
  unfold defaulted? Defaults
  cases members.get? name with
  | none => simp [eq_comm]
  | some value => simp [hf]

theorem optional?_iff {x : Option α} :
    optional? members name f = some x ↔ MayStand members name R x := by
  unfold optional?
  constructor
  · intro h
    split at h
    · next hmember =>
      cases h
      exact .inl hmember
    · next hmember =>
      cases h
      exact .inr hmember
    · next value hnull hmember =>
      obtain ⟨y, hy, rfl⟩ := Option.map_eq_some_iff.1 h
      exact ⟨value, hmember, hnull, hf.1 hy⟩
  · intro h
    cases x with
    | none =>
      rcases h with hmember | hmember
      · rw [hmember]
      · rw [hmember]
    | some x =>
      obtain ⟨value, hmember, hnull, hx⟩ := h
      rw [hmember]
      have hread := hf.2 hx
      cases value with
      | null => exact absurd rfl hnull
      | _ => exact congrArg (Option.map some) hread

end

/-! ### Requests -/

/-- A value stands for a direction: its name, alone or as the only key of a record. -/
inductive SpellsOrder : Json → SortOrder → Prop
  | name {name : String} {order : SortOrder} :
      SortOrder.ofName? name = some order → SpellsOrder (.str name) order
  | tag {name : String} {order : SortOrder} :
      SortOrder.ofName? name = some order → SpellsOrder (.obj [(name, .null)]) order

/-- A value stands for an ordering, ascending unless it says otherwise. -/
def SpellsOrderBy (value : Json) (o : String × SortOrder) : Prop :=
  ∃ members : Object, members? ["column", "order"] value = some members ∧
    members.get? "column" = some (.str o.1) ∧ Defaults members "order" SpellsOrder .asc o.2

/-- A value is a list of values that stand for fields. -/
def SpellsFields (value : Json) (fields : List Selection) : Prop :=
  ∃ items, value = .arr items ∧ Selection.SpellsAll items fields

/-- What the members of a request are. -/
structure MembersFor (members : Object) (r : Request) : Prop where
  typeName : members.get? "type" = some (.str r.typeName)
  fields : Defaults members "fields" SpellsFields [] r.fields
  filter : Defaults members "filter" (fun value filter => value = .obj filter) [] r.filter
  orderBy : MayStand members "order_by" SpellsOrderBy r.orderBy
  limit : MayStand members "limit" (fun value n => value = Json.ofNat n ∧ n < 2 ^ 64) r.limit

/-- A value describes a request. -/
def Describes (value : Json) (r : Request) : Prop :=
  ∃ members, members? ["type", "fields", "filter", "order_by", "limit"] value = some members ∧
    MembersFor members r

theorem order?_iff {value : Json} {order : SortOrder} :
    order? value = some order ↔ SpellsOrder value order := by
  constructor
  · intro h
    unfold order? at h
    split at h
    · exact .name h
    · exact .tag h
    · cases h
  · rintro (h | h)
    · exact h
    · exact h

theorem orderBy?_iff {value : Json} {o : String × SortOrder} :
    orderBy? value = some o ↔ SpellsOrderBy value o := by
  unfold orderBy? SpellsOrderBy
  constructor
  · intro h
    obtain ⟨members, hmembers, h⟩ := Option.bind_eq_some_iff.1 h
    obtain ⟨column, hcolumn, h⟩ := Option.bind_eq_some_iff.1 h
    obtain ⟨order, horder, h⟩ := Option.bind_eq_some_iff.1 h
    cases h
    exact ⟨members, hmembers, Json.bind_text?.1 hcolumn, (defaulted?_iff order?_iff).1 horder⟩
  · rintro ⟨members, hmembers, hcolumn, horder⟩
    rw [hmembers]
    change (((members.get? "column").bind Json.text?).bind fun column =>
      (defaulted? members "order" .asc order?).bind fun order => some (column, order)) = some o
    rw [Json.bind_text?.2 hcolumn, (defaulted?_iff order?_iff).2 horder]
    rfl

theorem fields?_iff {value : Json} {fields : List Selection} :
    value.items?.bind Selection.ofItems? = some fields ↔ SpellsFields value fields := by
  constructor
  · intro h
    obtain ⟨items, hitems, h⟩ := Option.bind_eq_some_iff.1 h
    cases value with
    | arr _ =>
      cases hitems
      exact ⟨items, rfl, Selection.ofItems?_iff.1 h⟩
    | _ => cases hitems
  · rintro ⟨items, rfl, hfields⟩
    exact Selection.ofItems?_iff.2 hfields

theorem object?_iff {value : Json} {filter : Object} :
    value.object? = some filter ↔ value = .obj filter := by
  constructor
  · intro h
    cases value with
    | obj _ =>
      cases h
      rfl
    | _ => cases h
  · rintro rfl
    rfl

theorem word?_iff {value : Json} {n : Nat} :
    value.word? = some n ↔ value = Json.ofNat n ∧ n < 2 ^ 64 := by
  constructor
  · intro h
    unfold Json.word? at h
    split at h
    · next m =>
      split at h
      · next hm =>
        cases h
        have hcast : (m.toNat : Int) = m := Int.toNat_of_nonneg hm.1
        exact ⟨by rw [Json.ofNat, hcast], by omega⟩
      · cases h
    · cases h
  · rintro ⟨rfl, hlt⟩
    have hrange : 0 ≤ (n : Int) ∧ (n : Int) < 2 ^ 64 := by omega
    simp only [Json.ofNat, Json.word?, if_pos hrange, Int.toNat_natCast]

theorem ofJson?_iff {value : Json} {r : Request} :
    ofJson? value = some r ↔ Describes value r := by
  unfold ofJson? Describes
  constructor
  · intro h
    obtain ⟨members, hmembers, h⟩ := Option.bind_eq_some_iff.1 h
    obtain ⟨typeName, htype, h⟩ := Option.bind_eq_some_iff.1 h
    obtain ⟨fields, hfields, h⟩ := Option.bind_eq_some_iff.1 h
    obtain ⟨filter, hfilter, h⟩ := Option.bind_eq_some_iff.1 h
    obtain ⟨orderBy, horderBy, h⟩ := Option.bind_eq_some_iff.1 h
    obtain ⟨limit, hlimit, h⟩ := Option.bind_eq_some_iff.1 h
    cases h
    refine ⟨members, hmembers, Json.bind_text?.1 htype, ?_, ?_, ?_, ?_⟩
    · exact (defaulted?_iff fields?_iff).1 hfields
    · exact (defaulted?_iff object?_iff).1 hfilter
    · exact (optional?_iff orderBy?_iff).1 horderBy
    · exact (optional?_iff word?_iff).1 hlimit
  · rintro ⟨members, hmembers, h⟩
    rw [hmembers, Option.bind_eq_bind, Option.bind_some, Json.bind_text?.2 h.typeName,
      Option.bind_eq_bind, Option.bind_some, (defaulted?_iff fields?_iff).2 h.fields,
      Option.bind_eq_bind, Option.bind_some, (defaulted?_iff object?_iff).2 h.filter,
      (optional?_iff orderBy?_iff).2 h.orderBy, (optional?_iff word?_iff).2 h.limit]
    rfl

end Request

end ObjectGraph
