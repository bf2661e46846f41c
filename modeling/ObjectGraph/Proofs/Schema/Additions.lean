import Mathlib.Data.List.Perm.Basic
import ObjectGraph.Proofs.Schema.Built

/-! # Additions to a draft

A draft is made by adding types, each with its fields, and exposed fields (`Addition`).  Where
nothing is added twice (`Addition.Distinct`), the draft holds what was added (`Draft.Holds`), so
that the order of additions (`Addition.Reordered`) does not show in what is found under a name. -/

namespace ObjectGraph

namespace Schema

/-- An addition to a draft. -/
inductive Addition
  /-- A type, whose fields are added in the order in which its mapping has them. -/
  | type (typeName : String) (mapping : TypeMapping)
  | exposed (typeName field : String) (kind : ExposedKind)

/-- A mapping whose fields were added one after the other. -/
def TypeMapping.assembled (m : TypeMapping) : TypeMapping :=
  { m with fields := Dictionary.ofList m.fields }

namespace Addition

/-- Make an addition. -/
def addTo (d : Draft) : Addition → Draft
  | .type typeName mapping => d.register typeName mapping.assembled
  | .exposed typeName field kind => d.expose typeName field kind

/-- What an addition is about: a type, or an exposed field of a type. -/
def subject : Addition → String × Option String
  | .type typeName _ => (typeName, none)
  | .exposed typeName field _ => (typeName, some field)

/-- Nothing is added twice: no type, no field to a type and no exposed field. -/
structure Distinct (additions : List Addition) : Prop where
  subjects : (additions.map subject).Nodup
  fields : ∀ typeName mapping, .type typeName mapping ∈ additions → mapping.fields.keys.Nodup

/-- The same addition, with the fields of a type in any order. -/
inductive Alike : Addition → Addition → Prop
  | type {typeName : String} {mapping : TypeMapping} {fields : Dictionary FieldMapping} :
      mapping.fields.Perm fields →
      Alike (.type typeName mapping) (.type typeName { mapping with fields })
  | exposed {typeName field : String} {kind : ExposedKind} :
      Alike (.exposed typeName field kind) (.exposed typeName field kind)

/-- The same additions in any order. -/
def Reordered (additions additions' : List Addition) : Prop :=
  ∃ between, additions.Perm between ∧ List.Forall₂ Alike between additions'

end Addition

open Addition (Distinct Reordered)

/-- The draft that additions make. -/
def Draft.ofAdditions (additions : List Addition) : Draft := additions.foldl Addition.addTo {}

/-- The exposed fields of a type. -/
def Draft.exposedOf (d : Draft) (typeName : String) : Dictionary ExposedKind :=
  ((d.exposed.getD []).get? typeName).getD []

/-- What a draft holds that is made by some additions. -/
structure Draft.Holds (d : Draft) (additions : List Addition) : Prop where
  duplicates : d.duplicates = []
  types_nodup : d.types.keys.Nodup
  types : ∀ typeName mapping,
    d.types.get? typeName = some mapping ↔ .type typeName mapping ∈ additions
  unexposed : d.exposed = none ↔ ∀ typeName field kind, .exposed typeName field kind ∉ additions
  exposed_nodup : (d.exposed.getD []).keys.Nodup
  exposed_ne_nil : ∀ typeName fields,
    (d.exposed.getD []).get? typeName = some fields → fields ≠ []
  fields_nodup : ∀ typeName, (d.exposedOf typeName).keys.Nodup
  exposed : ∀ typeName field kind, (d.exposedOf typeName).get? field = some kind ↔
    .exposed typeName field kind ∈ additions

theorem TypeMapping.assembled_of_nodup {m : TypeMapping} (h : m.fields.keys.Nodup) :
    m.assembled = m := by
  unfold TypeMapping.assembled
  rw [Dictionary.ofList_of_nodup h]

variable {additions additions' : List Addition} {d : Draft}

theorem Addition.Distinct.init {addition : Addition} (h : Distinct (additions ++ [addition])) :
    Distinct additions ∧ addition.subject ∉ additions.map Addition.subject := by
  obtain ⟨hsubjects, hfields⟩ := h
  rw [List.map_append, List.nodup_append] at hsubjects
  refine ⟨⟨hsubjects.1, fun t m hm => hfields t m (List.mem_append_left _ hm)⟩, fun hmem => ?_⟩
  exact hsubjects.2.2 _ hmem _ List.mem_cons_self rfl

/-- Adding a type that is not there yet. -/
theorem Draft.Holds.register (h : d.Holds additions) {typeName : String} {mapping : TypeMapping}
    (hnew : (Addition.type typeName mapping).subject ∉ additions.map Addition.subject) :
    (d.register typeName mapping).Holds (additions ++ [.type typeName mapping]) := by
  have hfresh : ∀ m, .type typeName m ∉ additions := fun m hm =>
    hnew (List.mem_map.2 ⟨_, hm, rfl⟩)
  have hnotMem : typeName ∉ d.types.keys := by
    intro hmem
    obtain ⟨⟨t, m⟩, hm, rfl⟩ := List.mem_map.1 hmem
    exact hfresh m ((h.types t m).1 (Dictionary.lookup_of_mem h.types_nodup hm))
  have hnone : d.types.get? typeName = none := Dictionary.lookup_eq_none hnotMem
  have hregister : d.register typeName mapping =
      { d with types := d.types.insert typeName mapping } := by
    unfold Draft.register Dictionary.has
    rw [hnone, Dictionary.insert_of_not_mem hnotMem]
    rfl
  rw [hregister]
  constructor
  case duplicates => exact h.duplicates
  case types_nodup => exact Dictionary.nodup_insert h.types_nodup
  case types =>
    intro t m
    rw [Dictionary.get?_insert, List.mem_append, List.mem_singleton, ← h.types t m]
    by_cases ht : t = typeName
    · subst ht
      simp [hnone, eq_comm]
    · simp [ht]
  case unexposed => simpa using h.unexposed
  case exposed_nodup => exact h.exposed_nodup
  case exposed_ne_nil => exact h.exposed_ne_nil
  case fields_nodup => exact h.fields_nodup
  case exposed =>
    intro t f k
    rw [List.mem_append, List.mem_singleton, or_iff_left nofun]
    exact h.exposed t f k

/-- Exposing a field that is not exposed yet. -/
theorem Draft.Holds.expose (h : d.Holds additions) {typeName field : String} {kind : ExposedKind}
    (hnew : (Addition.exposed typeName field kind).subject ∉ additions.map Addition.subject) :
    (d.expose typeName field kind).Holds (additions ++ [.exposed typeName field kind]) := by
  have hfresh : ∀ k, .exposed typeName field k ∉ additions := fun k hk =>
    hnew (List.mem_map.2 ⟨_, hk, rfl⟩)
  have hof : ∀ t, (d.expose typeName field kind).exposedOf t =
      if t = typeName then (d.exposedOf typeName).insert field kind else d.exposedOf t := by
    intro t
    unfold Draft.expose Draft.exposedOf
    rw [Option.getD_some, Dictionary.get?_insert]
    split
    · rfl
    · rfl
  constructor
  case duplicates => exact h.duplicates
  case types_nodup => exact h.types_nodup
  case types =>
    intro t m
    rw [List.mem_append, List.mem_singleton, or_iff_left nofun]
    exact h.types t m
  case unexposed =>
    refine iff_of_false nofun fun hnone => ?_
    exact hnone typeName field kind (List.mem_append_right _ List.mem_cons_self)
  case exposed_nodup => exact Dictionary.nodup_insert h.exposed_nodup
  case exposed_ne_nil =>
    intro t fields hget
    unfold Draft.expose at hget
    rw [Option.getD_some, Dictionary.get?_insert] at hget
    split at hget
    · cases hget
      intro hnil
      have hkind := Dictionary.get?_insert
        (((d.exposed.getD []).get? typeName).getD []) field field kind
      rw [hnil, if_pos rfl] at hkind
      cases hkind
    · exact h.exposed_ne_nil t fields hget
  case fields_nodup =>
    intro t
    rw [hof]
    split
    · exact Dictionary.nodup_insert (h.fields_nodup typeName)
    · exact h.fields_nodup t
  case exposed =>
    intro t f k
    rw [hof, List.mem_append, List.mem_singleton, ← h.exposed t f k]
    by_cases ht : t = typeName
    · subst ht
      rw [if_pos rfl, Dictionary.get?_insert]
      by_cases hf : f = field
      · subst hf
        have hnone : (d.exposedOf t).get? f ≠ some k := fun hk => hfresh k ((h.exposed t f k).1 hk)
        simp [hnone, eq_comm]
      · simp [hf]
    · simp [ht]

/-- What is added is what the draft holds. -/
theorem Draft.ofAdditions_holds (h : Distinct additions) :
    (Draft.ofAdditions additions).Holds additions := by
  induction additions using List.reverseRecOn with
  | nil =>
    constructor
    case duplicates => rfl
    case types_nodup => exact List.nodup_nil
    case types => exact fun _ _ => iff_of_false nofun List.not_mem_nil
    case unexposed => exact iff_of_true rfl fun _ _ _ => List.not_mem_nil
    case exposed_nodup => exact List.nodup_nil
    case exposed_ne_nil => exact fun _ _ h => nomatch h
    case fields_nodup => exact fun _ => List.nodup_nil
    case exposed => exact fun _ _ _ => iff_of_false nofun List.not_mem_nil
  | append_singleton additions addition ih =>
    obtain ⟨hinit, hnew⟩ := h.init
    have hstep : Draft.ofAdditions (additions ++ [addition]) =
        addition.addTo (Draft.ofAdditions additions) := List.foldl_concat ..
    rw [hstep]
    cases addition with
    | type typeName mapping =>
      have hnodup := h.fields typeName mapping (List.mem_append_right _ List.mem_cons_self)
      rw [Addition.addTo, TypeMapping.assembled_of_nodup hnodup]
      exact (ih hinit).register hnew
    | exposed typeName field kind => exact (ih hinit).expose hnew

/-! ### Additions in another order -/

/-- The same storage, and the same field under every name. -/
def TypeMapping.Agrees (m m' : TypeMapping) : Prop :=
  (∀ field, m.fields.get? field = m'.fields.get? field) ∧ m' = { m with fields := m'.fields }

namespace Addition

theorem Reordered.exists_alike (h : Reordered additions additions') {addition : Addition}
    (hmem : addition ∈ additions) : ∃ addition' ∈ additions', Alike addition addition' := by
  obtain ⟨between, hperm, halike⟩ := h
  exact Outcome.forall₂_mem halike (hperm.mem_iff.1 hmem)

theorem Alike.symm {addition addition' : Addition} (h : Alike addition addition') :
    Alike addition' addition := by
  cases h with
  | type hperm => exact .type hperm.symm
  | exposed => exact .exposed

theorem Alike.subject_eq {addition addition' : Addition} (h : Alike addition addition') :
    addition.subject = addition'.subject := by
  cases h with
  | type _ => rfl
  | exposed => rfl

theorem Reordered.symm (h : Reordered additions additions') : Reordered additions' additions := by
  obtain ⟨between, hperm, halike⟩ := h
  obtain ⟨between', halike', hperm'⟩ := List.perm_comp_forall₂ hperm halike
  exact ⟨between', hperm'.symm, .flip (halike'.imp fun _ _ h => h.symm)⟩

theorem Distinct.reordered (h : Distinct additions) (hr : Reordered additions additions') :
    Distinct additions' := by
  obtain ⟨between, hperm, halike⟩ := id hr
  constructor
  · have hsubjects : between.map subject = additions'.map subject := by
      clear hperm hr
      induction halike with
      | nil => rfl
      | cons hfirst _ ih => rw [List.map_cons, List.map_cons, hfirst.subject_eq, ih]
    rw [← hsubjects]
    exact (hperm.map subject).nodup_iff.1 h.subjects
  · intro t m hm
    obtain ⟨_, hmem, halike⟩ := hr.symm.exists_alike hm
    cases halike with
    | type hfields => exact (hfields.map Prod.fst).nodup_iff.2 (h.fields t _ hmem)

end Addition

section

variable (h : Distinct additions) (hr : Reordered additions additions')

include h hr

/-- A type has the same mapping whatever the order, up to the order of its fields. -/
theorem types_reordered {typeName : String} {mapping : TypeMapping}
    (hget : (Draft.ofAdditions additions).types.get? typeName = some mapping) :
    ∃ mapping', (Draft.ofAdditions additions').types.get? typeName = some mapping' ∧
      mapping.Agrees mapping' := by
  have hmem := ((Draft.ofAdditions_holds h).types typeName mapping).1 hget
  obtain ⟨_, hmem', halike⟩ := hr.exists_alike hmem
  cases halike with
  | @type _ _ fields hperm =>
    exact ⟨_, ((Draft.ofAdditions_holds (h.reordered hr)).types typeName _).2 hmem',
      Dictionary.get?_perm (h.fields typeName mapping hmem) hperm, rfl⟩

theorem has_reordered (typeName : String) :
    (Draft.ofAdditions additions).types.has typeName =
      (Draft.ofAdditions additions').types.has typeName := by
  unfold Dictionary.has
  rw [Bool.eq_iff_iff, Option.isSome_iff_exists, Option.isSome_iff_exists]
  constructor
  · rintro ⟨mapping, hget⟩
    obtain ⟨mapping', hget', -⟩ := types_reordered h hr hget
    exact ⟨mapping', hget'⟩
  · rintro ⟨mapping, hget⟩
    obtain ⟨mapping', hget', -⟩ := types_reordered (h.reordered hr) hr.symm hget
    exact ⟨mapping', hget'⟩

theorem exposedOf_reordered (typeName field : String) :
    ((Draft.ofAdditions additions).exposedOf typeName).get? field =
      ((Draft.ofAdditions additions').exposedOf typeName).get? field := by
  refine Option.ext fun kind => ?_
  rw [(Draft.ofAdditions_holds h).exposed, (Draft.ofAdditions_holds (h.reordered hr)).exposed]
  constructor
  · intro hmem
    obtain ⟨_, hmem', ⟨⟩⟩ := hr.exists_alike hmem
    exact hmem'
  · intro hmem
    obtain ⟨_, hmem', ⟨⟩⟩ := hr.symm.exists_alike hmem
    exact hmem'

end

end Schema

end ObjectGraph
