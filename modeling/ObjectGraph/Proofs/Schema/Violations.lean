import ObjectGraph.Proofs.Schema.Additions
import ObjectGraph.Proofs.Schema.Checks

/-! # The first violation

Many things may be wrong with what is added to a draft (`Violation`).  Whatever order it is added
in, the outcome of building the draft is the same (`Draft.build_reordered`): the fault that comes
first when mapped fields are checked before exposed ones, both by the names of types and fields
(`FirstViolation`), or registries that answer every look-up alike (`Registry.Agrees`). -/

namespace ObjectGraph

namespace Schema

open Addition (Distinct Reordered)

variable {additions additions' : List Addition} {d : Draft}

/-! ### Violations and their places -/

/-- A place that is checked: a mapped or an exposed field of a type. -/
structure Place where
  exposed : Bool
  typeName : String
  field : String

/-- Mapped fields come before exposed ones, both by the names of types and then of fields. -/
def Place.Before (p q : Place) : Prop :=
  (p.exposed = false ∧ q.exposed = true) ∨
    (p.exposed = q.exposed ∧
      (p.typeName < q.typeName ∨ p.typeName = q.typeName ∧ p.field < q.field))

/-- What is wrong with additions, and where.  At one field its own checks decide. -/
inductive Violation (additions : List Addition) : Place → Error → Prop
  | mapped {typeName field : String} {mapping : TypeMapping} {m : FieldMapping} {e : Error} :
      .type typeName mapping ∈ additions → (field, m) ∈ mapping.fields →
      checkField (Draft.ofAdditions additions).types typeName mapping field m = .error e →
      Violation additions ⟨false, typeName, field⟩ e
  | exposed {typeName field : String} {mapping : TypeMapping} {kind : ExposedKind} {e : Error} :
      .exposed typeName field kind ∈ additions → .type typeName mapping ∈ additions →
      checkExposedField (Draft.ofAdditions additions).types typeName mapping field kind =
        .error e →
      Violation additions ⟨true, typeName, field⟩ e
  | unregistered {typeName field : String} {kind : ExposedKind} :
      .exposed typeName field kind ∈ additions →
      (∀ mapping, .type typeName mapping ∉ additions) →
      Violation additions ⟨true, typeName, field⟩ (.unknownType typeName)

/-- The violation that no other one comes before. -/
def FirstViolation (additions : List Addition) (e : Error) : Prop :=
  ∃ p, Violation additions p e ∧ ∀ q e', Violation additions q e' → ¬ q.Before p

theorem Place.Before.of_field {b : Bool} {t f g : String} (h : f < g) :
    Place.Before ⟨b, t, f⟩ ⟨b, t, g⟩ ∧ ¬ Place.Before ⟨b, t, g⟩ ⟨b, t, f⟩ := by
  refine ⟨.inr ⟨rfl, .inr ⟨rfl, h⟩⟩, ?_⟩
  rintro (⟨hg, hf⟩ | ⟨-, ht | ⟨-, hgf⟩⟩)
  · cases hg.symm.trans hf
  · exact String.lt_irrefl t ht
  · exact String.lt_asymm h hgf

theorem Place.Before.of_type {b : Bool} {t u f g : String} (h : t < u) :
    Place.Before ⟨b, t, f⟩ ⟨b, u, g⟩ ∧ ¬ Place.Before ⟨b, u, g⟩ ⟨b, t, f⟩ := by
  refine ⟨.inr ⟨rfl, .inl h⟩, ?_⟩
  rintro (⟨hu, ht⟩ | ⟨-, hut | ⟨hut, -⟩⟩)
  · cases hu.symm.trans ht
  · exact String.lt_asymm h hut
  · cases hut
    exact String.lt_irrefl t h

theorem Place.Before.irrefl (p : Place) : ¬ p.Before p := by
  rintro (⟨hf, ht⟩ | ⟨-, ht | ⟨-, hf⟩⟩)
  · cases hf.symm.trans ht
  · exact String.lt_irrefl _ ht
  · exact String.lt_irrefl _ hf

/-- Checks of the fields of a type, in the order of their names. -/
theorem sorted_forM_fields {α : Type} {fields : Dictionary α} (hnodup : fields.keys.Nodup)
    (b : Bool) (t : String) (check : String × α → Except Error Unit) :
    ReportsFirst Place.Before
      (fun p e => ∃ entry ∈ fields, p = ⟨b, t, entry.1⟩ ∧ check entry = .error e)
      (fields.sorted.forM check) := by
  have hall : ReportsFirst Place.Before _ (fields.sorted.forM check) := .forM
    (V := fun entry p e => p = ⟨b, t, entry.1⟩ ∧ check entry = .error e)
    (fun entry _ => .single (Place.Before.irrefl _))
    ((sorted_pairwise hnodup).imp fun hlt p q e e' hp hq => by
      rw [hp.1, hq.1]
      exact Place.Before.of_field hlt)
  exact hall.congr fun p e => by
    unfold Dictionary.sorted
    simp only [List.mem_mergeSort]

/-- Checks of the fields of all types, both in the order of their names. -/
theorem sorted_forM_types {α β : Type} {types : Dictionary β} (hnodup : types.keys.Nodup)
    (fieldsOf : β → Dictionary α) (hfields : ∀ entry ∈ types, (fieldsOf entry.2).keys.Nodup)
    (b : Bool) (check : String × β → String × α → Except Error Unit) :
    ReportsFirst Place.Before
      (fun p e => ∃ entry ∈ types, ∃ field ∈ fieldsOf entry.2,
        p = ⟨b, entry.1, field.1⟩ ∧ check entry field = .error e)
      (types.sorted.forM fun entry => (fieldsOf entry.2).sorted.forM (check entry)) := by
  have hall : ReportsFirst Place.Before _
      (types.sorted.forM fun entry => (fieldsOf entry.2).sorted.forM (check entry)) := .forM
    (fun entry hentry =>
      sorted_forM_fields (hfields entry (List.mem_mergeSort.1 hentry)) b entry.1 (check entry))
    ((sorted_pairwise hnodup).imp fun hlt p q e e' ⟨_, _, hp, _⟩ ⟨_, _, hq, _⟩ => by
      rw [hp, hq]
      exact Place.Before.of_type hlt)
  exact hall.congr fun p e => by
    unfold Dictionary.sorted
    simp only [List.mem_mergeSort]

/-- The first pass: the mapped fields. -/
theorem checkTypes_reports (h : Distinct additions)
    (hd : (Draft.ofAdditions additions).Holds additions) :
    ReportsFirst Place.Before (fun p e => p.exposed = false ∧ Violation additions p e)
      (checkTypes (Draft.ofAdditions additions).types) := by
  have hmem : ∀ {t m}, (t, m) ∈ (Draft.ofAdditions additions).types ↔ .type t m ∈ additions :=
    (Dictionary.mem_iff_get? hd.types_nodup).trans (hd.types _ _)
  have hall := sorted_forM_types hd.types_nodup TypeMapping.fields
    (fun ⟨t, m⟩ hentry => h.fields t m (hmem.1 hentry)) false fun entry field =>
      checkField (Draft.ofAdditions additions).types entry.1 entry.2 field.1 field.2
  refine hall.congr fun p e => ?_
  constructor
  · rintro ⟨⟨t, m⟩, hentry, ⟨field, fm⟩, hfield, rfl, he⟩
    exact ⟨rfl, .mapped (hmem.1 hentry) hfield he⟩
  · rintro ⟨hp, hv⟩
    cases hv with
    | mapped ht hfield he => exact ⟨_, hmem.2 ht, _, hfield, rfl, he⟩
    | exposed | unregistered => cases hp

/-- What is checked at an exposed field.  A type that is missing is missing at all its fields. -/
def checkExposedAt (types : Dictionary TypeMapping) (typeName : String)
    (entry : String × ExposedKind) : Except Error Unit :=
  match types.get? typeName with
  | none => .error (.unknownType typeName)
  | some mapping => checkExposedField types typeName mapping entry.1 entry.2

theorem checkExposure_eq {types : Dictionary TypeMapping} {exposed : Exposure}
    (h : ∀ entry ∈ exposed, entry.2 ≠ []) :
    checkExposure types exposed =
      exposed.sorted.forM fun entry => entry.2.sorted.forM (checkExposedAt types entry.1) := by
  unfold checkExposure
  refine forM_congr fun ⟨t, fields⟩ hentry => ?_
  have hne := h _ (List.mem_mergeSort.1 hentry)
  dsimp only
  unfold checkExposedAt
  cases types.get? t with
  | some mapping => rfl
  | none =>
    cases hsorted : fields.sorted with
    | nil =>
      have hperm : fields.sorted.Perm fields := List.mergeSort_perm fields _
      rw [hsorted] at hperm
      exact absurd hperm.nil_eq.symm hne
    | cons first rest => rfl

theorem Draft.Holds.mem_exposed (hd : d.Holds additions) {typeName field : String}
    {kind : ExposedKind} : (∃ fields, (typeName, fields) ∈ d.exposed.getD [] ∧
      (field, kind) ∈ fields) ↔ .exposed typeName field kind ∈ additions := by
  rw [← hd.exposed typeName field kind, ← Dictionary.mem_iff_get? (hd.fields_nodup typeName)]
  unfold Draft.exposedOf
  simp only [Dictionary.mem_iff_get? hd.exposed_nodup]
  cases (d.exposed.getD []).get? typeName with
  | none =>
    refine iff_of_false ?_ List.not_mem_nil
    rintro ⟨fields, ⟨⟩, -⟩
  | some fields =>
    constructor
    · rintro ⟨_, ⟨⟩, hmem⟩
      exact hmem
    · exact fun hmem => ⟨fields, rfl, hmem⟩

/-- The second pass: the exposed fields. -/
theorem checkExposure_reports (hd : (Draft.ofAdditions additions).Holds additions) :
    ReportsFirst Place.Before (fun p e => p.exposed = true ∧ Violation additions p e)
      (checkExposure (Draft.ofAdditions additions).types
        ((Draft.ofAdditions additions).exposed.getD [])) := by
  have hget : ∀ {t fields}, (t, fields) ∈ (Draft.ofAdditions additions).exposed.getD [] →
      ((Draft.ofAdditions additions).exposed.getD []).get? t = some fields :=
    (Dictionary.mem_iff_get? hd.exposed_nodup).1
  rw [checkExposure_eq fun entry hentry => hd.exposed_ne_nil entry.1 entry.2 (hget hentry)]
  have hnodup : ∀ entry ∈ (Draft.ofAdditions additions).exposed.getD [], entry.2.keys.Nodup := by
    rintro ⟨t, fields⟩ hentry
    have hfields := hd.fields_nodup t
    unfold Draft.exposedOf at hfields
    rw [hget hentry] at hfields
    exact hfields
  have hall := sorted_forM_types hd.exposed_nodup id hnodup true fun entry =>
    checkExposedAt (Draft.ofAdditions additions).types entry.1
  refine hall.congr fun p e => ?_
  constructor
  · rintro ⟨⟨t, fields⟩, ht, ⟨f, k⟩, hf, rfl, he⟩
    have hk := hd.mem_exposed.1 ⟨fields, ht, hf⟩
    refine ⟨rfl, ?_⟩
    unfold checkExposedAt at he
    cases hm : (Draft.ofAdditions additions).types.get? t with
    | none =>
      simp only [hm] at he
      cases he
      refine .unregistered hk fun m hreg => ?_
      rw [(hd.types t m).2 hreg] at hm
      cases hm
    | some m =>
      simp only [hm] at he
      exact .exposed hk ((hd.types t m).1 hm) he
  · rintro ⟨hp, hv⟩
    cases hv with
    | mapped => cases hp
    | @exposed t f m k e hk hm he =>
      obtain ⟨fields, ht, hf⟩ := hd.mem_exposed.2 hk
      refine ⟨_, ht, _, hf, rfl, ?_⟩
      unfold checkExposedAt
      simp only [(hd.types t m).2 hm]
      exact he
    | @unregistered t f k hk hnone =>
      obtain ⟨fields, ht, hf⟩ := hd.mem_exposed.2 hk
      refine ⟨_, ht, _, hf, rfl, ?_⟩
      unfold checkExposedAt
      cases hm : (Draft.ofAdditions additions).types.get? t with
      | none => rfl
      | some m => exact absurd ((hd.types t m).1 hm) (hnone m)

theorem Draft.build_eq (h : d.duplicates = []) :
    d.build = (checkTypes d.types >>= fun _ => checkExposure d.types (d.exposed.getD [])) >>=
      fun _ => .ok ⟨d.types, d.exposed⟩ := by
  have hnothing : checkExposure d.types [] = .ok () := by
    unfold checkExposure Dictionary.sorted
    rw [List.mergeSort_nil]
    rfl
  unfold Draft.build
  rw [h]
  change (checkTypes d.types >>= _) = _
  cases checkTypes d.types with
  | error e => rfl
  | ok _ =>
    cases d.exposed with
    | none =>
      change _ = (checkExposure d.types [] >>= _)
      rw [hnothing]
      rfl
    | some exposed => rfl

/-- A draft is refused for the first violation, and only then. -/
theorem Draft.build_refused (h : Distinct additions) (e : Error) :
    (Draft.ofAdditions additions).build = .error e ↔ FirstViolation additions e := by
  have hd := Draft.ofAdditions_holds h
  have hpasses := (checkTypes_reports h hd).andThen (checkExposure_reports hd)
    fun p q _ _ hp hq => ⟨.inl ⟨hp.1, hq.1⟩, by
      rintro (⟨hqf, -⟩ | ⟨hqp, -⟩)
      · cases hq.1.symm.trans hqf
      · cases hq.1.symm.trans (hqp.trans hp.1)⟩
  have hall := hpasses.congr (W := Violation additions) fun p e => by
    cases hexposed : p.exposed <;> simp
  rw [Draft.build_eq hd.duplicates, Outcome.bind_eq_error, or_iff_left]
  · exact hall.error e
  · rintro ⟨_, -, ⟨⟩⟩

/-! ### Registries from additions in another order -/

/-- Every look-up has the same answer. -/
structure Registry.Agrees (r r' : Registry) : Prop where
  lookup : ∀ typeName, Outcome.Same TypeMapping.Agrees (r.lookup typeName) (r'.lookup typeName)
  resolve : ∀ typeName field, r.resolve typeName field = r'.resolve typeName field

/-- The checks of a field look at names and at the fields under them only. -/
theorem checkField_agrees {types types' : Dictionary TypeMapping} {mapping mapping' : TypeMapping}
    (htypes : ∀ typeName, types.has typeName = types'.has typeName)
    (hfields : ∀ field, mapping.fields.get? field = mapping'.fields.get? field)
    (typeName field : String) (m : FieldMapping) :
    checkField types typeName mapping field m = checkField types' typeName mapping' field m := by
  unfold checkField checkAlias checkTarget
  simp only [htypes, hfields]

theorem checkExposedField_agrees {types types' : Dictionary TypeMapping}
    {mapping mapping' : TypeMapping}
    (htypes : ∀ typeName, types.has typeName = types'.has typeName)
    (hfields : ∀ field, mapping.fields.get? field = mapping'.fields.get? field)
    (typeName field : String) (kind : ExposedKind) :
    checkExposedField types typeName mapping field kind =
      checkExposedField types' typeName mapping' field kind := by
  unfold checkExposedField checkTarget relationBehind? Dictionary.has
  unfold Dictionary.has at htypes
  simp only [htypes, hfields]

theorem Violation.reordered {p : Place} {e : Error} (h : Distinct additions)
    (hr : Reordered additions additions') (hv : Violation additions p e) :
    Violation additions' p e := by
  have htypes := has_reordered h hr
  cases hv with
  | mapped ht hf he =>
    obtain ⟨_, ht', halike⟩ := hr.exists_alike ht
    cases halike with
    | type hperm =>
      have hfields := Dictionary.get?_perm (h.fields _ _ ht) hperm
      exact .mapped ht' (hperm.mem_iff.1 hf)
        ((checkField_agrees htypes hfields _ _ _).symm.trans he)
  | exposed hk ht he =>
    obtain ⟨_, hk', ⟨⟩⟩ := hr.exists_alike hk
    obtain ⟨_, ht', halike⟩ := hr.exists_alike ht
    cases halike with
    | type hperm =>
      have hfields := Dictionary.get?_perm (h.fields _ _ ht) hperm
      exact .exposed hk' ht' ((checkExposedField_agrees htypes hfields _ _ _).symm.trans he)
  | unregistered hk hnone =>
    obtain ⟨_, hk', ⟨⟩⟩ := hr.exists_alike hk
    refine .unregistered hk' fun m hm => ?_
    obtain ⟨_, hm', halike⟩ := hr.symm.exists_alike hm
    cases halike with
    | type _ => exact hnone _ hm'

theorem FirstViolation.reordered {e : Error} (h : Distinct additions)
    (hr : Reordered additions additions') (hv : FirstViolation additions e) :
    FirstViolation additions' e := by
  obtain ⟨p, hp, hfirst⟩ := hv
  exact ⟨p, hp.reordered h hr, fun q e' hq => hfirst q e' (hq.reordered (h.reordered hr) hr.symm)⟩

theorem lookup_reordered (h : Distinct additions) (hr : Reordered additions additions')
    (exposed exposed' : Option Exposure) (typeName : String) :
    Outcome.Same TypeMapping.Agrees
      (Registry.lookup ⟨(Draft.ofAdditions additions).types, exposed⟩ typeName)
      (Registry.lookup ⟨(Draft.ofAdditions additions').types, exposed'⟩ typeName) := by
  unfold Registry.lookup
  dsimp only
  cases hget : (Draft.ofAdditions additions).types.get? typeName with
  | some mapping =>
    obtain ⟨mapping', hget', hagrees⟩ := types_reordered h hr hget
    rw [hget']
    exact .ok hagrees
  | none =>
    cases hget' : (Draft.ofAdditions additions').types.get? typeName with
    | none => exact .error _
    | some mapping' =>
      obtain ⟨mapping, hgot, -⟩ := types_reordered (h.reordered hr) hr.symm hget'
      cases hget.symm.trans hgot

/-- The registry of a draft lists the fields that are exposed. -/
theorem lists_eq (d : Draft) (typeName field : String) :
    Registry.lists ⟨d.types, d.exposed⟩ typeName field =
      (d.exposed.isNone || (d.exposedOf typeName).has field) := by
  unfold Registry.lists Draft.exposedOf
  cases d.exposed with
  | none => rfl
  | some exposed =>
    rw [Option.getD_some]
    dsimp only
    cases exposed.get? typeName with
    | none => rfl
    | some fields => rfl

theorem lists_reordered (h : Distinct additions) (hr : Reordered additions additions')
    (typeName field : String) :
    Registry.lists ⟨(Draft.ofAdditions additions).types, (Draft.ofAdditions additions).exposed⟩
        typeName field =
      Registry.lists
        ⟨(Draft.ofAdditions additions').types, (Draft.ofAdditions additions').exposed⟩
        typeName field := by
  have hnone : (Draft.ofAdditions additions).exposed = none ↔
      (Draft.ofAdditions additions').exposed = none := by
    rw [(Draft.ofAdditions_holds h).unexposed,
      (Draft.ofAdditions_holds (h.reordered hr)).unexposed]
    constructor
    · intro hno t f k hk
      obtain ⟨_, hk', ⟨⟩⟩ := hr.symm.exists_alike hk
      exact hno t f k hk'
    · intro hno t f k hk
      obtain ⟨_, hk', ⟨⟩⟩ := hr.exists_alike hk
      exact hno t f k hk'
  rw [lists_eq, lists_eq]
  unfold Dictionary.has
  rw [exposedOf_reordered h hr]
  congr 1
  rw [Bool.eq_iff_iff, Option.isNone_iff_eq_none, Option.isNone_iff_eq_none]
  exact hnone

/-- Resolution looks at the mapping of the type and at the listed fields. -/
theorem resolve_agrees {r r' : Registry} {typeName field : String}
    (hlookup : Outcome.Same TypeMapping.Agrees (r.lookup typeName) (r'.lookup typeName))
    (hlists : r.lists typeName field = r'.lists typeName field) :
    r.resolve typeName field = r'.resolve typeName field := by
  unfold Registry.resolve
  rw [hlists]
  refine (hlookup.bind (S := Eq) fun m m' hagrees => ?_).eq
  simp only [hagrees.1]
  exact .refl _

/-- **The order of additions does not matter.**  The draft is refused for one and the same fault,
the first violation, or it is built to registries that answer alike. -/
theorem Draft.build_reordered (h : Distinct additions) (hr : Reordered additions additions') :
    Outcome.Same Registry.Agrees (Draft.ofAdditions additions).build
        (Draft.ofAdditions additions').build ∧
      ∀ e, (Draft.ofAdditions additions).build = .error e ↔ FirstViolation additions e := by
  refine ⟨?_, Draft.build_refused h⟩
  have h' := h.reordered hr
  cases hbuild : (Draft.ofAdditions additions).build with
  | error e =>
    have hfirst := ((Draft.build_refused h e).1 hbuild).reordered h hr
    rw [(Draft.build_refused h' e).2 hfirst]
    exact .error e
  | ok registry =>
    cases hbuild' : (Draft.ofAdditions additions').build with
    | error e =>
      have hfirst := ((Draft.build_refused h' e).1 hbuild').reordered h' hr.symm
      cases hbuild.symm.trans ((Draft.build_refused h e).2 hfirst)
    | ok registry' =>
      obtain ⟨-, rfl⟩ := Draft.build_ok hbuild
      obtain ⟨-, rfl⟩ := Draft.build_ok hbuild'
      have hlookup := lookup_reordered h hr (Draft.ofAdditions additions).exposed
        (Draft.ofAdditions additions').exposed
      exact .ok ⟨hlookup, fun t f => resolve_agrees (hlookup t) (lists_reordered h hr t f)⟩

namespace Additions

/-- A type of comments with a column that is paged. -/
def comments : Addition :=
  .type "Comment" { fields := [("body", { FieldMapping.plain with paging := some (Paging.ofLimit 5) })] }

/-- A relation to a type that is not added. -/
def author : FieldMapping :=
  { source := .relation { target := "User", many := false, join := .columns "authorId" "id" } }

/-- An alias of itself. -/
def slug : FieldMapping := { source := .aliasOf "slug" none }

/-- A type of posts with these fields. -/
def posts (fields : Dictionary FieldMapping) : Addition := .type "Post" { fields }

/-- A field that is exposed as what it is not. -/
def title : Addition := .exposed "Post" "title" (.object "Comment")

/-- With four faults at once, the order of types, fields and exposed fields changes nothing. -/
theorem build_posts_comments :
    Distinct [posts [("author", author), ("slug", slug)], title, comments] ∧
    Reordered [posts [("author", author), ("slug", slug)], title, comments]
      [comments, posts [("slug", slug), ("author", author)], title] ∧
    Outcome.Same Registry.Agrees
      (Draft.ofAdditions [posts [("author", author), ("slug", slug)], title, comments]).build
      (Draft.ofAdditions [comments, posts [("slug", slug), ("author", author)], title]).build ∧
    ∀ e, (Draft.ofAdditions [posts [("author", author), ("slug", slug)], title, comments]).build =
        .error e ↔
      FirstViolation [posts [("author", author), ("slug", slug)], title, comments] e := by
  have hdistinct : Distinct [posts [("author", author), ("slug", slug)], title, comments] := by
    constructor
    · decide
    · intro t m hm
      simp only [posts, title, comments, List.mem_cons, Addition.type.injEq, reduceCtorEq,
        List.not_mem_nil, or_false, false_or] at hm
      obtain ⟨-, rfl⟩ | ⟨-, rfl⟩ := hm
      · simp [Dictionary.keys]
      · simp [Dictionary.keys]
  have hreordered : Reordered [posts [("author", author), ("slug", slug)], title, comments]
      [comments, posts [("slug", slug), ("author", author)], title] :=
    ⟨_, (List.Perm.cons _ (.swap ..)).trans (.swap ..),
      .cons (.type (.refl _)) (.cons (.type (.swap ..)) (.cons .exposed .nil))⟩
  exact ⟨hdistinct, hreordered, Draft.build_reordered hdistinct hreordered⟩

end Additions

end Schema

end ObjectGraph
