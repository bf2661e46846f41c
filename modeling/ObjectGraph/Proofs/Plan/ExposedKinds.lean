import ObjectGraph.Proofs.Plan.Faults
import ObjectGraph.Proofs.Plan.Levels
import ObjectGraph.Proofs.Plan.RequestFaults

/-! # Exposed kinds and what the planner makes of them

The check of exposed fields follows aliases on its own (`relationBehind?`), and so does
`Registry.resolve`.  They come to the same relation (`Answers.relationBehind?_eq`), so that an
exposed field is resolved, and as what it is exposed as (`Draft.resolve_exposed`).

The planner asks for a sub-selection where there is a relation, and refuses one where there is none.
Whatever level it stops at, it says either of a field only if that is so (`Refused.explained`).  With
the kinds this gives `exposed_kinds_planned`: sub-selections are demanded for the fields that are
exposed as objects or lists, and refused for those that are exposed as scalars. -/

namespace ObjectGraph

namespace Schema

variable {draft : Draft} {registry : Registry} {fields : Dictionary FieldMapping}
  {field : String} {resolved : Resolved}

/-! ### Kinds -/

/-- The relation behind a field is that which the field is answered by, with the target it is
viewed as leading to. -/
theorem Answers.relationBehind?_eq (h : Answers fields field resolved) :
    relationBehind? fields field =
      resolved.relation?.map fun r => (r.many, resolved.view.getD r.target) := by
  unfold relationBehind?
  cases h with
  | unmapped hf =>
    rw [hf]
    rfl
  | @mapped m hf hunaliased =>
    have hrelation : (Resolved.mk (some m) field none none).relation? = m.relation? := rfl
    rw [hf, Option.map_some, hrelation, FieldMapping.relation?]
    cases hsource : m.source with
    | aliasOf target view => exact absurd hsource (hunaliased target view)
    | column name => rfl
    | computed computed => rfl
    | relation relation => rfl
  | aliased hf hsource htarget =>
    rw [hf, Option.map_some, hsource]
    dsimp only
    rw [htarget]
    rfl

namespace ExposedKind

/-- Whether fields of a kind have fields of their own. -/
def isScalar : ExposedKind → Bool
  | .scalar => true
  | _ => false

/-- Whether a field of a kind has many objects. -/
def isList : ExposedKind → Bool
  | .list _ => true
  | _ => false

variable {kind : ExposedKind} {behind : Option (Bool × String)}

theorem isScalar_iff : kind.isScalar = true ↔ kind = .scalar := by
  cases kind <;> simp [isScalar]

theorem isList_iff : kind.isList = true ↔ ∃ target, kind = .list target := by
  cases kind <;> simp [isList]

theorem isSome_of_fits (h : kind.fits behind = true) : behind.isSome = !kind.isScalar := by
  cases kind <;> cases behind <;> first | rfl | cases h

theorem many_of_fits {many : Bool} {target : String} (h : kind.fits (some (many, target)) = true) :
    many = kind.isList := by
  cases kind with
  | scalar => cases h
  | object typeName => simpa [fits, isList] using h
  | list typeName => simpa [fits, isList] using h

end ExposedKind

theorem fits_of_checkExposedField {types : Dictionary TypeMapping} {typeName : String}
    {mapping : TypeMapping} {kind : ExposedKind}
    (h : checkExposedField types typeName mapping field kind = .ok ()) :
    kind.fits (relationBehind? mapping.fields field) = true := by
  unfold checkExposedField at h
  dsimp only at h
  split at h
  · next hfits => exact hfits
  · split at h <;> cases h

/-! ### Exposed fields -/

section

variable {exposed : Exposure} {typeName : String} {kinds : Dictionary ExposedKind}
  {kind : ExposedKind}

theorem Registry.lists_of_exposed (he : registry.exposed = some exposed)
    (ht : exposed.get? typeName = some kinds) (hf : kinds.get? field = some kind) :
    registry.lists typeName field = true := by
  rw [Registry.lists, he]
  dsimp only
  rw [ht]
  dsimp only
  rw [Dictionary.has, hf]
  rfl

/-- An exposed field is resolved as what it is exposed as. -/
theorem Draft.resolve_exposed (h : draft.build = .ok registry)
    (he : registry.exposed = some exposed) (ht : exposed.get? typeName = some kinds)
    (hf : kinds.get? field = some kind) :
    ∃ resolved, registry.resolve typeName field = .ok resolved ∧
      resolved.relation?.isSome = !kind.isScalar ∧
      ∀ relation, resolved.relation? = some relation → relation.many = kind.isList := by
  obtain ⟨mapping, hmapping, hchecked⟩ := Draft.build_exposed h he ht hf
  have hlists := Registry.lists_of_exposed he ht hf
  cases hr : registry.resolve typeName field with
  | error fault =>
    have hunlisted := (Draft.resolve_error h (Registry.lookup_ok.2 hmapping) hr).2
    rw [hlists] at hunlisted
    cases hunlisted
  | ok resolved =>
    obtain ⟨mapping', hl, hanswers⟩ := Registry.resolve_ok hr
    rw [Registry.lookup_ok, hmapping] at hl
    cases hl
    have hfits := fits_of_checkExposedField hchecked
    rw [hanswers.relationBehind?_eq] at hfits
    refine ⟨resolved, rfl, ?_, fun relation hn => ?_⟩
    · rw [← ExposedKind.isSome_of_fits hfits, Option.isSome_map]
    · rw [hn, Option.map_some] at hfits
      exact ExposedKind.many_of_fits hfits

/-- Where a resolved field has a relation, it leads to a registered type. -/
theorem Draft.target_contained (h : draft.build = .ok registry)
    (hr : registry.resolve typeName field = .ok resolved) {target : String}
    (ht : resolved.target? = some target) : registry.contains target = true := by
  obtain ⟨relation, hn, rfl⟩ := Option.map_eq_some_iff.1 ht
  obtain ⟨mapping, hl⟩ := Draft.target_registered h hr hn
  rw [Registry.contains, Dictionary.has, Registry.lookup_ok.1 hl]
  rfl

end

end Schema

namespace Plan

open Schema (Registry Draft TypeFilter Relation Resolved ExposedKind)
open Compiling

/-! ### What is said of selections -/

/-- A fault that is about a selection is right about the field. -/
def Explained (registry : Registry) : Error → Prop
  | .missingSelection typeName field =>
    ∃ resolved, registry.resolve typeName field = .ok resolved ∧ resolved.relation?.isSome = true
  | .unexpectedSelection typeName field =>
    ∃ resolved, registry.resolve typeName field = .ok resolved ∧ resolved.relation? = none
  | _ => True

theorem CompileFault.explained {env : Environment} {bound : Nat} {e : Error}
    (h : CompileFault env bound e) : Explained env.registry e := by
  cases h with
  | missing hr hn => exact ⟨_, hr, hn⟩
  | unexpected hr hn => exact ⟨_, hr, hn⟩
  | schema _ | sql _ | tooDeep _ _ => trivial

/-! ### What is asked of a field -/

section

theorem bind_found {α β : Type} {look : Except Schema.Error α} {a : α} {f : α → Compiling β}
    {s : Sql.Scope} (h : look = .ok a) : (ofSchema look >>= f) s = f a s := by
  rw [h]
  rfl

variable {env : Environment} {o : Opened} {p : Progress} {position : Nat} {s : Sql.Scope}
  {field : String} {resolved : Resolved}

/-- A field is missing a sub-selection exactly if it has a relation. -/
theorem entry_missing_iff (hr : env.registry.resolve o.level.typeName field = .ok resolved) :
    entry env o p position (.scalar field) s =
        .error (.missingSelection o.level.typeName field) ↔
      resolved.relation?.isSome = true := by
  constructor
  · intro h
    obtain ⟨resolved', hr', hn⟩ := (entry_fails _ (Nat.le_refl _) s _ h).explained
    cases hr.symm.trans hr'
    exact hn
  · intro hn
    rw [entry, valueEntry, bind_found hr, hn]
    rfl

/-- A sub-selection is refused for a field exactly if it has no relation. -/
theorem entry_unexpected_iff (hr : env.registry.resolve o.level.typeName field = .ok resolved)
    (selection : List Selection) :
    entry env o p position (.nested field selection) s =
        .error (.unexpectedSelection o.level.typeName field) ↔
      resolved.relation?.isSome = false := by
  rw [Option.isSome_eq_false_iff, Option.isNone_iff_eq_none]
  constructor
  · intro h
    obtain ⟨resolved', hr', hn⟩ := (entry_fails _ (Nat.le_refl _) s _ h).explained
    cases hr.symm.trans hr'
    exact hn
  · intro hn
    rw [entry, bind_found hr, hn]
    rfl

/-- Every selection of a level that compiles was compiled. -/
theorem entries_mem_ok {selections : List Selection} {p' : Progress} {t : Sql.Scope}
    (h : entries env o p position selections s = .ok (p', t)) {selection : Selection}
    (hmem : selection ∈ selections) :
    ∃ q i u r, entry env o q i selection u = .ok r := by
  induction selections generalizing p position s with
  | nil => cases hmem
  | cons first rest ih =>
    obtain ⟨q, u, hentry, hrest⟩ := entries_cons_ok h
    rcases List.mem_cons.1 hmem with rfl | hmem
    · exact ⟨p, position, s, _, hentry⟩
    · exact ih hrest hmem

end

/-! ### Exposed fields of requests -/

section

variable {draft : Draft} {registry : Registry} {exposed : Schema.Exposure} {typeName field : String}
  {kinds : Dictionary ExposedKind} {kind : ExposedKind}

/-- What a statement is refused for. -/
def Refused (env : Environment) (e : Error) : Prop :=
  (∃ request filter, compileRoot env request filter = .error e) ∨
    ∃ many keys, compileMany env many keys = .error e

theorem Refused.explained {env : Environment} {e : Error} (h : Refused env e) :
    Explained env.registry e := by
  rcases h with ⟨request, filter, h⟩ | ⟨many, keys, h⟩
  · exact (compileRoot_fails h).explained
  · exact (compileMany_fails h).explained

/-- An exposed field is resolved to a relation just if it is not exposed as a scalar. -/
theorem exposed_related (h : draft.build = .ok registry) (he : registry.exposed = some exposed)
    (ht : exposed.get? typeName = some kinds) (hf : kinds.get? field = some kind) :
    ∃ resolved, registry.resolve typeName field = .ok resolved ∧
      (resolved.relation?.isSome = true ↔ kind ≠ .scalar) ∧
      ((∃ relation, resolved.relation? = some relation ∧ relation.many = true) ↔
        ∃ target, kind = .list target) := by
  obtain ⟨resolved, hr, hsome, hmany⟩ := Draft.resolve_exposed h he ht hf
  have hrelation : resolved.relation?.isSome = true ↔ kind ≠ .scalar := by
    rw [hsome, Bool.not_eq_true', ← Bool.not_eq_true, ExposedKind.isScalar_iff]
  refine ⟨resolved, hr, hrelation, ?_⟩
  rw [← ExposedKind.isList_iff]
  constructor
  · rintro ⟨relation, hn, htrue⟩
    rw [← hmany relation hn, htrue]
  · intro hlist
    obtain ⟨relation, hn⟩ := Option.isSome_iff_exists.1 (hrelation.2 fun hscalar => by
      rw [hscalar] at hlist
      cases hlist)
    exact ⟨relation, hn, (hmany relation hn).trans hlist⟩

theorem related_target (h : draft.build = .ok registry) {resolved : Resolved}
    (hr : registry.resolve typeName field = .ok resolved)
    (hn : resolved.relation?.isSome = true) :
    ∃ target, resolved.target? = some target ∧ registry.contains target = true := by
  obtain ⟨relation, hn⟩ := Option.isSome_iff_exists.1 hn
  have htarget : resolved.target? = some (resolved.view.getD relation.target) := by
    rw [Resolved.target?, hn, Option.map_some]
  exact ⟨_, htarget, Draft.target_contained h hr htarget⟩

section

variable {env : Environment} {resolved : Resolved}
  (hr : env.registry.resolve typeName field = .ok resolved)
  (hrelation : resolved.relation?.isSome = true ↔ kind ≠ .scalar)

include hrelation

theorem not_related_iff : resolved.relation?.isSome = false ↔ kind = .scalar := by
  rw [← Bool.not_eq_true, hrelation, not_not]

include hr

/-- Where the field is compiled, it is demanded or refused a sub-selection by its kind. -/
theorem entry_by_kind {o : Opened} (ho : o.level.typeName = typeName) (p : Progress)
    (position : Nat) (s : Sql.Scope) :
    (entry env o p position (.scalar field) s = .error (.missingSelection typeName field) ↔
      kind ≠ .scalar) ∧
    ∀ below, entry env o p position (.nested field below) s =
      .error (.unexpectedSelection typeName field) ↔ kind = .scalar := by
  subst ho
  exact ⟨(entry_missing_iff hr).trans hrelation,
    fun below => (entry_unexpected_iff hr below).trans (not_related_iff hrelation)⟩

/-- In a level that compiles, the field is selected as its kind wants it. -/
theorem Compiles.selected_by_kind {start : Start} {o : Opened} {selections : List Selection}
    {s : Sql.Scope} {p : Progress} (h : Compiles env start o selections s p)
    (ho : o.level.typeName = typeName) {selection : Selection} (hmem : selection ∈ selections)
    (hname : selection.name = field) : selection = .scalar field ↔ kind = .scalar := by
  obtain ⟨t, hentries⟩ := h.entries_ok
  obtain ⟨q, i, u, r, hok⟩ := entries_mem_ok hentries hmem
  obtain ⟨hscalar, hnested⟩ := entry_by_kind hr hrelation ho q i u
  cases selection with
  | scalar name =>
    obtain rfl : name = field := hname
    refine iff_of_true rfl (not_not.1 fun hkind => ?_)
    rw [hscalar.2 hkind] at hok
    cases hok
  | nested name below =>
    obtain rfl : name = field := hname
    refine iff_of_false nofun fun hkind => ?_
    rw [(hnested below).2 hkind] at hok
    cases hok

/-- What is said of the field when a statement is refused is true of its kind. -/
theorem Refused.told_by_kind {e : Error} (h : Refused env e) :
    (e = .missingSelection typeName field → kind ≠ .scalar) ∧
      (e = .unexpectedSelection typeName field → kind = .scalar) := by
  constructor
  · rintro rfl
    obtain ⟨resolved', hr', hn⟩ := h.explained
    cases hr.symm.trans hr'
    exact hrelation.1 hn
  · rintro rfl
    obtain ⟨resolved', hr', hn⟩ := h.explained
    cases hr.symm.trans hr'
    exact (not_related_iff hrelation).1
      (Option.isSome_eq_false_iff.2 (Option.isNone_iff_eq_none.2 hn))

end

/-- An exposed field of a registry that was built is resolved: to a relation if it is exposed as an
object or a list, to one of many objects if it is a list, and then to a registered type.  So for
just the fields that are exposed as objects or lists a sub-selection is demanded, and for just those
exposed as scalars one is refused: where a field is compiled, in every level that compiles, and
in whatever is said of the field when a statement is refused. -/
theorem exposed_kinds_planned (h : draft.build = .ok registry)
    (he : registry.exposed = some exposed) (ht : exposed.get? typeName = some kinds)
    (hf : kinds.get? field = some kind) :
    (∃ resolved, registry.resolve typeName field = .ok resolved ∧
      (resolved.relation?.isSome = true ↔ kind ≠ .scalar) ∧
      ((∃ relation, resolved.relation? = some relation ∧ relation.many = true) ↔
        ∃ target, kind = .list target) ∧
      (kind ≠ .scalar →
        ∃ target, resolved.target? = some target ∧ registry.contains target = true)) ∧
    ∀ env, env.registry = registry →
      (∀ o p position s, o.level.typeName = typeName →
        (entry env o p position (.scalar field) s = .error (.missingSelection typeName field) ↔
          kind ≠ .scalar) ∧
        ∀ below, entry env o p position (.nested field below) s =
          .error (.unexpectedSelection typeName field) ↔ kind = .scalar) ∧
      (∀ start o selections s p, Compiles env start o selections s p →
        o.level.typeName = typeName → ∀ selection ∈ selections, selection.name = field →
          (selection = .scalar field ↔ kind = .scalar)) ∧
      ∀ e, Refused env e →
        (e = .missingSelection typeName field → kind ≠ .scalar) ∧
        (e = .unexpectedSelection typeName field → kind = .scalar) := by
  obtain ⟨resolved, hr, hrelation, hlist⟩ := exposed_related h he ht hf
  refine ⟨⟨resolved, hr, hrelation, hlist, fun hkind =>
    related_target h hr (hrelation.2 hkind)⟩, ?_⟩
  rintro env rfl
  refine ⟨fun o p position s ho => entry_by_kind hr hrelation ho p position s, ?_,
    fun e hrefused => hrefused.told_by_kind hr hrelation⟩
  intro start o selections s p hlevel ho selection hmem hname
  exact hlevel.selected_by_kind hr hrelation ho hmem hname

end

/-! ### Boards whose threads are listed under two names -/

namespace Forum

def threadsOf : Relation := { target := "Thread", many := true, join := .columns "id" "boardId" }

/-- The topics of a board are its threads, seen as something else. -/
def board : Schema.TypeMapping :=
  { fields := [("threads", { source := .relation threadsOf }),
      ("topics", { source := .aliasOf "threads" (some "Topic") })] }

def types : Dictionary Schema.TypeMapping := [("Board", board), ("Thread", {}), ("Topic", {})]

def exposed : Schema.Exposure := [("Board", [("title", .scalar), ("topics", .list "Topic")])]

def draft : Draft := { types, exposed := some exposed }

def registry : Registry := ⟨types, some exposed⟩

theorem build_draft : draft.build = .ok registry := by
  have htypes : Schema.checkTypes types = .ok () :=
    Schema.sorted_forM_ok.2 fun entry hentry => Schema.sorted_forM_ok.2 fun field hfield => by
      revert field
      revert entry
      decide
  have hexposed : Schema.checkExposure types exposed = .ok () := by
    refine Schema.sorted_forM_ok.2 fun entry hentry => ?_
    rw [List.mem_singleton.1 hentry]
    refine Schema.sorted_forM_ok.2 fun field hfield => ?_
    revert field
    decide
  change (Schema.checkTypes types >>= fun _ => Schema.checkExposure types exposed >>= _) = _
  rw [htypes]
  change (Schema.checkExposure types exposed >>= _) = _
  rw [hexposed]
  rfl

end Forum

/-- Topics are exposed as a list, so that they are not to be had without a selection. -/
theorem exposed_kinds_planned_topics :
    Forum.draft.build = .ok Forum.registry ∧
      Forum.exposed.get? "Board" = some [("title", .scalar), ("topics", .list "Topic")] ∧
      (∃ resolved, Forum.registry.resolve "Board" "topics" = .ok resolved ∧
        ∃ target, resolved.target? = some target ∧ Forum.registry.contains target = true) ∧
      ∀ settings caller o p position s, o.level.typeName = "Board" →
        entry ⟨Forum.registry, settings, caller⟩ o p position (.scalar "topics") s =
          .error (.missingSelection "Board" "topics") := by
  have hboard : Forum.exposed.get? "Board" =
      some [("title", .scalar), ("topics", .list "Topic")] := rfl
  have htopics : Dictionary.get? [("title", ExposedKind.scalar), ("topics", .list "Topic")]
      "topics" = some (.list "Topic") := rfl
  obtain ⟨⟨resolved, hr, -, -, htarget⟩, hplanned⟩ :=
    exposed_kinds_planned Forum.build_draft rfl hboard htopics
  refine ⟨Forum.build_draft, hboard, ⟨resolved, hr, htarget nofun⟩, ?_⟩
  intro settings caller o p position s htype
  obtain ⟨hentry, -⟩ := hplanned ⟨Forum.registry, settings, caller⟩ rfl
  exact ((hentry o p position s htype).1).2 nofun

end Plan

end ObjectGraph
