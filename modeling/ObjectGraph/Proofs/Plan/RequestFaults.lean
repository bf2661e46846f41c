import ObjectGraph.Proofs.Plan.Places
import ObjectGraph.Proofs.Schema.Built

/-! # Faults of requests against a registry that was built

A registry that was built answers for its schema: whatever is asked of it, no fault of the schema
is left to be found.  Compiling still looks types and fields up, and each look-up may fail; but
aliases lead to mapped fields and relations to registered types, so that what is left is the
request's own doing (`refused_by_request`).  A request may name a type that is not registered, or a
field (`Asks`) that is not among the exposed ones (`Unlisted`).  Follow-ups are compiled from what
compiling gave before (`Produced`), and can fail in the second way only.

What a step may fail with is said for any scope (`Compiling.FailsWith`), so that the steps compose. -/

namespace ObjectGraph

namespace Schema

variable {draft : Draft} {registry : Registry}

/-- A field of a registered type cannot be resolved only if it is not listed. -/
theorem Draft.resolve_error (h : draft.build = .ok registry) {typeName field : String}
    {mapping : TypeMapping} {fault : Error} (hl : registry.lookup typeName = .ok mapping)
    (hr : registry.resolve typeName field = .error fault) :
    fault = .unknownField typeName field ∧ registry.lists typeName field = false := by
  unfold Registry.resolve at hr
  rw [hl] at hr
  change (if (!registry.lists typeName field) = true then _ else _) = _ at hr
  split at hr
  · next hlists =>
    cases hr
    exact ⟨rfl, by simpa using hlists⟩
  · cases hf : mapping.fields.get? field with
    | none =>
      simp only [hf] at hr
      cases hr
    | some m =>
      have hchecked := Draft.build_source h hl hf
      simp only [hf] at hr
      cases hsource : m.source with
      | column name | computed computed | relation relation =>
        simp only [hsource] at hr
        cases hr
      | aliasOf target view =>
        simp only [hsource] at hr hchecked
        cases htarget : mapping.fields.get? target with
        | some other =>
          simp only [htarget] at hr
          cases hr
        | none =>
          -- such an alias is refused when the registry is built
          unfold checkAlias at hchecked
          simp only [htarget] at hchecked
          split at hchecked <;> cases hchecked

theorem Registry.lookup_error {typeName : String} {fault : Error}
    (h : registry.lookup typeName = .error fault) :
    fault = .unknownType typeName ∧ registry.contains typeName = false := by
  unfold Registry.lookup at h
  unfold Registry.contains Dictionary.has
  cases hl : registry.types.get? typeName with
  | some mapping =>
    rw [hl] at h
    cases h
  | none =>
    rw [hl] at h
    cases h
    exact ⟨rfl, rfl⟩

end Schema

namespace Plan

open Schema (Registry Draft TypeMapping TypeFilter Relation Resolved)

/-! ### What is asked for -/

/-- The fields that selections of a type ask for at any depth, each with the type it is a field
of. -/
inductive Asks (registry : Registry) : String → List Selection → (ofType field : String) → Prop
  | here {typeName : String} {selections : List Selection} {selection : Selection} :
      selection ∈ selections → Asks registry typeName selections typeName selection.name
  | deeper {typeName name target ofType field : String} {selections below : List Selection}
      {resolved : Resolved} :
      .nested name below ∈ selections → registry.resolve typeName name = .ok resolved →
      resolved.target? = some target → Asks registry target below ofType field →
      Asks registry typeName selections ofType field

/-- The fault is that of a field that the selections ask for, and that requests may not name. -/
def Unlisted (registry : Registry) (typeName : String) (selections : List Selection)
    (fault : Schema.Error) : Prop :=
  ∃ ofType field, fault = .unknownField ofType field ∧
    Asks registry typeName selections ofType field ∧ registry.lists ofType field = false

/-- The lists that compiling a request leads to: those of the plan of its root statement, and
those of the plans of their follow-ups.  Who asks, how the plan is bounded and for which parents
may differ from statement to statement. -/
inductive Produced (registry : Registry) (request : Request) : ManyPlan → Prop
  | root {env : Environment} {filter : Option TypeFilter} {compiled : Compiled} {plan : NodePlan}
      {m : ManyPlan} :
      env.registry = registry → compileRoot env request filter = .ok compiled →
      Within compiled.plan plan → m ∈ plan.many → Produced registry request m
  | followUp {env : Environment} {above : ManyPlan} {keys : List (List Json)}
      {compiled : Compiled} {plan : NodePlan} {m : ManyPlan} :
      Produced registry request above →
      env.registry = registry → compileMany env above keys = .ok compiled →
      Within compiled.plan plan → m ∈ plan.many → Produced registry request m

variable {registry : Registry} {typeName : String} {selections : List Selection}

theorem Asks.mono {others : List Selection} {ofType field : String} (hsub : selections ⊆ others)
    (h : Asks registry typeName selections ofType field) :
    Asks registry typeName others ofType field := by
  cases h with
  | here hmem => exact .here (hsub hmem)
  | deeper hmem hr ht h => exact .deeper (hsub hmem) hr ht h

theorem Unlisted.mono {others : List Selection} {fault : Schema.Error} (hsub : selections ⊆ others)
    (h : Unlisted registry typeName selections fault) :
    Unlisted registry typeName others fault := by
  obtain ⟨ofType, field, rfl, hasks, hlists⟩ := h
  exact ⟨ofType, field, rfl, hasks.mono hsub, hlists⟩

/-- What the related objects of a field are asked for, the field's own type is. -/
theorem Unlisted.below {name target : String} {below : List Selection} {resolved : Resolved}
    {fault : Schema.Error} (hmem : .nested name below ∈ selections)
    (hr : registry.resolve typeName name = .ok resolved) (ht : resolved.target? = some target)
    (h : Unlisted registry target below fault) : Unlisted registry typeName selections fault := by
  obtain ⟨ofType, field, rfl, hasks, hlists⟩ := h
  exact ⟨ofType, field, rfl, .deeper hmem hr ht hasks, hlists⟩

/-! ### What a step may fail with -/

/-- Of the faults of a schema, a step fails with those of one kind only, in any scope. -/
def Compiling.FailsWith {α : Type} (P : Schema.Error → Prop) (x : Compiling α) : Prop :=
  ∀ s fault, x s = .error (.schema fault) → P fault

namespace Compiling

section

variable {α β : Type} {P P' : Schema.Error → Prop} {x : Compiling α} {f : α → Compiling β}

/-- That is a matter of all faults: those that are none of a schema do not count. -/
theorem failsWith_iff :
    FailsWith P x ↔ FailsOnly (fun e => ∀ fault, e = .schema fault → P fault) x := by
  constructor
  · rintro h s _ hx fault rfl
    exact h s fault hx
  · intro h s fault hx
    exact h s _ hx fault rfl

theorem FailsWith.mono (h : FailsWith P x) (hP : ∀ fault, P fault → P' fault) : FailsWith P' x :=
  fun s fault hx => hP fault (h s fault hx)

theorem FailsWith.bind (hx : FailsWith P x)
    (hf : ∀ a s t, x s = .ok (a, t) → FailsWith P (f a)) : FailsWith P (x >>= f) :=
  failsWith_iff.2 ((failsWith_iff.1 hx).bind fun a s t h => failsWith_iff.1 (hf a s t h))

theorem failsWith_pure (a : α) : FailsWith P (pure a : Compiling α) :=
  failsWith_iff.2 (failsOnly_pure a)

theorem failsWith_throw {e : Error} (he : ∀ fault, e = .schema fault → P fault) :
    FailsWith P (throw e : Compiling α) :=
  failsWith_iff.2 (failsOnly_throw he)

theorem failsWith_ofBuilding (build : Sql.Building α) : FailsWith P (ofBuilding build) :=
  failsWith_iff.2 (failsOnly_ofBuilding build)

theorem failsWith_ofSchema {look : Except Schema.Error α}
    (h : ∀ fault, look = .error fault → P fault) : FailsWith P (ofSchema look) := by
  refine failsWith_iff.2 (failsOnly_ofSchema fun fault hlook _ heq => ?_)
  cases heq
  exact h fault hlook

theorem failsWith_ofSql (build : Except Sql.BuildError α) : FailsWith P (ofSql build) :=
  failsWith_iff.2 (failsOnly_ofSql fun _ => nofun)

/-- A look-up that is known to succeed does not fail. -/
theorem failsWith_found {look : Except Schema.Error α} (h : ∃ a, look = .ok a) :
    FailsWith P (ofSchema look) := by
  obtain ⟨a, rfl⟩ := h
  exact failsWith_ofSchema nofun

end

end Compiling

open Compiling

/-! ### Levels -/

section

variable {env : Environment} {draft : Draft} {P : Schema.Error → Prop}

theorem openLevel_failsWith {level : Level} {filter : Option TypeFilter} {q : Sql.Query}
    (hl : ∃ mapping, env.registry.lookup level.typeName = .ok mapping) :
    FailsWith P (openLevel env level filter q) := by
  by_cases hd : env.settings.maxDepth < level.depth
  · simp only [openLevel, hd, if_true]
    exact .bind (failsWith_throw nofun) fun _ _ _ hthrow => (throw_ok.1 hthrow).elim
  · simp only [openLevel, hd, if_false]
    exact .bind (failsWith_found hl) fun _ _ _ _ => .bind (failsWith_ofBuilding _) fun _ _ _ _ =>
      .bind (failsWith_ofBuilding _) fun _ _ _ _ => failsWith_pure _

theorem openSingle_failsWith {level : Level} {position : Nat} {relation : Relation}
    {target : String} (hl : ∃ mapping, env.registry.lookup target = .ok mapping) :
    FailsWith P (openSingle env level position relation target) := by
  unfold openSingle
  exact .bind (failsWith_found hl) fun _ _ _ _ => .bind (failsWith_ofBuilding _) fun _ _ _ _ =>
    .bind (failsWith_ofBuilding _) fun _ _ _ _ => openLevel_failsWith hl

/-- The level of a single related object is of the type that its relation leads to. -/
theorem openLevel_typeName {level : Level} {filter : Option TypeFilter} {q : Sql.Query}
    {o : Opened} {s t : Sql.Scope} (h : openLevel env level filter q s = .ok (o, t)) :
    o.level.typeName = level.typeName := by
  obtain ⟨-, _, _, _, _, -, -, -, rfl⟩ := openLevel_ok h
  rfl

/-- A field that is no relation has a value: an alias has been followed already. -/
theorem valueExpression_failsWith {level : Level} {name : String} {resolved : Resolved}
    {extras : List (String × String)} (hunaliased : resolved.Unaliased)
    (hn : resolved.relation? = none) :
    FailsWith P (valueExpression env level name resolved extras) := by
  simp only [valueExpression]
  split
  · exact .bind (failsWith_ofBuilding _) fun _ _ _ _ => failsWith_pure _
  · exact failsWith_pure _
  · split
    · exact failsWith_pure _
    · split
      · exact failsWith_pure _
      · exact failsWith_pure _
      · exact failsWith_pure _
      · next hcomputed _ _ _ _ hcolumn hplain hnone =>
        -- what is left is an alias or a relation
        exfalso
        cases hm : resolved.mapping with
        | none => exact hnone (by rw [hm]; rfl)
        | some m =>
          rw [hm] at hcomputed hcolumn hplain
          cases hsource : m.source with
          | computed c => exact hcomputed c m.rawSelect (by rw [Option.map_some, hsource])
          | column column =>
            cases column with
            | some column => exact hcolumn column m.rawSelect (by rw [Option.map_some, hsource])
            | none => exact hplain m.rawSelect (by rw [Option.map_some, hsource])
          | aliasOf target view => exact hunaliased m target view hm hsource
          | relation relation =>
            rw [Resolved.relation?, hm, Option.bind_some, Schema.FieldMapping.relation?,
              hsource] at hn
            cases hn

include draft in
/-- Of a field that is looked up, nothing is unknown but that it is not listed. -/
theorem resolve_failsWith (h : draft.build = .ok env.registry)
    (hl : ∃ mapping, env.registry.lookup typeName = .ok mapping) (selection : Selection) :
    FailsWith (Unlisted env.registry typeName [selection])
      (ofSchema (env.registry.resolve typeName selection.name)) := by
  obtain ⟨mapping, hl⟩ := hl
  refine failsWith_ofSchema fun fault hr => ?_
  obtain ⟨rfl, hlists⟩ := Draft.resolve_error h hl hr
  exact ⟨typeName, selection.name, rfl, .here List.mem_cons_self, hlists⟩

mutual

/-- A selected field of a registered type fails for a field that is not listed, if at all for the
schema. -/
theorem entry_failsWith (h : draft.build = .ok env.registry) {o : Opened} {p : Progress}
    {position : Nat} (hl : ∃ mapping, env.registry.lookup o.level.typeName = .ok mapping) :
    (selection : Selection) →
    FailsWith (Unlisted env.registry o.level.typeName [selection])
      (entry env o p position selection)
  | .scalar name => by
    rw [entry, valueEntry]
    refine .bind (resolve_failsWith h hl (.scalar name)) fun resolved _ _ hr => ?_
    have hunaliased := Draft.resolve_unaliased h (ofSchema_ok.1 hr).1
    cases hn : resolved.relation? with
    | some relation =>
      simp only [Option.isSome_some, if_true]
      exact .bind (failsWith_throw nofun) fun _ _ _ hthrow => (throw_ok.1 hthrow).elim
    | none =>
      simp only [Option.isSome_none, Bool.false_eq_true, if_false]
      exact .bind (valueExpression_failsWith hunaliased hn) fun _ _ _ _ => failsWith_pure _
  | .nested name selection => by
    rw [entry]
    refine .bind (resolve_failsWith h hl (.nested name selection)) fun resolved _ _ hr => ?_
    have hr := (ofSchema_ok.1 hr).1
    split
    · exact failsWith_throw nofun
    · next relation hn =>
      split
      · exact failsWith_pure _
      · have htarget := Draft.target_registered h hr hn
        have hview : resolved.target? = some (resolved.view.getD relation.target) := by
          rw [Resolved.target?, hn, Option.map_some]
        refine .bind (openSingle_failsWith htarget) fun child _ _ ho => ?_
        rw [← openSingle_typeName ho] at htarget hview
        refine .bind ?_ fun _ _ _ _ => failsWith_pure _
        exact (entries_failsWith h htarget selection).mono fun _ hfault =>
          hfault.below List.mem_cons_self hr hview

/-- So do selected fields of a registered type. -/
theorem entries_failsWith (h : draft.build = .ok env.registry) {o : Opened} {p : Progress}
    {position : Nat} (hl : ∃ mapping, env.registry.lookup o.level.typeName = .ok mapping) :
    (selections : List Selection) →
    FailsWith (Unlisted env.registry o.level.typeName selections)
      (entries env o p position selections)
  | [] => by
    rw [entries]
    exact failsWith_pure _
  | selection :: selections => by
    rw [entries]
    refine .bind ?_ fun _ _ _ _ => ?_
    · exact (entry_failsWith h hl selection).mono fun _ hfault =>
        hfault.mono (List.cons_subset_cons _ (List.nil_subset _))
    · exact (entries_failsWith h hl selections).mono fun _ hfault =>
        hfault.mono (List.subset_cons_self _ _)

end

theorem compileLevel_failsWith (h : draft.build = .ok env.registry) {level : Level}
    {filter : Option TypeFilter} {q : Sql.Query}
    (hl : ∃ mapping, env.registry.lookup level.typeName = .ok mapping)
    (selections : List Selection) :
    FailsWith (Unlisted env.registry level.typeName selections)
      (compileLevel env level filter q selections) := by
  unfold compileLevel
  refine .bind (openLevel_failsWith hl) fun o _ _ ho => .bind ?_ fun _ _ _ _ => failsWith_pure _
  rw [← openLevel_typeName ho] at hl ⊢
  exact entries_failsWith h hl selections

/-! ### Statements -/

theorem addRequestFilter_failsWith {tableAlias : String} :
    (filter : Object) → (q : Sql.Query) → FailsWith P (addRequestFilter tableAlias q filter)
  | [], _ => failsWith_pure _
  | _ :: rest, _ => by
    rw [addRequestFilter]
    exact .bind (failsWith_ofBuilding _) fun q _ _ _ => addRequestFilter_failsWith rest q

theorem finish_failsWith {sql : String} {scope : Sql.Scope} {fault : Schema.Error} :
    finish sql scope ≠ .error (.schema fault) := by
  intro h
  simp only [finish] at h
  cases hv : (scope.statement sql).verifyBound with
  | error e =>
    rw [hv] at h
    cases h
  | ok u =>
    rw [hv] at h
    cases h

/-- A root statement is refused for its type or for a field that is not listed. -/
theorem compileRoot_refused (h : draft.build = .ok env.registry) {request : Request}
    {filter : Option TypeFilter} {fault : Schema.Error}
    (hc : compileRoot env request filter = .error (.schema fault)) :
    (fault = .unknownType request.typeName ∧
        env.registry.contains request.typeName = false) ∨
      Unlisted env.registry request.typeName request.fields fault := by
  unfold compileRoot at hc
  split at hc
  · cases hc
  · cases hr : rootLevel env request filter {} with
    | ok found =>
      rw [StateT.run, hr] at hc
      change (finish found.1.1 found.2 >>= _) = _ at hc
      cases hf : finish found.1.1 found.2 with
      | error e =>
        rw [hf] at hc
        cases hc
        exact absurd hf finish_failsWith
      | ok statement =>
        rw [hf] at hc
        cases hc
    | error e =>
      rw [StateT.run, hr] at hc
      cases hc
      suffices hroot : FailsWith (fun fault => (fault = .unknownType request.typeName ∧
          env.registry.contains request.typeName = false) ∨
            Unlisted env.registry request.typeName request.fields fault)
          (rootLevel env request filter) from hroot {} fault hr
      unfold rootLevel
      refine .bind (failsWith_ofSchema fun _ hl => .inl (Registry.lookup_error hl))
        fun mapping _ _ hl => .bind (failsWith_ofBuilding _) fun tableAlias _ _ _ => .bind ?_
        fun _ _ _ _ => .bind (addRequestFilter_failsWith _ _) fun _ _ _ _ => .bind ?_
        fun _ _ _ _ => failsWith_pure _
      · exact (compileLevel_failsWith h ⟨mapping, (ofSchema_ok.1 hl).1⟩ _).mono fun _ => .inr
      · exact failsWith_ofSql _

/-! ### Follow-ups -/

/-- A list is the relation of its field, which leads to its type; what is asked for of the list is
asked for of the type. -/
structure Asked (registry : Registry) (typeName : String) (selections : List Selection)
    (m : ManyPlan) : Prop where
  declared : ∃ resolved relation, registry.resolve m.parentType m.field = .ok resolved ∧
    resolved.relation? = some relation ∧ m.target = resolved.view.getD relation.target
  within : ∀ fault, Unlisted registry m.target m.selection fault →
    Unlisted registry typeName selections fault

/-- What is asked for of a single related object is asked for of the type of the level. -/
theorem PlannedFor.within {plan plan' : NodePlan} (h : PlannedFor env selections plan)
    (hw : Within plan plan') :
    ∃ below, PlannedFor env below plan' ∧ ∀ fault,
      Unlisted env.registry plan'.typeName below fault →
        Unlisted env.registry plan.typeName selections fault := by
  induction hw with
  | self => exact ⟨selections, h, fun _ => id⟩
  | single _ hi hk ih =>
    obtain ⟨above, ⟨mapping, depth, hplanned⟩, hwithin⟩ := ih
    obtain ⟨selection, hs, hfield⟩ := hplanned.field_at hi
    cases hfield with
    | value _ _ => cases hk
    | many _ _ _ _ => cases hk
    | single hr hn _ hl hchild =>
      cases hk
      refine ⟨_, ⟨_, _, hchild⟩, fun fault hfault => hwithin fault ?_⟩
      exact hfault.below (List.mem_of_getElem? hs) hr (by rw [Resolved.target?, hn]; rfl)

theorem PlannedFor.asked {plan plan' : NodePlan} (h : PlannedFor env selections plan)
    (hw : Within plan plan') {m : ManyPlan} (hm : m ∈ plan'.many) :
    Asked env.registry plan.typeName selections m := by
  obtain ⟨below, ⟨mapping, depth, hplanned⟩, hwithin⟩ := h.within hw
  obtain ⟨place, name, resolved, relation, selection, hmem, hr, hn, rfl⟩ := hplanned.list_mem hm
  refine ⟨⟨resolved, relation, hr, hn, rfl⟩, fun fault hfault => hwithin fault ?_⟩
  exact hfault.below hmem hr (by rw [Resolved.target?, hn]; rfl)

theorem Produced.asked {request : Request} {m : ManyPlan} (h : Produced registry request m) :
    Asked registry request.typeName request.fields m := by
  induction h with
  | root hregistry hc hw hm =>
    rw [← (compileRoot_planned hc).2.1, ← hregistry]
    exact (compileRoot_plannedFor hc).1.asked hw hm
  | followUp _ hregistry hc hw hm ih =>
    have hasked := (compileMany_plannedFor hc).1.asked hw hm
    rw [(compileMany_planned hc).2.1, hregistry] at hasked
    exact ⟨hasked.declared, fun fault hfault => ih.within fault (hasked.within fault hfault)⟩

/-- A follow-up is refused for a field that is not listed, if at all for the schema. -/
theorem compileMany_unlisted (h : draft.build = .ok env.registry) {request : Request}
    {m : ManyPlan} (hm : Asked env.registry request.typeName request.fields m)
    {keys : List (List Json)} {fault : Schema.Error}
    (hc : compileMany env m keys = .error (.schema fault)) :
    Unlisted env.registry m.target m.selection fault := by
  obtain ⟨resolved, relation, hr, hn, htarget⟩ := hm.declared
  obtain ⟨parent, hparent, -⟩ := Registry.resolve_ok hr
  obtain ⟨child, hchild⟩ := Draft.target_registered h hr hn
  rw [← htarget] at hchild
  unfold compileMany at hc
  split at hc
  · cases hc
  · simp only [hparent, hr, hn, hchild, Except.mapError, bind, Except.bind] at hc
    cases hf : followUpLevel env m parent child relation keys {} with
    | ok found =>
      rw [StateT.run, hf] at hc
      change (finish found.1.sql found.2 >>= _) = _ at hc
      cases hs : finish found.1.sql found.2 with
      | error e =>
        rw [hs] at hc
        cases hc
        exact absurd hs finish_failsWith
      | ok statement =>
        rw [hs] at hc
        cases hc
    | error e =>
      rw [StateT.run, hf] at hc
      cases hc
      refine (?_ : FailsWith _ (followUpLevel env m parent child relation keys)) {} fault hf
      unfold followUpLevel
      exact .bind (failsWith_ofBuilding _) fun _ _ _ _ =>
        .bind (compileLevel_failsWith h ⟨child, hchild⟩ _) fun _ _ _ _ =>
          .bind (failsWith_ofSql _) fun _ _ _ _ => .bind (failsWith_ofBuilding _) fun _ _ _ _ =>
            .bind (failsWith_ofBuilding _) fun _ _ _ _ => failsWith_pure _

end

/-- A registry that was built is safe to send requests to.  Of the faults of a schema a root
statement can be refused only for a type that is not registered, which is that of the request, or
for a field that the request asks for and the registry does not list; a follow-up only for such a
field, among those that its own list asks for. -/
theorem refused_by_request {draft : Draft} (h : draft.build = .ok registry) (request : Request) :
    (∀ env filter fault, env.registry = registry →
      compileRoot env request filter = .error (.schema fault) →
        (fault = .unknownType request.typeName ∧ registry.contains request.typeName = false) ∨
          Unlisted registry request.typeName request.fields fault) ∧
    ∀ env m keys fault, env.registry = registry → Produced registry request m →
      compileMany env m keys = .error (.schema fault) →
        Unlisted registry m.target m.selection fault ∧
          Unlisted registry request.typeName request.fields fault := by
  constructor
  · rintro env filter fault rfl hc
    exact compileRoot_refused h hc
  · rintro env m keys fault rfl hm hc
    have hfault := compileMany_unlisted h hm.asked hc
    exact ⟨hfault, hm.asked.within fault hfault⟩

/-! ### Boards with threads of which only the titles are exposed -/

namespace Boards

def threadsOf : Relation := { target := "Thread", many := true, join := .columns "id" "boardId" }

def board : TypeMapping := { fields := [("threads", { source := .relation threadsOf })] }

def types : Dictionary TypeMapping := [("Board", board), ("Thread", {})]

def exposed : Schema.Exposure := [("Board", [("threads", .list "Thread")])]

def draft : Draft := { types, exposed := some exposed }

def environment : Environment :=
  { registry := ⟨types, some exposed⟩, settings := {}, caller := {} }

/-- Boards with a field of their threads. -/
def request (field : String) : Request :=
  { typeName := "Board", fields := [.nested "threads" [.scalar field]] }

/-- Something of a type that there is not. -/
def forums : Request := { typeName := "Forum", fields := [.scalar "name"] }

/-- The threads, in the plan of the boards. -/
def threads? : Option ManyPlan :=
  (compileRoot environment (request "mood") none).toOption.bind fun root => root.plan.many[0]?

/-- What compiling is refused for, if it is. -/
def refusal? {α : Type} : Except Error α → Option Error
  | .error e => some e
  | .ok _ => none

theorem refusal?_some {α : Type} {x : Except Error α} {e : Error} (h : refusal? x = some e) :
    x = .error e := by
  cases x with
  | error e' =>
    cases h
    rfl
  | ok a => cases h

theorem build_draft : draft.build = .ok environment.registry := by
  have htypes : Schema.checkTypes types = .ok () := by
    refine Schema.sorted_forM_ok.2 fun entry he => Schema.sorted_forM_ok.2 fun field hf => ?_
    rcases List.mem_cons.1 he with rfl | he
    · rw [List.mem_singleton.1 hf]
      rfl
    · rw [List.mem_singleton.1 he] at hf
      cases hf
  have hexposed : Schema.checkExposure types exposed = .ok () := by
    refine Schema.sorted_forM_ok.2 fun entry he => ?_
    rw [List.mem_singleton.1 he]
    refine Schema.sorted_forM_ok.2 fun field hf => ?_
    rw [List.mem_singleton.1 hf]
    decide
  change (Schema.checkTypes types >>= fun _ => Schema.checkExposure types exposed >>= _) = _
  rw [htypes]
  change (Schema.checkExposure types exposed >>= _) = _
  rw [hexposed]
  rfl

end Boards

/-- The moods of threads are not exposed, and a follow-up for threads is refused for that; a
request for forums is refused at once. -/
theorem refused_by_request_boards :
    (compileRoot Boards.environment Boards.forums none = .error (.schema (.unknownType "Forum")) ∧
      Boards.environment.registry.contains "Forum" = false) ∧
    ∃ m, Produced Boards.environment.registry (Boards.request "mood") m ∧
      compileMany Boards.environment m [] = .error (.schema (.unknownField "Thread" "mood")) ∧
      Unlisted Boards.environment.registry "Board" [.nested "threads" [.scalar "mood"]]
        (.unknownField "Thread" "mood") := by
  have hforums : compileRoot Boards.environment Boards.forums none =
      .error (.schema (.unknownType "Forum")) := Boards.refusal?_some (by decide +kernel)
  constructor
  · refine ⟨hforums, ?_⟩
    rcases (refused_by_request Boards.build_draft Boards.forums).1 _ none _ rfl hforums with
      ⟨-, h⟩ | ⟨_, _, h, -⟩
    · exact h
    · cases h
  · have hthreads : (Boards.threads?.bind fun m =>
        Boards.refusal? (compileMany Boards.environment m [])) =
          some (.schema (.unknownField "Thread" "mood")) := by decide +kernel
    obtain ⟨m, hm, hrefusal⟩ := Option.bind_eq_some_iff.1 hthreads
    obtain ⟨root, hroot, hlist⟩ := Option.bind_eq_some_iff.1 hm
    have hcompiled := Outcome.toOption_some.1 hroot
    have hproduced : Produced Boards.environment.registry (Boards.request "mood") m :=
      .root rfl hcompiled .self (List.mem_of_getElem? hlist)
    have hrefused := Boards.refusal?_some hrefusal
    have hunlisted := (refused_by_request Boards.build_draft (Boards.request "mood")).2
      _ m [] _ rfl hproduced hrefused
    exact ⟨m, hproduced, hrefused, hunlisted.2⟩

end Plan

end ObjectGraph
