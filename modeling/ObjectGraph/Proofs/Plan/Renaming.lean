import ObjectGraph.Proofs.Plan.SameStatements
import ObjectGraph.Proofs.Plan.Unwritten

/-! # Levels compiled after a renaming

A renaming that keeps the names of a schema without written SQL, and its hidden labels, may rename
what else a request names: fields that are not mapped, and the column of the order.  What is
compiled of a level then has the same parts in the same scope, written alike, and the same plan but
for the names of those fields (`entries_renames`, `compileLevel_renames`). -/

namespace ObjectGraph

/-! ### Requests and plans -/

namespace Selection

mutual

/-- Rename a field and the fields below it. -/
def rename (σ : String → String) : Selection → Selection
  | .scalar name => .scalar (σ name)
  | .nested name fields => .nested (σ name) (renameAll σ fields)

/-- Rename fields and the fields below them. -/
def renameAll (σ : String → String) : List Selection → List Selection
  | [] => []
  | field :: fields => field.rename σ :: renameAll σ fields

end

mutual

theorem depth_rename (σ : String → String) : (field : Selection) →
    (field.rename σ).depth = field.depth
  | .scalar name => rfl
  | .nested name fields => by rw [rename, depth, depth, depthOf_renameAll σ fields]

/-- Renaming keeps the levels of a selection. -/
theorem depthOf_renameAll (σ : String → String) : (fields : List Selection) →
    depthOf (renameAll σ fields) = depthOf fields
  | [] => rfl
  | field :: fields => by
    rw [renameAll, depthOf, depthOf, depth_rename σ field, depthOf_renameAll σ fields]

end

end Selection

/-- Rename the fields of a request and the column of its order. -/
def Request.rename (σ : String → String) (r : Request) : Request :=
  { r with
    fields := Selection.renameAll σ r.fields
    orderBy := r.orderBy.map fun order => (σ order.1, order.2) }

namespace Plan

/-- Rename the field of a list and the fields of its objects. -/
def ManyPlan.rename (σ : String → String) (m : ManyPlan) : ManyPlan :=
  { m with field := σ m.field, selection := Selection.renameAll σ m.selection }

mutual

/-- Rename the fields of a plan. -/
def NodePlan.rename (σ : String → String) : NodePlan → NodePlan
  | ⟨origin, typeName, fields, many⟩ =>
    ⟨origin, typeName, renameFields σ fields, many.map (ManyPlan.rename σ)⟩

/-- Rename fields of a plan. -/
def renameFields (σ : String → String) : List (FieldPlan NodePlan) → List (FieldPlan NodePlan)
  | [] => []
  | field :: fields => renameField σ field :: renameFields σ fields

/-- Rename a field of a plan and what it leads to. -/
def renameField (σ : String → String) : FieldPlan NodePlan → FieldPlan NodePlan
  | ⟨name, kind, json, transform⟩ => ⟨σ name, renameKind σ kind, json, transform⟩

/-- Rename the fields of a single related object. -/
def renameKind (σ : String → String) : FieldKind NodePlan → FieldKind NodePlan
  | .value => .value
  | .single plan => .single (plan.rename σ)
  | .many index => .many index

end

theorem renameFields_append (σ : String → String) (fields more : List (FieldPlan NodePlan)) :
    renameFields σ (fields ++ more) = renameFields σ fields ++ renameFields σ more := by
  induction fields with
  | nil => rfl
  | cons field fields ih => rw [List.cons_append, renameFields, renameFields, ih, List.cons_append]

/-- Rename the field that a fault of a request names. -/
def Error.rename (σ : String → String) : Error → Error
  | .missingSelection typeName field => .missingSelection typeName (σ field)
  | .unexpectedSelection typeName field => .unexpectedSelection typeName (σ field)
  | e => e

/-! ### Outcomes -/

/-- Two computations succeed with related values, or fail with one fault but for the renaming, which
is none for a placeholder without a parameter. -/
inductive Renamed (σ : String → String) {α β : Type} (R : α → β → Prop) :
    Except Error α → Except Error β → Prop
  | ok {a : α} {b : β} : R a b → Renamed σ R (.ok a) (.ok b)
  | error {e : Error} : ¬e.IsUnbound → Renamed σ R (.error e) (.error (e.rename σ))

section

variable {σ : String → String} {α β γ δ : Type} {R : α → β → Prop} {S : γ → δ → Prop}
  {x : Except Error α} {y : Except Error β}

theorem Renamed.bind {f : α → Except Error γ} {g : β → Except Error δ} (h : Renamed σ R x y)
    (hf : ∀ a b, R a b → Renamed σ S (f a) (g b)) : Renamed σ S (x >>= f) (y >>= g) := by
  cases h with
  | ok hab => exact hf _ _ hab
  | error he => exact .error he

/-- Both begin with one look-up. -/
theorem Renamed.lookup {z : Except Schema.Error α} {f : α → Except Error γ} {g : α → Except Error δ}
    (hf : ∀ a, z = .ok a → Renamed σ S (f a) (g a)) :
    Renamed σ S (z.mapError .schema >>= f) (z.mapError .schema >>= g) := by
  cases z with
  | error e => exact Renamed.error (e := .schema e) id
  | ok a => exact hf a rfl

theorem Renamed.mono {R' : α → β → Prop} (h : Renamed σ R x y) (hR : ∀ a b, R a b → R' a b) :
    Renamed σ R' x y := by
  cases h with
  | ok hab => exact .ok (hR _ _ hab)
  | error he => exact .error he

theorem Renamed.ok_left (h : Renamed σ R x y) {a : α} (hx : x = .ok a) :
    ∃ b, y = .ok b ∧ R a b := by
  cases h with
  | ok hab =>
    cases hx
    exact ⟨_, rfl, hab⟩
  | error _ => cases hx

theorem Renamed.bound (h : Renamed σ R x y) : Bound x := by
  rintro e rfl
  cases h with
  | error he => exact he

end

open Sql (Query Scope Params Building IsName Written qualified)
open Sql.Building (Gives)
open Schema (Registry TypeMapping Relation Resolved)

namespace Compiling

variable {σ : String → String} {s : Scope} {α β γ δ : Type} {R : Params → α → β → Prop}
  {S : Params → γ → δ → Prop}

/-- Two compilations from one scope to one scope, in which only parameters are added. -/
def Renames (σ : String → String) (s : Scope) (R : Params → α → β → Prop) (x : Compiling α)
    (y : Compiling β) : Prop :=
  Renamed σ (fun p q => q.2 = p.2 ∧ s.params <+: p.2.params ∧ R p.2.params p.1 q.1) (x s) (y s)

theorem Renames.pure {a : α} {b : β} (h : R s.params a b) :
    Renames σ s R (Pure.pure a : Compiling α) (Pure.pure b) := .ok ⟨rfl, List.prefix_rfl, h⟩

theorem Renames.throw {e e' : Error} (he : ¬e.IsUnbound) (hrename : e' = e.rename σ) :
    Renames σ s R (MonadExcept.throw e : Compiling α) (MonadExcept.throw e' : Compiling β) := by
  rw [hrename]
  exact .error he

theorem Renames.bind {x : Compiling α} {y : Compiling β} {f : α → Compiling γ}
    {g : β → Compiling δ} (h : Renames σ s R x y)
    (hf : ∀ a b t, s.params <+: t.params → R t.params a b → Renames σ t S (f a) (g b)) :
    Renames σ s S (x >>= f) (y >>= g) := by
  refine Renamed.bind h ?_
  rintro ⟨a, t⟩ ⟨b, u⟩ ⟨ht, hgrows, hab⟩
  obtain rfl : t = u := ht.symm
  exact Renamed.mono (hf a b t hgrows hab) fun _ _ hpq => ⟨hpq.1, hgrows.trans hpq.2.1, hpq.2.2⟩

theorem Renames.mono {R' : Params → α → β → Prop} {x : Compiling α} {y : Compiling β}
    (h : Renames σ s R x y) (hR : ∀ params a b, R params a b → R' params a b) :
    Renames σ s R' x y :=
  Renamed.mono h fun _ _ hpq => ⟨hpq.1, hpq.2.1, hR _ _ _ hpq.2.2⟩

/-- Both begin with a step of building. -/
theorem Renames.ofGives {build : Building α} {P : Params → α → Prop} (h : Gives s build P) :
    Renames σ s (fun params a b => a = b ∧ P params a) (ofBuilding build) (ofBuilding build) :=
  .ok ⟨rfl, h.1, rfl, h.2⟩

theorem Renames.ofSchema {x : Except Schema.Error α} {r : α → β} {f : α → Compiling γ}
    {g : β → Compiling δ} (hf : ∀ a, x = .ok a → Renames σ s S (f a) (g (r a))) :
    Renames σ s S (Compiling.ofSchema x >>= f) (Compiling.ofSchema (x.map r) >>= g) := by
  cases x with
  | error e => exact Renamed.error (e := .schema e) id
  | ok a => exact hf a rfl

/-- Both begin with one look-up. -/
theorem Renames.lookup {x : Except Schema.Error α} {f : α → Compiling γ} {g : α → Compiling δ}
    (hf : ∀ a, x = .ok a → Renames σ s S (f a) (g a)) :
    Renames σ s S (Compiling.ofSchema x >>= f) (Compiling.ofSchema x >>= g) := by
  cases x with
  | error e => exact Renamed.error (e := .schema e) id
  | ok a => exact hf a rfl

end Compiling

open Compiling (Renames)

/-! ### Select lists -/

/-- Select lists with renamed labels and expressions that are written alike. -/
def SelectList.Renamed (σ : String → String) (params : Params) (s s' : SelectList) : Prop :=
  List.Forall₂ (fun item item' => item'.1 = σ item.1 ∧ Written σ params item.2 item'.2) s s'

namespace SelectList

variable {σ : String → String} {params params' : Params} {s s' : SelectList}

theorem Renamed.grow (h : s.Renamed σ params s') (hgrows : params <+: params') :
    s.Renamed σ params' s' :=
  List.Forall₂.imp (fun _ _ hitem => ⟨hitem.1, hitem.2.grow hgrows⟩) h

/-- A label is there after a renaming if it was there before. -/
theorem Renamed.any_label (h : s.Renamed σ params s') (hσ : Function.Injective σ) (label : String) :
    (s'.any fun item => item.1 == σ label) = s.any fun item => item.1 == label := by
  induction h with
  | nil => rfl
  | cons hitem _ ih =>
    rw [List.any_cons, List.any_cons, ih, hitem.1, hσ.beq_eq]

theorem Renamed.add (h : s.Renamed σ params s') (hσ : Function.Injective σ) (label : String)
    {expression expression' : String} (he : Written σ params expression expression') :
    (s.add label expression).Renamed σ params (s'.add (σ label) expression') := by
  unfold SelectList.add
  rw [h.any_label hσ]
  split
  · exact h
  · exact List.rel_append h (.cons ⟨rfl, he⟩ .nil)

theorem Renamed.addAll (h : s.Renamed σ params s') (hσ : Function.Injective σ)
    {items items' : SelectList} (hitems : items.Renamed σ params items') :
    (s.addAll items).Renamed σ params (s'.addAll items') := by
  unfold SelectList.addAll
  induction hitems generalizing s s' with
  | nil => exact h
  | @cons item item' _ _ hitem _ ih =>
    have hadded := h.add hσ item.1 hitem.2
    rw [← hitem.1] at hadded
    exact ih hadded

/-- Columns with labels that are kept. -/
theorem renamed_columns (label : String → String) {tableAlias : String} (ha : IsName tableAlias)
    {columns : List String} (hlabel : ∀ c ∈ columns, σ (label c) = label c)
    (hcolumn : ∀ c ∈ columns, σ c = c) :
    SelectList.Renamed σ params (columns.map fun c => (label c, qualified tableAlias c))
      (columns.map fun c => (label c, qualified tableAlias c)) := by
  unfold SelectList.Renamed
  rw [List.forall₂_map_left_iff, List.forall₂_map_right_iff]
  exact List.forall₂_same.2 fun c hc =>
    ⟨(hlabel c hc).symm, Sql.written_qualified_kept ha (hcolumn c hc)⟩

/-- Packed objects are written alike. -/
theorem Renamed.jsonObject (h : s.Renamed σ params s') (d : Sql.Dialect) :
    Written σ params (d.jsonObject s) (d.jsonObject s') := by
  have hmembers : Written σ params
      (String.intercalate ", " (s.map fun item => Sql.quoteLiteral item.1 ++ ", " ++ item.2))
      (String.intercalate ", " (s'.map fun item => Sql.quoteLiteral item.1 ++ ", " ++ item.2)) := by
    refine Sql.written_intercalate ", " (by decide) ?_
    rw [List.forall₂_map_left_iff, List.forall₂_map_right_iff]
    refine List.Forall₂.imp (fun item item' hitem => ?_) h
    rw [hitem.1]
    exact (Sql.written_literal item.1).link ", " (by decide) hitem.2
  have hfunction : Sql.Plain (d.objectFunction ++ "(") := by cases d <;> decide
  unfold Sql.Dialect.jsonObject
  exact (hmembers.prepend hfunction).append (Sql.written_plain (by decide)) (by decide) (by decide)

end SelectList

/-- What is packed is written alike, embedded in a level that is packed itself or not. -/
theorem written_packed {σ : String → String} {params : Params} {text text' : String}
    (h : Written σ params text text') (d : Sql.Dialect) (nested : Bool) :
    Written σ params (if nested = true then d.embedJson text else text)
      (if nested = true then d.embedJson text' else text') := by
  split
  · cases d with
    | postgresql => exact h
    | sqlite =>
      exact (h.prepend (by decide)).append (Sql.written_plain (by decide)) (by decide) (by decide)
  · exact h

/-- The items of a select list are added to a query. -/
theorem SelectList.Renamed.addSelects {σ : String → String} {params : Params} {q q' : Query}
    {select select' : SelectList} (h : select.Renamed σ params select')
    (hq : Query.Renamed σ params q q') :
    Query.Renamed σ params (addSelects q select) (addSelects q' select') := by
  unfold Plan.addSelects
  induction h generalizing q q' with
  | nil => exact hq
  | @cons item item' _ _ hitem _ ih =>
    have hadded := hq.addSelectAs hitem.2 item.1
    rw [← hitem.1] at hadded
    exact ih hadded

/-! ### Levels -/

section

variable {env : Environment} {σ : String → String} {s : Scope} {params params' : Params}

/-- A level whose parts a renaming keeps. -/
structure Opened.Kept (env : Environment) (σ : String → String) (params : Params) (o : Opened) :
    Prop where
  lookup : env.registry.lookup o.level.typeName = .ok o.mapping
  tableAlias : IsName o.level.tableAlias
  extraRequired : ∀ c ∈ o.level.extraRequired, σ c = c
  query : o.query.Fixed σ params

theorem Opened.Kept.grow {o : Opened} (h : o.Kept env σ params) (hgrows : params <+: params') :
    o.Kept env σ params' :=
  { h with query := h.query.grow hgrows }

/-- Begin a level: it stays as it is, and no filter adds a select. -/
theorem openLevel_renames {level : Level} {q : Query} (hunwritten : env.registry.Unwritten)
    (ha : IsName level.tableAlias) (hextra : ∀ c ∈ level.extraRequired, σ c = c)
    (hq : q.Fixed σ s.params) :
    Renames σ s (fun params o o' => o = o' ∧ o.Kept env σ params ∧ o.level = level ∧
        o.progress = ⟨[], [], [], []⟩)
      (openLevel env level none q) (openLevel env level none q) := by
  unfold openLevel
  split
  · exact Renames.throw id rfl
  · refine Renames.lookup fun mapping hl => ?_
    have hfilter := hunwritten.filter _ (Registry.mem_types hl)
    simp only at hfilter
    let opened (taken : List (String × String) × Query) : Opened :=
      ⟨level, mapping, taken.2, ⟨[], taken.1, [], []⟩⟩
    rw [hfilter]
    change Renames σ s _ (Pure.pure (opened q.takeLabelled)) (Pure.pure (opened q.takeLabelled))
    rw [hq.takeLabelled]
    exact Renames.pure ⟨rfl, ⟨hl, ha, hextra, hq⟩, rfl, rfl⟩

/-- What is compiled of a level, and of the level after a renaming. -/
structure Progress.Renamed (σ : String → String) (params : Params) (p p' : Progress) : Prop where
  select : p.select.Renamed σ params p'.select
  extras : p.extras = []
  extras' : p'.extras = []
  fields : p'.fields = renameFields σ p.fields
  many : p'.many = p.many.map (ManyPlan.rename σ)

theorem Progress.Renamed.grow {p p' : Progress} (h : p.Renamed σ params p')
    (hgrows : params <+: params') : p.Renamed σ params' p' :=
  { h with select := h.select.grow hgrows }

theorem progress_start : Progress.Renamed σ params ⟨[], [], [], []⟩ ⟨[], [], [], []⟩ :=
  ⟨.nil, rfl, rfl, rfl, rfl⟩

/-- A value or a single related object is added. -/
theorem Progress.Renamed.add {p p' : Progress} (h : p.Renamed σ params p')
    (hσ : Function.Injective σ) {expression expression' : String}
    (he : Written σ params expression expression') (field : FieldPlan NodePlan) :
    Progress.Renamed σ params
      ⟨p.select.add field.name expression, p.extras, p.fields ++ [field], p.many⟩
      ⟨p'.select.add (σ field.name) expression', p'.extras, p'.fields ++ [renameField σ field],
        p'.many⟩ := by
  refine ⟨h.select.add hσ _ he, h.extras, h.extras', ?_, h.many⟩
  rw [h.fields, renameFields_append]
  rfl

/-- The expression of a value. -/
theorem ownExpression_renames {tableAlias : String} {typeName field : String} {resolved : Resolved}
    (hunwritten : env.registry.Unwritten) (hkept : env.registry.KeptBy σ) (ha : IsName tableAlias)
    (hr : env.registry.resolve typeName field = .ok resolved) :
    Renames σ s (fun params own own' => Written σ params own.1 own'.1)
      (Compiling.ofBuilding (ownExpression env tableAlias resolved))
      (Compiling.ofBuilding (ownExpression env tableAlias (resolved.rename σ))) := by
  have hcolumn : Renames σ s (fun params own own' => Written σ params own.1 own'.1)
      (Pure.pure (qualified tableAlias resolved.field, false))
      (Pure.pure (qualified tableAlias (σ resolved.field), false)) :=
    Renames.pure (Sql.written_qualified ha resolved.field)
  unfold ownExpression Resolved.rename
  simp only
  cases hm : resolved.mapping with
  | none => exact hcolumn
  | some m =>
    obtain ⟨hraw, hsource⟩ := hunwritten.of_resolved hr hm
    have hnames : ∀ c ∈ m.source.names, σ c = c := fun c hc =>
      hkept.names c (Registry.resolved_names hr hm (List.mem_append_left _ hc))
    simp only [Option.map_some, hraw]
    generalize m.source = source at hsource hnames
    cases source with
    | column column =>
      cases column with
      | none => exact hcolumn
      | some column =>
        have hname : σ column = column := hnames column (List.mem_singleton.2 rfl)
        exact Renames.pure (Sql.written_qualified_kept ha hname)
    | computed computed =>
      cases computed with
      | script steps wrap => cases hsource
      | existsByUser test =>
        have hgives : Gives s (do pure (← test.render env.caller tableAlias, true))
            fun params (own : String × Bool) => Written σ params own.1 own.1 :=
          (Schema.ExistsByUser.render_gives env.caller hsource hnames ha).bind
            fun _ _ _ htext => Gives.pure htext
        refine (Renames.ofGives hgives).mono ?_
        rintro params own _ ⟨rfl, htext⟩
        exact htext
    | relation relation => exact hcolumn
    | aliasOf field view => exact hcolumn

/-- Where filters added nothing, a value has its own expression. -/
theorem pick_nil (name : String) (own : String × Bool) : pick name own [] = (own.1, []) := by
  unfold pick
  split <;> rfl

/-- A renaming that keeps the names of a registry without written SQL, in which no field is answered
by an alias. -/
structure Renaming (env : Environment) (σ : String → String) : Prop where
  unwritten : env.registry.Unwritten
  kept : env.registry.KeptBy σ
  unaliased : ∀ typeName name resolved, env.registry.resolve typeName name = .ok resolved →
    resolved.Unaliased

end

section

variable {env : Environment} {σ : String → String} (hσ : Renaming env σ)

include hσ

variable {s : Scope} {params : Params} {o : Opened} {p p' : Progress} {position : Nat}
  {name : String}

theorem valueEntry_renames (ho : o.Kept env σ s.params) (hp : p.Renamed σ s.params p') :
    Renames σ s (Progress.Renamed σ) (valueEntry env o.level p name)
      (valueEntry env o.level p' (σ name)) := by
  cases hr : env.registry.resolve o.level.typeName name with
  | error e =>
    unfold valueEntry
    rw [Registry.resolve_rename hσ.unwritten.exposed hσ.kept, hr]
    exact Renamed.error (e := .schema e) id
  | ok resolved =>
    have hr' : env.registry.resolve o.level.typeName (σ name) = .ok (resolved.rename σ) := by
      rw [Registry.resolve_rename hσ.unwritten.exposed hσ.kept, hr]
      rfl
    cases hn : resolved.relation? with
    | some relation =>
      have hn' : (resolved.rename σ).relation? = some relation := hn
      unfold valueEntry
      rw [hr, hr']
      change Renames σ s _ (if resolved.relation?.isSome = true then _ else _)
        (if (resolved.rename σ).relation?.isSome = true then _ else _)
      rw [hn, hn']
      exact Renames.throw id rfl
    | none =>
      have hunaliased := hσ.unaliased _ _ _ hr
      rw [valueEntry_eq hr hn hunaliased, valueEntry_eq hr' hn hunaliased]
      have hown := ownExpression_renames (s := s) hσ.unwritten hσ.kept ho.tableAlias hr
      refine hown.bind fun own own' t hgrows hwritten => ?_
      have hadded := (hp.grow hgrows).add hσ.kept.injective hwritten (valueField name resolved)
      rw [hp.extras, hp.extras'] at hadded ⊢
      simp only [pick_nil]
      exact Renames.pure hadded

theorem manyEntry_renamed {resolved : Resolved} {relation : Relation} {below : List Selection}
    (hr : env.registry.resolve o.level.typeName name = .ok resolved)
    (hn : resolved.relation? = some relation) (ho : o.Kept env σ params)
    (hp : p.Renamed σ params p') :
    (manyEntry o p position name resolved relation below).Renamed σ params
      (manyEntry o p' position (σ name) (resolved.rename σ) relation
        (Selection.renameAll σ below)) := by
  have hcolumns : ∀ c ∈ parentKeyColumns o.mapping relation,
      σ (keyLabel c) = keyLabel c ∧ σ c = c := by
    intro c hc
    have hkey := Registry.parentKeyColumns_mem ho.lookup hr hn hc
    exact ⟨hσ.kept.hidden _ (Registry.keyLabel_mem ho.lookup hkey),
      hσ.kept.names _ (Registry.keyColumn_mem ho.lookup hkey)⟩
  refine ⟨hp.select.addAll hσ.kept.injective (SelectList.renamed_columns keyLabel ho.tableAlias
    (fun c hc => (hcolumns c hc).1) fun c hc => (hcolumns c hc).2), hp.extras, hp.extras', ?_, ?_⟩
  · change p'.fields ++ [_] = renameFields σ (p.fields ++ [_])
    rw [hp.fields, renameFields_append, hp.many, List.length_map]
    rfl
  · change p'.many ++ [_] = (p.many ++ [_]).map _
    rw [hp.many, List.map_append]
    rfl

/-- Begin the level of a single related object: it stays as it is. -/
theorem openSingle_renames {resolved : Resolved} {relation : Relation} {target : String}
    (hr : env.registry.resolve o.level.typeName name = .ok resolved)
    (hn : resolved.relation? = some relation) (ho : o.Kept env σ s.params) :
    Renames σ s (fun params child child' => child = child' ∧ child.Kept env σ params ∧
        child.progress = ⟨[], [], [], []⟩)
      (openSingle env o.level position relation target)
      (openSingle env o.level position relation target) := by
  have hnames : ∀ c ∈ relation.names, σ c = c := fun c hc =>
    hσ.kept.names c (Registry.relation_names hr hn hc)
  unfold openSingle
  refine Renames.lookup fun mapping hl => ?_
  refine (Renames.ofGives (Sql.freshAlias_gives target s)).bind ?_
  rintro tableAlias _ t ht ⟨rfl, ha⟩
  have hq : (Query.fromTable {} (mapping.tableName target) tableAlias).Fixed σ t.params :=
    .fromTable (hσ.kept.names _ (Registry.tableName_mem hl)) ha
  have hjoin := Schema.JoinRule.apply_gives env.caller (hσ.unwritten.onColumns hr hn)
    (fun c hc => hnames c (List.mem_cons_of_mem _ (List.mem_append_left _ hc))) ho.tableAlias ha hq
  refine (Renames.ofGives hjoin).bind ?_
  rintro q _ u hu ⟨rfl, hq⟩
  let child : Level :=
    ⟨target, tableAlias, o.level.depth + 1, true, [], o.level.origin ++ [position]⟩
  have hopened : ∀ {q : Query}, q.Fixed σ u.params → Renames σ u
      (fun params child child' => child = child' ∧ child.Kept env σ params ∧
        child.progress = ⟨[], [], [], []⟩)
      (openLevel env child none q) (openLevel env child none q) := fun hq =>
    (openLevel_renames hσ.unwritten ha (fun _ hc => absurd hc List.not_mem_nil) hq).mono
      fun _ _ _ hopened => ⟨hopened.1, hopened.2.1, hopened.2.2.2⟩
  cases hsort : relation.sort with
  | none => exact hopened hq
  | some sort =>
    have hsorted : σ sort.1 = sort.1 := by
      refine hnames _ (List.mem_cons_of_mem _ (List.mem_append_right _ ?_))
      rw [hsort]
      exact List.mem_singleton.2 rfl
    exact hopened (hq.orderBy (Sql.written_qualified_kept ha hsorted) sort.2)

theorem closeLevel_renamed (ho : o.Kept env σ params) (hp : p.Renamed σ params p') :
    (closeLevel o p).1.Renamed σ params (closeLevel o p').1 ∧
      (closeLevel o p').2 = (closeLevel o p).2.rename σ := by
  have hrequired : ∀ c ∈ o.mapping.required ++ o.level.extraRequired, σ c = c := by
    intro c hc
    rcases List.mem_append.1 hc with hc | hc
    · exact hσ.kept.names c (Registry.mem_names ho.lookup
        (.inr (Schema.TypeMapping.mem_names_of_required hc)))
    · exact ho.extraRequired c hc
  have hselect := hp.select.addAll hσ.kept.injective
    (SelectList.renamed_columns id ho.tableAlias hrequired hrequired)
  unfold closeLevel
  rw [hp.extras, hp.extras', hp.fields, hp.many]
  exact ⟨hselect, rfl⟩

theorem closeSingle_renamed {resolved : Resolved} {child : Opened} {q q' : Progress}
    (hp : p.Renamed σ params p') (hchild : child.Kept env σ params) (hq : q.Renamed σ params q') :
    (closeSingle env o.level p name resolved child q).Renamed σ params
      (closeSingle env o.level p' (σ name) (resolved.rename σ) child q') := by
  obtain ⟨hselect, hplan⟩ := closeLevel_renamed hσ hchild hq
  have hobject := hchild.query.renamed.select (hselect.jsonObject env.settings.dialect)
  have hpacked := written_packed (hobject.withLimit 1).embedded env.settings.dialect o.level.nested
  have hadded := hp.add hσ.kept.injective hpacked
    { name, kind := .single (closeLevel child q).2, transform := resolved.transform? }
  unfold renameField renameKind at hadded
  rw [← hplan] at hadded
  exact hadded

end

section

variable {env : Environment} {σ : String → String}

mutual

/-- A selected field is compiled alike. -/
theorem entry_renames {position : Nat} {s : Scope} {o : Opened} {p p' : Progress}
    (hσ : Renaming env σ) (ho : o.Kept env σ s.params) (hp : p.Renamed σ s.params p') :
    (field : Selection) → Renames σ s (Progress.Renamed σ) (entry env o p position field)
      (entry env o p' position (field.rename σ))
  | .scalar name => by
    rw [Selection.rename, entry, entry]
    exact valueEntry_renames hσ ho hp
  | .nested name below => by
    rw [Selection.rename, entry, entry, Registry.resolve_rename hσ.unwritten.exposed hσ.kept]
    refine Renames.ofSchema fun resolved hr => ?_
    have hrelation : (resolved.rename σ).relation? = resolved.relation? := rfl
    rw [hrelation]
    cases hn : resolved.relation? with
    | none => exact Renames.throw id rfl
    | some relation =>
      by_cases hm : relation.many = true
      · simp only [hm, if_true]
        exact Renames.pure (manyEntry_renamed hσ hr hn ho hp)
      · simp only [hm]
        refine (openSingle_renames hσ hr hn ho).bind ?_
        rintro child _ t ht ⟨rfl, hchild, hstart⟩
        rw [hstart]
        refine (entries_renames hσ hchild progress_start below).bind fun q q' u hu hq => ?_
        exact Renames.pure
          (closeSingle_renamed hσ (hp.grow (ht.trans hu)) (hchild.grow hu) hq)
termination_by structural field => field

/-- Selected fields are compiled alike. -/
theorem entries_renames {position : Nat} {s : Scope} {o : Opened} {p p' : Progress}
    (hσ : Renaming env σ) (ho : o.Kept env σ s.params) (hp : p.Renamed σ s.params p') :
    (fields : List Selection) → Renames σ s (Progress.Renamed σ) (entries env o p position fields)
      (entries env o p' position (Selection.renameAll σ fields))
  | [] => by
    rw [Selection.renameAll, entries, entries]
    exact Renames.pure hp
  | field :: fields => by
    rw [Selection.renameAll, entries, entries]
    refine (entry_renames hσ ho hp field).bind fun q q' t ht hq => ?_
    exact entries_renames hσ (ho.grow ht) hq fields
termination_by structural fields => fields

end

end

end Plan

end ObjectGraph
