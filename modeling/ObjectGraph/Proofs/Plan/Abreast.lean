import ObjectGraph.Proofs.Plan.Columns
import ObjectGraph.Proofs.Schema.Built

/-! # Compilations side by side

Two compilations are alike if they fail with the same fault or give related values; where they are
to be `exact`, they also start and end in one scope (`Compiling.Alike`).  A level and its
counterpart differ in their places, and in their aliases where they are not exact (`LevelTwin`);
what is compiled of the first is ahead of what is compiled of the second (`Ahead`), until both are
closed to the same select list (`Ahead.closeLevel_eq`).  For that, labelled selects of filters count
only where no field has their label (`SelectList.unclaimed`). -/

namespace ObjectGraph

namespace Plan

open Outcome (Same)
open Sql (Query Building qualified)
open Schema (Relation Resolved FieldSource TypeFilter)

/-! ### Outcomes of compiling -/

namespace Compiling

variable {α β γ δ : Type} {exact : Prop} {R R' : α → β → Prop} {S : γ → δ → Prop}
  {x : Compiling α} {y : Compiling β}

/-- Two compilations fail with the same fault or give related values, from and to the same scope if
they are to be exact. -/
def Alike (exact : Prop) (R : α → β → Prop) (x : Compiling α) (y : Compiling β) : Prop :=
  ∀ s s' : Sql.Scope, (exact → s = s') →
    Same (fun p q => R p.1 q.1 ∧ (exact → p.2 = q.2)) (x s) (y s')

theorem Alike.pure {a : α} {b : β} (h : R a b) :
    Alike exact R (Pure.pure a : Compiling α) (Pure.pure b) := fun _ _ hs => .ok ⟨h, hs⟩

theorem Alike.throw (e : Error) :
    Alike exact R (MonadExcept.throw e : Compiling α) (MonadExcept.throw e : Compiling β) :=
  fun _ _ _ => .error e

theorem Alike.mono (h : Alike exact R x y) (hR : ∀ a b, R a b → R' a b) : Alike exact R' x y :=
  fun s s' hs => (h s s' hs).mono fun _ _ hp => ⟨hR _ _ hp.1, hp.2⟩

theorem Alike.bind {f : α → Compiling γ} {g : β → Compiling δ} (h : Alike exact R x y)
    (hf : ∀ a b, R a b → Alike exact S (f a) (g b)) : Alike exact S (x >>= f) (y >>= g) := by
  intro s s' hs
  refine (h s s' hs).bind ?_
  rintro ⟨a, t⟩ ⟨b, t'⟩ ⟨hab, ht⟩
  exact hf a b hab t t' ht

/-- What succeeds on one side alone may be left out. -/
theorem Alike.bind_left {P : α → Prop} {f : α → Compiling γ} {z : Compiling δ}
    (h : ∀ s s' : Sql.Scope, (exact → s = s') →
      ∃ a t, x s = .ok (a, t) ∧ P a ∧ (exact → t = s'))
    (hf : ∀ a, P a → Alike exact S (f a) z) : Alike exact S (x >>= f) z := by
  intro s s' hs
  obtain ⟨a, t, hx, ha, ht⟩ := h s s' hs
  change Same _ (Except.bind (x s) fun p => f p.1 p.2) (z s')
  rw [hx]
  exact hf a ha t s' ht

theorem Alike.ofBuilding {b b' : Building α} (h : exact → b = b') :
    Alike exact (fun a a' => exact → a = a') (ofBuilding b) (ofBuilding b') := by
  intro s s' hs
  refine .ok ⟨fun he => ?_, fun he => ?_⟩
  · rw [h he, hs he]
  · rw [h he, hs he]

theorem Alike.ofSql {r : Except Sql.BuildError α} {r' : Except Sql.BuildError β} (h : Same R r r') :
    Alike exact R (ofSql r) (ofSql r') := by
  intro s s' hs
  cases h with
  | ok hab => exact .ok ⟨hab, hs⟩
  | error e => exact .error (Error.sql e)

/-- What is looked up in the schema is the same for both. -/
theorem Alike.ofSchema {r : Except Schema.Error α} {f : α → Compiling γ} {g : α → Compiling δ}
    (h : ∀ a, r = .ok a → Alike exact S (f a) (g a)) :
    Alike exact S (Compiling.ofSchema r >>= f) (Compiling.ofSchema r >>= g) := by
  cases r with
  | error e => exact fun _ _ _ => .error (Error.schema e)
  | ok a => exact h a rfl

end Compiling

open Compiling (Alike)

/-! ### Labels -/

namespace SelectList

variable {select : SelectList} {items items' : List (String × String)} {label c expression : String}

/-- An item under a label that is there changes nothing. -/
theorem add_of_isSome (h : (select.lookup label).isSome = true) :
    select.add label expression = select := by
  unfold SelectList.add
  rw [if_pos (any_label_iff.2 h)]

theorem isSome_add_self : ((select.add label expression).lookup label).isSome = true := by
  rw [lookup_add, List.lookup_cons, beq_self_eq_true, Option.isSome_or, Option.isSome_some,
    Bool.or_true]

theorem isSome_add (h : (select.lookup c).isSome = true) :
    ((select.add label expression).lookup c).isSome = true := by
  rw [lookup_add, Option.isSome_or, h, Bool.true_or]

theorem isSome_addAll (h : (select.lookup c).isSome = true) :
    ((select.addAll items).lookup c).isSome = true := by
  rw [lookup_addAll, Option.isSome_or, h, Bool.true_or]

theorem isSome_addAll_of_mem {item : String × String} (h : item ∈ items) :
    ((select.addAll items).lookup item.1).isSome = true := by
  have hitems : (items.lookup item.1).isSome = true := by
    rw [Option.isSome_iff_ne_none]
    intro hnone
    exact bne_iff_ne.1 (List.lookup_eq_none_iff.1 hnone item h) rfl
  rw [lookup_addAll, Option.isSome_or, hitems, Bool.or_true]

theorem addAll_of_isSome (h : ∀ item ∈ items, (select.lookup item.1).isSome = true) :
    select.addAll items = select := by
  induction items with
  | nil => rfl
  | cons item items ih =>
    change (select.add item.1 item.2).addAll items = select
    rw [add_of_isSome (h item List.mem_cons_self)]
    exact ih fun other ho => h other (List.mem_cons_of_mem _ ho)

theorem ne_nil_of_isSome (h : (select.lookup c).isSome = true) : select ≠ [] := by
  rintro rfl
  cases h

theorem addAll_eq_nil : select.addAll items = [] ↔ select = [] ∧ items = [] := by
  constructor
  · intro h
    have hitems : items = [] := by
      by_contra hne
      obtain ⟨item, hitem⟩ := List.exists_mem_of_ne_nil _ hne
      exact ne_nil_of_isSome (isSome_addAll_of_mem hitem) h
    subst hitems
    exact ⟨h, rfl⟩
  · rintro ⟨rfl, rfl⟩
    rfl

/-- The items whose labels are not there yet. -/
def unclaimed (select : SelectList) (items : List (String × String)) : List (String × String) :=
  items.filter fun item => (select.lookup item.1).isNone

theorem unclaimed_cons {item : String × String} : select.unclaimed (item :: items) =
    if (select.lookup item.1).isNone then item :: select.unclaimed items
    else select.unclaimed items := List.filter_cons

/-- A label that is claimed leaves the items of the others. -/
theorem unclaimed_add : (select.add label expression).unclaimed items =
    (select.unclaimed items).filter fun item => item.1 != label := by
  unfold unclaimed
  rw [List.filter_filter]
  refine List.filter_congr fun item _ => ?_
  rw [lookup_add, List.lookup_cons, List.lookup_nil]
  by_cases hl : item.1 = label
  · rw [hl, beq_self_eq_true, bne_self_eq_false, Bool.false_and, Option.isNone_or]
    exact Bool.and_false _
  · rw [beq_false_of_ne hl, bne_iff_ne.2 hl, Bool.true_and]
    exact congrArg Option.isNone Option.or_none

theorem unclaimed_unclaimed {t : SelectList}
    (h : ∀ c, (t.lookup c).isSome = true → (select.lookup c).isSome = true) :
    select.unclaimed (t.unclaimed items) = select.unclaimed items := by
  unfold unclaimed
  rw [List.filter_filter]
  refine List.filter_congr fun item _ => ?_
  cases ht : t.lookup item.1 with
  | none => exact Bool.and_true _
  | some e =>
    have hs := h item.1 (by rw [ht]; rfl)
    rw [Option.isSome_iff_exists] at hs
    obtain ⟨e', he'⟩ := hs
    rw [he']
    rfl

theorem lookup_unclaimed (h : select.lookup label = none) :
    (select.unclaimed items).lookup label = items.lookup label := by
  induction items with
  | nil => rfl
  | cons item items ih =>
    rw [unclaimed_cons]
    by_cases hl : label = item.1
    · rw [← hl, h, Option.isNone_none, if_pos rfl, List.lookup_cons, List.lookup_cons, ← hl,
        beq_self_eq_true]
    · have hitem : List.lookup label (item :: items) = items.lookup label := by
        rw [List.lookup_cons, beq_false_of_ne hl]
      rw [hitem, ← ih]
      split
      · rw [List.lookup_cons, beq_false_of_ne hl]
      · rfl

/-- Only unclaimed items are added. -/
theorem addAll_unclaimed {t : SelectList}
    (h : ∀ c, (t.lookup c).isSome = true → (select.lookup c).isSome = true) :
    select.addAll (t.unclaimed items) = select.addAll items := by
  induction items generalizing select with
  | nil => rfl
  | cons item items ih =>
    change _ = (select.add item.1 item.2).addAll items
    rw [unclaimed_cons]
    split
    · exact ih fun c hc => isSome_add (h c hc)
    · next hclaimed =>
      rw [Bool.not_eq_true, Option.isNone_eq_false_iff] at hclaimed
      rw [ih h, add_of_isSome (h _ hclaimed)]

end SelectList

/-! ### Values -/

/-- The expression of a value without the filters, and whether it comes before theirs. -/
def ownExpression (env : Environment) (tableAlias : String) (resolved : Resolved) :
    Building (String × Bool) :=
  let source? : Option (FieldSource × Bool) :=
    resolved.mapping.map fun m => (m.source, m.rawSelect)
  match source? with
  | some (.computed computed, _) => do
    pure (← computed.render env.caller tableAlias, true)
  | some (.column (some raw), true) => pure (Text.replace raw Sql.aliasHole tableAlias, true)
  | some (.column (some column), _) => pure (qualified tableAlias column, false)
  | _ => pure (qualified tableAlias resolved.field, false)

/-- Take what a filter added under a name instead of the own expression of a value, unless that
comes first. -/
def pick (name : String) (own : String × Bool) (extras : List (String × String)) :
    String × List (String × String) :=
  if own.2 then (own.1, extras) else (takeLabel name extras).getD (own.1, extras)

section

variable {env : Environment} {resolved : Resolved} {name : String} {own : String × Bool}
  {extras extras' : List (String × String)}

/-- The expression of a value that is no relation is always found. -/
theorem valueExpression_eq {level : Level} (hr : resolved.relation? = none)
    (ha : resolved.Unaliased) : valueExpression env level name resolved extras =
      Compiling.ofBuilding (ownExpression env level.tableAlias resolved) >>= fun own =>
        pure (pick name own extras) := by
  have hrelation : ∀ m relation, resolved.mapping = some m → m.source ≠ .relation relation := by
    intro m relation hm hsource
    unfold Resolved.relation? Schema.FieldMapping.relation? at hr
    rw [hm, Option.bind_some, hsource] at hr
    cases hr
  unfold valueExpression ownExpression pick
  cases hm : resolved.mapping with
  | none => cases takeLabel name extras <;> rfl
  | some m =>
    cases hsource : m.source with
    | column column =>
      simp only [Option.map_some, hsource]
      cases column with
      | none => cases takeLabel name extras <;> rfl
      | some column =>
        cases m.rawSelect with
        | false => cases takeLabel name extras <;> rfl
        | true => rfl
    | computed computed =>
      simp only [Option.map_some, hsource]
      rfl
    | relation relation => exact absurd hsource (hrelation m relation hm)
    | aliasOf field view => exact absurd hsource (ha m field view hm)

theorem fst_pick : (pick name own extras).1 =
    if own.2 then own.1 else (extras.lookup name).getD own.1 := by
  unfold pick
  split
  · rfl
  · cases htake : takeLabel name extras with
    | none => rw [takeLabel_none htake]; rfl
    | some found => rw [(takeLabel_some htake).1]; rfl

/-- Taking a label out leaves the items of the others. -/
theorem filter_takeLabel {label expression : String} {items rest : List (String × String)}
    (h : takeLabel label items = some (expression, rest)) :
    rest.filter (fun item => item.1 != label) = items.filter fun item => item.1 != label := by
  induction items generalizing rest with
  | nil => cases h
  | cons item items ih =>
    unfold takeLabel at h
    by_cases hl : item.1 = label
    · rw [if_pos hl] at h
      cases h
      rw [List.filter_cons_of_neg (by rw [hl, bne_self_eq_false]; exact Bool.false_ne_true)]
    · rw [if_neg hl] at h
      obtain ⟨⟨e, r⟩, ht, he⟩ := Option.map_eq_some_iff.1 h
      cases he
      have hne : (item.1 != label) = true := bne_iff_ne.2 hl
      rw [List.filter_cons, List.filter_cons, if_pos hne, if_pos hne, ih ht]

/-- Picking an expression under a name that is claimed leaves the unclaimed items. -/
theorem unclaimed_pick {select : SelectList} {expression : String} :
    (select.add name expression).unclaimed (pick name own extras).2 =
      (select.add name expression).unclaimed extras := by
  rw [SelectList.unclaimed_add, SelectList.unclaimed_add]
  unfold SelectList.unclaimed
  rw [List.filter_comm, List.filter_comm (l := extras)]
  congr 1
  unfold pick
  split
  · rfl
  · cases htake : takeLabel name extras with
    | none => rfl
    | some found => exact filter_takeLabel htake

end

/-! ### Levels -/

/-- Levels that differ in their places, and in their aliases where they are not exact. -/
structure LevelTwin (exact : Prop) (level level' : Level) : Prop where
  typeName : level.typeName = level'.typeName
  depth : level.depth = level'.depth
  nested : level.nested = level'.nested
  extraRequired : level.extraRequired = level'.extraRequired
  tableAlias : exact → level.tableAlias = level'.tableAlias

/-- Opened levels that are twins, with the same query where they are exact. -/
structure OpenedTwin (exact : Prop) (o o' : Opened) : Prop where
  level : LevelTwin exact o.level o'.level
  mapping : o.mapping = o'.mapping
  query : exact → o.query = o'.query

/-- What is compiled of two levels.  Where they are exact it adds up to the same select list; where
they are `full` they agree whether it is empty. -/
structure Ahead (exact full : Prop) (p p' : Progress) : Prop where
  select : exact → p.select = p'.select
  extras : exact → p.select.unclaimed p.extras = p.select.unclaimed p'.extras
  empty : full → (p.select = [] ↔ p'.select = [])
  idle : full → p.select = [] → p.extras = p'.extras

section

variable {env : Environment} {exact full : Prop} {o o' : Opened} {p p' : Progress}
  {level level' : Level}

theorem LevelTwin.imp {exact' : Prop} (h : LevelTwin exact level level') (he : exact' → exact) :
    LevelTwin exact' level level' :=
  ⟨h.typeName, h.depth, h.nested, h.extraRequired, fun h' => h.tableAlias (he h')⟩

theorem OpenedTwin.imp {exact' : Prop} (h : OpenedTwin exact o o') (he : exact' → exact) :
    OpenedTwin exact' o o' :=
  ⟨h.level.imp he, h.mapping, fun h' => h.query (he h')⟩

theorem Ahead.start {extras extras' : List (String × String)} (he : exact → extras = extras')
    (hf : full → extras = extras') :
    Ahead exact full ⟨[], extras, [], []⟩ ⟨[], extras', [], []⟩ :=
  ⟨fun _ => rfl, fun h => by rw [he h], fun _ => Iff.rfl, fun h _ => hf h⟩

/-- Levels that are twins open alike. -/
theorem openLevel_alike (h : LevelTwin exact level level') (filter : Option TypeFilter)
    {q q' : Query} (hq : exact → q = q') :
    Alike exact (fun o o' => OpenedTwin exact o o' ∧ o.level = level ∧ o'.level = level' ∧
        ∃ extras extras', o.progress = ⟨[], extras, [], []⟩ ∧ o'.progress = ⟨[], extras', [], []⟩ ∧
          (exact → extras = extras'))
      (openLevel env level filter q) (openLevel env level' filter q') := by
  unfold openLevel
  rw [h.depth, h.typeName]
  split
  · exact Alike.throw _
  · refine Alike.ofSchema fun mapping _ => ?_
    refine (Alike.ofBuilding fun he => by rw [h.tableAlias he, hq he]).bind fun q₁ q₁' hq₁ => ?_
    refine (Alike.ofBuilding fun he => by rw [h.tableAlias he, hq₁ he]).bind fun q₂ q₂' hq₂ => ?_
    exact Alike.pure ⟨⟨h, rfl, fun he => by rw [hq₂ he]⟩, rfl, rfl, _, _, rfl, rfl,
      fun he => by rw [hq₂ he]⟩

/-- The same items are added alike. -/
theorem Ahead.addAll (h : Ahead exact full p p') {items items' : List (String × String)}
    (hi : exact → items = items') (hn : items = [] ↔ items' = [])
    (fields fields' : List (FieldPlan NodePlan)) (many many' : List ManyPlan) :
    Ahead exact full ⟨p.select.addAll items, p.extras, fields, many⟩
      ⟨p'.select.addAll items', p'.extras, fields', many'⟩ := by
  have hclaimed : ∀ c, (p.select.lookup c).isSome = true →
      ((p.select.addAll items).lookup c).isSome = true := fun _ => SelectList.isSome_addAll
  constructor
  case select =>
    intro he
    simp only
    rw [h.select he, hi he]
  case extras =>
    intro he
    simp only
    rw [← SelectList.unclaimed_unclaimed hclaimed, h.extras he,
      SelectList.unclaimed_unclaimed hclaimed]
  case empty =>
    intro hf
    simp only [SelectList.addAll_eq_nil]
    rw [h.empty hf, hn]
  case idle =>
    intro hf hnil
    exact h.idle hf (SelectList.addAll_eq_nil.1 hnil).1

/-- Items whose labels are claimed add nothing. -/
theorem Ahead.addAll_claimed (h : Ahead exact full p p') {items : List (String × String)}
    (hclaimed : ∀ item ∈ items, (p'.select.lookup item.1).isSome = true)
    (fields : List (FieldPlan NodePlan)) (many : List ManyPlan) :
    Ahead exact full ⟨p.select.addAll items, p.extras, fields, many⟩ p' := by
  have hsame : exact → p.select.addAll items = p.select := by
    intro he
    rw [← h.select he] at hclaimed
    exact SelectList.addAll_of_isSome hclaimed
  constructor
  case select => exact fun he => (hsame he).trans (h.select he)
  case extras =>
    intro he
    simp only
    rw [hsame he]
    exact h.extras he
  case empty =>
    intro hf
    simp only [SelectList.addAll_eq_nil]
    rw [h.empty hf]
    refine ⟨And.left, fun hnil => ⟨hnil, ?_⟩⟩
    by_contra hne
    obtain ⟨item, hitem⟩ := List.exists_mem_of_ne_nil _ hne
    exact SelectList.ne_nil_of_isSome (hclaimed item hitem) hnil
  case idle =>
    intro hf hnil
    exact h.idle hf (SelectList.addAll_eq_nil.1 hnil).1

/-- Twins are closed to the same select list. -/
theorem Ahead.closeLevel_eq (h : Ahead exact full p p') (ho : OpenedTwin exact o o')
    (he : exact) : (closeLevel o p).1 = (closeLevel o' p').1 := by
  unfold closeLevel
  simp only
  rw [← ho.mapping, ← ho.level.extraRequired, ← ho.level.tableAlias he, ← h.select he]
  have hclaimed : ∀ c, (p.select.lookup c).isSome = true →
      ((p.select.addAll ((o.mapping.required ++ o.level.extraRequired).map fun c =>
        (c, qualified o.level.tableAlias c))).lookup c).isSome = true :=
    fun c => SelectList.isSome_addAll
  rw [← SelectList.addAll_unclaimed hclaimed, h.extras he, SelectList.addAll_unclaimed hclaimed]

/-- Twins agree whether their select lists are empty. -/
theorem Ahead.closeLevel_nil (h : Ahead exact full p p') (ho : OpenedTwin exact o o')
    (hf : full) : (closeLevel o p).1 = [] ↔ (closeLevel o' p').1 = [] := by
  unfold closeLevel
  simp only [SelectList.addAll_eq_nil, List.map_eq_nil_iff]
  rw [← ho.mapping, ← ho.level.extraRequired, ← h.empty hf]
  constructor
  · rintro ⟨⟨hs, hr⟩, he⟩
    exact ⟨⟨hs, hr⟩, h.idle hf hs ▸ he⟩
  · rintro ⟨⟨hs, hr⟩, he⟩
    exact ⟨⟨hs, hr⟩, (h.idle hf hs).symm ▸ he⟩

end

end Plan

end ObjectGraph
