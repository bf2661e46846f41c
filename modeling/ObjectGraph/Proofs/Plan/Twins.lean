import ObjectGraph.Proofs.Plan.Thinning

/-! # Plans of thinned selections

Two plans are twins if they are planned for selections of which the second thins the first
(`Twin`): they differ in their places and in that the second lacks the fields of dropped entries.
`FieldsTwin` follows the fields of both.  `Stands` says which field of the second plan a field of
the first one stands for; the dropped fields are those that stand for a field that an earlier one
stands for as well. -/

namespace ObjectGraph

namespace Plan

open Schema (Registry Resolved)

section

variable (env : Environment) (repeatable : Resolved → Prop)

/-- Plans of one level for a selection and for one that thins it. -/
def Twin (plan plan' : NodePlan) : Prop :=
  plan.typeName = plan'.typeName ∧ ∃ mapping depth selections selections',
    Thins env.registry repeatable plan.typeName [] selections selections' ∧
    Planned env ⟨plan.typeName, mapping, depth, plan.origin⟩ 0 0 selections plan.fields plan.many ∧
    Planned env ⟨plan.typeName, mapping, depth, plan'.origin⟩ 0 0 selections' plan'.fields
      plan'.many

/-- Lists that differ in their places and in that the selection of the second is thinned. -/
structure ManyTwin (m m' : ManyPlan) : Prop where
  field : m.field = m'.field
  parentType : m.parentType = m'.parentType
  target : m.target = m'.target
  keyLabels : m.keyLabels = m'.keyLabels
  depth : m.depth = m'.depth
  paging : m.paging = m'.paging
  selection : Thins env.registry repeatable m.target [] m.selection m'.selection

/-- What fields of twins lead to. -/
inductive KindTwin (plan plan' : NodePlan) : FieldKind NodePlan → FieldKind NodePlan → Prop
  | value : KindTwin plan plan' .value .value
  | single {child child' : NodePlan} : Twin env repeatable child child' →
      KindTwin plan plan' (.single child) (.single child')
  | many {j j' : Nat} {m m' : ManyPlan} : plan.many[j]? = some m → plan'.many[j']? = some m' →
      ManyTwin env repeatable m m' → KindTwin plan plan' (.many j) (.many j')

/-- A field of a plan and one of its twin that are planned for the same entry. -/
structure FieldTwin (plan plan' : NodePlan) (field field' : FieldPlan NodePlan) : Prop where
  name : field.name = field'.name
  json : field.json = field'.json
  transform : field.transform = field'.transform
  kind : KindTwin env repeatable plan plan' field.kind field'.kind

/-- The fields of twins, once so many of those of the second are taken. -/
inductive FieldsTwin (plan plan' : NodePlan) : (taken : Nat) → List Nat →
    List (FieldPlan NodePlan) → List (FieldPlan NodePlan) → Prop
  | nil {taken : Nat} : FieldsTwin plan plan' taken [] [] []
  | keep {taken : Nat} {slots : List Nat} {field field' : FieldPlan NodePlan}
      {fields fields' : List (FieldPlan NodePlan)} :
      FieldTwin env repeatable plan plan' field field' →
      FieldsTwin plan plan' (taken + 1) slots fields fields' →
      FieldsTwin plan plan' taken (taken :: slots) (field :: fields) (field' :: fields')
  | again {taken i : Nat} {slots : List Nat} {field field' : FieldPlan NodePlan}
      {fields fields' : List (FieldPlan NodePlan)} :
      LastOf plan'.fields taken (fun f => f.name = field.name) i field' →
      FieldTwin env repeatable plan plan' field field' → field.json = false →
      (∀ child, field.kind ≠ .single child) →
      FieldsTwin plan plan' taken slots fields fields' →
      FieldsTwin plan plan' taken (i :: slots) (field :: fields) fields'

end

variable {env : Environment} {repeatable : Resolved → Prop}

/-! ### Fields of one entry -/

section

variable {site : Site} {origin : List Nat} {position position' : Nat} {plan plan' : NodePlan}
  {entry entry' : Selection} {field field' : FieldPlan NodePlan}

/-- Relations of one name are twins if less is selected below the second. -/
theorem fieldTwin_of_thins {name : String} {below below' : List Selection}
    (hb : ∀ resolved relation, env.registry.resolve site.typeName name = .ok resolved →
      resolved.relation? = some relation →
        Thins env.registry repeatable (resolved.view.getD relation.target) [] below below')
    (hf : PlannedField env site position (fun j m => plan.many[j]? = some m) (.nested name below)
      field)
    (hf' : PlannedField env { site with origin } position' (fun j m => plan'.many[j]? = some m)
      (.nested name below') field') : FieldTwin env repeatable plan plan' field field' := by
  cases hf with
  | many hr hn hm hl =>
    cases hf' with
    | many hr' hn' _ hl' =>
      cases hr.symm.trans hr'
      cases hn.symm.trans hn'
      exact ⟨rfl, rfl, rfl, .many hl hl' ⟨rfl, rfl, rfl, rfl, rfl, rfl, hb _ _ hr hn⟩⟩
    | single hr' hn' hm' _ _ =>
      cases hr.symm.trans hr'
      cases hn.symm.trans hn'
      cases hm.symm.trans hm'
  | single hr hn hm hl hp =>
    cases hf' with
    | many hr' hn' hm' _ =>
      cases hr.symm.trans hr'
      cases hn.symm.trans hn'
      cases hm.symm.trans hm'
    | single hr' hn' _ hl' hp' =>
      cases hr.symm.trans hr'
      cases hn.symm.trans hn'
      cases hl.symm.trans hl'
      exact ⟨rfl, rfl, rfl, .single ⟨rfl, _, _, _, _, hb _ _ hr hn, hp, hp'⟩⟩

theorem fieldTwin_of_narrows
    (h : Narrows env.registry repeatable site.typeName entry entry')
    (hf : PlannedField env site position (fun j m => plan.many[j]? = some m) entry field)
    (hf' : PlannedField env { site with origin } position' (fun j m => plan'.many[j]? = some m)
      entry' field') : FieldTwin env repeatable plan plan' field field' := by
  cases h with
  | same =>
    cases entry with
    | scalar name =>
      cases hf with
      | value hr _ =>
        cases hf' with
        | value hr' _ =>
          cases hr.symm.trans hr'
          exact ⟨rfl, rfl, rfl, .value⟩
    | nested name below => exact fieldTwin_of_thins (fun _ _ _ _ => Thins.refl _ _) hf hf'
  | within hr₀ hn₀ hb =>
    refine fieldTwin_of_thins (fun resolved relation hr hn => ?_) hf hf'
    cases hr₀.symm.trans hr
    cases hn₀.symm.trans hn
    exact hb

/-- A field that may be dropped is a value without a document, or a list. -/
theorem fieldTwin_droppable {isList : Nat → ManyPlan → Prop}
    (h : Droppable env.registry repeatable site.typeName entry)
    (hf : PlannedField env site position isList entry field) :
    field.json = false ∧ ∀ child, field.kind ≠ .single child := by
  cases h with
  | value hr hj _ =>
    cases hf with
    | value hr' _ =>
      cases hr.symm.trans hr'
      exact ⟨hj, fun _ hk => nomatch hk⟩
  | list hr hn hm =>
    cases hf with
    | many _ _ _ _ => exact ⟨rfl, fun _ hk => nomatch hk⟩
    | single hr' hn' hm' _ _ =>
      cases hr.symm.trans hr'
      cases hn.symm.trans hn'
      cases hm.symm.trans hm'

end

/-! ### All fields -/

/-- A field that is planned for an entry somewhere in a level. -/
def Site.Plans (env : Environment) (site : Site) (plan : NodePlan) (entry : Selection)
    (field : FieldPlan NodePlan) : Prop :=
  ∃ position, PlannedField env site position (fun j m => plan.many[j]? = some m) entry field

theorem Planned.forall₂ {site : Site} {plan : NodePlan} {selections : List Selection}
    (h : Planned env site 0 0 selections plan.fields plan.many) :
    List.Forall₂ (site.Plans env plan) selections plan.fields := by
  have hlength := congrArg List.length h.names
  rw [List.length_map, List.length_map] at hlength
  refine List.forall₂_iff_get.2 ⟨hlength.symm, ?_⟩
  intro i hi hi'
  obtain ⟨entry, he, hf⟩ := h.field_at (List.getElem?_eq_getElem hi')
  rw [List.getElem?_eq_getElem hi] at he
  cases he
  exact ⟨_, hf.mono fun _ _ hm => hm.2⟩

section

variable {plan plan' : NodePlan} {mapping : Schema.TypeMapping} {typeName : String} {depth : Nat}
  {origin origin' : List Nat} {all entries entries' : List Selection}
  {fields fields' : List (FieldPlan NodePlan)} {taken : Nat} {slots : List Nat}

/-- The fields go where their entries go. -/
theorem Slots.fieldsTwin
    (hall : List.Forall₂ (Site.Plans env ⟨typeName, mapping, depth, origin'⟩ plan') all
      plan'.fields)
    (h : Slots env.registry repeatable typeName all taken slots entries entries')
    (hf : List.Forall₂ (Site.Plans env ⟨typeName, mapping, depth, origin⟩ plan) entries fields)
    (hf' : List.Forall₂ (Site.Plans env ⟨typeName, mapping, depth, origin'⟩ plan') entries'
      fields') :
    FieldsTwin env repeatable plan plan' taken slots fields fields' := by
  induction h generalizing fields fields' with
  | nil =>
    cases hf
    cases hf'
    exact .nil
  | keep hn _ ih =>
    cases hf with
    | cons hfirst hrest =>
      cases hf' with
      | cons hfirst' hrest' =>
        obtain ⟨_, hp⟩ := hfirst
        obtain ⟨_, hp'⟩ := hfirst'
        exact .keep (fieldTwin_of_narrows hn hp hp') (ih hrest hrest')
  | again hlast hn hd _ ih =>
    cases hf with
    | cons hfirst hrest =>
      obtain ⟨_, hp⟩ := hfirst
      obtain ⟨field', hfield', _, hp'⟩ := Outcome.forall₂_getElem? hall hlast.at_i
      obtain ⟨hjson, hsingle⟩ := fieldTwin_droppable hd hp
      refine .again ⟨hlast.lt, hfield', ?_, ?_⟩ (fieldTwin_of_narrows hn hp hp') hjson hsingle
        (ih hrest hf')
      · rw [hp.name_eq, hp'.name_eq]
        exact hlast.holds
      · intro k field hik hk hfield hname
        obtain ⟨entry, hentry, _, hq⟩ := Outcome.forall₂_getElem? hall.flip hfield
        refine hlast.last k _ hik hk hentry ?_
        rw [← hq.name_eq, hname, hp.name_eq]

end

theorem Twin.exists_slots {plan plan' : NodePlan} (h : Twin env repeatable plan plan') :
    ∃ slots, FieldsTwin env repeatable plan plan' 0 slots plan.fields plan'.fields := by
  obtain ⟨-, mapping, depth, selections, selections', hthins, hp, hp'⟩ := h
  obtain ⟨slots, hslots⟩ := hthins.slots
  exact ⟨slots, hslots.fieldsTwin hp'.forall₂ hp.forall₂ hp'.forall₂⟩

section

variable {plan plan' : NodePlan} {taken a b i : Nat} {slots : List Nat}
  {fields fields' : List (FieldPlan NodePlan)} {field : FieldPlan NodePlan}

theorem drop_cons {α : Type} {xs ys : List α} {x : α} (h : xs.drop a = x :: ys) :
    xs[a]? = some x ∧ xs.drop (a + 1) = ys := by
  have hget := congrArg (fun zs => zs[0]?) h
  simp only [List.getElem?_drop, Nat.add_zero, List.getElem?_cons_zero] at hget
  refine ⟨hget, ?_⟩
  rw [← List.drop_drop, h]
  rfl

theorem FieldsTwin.length_slots
    (h : FieldsTwin env repeatable plan plan' taken slots fields fields') :
    slots.length = fields.length := by
  induction h with
  | nil => rfl
  | keep _ _ ih => exact congrArg Nat.succ ih
  | again _ _ _ _ _ ih => exact congrArg Nat.succ ih

/-- A field and the one that it stands for are planned for the same entry. -/
theorem FieldsTwin.twin_at (h : FieldsTwin env repeatable plan plan' taken slots fields fields')
    (hfields : plan'.fields.drop taken = fields') (hi : slots[a]? = some i) :
    ∃ field field', fields[a]? = some field ∧ plan'.fields[i]? = some field' ∧
      FieldTwin env repeatable plan plan' field field' := by
  induction h generalizing a with
  | nil => cases hi
  | @keep taken _ _ _ _ _ hf _ ih =>
    cases a with
    | zero =>
      cases hi
      exact ⟨_, _, rfl, (drop_cons hfields).1, hf⟩
    | succ a => exact ih (drop_cons hfields).2 hi
  | again hlast hf _ _ _ ih =>
    cases a with
    | zero =>
      cases hi
      exact ⟨_, _, rfl, hlast.at_i, hf⟩
    | succ a => exact ih hfields hi

/-- Every field that is not taken yet is taken. -/
theorem FieldsTwin.exists_slot (h : FieldsTwin env repeatable plan plan' taken slots fields fields')
    (hi : i < fields'.length) : ∃ a : Nat, slots[a]? = some (taken + i) := by
  induction h generalizing i with
  | nil => exact absurd hi (Nat.not_lt_zero _)
  | keep _ _ ih =>
    cases i with
    | zero => exact ⟨0, rfl⟩
    | succ i =>
      obtain ⟨a, ha⟩ := ih (Nat.lt_of_succ_lt_succ hi)
      refine ⟨a + 1, ?_⟩
      rw [List.getElem?_cons_succ, ha, Nat.add_right_comm]
      rfl
  | again _ _ _ _ _ ih =>
    obtain ⟨a, ha⟩ := ih hi
    exact ⟨a + 1, ha⟩

/-- A field that was taken before stands for no single related object. -/
theorem FieldsTwin.not_single (h : FieldsTwin env repeatable plan plan' taken slots fields fields')
    (ha : slots[a]? = some i) (hi : i < taken) (hf : fields[a]? = some field) (child : NodePlan) :
    field.kind ≠ .single child := by
  induction h generalizing a with
  | nil => cases ha
  | keep _ _ ih =>
    cases a with
    | zero =>
      cases ha
      exact absurd hi (Nat.lt_irrefl _)
    | succ a => exact ih ha (Nat.lt_succ_of_lt hi) hf
  | again _ _ _ hs _ ih =>
    cases a with
    | zero =>
      cases hf
      exact hs child
    | succ a => exact ih ha hi hf

theorem KindTwin.single_right {kind kind' : FieldKind NodePlan} {child' : NodePlan}
    (h : KindTwin env repeatable plan plan' kind kind') (hk : kind' = .single child') :
    ∃ child, kind = .single child ∧ Twin env repeatable child child' := by
  cases h with
  | value => cases hk
  | single ht =>
    cases hk
    exact ⟨_, rfl, ht⟩
  | many _ _ _ => cases hk

/-- Single related objects are never dropped. -/
theorem FieldsTwin.single_unique
    (h : FieldsTwin env repeatable plan plan' taken slots fields fields')
    (hfields : plan'.fields.drop taken = fields') {child' : NodePlan} {field' : FieldPlan NodePlan}
    (ha : slots[a]? = some i) (hb : slots[b]? = some i) (hf' : plan'.fields[i]? = some field')
    (hk : field'.kind = .single child') : a = b := by
  have hsingle : ∀ {c : Nat}, slots[c]? = some i → ∃ field child, fields[c]? = some field ∧
      field.kind = .single child := by
    intro c hc
    obtain ⟨field, field₂, hfield, hfield₂, ht⟩ := h.twin_at hfields hc
    cases hf'.symm.trans hfield₂
    obtain ⟨child, hchild, -⟩ := ht.kind.single_right hk
    exact ⟨field, child, hfield, hchild⟩
  induction h generalizing a b with
  | nil => cases ha
  | keep _ hrest ih =>
    cases a with
    | zero =>
      cases b with
      | zero => rfl
      | succ b =>
        cases ha
        obtain ⟨field, child, hfield, hchild⟩ := hsingle hb
        exact absurd hchild (hrest.not_single hb (Nat.lt_succ_self _) hfield child)
    | succ a =>
      cases b with
      | zero =>
        cases hb
        obtain ⟨field, child, hfield, hchild⟩ := hsingle ha
        exact absurd hchild (hrest.not_single ha (Nat.lt_succ_self _) hfield child)
      | succ b =>
        exact congrArg Nat.succ (ih (drop_cons hfields).2 ha hb fun hc => hsingle (c := _ + 1) hc)
  | again _ _ _ hs _ ih =>
    cases a with
    | zero =>
      obtain ⟨field, child, hfield, hchild⟩ := hsingle ha
      cases hfield
      exact absurd hchild (hs child)
    | succ a =>
      cases b with
      | zero =>
        obtain ⟨field, child, hfield, hchild⟩ := hsingle hb
        cases hfield
        exact absurd hchild (hs child)
      | succ b => exact congrArg Nat.succ (ih hfields ha hb fun hc => hsingle (c := _ + 1) hc)

end

/-! ### Which fields stand for each other -/

open Classical in
/-- Where the fields of a plan go in its twin. -/
noncomputable def slotsOf (env : Environment) (repeatable : Resolved → Prop)
    (plan plan' : NodePlan) : List Nat :=
  if h : ∃ slots, FieldsTwin env repeatable plan plan' 0 slots plan.fields plan'.fields then
    h.choose
  else []

/-- A field of a plan goes to a field of its twin. -/
def Stands (env : Environment) (repeatable : Resolved → Prop) (plan plan' : NodePlan)
    (i i' : Nat) : Prop :=
  (slotsOf env repeatable plan plan')[i]? = some i'

namespace Twin

variable {plan plan' : NodePlan} {i i' k k' : Nat} {field field' : FieldPlan NodePlan}

theorem fieldsTwin (h : Twin env repeatable plan plan') :
    FieldsTwin env repeatable plan plan' 0 (slotsOf env repeatable plan plan') plan.fields
      plan'.fields := by
  have hslots := h.exists_slots
  unfold slotsOf
  rw [dif_pos hslots]
  exact hslots.choose_spec

theorem stands_fields (h : Twin env repeatable plan plan')
    (hs : Stands env repeatable plan plan' i i') :
    ∃ field field', plan.fields[i]? = some field ∧ plan'.fields[i']? = some field' ∧
      FieldTwin env repeatable plan plan' field field' :=
  h.fieldsTwin.twin_at rfl hs

theorem exists_stands (h : Twin env repeatable plan plan') (hf : plan.fields[i]? = some field) :
    ∃ i', Stands env repeatable plan plan' i i' := by
  obtain ⟨hlt, -⟩ := List.getElem?_eq_some_iff.1 hf
  rw [← h.fieldsTwin.length_slots] at hlt
  exact ⟨_, List.getElem?_eq_getElem hlt⟩

theorem stands_unique (hs : Stands env repeatable plan plan' i i')
    (hs' : Stands env repeatable plan plan' i k') : i' = k' :=
  Option.some.inj (hs.symm.trans hs')

theorem exists_stands_right (h : Twin env repeatable plan plan')
    (hf : plan'.fields[i']? = some field') : ∃ i, Stands env repeatable plan plan' i i' := by
  obtain ⟨hlt, -⟩ := List.getElem?_eq_some_iff.1 hf
  obtain ⟨i, hi⟩ := h.fieldsTwin.exists_slot hlt
  rw [Nat.zero_add] at hi
  exact ⟨i, hi⟩

/-- One field alone stands for a single related object. -/
theorem single_unique (h : Twin env repeatable plan plan')
    (hs : Stands env repeatable plan plan' i i') (hs' : Stands env repeatable plan plan' k i')
    (hf : plan'.fields[i']? = some field') {child' : NodePlan}
    (hk : field'.kind = .single child') : i = k :=
  h.fieldsTwin.single_unique rfl hs hs' hf hk

theorem plannedFor (h : Twin env repeatable plan plan') :
    (∃ selections, PlannedFor env selections plan) ∧
      ∃ selections, PlannedFor env selections plan' := by
  obtain ⟨htype, mapping, depth, selections, selections', -, hp, hp'⟩ := h
  refine ⟨⟨selections, mapping, depth, hp⟩, ⟨selections', mapping, depth, ?_⟩⟩
  rw [← htype]
  exact hp'

end Twin

/-! ### Twins of statements -/

section

variable {compiled compiled' : Compiled}

theorem compileRoot_twin {request : Request} {entries' : List Selection}
    {filter : Option Schema.TypeFilter}
    (hthins : Thins env.registry repeatable request.typeName [] request.fields entries')
    (h : compileRoot env request filter = .ok compiled)
    (h' : compileRoot env { request with fields := entries' } filter = .ok compiled') :
    Twin env repeatable compiled.plan compiled'.plan := by
  obtain ⟨ho, ht, mapping, hm, hp⟩ := compileRoot_planned h
  obtain ⟨ho', ht', mapping', hm', hp'⟩ := compileRoot_planned h'
  cases hm.symm.trans hm'
  refine ⟨ht.trans ht'.symm, mapping, 1, request.fields, entries', ?_⟩
  rw [ht, ho, ho']
  exact ⟨hthins, hp, hp'⟩

theorem compileMany_twin {m m' : ManyPlan} {keys keys' : List (List Json)}
    (hm : ManyTwin env repeatable m m') (h : compileMany env m keys = .ok compiled)
    (h' : compileMany env m' keys' = .ok compiled') :
    Twin env repeatable compiled.plan compiled'.plan := by
  obtain ⟨ho, ht, mapping, hl, hp⟩ := compileMany_planned h
  obtain ⟨ho', ht', mapping', hl', hp'⟩ := compileMany_planned h'
  rw [← hm.target] at hl'
  cases hl.symm.trans hl'
  refine ⟨ht.trans (hm.target.trans ht'.symm), mapping, m.depth, m.selection, m'.selection, ?_⟩
  rw [ht, ho, ho']
  rw [← hm.target, ← hm.depth] at hp'
  exact ⟨hm.selection, hp, hp'⟩

end

/-! ### The single related objects of twins -/

/-- A plan and its twin, or single related objects that come with both. -/
inductive TwinsWithin (env : Environment) (repeatable : Resolved → Prop) (root root' : NodePlan) :
    NodePlan → NodePlan → Prop
  | self : TwinsWithin env repeatable root root' root root'
  | single {plan plan' child child' : NodePlan} {i i' : Nat}
      {field field' : FieldPlan NodePlan} :
      TwinsWithin env repeatable root root' plan plan' →
      Stands env repeatable plan plan' i i' → plan.fields[i]? = some field →
      plan'.fields[i']? = some field' → field.kind = .single child →
      field'.kind = .single child' → TwinsWithin env repeatable root root' child child'

theorem single_eq {plan child child₂ : NodePlan} {i : Nat} {field field₂ : FieldPlan NodePlan}
    (hf : plan.fields[i]? = some field) (hf₂ : plan.fields[i]? = some field₂)
    (hk : field.kind = .single child) (hk₂ : field₂.kind = .single child₂) : child = child₂ := by
  cases hf.symm.trans hf₂
  cases hk.symm.trans hk₂
  rfl

namespace TwinsWithin

variable {root root' plan plan' plan₂ plan₂' : NodePlan}

theorem trans (h : TwinsWithin env repeatable root root' plan plan')
    (h₂ : TwinsWithin env repeatable plan plan' plan₂ plan₂') :
    TwinsWithin env repeatable root root' plan₂ plan₂' := by
  induction h₂ with
  | self => exact h
  | single _ hs hf hf' hk hk' ih => exact .single ih hs hf hf' hk hk'

section

variable (hroot : Twin env repeatable root root')

include hroot

theorem twin (h : TwinsWithin env repeatable root root' plan plan') :
    Twin env repeatable plan plan' := by
  induction h with
  | self => exact hroot
  | single _ hs hf hf' hk hk' ih =>
    obtain ⟨field, field', hfield, hfield', ht⟩ := ih.stands_fields hs
    cases hf.symm.trans hfield
    cases hf'.symm.trans hfield'
    obtain ⟨_, hchild, htwin⟩ := ht.kind.single_right hk'
    cases hk.symm.trans hchild
    exact htwin

theorem single_origin {child child' : NodePlan} {i i' : Nat} {field field' : FieldPlan NodePlan}
    (h : TwinsWithin env repeatable root root' plan plan') (hf : plan.fields[i]? = some field)
    (hf' : plan'.fields[i']? = some field') (hk : field.kind = .single child)
    (hk' : field'.kind = .single child') :
    child.origin = plan.origin ++ [i] ∧ child'.origin = plan'.origin ++ [i'] := by
  obtain ⟨⟨_, hp⟩, ⟨_, hp'⟩⟩ := (h.twin hroot).plannedFor
  exact ⟨(hp.single_at hf hk).1, (hp'.single_at hf' hk').1⟩

theorem length_le (h : TwinsWithin env repeatable root root' plan plan') :
    root.origin.length ≤ plan.origin.length ∧ root'.origin.length ≤ plan'.origin.length := by
  induction h with
  | self => exact ⟨Nat.le_refl _, Nat.le_refl _⟩
  | single hw hs hf hf' hk hk' ih =>
    obtain ⟨ho, ho'⟩ := hw.single_origin hroot hf hf' hk hk'
    rw [ho, ho', List.length_append, List.length_append]
    omega

/-- Twins below others are at longer places than those that all are below. -/
theorem single_ne_root (h : TwinsWithin env repeatable root root' plan plan') {i i' : Nat}
    {field field' : FieldPlan NodePlan} {child child' : NodePlan}
    (hf : plan.fields[i]? = some field) (hf' : plan'.fields[i']? = some field')
    (hk : field.kind = .single child) (hk' : field'.kind = .single child') :
    root.origin ≠ child.origin ∧ root'.origin ≠ child'.origin := by
  obtain ⟨hchild, hchild'⟩ := h.single_origin hroot hf hf' hk hk'
  obtain ⟨hle, hle'⟩ := h.length_le hroot
  have hlonger : ∀ {place below : List Nat} (i : Nat), place.length ≤ below.length →
      place ≠ below ++ [i] := by
    rintro _ below i hle rfl
    rw [List.length_append, List.length_singleton] at hle
    omega
  rw [hchild, hchild']
  exact ⟨hlonger i hle, hlonger i' hle'⟩

/-- The place of one of two twins determines both. -/
theorem unique (h : TwinsWithin env repeatable root root' plan plan')
    (h₂ : TwinsWithin env repeatable root root' plan₂ plan₂')
    (ho : plan.origin = plan₂.origin ∨ plan'.origin = plan₂'.origin) :
    plan = plan₂ ∧ plan' = plan₂' := by
  induction h generalizing plan₂ plan₂' with
  | self =>
    cases h₂ with
    | self => exact ⟨rfl, rfl⟩
    | single hw hs hf hf' hk hk' =>
      obtain ⟨hne, hne'⟩ := hw.single_ne_root hroot hf hf' hk hk'
      exact (ho.elim hne hne').elim
  | single hw hs hf hf' hk hk' ih =>
    cases h₂ with
    | self =>
      obtain ⟨hne, hne'⟩ := hw.single_ne_root hroot hf hf' hk hk'
      exact (ho.elim hne.symm hne'.symm).elim
    | single hw₂ hs₂ hf₂ hf₂' hk₂ hk₂' =>
      obtain ⟨hchild, hchild'⟩ := hw.single_origin hroot hf hf' hk hk'
      obtain ⟨hchild₂, hchild₂'⟩ := hw₂.single_origin hroot hf₂ hf₂' hk₂ hk₂'
      rw [hchild, hchild', hchild₂, hchild₂'] at ho
      rcases ho with ho | ho
      · obtain ⟨hparent, hi⟩ := List.append_inj' ho rfl
        obtain ⟨rfl, rfl⟩ := ih hw₂ (.inl hparent)
        cases hi
        cases Twin.stands_unique hs hs₂
        exact ⟨single_eq hf hf₂ hk hk₂, single_eq hf' hf₂' hk' hk₂'⟩
      · obtain ⟨hparent, hi⟩ := List.append_inj' ho rfl
        obtain ⟨rfl, rfl⟩ := ih hw₂ (.inr hparent)
        cases hi
        cases (hw.twin hroot).single_unique hs hs₂ hf' hk'
        exact ⟨single_eq hf hf₂ hk hk₂, single_eq hf' hf₂' hk' hk₂'⟩

end

end TwinsWithin

end Plan

end ObjectGraph
