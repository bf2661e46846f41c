import ObjectGraph.Proofs.Plan.Abreast
import ObjectGraph.Proofs.Plan.Thinning

/-! # Statements of thinned selections

A dropped entry adds nothing to the select list, since the entry that it repeats has claimed its
labels (`Covers`).  So a selection and one that thins it are compiled alike, level by level
(`entries_alike`), and their statements are refused alike; they are the same statement if the values
that were dropped take nothing from its scope (`Steady`). -/

namespace ObjectGraph

namespace Plan

open Outcome (Same)
open Sql (Query Building qualified)
open Schema (Registry Relation Resolved TypeMapping)
open Compiling (Alike)

/-- The expression of a value takes no alias and binds no parameter. -/
def Steady (env : Environment) (resolved : Resolved) : Prop :=
  ∀ m computed, resolved.mapping = some m → m.source = .computed computed →
    ∀ tableAlias scope, (computed.render env.caller tableAlias scope).2 = scope

theorem Steady.own {env : Environment} {resolved : Resolved} (h : Steady env resolved)
    (tableAlias : String) (scope : Sql.Scope) :
    (ownExpression env tableAlias resolved scope).2 = scope := by
  unfold ownExpression
  cases hm : resolved.mapping with
  | none => rfl
  | some m =>
    cases hsource : m.source with
    | computed computed =>
      simp only [Option.map_some, hsource]
      exact h m computed hm hsource tableAlias scope
    | column column =>
      simp only [Option.map_some, hsource]
      cases column with
      | none => rfl
      | some column => cases m.rawSelect <;> rfl
    | relation relation | aliasOf field view =>
      simp only [Option.map_some, hsource]
      rfl

/-! ### Labels of entries -/

/-- An entry that was compiled has claimed its labels. -/
inductive Covers (registry : Registry) (typeName : String) (mapping : TypeMapping)
    (select : SelectList) : Selection → Prop
  | value {name : String} {resolved : Resolved} : registry.resolve typeName name = .ok resolved →
      resolved.relation? = none → (select.lookup name).isSome = true →
      Covers registry typeName mapping select (.scalar name)
  | related {name : String} {below : List Selection} {resolved : Resolved} {relation : Relation} :
      registry.resolve typeName name = .ok resolved → resolved.relation? = some relation →
      (relation.many = true → ∀ c ∈ parentKeyColumns mapping relation,
        (select.lookup (keyLabel c)).isSome = true) →
      Covers registry typeName mapping select (.nested name below)

theorem Covers.grow {registry : Registry} {typeName : String} {mapping : TypeMapping}
    {select select' : SelectList} {entry : Selection}
    (h : Covers registry typeName mapping select entry)
    (hgrow : ∀ c, (select.lookup c).isSome = true → (select'.lookup c).isSome = true) :
    Covers registry typeName mapping select' entry := by
  cases h with
  | value hr hn hl => exact .value hr hn (hgrow _ hl)
  | related hr hn hl => exact .related hr hn fun hm c hc => hgrow _ (hl hm c hc)

/-- What a kept entry comes to: both sides go on, and the entry has claimed its labels. -/
structure Stepped (env : Environment) (exact full : Prop) (o' : Opened) (p' : Progress)
    (entry' : Selection) (r r' : Progress) : Prop where
  ahead : Ahead exact full r r'
  covers : Covers env.registry o'.level.typeName o'.mapping r'.select entry'
  grows : ∀ c, (p'.select.lookup c).isSome = true → (r'.select.lookup c).isSome = true

section

variable {env : Environment} {repeatable : Resolved → Prop} {exact full : Prop} {o o' : Opened}
  {p p' : Progress} {name : String} {position position' : Nat} {resolved : Resolved}

/-! ### Values -/

/-- The field that a value adds to the plan. -/
def valueField (name : String) (resolved : Resolved) : FieldPlan NodePlan :=
  { name, kind := .value, json := resolved.json, transform := resolved.transform? }

theorem valueEntry_eq {level : Level}
    (hr : env.registry.resolve level.typeName name = .ok resolved)
    (hn : resolved.relation? = none) (ha : resolved.Unaliased) :
    valueEntry env level p name =
      Compiling.ofBuilding (ownExpression env level.tableAlias resolved) >>= fun own =>
        let picked := pick name own p.extras
        pure { p with
          select := p.select.add name picked.1
          extras := picked.2
          fields := p.fields ++ [valueField name resolved] } := by
  have hentry : valueEntry env level p name =
      valueExpression env level name resolved p.extras >>= fun found => pure { p with
        select := p.select.add name found.1
        extras := found.2
        fields := p.fields ++ [valueField name resolved] } := by
    unfold valueEntry
    rw [hr]
    change (if resolved.relation?.isSome = true then _ else _) = _
    rw [hn]
    rfl
  rw [hentry, valueExpression_eq hn ha, bind_assoc]
  rfl

/-- Values are added alike. -/
theorem Ahead.value (h : Ahead exact full p p') {own own' : String × Bool}
    (hown : exact → own = own') (fields fields' : List (FieldPlan NodePlan)) :
    Ahead exact full
      { p with
        select := p.select.add name (pick name own p.extras).1
        extras := (pick name own p.extras).2
        fields }
      { p' with
        select := p'.select.add name (pick name own' p'.extras).1
        extras := (pick name own' p'.extras).2
        fields := fields' } := by
  constructor
  case select =>
    intro he
    simp only
    cases hl : p.select.lookup name with
    | some e =>
      have hclaimed : (p.select.lookup name).isSome = true := by rw [hl]; rfl
      rw [SelectList.add_of_isSome hclaimed, ← h.select he, SelectList.add_of_isSome hclaimed]
    | none =>
      have hlookup : p.extras.lookup name = p'.extras.lookup name := by
        rw [← SelectList.lookup_unclaimed hl, h.extras he, SelectList.lookup_unclaimed hl]
      rw [fst_pick, fst_pick, hown he, hlookup, h.select he]
  case extras =>
    intro he
    simp only
    rw [unclaimed_pick, unclaimed_pick, SelectList.unclaimed_add, SelectList.unclaimed_add,
      h.extras he]
  case empty =>
    intro _
    exact iff_of_false (SelectList.ne_nil_of_isSome SelectList.isSome_add_self)
      (SelectList.ne_nil_of_isSome SelectList.isSome_add_self)
  case idle =>
    intro _ hnil
    exact absurd hnil (SelectList.ne_nil_of_isSome SelectList.isSome_add_self)

/-- A value whose label is claimed adds nothing. -/
theorem Ahead.again (h : Ahead exact full p p') {own : String × Bool}
    (hclaimed : (p'.select.lookup name).isSome = true) (fields : List (FieldPlan NodePlan)) :
    Ahead exact full
      { p with
        select := p.select.add name (pick name own p.extras).1
        extras := (pick name own p.extras).2
        fields } p' := by
  have hadd : exact → p.select.add name (pick name own p.extras).1 = p.select := by
    intro he
    rw [← h.select he] at hclaimed
    exact SelectList.add_of_isSome hclaimed
  constructor
  case select =>
    intro he
    exact (hadd he).trans (h.select he)
  case extras =>
    intro he
    simp only
    rw [unclaimed_pick, hadd he]
    exact h.extras he
  case empty =>
    intro _
    exact iff_of_false (SelectList.ne_nil_of_isSome SelectList.isSome_add_self)
      (SelectList.ne_nil_of_isSome hclaimed)
  case idle =>
    intro _ hnil
    exact absurd hnil (SelectList.ne_nil_of_isSome SelectList.isSome_add_self)

/-- A value is compiled alike where it is kept. -/
theorem valueEntry_alike (ho : OpenedTwin exact o o') (hp : Ahead exact full p p')
    (hnever : ∀ resolved, env.registry.resolve o.level.typeName name = .ok resolved →
      resolved.Unaliased) :
    Alike exact (Stepped env exact full o' p' (.scalar name)) (valueEntry env o.level p name)
      (valueEntry env o'.level p' name) := by
  cases hr : env.registry.resolve o.level.typeName name with
  | error e =>
    have hr' := hr
    rw [ho.level.typeName] at hr'
    unfold valueEntry
    rw [hr, hr']
    exact fun _ _ _ => .error _
  | ok resolved =>
    have hr' := hr
    rw [ho.level.typeName] at hr'
    cases hn : resolved.relation? with
    | some relation =>
      unfold valueEntry
      rw [hr, hr', ho.level.typeName]
      refine Alike.ofSchema fun other hother => ?_
      cases hother
      rw [hn]
      exact Alike.throw _
    | none =>
      rw [valueEntry_eq hr hn (hnever resolved hr), valueEntry_eq hr' hn (hnever resolved hr)]
      refine (Alike.ofBuilding fun he => by rw [ho.level.tableAlias he]).bind ?_
      intro own own' hown
      exact Alike.pure ⟨hp.value hown _ _, .value hr' hn SelectList.isSome_add_self,
        fun c hc => SelectList.isSome_add hc⟩

/-- A value that is dropped comes to nothing. -/
theorem valueEntry_again (ho : OpenedTwin exact o o') (hp : Ahead exact full p p')
    (hnever : ∀ resolved, env.registry.resolve o.level.typeName name = .ok resolved →
      resolved.Unaliased)
    (hr : env.registry.resolve o.level.typeName name = .ok resolved)
    (hsteady : exact → Steady env resolved)
    (hcovers : Covers env.registry o'.level.typeName o'.mapping p'.select (.scalar name))
    {s s' : Sql.Scope} (hs : exact → s = s') :
    ∃ r t, valueEntry env o.level p name s = .ok (r, t) ∧ Ahead exact full r p' ∧
      (exact → t = s') := by
  cases hcovers with
  | value hr' hn hclaimed =>
    rw [← ho.level.typeName, hr] at hr'
    cases hr'
    rw [valueEntry_eq hr hn (hnever resolved hr)]
    refine ⟨_, _, rfl, hp.again hclaimed _, fun he => ?_⟩
    rw [← hs he]
    exact (hsteady he).own _ _

/-! ### Related objects -/

/-- Lists are added alike. -/
theorem Ahead.many (ho : OpenedTwin exact o o') (hp : Ahead exact full p p') {relation : Relation}
    {below below' : List Selection} :
    Ahead exact full (manyEntry o p position name resolved relation below)
      (manyEntry o' p' position' name resolved relation below') := by
  unfold manyEntry
  rw [ho.mapping]
  refine hp.addAll (fun he => by rw [ho.level.tableAlias he]) ?_ _ _ _ _
  rw [List.map_eq_nil_iff, List.map_eq_nil_iff]

/-- A list whose labels are claimed adds nothing. -/
theorem Ahead.many_again (ho : OpenedTwin exact o o') (hp : Ahead exact full p p')
    {relation : Relation} {below : List Selection}
    (hclaimed : ∀ c ∈ parentKeyColumns o'.mapping relation,
      (p'.select.lookup (keyLabel c)).isSome = true) :
    Ahead exact full (manyEntry o p position name resolved relation below) p' := by
  unfold manyEntry
  rw [ho.mapping]
  refine hp.addAll_claimed (fun item hitem => ?_) _ _
  obtain ⟨c, hc, rfl⟩ := List.mem_map.1 hitem
  exact hclaimed c hc

theorem entry_many {relation : Relation} {below : List Selection} {s : Sql.Scope}
    (hr : env.registry.resolve o.level.typeName name = .ok resolved)
    (hn : resolved.relation? = some relation) (hm : relation.many = true) :
    Plan.entry env o p position (.nested name below) s =
      .ok (manyEntry o p position name resolved relation below, s) := by
  have hresolve : Compiling.ofSchema (env.registry.resolve o.level.typeName name) =
      pure resolved := by
    rw [hr]
    rfl
  simp only [Plan.entry, hresolve, pure_bind, hn, hm, if_true]
  rfl

/-- An entry that is dropped comes to nothing. -/
theorem entry_again (ho : OpenedTwin exact o o') (hp : Ahead exact full p p')
    (hnever : ∀ name resolved, env.registry.resolve o.level.typeName name = .ok resolved →
      resolved.Unaliased) (hsteady : exact → ∀ resolved, repeatable resolved → Steady env resolved)
    {entry entry' : Selection} (h : Narrows env.registry repeatable o.level.typeName entry entry')
    (hd : Droppable env.registry repeatable o.level.typeName entry)
    (hcovers : Covers env.registry o'.level.typeName o'.mapping p'.select entry')
    {s s' : Sql.Scope} (hs : exact → s = s') :
    ∃ r t, Plan.entry env o p position entry s = .ok (r, t) ∧ Ahead exact full r p' ∧
      (exact → t = s') := by
  cases hd with
  | value hr _ hrepeatable =>
    cases h
    rw [Plan.entry]
    exact valueEntry_again ho hp (hnever _) hr (fun he => hsteady he _ hrepeatable) hcovers hs
  | list hr hn hm =>
    obtain ⟨below', rfl, -⟩ := h.nested
    refine ⟨_, s, entry_many hr hn hm, ?_, hs⟩
    cases hcovers with
    | related hr' hn' hclaimed =>
      rw [← ho.level.typeName, hr] at hr'
      cases hr'
      cases hn.symm.trans hn'
      exact hp.many_again ho (hclaimed hm)

/-- Single related objects are added alike. -/
theorem Ahead.single (ho : OpenedTwin exact o o') (hp : Ahead exact full p p')
    {child child' : Opened} {q q' : Progress} (hchild : OpenedTwin exact child child')
    (hq : Ahead exact False q q') :
    Ahead exact full (closeSingle env o.level p name resolved child q)
      (closeSingle env o'.level p' name resolved child' q') := by
  have hselect : exact → (closeLevel child q).1 = (closeLevel child' q').1 :=
    hq.closeLevel_eq hchild
  unfold closeSingle
  generalize closeLevel child q = closed at hselect ⊢
  generalize closeLevel child' q' = closed' at hselect ⊢
  obtain ⟨select, plan⟩ := closed
  obtain ⟨select', plan'⟩ := closed'
  have hitem : ∀ e e' : String, (exact → e = e') → exact → [(name, e)] = [(name, e')] :=
    fun e e' h he => by rw [h he]
  refine hp.addAll (hitem _ _ fun he => ?_) ⟨nofun, nofun⟩ _ _ _ _
  simp only
  rw [ho.level.nested, hchild.query he, show select = select' from hselect he]

/-- Single related objects begin alike. -/
theorem openSingle_alike {level level' : Level} (h : LevelTwin exact level level')
    (relation : Relation) (target : String) :
    Alike exact (fun o o' => OpenedTwin exact o o' ∧ o.level.typeName = target ∧
        Ahead exact False o.progress o'.progress)
      (openSingle env level position relation target)
      (openSingle env level' position' relation target) := by
  unfold openSingle
  refine Alike.ofSchema fun mapping _ => ?_
  refine (Alike.ofBuilding fun _ => rfl).bind fun tableAlias tableAlias' ha => ?_
  refine (Alike.ofBuilding fun he => by rw [h.tableAlias he, ha he]).bind fun q q' hq => ?_
  have hchild : LevelTwin exact
      ⟨target, tableAlias, level.depth + 1, true, [], level.origin ++ [position]⟩
      ⟨target, tableAlias', level'.depth + 1, true, [], level'.origin ++ [position']⟩ :=
    ⟨rfl, congrArg (· + 1) h.depth, rfl, rfl, ha⟩
  refine (openLevel_alike hchild none ?_).mono ?_
  · intro he
    rw [hq he, ha he]
  · rintro o o' ⟨ho, hlevel, -, extras, extras', hp, hp', hextras⟩
    rw [hlevel, hp, hp']
    exact ⟨ho, rfl, Ahead.start hextras False.elim⟩

/-! ### Entries -/

end

section

variable {env : Environment} {repeatable : Resolved → Prop} {exact : Prop}

mutual

/-- A kept entry is compiled alike. -/
theorem entry_alike {full : Prop} {position position' : Nat} {o o' : Opened} {p p' : Progress}
    (hnever : ∀ typeName name resolved, env.registry.resolve typeName name = .ok resolved →
      resolved.Unaliased) (hsteady : exact → ∀ resolved, repeatable resolved → Steady env resolved)
    (ho : OpenedTwin exact o o') (hp : Ahead exact full p p') :
    (entry : Selection) → {entry' : Selection} →
    Narrows env.registry repeatable o.level.typeName entry entry' →
    Alike exact (Stepped env exact full o' p' entry') (Plan.entry env o p position entry)
      (Plan.entry env o' p' position' entry')
  | .scalar name, entry', h => by
    cases h
    rw [Plan.entry, Plan.entry]
    exact valueEntry_alike ho hp (hnever _ _)
  | .nested name below, entry', h => by
    obtain ⟨below', rfl, hbelow⟩ := h.nested
    rw [Plan.entry, Plan.entry]
    cases hr : env.registry.resolve o.level.typeName name with
    | error e =>
      rw [ho.level.typeName] at hr
      rw [hr]
      exact fun _ _ _ => .error _
    | ok resolved =>
      have hr' := hr
      rw [ho.level.typeName] at hr'
      rw [hr', ho.level.typeName]
      refine Alike.ofSchema fun other hother => ?_
      cases hother
      cases hn : resolved.relation? with
      | none => exact Alike.throw _
      | some relation =>
        by_cases hm : relation.many = true
        · simp only [hm, if_true]
          refine Alike.pure ⟨hp.many ho, .related hr' hn fun _ c hc => ?_,
            fun c => SelectList.isSome_addAll⟩
          have hitem : (keyLabel c, qualified o'.level.tableAlias c) ∈
              (parentKeyColumns o'.mapping relation).map fun c =>
                (keyLabel c, qualified o'.level.tableAlias c) := List.mem_map_of_mem hc
          exact SelectList.isSome_addAll_of_mem hitem
        · simp only [hm]
          refine (openSingle_alike ho.level relation _).bind ?_
          rintro child child' ⟨hchild, htype, hstart⟩
          have hthins := hbelow resolved relation hr hn
          rw [← htype] at hthins
          refine (entries_alike hnever hsteady hchild hstart below hthins
            fun _ he => nomatch he).bind fun q q' hq => ?_
          exact Alike.pure ⟨hp.single ho hchild hq, .related hr' hn fun hmany => absurd hmany hm,
            fun c => SelectList.isSome_add⟩
termination_by structural entry => entry

/-- A selection and one that thins it are compiled alike. -/
theorem entries_alike {full : Prop} {position position' : Nat} {o o' : Opened} {p p' : Progress}
    (hnever : ∀ typeName name resolved, env.registry.resolve typeName name = .ok resolved →
      resolved.Unaliased) (hsteady : exact → ∀ resolved, repeatable resolved → Steady env resolved)
    (ho : OpenedTwin exact o o') (hp : Ahead exact full p p') :
    (entries : List Selection) → {kept entries' : List Selection} →
    Thins env.registry repeatable o.level.typeName kept entries entries' →
    (∀ entry ∈ kept, Covers env.registry o'.level.typeName o'.mapping p'.select entry) →
    Alike exact (Ahead exact full) (Plan.entries env o p position entries)
      (Plan.entries env o' p' position' entries')
  | [], kept, entries', h, hkept => by
    cases h
    rw [Plan.entries, Plan.entries]
    exact Alike.pure hp
  | entry :: entries, kept, entries', h, hkept => by
    rw [Plan.entries]
    rcases h.cons with ⟨entry', rest, rfl, hn, h⟩ | ⟨entry', hentry', hn, hd, h⟩
    · rw [Plan.entries]
      refine (entry_alike hnever hsteady ho hp entry hn).bind fun r r' hstep => ?_
      refine entries_alike hnever hsteady ho hstep.ahead entries h fun other hother => ?_
      rcases List.mem_append.1 hother with hother | hother
      · exact (hkept other hother).grow hstep.grows
      · rw [List.mem_singleton.1 hother]
        exact hstep.covers
    · refine Alike.bind_left (fun s s' hs => ?_) fun r hr =>
        entries_alike hnever hsteady ho hr entries h hkept
      exact entry_again ho hp (hnever _) (fun he => hsteady he) hn hd (hkept entry' hentry') hs
termination_by structural entries => entries

end

end

end Plan

end ObjectGraph
