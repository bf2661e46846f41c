import ObjectGraph.Proofs.Plan.Planned

/-! # The places of a request

A plan belongs to one place of the request.  `Occurs` follows the plans from that of the root:
through single related objects, which come with their parent, and through the follow-ups of lists,
each of which takes one more round.  The path of a place determines its plan and its round
(`Occurs.unique`), and no place takes more rounds than the request is deep (`Occurs.lt_depth`). -/

namespace ObjectGraph

namespace Plan

variable {env : Environment}

/-- A plan of a level with selected fields. -/
def PlannedFor (env : Environment) (selections : List Selection) (plan : NodePlan) : Prop :=
  ∃ mapping depth, Planned env ⟨plan.typeName, mapping, depth, plan.origin⟩ 0 0 selections
    plan.fields plan.many

/-! ### One level -/

theorem depth_le_depthOf {selections : List Selection} {selection : Selection}
    (h : selection ∈ selections) : selection.depth ≤ Selection.depthOf selections := by
  induction selections with
  | nil => cases h
  | cons first rest ih =>
    rw [Selection.depthOf]
    rcases List.mem_cons.1 h with rfl | h
    · exact Nat.le_max_left _ _
    · exact Nat.le_trans (ih h) (Nat.le_max_right _ _)

/-- A nested selection has fewer levels than the selections it is among. -/
theorem depthOf_lt {selections below : List Selection} {name : String}
    (h : .nested name below ∈ selections) :
    Selection.depthOf below < Selection.depthOf selections := by
  have hle := depth_le_depthOf h
  rw [Selection.depth] at hle
  omega

/-- A single related object stands at its position, and has fewer levels below it. -/
theorem Planned.single_at {site : Site} {position lists : Nat} {selections : List Selection}
    {fields : List (FieldPlan NodePlan)} {many : List ManyPlan}
    (h : Planned env site position lists selections fields many) {i : Nat}
    {field : FieldPlan NodePlan} {child : NodePlan} (hi : fields[i]? = some field)
    (hk : field.kind = .single child) :
    child.origin = site.origin ++ [position + i] ∧ ∃ below, PlannedFor env below child ∧
      Selection.depthOf below < Selection.depthOf selections := by
  obtain ⟨selection, hs, hp⟩ := h.field_at hi
  cases hp with
  | value _ _ => cases hk
  | many _ _ _ _ => cases hk
  | single _ _ _ _ hchild =>
    cases hk
    exact ⟨rfl, _, ⟨_, _, hchild⟩, depthOf_lt (List.mem_of_getElem? hs)⟩

/-- A list stands at its position, and has fewer levels below it. -/
theorem Planned.many_at {site : Site} {position lists : Nat} {selections : List Selection}
    {fields : List (FieldPlan NodePlan)} {many : List ManyPlan}
    (h : Planned env site position lists selections fields many) {i j : Nat}
    {field : FieldPlan NodePlan} (hi : fields[i]? = some field) (hk : field.kind = .many j) :
    ∃ m, lists ≤ j ∧ many[j - lists]? = some m ∧ m.origin = site.origin ++ [position + i] ∧
      Selection.depthOf m.selection < Selection.depthOf selections := by
  obtain ⟨selection, hs, hp⟩ := h.field_at hi
  cases hp with
  | value _ _ => cases hk
  | single _ _ _ _ _ => cases hk
  | many _ _ _ hl =>
    cases hk
    exact ⟨_, hl.1, hl.2, rfl, depthOf_lt (List.mem_of_getElem? hs)⟩

section

variable {selections : List Selection} {plan : NodePlan} {i : Nat} {field : FieldPlan NodePlan}

theorem PlannedFor.single_at (h : PlannedFor env selections plan) {child : NodePlan}
    (hi : plan.fields[i]? = some field) (hk : field.kind = .single child) :
    child.origin = plan.origin ++ [i] ∧ ∃ below, PlannedFor env below child ∧
      Selection.depthOf below < Selection.depthOf selections := by
  obtain ⟨mapping, depth, h⟩ := h
  have := h.single_at hi hk
  rwa [Nat.zero_add] at this

theorem PlannedFor.many_at (h : PlannedFor env selections plan) {j : Nat}
    (hi : plan.fields[i]? = some field) (hk : field.kind = .many j) :
    ∃ m, plan.many[j]? = some m ∧ m.origin = plan.origin ++ [i] ∧
      Selection.depthOf m.selection < Selection.depthOf selections := by
  obtain ⟨mapping, depth, h⟩ := h
  obtain ⟨m, -, hm, ho, hd⟩ := h.many_at hi hk
  rw [Nat.zero_add] at ho
  exact ⟨m, hm, ho, hd⟩

/-- A list stands at one position only. -/
theorem PlannedFor.many_unique (h : PlannedFor env selections plan) {i' j : Nat}
    {field' : FieldPlan NodePlan} (hi : plan.fields[i]? = some field)
    (hi' : plan.fields[i']? = some field') (hk : field.kind = .many j)
    (hk' : field'.kind = .many j) : i = i' := by
  obtain ⟨m, hm, ho, -⟩ := h.many_at hi hk
  obtain ⟨m', hm', ho', -⟩ := h.many_at hi' hk'
  rw [hm] at hm'
  cases hm'
  rw [ho] at ho'
  simpa using ho'

end

/-! ### The depth of a level -/

/-- A plan of a level at a depth, with selected fields. -/
def PlannedAt (env : Environment) (depth : Nat) (selections : List Selection) (plan : NodePlan) :
    Prop :=
  ∃ mapping, Planned env ⟨plan.typeName, mapping, depth, plan.origin⟩ 0 0 selections plan.fields
    plan.many

/-- A plan, or one of the single related objects that come with its objects. -/
inductive Within (plan : NodePlan) : NodePlan → Prop
  | self : Within plan plan
  | single {i : Nat} {parent child : NodePlan} {field : FieldPlan NodePlan} :
      Within plan parent → parent.fields[i]? = some field → field.kind = .single child →
      Within plan child

theorem Within.trans {plan plan' plan'' : NodePlan} (h : Within plan plan')
    (h' : Within plan' plan'') : Within plan plan'' := by
  induction h' with
  | self => exact h
  | single _ hi hk ih => exact .single ih hi hk

section

variable {depth : Nat} {selections : List Selection} {plan : NodePlan}

theorem PlannedAt.plannedFor (h : PlannedAt env depth selections plan) :
    PlannedFor env selections plan := by
  obtain ⟨mapping, hp⟩ := h
  exact ⟨mapping, depth, hp⟩

theorem PlannedAt.field_at (h : PlannedAt env depth selections plan) {i : Nat}
    {field : FieldPlan NodePlan} (hi : plan.fields[i]? = some field) :
    ∃ mapping selection, selections[i]? = some selection ∧
      PlannedField env ⟨plan.typeName, mapping, depth, plan.origin⟩ i
        (fun j m => plan.many[j]? = some m) selection field := by
  obtain ⟨mapping, hp⟩ := h
  obtain ⟨selection, hs, hf⟩ := hp.field_at hi
  rw [Nat.zero_add] at hf
  exact ⟨mapping, selection, hs, hf.mono fun _ _ hm => hm.2⟩

theorem PlannedAt.names (h : PlannedAt env depth selections plan) :
    plan.fields.map FieldPlan.name = selections.map Selection.name := by
  obtain ⟨mapping, hp⟩ := h
  exact hp.names

theorem PlannedAt.exists_field (h : PlannedAt env depth selections plan) {i : Nat}
    {selection : Selection} (hi : selections[i]? = some selection) :
    ∃ field, plan.fields[i]? = some field := by
  have hlength := congrArg List.length h.names
  rw [List.length_map, List.length_map] at hlength
  obtain ⟨hlt, -⟩ := List.getElem?_eq_some_iff.1 hi
  exact ⟨_, List.getElem?_eq_getElem (hlength ▸ hlt)⟩

/-- All fields that have the name of a relation are planned by it. -/
theorem PlannedAt.relation_field (h : PlannedAt env depth selections plan)
    {resolved : Schema.Resolved} {relation : Schema.Relation} {field : FieldPlan NodePlan}
    (hf : field ∈ plan.fields)
    (hr : env.registry.resolve plan.typeName field.name = .ok resolved)
    (hn : resolved.relation? = some relation) :
    field.json = false ∧ field.transform = resolved.transform? := by
  obtain ⟨i, hi⟩ := List.getElem?_of_mem hf
  obtain ⟨mapping, selection, -, hp⟩ := h.field_at hi
  cases hp with
  | value hr' hn' =>
    cases hr.symm.trans hr'
    cases hn.symm.trans hn'
  | many hr' _ _ _ =>
    cases hr.symm.trans hr'
    exact ⟨rfl, rfl⟩
  | single hr' _ _ _ _ =>
    cases hr.symm.trans hr'
    exact ⟨rfl, rfl⟩

theorem PlannedAt.list_depth (h : PlannedAt env depth selections plan) {i j : Nat}
    {field : FieldPlan NodePlan} {m : ManyPlan} (hi : plan.fields[i]? = some field)
    (hk : field.kind = .many j) (hm : plan.many[j]? = some m) : m.depth = depth + 1 := by
  obtain ⟨mapping, selection, -, hf⟩ := h.field_at hi
  cases hf with
  | value _ _ => cases hk
  | single _ _ _ _ _ => cases hk
  | many _ _ _ hl =>
    cases hk
    rw [hm] at hl
    cases hl
    rfl

/-- The single related objects of a level are deeper than the level. -/
theorem PlannedAt.within (h : PlannedAt env depth selections plan) {plan' : NodePlan}
    (hw : Within plan plan') :
    ∃ depth' selections', depth ≤ depth' ∧ PlannedAt env depth' selections' plan' := by
  induction hw with
  | self => exact ⟨depth, selections, Nat.le_refl _, h⟩
  | single _ hi hk ih =>
    obtain ⟨depth', selections', hle, hp⟩ := ih
    obtain ⟨mapping, selection, -, hf⟩ := hp.field_at hi
    cases hf with
    | value _ _ => cases hk
    | many _ _ _ _ => cases hk
    | single _ _ _ _ hchild =>
      cases hk
      exact ⟨depth' + 1, _, by omega, _, hchild⟩

end

theorem compileMany_plannedAt {many : ManyPlan} {keys : List (List Json)} {compiled : Compiled}
    (h : compileMany env many keys = .ok compiled) :
    PlannedAt env many.depth many.selection compiled.plan := by
  obtain ⟨ho, ht, mapping, -, hp⟩ := compileMany_planned h
  refine ⟨mapping, ?_⟩
  rw [ho, ht]
  exact hp

theorem compileRoot_plannedAt {request : Request} {filter : Option Schema.TypeFilter}
    {compiled : Compiled} (h : compileRoot env request filter = .ok compiled) :
    PlannedAt env 1 request.fields compiled.plan := by
  obtain ⟨ho, ht, mapping, -, hp⟩ := compileRoot_planned h
  refine ⟨mapping, ?_⟩
  rw [ho, ht]
  exact hp

theorem compileMany_plannedFor {many : ManyPlan} {keys : List (List Json)} {compiled : Compiled}
    (h : compileMany env many keys = .ok compiled) :
    PlannedFor env many.selection compiled.plan ∧ compiled.plan.origin = many.origin :=
  ⟨(compileMany_plannedAt h).plannedFor, (compileMany_planned h).1⟩

theorem compileRoot_plannedFor {request : Request} {filter : Option Schema.TypeFilter}
    {compiled : Compiled} (h : compileRoot env request filter = .ok compiled) :
    PlannedFor env request.fields compiled.plan ∧ compiled.plan.origin = [] :=
  ⟨(compileRoot_plannedAt h).plannedFor, (compileRoot_planned h).1⟩

/-- What a follow-up brings is deeper than its list: so are the lists that it leads to. -/
theorem depth_lt_of_within {m m' : ManyPlan} {keys : List (List Json)} {compiled : Compiled}
    (h : compileMany env m keys = .ok compiled) {plan : NodePlan} (hw : Within compiled.plan plan)
    {i j : Nat} {field : FieldPlan NodePlan} (hi : plan.fields[i]? = some field)
    (hk : field.kind = .many j) (hm : plan.many[j]? = some m') : m.depth < m'.depth := by
  obtain ⟨depth, selections, hle, hp⟩ := (compileMany_plannedAt h).within hw
  have heq := hp.list_depth hi hk hm
  omega

/-! ### All levels -/

/-- The plans of a request, each with the number of the round that its objects are fetched in. -/
inductive Occurs (env : Environment) (root : NodePlan) : (round : Nat) → NodePlan → Prop
  | root : Occurs env root 0 root
  | single {round i : Nat} {plan child : NodePlan} {field : FieldPlan NodePlan} :
      Occurs env root round plan → plan.fields[i]? = some field → field.kind = .single child →
      Occurs env root round child
  | many {round i j : Nat} {plan : NodePlan} {field : FieldPlan NodePlan} {m : ManyPlan}
      {keys : List (List Json)} {compiled : Compiled} :
      Occurs env root round plan → plan.fields[i]? = some field → field.kind = .many j →
      plan.many[j]? = some m → compileMany env m keys = .ok compiled →
      Occurs env root (round + 1) compiled.plan

/-- A list that some level of a request has. -/
def Listed (env : Environment) (root : NodePlan) (m : ManyPlan) : Prop :=
  ∃ (round i j : Nat) (plan : NodePlan) (field : FieldPlan NodePlan),
    Occurs env root round plan ∧ plan.fields[i]? = some field ∧ field.kind = .many j ∧
      plan.many[j]? = some m

namespace Occurs

variable {root plan plan' : NodePlan} {selections : List Selection} {round round' : Nat}

/-- Every plan is that of a selection, and a round is spent for the levels above it. -/
theorem plannedFor (hroot : PlannedFor env selections root) (h : Occurs env root round plan) :
    ∃ below, PlannedFor env below plan ∧
      round + Selection.depthOf below ≤ Selection.depthOf selections := by
  induction h with
  | root => exact ⟨selections, hroot, by omega⟩
  | single _ hi hk ih =>
    obtain ⟨above, ha, hr⟩ := ih
    obtain ⟨-, below, hb, hd⟩ := ha.single_at hi hk
    exact ⟨below, hb, by omega⟩
  | many _ hi hk hm hc ih =>
    obtain ⟨above, ha, hr⟩ := ih
    obtain ⟨m, hm', -, hd⟩ := ha.many_at hi hk
    rw [hm] at hm'
    cases hm'
    exact ⟨_, (compileMany_plannedFor hc).1, by omega⟩

/-- The way to a plan from that of its parent is told by its path. -/
theorem origin_cases (hroot : PlannedFor env selections root) (horigin : root.origin = [])
    (h : Occurs env root round plan) :
    (plan = root ∧ round = 0 ∧ plan.origin = []) ∨
      ∃ parent parentRound i field, Occurs env root parentRound parent ∧
        plan.origin = parent.origin ++ [i] ∧ parent.fields[i]? = some field ∧
        ((field.kind = .single plan ∧ round = parentRound) ∨
          ∃ j m keys compiled, field.kind = .many j ∧ parent.many[j]? = some m ∧
            compileMany env m keys = .ok compiled ∧ plan = compiled.plan ∧
            round = parentRound + 1) := by
  cases h with
  | root => exact .inl ⟨rfl, rfl, horigin⟩
  | single hp hi hk =>
    obtain ⟨above, ha, -⟩ := hp.plannedFor hroot
    obtain ⟨ho, -⟩ := ha.single_at hi hk
    exact .inr ⟨_, _, _, _, hp, ho, hi, .inl ⟨hk, rfl⟩⟩
  | many hp hi hk hm hc =>
    obtain ⟨above, ha, -⟩ := hp.plannedFor hroot
    obtain ⟨m, hm', ho, -⟩ := ha.many_at hi hk
    rw [hm] at hm'
    cases hm'
    refine .inr ⟨_, _, _, _, hp, ?_, hi, .inr ⟨_, _, _, _, hk, hm, hc, rfl, rfl⟩⟩
    rw [(compileMany_plannedFor hc).2, ho]

/-- The path of a place determines its plan and its round. -/
theorem unique (hroot : PlannedFor env selections root) (horigin : root.origin = [])
    (h : Occurs env root round plan) (h' : Occurs env root round' plan')
    (ho : plan.origin = plan'.origin) : plan = plan' ∧ round = round' := by
  -- on the length of the path: both plans have the same parent
  generalize hn : plan.origin.length = n
  induction n generalizing plan plan' round round' with
  | zero =>
    have hnil := List.length_eq_zero_iff.1 hn
    rcases h.origin_cases hroot horigin with ⟨rfl, rfl, -⟩ | ⟨_, _, _, _, -, hp, -⟩
    · rcases h'.origin_cases hroot horigin with ⟨rfl, rfl, -⟩ | ⟨_, _, _, _, -, hp', -⟩
      · exact ⟨rfl, rfl⟩
      · rw [← ho, hnil] at hp'
        simp at hp'
    · rw [hnil] at hp
      simp at hp
  | succ n ih =>
    rcases h.origin_cases hroot horigin with ⟨-, -, hnil⟩ | ⟨p, r, i, f, hp, hpo, hf, hway⟩
    · rw [hnil] at hn
      simp at hn
    rcases h'.origin_cases hroot horigin with ⟨-, -, hnil⟩ | ⟨p', r', i', f', hp', hpo', hf', hway'⟩
    · rw [ho, hnil] at hn
      simp at hn
    rw [hpo, hpo'] at ho
    obtain ⟨hparent, hi⟩ := List.append_inj' ho rfl
    rw [hpo] at hn
    obtain ⟨rfl, rfl⟩ := ih hp hp' hparent (by simpa using hn)
    cases hi
    rw [hf] at hf'
    cases hf'
    rcases hway with ⟨hk, rfl⟩ | ⟨j, m, keys, compiled, hk, hm, hc, rfl, rfl⟩
    · rcases hway' with ⟨hk', rfl⟩ | ⟨j, m, keys, compiled, hk', -⟩
      · rw [hk] at hk'
        cases hk'
        exact ⟨rfl, rfl⟩
      · rw [hk] at hk'
        cases hk'
    · rcases hway' with ⟨hk', rfl⟩ | ⟨j', m', keys', compiled', hk', hm', hc', rfl, rfl⟩
      · rw [hk] at hk'
        cases hk'
      · rw [hk] at hk'
        cases hk'
        rw [hm] at hm'
        cases hm'
        exact ⟨(compileMany_uniform hc hc').1, rfl⟩

/-- The path of a list determines its level and its position there. -/
theorem list_unique (hroot : PlannedFor env selections root) (horigin : root.origin = [])
    (h : Occurs env root round plan) (h' : Occurs env root round' plan') {i i' j j' : Nat}
    {field field' : FieldPlan NodePlan} {m m' : ManyPlan} (hi : plan.fields[i]? = some field)
    (hi' : plan'.fields[i']? = some field') (hk : field.kind = .many j)
    (hk' : field'.kind = .many j') (hm : plan.many[j]? = some m) (hm' : plan'.many[j']? = some m')
    (ho : m.origin = m'.origin) : plan = plan' ∧ j = j' ∧ m = m' := by
  obtain ⟨below, hb, -⟩ := h.plannedFor hroot
  obtain ⟨below', hb', -⟩ := h'.plannedFor hroot
  obtain ⟨_, hm₂, hmo, -⟩ := hb.many_at hi hk
  rw [hm] at hm₂
  cases hm₂
  obtain ⟨_, hm₂, hmo', -⟩ := hb'.many_at hi' hk'
  rw [hm'] at hm₂
  cases hm₂
  rw [hmo, hmo'] at ho
  obtain ⟨hplace, hpos⟩ := List.append_inj' ho rfl
  cases hpos
  obtain ⟨rfl, -⟩ := h.unique hroot horigin h' hplace
  rw [hi] at hi'
  cases hi'
  rw [hk] at hk'
  cases hk'
  rw [hm] at hm'
  cases hm'
  exact ⟨rfl, rfl, rfl⟩

theorem within (h : Occurs env root round plan) (hw : Within plan plan') :
    Occurs env root round plan' := by
  induction hw with
  | self => exact h
  | single _ hi hk ih => exact .single ih hi hk

end Occurs

/-- A plan of a request, that of the root or one that occurs below it. -/
def Requested (env : Environment) (request : Request) (filter : Option Schema.TypeFilter)
    (plan : NodePlan) : Prop :=
  ∃ root round, compileRoot env request filter = .ok root ∧ Occurs env root.plan round plan

namespace Requested

variable {request : Request} {filter : Option Schema.TypeFilter} {plan plan' : NodePlan}

theorem plannedFor (h : Requested env request filter plan) :
    ∃ below, PlannedFor env below plan := by
  obtain ⟨root, round, hroot, hoccurs⟩ := h
  obtain ⟨below, hbelow, -⟩ := hoccurs.plannedFor (compileRoot_plannedFor hroot).1
  exact ⟨below, hbelow⟩

/-- The plans of a request are told apart by their places. -/
theorem unique (h : Requested env request filter plan) (h' : Requested env request filter plan')
    (horigin : plan.origin = plan'.origin) : plan = plan' := by
  obtain ⟨root, round, hroot, hoccurs⟩ := h
  obtain ⟨root', round', hroot', hoccurs'⟩ := h'
  cases hroot.symm.trans hroot'
  obtain ⟨hplanned, hnil⟩ := compileRoot_plannedFor hroot
  exact (hoccurs.unique hplanned hnil hoccurs' horigin).1

end Requested

/-- A plan that a follow-up of a list of a level has. -/
structure Fetches (env : Environment) (root plan : NodePlan) (j : Nat) (child : NodePlan) :
    Prop where
  occurs : ∃ round, Occurs env root round plan
  list : ∃ (i : Nat) (field : FieldPlan NodePlan) (m : ManyPlan), plan.fields[i]? = some field ∧
    field.kind = .many j ∧ plan.many[j]? = some m ∧
    ∃ keys compiled, compileMany env m keys = .ok compiled ∧ child = compiled.plan

namespace Fetches

variable {root plan plan' child child' : NodePlan} {selections : List Selection} {j j' : Nat}
  (hroot : PlannedFor env selections root) (horigin : root.origin = [])

theorem occurs_child (h : Fetches env root plan j child) :
    ∃ round, Occurs env root round child := by
  obtain ⟨round, ho⟩ := h.occurs
  obtain ⟨i, field, m, hi, hk, hm, keys, compiled, hc, rfl⟩ := h.list
  exact ⟨round + 1, .many ho hi hk hm hc⟩

include hroot horigin

/-- No single related object stands at the place of a list. -/
theorem origin_ne (h : Fetches env root plan j child) {round i : Nat} {above single : NodePlan}
    {field : FieldPlan NodePlan} (ho : Occurs env root round above)
    (hi : above.fields[i]? = some field) (hk : field.kind = .single single) :
    child.origin ≠ single.origin := by
  intro heq
  obtain ⟨round', ho'⟩ := h.occurs
  obtain ⟨i', field', m, hi', hk', hm, keys, compiled, hc, rfl⟩ := h.list
  obtain ⟨below, hb, -⟩ := ho.plannedFor hroot
  obtain ⟨below', hb', -⟩ := ho'.plannedFor hroot
  obtain ⟨m', hm', hmo, -⟩ := hb'.many_at hi' hk'
  cases hm.symm.trans hm'
  rw [(compileMany_plannedFor hc).2, hmo, (hb.single_at hi hk).1] at heq
  obtain ⟨hparent, hposition⟩ := List.append_inj' heq rfl
  cases hposition
  obtain ⟨rfl, -⟩ := ho'.unique hroot horigin ho hparent
  cases hi.symm.trans hi'
  cases hk.symm.trans hk'

/-- What comes with the objects of different lists stands at different places. -/
theorem unique (h : Fetches env root plan j child) (h' : Fetches env root plan' j' child')
    {below below' : NodePlan} (hw : Within child below) (hw' : Within child' below')
    (heq : below.origin = below'.origin) : plan = plan' ∧ j = j' := by
  obtain ⟨round, ho⟩ := h.occurs_child
  obtain ⟨round', ho'⟩ := h'.occurs_child
  induction hw generalizing below' with
  | self =>
    cases hw' with
    | self =>
      obtain ⟨_, hp⟩ := h.occurs
      obtain ⟨_, hp'⟩ := h'.occurs
      obtain ⟨i, field, m, hi, hk, hm, keys, compiled, hc, rfl⟩ := h.list
      obtain ⟨i', field', m', hi', hk', hm', keys', compiled', hc', rfl⟩ := h'.list
      rw [(compileMany_plannedFor hc).2, (compileMany_plannedFor hc').2] at heq
      obtain ⟨hplan, hj, -⟩ := hp.list_unique hroot horigin hp' hi hi' hk hk' hm hm' heq
      exact ⟨hplan, hj⟩
    | single hw' hi' hk' =>
      exact absurd heq (h.origin_ne hroot horigin (ho'.within hw') hi' hk')
  | single hw hi hk ih =>
    cases hw' with
    | self => exact absurd heq.symm (h'.origin_ne hroot horigin (ho.within hw) hi hk)
    | single hw' hi' hk' =>
      obtain ⟨_, ha, -⟩ := (ho.within hw).plannedFor hroot
      obtain ⟨_, ha', -⟩ := (ho'.within hw').plannedFor hroot
      rw [(ha.single_at hi hk).1, (ha'.single_at hi' hk').1] at heq
      exact ih hw' (List.append_inj' heq rfl).1

end Fetches

end Plan

end ObjectGraph
