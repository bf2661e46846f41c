import ObjectGraph.Proofs.Graph.Nodes
import ObjectGraph.Proofs.Plan.Twins

/-! # Nodes that stand for each other

A row is unpacked alike for twins of plans: node after node, the nodes of the first have
counterparts among those of the second (`nodesOf_twin`, `nodesOfRows_twin`).  Counterparts have one
row, and their links lead to counterparts (`NodeTwin`); a list of the first may still be pending
when that of the second is there. -/

namespace ObjectGraph

namespace Graph

open Outcome (Same)
open Plan (NodePlan FieldPlan FieldKind ManyPlan Twin TwinsWithin FieldsTwin Stands)

/-! ### Counterparts -/

section

variable (env : Plan.Environment) (repeatable : Schema.Resolved → Prop)
  (R : NodeId → NodeId → Prop)

/-- The links of fields that stand for each other. -/
inductive LinkTwin : Link → Link → Prop
  | value : LinkTwin .value .value
  | pending {link' : Link} : LinkTwin .pending link'
  | none : LinkTwin (.single none) (.single none)
  | single {id id' : NodeId} : R id id' → LinkTwin (.single (some id)) (.single (some id'))
  | many {ids ids' : List NodeId} {size : Option Nat} :
      List.Forall₂ R ids ids' → LinkTwin (.many ids size) (.many ids' size)

/-- A node and its counterpart. -/
structure NodeTwin (node node' : Node) : Prop where
  plan : Twin env repeatable node.plan node'.plan
  row : node.row = node'.row
  links : ∀ i i', Stands env repeatable node.plan node'.plan i i' →
    ∃ link link', node.links[i]? = some link ∧ node'.links[i']? = some link' ∧
      LinkTwin R link link'

end

/-- Numbers at one distance from the beginnings of two blocks of a length. -/
def Shift (start start' length id id' : Nat) : Prop :=
  ∃ k < length, id = start + k ∧ id' = start' + k

section

variable {env : Plan.Environment} {repeatable : Schema.Resolved → Prop}
  {R R' : NodeId → NodeId → Prop} {link link' : Link} {node node' : Node}

theorem LinkTwin.mono (h : LinkTwin R link link') (hR : ∀ id id', R id id' → R' id id') :
    LinkTwin R' link link' := by
  cases h with
  | value => exact .value
  | pending => exact .pending
  | none => exact .none
  | single h => exact .single (hR _ _ h)
  | many h => exact .many (h.imp fun _ _ => hR _ _)

theorem NodeTwin.mono (h : NodeTwin env repeatable R node node')
    (hR : ∀ id id', R id id' → R' id id') : NodeTwin env repeatable R' node node' := by
  refine ⟨h.plan, h.row, fun i i' hs => ?_⟩
  obtain ⟨link, link', hl, hl', ht⟩ := h.links i i' hs
  exact ⟨link, link', hl, hl', ht.mono hR⟩

end

section

variable {s s' length length' a id id' : Nat}

theorem Shift.head (h : length ≤ length') (hs : Shift s s' length id id') :
    Shift s s' length' id id' := by
  obtain ⟨k, hk, hid, hid'⟩ := hs
  exact ⟨k, Nat.lt_of_lt_of_le hk h, hid, hid'⟩

theorem Shift.tail (h : a + length ≤ length') (hs : Shift (s + a) (s' + a) length id id') :
    Shift s s' length' id id' := by
  obtain ⟨k, hk, hid, hid'⟩ := hs
  exact ⟨a + k, by omega, by rw [hid, Nat.add_assoc], by rw [hid', Nat.add_assoc]⟩

end

/-! ### The links of new nodes -/

/-- The link of a new node, unless a related object comes with it. -/
def Starts (kind : FieldKind NodePlan) (link : Link) : Prop :=
  match kind with
  | .value => link = .value
  | .many _ => link = .pending
  | .single _ => True

theorem nodesOfField_starts {typeName : String} {field : FieldPlan NodePlan} {row row' : Row}
    {size : Nat} {nodes : List Node} {link : Link}
    (h : nodesOfField typeName field row size = .ok (nodes, row', link)) :
    Starts field.kind link := by
  obtain ⟨name, kind, _, _⟩ := field
  cases kind with
  | value =>
    cases h
    rfl
  | many _ =>
    cases h
    rfl
  | single _ => trivial

theorem nodesOfField_of_not_single (typeName : String) {field : FieldPlan NodePlan} (row : Row)
    (size : Nat) (h : ∀ child, field.kind ≠ .single child) :
    ∃ link, nodesOfField typeName field row size = .ok ([], row, link) := by
  obtain ⟨name, kind, _, _⟩ := field
  cases kind with
  | value => exact ⟨_, rfl⟩
  | many _ => exact ⟨_, rfl⟩
  | single child => exact absurd rfl (h child)

theorem nodesOfFields_cons_ok {typeName : String} {field : FieldPlan NodePlan}
    {fields : List (FieldPlan NodePlan)} {row row' : Row} {size : Nat} {nodes : List Node}
    {links : List Link}
    (h : nodesOfFields typeName (field :: fields) row size = .ok (nodes, row', links)) :
    ∃ first between link rest others,
      nodesOfField typeName field row size = .ok (first, between, link) ∧
      nodesOfFields typeName fields between (size + first.length) = .ok (rest, row', others) ∧
      nodes = first ++ rest ∧ links = link :: others := by
  rw [nodesOfFields] at h
  obtain ⟨⟨first, between, link⟩, hfirst, h⟩ := Outcome.bind_ok.1 h
  obtain ⟨⟨rest, row₂, others⟩, hrest, h⟩ := Outcome.bind_ok.1 h
  cases h
  exact ⟨first, between, link, rest, others, hfirst, hrest, rfl, rfl⟩

theorem nodesOfFields_starts {typeName : String} {fields : List (FieldPlan NodePlan)}
    {row row' : Row} {size : Nat} {nodes : List Node} {links : List Link}
    (h : nodesOfFields typeName fields row size = .ok (nodes, row', links)) :
    List.Forall₂ (fun field link => Starts field.kind link) fields links := by
  induction fields generalizing row size nodes links with
  | nil =>
    cases h
    exact .nil
  | cons field fields ih =>
    obtain ⟨_, _, _, _, _, hfirst, hrest, -, rfl⟩ := nodesOfFields_cons_ok h
    exact .cons (nodesOfField_starts hfirst) (ih hrest)

/-! ### Rows of twins -/

/-- The nodes of two blocks are counterparts, and their plans come with twins. -/
def BlockTwin (env : Plan.Environment) (repeatable : Schema.Resolved → Prop)
    (root root' : NodePlan) (R : NodeId → NodeId → Prop) (nodes nodes' : List Node) : Prop :=
  List.Forall₂ (fun node node' => NodeTwin env repeatable R node node' ∧
    TwinsWithin env repeatable root root' node.plan node'.plan) nodes nodes'

section

variable {env : Plan.Environment} {repeatable : Schema.Resolved → Prop}
  {root root' plan plan' : NodePlan} {R R' : NodeId → NodeId → Prop} {nodes nodes' : List Node}

theorem BlockTwin.mono (h : BlockTwin env repeatable root root' R nodes nodes')
    (hR : ∀ id id', R id id' → R' id id') : BlockTwin env repeatable root root' R' nodes nodes' :=
  h.imp fun _ _ hn => ⟨hn.1.mono hR, hn.2⟩

theorem BlockTwin.within (h : BlockTwin env repeatable plan plan' R nodes nodes')
    (hw : TwinsWithin env repeatable root root' plan plan') :
    BlockTwin env repeatable root root' R nodes nodes' :=
  h.imp fun _ _ hn => ⟨hn.1, hw.trans hn.2⟩

theorem BlockTwin.append {nodes₂ nodes₂' : List Node} {s s' : Nat}
    (h : BlockTwin env repeatable root root' (Shift s s' nodes.length) nodes nodes')
    (h₂ : BlockTwin env repeatable root root'
      (Shift (s + nodes.length) (s' + nodes.length) nodes₂.length) nodes₂ nodes₂') :
    BlockTwin env repeatable root root' (Shift s s' (nodes ++ nodes₂).length) (nodes ++ nodes₂)
      (nodes' ++ nodes₂') := by
  rw [List.length_append]
  exact List.rel_append (h.mono fun _ _ => Shift.head (Nat.le_add_right _ _))
    (h₂.mono fun _ _ => Shift.tail (Nat.le_refl _))

end

/-- The nodes of two rows are counterparts, those of the rows themselves being the last of them. -/
structure RowTwin (env : Plan.Environment) (repeatable : Schema.Resolved → Prop)
    (plan plan' : NodePlan) (s s' : Nat) (nodes nodes' : List Node) : Prop where
  block : BlockTwin env repeatable plan plan' (Shift s s' nodes.length) nodes nodes'
  last : Shift s s' nodes.length (s + nodes.length - 1) (s' + nodes'.length - 1)

/-- The fields of a plan and its twin from positions on. -/
structure Remaining (env : Plan.Environment) (repeatable : Schema.Resolved → Prop)
    (plan plan' : NodePlan) (a taken : Nat) (slots : List Nat)
    (fields fields' : List (FieldPlan NodePlan)) : Prop where
  twin : FieldsTwin env repeatable plan plan' taken slots fields fields'
  slots : (Plan.slotsOf env repeatable plan plan').drop a = slots
  fields : plan.fields.drop a = fields
  fields' : plan'.fields.drop taken = fields'

/-- Unpacking fields of a row of twins comes to the same. -/
structure UnpackedTwin (env : Plan.Environment) (repeatable : Schema.Resolved → Prop)
    (plan plan' : NodePlan) (s s' taken : Nat) (slots : List Nat)
    (fields : List (FieldPlan NodePlan)) (p p' : List Node × Row × List Link) : Prop where
  block : BlockTwin env repeatable plan plan' (Shift s s' p.1.length) p.1 p'.1
  row : p.2.1 = p'.2.1
  single : ∀ {i i' : Nat} {field : FieldPlan NodePlan} {child : NodePlan},
    slots[i]? = some i' → fields[i]? = some field → field.kind = .single child →
    ∃ k link link', i' = taken + k ∧ p.2.2[i]? = some link ∧ p'.2.2[k]? = some link' ∧
      LinkTwin (Shift s s' p.1.length) link link'

section

variable {env : Plan.Environment} {repeatable : Schema.Resolved → Prop} {plan plan' : NodePlan}

theorem Twin.remaining (h : Twin env repeatable plan plan') :
    Remaining env repeatable plan plan' 0 0 (Plan.slotsOf env repeatable plan plan') plan.fields
      plan'.fields := ⟨h.fieldsTwin, rfl, rfl, rfl⟩

/-- A node is the counterpart of another if their fields were unpacked from one row. -/
theorem UnpackedTwin.node {p p' : List Node × Row × List Link} {s s' length : Nat}
    (h : Twin env repeatable plan plan')
    (hp : UnpackedTwin env repeatable plan plan' s s' 0 (Plan.slotsOf env repeatable plan plan')
      plan.fields p p')
    (hstarts : List.Forall₂ (fun field link => Starts field.kind link) plan.fields p.2.2)
    (hstarts' : List.Forall₂ (fun field link => Starts field.kind link) plan'.fields p'.2.2)
    (hlength : p.1.length ≤ length) :
    NodeTwin env repeatable (Shift s s' length) ⟨plan, p.2.1, p.2.2⟩ ⟨plan', p'.2.1, p'.2.2⟩ := by
  refine ⟨h, hp.row, fun i i' hs => ?_⟩
  obtain ⟨field, field', hf, hf', ht⟩ := h.stands_fields hs
  obtain ⟨link, hl, hstart⟩ := Outcome.forall₂_getElem? hstarts hf
  obtain ⟨link', hl', hstart'⟩ := Outcome.forall₂_getElem? hstarts' hf'
  refine ⟨link, link', hl, hl', ?_⟩
  have hkind := ht.kind
  cases hk : field.kind with
  | value =>
    rw [hk] at hstart hkind
    cases hk' : field'.kind with
    | value =>
      rw [hk'] at hstart'
      cases hstart
      cases hstart'
      exact .value
    | single _ => rw [hk'] at hkind; cases hkind
    | many _ => rw [hk'] at hkind; cases hkind
  | many _ =>
    rw [hk] at hstart
    cases hstart
    exact .pending
  | single child =>
    obtain ⟨k, link₂, link₂', hk, hl₂, hl₂', htwin⟩ := hp.single hs hf hk
    rw [Nat.zero_add] at hk
    subst hk
    cases hl.symm.trans hl₂
    cases hl'.symm.trans hl₂'
    exact htwin.mono fun _ _ => Shift.head hlength

/-- The node of a row comes after those of what is packed into it. -/
theorem UnpackedTwin.rowTwin {p p' : List Node × Row × List Link} {s s' : Nat}
    (h : Twin env repeatable plan plan')
    (hp : UnpackedTwin env repeatable plan plan' s s' 0 (Plan.slotsOf env repeatable plan plan')
      plan.fields p p')
    (hstarts : List.Forall₂ (fun field link => Starts field.kind link) plan.fields p.2.2)
    (hstarts' : List.Forall₂ (fun field link => Starts field.kind link) plan'.fields p'.2.2) :
    RowTwin env repeatable plan plan' s s' (p.1 ++ [⟨plan, p.2.1, p.2.2⟩])
      (p'.1 ++ [⟨plan', p'.2.1, p'.2.2⟩]) := by
  have hlength : p.1.length = p'.1.length := hp.block.length_eq
  refine ⟨List.rel_append (hp.block.mono fun _ _ => Shift.head ?_)
    (.cons ⟨hp.node h hstarts hstarts' ?_, .self⟩ .nil), p.1.length, ?_, ?_, ?_⟩
  all_goals simp only [List.length_append, List.length_singleton]
  all_goals omega

section

variable {s s' taken : Nat} {slots : List Nat} {field : FieldPlan NodePlan}
  {fields : List (FieldPlan NodePlan)} {p p' : List Node × Row × List Link}

/-- A field and its twin are unpacked before the others. -/
theorem UnpackedTwin.keep {nodes nodes' : List Node} {link link' : Link}
    (hblock : BlockTwin env repeatable plan plan' (Shift s s' nodes.length) nodes nodes')
    (hlink : ∀ child, field.kind = .single child → LinkTwin (Shift s s' nodes.length) link link')
    (h : UnpackedTwin env repeatable plan plan' (s + nodes.length) (s' + nodes.length) (taken + 1)
      slots fields p p') :
    UnpackedTwin env repeatable plan plan' s s' taken (taken :: slots) (field :: fields)
      (nodes ++ p.1, p.2.1, link :: p.2.2) (nodes' ++ p'.1, p'.2.1, link' :: p'.2.2) := by
  refine ⟨hblock.append h.block, h.row, ?_⟩
  intro i i' other child hs ho hk
  cases i with
  | zero =>
    cases hs
    cases ho
    refine ⟨0, link, link', rfl, rfl, rfl, (hlink child hk).mono fun _ _ => Shift.head ?_⟩
    rw [List.length_append]
    exact Nat.le_add_right _ _
  | succ i =>
    obtain ⟨k, link₂, link₂', hi', hl, hl', ht⟩ := h.single hs ho hk
    refine ⟨k + 1, link₂, link₂', by omega, hl, hl', ht.mono fun _ _ => Shift.tail ?_⟩
    exact Nat.le_of_eq List.length_append.symm

/-- Nothing is unpacked for a field that was dropped. -/
theorem UnpackedTwin.again {i : Nat} {link : Link} (hnot : ∀ child, field.kind ≠ .single child)
    (h : UnpackedTwin env repeatable plan plan' s s' taken slots fields p p') :
    UnpackedTwin env repeatable plan plan' s s' taken (i :: slots) (field :: fields)
      (p.1, p.2.1, link :: p.2.2) p' := by
  refine ⟨h.block, h.row, ?_⟩
  intro i i' other child hs ho hk
  cases i with
  | zero =>
    cases ho
    exact absurd hk (hnot child)
  | succ i => exact h.single hs ho hk

theorem nodesOfFields_cons_of_not_single (typeName : String) (row : Row)
    (hnot : ∀ child, field.kind ≠ .single child) :
    ∃ link, nodesOfFields typeName (field :: fields) row s =
      (nodesOfFields typeName fields row s).map fun p => (p.1, p.2.1, link :: p.2.2) := by
  obtain ⟨link, hfirst⟩ := nodesOfField_of_not_single typeName row s hnot
  refine ⟨link, ?_⟩
  rw [nodesOfFields, hfirst]
  change nodesOfFields typeName fields row s >>= _ = _
  cases nodesOfFields typeName fields row s <;> rfl

end

end

section

variable (env : Plan.Environment) (repeatable : Schema.Resolved → Prop)

mutual

/-- A row is unpacked alike for twins of plans. -/
theorem nodesOf_twin (row : Row) (s s' : Nat) : (plan : NodePlan) → (plan' : NodePlan) →
    Twin env repeatable plan plan' →
    Same (RowTwin env repeatable plan plan' s s') (nodesOf plan row s) (nodesOf plan' row s')
  | ⟨origin, typeName, fields, many⟩, ⟨origin', typeName', fields', many'⟩, h => by
    have htype : typeName = typeName' := h.1
    subst htype
    rw [nodesOf, nodesOf]
    refine (nodesOfFields_twin typeName row s s' fields (Twin.remaining h)).with_ok.bind ?_
    rintro ⟨nodes, rest, links⟩ ⟨nodes', rest', links'⟩ ⟨htwin, hp, hp'⟩
    exact .ok (htwin.rowTwin h (nodesOfFields_starts hp) (nodesOfFields_starts hp'))
termination_by structural plan => plan

theorem nodesOfFields_twin (typeName : String) (row : Row) (s s' : Nat) :
    (fields : List (FieldPlan NodePlan)) → {plan plan' : NodePlan} → {a taken : Nat} →
    {slots : List Nat} → {fields' : List (FieldPlan NodePlan)} →
    Remaining env repeatable plan plan' a taken slots fields fields' →
    Same (UnpackedTwin env repeatable plan plan' s s' taken slots fields)
      (nodesOfFields typeName fields row s) (nodesOfFields typeName fields' row s')
  | [], _, _, _, _, _, _, h => by
    obtain ⟨htwin, -, -, -⟩ := h
    cases htwin
    exact .ok ⟨.nil, rfl, fun _ hf => nomatch hf⟩
  | field :: fields, plan, plan', a, taken, slots, fields', h => by
    obtain ⟨htwin, hslots, hfields, hfields'⟩ := h
    obtain ⟨hfield, hfields⟩ := Plan.drop_cons hfields
    cases htwin with
    | @keep _ slots _ field' _ fields' hf hrest =>
      obtain ⟨hslot, hslots⟩ := Plan.drop_cons hslots
      obtain ⟨hfield', hfields'⟩ := Plan.drop_cons hfields'
      have hfirst := nodesOfField_twin typeName row s s' field hf
        fun child child' hk hk' => .single .self hslot hfield hfield' hk hk'
      rw [nodesOfFields, nodesOfFields]
      refine hfirst.bind ?_
      rintro ⟨nodes, between, link⟩ ⟨nodes', between', link'⟩ ⟨hblock, hrow, hlink⟩
      simp only at hblock hrow hlink
      subst hrow
      have hrest := nodesOfFields_twin typeName between (s + nodes.length) (s' + nodes.length)
        fields ⟨hrest, hslots, hfields, hfields'⟩
      have hlength : nodes.length = nodes'.length := hblock.length_eq
      change Same _ (nodesOfFields typeName fields between (s + nodes.length) >>= _)
        (nodesOfFields typeName fields' between (s' + nodes'.length) >>= _)
      rw [← hlength]
      exact hrest.bind fun p p' hp => .ok (hp.keep hblock hlink)
    | again _ _ _ hnot hrest =>
      obtain ⟨-, hslots⟩ := Plan.drop_cons hslots
      have hrest := nodesOfFields_twin typeName row s s' fields ⟨hrest, hslots, hfields, hfields'⟩
      obtain ⟨link, hcons⟩ := nodesOfFields_cons_of_not_single typeName row hnot
      rw [hcons]
      exact hrest.map_left fun p p' hp => hp.again hnot
termination_by structural fields => fields

theorem nodesOfField_twin (typeName : String) (row : Row) (s s' : Nat) :
    (field : FieldPlan NodePlan) → {plan plan' : NodePlan} → {field' : FieldPlan NodePlan} →
    Plan.FieldTwin env repeatable plan plan' field field' →
    (∀ child child', field.kind = .single child → field'.kind = .single child' →
      TwinsWithin env repeatable plan plan' child child') →
    Same (fun p p' => BlockTwin env repeatable plan plan' (Shift s s' p.1.length) p.1 p'.1 ∧
        p.2.1 = p'.2.1 ∧
        ∀ child, field.kind = .single child → LinkTwin (Shift s s' p.1.length) p.2.2 p'.2.2)
      (nodesOfField typeName field row s) (nodesOfField typeName field' row s')
  | ⟨name, kind, _, _⟩, _, _, ⟨name', kind', _, _⟩, h, hw => by
    have hname : name = name' := h.name
    rw [nodesOfField, nodesOfField, ← hname]
    exact nodesOfKind_twin typeName name row s s' kind h.kind hw
termination_by structural field => field

theorem nodesOfKind_twin (typeName name : String) (row : Row) (s s' : Nat) :
    (kind : FieldKind NodePlan) → {plan plan' : NodePlan} → {kind' : FieldKind NodePlan} →
    Plan.KindTwin env repeatable plan plan' kind kind' →
    (∀ child child', kind = .single child → kind' = .single child' →
      TwinsWithin env repeatable plan plan' child child') →
    Same (fun p p' => BlockTwin env repeatable plan plan' (Shift s s' p.1.length) p.1 p'.1 ∧
        p.2.1 = p'.2.1 ∧
        ∀ child, kind = .single child → LinkTwin (Shift s s' p.1.length) p.2.2 p'.2.2)
      (nodesOfKind typeName name kind row s) (nodesOfKind typeName name kind' row s')
  | .value, _, _, _, h, _ => by
    cases h
    exact .ok ⟨.nil, rfl, fun _ hk => nomatch hk⟩
  | .many _, _, _, _, h, _ => by
    cases h
    exact .ok ⟨.nil, rfl, fun _ hk => nomatch hk⟩
  | .single child, _, _, _, h, hw => by
    cases h with
    | @single _ child' ht =>
      rw [nodesOfKind, nodesOfKind]
      cases relatedObject typeName name ((row.get? name).getD .null) with
      | error e => exact .error e
      | ok related =>
        cases related with
        | none => exact .ok ⟨.nil, rfl, fun _ _ => .none⟩
        | some related =>
          refine (nodesOf_twin related s s' child child' ht).bind fun nodes nodes' hrow => ?_
          exact .ok ⟨hrow.block.within (hw child child' rfl rfl), rfl,
            fun _ _ => .single hrow.last⟩
termination_by structural kind => kind

end

end

/-- The nodes of some rows of twins are counterparts, as are those of the rows themselves, which
carry the same keys. -/
structure RowsTwin {κ : Type} (env : Plan.Environment) (repeatable : Schema.Resolved → Prop)
    (plan plan' : NodePlan) (s s' : Nat) (p p' : List Node × List (κ × NodeId)) : Prop where
  block : BlockTwin env repeatable plan plan' (Shift s s' p.1.length) p.1 p'.1
  ids : List.Forall₂ (fun c c' => c.1 = c'.1 ∧ Shift s s' p.1.length c.2 c'.2) p.2 p'.2

section

variable {env : Plan.Environment} {repeatable : Schema.Resolved → Prop} {plan plan' : NodePlan}

theorem RowsTwin.cons {κ : Type} {s s' : Nat} {nodes nodes' : List Node} (key : κ)
    {p p' : List Node × List (κ × NodeId)} (h : RowTwin env repeatable plan plan' s s' nodes nodes')
    (hp : RowsTwin env repeatable plan plan' (s + nodes.length) (s' + nodes.length) p p') :
    RowsTwin env repeatable plan plan' s s'
      (nodes ++ p.1, (key, s + nodes.length - 1) :: p.2)
      (nodes' ++ p'.1, (key, s' + nodes'.length - 1) :: p'.2) := by
  refine ⟨h.block.append hp.block, .cons ⟨rfl, h.last.head ?_⟩ (hp.ids.imp fun _ _ hc =>
    ⟨hc.1, hc.2.tail ?_⟩)⟩
  · exact List.length_append ▸ Nat.le_add_right _ _
  · exact Nat.le_of_eq List.length_append.symm

/-- Rows are unpacked alike for twins of plans. -/
theorem nodesOfAll_twin (h : Twin env repeatable plan plan') (rows : List Row) (s s' : Nat) :
    Same (fun p p' => BlockTwin env repeatable plan plan' (Shift s s' p.1.length) p.1 p'.1 ∧
        List.Forall₂ (Shift s s' p.1.length) p.2 p'.2)
      (nodesOfAll plan rows s) (nodesOfAll plan' rows s') := by
  induction rows generalizing s s' with
  | nil => exact .ok ⟨.nil, .nil⟩
  | cons row rows ih =>
    unfold nodesOfAll
    refine (nodesOf_twin env repeatable row s s' plan plan' h).bind fun nodes nodes' hrow => ?_
    have hlast := hrow.last
    rw [← hrow.block.length_eq] at hlast ⊢
    refine (ih _ _).bind ?_
    rintro ⟨others, ids⟩ ⟨others', ids'⟩ ⟨hblock, hids⟩
    refine .ok ⟨hrow.block.append hblock, .cons (hlast.head ?_) (hids.imp fun _ _ => Shift.tail ?_)⟩
    · exact List.length_append ▸ Nat.le_add_right _ _
    · exact Nat.le_of_eq List.length_append.symm

/-- The rows of a follow-up are unpacked alike for twins of plans. -/
theorem nodesOfRows_twin (h : Twin env repeatable plan plan') {m m' : ManyPlan}
    (hm : Plan.ManyTwin env repeatable m m') (labels : List String) (rows : List Row) (s s' : Nat) :
    Same (RowsTwin env repeatable plan plan' s s') (nodesOfRows m plan labels rows s)
      (nodesOfRows m' plan' labels rows s') := by
  induction rows generalizing s s' with
  | nil => exact .ok ⟨.nil, .nil⟩
  | cons row rows ih =>
    unfold nodesOfRows
    cases rowKey? row labels with
    | none =>
      rw [hm.parentType, hm.field]
      exact .error _
    | some key =>
      refine (nodesOf_twin env repeatable row s s' plan plan' h).bind fun nodes nodes' hrow => ?_
      have hlength := hrow.block.length_eq
      rw [← hlength]
      refine (ih _ _).bind fun p p' hp => ?_
      have hcons := RowsTwin.cons key hrow hp
      rw [← hlength] at hcons
      exact .ok hcons

end

end Graph

end ObjectGraph
