import ObjectGraph.Proofs.Graph.Malformed
import ObjectGraph.Proofs.Graph.Relocation
import ObjectGraph.Proofs.Storage.Agreement

/-! # Rows of a plan whose fields stand in another order

A plan may have its fields in another order, and its lists under other indices
(`NodePlan.Reordered`).  A row is unpacked by one of two such plans if it is by the other, and what
is unpacked is the same: what is left of the row has the same members, and the links of every field
lead to copies of the same nodes (`nodesOf_reordered`).  For graphs this is kept when rows are added
to them (`addRows_reordered`). -/

namespace ObjectGraph

/-- Two objects have the same members, in whatever order. -/
def SameMembers (o o' : Object) : Prop := ∀ key, o.get? key = o'.get? key

namespace Plan

variable {α β : Type}

/-- Two lists have related items, in whatever order. -/
def Rearranged (R : α → β → Prop) (xs : List α) (ys : List β) : Prop :=
  ∃ zs, List.Forall₂ R xs zs ∧ zs.Perm ys

section

variable {R : α → β → Prop} {xs : List α} {ys : List β}

theorem Rearranged.exists_right (h : Rearranged R xs ys) {x : α} (hx : x ∈ xs) :
    ∃ y ∈ ys, R x y := by
  obtain ⟨zs, hzs, hperm⟩ := h
  obtain ⟨y, hy, hR⟩ := Outcome.forall₂_mem hzs hx
  exact ⟨y, hperm.mem_iff.1 hy, hR⟩

theorem Rearranged.exists_left (h : Rearranged R xs ys) {y : β} (hy : y ∈ ys) :
    ∃ x ∈ xs, R x y := by
  obtain ⟨zs, hzs, hperm⟩ := h
  exact Outcome.forall₂_mem hzs.flip (hperm.mem_iff.2 hy)

/-- What related items have in common comes in another order. -/
theorem Rearranged.map_perm {γ : Type} {f : α → γ} {f' : β → γ} (h : Rearranged R xs ys)
    (hf : ∀ x y, R x y → f x = f' y) : (xs.map f).Perm (ys.map f') := by
  obtain ⟨zs, hzs, hperm⟩ := h
  have hmap : xs.map f = zs.map f' := by
    induction hzs generalizing ys with
    | nil => rfl
    | cons hR _ ih => rw [List.map_cons, List.map_cons, hf _ _ hR, ih (List.Perm.refl _)]
  rw [hmap]
  exact hperm.map f'

end

/-- The kind of a field in another plan, where a list may have another index. -/
inductive KindMoved (many many' : List ManyPlan) : FieldKind NodePlan → FieldKind NodePlan → Prop
  | value : KindMoved many many' .value .value
  | single (plan : NodePlan) : KindMoved many many' (.single plan) (.single plan)
  | many {i j : Nat} : many[i]? = many'[j]? → KindMoved many many' (.many i) (.many j)

/-- One field in two plans. -/
structure FieldMoved (many many' : List ManyPlan) (field field' : FieldPlan NodePlan) : Prop where
  name : field.name = field'.name
  kind : KindMoved many many' field.kind field'.kind
  json : field.json = field'.json
  transform : field.transform = field'.transform

/-- A plan has the fields of another one, whose names are distinct, in another order. -/
structure NodePlan.Reordered (plan plan' : NodePlan) : Prop where
  typeName : plan.typeName = plan'.typeName
  names : (plan.fields.map FieldPlan.name).Nodup
  fields : Rearranged (FieldMoved plan.many plan'.many) plan.fields plan'.fields

section

variable {plan plan' : NodePlan} {field field' : FieldPlan NodePlan}

theorem NodePlan.Reordered.names' (h : plan.Reordered plan') :
    (plan'.fields.map FieldPlan.name).Nodup :=
  (h.fields.map_perm fun _ _ hf => hf.name).nodup_iff.1 h.names

/-- A field is that of its name. -/
theorem NodePlan.Reordered.moved (h : plan.Reordered plan') (hf : field ∈ plan.fields)
    (hf' : field' ∈ plan'.fields) (hname : field.name = field'.name) :
    FieldMoved plan.many plan'.many field field' := by
  obtain ⟨other, hother, hmoved⟩ := h.fields.exists_right hf
  have heq := List.inj_on_of_nodup_map h.names' hother hf' (hmoved.name.symm.trans hname)
  exact heq ▸ hmoved

theorem KindMoved.paging?_eq {many many' : List ManyPlan} {kind kind' : FieldKind NodePlan}
    (h : KindMoved many many' kind kind') : kind.paging? many = kind'.paging? many' := by
  cases h with
  | value => rfl
  | single plan => rfl
  | many hm => exact congrArg (Option.bind · ManyPlan.paging) hm

theorem FieldMoved.refl (many : List ManyPlan) (field : FieldPlan NodePlan) :
    FieldMoved many many field field := by
  refine ⟨rfl, ?_, rfl, rfl⟩
  cases field.kind with
  | value => exact .value
  | single plan => exact .single plan
  | many i => exact .many rfl

theorem KindMoved.single_iff {many many' : List ManyPlan} {kind kind' : FieldKind NodePlan}
    (h : KindMoved many many' kind kind') (child : NodePlan) :
    kind = .single child ↔ kind' = .single child := by
  cases h with
  | value => exact Iff.rfl
  | single plan => exact Iff.rfl
  | many hi => exact iff_of_false nofun nofun

end

end Plan

namespace Graph

open Outcome (Agree Same)
open Plan (NodePlan FieldPlan FieldKind FieldMoved KindMoved ManyPlan)

/-! ### What fields of distinct names take out -/

section

variable {typeName : String} {field : FieldPlan NodePlan} {fields : List (FieldPlan NodePlan)}
  {row row' : Row} {size : Nat} {nodes : List Node} {key : String}

theorem without_get?_eq_some {value : Json} : (without field row).get? key = some value ↔
    row.get? key = some value ∧ (field.name = key → ∀ child, field.kind ≠ .single child) := by
  unfold without
  split
  · next child hkind =>
    rw [Dictionary.get?_erase]
    by_cases hkey : key = field.name
    · simp [hkey, hkind]
    · simp [hkey, Ne.symm hkey]
  · next hkind => exact ⟨fun h => ⟨h, fun _ => hkind⟩, And.left⟩

theorem without_get?_of_ne (h : field.name ≠ key) :
    (without field row).get? key = row.get? key := by
  refine Option.ext fun value => ?_
  rw [without_get?_eq_some]
  exact and_iff_left fun heq => absurd heq h

theorem stripped_get?_eq_some {value : Json} : (stripped fields row).get? key = some value ↔
    row.get? key = some value ∧
      ∀ field ∈ fields, field.name = key → ∀ child, field.kind ≠ .single child := by
  induction fields generalizing row with
  | nil => simp [stripped]
  | cons field fields ih =>
    change (stripped fields (without field row)).get? key = some value ↔ _
    rw [ih, without_get?_eq_some, and_assoc, List.forall_mem_cons]

/-- Rows are malformed by what is under the names of the fields. -/
theorem malformedAt_iff_exists (hnames : (fields.map FieldPlan.name).Nodup) :
    MalformedAt fields row ↔ ∃ field ∈ fields, ∃ child, field.kind = .single child ∧
      Unfit child ((row.get? field.name).getD .null) := by
  induction fields generalizing row with
  | nil =>
    constructor
    · rintro ⟨_, _, _, h, -⟩
      cases h
    · rintro ⟨_, h, -⟩
      cases h
  | cons field fields ih =>
    obtain ⟨hname, hnames⟩ := List.nodup_cons.1 hnames
    rw [malformedAt_cons, ih hnames, List.exists_mem_cons_iff]
    refine or_congr_right (exists_congr fun f => and_congr_right fun hf => ?_)
    have hne : field.name ≠ f.name := fun heq => hname (heq ▸ List.mem_map_of_mem hf)
    rw [without_get?_of_ne hne]

/-- What a field unpacks is in one block of what all fields do. -/
theorem nodesOfFields_block {rest : Row} {links : List Link}
    (hnames : (fields.map FieldPlan.name).Nodup)
    (h : nodesOfFields typeName fields row size = .ok (nodes, rest, links)) {i : Nat}
    (hf : fields[i]? = some field) :
    ∃ link before block after row₁ row₂, links[i]? = some link ∧
      nodes = before ++ block ++ after ∧ row₁.get? field.name = row.get? field.name ∧
      nodesOfField typeName field row₁ (size + before.length) = .ok (block, row₂, link) := by
  induction fields generalizing row size nodes links i with
  | nil => cases hf
  | cons first fields ih =>
    obtain ⟨hname, hnames⟩ := List.nodup_cons.1 hnames
    obtain ⟨block, between, link, more, links, hfirst, hrest, rfl, rfl⟩ := nodesOfFields_cons_ok h
    cases i with
    | zero =>
      cases hf
      exact ⟨link, [], block, more, row, between, rfl, rfl, rfl, hfirst⟩
    | succ i =>
      rw [List.getElem?_cons_succ] at hf
      obtain ⟨link', before, block', after, row₁, row₂, hl, rfl, hrow, hnodes⟩ := ih hnames hrest hf
      have hne : first.name ≠ field.name := fun heq =>
        hname (heq ▸ List.mem_map_of_mem (List.mem_of_getElem? hf))
      refine ⟨link', block ++ before, block', after, row₁, row₂, hl, ?_, ?_, ?_⟩
      · simp only [List.append_assoc]
      · rw [hrow, nodesOfField_row hfirst, without_get?_of_ne hne]
      · rw [List.length_append, ← Nat.add_assoc]
        exact hnodes

/-- A field unpacks the same in another plan. -/
theorem nodesOfField_moved (typeName : String) {many many' : List ManyPlan}
    {field' : FieldPlan NodePlan} (hmoved : FieldMoved many many' field field')
    (hrow : row.get? field.name = row'.get? field'.name) (s s' : Nat) :
    Same (fun p p' => BlockCopy s s' p.1 p'.1 ∧ LinkCopy (Shift s s' p.1.length) p.2.2 p'.2.2)
      (nodesOfField typeName field row s) (nodesOfField typeName field' row' s') := by
  obtain ⟨name, kind, json, transform⟩ := field
  obtain ⟨name', kind', json', transform'⟩ := field'
  obtain ⟨rfl, hkind, -, -⟩ := hmoved
  cases hkind with
  | value => exact .ok ⟨.nil, .value⟩
  | many _ => exact .ok ⟨.nil, .pending⟩
  | single child => exact nodesOfKind_shift typeName name (.single child) hrow s s'

/-- How many nodes a field unpacks. -/
def unpackedLength (typeName : String) (row : Row) (field : FieldPlan NodePlan) : Nat :=
  match nodesOfField typeName field row 0 with
  | .ok (nodes, _) => nodes.length
  | .error _ => 0

theorem unpackedLength_moved {many many' : List ManyPlan} {field' : FieldPlan NodePlan}
    (hmoved : FieldMoved many many' field field')
    (hrow : row.get? field.name = row'.get? field'.name) :
    unpackedLength typeName row field = unpackedLength typeName row' field' := by
  unfold unpackedLength
  have hsame := nodesOfField_moved typeName hmoved hrow 0 0
  generalize nodesOfField typeName field row 0 = x at hsame ⊢
  generalize nodesOfField typeName field' row' 0 = y at hsame ⊢
  cases hsame with
  | ok h => exact h.1.length_eq
  | error e => rfl

/-- How many nodes fields unpack. -/
def unpackedTotal (typeName : String) (row : Row) : List (FieldPlan NodePlan) → Nat
  | [] => 0
  | field :: fields => unpackedLength typeName row field + unpackedTotal typeName row fields

theorem length_nodesOfFields {rest : Row} {links : List Link}
    (hnames : (fields.map FieldPlan.name).Nodup)
    (h : nodesOfFields typeName fields row size = .ok (nodes, rest, links)) :
    nodes.length = unpackedTotal typeName row fields := by
  induction fields generalizing row size nodes links with
  | nil =>
    cases h
    rfl
  | cons field fields ih =>
    obtain ⟨hname, hnames⟩ := List.nodup_cons.1 hnames
    obtain ⟨block, between, link, more, links, hfirst, hrest, rfl, rfl⟩ := nodesOfFields_cons_ok h
    have hblock : block.length = unpackedLength typeName row field := by
      have hrow : row.get? field.name = row.get? field.name := rfl
      have hsame := nodesOfField_moved typeName (.refl [] field) hrow size 0
      unfold unpackedLength
      rw [hfirst] at hsame
      generalize nodesOfField typeName field row 0 = y at hsame ⊢
      cases hsame with
      | ok h => exact h.1.length_eq
    have hmore : ∀ fs, (∀ f ∈ fs, field.name ≠ f.name) →
        unpackedTotal typeName between fs = unpackedTotal typeName row fs := by
      intro fs hne
      induction fs with
      | nil => rfl
      | cons f fs ihfs =>
        have hrow : between.get? f.name = row.get? f.name := by
          rw [nodesOfField_row hfirst, without_get?_of_ne (hne f List.mem_cons_self)]
        rw [unpackedTotal, unpackedTotal, unpackedLength_moved (.refl [] f) hrow,
          ihfs fun f hf => hne f (List.mem_cons_of_mem _ hf)]
    rw [List.length_append, hblock, ih hnames hrest, hmore fields, unpackedTotal]
    exact fun f hf heq => hname (heq ▸ List.mem_map_of_mem hf)

theorem unpackedTotal_rearranged {many many' : List ManyPlan}
    {fields' : List (FieldPlan NodePlan)} (h : Plan.Rearranged (FieldMoved many many') fields fields')
    (hrow : SameMembers row row') :
    unpackedTotal typeName row fields = unpackedTotal typeName row' fields' := by
  obtain ⟨zs, hzs, hperm⟩ := h
  calc unpackedTotal typeName row fields
    _ = unpackedTotal typeName row' zs := by
      clear hperm
      induction hzs with
      | nil => rfl
      | cons hf _ ih =>
        rw [unpackedTotal, unpackedTotal, ih,
          unpackedLength_moved hf ((hrow _).trans (congrArg _ hf.name))]
    _ = unpackedTotal typeName row' fields' := by
      clear hzs
      induction hperm with
      | nil => rfl
      | cons f _ ih => rw [unpackedTotal, unpackedTotal, ih]
      | swap f f' fs =>
        simp only [unpackedTotal]
        omega
      | trans _ _ ih ih' => rw [ih, ih']

end

/-! ### Nodes of a row -/

/-- Numbers of nodes that are copies of each other, in blocks that were added to graphs of a
size. -/
def Relocated (size : Nat) (nodes nodes' : List Node) (id id' : NodeId) : Prop :=
  ∃ before block after before' block' after', nodes = before ++ block ++ after ∧
    nodes' = before' ++ block' ++ after' ∧
    BlockCopy (size + before.length) (size + before'.length) block block' ∧
    Shift (size + before.length) (size + before'.length) block.length id id'

/-- A node of a plan, and one of the plan with its fields in another order: the rows have the same
members, and the links of every field lead to related nodes. -/
structure NodeReordered (plan plan' : NodePlan) (C : NodeId → NodeId → Prop) (node node' : Node) :
    Prop where
  planned : node.plan = plan
  planned' : node'.plan = plan'
  row : SameMembers node.row node'.row
  links : ∀ {i j : Nat} {field field' : FieldPlan NodePlan}, plan.fields[i]? = some field →
    plan'.fields[j]? = some field' → field.name = field'.name →
    ∃ link link', node.links[i]? = some link ∧ node'.links[j]? = some link' ∧
      LinkCopy C link link'

section

variable {plan plan' : NodePlan} {C C' : NodeId → NodeId → Prop} {node node' : Node}
  {row row' : Row} {size : Nat} {nodes nodes' : List Node} {id id' : NodeId}

theorem NodeReordered.mono (h : NodeReordered plan plan' C node node')
    (hC : ∀ id id', C id id' → C' id id') : NodeReordered plan plan' C' node node' := by
  refine ⟨h.planned, h.planned', h.row, fun hf hf' hname => ?_⟩
  obtain ⟨link, link', hl, hl', hcopy⟩ := h.links hf hf' hname
  exact ⟨link, link', hl, hl', hcopy.mono hC⟩

/-- Every field has a link. -/
theorem NodeReordered.length_le (h : NodeReordered plan plan' C node node')
    (hplan : plan.Reordered plan') :
    plan.fields.length ≤ node.links.length ∧ plan'.fields.length ≤ node'.links.length := by
  constructor
  · by_contra hlt
    have hf := List.getElem?_eq_getElem (Nat.lt_of_not_le hlt)
    obtain ⟨field', hf', hmoved⟩ := hplan.fields.exists_right (List.mem_of_getElem? hf)
    obtain ⟨j, hj⟩ := List.getElem?_of_mem hf'
    obtain ⟨link, -, hl, -⟩ := h.links hf hj hmoved.name
    exact absurd (List.getElem?_eq_some_iff.1 hl).1 (Nat.lt_irrefl _)
  · by_contra hlt
    have hf' := List.getElem?_eq_getElem (Nat.lt_of_not_le hlt)
    obtain ⟨field, hf, hmoved⟩ := hplan.fields.exists_left (List.mem_of_getElem? hf')
    obtain ⟨i, hi⟩ := List.getElem?_of_mem hf
    obtain ⟨-, link', -, hl', -⟩ := h.links hi hf' hmoved.name
    exact absurd (List.getElem?_eq_some_iff.1 hl').1 (Nat.lt_irrefl _)

/-- One field of two nodes, with what it leads to. -/
def EntryMoved (plan plan' : NodePlan) (C : NodeId → NodeId → Prop)
    (entry entry' : FieldPlan NodePlan × Link) : Prop :=
  FieldMoved plan.many plan'.many entry.1 entry'.1 ∧ LinkCopy C entry.2 entry'.2

theorem NodeReordered.exists_right (h : NodeReordered plan plan' C node node')
    (hplan : plan.Reordered plan') {entry : FieldPlan NodePlan × Link}
    (hentry : entry ∈ plan.fields.zip node.links) :
    ∃ entry' ∈ plan'.fields.zip node'.links, EntryMoved plan plan' C entry entry' := by
  obtain ⟨i, hi⟩ := List.getElem?_of_mem hentry
  obtain ⟨hf, hl⟩ := List.getElem?_zip_eq_some.1 hi
  obtain ⟨field', hf', hmoved⟩ := hplan.fields.exists_right (List.mem_of_getElem? hf)
  obtain ⟨j, hj⟩ := List.getElem?_of_mem hf'
  obtain ⟨link, link', hl₁, hl', hcopy⟩ := h.links hf hj hmoved.name
  cases hl.symm.trans hl₁
  exact ⟨(field', link'), List.mem_of_getElem? (List.getElem?_zip_eq_some.2 ⟨hj, hl'⟩), hmoved,
    hcopy⟩

theorem NodeReordered.exists_left (h : NodeReordered plan plan' C node node')
    (hplan : plan.Reordered plan') {entry' : FieldPlan NodePlan × Link}
    (hentry : entry' ∈ plan'.fields.zip node'.links) :
    ∃ entry ∈ plan.fields.zip node.links, EntryMoved plan plan' C entry entry' := by
  obtain ⟨j, hj⟩ := List.getElem?_of_mem hentry
  obtain ⟨hf', hl'⟩ := List.getElem?_zip_eq_some.1 hj
  obtain ⟨field, hf, hmoved⟩ := hplan.fields.exists_left (List.mem_of_getElem? hf')
  obtain ⟨i, hi⟩ := List.getElem?_of_mem hf
  obtain ⟨link, link', hl, hl₁', hcopy⟩ := h.links hi hf' hmoved.name
  cases hl'.symm.trans hl₁'
  exact ⟨(field, link), List.mem_of_getElem? (List.getElem?_zip_eq_some.2 ⟨hi, hl⟩), hmoved, hcopy⟩

/-- Relocated nodes are copies of each other. -/
theorem Relocated.copies (h : Relocated size nodes nodes' id id') :
    ∃ k k' node node', id = size + k ∧ id' = size + k' ∧ nodes[k]? = some node ∧
      nodes'[k']? = some node' ∧ NodeCopy (Relocated size nodes nodes') node node' := by
  obtain ⟨before, block, after, before', block', after', rfl, rfl, hblock, k, hk, rfl, rfl⟩ := h
  obtain ⟨hlength, hall⟩ := List.forall₂_iff_get.1 hblock
  have hk' : k < block'.length := hlength ▸ hk
  refine ⟨before.length + k, before'.length + k, block[k], block'[k], Nat.add_assoc _ _ _,
    Nat.add_assoc _ _ _, ?_, ?_, ?_⟩
  · rw [List.append_assoc, List.getElem?_append_right (Nat.le_add_right _ _),
      Nat.add_sub_cancel_left, List.getElem?_append_left hk, List.getElem?_eq_getElem hk]
  · rw [List.append_assoc, List.getElem?_append_right (Nat.le_add_right _ _),
      Nat.add_sub_cancel_left, List.getElem?_append_left hk', List.getElem?_eq_getElem hk']
  · refine (hall k hk hk').mono fun a b hab => ?_
    exact ⟨before, block, after, before', block', after', rfl, rfl, hblock, hab⟩

theorem Relocated.append (h : Relocated size nodes nodes' id id') {more more' : List Node} :
    Relocated size (nodes ++ more) (nodes' ++ more') id id' := by
  obtain ⟨before, block, after, before', block', after', rfl, rfl, hblock, hshift⟩ := h
  exact ⟨before, block, after ++ more, before', block', after' ++ more', List.append_assoc _ _ _,
    List.append_assoc _ _ _, hblock, hshift⟩

/-- Both plans unpack a row, or none does. -/
theorem malformed_reordered (h : plan.Reordered plan') (hrow : SameMembers row row') :
    Malformed plan row ↔ Malformed plan' row' := by
  rw [malformed_iff, malformed_iff, malformedAt_iff_exists h.names,
    malformedAt_iff_exists h.names']
  constructor
  · rintro ⟨field, hf, child, hkind, hunfit⟩
    obtain ⟨field', hf', hmoved⟩ := h.fields.exists_right hf
    refine ⟨field', hf', child, (hmoved.kind.single_iff child).1 hkind, ?_⟩
    rw [← hmoved.name, ← hrow]
    exact hunfit
  · rintro ⟨field', hf', child, hkind, hunfit⟩
    obtain ⟨field, hf, hmoved⟩ := h.fields.exists_left hf'
    refine ⟨field, hf, child, (hmoved.kind.single_iff child).2 hkind, ?_⟩
    rw [hmoved.name, hrow]
    exact hunfit

/-- The fields take the same out of a row. -/
theorem stripped_reordered (h : plan.Reordered plan') (hrow : SameMembers row row') :
    SameMembers (stripped plan.fields row) (stripped plan'.fields row') := by
  refine fun key => Option.ext fun value => ?_
  rw [stripped_get?_eq_some, stripped_get?_eq_some, hrow key]
  refine and_congr_right fun _ => ⟨fun hall => ?_, fun hall => ?_⟩
  · intro field' hf' hname child hkind
    obtain ⟨field, hf, hmoved⟩ := h.fields.exists_left hf'
    exact hall field hf (hmoved.name.trans hname) child ((hmoved.kind.single_iff child).2 hkind)
  · intro field hf hname child hkind
    obtain ⟨field', hf', hmoved⟩ := h.fields.exists_right hf
    exact hall field' hf' (hmoved.name.symm.trans hname) child
      ((hmoved.kind.single_iff child).1 hkind)

/-- The links of one field lead to copies of the same nodes. -/
theorem links_reordered (h : plan.Reordered plan') (hrow : SameMembers row row') {rest rest' : Row}
    {links links' : List Link}
    (hfields : nodesOfFields plan.typeName plan.fields row size = .ok (nodes, rest, links))
    (hfields' : nodesOfFields plan'.typeName plan'.fields row' size = .ok (nodes', rest', links'))
    {i j : Nat} {field field' : FieldPlan NodePlan} (hf : plan.fields[i]? = some field)
    (hf' : plan'.fields[j]? = some field') (hname : field.name = field'.name) :
    ∃ link link', links[i]? = some link ∧ links'[j]? = some link' ∧
      LinkCopy (Relocated size nodes nodes') link link' := by
  have hmoved := h.moved (List.mem_of_getElem? hf) (List.mem_of_getElem? hf') hname
  obtain ⟨link, before, block, after, row₁, _, hl, rfl, hrow₁, hblock⟩ :=
    nodesOfFields_block h.names hfields hf
  obtain ⟨link', before', block', after', row₁', _, hl', rfl, hrow₁', hblock'⟩ :=
    nodesOfFields_block h.names' hfields' hf'
  have hpacked : row₁.get? field.name = row₁'.get? field'.name := by
    rw [hrow₁, hrow₁', ← hname, hrow]
  have hsame := nodesOfField_moved plan.typeName hmoved hpacked (size + before.length)
    (size + before'.length)
  rw [hblock, h.typeName, hblock'] at hsame
  cases hsame with
  | ok hcopy =>
    refine ⟨link, link', hl, hl', hcopy.2.mono fun a b hab => ?_⟩
    exact ⟨before, block, after, before', block', after', rfl, rfl, hcopy.1, hab⟩

/-- Rows with the same members become as many nodes, of which the last ones are those of the rows
and have links to copies of the same nodes. -/
theorem nodesOf_reordered (h : plan.Reordered plan') (hrow : SameMembers row row') (size : Nat) :
    Agree (fun nodes nodes' => nodes.length = nodes'.length ∧ ∃ node node',
        nodes[nodes.length - 1]? = some node ∧ nodes'[nodes.length - 1]? = some node' ∧
        NodeReordered plan plan' (Relocated size nodes nodes') node node')
      (nodesOf plan row size) (nodesOf plan' row' size) := by
  have herror := (nodesOf_error_iff plan row size).trans
    ((malformed_reordered h hrow).trans (nodesOf_error_iff plan' row' size).symm)
  refine .of_error_iff herror fun nodes nodes' hn hn' => ?_
  obtain ⟨origin, typeName, fields, many⟩ := plan
  obtain ⟨origin', typeName', fields', many'⟩ := plan'
  obtain rfl : typeName = typeName' := h.typeName
  rw [nodesOf] at hn hn'
  obtain ⟨⟨below, rest, links⟩, hfields, hn⟩ := Outcome.bind_ok.1 hn
  obtain ⟨⟨below', rest', links'⟩, hfields', hn'⟩ := Outcome.bind_ok.1 hn'
  cases hn
  cases hn'
  have hlength : below.length = below'.length := by
    rw [length_nodesOfFields h.names hfields, length_nodesOfFields h.names' hfields']
    exact unpackedTotal_rearranged h.fields hrow
  refine ⟨by simp [hlength], ⟨⟨origin, typeName, fields, many⟩, rest, links⟩,
    ⟨⟨origin', typeName, fields', many'⟩, rest', links'⟩, by simp, by simp [hlength], rfl, rfl,
    ?_, ?_⟩
  · change SameMembers rest rest'
    rw [nodesOfFields_row hfields, nodesOfFields_row hfields']
    exact stripped_reordered h hrow
  · intro i j field field' hf hf' hname
    obtain ⟨link, link', hl, hl', hcopy⟩ := links_reordered h hrow hfields hfields' hf hf' hname
    exact ⟨link, link', hl, hl', hcopy.mono fun a b hab => hab.append⟩

end

/-! ### Rows of a graph -/

/-- Graphs of one size: to some nodes of a plan correspond nodes of the plan with its fields in
another order, and what these lead to has copies. -/
structure Reordering (plan plan' : NodePlan) (P C : NodeId → NodeId → Prop) (g g' : Graph) :
    Prop where
  size : g.nodes.size = g'.nodes.size
  nodes : ∀ {id id' : NodeId}, P id id' → ∃ node node', g.nodes[id]? = some node ∧
    g'.nodes[id']? = some node' ∧ NodeReordered plan plan' C node node'
  copies : ∀ {id id' : NodeId}, C id id' → ∃ node node', g.nodes[id]? = some node ∧
    g'.nodes[id']? = some node' ∧ NodeCopy C node node'

section

variable {plan plan' : NodePlan} {P C : NodeId → NodeId → Prop} {g g' : Graph}

theorem Reordering.empty :
    Reordering plan plan' (fun _ _ => False) (fun _ _ => False) {} {} :=
  ⟨rfl, False.elim, False.elim⟩

/-- Old numbers stay when nodes are added. -/
theorem Reordering.pushAll (h : Reordering plan plan' P C g g') {nodes nodes' : List Node}
    {root root' : Node} (hlength : nodes.length = nodes'.length)
    (hroot : nodes[nodes.length - 1]? = some root) (hroot' : nodes'[nodes.length - 1]? = some root')
    (hnode : NodeReordered plan plan' (Relocated g.nodes.size nodes nodes') root root') :
    Reordering plan plan'
      (fun id id' => P id id' ∨ id = g.nodes.size + nodes.length - 1 ∧ id' = id)
      (fun id id' => C id id' ∨ Relocated g.nodes.size nodes nodes' id id')
      (pushAll g nodes) (pushAll g' nodes') := by
  have hold : ∀ {graph : Graph} {id : NodeId} {node : Node} (new : List Node),
      graph.nodes[id]? = some node → (Graph.pushAll graph new).nodes[id]? = some node := by
    intro graph id node new hn
    obtain ⟨hlt, -⟩ := Array.getElem?_eq_some_iff.1 hn
    rw [node_pushAll, if_pos hlt, hn]
  have hnew : ∀ {graph : Graph} {k : Nat} (new : List Node),
      (Graph.pushAll graph new).nodes[graph.nodes.size + k]? = new[k]? := by
    intro graph k new
    rw [node_pushAll, if_neg (Nat.not_lt.2 (Nat.le_add_right _ _)), Nat.add_sub_cancel_left]
  constructor
  case size => rw [size_pushAll, size_pushAll, h.size, hlength]
  case nodes =>
    rintro id id' (hP | ⟨rfl, rfl⟩)
    · obtain ⟨node, node', hn, hn', hpair⟩ := h.nodes hP
      exact ⟨node, node', hold _ hn, hold _ hn', hpair.mono fun _ _ => .inl⟩
    · have hpos : 0 < nodes.length := by
        obtain ⟨hlt, -⟩ := List.getElem?_eq_some_iff.1 hroot
        omega
      refine ⟨root, root', ?_, ?_, hnode.mono fun _ _ => .inr⟩
      · rw [Nat.add_sub_assoc hpos, hnew, hroot]
      · rw [Nat.add_sub_assoc hpos, h.size, hnew, hroot']
  case copies =>
    rintro id id' (hC | hC)
    · obtain ⟨node, node', hn, hn', hcopy⟩ := h.copies hC
      exact ⟨node, node', hold _ hn, hold _ hn', hcopy.mono fun _ _ => .inl⟩
    · obtain ⟨k, k', node, node', rfl, rfl, hn, hn', hcopy⟩ := hC.copies
      refine ⟨node, node', ?_, ?_, hcopy.mono fun _ _ => .inr⟩
      · rw [hnew, hn]
      · rw [h.size, hnew, hn']

/-- Graphs to which nodes were added correspond where they did before, and at some new numbers. -/
def Reordering.Grown (plan plan' : NodePlan) (P C : NodeId → NodeId → Prop) {α β : Type}
    (new : (NodeId → NodeId → Prop) → α → β → Prop) (p : α × Graph) (p' : β × Graph) : Prop :=
  ∃ P₁ C₁, (∀ id id', P id id' → P₁ id id') ∧ (∀ id id', C id id' → C₁ id id') ∧
    Reordering plan plan' P₁ C₁ p.2 p'.2 ∧ new P₁ p.1 p'.1

theorem insert_reordered (hplan : plan.Reordered plan') (h : Reordering plan plan' P C g g')
    {row row' : Row} (hrow : SameMembers row row') :
    Agree (Reordering.Grown plan plan' P C fun P₁ => P₁) ((insert plan row).result g)
      ((insert plan' row').result g') := by
  have hnodes := nodesOf_reordered hplan hrow g.nodes.size
  rw [insert_result, insert_result, ← h.size]
  generalize nodesOf plan row g.nodes.size = x at hnodes ⊢
  generalize nodesOf plan' row' g.nodes.size = y at hnodes ⊢
  cases hnodes with
  | error e e' => exact .error e e'
  | @ok nodes nodes' hnodes =>
    obtain ⟨hlength, root, root', hroot, hroot', hnode⟩ := hnodes
    refine .ok ⟨_, _, fun _ _ => .inl, fun _ _ => .inl, h.pushAll hlength hroot hroot' hnode, ?_⟩
    exact .inr ⟨rfl, congrArg (g.nodes.size + · - 1) hlength.symm⟩

/-- Adding rows with the same members leads to such graphs, or fails for both plans. -/
theorem addRows_reordered (hplan : plan.Reordered plan') (h : Reordering plan plan' P C g g')
    {rows rows' : List Row} (hrows : List.Forall₂ SameMembers rows rows') :
    Agree (Reordering.Grown plan plan' P C List.Forall₂) ((addRows plan rows).result g)
      ((addRows plan' rows').result g') := by
  unfold addRows
  induction hrows generalizing P C g g' with
  | nil => exact .ok ⟨P, C, fun _ _ => id, fun _ _ => id, h, .nil⟩
  | cons hrow _ ih =>
    rw [List.mapM_cons, List.mapM_cons, result_bind, result_bind]
    refine (insert_reordered hplan h hrow).bind ?_
    rintro ⟨id, g₁⟩ ⟨id', g₁'⟩ ⟨P₁, C₁, hP, hC, h₁, hid⟩
    rw [result_bind, result_bind]
    refine (ih h₁).bind ?_
    rintro ⟨ids, g₂⟩ ⟨ids', g₂'⟩ ⟨P₂, C₂, hP', hC', h₂, hids⟩
    exact .ok ⟨P₂, C₂, fun a b hab => hP' a b (hP a b hab), fun a b hab => hC' a b (hC a b hab), h₂,
      .cons (hP' _ _ hid) hids⟩

end

end Graph

end ObjectGraph
