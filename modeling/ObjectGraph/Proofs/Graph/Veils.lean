import ObjectGraph.Proofs.Graph.Nodes
import ObjectGraph.Proofs.Lookup
import ObjectGraph.Proofs.Outcome

/-! # Rows that differ behind a veil

A veil names labels at places of a request (`Veil`).  Two rows differ only behind it if they agree
under every other label, and so do the objects that are packed into them (`VeiledRow`); graphs, if
they have the same nodes and the same groups, and the rows of the nodes differ only so
(`VeiledGraph`).  Adding such rows to such graphs leads to such graphs (`addRows_veiled`,
`attach_veiled`), as long as nothing behind the veil is read on the way: the keys of the nodes whose
lists are attached (`Readable`), and the columns that tell the parents of the rows. -/

namespace ObjectGraph

namespace Graph

open Outcome (Same)
open Plan (NodePlan FieldPlan FieldKind)

/-- Labels at places of a request. -/
abbrev Veil := List Nat → String → Prop

/-- Two objects have the same value, or none, under every label that is not hidden. -/
def AgreeBut (hidden : String → Prop) (o o' : Object) : Prop :=
  ∀ label, ¬hidden label → o.get? label = o'.get? label

section

variable {hidden : String → Prop} {o o' : Object}

theorem AgreeBut.refl : AgreeBut hidden o o := fun _ _ => rfl

theorem AgreeBut.insert (h : AgreeBut hidden o o') (name : String) (value : Json) :
    AgreeBut hidden (Dictionary.insert o name value) (Dictionary.insert o' name value) := by
  intro label hl
  rw [Dictionary.get?_insert, Dictionary.get?_insert, h label hl]

theorem AgreeBut.erase (h : AgreeBut hidden o o') (name : String) :
    AgreeBut hidden (Dictionary.erase o name) (Dictionary.erase o' name) := by
  intro label hl
  rw [Dictionary.get?_erase, Dictionary.get?_erase, h label hl]

theorem AgreeBut.keyValues?_eq (h : AgreeBut hidden o o') {labels : List String}
    (hlabels : ∀ label ∈ labels, ¬hidden label) : keyValues? o labels = keyValues? o' labels :=
  Outcome.mapM_congr fun label hl => by rw [h label (hlabels label hl)]

theorem AgreeBut.rowKey?_eq (h : AgreeBut hidden o o') {labels : List String}
    (hlabels : ∀ label ∈ labels, ¬hidden label) : rowKey? o labels = rowKey? o' labels := by
  unfold rowKey?
  rw [h.keyValues?_eq hlabels]

end

/-! ### Rows -/

/-- What is left of a row once a field has taken its object out. -/
def without (field : FieldPlan NodePlan) (row : Row) : Row :=
  match field.kind with
  | .single _ => row.erase field.name
  | _ => row

mutual

/-- Rows of a level that differ only behind a veil. -/
def VeiledRow (veil : Veil) : NodePlan → Row → Row → Prop
  | ⟨origin, typeName, fields, _⟩, row, row' => VeiledFields veil origin typeName fields row row'

/-- Rows that differ only behind a veil: in turn, the objects that fields take out of them do, and
then what is left of the rows. -/
def VeiledFields (veil : Veil) (origin : List Nat) (typeName : String) :
    List (FieldPlan NodePlan) → Row → Row → Prop
  | [], row, row' => AgreeBut (veil origin) row row'
  | field :: fields, row, row' =>
    VeiledField veil typeName field row row' ∧
      VeiledFields veil origin typeName fields (without field row) (without field row')

/-- Rows from which a field takes objects that differ only behind a veil. -/
def VeiledField (veil : Veil) (typeName : String) : FieldPlan NodePlan → Row → Row → Prop
  | ⟨name, kind, _, _⟩, row, row' =>
    VeiledKind veil typeName name kind ((row.get? name).getD .null) ((row'.get? name).getD .null)

/-- Packed values that stand for objects that differ only behind a veil, or for none, or that cannot
be unpacked for the same reason. -/
def VeiledKind (veil : Veil) (typeName name : String) : FieldKind NodePlan → Json → Json → Prop
  | .single plan, packed, packed' =>
    Same (Option.Rel (VeiledRow veil plan)) (relatedObject typeName name packed)
      (relatedObject typeName name packed')
  | _, _, _ => True

end

section

variable {veil : Veil} {origin : List Nat} {typeName : String}

theorem AgreeBut.without {hidden : String → Prop} {o o' : Object} (h : AgreeBut hidden o o')
    (field : FieldPlan NodePlan) : AgreeBut hidden (without field o) (without field o') := by
  unfold Graph.without
  cases field.kind with
  | single child => exact h.erase field.name
  | value => exact h
  | many index => exact h

mutual

theorem VeiledRow.refl {veil : Veil} : (plan : NodePlan) → (row : Row) →
    VeiledRow veil plan row row
  | ⟨origin, typeName, fields, _⟩, row => by
    rw [VeiledRow]
    exact VeiledFields.refl fields row

theorem VeiledFields.refl {veil : Veil} {origin : List Nat} {typeName : String} :
    (fields : List (FieldPlan NodePlan)) → (row : Row) →
    VeiledFields veil origin typeName fields row row
  | [], row => by
    rw [VeiledFields]
    exact AgreeBut.refl
  | field :: fields, row => by
    rw [VeiledFields]
    exact ⟨VeiledField.refl field row, VeiledFields.refl fields _⟩

theorem VeiledField.refl {veil : Veil} {typeName : String} : (field : FieldPlan NodePlan) →
    (row : Row) → VeiledField veil typeName field row row
  | ⟨name, kind, _, _⟩, row => by
    rw [VeiledField]
    exact VeiledKind.refl kind name _

theorem VeiledKind.refl {veil : Veil} {typeName : String} : (kind : FieldKind NodePlan) →
    (name : String) → (packed : Json) → VeiledKind veil typeName name kind packed packed
  | .value, _, _ => trivial
  | .many _, _, _ => trivial
  | .single plan, name, packed => by
    rw [VeiledKind]
    cases relatedObject typeName name packed with
    | error e => exact .error e
    | ok related =>
      cases related with
      | none => exact .ok .none
      | some row => exact .ok (.some (VeiledRow.refl plan row))

end

/-- Rows that agree under all labels that are not veiled differ only behind the veil, if no packed
object is behind it. -/
theorem VeiledFields.of_agreeBut {fields : List (FieldPlan NodePlan)} {row row' : Row}
    (h : AgreeBut (veil origin) row row')
    (hpacked : ∀ field ∈ fields, ∀ child, field.kind = .single child → ¬veil origin field.name) :
    VeiledFields veil origin typeName fields row row' := by
  induction fields generalizing row row' with
  | nil =>
    rw [VeiledFields]
    exact h
  | cons field fields ih =>
    rw [VeiledFields]
    refine ⟨?_, ih (h.without field) fun f hf => hpacked f (List.mem_cons_of_mem _ hf)⟩
    obtain ⟨name, kind, json, transform⟩ := field
    rw [VeiledField]
    cases kind with
    | value => trivial
    | many index => trivial
    | single child =>
      rw [h name (hpacked _ List.mem_cons_self child rfl)]
      exact VeiledKind.refl _ name _

end

/-! ### Nodes -/

/-- Nodes of one plan with the same links, whose rows differ only behind a veil. -/
structure VeiledNode (veil : Veil) (node node' : Node) : Prop where
  plan : node.plan = node'.plan
  links : node.links = node'.links
  row : AgreeBut (veil node.plan.origin) node.row node'.row

section

variable {veil : Veil}

mutual

/-- Rows that differ only behind a veil become nodes that do. -/
theorem nodesOf_veiled : (plan : NodePlan) → {row row' : Row} → VeiledRow veil plan row row' →
    (size : Nat) →
    Same (List.Forall₂ (VeiledNode veil)) (nodesOf plan row size) (nodesOf plan row' size)
  | ⟨origin, typeName, fields, many⟩, row, row', h, size => by
    rw [VeiledRow] at h
    rw [nodesOf, nodesOf]
    refine (nodesOfFields_veiled fields h size).bind ?_
    rintro ⟨nodes, rest, links⟩ ⟨nodes', rest', links'⟩ ⟨hnodes, hrest, hlinks⟩
    exact .ok (List.rel_append hnodes (.cons ⟨rfl, hlinks, hrest⟩ .nil))

theorem nodesOfFields_veiled {origin : List Nat} {typeName : String} :
    (fields : List (FieldPlan NodePlan)) → {row row' : Row} →
    VeiledFields veil origin typeName fields row row' → (size : Nat) →
    Same (fun p p' => List.Forall₂ (VeiledNode veil) p.1 p'.1 ∧
        AgreeBut (veil origin) p.2.1 p'.2.1 ∧ p.2.2 = p'.2.2)
      (nodesOfFields typeName fields row size) (nodesOfFields typeName fields row' size)
  | [], row, row', h, size => by
    rw [VeiledFields] at h
    exact .ok ⟨.nil, h, rfl⟩
  | field :: fields, row, row', h, size => by
    rw [VeiledFields] at h
    obtain ⟨hfield, hfields⟩ := h
    rw [nodesOfFields, nodesOfFields]
    refine (nodesOfField_veiled field hfield size).bind ?_
    rintro ⟨nodes, rest, link⟩ ⟨nodes', rest', link'⟩ ⟨hnodes, hrest, hrest', hlink⟩
    simp only at hnodes hrest hrest' hlink
    subst hrest hrest' hlink
    dsimp only
    rw [← hnodes.length_eq]
    refine (nodesOfFields_veiled fields hfields (size + nodes.length)).bind ?_
    rintro ⟨more, last, links⟩ ⟨more', last', links'⟩ ⟨hmore, hlast, hlinks⟩
    simp only at hlinks
    subst hlinks
    exact .ok ⟨List.rel_append hnodes hmore, hlast, rfl⟩

theorem nodesOfField_veiled {typeName : String} : (field : FieldPlan NodePlan) →
    {row row' : Row} → VeiledField veil typeName field row row' → (size : Nat) →
    Same (fun p p' => List.Forall₂ (VeiledNode veil) p.1 p'.1 ∧ p.2.1 = without field row ∧
        p'.2.1 = without field row' ∧ p.2.2 = p'.2.2)
      (nodesOfField typeName field row size) (nodesOfField typeName field row' size)
  | ⟨name, kind, json, transform⟩, row, row', h, size => by
    rw [VeiledField] at h
    rw [nodesOfField, nodesOfField]
    exact nodesOfKind_veiled json transform kind h size

theorem nodesOfKind_veiled {typeName name : String} (json : Bool) (transform : Option Transform) :
    (kind : FieldKind NodePlan) → {row row' : Row} →
    VeiledKind veil typeName name kind ((row.get? name).getD .null) ((row'.get? name).getD .null) →
    (size : Nat) →
    Same (fun p p' => List.Forall₂ (VeiledNode veil) p.1 p'.1 ∧
        p.2.1 = without ⟨name, kind, json, transform⟩ row ∧
        p'.2.1 = without ⟨name, kind, json, transform⟩ row' ∧ p.2.2 = p'.2.2)
      (nodesOfKind typeName name kind row size) (nodesOfKind typeName name kind row' size)
  | .value, _, _, _, _ => .ok ⟨.nil, rfl, rfl, rfl⟩
  | .many _, _, _, _, _ => .ok ⟨.nil, rfl, rfl, rfl⟩
  | .single plan, row, row', h, size => by
    rw [VeiledKind] at h
    rw [nodesOfKind, nodesOfKind]
    refine h.bind ?_
    intro related related' hrelated
    cases hrelated with
    | none => exact .ok ⟨.nil, rfl, rfl, rfl⟩
    | some hrow =>
      refine (nodesOf_veiled plan hrow size).bind ?_
      intro nodes nodes' hnodes
      exact .ok ⟨hnodes, rfl, rfl, by rw [hnodes.length_eq]⟩

end

end

/-! ### Graphs -/

/-- Graphs with the same groups that wait, whose nodes differ only behind a veil. -/
structure VeiledGraph (veil : Veil) (g g' : Graph) : Prop where
  size : g.nodes.size = g'.nodes.size
  nodes : ∀ id : NodeId, Option.Rel (VeiledNode veil) g.nodes[id]? g'.nodes[id]?
  waiting : g.waiting = g'.waiting

/-- The nodes of a group are there, and no label of their keys is veiled. -/
def Readable (veil : Veil) (g : Graph) (group : Group) : Prop :=
  ∀ id ∈ group.parents, ∃ node, g.nodes[id]? = some node ∧
    ∀ m, group.relation? = some m → ∀ label ∈ m.keyLabels, ¬veil node.plan.origin label

section

variable {veil : Veil} {g g' : Graph}

theorem VeiledGraph.empty : VeiledGraph veil {} {} := by
  refine ⟨rfl, fun id => ?_, rfl⟩
  exact .none

theorem VeiledGraph.node (h : VeiledGraph veil g g') {id : NodeId} {node : Node}
    (hn : g.nodes[id]? = some node) : ∃ node', g'.nodes[id]? = some node' ∧
      VeiledNode veil node node' := by
  have hrel := h.nodes id
  rw [hn] at hrel
  generalize hn' : g'.nodes[id]? = found at hrel
  cases hrel with
  | some hnode => exact ⟨_, rfl, hnode⟩

theorem VeiledGraph.pushAll (h : VeiledGraph veil g g') {nodes nodes' : List Node}
    (hnodes : List.Forall₂ (VeiledNode veil) nodes nodes') :
    VeiledGraph veil (pushAll g nodes) (pushAll g' nodes') := by
  induction hnodes generalizing g g' with
  | nil => exact h
  | @cons node node' nodes nodes' hnode _ ih =>
    refine ih ⟨?_, fun id => ?_, ?_⟩
    · rw [pushed, pushed, Array.size_push, Array.size_push, h.size]
    · rw [pushed_node, pushed_node, h.size]
      split
      · exact .some hnode
      · exact h.nodes id
    · rw [pushed, pushed, h.waiting, h.size, hnode.plan]

theorem VeiledGraph.setLinks (h : VeiledGraph veil g g') {ids : List NodeId} {field : Nat}
    {link link' : NodeId → Link} (hlink : ∀ id ∈ ids, link id = link' id) :
    VeiledGraph veil (setLinks g ids field link) (setLinks g' ids field link') := by
  refine ⟨?_, fun id => ?_, ?_⟩
  · rw [setLinks_size, setLinks_size, h.size]
  · rw [setLinks_node, setLinks_node]
    have hrel := h.nodes id
    generalize g.nodes[id]? = found at hrel ⊢
    generalize g'.nodes[id]? = found' at hrel ⊢
    cases hrel with
    | none => exact .none
    | some hnode =>
      rw [Option.map_some, Option.map_some]
      refine .some ?_
      split
      · next hid => exact ⟨hnode.plan, by rw [hnode.links, hlink id hid], hnode.row⟩
      · exact hnode
  · rw [setLinks_waiting, setLinks_waiting, h.waiting]

theorem VeiledGraph.attachNone (h : VeiledGraph veil g g') (group : Group) :
    VeiledGraph veil (g.attachNone group) (g'.attachNone group) := by
  unfold Graph.attachNone
  generalize group.plan.fields.zipIdx = positions
  induction positions generalizing g g' with
  | nil => exact h
  | cons position positions ih =>
    rw [List.foldl_cons, List.foldl_cons]
    refine ih ?_
    dsimp only
    split
    · exact h.setLinks fun _ _ => rfl
    · exact h

theorem keeps_attachNone (g : Graph) (group : Group) : g.Keeps (g.attachNone group) :=
  attachNone_invariant (P := g.Keeps) (fun _ _ h => h.trans keeps_setLinks) Keeps.refl

theorem Readable.mono {group : Group} (h : Readable veil g group) (hkeeps : g.Keeps g') :
    Readable veil g' group := by
  intro id hid
  obtain ⟨node, hn, hkeys⟩ := h id hid
  obtain ⟨node', hn', hplan, -⟩ := hkeeps id node hn
  exact ⟨node', hn', hplan ▸ hkeys⟩

/-- The keys of a group are not behind the veil. -/
theorem parentKeys_veiled (h : VeiledGraph veil g g') {group : Group}
    (hgroup : Readable veil g group) : g.parentKeys group = g'.parentKeys group := by
  unfold parentKeys
  cases hm : group.relation? with
  | none => rfl
  | some m =>
    refine congrArg (distinctKeys []) (List.filterMap_congr fun id hid => ?_)
    obtain ⟨node, hn, hkeys⟩ := hgroup id hid
    obtain ⟨node', hn', hnode⟩ := h.node hn
    rw [hn, hn', Option.bind_some, Option.bind_some]
    exact hnode.row.keyValues?_eq (hkeys m hm)

theorem childrenOf_veiled (h : VeiledGraph veil g g') {labels : List String}
    (children : List (String × NodeId)) {id : NodeId} {node : Node} (hn : g.nodes[id]? = some node)
    (hlabels : ∀ label ∈ labels, ¬veil node.plan.origin label) :
    g.childrenOf labels children id = g'.childrenOf labels children id := by
  obtain ⟨node', hn', hnode⟩ := h.node hn
  unfold childrenOf
  rw [hn, hn', Option.bind_some, Option.bind_some, hnode.row.rowKey?_eq hlabels]

end

/-! ### New rows -/

/-- Rows of a follow-up that differ only behind a veil and tell the same parent. -/
structure VeiledChild (veil : Veil) (plan : NodePlan) (labels : List String) (row row' : Row) :
    Prop where
  veiled : VeiledRow veil plan row row'
  parent : ∀ label ∈ labels, row.get? label = row'.get? label

section

variable {veil : Veil} {g g' : Graph} {plan : NodePlan} {labels : List String}
  {rows rows' : List Row}

theorem nodesOfAll_veiled (hrows : List.Forall₂ (VeiledRow veil plan) rows rows') (size : Nat) :
    Same (fun p p' => List.Forall₂ (VeiledNode veil) p.1 p'.1 ∧ p.2 = p'.2)
      (nodesOfAll plan rows size) (nodesOfAll plan rows' size) := by
  induction hrows generalizing size with
  | nil => exact .ok ⟨.nil, rfl⟩
  | cons hrow _ ih =>
    rw [nodesOfAll, nodesOfAll]
    refine (nodesOf_veiled plan hrow size).bind ?_
    intro nodes nodes' hnodes
    rw [← hnodes.length_eq]
    refine (ih (size + nodes.length)).bind ?_
    rintro ⟨more, ids⟩ ⟨more', ids'⟩ ⟨hmore, hids⟩
    simp only at hids
    subst hids
    exact .ok ⟨List.rel_append hnodes hmore, rfl⟩

/-- Adding rows that differ only behind a veil. -/
theorem addRows_veiled (h : VeiledGraph veil g g')
    (hrows : List.Forall₂ (VeiledRow veil plan) rows rows') :
    Same (fun p p' => p.1 = p'.1 ∧ VeiledGraph veil p.2 p'.2) ((addRows plan rows).result g)
      ((addRows plan rows').result g') := by
  rw [addRows_result, addRows_result, ← h.size]
  exact (nodesOfAll_veiled hrows g.nodes.size).map fun p p' hp => ⟨hp.2, h.pushAll hp.1⟩

theorem nodesOfRows_veiled (relation : Plan.ManyPlan)
    (hrows : List.Forall₂ (VeiledChild veil plan labels) rows rows') (size : Nat) :
    Same (fun p p' => List.Forall₂ (VeiledNode veil) p.1 p'.1 ∧ p.2 = p'.2)
      (nodesOfRows relation plan labels rows size)
      (nodesOfRows relation plan labels rows' size) := by
  induction hrows generalizing size with
  | nil => exact .ok ⟨.nil, rfl⟩
  | @cons row row' rows rows' hrow _ ih =>
    have hagree : AgreeBut (· ∉ labels) row row' := by
      intro label hl
      exact hrow.parent label (Decidable.not_not.1 hl)
    unfold nodesOfRows
    rw [hagree.rowKey?_eq fun label hl => not_not.2 hl]
    cases rowKey? row' labels with
    | none => exact .error _
    | some key =>
      refine (nodesOf_veiled plan hrow.veiled size).bind ?_
      intro nodes nodes' hnodes
      rw [← hnodes.length_eq]
      refine (ih (size + nodes.length)).bind ?_
      rintro ⟨more, children⟩ ⟨more', children'⟩ ⟨hmore, hchildren⟩
      simp only at hchildren
      subst hchildren
      exact .ok ⟨List.rel_append hnodes hmore, rfl⟩

/-- Attaching rows that differ only behind a veil to nodes whose keys are not behind it. -/
theorem attach_veiled (h : VeiledGraph veil g g') {group : Group}
    (hgroup : Readable veil g group) (pageSize : Option Nat)
    (hrows : List.Forall₂ (VeiledChild veil plan labels) rows rows') :
    Same (fun p p' => VeiledGraph veil p.2 p'.2)
      ((attach group plan labels pageSize rows).result g)
      ((attach group plan labels pageSize rows').result g') := by
  unfold attach
  cases hm : group.relation? with
  | none => exact .error _
  | some m =>
    change Same _ (Growing.result (addChildren m plan labels rows >>= _) g)
      (Growing.result (addChildren m plan labels rows' >>= _) g')
    rw [result_bind, result_bind, addChildren_result, addChildren_result, ← h.size]
    refine ((nodesOfRows_veiled m hrows g.nodes.size).map
      (S := fun p p' => p.1 = p'.1 ∧ VeiledGraph veil p.2 p'.2 ∧ g.Keeps p.2)
      fun p p' hp => ⟨hp.2, h.pushAll hp.1, keeps_pushAll g p.1⟩).bind ?_
    rintro ⟨children, g₁⟩ ⟨children', g₁'⟩ ⟨hchildren, h₁, hkeeps⟩
    simp only at hchildren
    subst hchildren
    cases group.field? with
    | none => exact .error _
    | some field =>
      refine .ok (h₁.setLinks fun id hid => ?_)
      obtain ⟨node, hn, hkeys⟩ := hgroup.mono hkeeps id hid
      rw [childrenOf_veiled h₁ children hn (hkeys m hm)]

end

end Graph

end ObjectGraph
