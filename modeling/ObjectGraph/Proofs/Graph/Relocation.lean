import ObjectGraph.Proofs.Graph.Attachments

/-! # Nodes that differ in their numbers only

A row adds the same nodes to a graph of any size, but for their numbers: the nodes have the same
plans and the same rows, and their links lead to nodes at the same distances from the first one
(`nodesOf_shift`).  So the nodes of an object that is packed into a row are copies of each other
wherever the object is unpacked. -/

namespace ObjectGraph

namespace Graph

open Outcome (Same)
open Plan (NodePlan FieldPlan FieldKind)

/-! ### Copies -/

/-- Links that lead to related nodes. -/
inductive LinkCopy (C : NodeId → NodeId → Prop) : Link → Link → Prop
  | value : LinkCopy C .value .value
  | pending : LinkCopy C .pending .pending
  | none : LinkCopy C (.single none) (.single none)
  | single {id id' : NodeId} : C id id' → LinkCopy C (.single (some id)) (.single (some id'))
  | many {ids ids' : List NodeId} {size : Option Nat} :
      List.Forall₂ C ids ids' → LinkCopy C (.many ids size) (.many ids' size)

/-- Nodes of one plan and with one row, whose links lead to related nodes. -/
structure NodeCopy (C : NodeId → NodeId → Prop) (node node' : Node) : Prop where
  plan : node.plan = node'.plan
  row : node.row = node'.row
  links : List.Forall₂ (LinkCopy C) node.links node'.links

section

variable {C C' : NodeId → NodeId → Prop} {link link' : Link} {node node' : Node}

theorem LinkCopy.mono (h : LinkCopy C link link') (hC : ∀ id id', C id id' → C' id id') :
    LinkCopy C' link link' := by
  cases h with
  | value => exact .value
  | pending => exact .pending
  | none => exact .none
  | single h => exact .single (hC _ _ h)
  | many h => exact .many (h.imp hC)

theorem NodeCopy.mono (h : NodeCopy C node node') (hC : ∀ id id', C id id' → C' id id') :
    NodeCopy C' node node' := ⟨h.plan, h.row, h.links.imp fun _ _ hl => hl.mono hC⟩

end

/-! ### Unpacking at other numbers -/

/-- Blocks of nodes that are copies of each other, from some numbers on. -/
def BlockCopy (start start' : Nat) (nodes nodes' : List Node) : Prop :=
  List.Forall₂ (NodeCopy (Shift start start' nodes.length)) nodes nodes'

mutual

/-- A row adds copies of the same nodes to all graphs. -/
theorem nodesOf_shift : (plan : NodePlan) → (row : Row) → (s s' : Nat) →
    Same (BlockCopy s s') (nodesOf plan row s) (nodesOf plan row s')
  | ⟨origin, typeName, fields, many⟩, row, s, s' => by
    rw [nodesOf, nodesOf]
    refine (nodesOfFields_shift typeName fields row s s').bind ?_
    rintro ⟨nodes, rest, links⟩ ⟨nodes', rest', links'⟩ ⟨hnodes, hrest, hlinks⟩
    simp only at hnodes hrest hlinks
    subst hrest
    have hlength : nodes.length ≤
        (nodes ++ [Node.mk ⟨origin, typeName, fields, many⟩ rest links]).length := by simp
    refine .ok (List.rel_append (hnodes.imp fun _ _ h => h.mono fun _ _ => Shift.head hlength) ?_)
    exact .cons ⟨rfl, rfl, hlinks.imp fun _ _ h => h.mono fun _ _ => Shift.head hlength⟩ .nil

theorem nodesOfFields_shift (typeName : String) : (fields : List (FieldPlan NodePlan)) →
    (row : Row) → (s s' : Nat) →
    Same (fun p p' => BlockCopy s s' p.1 p'.1 ∧ p.2.1 = p'.2.1 ∧
        List.Forall₂ (LinkCopy (Shift s s' p.1.length)) p.2.2 p'.2.2)
      (nodesOfFields typeName fields row s) (nodesOfFields typeName fields row s')
  | [], _, _, _ => .ok ⟨.nil, rfl, .nil⟩
  | field :: fields, row, s, s' => by
    rw [nodesOfFields, nodesOfFields]
    refine (nodesOfField_shift typeName field rfl s s').with_ok.bind ?_
    rintro ⟨nodes, rest, link⟩ ⟨nodes', rest', link'⟩ ⟨⟨hnodes, hlink⟩, hok, hok'⟩
    simp only at hnodes hlink
    obtain rfl : rest = rest' := (nodesOfField_row hok).trans (nodesOfField_row hok').symm
    dsimp only
    rw [← hnodes.length_eq]
    refine (nodesOfFields_shift typeName fields rest (s + nodes.length) (s' + nodes.length)).bind ?_
    rintro ⟨more, last, links⟩ ⟨more', last', links'⟩ ⟨hmore, hlast, hlinks⟩
    simp only at hmore hlast hlinks
    subst hlast
    have hhead : nodes.length ≤ (nodes ++ more).length := by simp
    have htail : nodes.length + more.length ≤ (nodes ++ more).length := by simp
    refine .ok ⟨List.rel_append ?_ ?_, rfl, .cons ?_ ?_⟩
    · exact hnodes.imp fun _ _ h => h.mono fun _ _ => Shift.head hhead
    · exact hmore.imp fun _ _ h => h.mono fun _ _ => Shift.tail htail
    · exact hlink.mono fun _ _ => Shift.head hhead
    · exact hlinks.imp fun _ _ h => h.mono fun _ _ => Shift.tail htail

/-- What a field unpacks depends on what is under its name. -/
theorem nodesOfField_shift (typeName : String) : (field : FieldPlan NodePlan) →
    {row row' : Row} → row.get? field.name = row'.get? field.name → (s s' : Nat) →
    Same (fun p p' => BlockCopy s s' p.1 p'.1 ∧ LinkCopy (Shift s s' p.1.length) p.2.2 p'.2.2)
      (nodesOfField typeName field row s) (nodesOfField typeName field row' s')
  | ⟨name, kind, _, _⟩, row, row', hrow, s, s' => by
    rw [nodesOfField, nodesOfField]
    exact nodesOfKind_shift typeName name kind hrow s s'

theorem nodesOfKind_shift (typeName name : String) : (kind : FieldKind NodePlan) →
    {row row' : Row} → row.get? name = row'.get? name → (s s' : Nat) →
    Same (fun p p' => BlockCopy s s' p.1 p'.1 ∧ LinkCopy (Shift s s' p.1.length) p.2.2 p'.2.2)
      (nodesOfKind typeName name kind row s) (nodesOfKind typeName name kind row' s')
  | .value, _, _, _, _, _ => .ok ⟨.nil, .value⟩
  | .many _, _, _, _, _, _ => .ok ⟨.nil, .pending⟩
  | .single plan, row, row', hrow, s, s' => by
    rw [nodesOfKind, nodesOfKind, hrow]
    cases relatedObject typeName name ((row'.get? name).getD .null) with
    | error e => exact .error e
    | ok related =>
      cases related with
      | none => exact .ok ⟨.nil, .none⟩
      | some members =>
        refine (nodesOf_shift plan members s s').with_ok.bind ?_
        rintro nodes nodes' ⟨hnodes, hok, -⟩
        refine .ok ⟨hnodes, .single ?_⟩
        rw [← hnodes.length_eq]
        -- the node of the object is the last one of its block
        obtain ⟨before, node, rfl, -⟩ := nodesOf_last hok
        refine ⟨before.length, ?_, ?_, ?_⟩ <;> rw [List.length_append, List.length_singleton]
        · exact Nat.lt_succ_self _
        · rw [← Nat.add_assoc, Nat.add_sub_cancel]
        · rw [← Nat.add_assoc, Nat.add_sub_cancel]

end

end Graph

end ObjectGraph
