import ObjectGraph.Proofs.Graph.Finishing
import ObjectGraph.Proofs.Resolution.Loop

/-! # Refusals and other failures

A request can be refused for what it selects, or for what its schema and its settings make of it;
this is decided where its statements are planned.  Nothing that is done with their rows refuses it:
neither what goes wrong in a change of the graph (`attachAll_unrefused`), nor what goes wrong when
objects are finished, parsed and transformed (`finishRoots_unrefused`). -/

namespace ObjectGraph

/-- A refusal of the request, other than a failure of the storage, of the data or of a transform. -/
def Fault.IsPlan : Fault → Prop
  | .plan _ => True
  | _ => False

theorem Fault.OfNode.not_isPlan {e : Fault} (h : e.OfNode) : ¬e.IsPlan := by
  cases e with
  | plan => cases h
  | _ => exact id

namespace Graph

open Plan (NodePlan ManyPlan FieldPlan FieldKind)

/-! ### Failures of the data -/

section

variable {α : Type}

/-- What goes wrong in a change of the graph is no refusal of the request. -/
def Unrefused (change : Growing α) : Prop :=
  ∀ graph : Graph, Runs change graph (fun _ _ => True) fun e => ¬e.IsPlan

theorem Unrefused.pure (a : α) : Unrefused (Pure.pure a) := fun _ => Runs.pure trivial

theorem Unrefused.bind {β : Type} {change : Growing α} {next : α → Growing β}
    (h : Unrefused change) (hnext : ∀ a, Unrefused (next a)) : Unrefused (change >>= next) :=
  fun graph => (h graph).bind fun a graph' _ => hnext a graph'

theorem relatedObject_unrefused (typeName field : String) (packed : Json) :
    Unrefused (liftM (relatedObject typeName field packed)) := by
  intro graph
  refine Runs.lift (fun _ _ => trivial) fun e h => ?_
  rcases relatedObject_error h with rfl | ⟨_, rfl⟩ <;> exact id

mutual

theorem insert_unrefused : (plan : NodePlan) → (row : Row) → Unrefused (insert plan row)
  | ⟨origin, typeName, fields, many⟩, row => by
    rw [insert]
    exact (insertFields_unrefused typeName fields row).bind fun p _ => trivial

theorem insertFields_unrefused (typeName : String) : (fields : List (FieldPlan NodePlan)) →
    (row : Row) → Unrefused (insertFields typeName fields row)
  | [], row => Unrefused.pure _
  | field :: fields, row => by
    rw [insertFields]
    refine (insertField_unrefused typeName field row).bind fun p => ?_
    exact (insertFields_unrefused typeName fields p.1).bind fun p => Unrefused.pure _

theorem insertField_unrefused (typeName : String) : (field : FieldPlan NodePlan) → (row : Row) →
    Unrefused (insertField typeName field row)
  | ⟨name, kind, _, _⟩, row => insertKind_unrefused typeName name kind row

theorem insertKind_unrefused (typeName name : String) : (kind : FieldKind NodePlan) →
    (row : Row) → Unrefused (insertKind typeName name kind row)
  | .value, row => Unrefused.pure _
  | .many _, row => Unrefused.pure _
  | .single plan, row => by
    rw [insertKind]
    refine (relatedObject_unrefused _ _ _).bind ?_
    rintro (_ | related)
    · exact Unrefused.pure _
    · exact (insert_unrefused plan related).bind fun _ => Unrefused.pure _

end

theorem addRows_unrefused (plan : NodePlan) (rows : List Row) : Unrefused (addRows plan rows) := by
  unfold addRows
  induction rows with
  | nil => exact Unrefused.pure _
  | cons row rows ih =>
    rw [List.mapM_cons]
    exact (insert_unrefused plan row).bind fun _ => ih.bind fun _ => Unrefused.pure _

theorem addChildren_unrefused (relation : ManyPlan) (plan : NodePlan) (labels : List String)
    (rows : List Row) : Unrefused (addChildren relation plan labels rows) := by
  induction rows with
  | nil => exact Unrefused.pure _
  | cons row rows ih =>
    unfold addChildren
    split
    · exact fun _ => Runs.throw id
    · exact (insert_unrefused plan row).bind fun _ => ih.bind fun _ => Unrefused.pure _

theorem attach_unrefused (group : Group) (plan : NodePlan) (labels : List String)
    (pageSize : Option Nat) (rows : List Row) :
    Unrefused (attach group plan labels pageSize rows) := by
  unfold attach
  split
  · exact fun _ => Runs.throw id
  · next relation _ =>
    refine (addChildren_unrefused relation plan labels rows).bind fun children => ?_
    split
    · exact fun _ => Runs.throw id
    · exact fun _ => trivial

end

end Graph

namespace Resolution

open ObjectGraph.Graph (Link NodeId)
open Plan (NodePlan FieldPlan)

theorem attachAll_unrefused (fetched : List Fetched) : Graph.Unrefused (attachAll fetched) := by
  induction fetched with
  | nil => exact Graph.Unrefused.pure _
  | cons f fetched ih => exact (Graph.attach_unrefused _ _ _ _ _).bind fun _ => ih

theorem result_unrefused {α : Type} {change : Graph.Growing α} (h : Graph.Unrefused change)
    {g : Graph} {e : Fault} (hresult : change.result g = .error e) : ¬e.IsPlan := by
  have hruns := Graph.runs_iff.1 (h g)
  rw [hresult] at hruns
  exact hruns

/-! ### Failures of finishing -/

section

variable {storage : Storage} {caller : Caller}

/-- What goes wrong in a session is no refusal of the request. -/
def Unrefused {α : Type} (storage : Storage) (x : Session Fault α) : Prop :=
  Session.Ends storage x (fun _ => True) fun e => ¬e.IsPlan

theorem finishWithin_unrefused (g : Graph) (fuel : Nat) (root : NodeId) :
    Unrefused storage (g.finishWithin caller fuel root) := by
  induction fuel generalizing root with
  | zero => exact fun _ => id
  | succ fuel ih =>
    unfold Graph.finishWithin
    split
    · exact fun _ => id
    · exact Graph.Node.finish_fails (fun _ => Fault.OfNode.not_isPlan) fun _ _ child _ => ih child

theorem finishRoots_unrefused (roots : List NodeId) (g : Graph) :
    Unrefused storage (finishRoots caller (roots, g)) :=
  (Session.Ends.mapM (R := fun _ _ => True) fun root _ => finishWithin_unrefused g _ root).bind
    fun _ _ => Session.Ends.pure trivial

end

end Resolution

end ObjectGraph
