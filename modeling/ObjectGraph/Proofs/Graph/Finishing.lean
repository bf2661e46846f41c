import ObjectGraph.Graph.Answer
import ObjectGraph.Proofs.Graph.Changes
import ObjectGraph.Proofs.Storage.Sessions

/-! # Finishing a node

A node is finished with what its links lead to, and with no other node (`Node.finish_congr`).  Of
its own it fails only where a list was not fetched, a stored text is no JSON text, or a transform
gives no value; all else is a failure of what it leads to (`Node.finish_fails`). -/

namespace ObjectGraph

/-- What a node itself can fail with when it is finished. -/
def Fault.OfNode : Fault → Prop
  | .data _ _ .unresolved | .data _ _ .storedText | .transform _ _ _ => True
  | _ => False

namespace Graph

open Plan (NodePlan FieldPlan)

variable {caller : Caller} {finish finish' : NodeId → Session Fault Finished}

/-! ### What it depends on -/

theorem mapM_finish_congr {ids : List NodeId} (h : ∀ id ∈ ids, finish id = finish' id) :
    ids.mapM finish = ids.mapM finish' := by
  induction ids with
  | nil => rfl
  | cons id ids ih =>
    rw [List.mapM_cons, List.mapM_cons, h id List.mem_cons_self,
      ih fun other ho => h other (List.mem_cons_of_mem _ ho)]

theorem linkValue_congr {plan : NodePlan} {field : FieldPlan NodePlan} {link : Link}
    (h : ∀ child ∈ link.targets, finish child = finish' child) :
    linkValue finish plan field link = linkValue finish' plan field link := by
  cases link with
  | value => rfl
  | pending => rfl
  | single child =>
    cases child with
    | none => rfl
    | some child =>
      have hchild : finish child = finish' child := h child (List.mem_singleton_self child)
      simp only [linkValue, hchild]
  | many children pageSize =>
    have hchildren : children.mapM finish = children.mapM finish' := mapM_finish_congr h
    simp only [linkValue, hchildren]

theorem withRelated_congr {plan : NodePlan} {entries : List (FieldPlan NodePlan × Link)}
    {row : Object}
    (h : ∀ entry ∈ entries, ∀ child ∈ entry.2.targets, finish child = finish' child) :
    withRelated finish plan entries row = withRelated finish' plan entries row := by
  induction entries generalizing row with
  | nil => rfl
  | cons entry entries ih =>
    have hrest := fun row => @ih row fun other ho => h other (List.mem_cons_of_mem _ ho)
    unfold withRelated
    rw [linkValue_congr (h entry List.mem_cons_self)]
    refine bind_congr fun value? => ?_
    cases value? with
    | none => exact hrest row
    | some value => exact hrest _

/-- How a node is finished depends on how those are finished that it leads to. -/
theorem Node.finish_congr {node : Node}
    (h : ∀ link ∈ node.links, ∀ child ∈ link.targets, finish child = finish' child) :
    node.finish caller finish = node.finish caller finish' := by
  have hrelated : withRelated finish node.plan (node.plan.fields.zip node.links) node.row =
      withRelated finish' node.plan (node.plan.fields.zip node.links) node.row :=
    withRelated_congr fun entry he => h entry.2 (List.of_mem_zip he).2
  simp only [Node.finish, hrelated]

/-! ### What it fails with -/

section

variable {storage : Storage} {fault : Fault → Prop} (hown : ∀ e, e.OfNode → fault e)

include hown

theorem linkValue_fails {plan : NodePlan} {field : FieldPlan NodePlan} {link : Link}
    (h : ∀ child ∈ link.targets, Session.Ends storage (finish child) (fun _ => True) fault) :
    Session.Ends storage (linkValue finish plan field link) (fun _ => True) fault := by
  cases link with
  | value => exact Session.Ends.pure trivial
  | pending => exact fun _ => hown _ trivial
  | single child =>
    cases child with
    | none => exact Session.Ends.pure trivial
    | some child =>
      exact (h child (List.mem_singleton_self child)).bind fun _ _ => Session.Ends.pure trivial
  | many children pageSize =>
    exact (Session.Ends.mapM (R := fun _ _ => True) h).bind fun _ _ => Session.Ends.pure trivial

theorem withRelated_fails {plan : NodePlan} {entries : List (FieldPlan NodePlan × Link)}
    (row : Object) (h : ∀ entry ∈ entries, ∀ child ∈ entry.2.targets,
      Session.Ends storage (finish child) (fun _ => True) fault) :
    Session.Ends storage (withRelated finish plan entries row) (fun _ => True) fault := by
  induction entries generalizing row with
  | nil => exact Session.Ends.pure trivial
  | cons entry entries ih =>
    have hrest := fun row => ih row fun other ho => h other (List.mem_cons_of_mem _ ho)
    unfold withRelated
    refine (linkValue_fails hown (h entry List.mem_cons_self)).bind fun value? _ => ?_
    cases value? with
    | none => exact hrest row
    | some value => exact hrest _

omit hown in
/-- What goes wrong in parsing is a stored text that is no JSON text. -/
theorem withParsed_error {typeName : String} {fields : List (FieldPlan NodePlan)}
    {object : Object} {e : Fault} (h : withParsed typeName fields object = .error e) :
    ∃ field ∈ fields, e = .data typeName field.name .storedText := by
  induction fields generalizing object with
  | nil => cases h
  | cons field fields ih =>
    have hrest : ∀ {object : Object}, withParsed typeName fields object = .error e →
        ∃ f ∈ field :: fields, e = .data typeName f.name .storedText := by
      intro object h
      obtain ⟨f, hf, he⟩ := ih h
      exact ⟨f, List.mem_cons_of_mem _ hf, he⟩
    unfold withParsed at h
    split at h
    · split at h
      · split at h
        · exact hrest h
        · cases h
          exact ⟨field, List.mem_cons_self, rfl⟩
      · exact hrest h
    · exact hrest h

theorem transformed_fails (typeName : String) (object : Object)
    (fields : List (FieldPlan NodePlan)) :
    Session.Ends storage (transformed caller typeName object fields) (fun _ => True) fault := by
  induction fields with
  | nil => exact Session.Ends.pure trivial
  | cons field fields ih =>
    unfold transformed
    split
    · exact ih
    · have hown := fun e => hown (.transform typeName field.name e) trivial
      exact (Session.Ends.mapError hown).bind fun _ _ => ih.bind fun _ _ =>
        Session.Ends.pure trivial

theorem Node.finish_fails {node : Node}
    (h : ∀ link ∈ node.links, ∀ child ∈ link.targets,
      Session.Ends storage (finish child) (fun _ => True) fault) :
    Session.Ends storage (node.finish caller finish) (fun _ => True) fault := by
  unfold Node.finish
  refine (withRelated_fails hown _ fun entry he => h entry.2 (List.of_mem_zip he).2).bind
    fun full _ => ?_
  have hparsed : Session.Ends storage
      (Session.ofExcept (withParsed node.plan.typeName node.plan.fields full))
      (fun _ => True) fault := by
    refine Session.Ends.ofExcept (fun _ _ => trivial) fun e he => ?_
    obtain ⟨_, -, rfl⟩ := withParsed_error he
    exact hown _ trivial
  refine hparsed.bind fun full _ => ?_
  exact (transformed_fails hown _ _ _).bind fun _ _ => Session.Ends.pure trivial

end

end Graph

end ObjectGraph
