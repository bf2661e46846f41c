import ObjectGraph.Proofs.Resolution.Assembly
import ObjectGraph.Proofs.Resolution.Batching

/-! # The shape of an answer

An answered object has the names that its level was selected with as its keys, and nothing else: no
column that was fetched besides (`Shaped`).  What a relation leads to has the shape of its own
selection, unless a transform makes something else of it.  All this holds whatever rows a storage
gives, as does that every list is resolved: a request is answered with objects of their shapes, or
there is a fault that is no gap (`answer_ends`). -/

namespace ObjectGraph

namespace Resolution

open Plan (Environment)
open Schema (Registry Relation Resolved)

/-! ### Shapes -/

/-- Nothing, or an object of some shape. -/
def SingleShape (shape : Object → Prop) (value : Json) : Prop :=
  value = .null ∨ ∃ object, value = .obj object ∧ shape object

/-- An edge holds an object of some shape, and the cursor that the paging gives for a row. -/
def EdgeShape (shape : Object → Prop) (paging : Paging) (edge : Json) : Prop :=
  ∃ object row, shape object ∧
    edge = .obj [("node", .obj object), ("cursor", Json.ofOption .str (paging.cursor row))]

/-- Objects of some shape: an array of them, or with paging a connection. -/
def ListShape (shape : Object → Prop) : Option Paging → Json → Prop
  | none, value => ∃ objects : List Object,
    value = .arr (objects.map .obj) ∧ ∀ object ∈ objects, shape object
  | some paging, value => ∃ edges info : List Json,
      value = .obj [("edges", .arr edges), ("pageInfo", .obj
        (["hasNextPage", "hasPreviousPage", "startCursor", "endCursor"].zip info))] ∧
      ∀ edge ∈ edges, EdgeShape shape paging edge

/-- What a relation leads to. -/
def RelationShape (shape : Object → Prop) (resolved : Resolved) (relation : Relation)
    (value : Json) : Prop :=
  if relation.many then ListShape shape resolved.paging? value else SingleShape shape value

mutual

/-- The value of a selected field of a type: what a relation leads to is of the shape that is
selected there, unless it is transformed. -/
def FieldShape (registry : Registry) (typeName : String) : Selection → Json → Prop
  | .scalar _, _ => True
  | .nested name fields, value => ∃ resolved relation,
      registry.resolve typeName name = .ok resolved ∧ resolved.relation? = some relation ∧
      (resolved.transform? = none → RelationShape
        (fun object => HasKeys fields object ∧
          FieldsShape registry (resolved.view.getD relation.target) fields object)
        resolved relation value)

/-- The values of the selected fields of a type; of fields with one name the last counts. -/
def FieldsShape (registry : Registry) (typeName : String) : List Selection → Object → Prop
  | [], _ => True
  | field :: fields, object =>
    (field.name ∉ fields.map Selection.name →
      ∃ value, object.get? field.name = some value ∧ FieldShape registry typeName field value) ∧
    FieldsShape registry typeName fields object

end

/-- An object of a type has exactly the selected fields, with values of the shapes selected. -/
def Shaped (registry : Registry) (typeName : String) (fields : List Selection)
    (object : Object) : Prop :=
  HasKeys fields object ∧ FieldsShape registry typeName fields object

section

variable {shape shape' : Object → Prop}

theorem listShape_ofPaging (size : Option Nat) (paging : Option Paging) {children : List Finished}
    (h : ∀ child ∈ children, shape child.output) :
    ListShape shape paging (Connection.ofPaging (sized size paging) children) := by
  cases paging with
  | none =>
    have hsized : sized size none = none := by cases size <;> rfl
    rw [hsized]
    refine ⟨children.map Finished.output, by rw [List.map_map]; rfl, ?_⟩
    intro object hobject
    obtain ⟨child, hc, rfl⟩ := List.mem_map.1 hobject
    exact h child hc
  | some paging =>
    obtain ⟨capped, hsized, hcursor⟩ : ∃ capped, sized size (some paging) = some capped ∧
        capped.cursor = paging.cursor := by
      cases size with
      | none => exact ⟨paging, rfl, rfl⟩
      | some size => exact ⟨paging.capped size, rfl, rfl⟩
    rw [hsized]
    refine ⟨children.map (Connection.edge capped), [_, _, _, _], rfl, ?_⟩
    intro edge hedge
    obtain ⟨child, hc, rfl⟩ := List.mem_map.1 hedge
    exact ⟨child.output, child.row, h child hc, by rw [← hcursor]; rfl⟩

theorem ListShape.mono {paging : Option Paging} {value : Json} (h : ListShape shape paging value)
    (hshape : ∀ object, shape object → shape' object) : ListShape shape' paging value := by
  cases paging with
  | none =>
    obtain ⟨objects, hvalue, hobjects⟩ := h
    exact ⟨objects, hvalue, fun object ho => hshape object (hobjects object ho)⟩
  | some paging =>
    obtain ⟨edges, info, hvalue, hedges⟩ := h
    refine ⟨edges, info, hvalue, fun edge he => ?_⟩
    obtain ⟨object, row, hobject, hedge⟩ := hedges edge he
    exact ⟨object, row, hshape object hobject, hedge⟩

theorem RelationShape.mono {resolved : Resolved} {relation : Relation} {value : Json}
    (h : RelationShape shape resolved relation value)
    (hshape : ∀ object, shape object → shape' object) :
    RelationShape shape' resolved relation value := by
  unfold RelationShape at h ⊢
  split
  · next hmany =>
    rw [if_pos hmany] at h
    exact h.mono hshape
  · next hmany =>
    rw [if_neg hmany] at h
    exact h.imp_right fun ⟨object, hvalue, hobject⟩ => ⟨object, hvalue, hshape object hobject⟩

end

/-- That what a relation leads to has the shape of its objects. -/
def inShape : RelationSpec := fun resolved relation shape value =>
  RelationShape shape resolved relation value

theorem inShape_sound (env : Environment) : inShape.Sound env where
  absent := by
    intro resolved relation shape hmany
    unfold inShape RelationShape
    rw [hmany]
    exact .inl rfl
  single := by
    intro resolved relation shape object hmany hobject
    unfold inShape RelationShape
    rw [hmany]
    exact .inr ⟨object, rfl, hobject⟩
  list := by
    intro typeName name resolved relation shape children size _ _ hmany _ hchildren
    unfold inShape RelationShape
    rw [hmany]
    exact listShape_ofPaging size resolved.paging? hchildren

section

variable {env : Environment} {storage : Storage}

mutual

theorem FieldReads.shape {typeName : String} {value : Json} : {selection : Selection} →
    FieldReads env storage inShape typeName selection value →
    FieldShape env.registry typeName selection value
  | .scalar _, _ => trivial
  | .nested name fields, h => by
    obtain ⟨resolved, relation, related, hr, hn, hbecomes, hshape⟩ := h
    refine ⟨resolved, relation, hr, hn, fun htransform => ?_⟩
    rw [htransform] at hbecomes
    obtain rfl : value = related := hbecomes
    exact RelationShape.mono hshape fun object ho => ⟨ho.1, FieldsRead.shape ho.2⟩

theorem FieldsRead.shape {typeName : String} {object : Object} : {selections : List Selection} →
    FieldsRead env storage inShape typeName selections object →
    FieldsShape env.registry typeName selections object
  | [], _ => trivial
  | _ :: _, h => by
    refine ⟨fun hlast => ?_, FieldsRead.shape h.2⟩
    obtain ⟨value, hvalue, hfield⟩ := h.1 hlast
    exact ⟨value, hvalue, FieldReads.shape hfield⟩

end

end

/-! ### Answers -/

section

variable {env : Environment} {request : Request} {filter : Option Schema.TypeFilter}
  {storage : Storage}

/-- A request is answered with objects of the shape that it selects, or it fails for something
other than a gap. -/
theorem answer_ends :
    Session.Ends storage (answer env request filter)
      (fun objects => ∀ object ∈ objects,
        Shaped env.registry request.typeName request.fields object)
      (fun e => ¬e.IsGap) := by
  refine (answer_reads_ends (inShape_sound env)).mono ?_ fun _ h => h
  intro objects h object hobject
  obtain ⟨hkeys, hfields⟩ := h object hobject
  exact ⟨hkeys, hfields.shape⟩

/-- A request is answered with objects of the shape that it selects: every object has the selected
names as its keys, in the order in which they stand first, and no others, and every relation
without a transform leads to objects of the shape that is selected there. -/
theorem answer_shaped {objects : List Object} {log : List Sql.Statement}
    (h : (answer env request filter).outcome storage = (.ok objects, log)) :
    ∀ object ∈ objects, Shaped env.registry request.typeName request.fields object := by
  have hends : Session.Ends storage (answer env request filter) _ _ := answer_ends
  have hends := hends []
  change (answer env request filter) storage [] = _ at h
  rw [h] at hends
  exact hends

end

theorem answer_shaped_posts :
    ∃ objects log, (answer Instance.environment Instance.request none).outcome
        (.ofFunction .sqlite Instance.fetch) = (.ok objects, log) ∧
      objects.map Dictionary.keys = List.replicate 5 ["title", "comments"] ∧
      ∀ object ∈ objects, Shaped Instance.registry "Post" Instance.request.fields object := by
  obtain ⟨objects, hobjects, hkeys, -⟩ := Instance.answer_posts
  rcases h : (answer Instance.environment Instance.request none).outcome
    (.ofFunction .sqlite Instance.fetch) with ⟨result, log⟩
  rw [h] at hobjects
  obtain rfl := Outcome.toOption_some.1 hobjects
  exact ⟨objects, log, rfl, hkeys, answer_shaped h⟩

end Resolution

end ObjectGraph
