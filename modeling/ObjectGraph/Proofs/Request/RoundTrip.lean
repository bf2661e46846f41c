import ObjectGraph.Proofs.Request.Forms
import ObjectGraph.Request.Writer

/-! # Writing and reading requests

What is written of a request describes it (`describes_toJson`), so it is read as that request.  A
value that describes a request need not be what is written of it.  `Request.written` puts a value in
the written form without reading it; the difference between a selection that is empty and one that
is absent is kept.  The depth of a request can be read off a value as well (`Request.levels`).

Reading a value and writing it again puts it in the written form, and nothing is lost by it
(`written_again`). -/

namespace ObjectGraph

namespace Selection

/-! ### Written fields -/

mutual

theorem spells_toJson : (field : Selection) → Spells field.toJson field
  | .scalar _ => .scalar rfl (.inl rfl)
  | .nested _ fields => .nested rfl rfl (spellsAll_toItems fields)

theorem spellsAll_toItems : (fields : List Selection) → SpellsAll (toItems fields) fields
  | [] => .nil
  | field :: fields => .cons (spells_toJson field) (spellsAll_toItems fields)

end

mutual

/-- The written form of a field: a record with its name and its selection, unless that is absent. -/
def written : Json → Json
  | .str name => .obj [("name", .str name)]
  | .obj members => .obj (("name", (members.lookup "name").getD .null) :: writtenSelection members)
  | value => value

/-- The written form of the selection among the members of a field. -/
def writtenSelection : List (String × Json) → Object
  | [] => []
  | (key, value) :: rest =>
    if key = "fields" then
      match value with
      | .arr items => [("fields", .arr (writtenItems items))]
      | _ => []
    else writtenSelection rest

/-- The written forms of fields. -/
def writtenItems : List Json → List Json
  | [] => []
  | item :: items => written item :: writtenItems items

end

mutual

/-- How deep the selections of a field are nested. -/
def levels : Json → Nat
  | .obj members => levelsIn members
  | _ => 0

/-- How deep the selection among the members of a field is nested. -/
def levelsIn : List (String × Json) → Nat
  | [] => 0
  | (key, value) :: rest =>
    if key = "fields" then
      match value with
      | .arr items => 1 + levelsOf items
      | _ => 0
    else levelsIn rest

/-- How deep the selections of fields are nested. -/
def levelsOf : List Json → Nat
  | [] => 0
  | item :: items => max (levels item) (levelsOf items)

end

section

variable (members : List (String × Json))

theorem writtenSelection_eq : writtenSelection members = match members.lookup "fields" with
    | some (.arr items) => [("fields", .arr (writtenItems items))]
    | _ => [] := by
  induction members with
  | nil => rfl
  | cons member members ih =>
    obtain ⟨key, value⟩ := member
    unfold writtenSelection
    rw [Dictionary.lookup_cons_eq]
    by_cases hkey : key = "fields"
    · rw [if_pos hkey, if_pos hkey]
      cases value <;> rfl
    · rw [if_neg hkey, if_neg hkey]
      exact ih

theorem levelsIn_eq : levelsIn members = match members.lookup "fields" with
    | some (.arr items) => 1 + levelsOf items
    | _ => 0 := by
  induction members with
  | nil => rfl
  | cons member members ih =>
    obtain ⟨key, value⟩ := member
    unfold levelsIn
    rw [Dictionary.lookup_cons_eq]
    by_cases hkey : key = "fields"
    · rw [if_pos hkey, if_pos hkey]
      cases value <;> rfl
    · rw [if_neg hkey, if_neg hkey]
      exact ih

end

mutual

/-- A field is written as the values that stand for it are, and is as deep. -/
theorem Spells.written_eq {value : Json} {field : Selection} : Spells value field →
    field.toJson = written value ∧ field.depth = levels value
  | .name _ => ⟨rfl, rfl⟩
  | .scalar hname habsent => by
    rw [written, levels, hname, writtenSelection_eq, levelsIn_eq]
    rcases habsent with h | h
    · rw [h]
      exact ⟨rfl, rfl⟩
    · rw [h]
      exact ⟨rfl, rfl⟩
  | .nested hname hfields hitems => by
    obtain ⟨hwritten, hlevels⟩ := hitems.written_eq
    rw [written, levels, hname, writtenSelection_eq, levelsIn_eq, hfields]
    exact ⟨by rw [toJson, hwritten]; rfl, by rw [depth, hlevels]⟩

theorem SpellsAll.written_eq {items : List Json} {fields : List Selection} :
    SpellsAll items fields → toItems fields = writtenItems items ∧ depthOf fields = levelsOf items
  | .nil => ⟨rfl, rfl⟩
  | .cons hitem hitems => by
    obtain ⟨hwritten, hlevels⟩ := hitem.written_eq
    obtain ⟨hwritten', hlevels'⟩ := hitems.written_eq
    exact ⟨by rw [toItems, writtenItems, hwritten, hwritten'],
      by rw [depthOf, levelsOf, hlevels, hlevels']⟩

end

end Selection

namespace Request

open Sql (SortOrder)

/-! ### Written requests -/

/-- The limit of a request is a word of 64 bits. -/
def InRange (r : Request) : Prop := ∀ limit ∈ r.limit, limit < 2 ^ 64

/-- The filter of a request, unless it is empty. -/
def filter? (r : Request) : Option Object := if r.filter.isEmpty then none else some r.filter

theorem toJson_eq (r : Request) : r.toJson =
    .obj ([("type", .str r.typeName), ("fields", .arr (Selection.toItems r.fields))] ++
      optionalMember "filter" Json.obj r.filter? ++
      optionalMember "order_by" orderByToJson r.orderBy ++
      optionalMember "limit" Json.ofNat r.limit) := by
  unfold toJson filter?
  cases r.filter with
  | nil => rfl
  | cons entry rest => rfl

section

variable {α : Type} {name key : String} {f : α → Json} {x : Option α} {members : Object}

theorem lookup_optionalMember : (optionalMember name f x).lookup key =
    if key = name then x.map f else none := by
  cases x with
  | none => exact (ite_self _).symm
  | some x =>
    unfold optionalMember
    rw [Dictionary.lookup_cons_eq]
    by_cases h : key = name
    · rw [if_pos h, if_pos h.symm]
      rfl
    · rw [if_neg h, if_neg fun heq => h heq.symm]
      rfl

/-- A member that is written if it is there stands for what it was. -/
theorem mayStand_of_written {R : Json → α → Prop} (hlookup : members.get? name = x.map f)
    (hstands : ∀ y ∈ x, R (f y) y) (hnull : ∀ y, f y ≠ .null) : MayStand members name R x := by
  cases x with
  | none => exact .inl hlookup
  | some y => exact ⟨f y, hlookup, hnull y, hstands y rfl⟩

end

/-- The members of a written request. -/
theorem toJson_members (r : Request) : ∃ members : Object, r.toJson = .obj members ∧
    members.get? "type" = some (.str r.typeName) ∧
    members.get? "fields" = some (.arr (Selection.toItems r.fields)) ∧
    members.get? "filter" = r.filter?.map Json.obj ∧
    members.get? "order_by" = r.orderBy.map orderByToJson ∧
    members.get? "limit" = r.limit.map Json.ofNat := by
  refine ⟨_, r.toJson_eq, rfl, rfl, ?_, ?_, ?_⟩ <;>
    simp [Dictionary.get?, Dictionary.lookup_append, lookup_optionalMember, List.lookup_cons]

theorem spellsOrderBy_toJson (o : String × SortOrder) : SpellsOrderBy (orderByToJson o) o := by
  have hname : SortOrder.ofName? o.2.name = some o.2 := by
    cases o.2 with
    | asc => rfl
    | desc => rfl
  exact ⟨_, rfl, rfl, .inr ⟨_, rfl, .name hname⟩⟩

/-- What is written of a request describes it. -/
theorem describes_toJson {r : Request} (h : r.InRange) : Describes r.toJson r := by
  obtain ⟨members, hmembers, htype, hfields, hfilter, horderBy, hlimit⟩ := r.toJson_members
  rw [hmembers]
  refine ⟨members, rfl, htype, .inr ⟨_, hfields, _, rfl, Selection.spellsAll_toItems r.fields⟩,
    ?_, ?_, ?_⟩
  · unfold filter? at hfilter
    split at hfilter
    · next hempty => exact .inl ⟨hfilter, List.isEmpty_iff.1 hempty⟩
    · exact .inr ⟨_, hfilter, rfl⟩
  · exact mayStand_of_written horderBy (fun o _ => spellsOrderBy_toJson o) nofun
  · exact mayStand_of_written hlimit (fun n hn => ⟨rfl, h n hn⟩) nofun

/-! ### The written form -/

/-- The written form of a direction. -/
def writtenOrder : Option Json → Json
  | some (.str name) | some (.obj [(name, .null)]) => .str name.toLower
  | _ => .str "asc"

/-- The written form of an ordering. -/
def writtenOrderBy (value : Json) : Json :=
  let members := (members? ["column", "order"] value).getD []
  .obj [("column", (members.get? "column").getD .null),
    ("order", writtenOrder (members.get? "order"))]

/-- The written form of a member that may be missing or `null`. -/
def writtenMember (name : String) (f : Json → Json) (members : Object) : Object :=
  match members.get? name with
  | none | some .null => []
  | some value => [(name, f value)]

/-- The selection among the members of a request. -/
def itemsIn (members : Object) : List Json :=
  ((members.get? "fields").bind Json.items?).getD []

/-- The written form of the filter among the members of a request. -/
def writtenFilter (members : Object) : Object :=
  match members.get? "filter" with
  | some (.obj (entry :: rest)) => [("filter", .obj (entry :: rest))]
  | _ => []

/-- The members of a value as a request has them. -/
def membersOf (value : Json) : Object :=
  (members? ["type", "fields", "filter", "order_by", "limit"] value).getD []

/-- The written form of a request. -/
def written (value : Json) : Json :=
  let members := membersOf value
  .obj ([("type", (members.get? "type").getD .null),
      ("fields", .arr (Selection.writtenItems (itemsIn members)))] ++
    writtenFilter members ++ writtenMember "order_by" writtenOrderBy members ++
    writtenMember "limit" id members)

/-- The levels of objects that a value asks for. -/
def levels (value : Json) : Nat := 1 + Selection.levelsOf (itemsIn (membersOf value))

section

variable {members : Object}

theorem MayStand.written_eq {α : Type} {name : String} {R : Json → α → Prop} {x : Option α}
    {f : Json → Json} {toJson : α → Json} (h : MayStand members name R x)
    (hwritten : ∀ value y, R value y → toJson y = f value) :
    optionalMember name toJson x = writtenMember name f members := by
  unfold writtenMember
  cases x with
  | none =>
    rcases h with hmember | hmember
    · rw [hmember]
      rfl
    · rw [hmember]
      rfl
  | some y =>
    obtain ⟨value, hmember, hnull, hy⟩ := h
    rw [hmember]
    change [(name, toJson y)] = _
    rw [hwritten value y hy]
    cases value with
    | null => exact absurd rfl hnull
    | _ => rfl

theorem toLower_of_ofName? {name : String} {order : SortOrder}
    (h : SortOrder.ofName? name = some order) : name.toLower = order.name := by
  rw [← String.toList_inj]
  refine String.toList_map.trans ?_
  unfold SortOrder.ofName? at h
  split at h
  · next hasc =>
    cases h
    rcases hasc with rfl | rfl <;> decide
  · split at h
    · next hdesc =>
      cases h
      rcases hdesc with rfl | rfl <;> decide
    · cases h

theorem SpellsOrderBy.written_eq {value : Json} {o : String × SortOrder}
    (h : SpellsOrderBy value o) : orderByToJson o = writtenOrderBy value := by
  obtain ⟨members, hmembers, hcolumn, horder⟩ := h
  have hwritten : .str o.2.name = writtenOrder (members.get? "order") := by
    obtain ⟨hmember, horder⟩ | ⟨_, hmember, ⟨hname⟩ | ⟨hname⟩⟩ := horder
    · rw [hmember, horder]
      rfl
    · rw [hmember, ← toLower_of_ofName? hname]
      rfl
    · rw [hmember, ← toLower_of_ofName? hname]
      rfl
  unfold writtenOrderBy orderByToJson
  dsimp only
  rw [hmembers, Option.getD_some, hcolumn, hwritten, Option.getD_some]

theorem MembersFor.written_filter {r : Request} (h : MembersFor members r) :
    optionalMember "filter" Json.obj r.filter? = writtenFilter members := by
  unfold filter? writtenFilter
  obtain ⟨hmember, hfilter⟩ | ⟨_, hmember, rfl⟩ := h.filter
  · rw [hmember, hfilter]
    rfl
  · rw [hmember]
    cases r.filter with
    | nil => rfl
    | cons entry rest => rfl

theorem MembersFor.written_fields {r : Request} (h : MembersFor members r) :
    Selection.toItems r.fields = Selection.writtenItems (itemsIn members) ∧
      Selection.depthOf r.fields = Selection.levelsOf (itemsIn members) := by
  unfold itemsIn
  obtain ⟨hmember, hfields⟩ | ⟨_, hmember, items, rfl, hitems⟩ := h.fields
  · rw [hmember, hfields]
    exact ⟨rfl, rfl⟩
  · rw [hmember]
    exact hitems.written_eq

end

/-- A request is written as the values that describe it are, and is as deep. -/
theorem Describes.written_eq {value : Json} {r : Request} (h : Describes value r) :
    r.toJson = written value ∧ r.depth = levels value := by
  obtain ⟨members, hmembers, h⟩ := h
  have hmembersOf : membersOf value = members := by rw [membersOf, hmembers, Option.getD_some]
  obtain ⟨hitems, hdepth⟩ := h.written_fields
  constructor
  · unfold written
    dsimp only
    rw [toJson_eq, hmembersOf, h.typeName, hitems, h.written_filter,
      h.orderBy.written_eq fun _ _ => SpellsOrderBy.written_eq,
      h.limit.written_eq (f := id) fun value n hn => hn.1.symm]
    rfl
  · rw [depth, levels, hmembersOf, hdepth]

theorem Describes.inRange {value : Json} {r : Request} (h : Describes value r) : r.InRange := by
  obtain ⟨members, -, h⟩ := h
  intro limit hlimit
  have hstands := h.limit
  rw [Option.mem_def.1 hlimit] at hstands
  obtain ⟨_, -, -, -, hlt⟩ := hstands
  exact hlt

/-- Requests can be written and read again.  A value that describes a request, in whatever form, is
put in the written form by reading and writing it; this describes the same request, is written again
as it is, and is as deep as the value.  So values describe one request exactly if they have one
written form. -/
theorem written_again :
    (∀ r : Request, r.InRange → ofJson? r.toJson = some r) ∧
    (∀ value r, ofJson? value = some r ↔ Describes value r) ∧
    (∀ value r, ofJson? value = some r →
      r.toJson = written value ∧ ofJson? (written value) = some r ∧
      written (written value) = written value ∧
      r.depth = levels value ∧ levels (written value) = levels value) ∧
    ∀ value value' r r', ofJson? value = some r → ofJson? value' = some r' →
      (r = r' ↔ written value = written value') := by
  have hwrite : ∀ {r : Request}, r.InRange → ofJson? r.toJson = some r :=
    fun hr => ofJson?_iff.2 (describes_toJson hr)
  have hread : ∀ {value r}, ofJson? value = some r →
      r.toJson = written value ∧ r.depth = levels value ∧ ofJson? (written value) = some r := by
    intro value r h
    have hdescribes := ofJson?_iff.1 h
    obtain ⟨hwritten, hdepth⟩ := hdescribes.written_eq
    exact ⟨hwritten, hdepth, hwritten ▸ hwrite hdescribes.inRange⟩
  refine ⟨fun r => hwrite, fun value r => ofJson?_iff, fun value r h => ?_,
    fun value value' r r' h h' => ⟨?_, ?_⟩⟩
  · obtain ⟨hwritten, hdepth, hagain⟩ := hread h
    obtain ⟨hwritten', hdepth', -⟩ := hread hagain
    exact ⟨hwritten, hagain, hwritten'.symm.trans hwritten, hdepth, hdepth'.symm.trans hdepth⟩
  · rintro rfl
    exact (hread h).1.symm.trans (hread h').1
  · intro heq
    have hsame : some r = some r' := by rw [← (hread h).2.2, heq, (hread h').2.2]
    exact Option.some.inj hsame

/-! ### A request in mixed forms

Fields are given by name and as records, one of them with an empty selection and one with an absent
one; there are unknown members, and the ordering is a list. -/

def mixed : Json :=
  .obj [("limit", Json.ofNat 5), ("type", .str "Post"), ("note", .bool true),
    ("fields", .arr [.str "id", .obj [("name", .str "author"), ("fields", .arr [])],
      .obj [("fields", .null), ("hint", .num (.int 3)), ("name", .str "title")]]),
    ("filter", .obj [("blogId", .str "b1")]),
    ("order_by", .arr [.str "title", .obj [("DESC", .null)]])]

def posts : Request :=
  { typeName := "Post"
    fields := [.scalar "id", .nested "author" [], .scalar "title"]
    filter := [("blogId", .str "b1")]
    orderBy := some ("title", .desc)
    limit := some 5 }

theorem written_again_posts :
    ofJson? mixed = some posts ∧ posts.InRange ∧ ofJson? posts.toJson = some posts ∧
      written mixed = posts.toJson ∧ ofJson? (written mixed) = some posts ∧
      posts.depth = 2 ∧ levels mixed = 2 := by
  obtain ⟨hwrite, -, hread, -⟩ := written_again
  have hposts : ofJson? mixed = some posts := rfl
  have hrange : posts.InRange := by
    intro limit hlimit
    cases hlimit
    decide
  obtain ⟨hwritten, hagain, -, hdepth, -⟩ := hread mixed posts hposts
  exact ⟨hposts, hrange, hwrite posts hrange, hwritten.symm, hagain, rfl, hdepth.symm⟩

end Request

end ObjectGraph
