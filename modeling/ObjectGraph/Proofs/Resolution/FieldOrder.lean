import Mathlib.Tactic.IntervalCases
import ObjectGraph.Proofs.Graph.FieldOrder
import ObjectGraph.Proofs.Resolution.Assembly
import ObjectGraph.Proofs.Resolution.Repeats
import ObjectGraph.Proofs.Transform.Redaction

/-! # The order of the fields orders the keys

A node is finished in three passes over its fields: related objects are put into its row, stored
texts are parsed, and transforms are applied to the object as it then stands, its snapshot.  Every
pass puts values under the names of the fields, each made of what a field finds under its own name
or of an object that does not change, so that the order in which they are put matters for the order
of the keys only (`putEach_agree`).  A transform that reads its object by the order of the keys sees
it all the same (`field_order_seen`). -/

namespace ObjectGraph

/-! ### Transforms of members -/

/-- A transform takes the object of its field as the members that it has: objects with the same
members, in whatever order, give the same. -/
def Transform.ReadsMembers : Transform → Prop
  | .builtin _ => True
  | .custom f => ∀ value caller o o', SameMembers o o' → f value caller o = f value caller o'
  | .andThen first second => first.ReadsMembers ∧ second.ReadsMembers

section

variable {parent parent' : Object}

theorem Builtin.apply_sameMembers (h : SameMembers parent parent') (b : Builtin) (value : Json)
    (caller : Caller) : b.apply value caller parent = b.apply value caller parent' := by
  cases b with
  | nullIfNotSameUser column =>
    have howner : caller.isOwner parent column = caller.isOwner parent' column := by
      unfold Caller.isOwner
      rw [h column]
    simp only [Builtin.apply, Builtin.applyPure?, howner]
  | _ => rfl

theorem Transform.apply_sameMembers (h : SameMembers parent parent') {t : Transform}
    (ht : t.ReadsMembers) (value : Json) (caller : Caller) :
    t.apply value caller parent = t.apply value caller parent' := by
  induction t generalizing value with
  | builtin b => exact b.apply_sameMembers h value caller
  | custom f => exact congrArg Session.ofExcept (ht value caller parent parent' h)
  | andThen first second ih₁ ih₂ =>
    rw [Transform.apply, Transform.apply, ih₁ ht.1 value]
    exact bind_congr fun value => ih₂ ht.2 value

end

/-- Chains of built-in transforms read members only, hence all transforms that catalogs name. -/
theorem Transform.readsMembers_of_builtins? {t : Transform} {bs : List Builtin}
    (h : t.builtins? = some bs) : t.ReadsMembers := by
  induction t generalizing bs with
  | builtin b => exact trivial
  | custom f => cases h
  | andThen first second ihFirst ihSecond =>
    rw [builtins?] at h
    obtain ⟨cs, hfirst, h⟩ := Option.bind_eq_some_iff.1 h
    obtain ⟨ds, hsecond, -⟩ := Option.map_eq_some_iff.1 h
    exact ⟨ihFirst hfirst, ihSecond hsecond⟩

namespace Resolution

open ObjectGraph.Graph (Link LinkCopy Node NodeCopy NodeId NodeReordered Reordering)
open Plan (FieldMoved FieldPlan KindMoved NodePlan)
open Session (Agree Gives)

/-! ### Values put in another order -/

section

variable {α β : Type} {name : α → String} {value : α → Session Fault (Option Json)}
  {name' : β → String} {value' : β → Session Fault (Option Json)} {storage : Storage}
  {outcome : α → Option (Option Json)} {xs : List α} {ys : List β} {object object' : Object}

/-- Put what the values of some items come to into an object. -/
def putAll (name : α → String) (outcome : α → Option (Option Json)) :
    List α → Object → Option Object
  | [], object => some object
  | x :: xs, object => (outcome x).bind fun
    | none => putAll name outcome xs object
    | some v => putAll name outcome xs (object.insert (name x) v)

theorem putEach_gives (h : ∀ x ∈ xs, Gives storage (value x) (outcome x)) :
    Gives storage (putEach name value xs object) (putAll name outcome xs object) := by
  induction xs generalizing object with
  | nil => exact Gives.pure
  | cons x xs ih =>
    have hrest (object : Object) :
        Gives storage (putEach name value xs object) (putAll name outcome xs object) :=
      ih fun y hy => h y (List.mem_cons_of_mem x hy)
    refine (h x List.mem_cons_self).bind fun v? _ => ?_
    cases v? with
    | none => exact hrest object
    | some v => exact hrest _

theorem putAll_eq_none : putAll name outcome xs object = none ↔ ∃ x ∈ xs, outcome x = none := by
  induction xs generalizing object with
  | nil => simp [putAll]
  | cons x xs ih =>
    rw [putAll, List.exists_mem_cons_iff]
    cases outcome x with
    | none => simp
    | some v? => cases v? <;> simp [ih]

theorem putAll_get?_of_not_mem {result : Object}
    (h : putAll name outcome xs object = some result) {key : String} (hkey : key ∉ xs.map name) :
    result.get? key = object.get? key := by
  induction xs generalizing object with
  | nil =>
    cases h
    rfl
  | cons x xs ih =>
    rw [List.map_cons, List.mem_cons, not_or] at hkey
    obtain ⟨v?, -, h⟩ := Option.bind_eq_some_iff.1 h
    cases v? with
    | none => exact ih h hkey.2
    | some v => rw [ih h hkey.2, Dictionary.get?_insert, if_neg hkey.1]

/-- Under the name of an item is its value if there is one, and otherwise what was there before. -/
theorem putAll_get?_of_mem (hnames : (xs.map name).Nodup) {result : Object}
    (h : putAll name outcome xs object = some result) {x : α} (hx : x ∈ xs) :
    ∃ v?, outcome x = some v? ∧ result.get? (name x) = v?.or (object.get? (name x)) := by
  induction xs generalizing object with
  | nil => cases hx
  | cons first xs ih =>
    obtain ⟨hfirst, hnames⟩ := List.nodup_cons.1 hnames
    obtain ⟨v?, hv, h⟩ := Option.bind_eq_some_iff.1 h
    rcases List.mem_cons.1 hx with rfl | hx
    · refine ⟨v?, hv, ?_⟩
      cases v? with
      | none => exact putAll_get?_of_not_mem h hfirst
      | some v =>
        rw [putAll_get?_of_not_mem h hfirst, Dictionary.get?_insert, if_pos rfl]
        rfl
    · have hne : name x ≠ name first := fun heq => hfirst (heq ▸ List.mem_map_of_mem hx)
      cases v? with
      | none => exact ih hnames h hx
      | some v =>
        obtain ⟨w?, hw, hget⟩ := ih hnames h hx
        rw [Dictionary.get?_insert, if_neg hne] at hget
        exact ⟨w?, hw, hget⟩

/-- Items with the same names that come to the same put the same members into an object, in whatever
order they come. -/
theorem putEach_agree (hnames : (xs.map name).Nodup) (hnames' : (ys.map name').Nodup)
    (hright : ∀ x ∈ xs, ∃ y ∈ ys, name x = name' y ∧ Agree storage Eq (value x) (value' y))
    (hleft : ∀ y ∈ ys, ∃ x ∈ xs, name x = name' y ∧ Agree storage Eq (value x) (value' y))
    (hobject : SameMembers object object') :
    Agree storage SameMembers (putEach name value xs object) (putEach name' value' ys object') := by
  have hgives : ∀ x ∈ xs, Gives storage (value x) ((value x).value? storage) := fun x hx =>
    let ⟨_, _, _, h⟩ := hright x hx
    h.gives.1
  have hgives' : ∀ y ∈ ys, Gives storage (value' y) ((value' y).value? storage) := fun y hy =>
    let ⟨_, _, _, h⟩ := hleft y hy
    h.gives.2.1
  refine .of_gives (putEach_gives hgives) (putEach_gives hgives') ?_ ?_
  · rw [putAll_eq_none, putAll_eq_none]
    constructor
    · rintro ⟨x, hx, hnone⟩
      obtain ⟨y, hy, -, h⟩ := hright x hx
      exact ⟨y, hy, h.gives.2.2.symm.trans hnone⟩
    · rintro ⟨y, hy, hnone⟩
      obtain ⟨x, hx, -, h⟩ := hleft y hy
      exact ⟨x, hx, h.gives.2.2.trans hnone⟩
  · intro result result' hresult hresult' key
    by_cases hkey : key ∈ xs.map name
    · obtain ⟨x, hx, rfl⟩ := List.mem_map.1 hkey
      obtain ⟨y, hy, hname, h⟩ := hright x hx
      obtain ⟨v?, hv, hget⟩ := putAll_get?_of_mem hnames hresult hx
      obtain ⟨w?, hw, hget'⟩ := putAll_get?_of_mem hnames' hresult' hy
      obtain rfl : v? = w? := Option.some.inj (hv.symm.trans (h.gives.2.2.trans hw))
      rw [hget, hname, hget', hobject]
    · have hkey' : key ∉ ys.map name' := by
        intro hmem
        obtain ⟨y, hy, rfl⟩ := List.mem_map.1 hmem
        obtain ⟨x, hx, hname, -⟩ := hleft y hy
        exact hkey (hname ▸ List.mem_map_of_mem hx)
      rw [putAll_get?_of_not_mem hresult hkey, putAll_get?_of_not_mem hresult' hkey', hobject]

end

/-! ### Stored texts -/

/-- The parsed text of a field that stores one, of an object. -/
def parsedField (typeName : String) (object : Object) (field : FieldPlan NodePlan) :
    Session Fault (Option Json) :=
  if field.json then
    match object.get? field.name with
    | some (.str text) =>
      match Json.parse? text with
      | some value => pure (some value)
      | none => throw (.data typeName field.name .storedText)
    | _ => pure none
  else pure none

/-- Where names are distinct no parsed text is read again. -/
theorem withParsed_eq {typeName : String} {fields : List (FieldPlan NodePlan)}
    {object base : Object} (hnames : (fields.map FieldPlan.name).Nodup)
    (hbase : ∀ field ∈ fields, object.get? field.name = base.get? field.name) :
    Session.ofExcept (Graph.withParsed typeName fields object) =
      putEach FieldPlan.name (parsedField typeName base) fields object := by
  induction fields generalizing object with
  | nil => rfl
  | cons field fields ih =>
    obtain ⟨hname, hnames⟩ := List.nodup_cons.1 hnames
    have hrest : ∀ f ∈ fields, object.get? f.name = base.get? f.name := fun f hf =>
      hbase f (List.mem_cons_of_mem _ hf)
    have hskip := ih hnames hrest
    rw [Graph.withParsed, putEach, parsedField, hbase field List.mem_cons_self]
    cases field.json with
    | false => exact hskip
    | true =>
      simp only [↓reduceIte]
      cases base.get? field.name with
      | none => exact hskip
      | some stored =>
        cases stored with
        | str text =>
          dsimp only
          cases Json.parse? text with
          | none => rfl
          | some value =>
            refine ih hnames fun f hf => ?_
            have hne : f.name ≠ field.name := fun heq => hname (heq ▸ List.mem_map_of_mem hf)
            rw [Dictionary.get?_insert, if_neg hne]
            exact hrest f hf
        | _ => exact hskip

/-- What parsing the text of a field comes to, by what is stored. -/
def parsed? (field : FieldPlan NodePlan) : Option Json → Option (Option Json)
  | some (.str text) => if field.json then (Json.parse? text).map some else some none
  | _ => some none

/-- The value of a field, by what is stored. -/
def parsedValue (field : FieldPlan NodePlan) : Option Json → Option Json
  | some (.str text) => if field.json then Json.parse? text else some (.str text)
  | stored => stored

theorem parsedField_gives {storage : Storage} (typeName : String) (object : Object)
    (field : FieldPlan NodePlan) :
    Gives storage (parsedField typeName object field) (parsed? field (object.get? field.name)) := by
  unfold parsedField parsed?
  cases field.json with
  | false => cases object.get? field.name with
    | none => exact Gives.pure
    | some stored => cases stored <;> exact Gives.pure
  | true => cases object.get? field.name with
    | none => exact Gives.pure
    | some stored => cases stored with
      | str text =>
        simp only [↓reduceIte]
        cases Json.parse? text with
        | none => exact fun _ => rfl
        | some value => exact Gives.pure
      | _ => exact Gives.pure

theorem parsedValue_eq {field : FieldPlan NodePlan} {stored v? : Option Json}
    (h : parsed? field stored = some v?) : v?.or stored = parsedValue field stored := by
  cases stored with
  | none =>
    cases h
    rfl
  | some stored =>
    cases stored with
    | str text =>
      simp only [parsed?] at h
      simp only [parsedValue]
      split at h
      · next hjson =>
        obtain ⟨value, hvalue, rfl⟩ := Option.map_eq_some_iff.1 h
        rw [if_pos hjson, hvalue]
        rfl
      · next hjson =>
        cases h
        rw [if_neg hjson]
        rfl
    | _ =>
      cases h
      rfl

theorem parsedField_agree {storage : Storage} {many many' : List Plan.ManyPlan}
    {field field' : FieldPlan NodePlan} (hmoved : FieldMoved many many' field field')
    {object object' : Object} (hobject : SameMembers object object') (typeName : String) :
    Agree storage Eq (parsedField typeName object field) (parsedField typeName object' field') := by
  have hgives : Gives storage _ _ := parsedField_gives typeName object' field'
  have hparsed : parsed? field' = parsed? field := by
    funext stored
    unfold parsed?
    rw [hmoved.json]
  rw [hparsed, ← hmoved.name, ← hobject] at hgives
  exact (parsedField_gives typeName object field).agree hgives

/-! ### Snapshots -/

/-- The object that the transforms of a node see. -/
def snapshot (node : Node) (finish : NodeId → Session Fault Finished) : Session Fault Object := do
  let full ← Graph.withRelated finish node.plan (node.plan.fields.zip node.links) node.row
  Session.ofExcept (Graph.withParsed node.plan.typeName node.plan.fields full)

/-- What a node is finished with by its snapshot: every transform is applied to the value of its
field in the snapshot, as one of an object that is the snapshot. -/
def ended (node : Node) (caller : Caller) (parent : Object) : Session Fault Finished := do
  let values ← Graph.transformed caller node.plan.typeName parent node.plan.fields
  let full := values.foldl (fun object (name, value) => object.insert name value) parent
  pure ⟨node.row, full, Graph.output node.plan.fields full⟩

theorem finish_snapshot (node : Node) (caller : Caller) (finish : NodeId → Session Fault Finished) :
    node.finish caller finish = snapshot node finish >>= ended node caller := by
  unfold Graph.Node.finish snapshot
  rw [bind_assoc]
  rfl

theorem ended_eq (node : Node) (caller : Caller) (parent : Object) :
    ended node caller parent =
      putEach FieldPlan.name (transformedField caller node.plan.typeName parent) node.plan.fields
          parent >>= fun full =>
        pure ⟨node.row, full, Graph.output node.plan.fields full⟩ := by
  let finished (full : Object) : Session Fault Finished :=
    pure ⟨node.row, full, Graph.output node.plan.fields full⟩
  exact transformed_eq parent node.plan.fields parent finished

/-- A snapshot has under the name of every field the objects that the field leads to, finished, or
else what the row has there, and stored texts parsed; the rest is as in the row.  No transform of
the node plays a part. -/
structure IsSnapshot (storage : Storage) (finish : NodeId → Session Fault Finished) (node : Node)
    (parent : Object) : Prop where
  field : ∀ {i : Nat} {field : FieldPlan NodePlan} {link : Link},
    node.plan.fields[i]? = some field → node.links[i]? = some link →
    ∃ related, Gives storage (Graph.linkValue finish node.plan field link) (some related) ∧
      parent.get? field.name = parsedValue field (related.or (node.row.get? field.name))
  other : ∀ key ∉ node.plan.fields.map FieldPlan.name, parent.get? key = node.row.get? key

section

variable {storage : Storage} {finish finish' : NodeId → Session Fault Finished}
  {plan plan' : NodePlan} {C P : NodeId → NodeId → Prop} {node node' : Node} {caller : Caller}

theorem names_zip {fields : List (FieldPlan NodePlan)} {links : List Link}
    (hnames : (fields.map FieldPlan.name).Nodup) (hlength : fields.length ≤ links.length) :
    ((fields.zip links).map fun entry => entry.1.name).Nodup := by
  have hmap : (fields.zip links).map (fun entry => entry.1.name) = fields.map FieldPlan.name := by
    conv_rhs => rw [← List.map_fst_zip hlength, List.map_map]
    rfl
  rw [hmap]
  exact hnames

theorem snapshot_ends
    (hnames : (node.plan.fields.map FieldPlan.name).Nodup)
    (hlength : node.plan.fields.length ≤ node.links.length)
    (hgives : ∀ entry ∈ node.plan.fields.zip node.links,
      Gives storage (Graph.linkValue finish node.plan entry.1 entry.2)
        ((Graph.linkValue finish node.plan entry.1 entry.2).value? storage)) :
    Session.Ends storage (snapshot node finish) (IsSnapshot storage finish node)
      fun _ => True := by
  have hfields : (node.plan.fields.zip node.links).map Prod.fst = node.plan.fields :=
    List.map_fst_zip hlength
  unfold snapshot
  rw [withRelated_eq]
  refine ((putEach_gives hgives).ends.mono (fun _ => id) fun _ _ => trivial).bind ?_
  intro full hfull
  rw [withParsed_eq hnames fun _ _ => rfl]
  refine (putEach_gives fun field _ => parsedField_gives node.plan.typeName full field).ends.mono
    (fun parent hparent => ?_) fun _ _ => trivial
  constructor
  · intro i field link hf hl
    have hentry : (field, link) ∈ node.plan.fields.zip node.links :=
      List.mem_of_getElem? (List.getElem?_zip_eq_some.2 ⟨hf, hl⟩)
    obtain ⟨related, hrelated, hget⟩ :=
      putAll_get?_of_mem (names_zip hnames hlength) hfull hentry
    obtain ⟨v?, hparsed, hvalue⟩ :=
      putAll_get?_of_mem hnames hparent (List.mem_of_getElem? hf)
    refine ⟨related, hrelated ▸ hgives _ hentry, ?_⟩
    rw [hvalue, parsedValue_eq hparsed, hget]
  · intro key hkey
    rw [putAll_get?_of_not_mem hparent hkey, putAll_get?_of_not_mem hfull]
    rw [show (node.plan.fields.zip node.links).map (fun entry => entry.1.name) =
      ((node.plan.fields.zip node.links).map Prod.fst).map FieldPlan.name from
        (List.map_map).symm, hfields]
    exact hkey

/-- Links to objects that are finished alike lead to the same value. -/
theorem linkValue_agree {field field' : FieldPlan NodePlan} {link link' : Link}
    (hkind : KindMoved plan.many plan'.many field.kind field'.kind) (hlink : LinkCopy C link link')
    (hfinish : ∀ id id', C id id' → Agree storage Eq (finish id) (finish' id')) :
    Agree storage Eq (Graph.linkValue finish plan field link)
      (Graph.linkValue finish' plan' field' link') := by
  cases hlink with
  | value => exact Agree.pure rfl
  | pending => exact Agree.throw _ _
  | none => exact Agree.pure rfl
  | single hC =>
    refine (hfinish _ _ hC).bind ?_
    rintro child _ rfl
    exact Agree.pure rfl
  | @many ids ids' size hC =>
    have hpaging := hkind.paging?_eq
    unfold Graph.linkValue
    refine (Agree.mapM (hC.imp fun _ _ => hfinish _ _)).bind ?_
    intro children children' hchildren
    rw [List.forall₂_eq_eq_eq] at hchildren
    subst hchildren
    rw [hpaging]
    exact Agree.pure rfl

/-- Both plans take a snapshot of a node, or none does, and the snapshots have the same members. -/
theorem snapshot_agree (hplan : plan.Reordered plan') (h : NodeReordered plan plan' C node node')
    (hfinish : ∀ id id', C id id' → Agree storage Eq (finish id) (finish' id')) :
    Agree storage (fun parent parent' => SameMembers parent parent' ∧
        IsSnapshot storage finish node parent ∧ IsSnapshot storage finish' node' parent')
      (snapshot node finish) (snapshot node' finish') := by
  obtain ⟨hlength, hlength'⟩ := h.length_le hplan
  have hvalue := fun (entry entry' : FieldPlan NodePlan × Link)
      (hentry : Graph.EntryMoved plan plan' C entry entry') =>
    linkValue_agree hentry.1.kind hentry.2 hfinish
  have hright := fun entry (hentry : entry ∈ plan.fields.zip node.links) =>
    h.exists_right hplan hentry
  have hleft := fun entry' (hentry : entry' ∈ plan'.fields.zip node'.links) =>
    h.exists_left hplan hentry
  obtain ⟨rfl, rfl, hrow, -⟩ := h
  refine Agree.ends ?_ (snapshot_ends hplan.names hlength fun entry hentry => ?_)
    (snapshot_ends hplan.names' hlength' fun entry hentry => ?_)
  · unfold snapshot
    rw [withRelated_eq, withRelated_eq]
    refine (putEach_agree (names_zip hplan.names hlength) (names_zip hplan.names' hlength')
      (fun entry hentry => ?_) (fun entry' hentry => ?_) hrow).bind ?_
    · obtain ⟨entry', hentry', hmoved⟩ := hright entry hentry
      exact ⟨entry', hentry', hmoved.1.name, hvalue _ _ hmoved⟩
    · obtain ⟨entry, hentry, hmoved⟩ := hleft entry' hentry
      exact ⟨entry, hentry, hmoved.1.name, hvalue _ _ hmoved⟩
    · intro full full' hfull
      rw [withParsed_eq hplan.names fun _ _ => rfl, withParsed_eq hplan.names' fun _ _ => rfl,
        ← hplan.typeName]
      refine putEach_agree hplan.names hplan.names' (fun field hf => ?_) (fun field' hf' => ?_)
        hfull
      · obtain ⟨field', hf', hmoved⟩ := hplan.fields.exists_right hf
        exact ⟨field', hf', hmoved.name, parsedField_agree hmoved hfull _⟩
      · obtain ⟨field, hf, hmoved⟩ := hplan.fields.exists_left hf'
        exact ⟨field, hf, hmoved.name, parsedField_agree hmoved hfull _⟩
  · obtain ⟨entry', -, hmoved⟩ := hright entry hentry
    exact (hvalue _ _ hmoved).gives.1
  · obtain ⟨entry', -, hmoved⟩ := hleft entry hentry
    exact (hvalue _ _ hmoved).gives.2.1

/-! ### Finished nodes -/

/-- Finished objects with the same members. -/
structure SameFinished (finished finished' : Finished) : Prop where
  row : SameMembers finished.row finished'.row
  full : SameMembers finished.full finished'.full
  output : SameMembers finished.output finished'.output

theorem output_sameMembers {fields fields' : List (FieldPlan NodePlan)} {full full' : Object}
    (hnames : (fields.map FieldPlan.name).Perm (fields'.map FieldPlan.name))
    (h : SameMembers full full') :
    SameMembers (Graph.output fields full) (Graph.output fields' full') := by
  have hnone : ∀ {fields : List (FieldPlan NodePlan)} (full : Object) {key : String},
      key ∉ fields.map FieldPlan.name → (Graph.output fields full).get? key = none := by
    intro fields full key hkey
    refine Dictionary.lookup_eq_none ?_
    change key ∉ Dictionary.keys (Graph.output fields full)
    rw [output_keys, List.mem_eraseDups]
    exact hkey
  intro key
  by_cases hkey : key ∈ fields.map FieldPlan.name
  · rw [output_get? hkey, output_get? (hnames.mem_iff.1 hkey), h]
  · rw [hnone full hkey, hnone full' fun hmem => hkey (hnames.mem_iff.2 hmem)]

theorem transformedField_agree {many many' : List Plan.ManyPlan} {field field' : FieldPlan NodePlan}
    (hmoved : FieldMoved many many' field field')
    (hreads : ∀ t, field.transform = some t → t.ReadsMembers)
    (hlookup : LooksUpAlike storage storage) {parent parent' : Object}
    (hparent : SameMembers parent parent') (typeName : String) :
    Agree storage Eq (transformedField caller typeName parent field)
      (transformedField caller typeName parent' field') := by
  have hsame : transformedField caller typeName parent field =
      transformedField caller typeName parent' field' := by
    unfold transformedField
    rw [← hmoved.transform, ← hmoved.name, ← hparent]
    split
    · rfl
    · next t ht => rw [Transform.apply_sameMembers hparent (hreads t ht)]
  rw [hsame]
  unfold transformedField
  split
  · exact Agree.pure rfl
  · next t ht =>
    exact ((transform_alike hlookup t _ caller parent').mapError.bind_eq
      fun _ => Session.Alike.pure rfl).agree

theorem ended_agree (hplan : plan.Reordered plan') (h : NodeReordered plan plan' C node node')
    (hreads : ∀ field ∈ plan.fields, ∀ t, field.transform = some t → t.ReadsMembers)
    (hlookup : LooksUpAlike storage storage) {parent parent' : Object}
    (hparent : SameMembers parent parent') :
    Agree storage SameFinished (ended node caller parent) (ended node' caller parent') := by
  obtain ⟨rfl, rfl, hrow, -⟩ := h
  rw [ended_eq, ended_eq, ← hplan.typeName]
  refine (putEach_agree hplan.names hplan.names' (fun field hf => ?_) (fun field' hf' => ?_)
    hparent).bind fun full full' hfull => Agree.pure ⟨hrow, hfull, ?_⟩
  · obtain ⟨field', hf', hmoved⟩ := hplan.fields.exists_right hf
    exact ⟨field', hf', hmoved.name,
      transformedField_agree hmoved (hreads field hf) hlookup hparent _⟩
  · obtain ⟨field, hf, hmoved⟩ := hplan.fields.exists_left hf'
    exact ⟨field, hf, hmoved.name,
      transformedField_agree hmoved (hreads field hf) hlookup hparent _⟩
  · exact output_sameMembers (hplan.fields.map_perm fun _ _ hmoved => hmoved.name) hfull

/-- Copies are finished alike. -/
theorem copy_agree (h : NodeCopy C node node') (hlookup : LooksUpAlike storage storage)
    (hfinish : ∀ id id', C id id' → Agree storage Eq (finish id) (finish' id')) :
    Agree storage Eq (node.finish caller finish) (node'.finish caller finish') := by
  obtain ⟨plan, row, links⟩ := node
  obtain ⟨plan', row', links'⟩ := node'
  obtain ⟨rfl, rfl, hlinks⟩ := h
  have hrelated : ∀ (fields : List (FieldPlan NodePlan)) (links links' : List Link)
      (object : Object), List.Forall₂ (LinkCopy C) links links' →
      Agree storage Eq (Graph.withRelated finish plan (fields.zip links) object)
        (Graph.withRelated finish' plan (fields.zip links') object) := by
    intro fields links links' object hlinks
    induction hlinks generalizing fields object with
    | nil =>
      rw [List.zip_nil_right]
      exact Agree.pure rfl
    | cons hlink _ ih =>
      cases fields with
      | nil => exact Agree.pure rfl
      | cons field fields =>
        rw [List.zip_cons_cons, List.zip_cons_cons, Graph.withRelated, Graph.withRelated]
        have hkind := (FieldMoved.refl plan.many field).kind
        refine (linkValue_agree hkind hlink hfinish).bind ?_
        rintro value _ rfl
        cases value with
        | none => exact ih fields object
        | some value => exact ih fields _
  refine (hrelated plan.fields links links' row hlinks).bind ?_
  rintro full _ rfl
  refine Session.Alike.agree ((Session.Alike.ofExcept (.refl _)).bind_eq fun parent => ?_)
  exact (transformed_alike hlookup caller plan.typeName parent plan.fields).bind_eq
    fun _ => Session.Alike.pure rfl

theorem finishWithin_copies {g g' : Graph} (h : Reordering plan plan' P C g g')
    (hlookup : LooksUpAlike storage storage) (fuel : Nat) {id id' : NodeId} (hC : C id id') :
    Agree storage Eq (g.finishWithin caller fuel id) (g'.finishWithin caller fuel id') := by
  induction fuel generalizing id id' with
  | zero => exact Agree.throw _ _
  | succ fuel ih =>
    obtain ⟨node, node', hn, hn', hcopy⟩ := h.copies hC
    rw [Graph.finishWithin, Graph.finishWithin, hn, hn']
    exact copy_agree hcopy hlookup fun _ _ hC => ih hC

end

/-! ### Graphs -/

/-- How the objects that a node of a graph leads to are finished. -/
def finishBelow (graph : Graph) (caller : Caller) : NodeId → Session Fault Finished :=
  graph.finishWithin caller graph.nodes.size

theorem finish_below {graph : Graph} {id : NodeId} {node : Node} (hn : graph.nodes[id]? = some node)
    (caller : Caller) :
    graph.finish caller id = snapshot node (finishBelow graph caller) >>= ended node caller := by
  rw [Graph.finish, Graph.finishWithin, hn]
  exact finish_snapshot node caller _

/-- The order of the fields of a plan orders the keys of objects, and that is all.  Rows with the
same members are unpacked alike by a plan and by the plan with its fields in another order.  Nodes
of the two plans, whose rows have the same members and whose fields lead to the same, are finished
together or not at all: each by a snapshot, to whose values the transforms are applied, and which
has the same members for both; and with the same value under every name, if the transforms read
their objects as members. -/
theorem field_order_orders_keys {plan plan' : NodePlan} (hplan : plan.Reordered plan')
    {P C : NodeId → NodeId → Prop} {g g' : Graph} (hgraphs : Reordering plan plan' P C g g') :
    (∀ rows rows' : List Row, List.Forall₂ SameMembers rows rows' →
      Outcome.Agree (Reordering.Grown plan plan' P C List.Forall₂)
        ((Graph.addRows plan rows).result g) ((Graph.addRows plan' rows').result g')) ∧
    ∀ (caller : Caller) (dialect : Sql.Dialect)
      (answer : Sql.Statement → Except StorageError (List Row)),
      (∀ (id id' : NodeId) (node node' : Node), P id id' → g.nodes[id]? = some node →
        g'.nodes[id']? = some node' →
        g.finish caller id = snapshot node (finishBelow g caller) >>= ended node caller ∧
          g'.finish caller id' = snapshot node' (finishBelow g' caller) >>= ended node' caller ∧
          Agree (.ofFunction dialect answer)
            (fun parent parent' => SameMembers parent parent' ∧
              IsSnapshot (.ofFunction dialect answer) (finishBelow g caller) node parent ∧
              IsSnapshot (.ofFunction dialect answer) (finishBelow g' caller) node' parent')
            (snapshot node (finishBelow g caller)) (snapshot node' (finishBelow g' caller))) ∧
      ((∀ field ∈ plan.fields, ∀ t, field.transform = some t → t.ReadsMembers) →
        ∀ ids ids' : List NodeId, List.Forall₂ P ids ids' →
          Agree (.ofFunction dialect answer) (List.Forall₂ SameFinished)
            (ids.mapM (g.finish caller)) (ids'.mapM (g'.finish caller))) := by
  refine ⟨fun rows rows' hrows => Graph.addRows_reordered hplan hgraphs hrows,
    fun caller dialect answer => ?_⟩
  have hlookup : LooksUpAlike (.ofFunction dialect answer) (.ofFunction dialect answer) :=
    fun _ _ _ _ _ => rfl
  have hbelow : ∀ id id', C id id' → Agree (.ofFunction dialect answer) Eq
      (finishBelow g caller id) (finishBelow g' caller id') := by
    intro id id' hC
    unfold finishBelow
    rw [hgraphs.size]
    exact finishWithin_copies hgraphs hlookup _ hC
  constructor
  · intro id id' node node' hP hn hn'
    obtain ⟨_, _, hn₁, hn₁', hnode⟩ := hgraphs.nodes hP
    cases hn.symm.trans hn₁
    cases hn'.symm.trans hn₁'
    exact ⟨finish_below hn caller, finish_below hn' caller, snapshot_agree hplan hnode hbelow⟩
  · intro hreads ids ids' hids
    refine Agree.mapM (hids.imp fun id id' hP => ?_)
    obtain ⟨node, node', hn, hn', hnode⟩ := hgraphs.nodes hP
    rw [finish_below hn, finish_below hn']
    exact (snapshot_agree hplan hnode hbelow).bind fun parent parent' hparent =>
      ended_agree hplan hnode hreads hlookup hparent.1

/-! ### Posts with their fields in two orders -/

namespace TwoOrders

open Plan (FieldKind ManyPlan)

def listOf (field : String) : ManyPlan :=
  { field, parentType := "Post", target := "Comment", selection := [.scalar "body"],
    keyLabels := ["__key_id"], depth := 2, paging := none, origin := [] }

def userPlan : NodePlan := ⟨[1], "User", [{ name := "name", kind := .value }], []⟩

def commentPlan : NodePlan := ⟨[2], "Comment", [{ name := "body", kind := .value }], []⟩

/-- The number of tags, stored as the text of an array. -/
def tags : FieldPlan NodePlan :=
  { name := "tags", kind := .value, json := true, transform := some (.builtin .arrayLength) }

/-- Whom the post is shared with, for its author. -/
def shared : FieldPlan NodePlan :=
  { name := "shared", kind := .single userPlan,
    transform := some (.builtin (.nullIfNotSameUser "authorId")) }

def list (name : String) (index : Nat) : FieldPlan NodePlan := { name, kind := .many index }

def plan : NodePlan :=
  ⟨[], "Post", [tags, shared, list "comments" 0, list "notes" 1],
    [listOf "comments", listOf "notes"]⟩

def plan' : NodePlan :=
  ⟨[], "Post", [list "notes" 0, list "comments" 1, shared, tags],
    [listOf "notes", listOf "comments"]⟩

def row : Row := [("tags", .str "[1,2]"), ("authorId", .str "ann"), ("__key_id", Json.ofNat 7)]

def row' : Row := row.reverse

def user : Node := ⟨userPlan, [("name", .str "bob")], [.value]⟩

def comment : Node := ⟨commentPlan, [("body", .str "hi"), ("__pk0", Json.ofNat 7)], [.value]⟩

/-- A post, after the user that came with it and before a comment that was fetched for it. -/
def posts : Graph :=
  { nodes := #[user, ⟨plan, row, [.value, .single (some 0), .many [2] none, .many [] none]⟩,
      comment] }

def posts' : Graph :=
  { nodes := #[user, ⟨plan', row', [.many [] none, .many [2] none, .single (some 0), .value]⟩,
      comment] }

def root (id id' : NodeId) : Prop := id = 1 ∧ id' = 1

def below (id id' : NodeId) : Prop := id = id' ∧ (id = 0 ∨ id = 2)

theorem reordered : plan.Reordered plan' := by
  refine ⟨rfl, by decide, [tags, shared, list "comments" 1, list "notes" 0], ?_,
    (List.reverse_perm _).symm⟩
  exact .cons ⟨rfl, .value, rfl, rfl⟩ (.cons ⟨rfl, .single _, rfl, rfl⟩
    (.cons ⟨rfl, .many rfl, rfl, rfl⟩ (.cons ⟨rfl, .many rfl, rfl, rfl⟩ .nil)))

theorem sameMembers : SameMembers row row' :=
  Dictionary.get?_perm (by decide) (List.reverse_perm row).symm

theorem reordering : Reordering plan plan' root below posts posts' := by
  refine ⟨rfl, ?_, ?_⟩
  · rintro id id' ⟨rfl, rfl⟩
    refine ⟨_, _, rfl, rfl, rfl, rfl, sameMembers, fun {i j field field'} hf hf' hname => ?_⟩
    have hi : i < 4 := (List.getElem?_eq_some_iff.1 hf).1
    have hj : j < 4 := (List.getElem?_eq_some_iff.1 hf').1
    interval_cases i <;> interval_cases j <;> cases hf <;> cases hf' <;>
      first
      | exact absurd hname (by decide)
      | exact ⟨_, _, rfl, rfl, by constructor <;> simp [below]⟩
  · rintro id _ ⟨rfl, rfl | rfl⟩
    · exact ⟨user, user, rfl, rfl, rfl, rfl, .cons .value .nil⟩
    · exact ⟨comment, comment, rfl, rfl, rfl, rfl, .cons .value .nil⟩

end TwoOrders

/-- Posts whose fields come in two orders: one is added alike, and one that has its comment is
finished alike. -/
theorem field_order_orders_keys_posts :
    let packed : Row := ("shared", .obj [("name", .str "eve")]) :: TwoOrders.row
    let storage : Storage := .ofFunction .sqlite fun _ => .ok []
    Outcome.Agree
      (Reordering.Grown TwoOrders.plan TwoOrders.plan' (fun _ _ => False) (fun _ _ => False)
        List.Forall₂)
      ((Graph.addRows TwoOrders.plan [packed]).result {})
      ((Graph.addRows TwoOrders.plan' [packed.reverse]).result {}) ∧
    ∃ finished finished' : List Finished,
      (([1].mapM (TwoOrders.posts.finish {})).outcome storage).1 = .ok finished ∧
      (([1].mapM (TwoOrders.posts'.finish {})).outcome storage).1 = .ok finished' ∧
      finished.map (fun f => f.output.keys) = [["tags", "shared", "comments", "notes"]] ∧
      finished'.map (fun f => f.output.keys) = [["notes", "comments", "shared", "tags"]] ∧
      List.Forall₂ SameFinished finished finished' := by
  intro packed storage
  obtain ⟨hadded, -⟩ := field_order_orders_keys TwoOrders.reordered Reordering.empty
  obtain ⟨-, hfinished⟩ := field_order_orders_keys TwoOrders.reordered TwoOrders.reordering
  constructor
  · refine hadded _ _ (.cons ?_ .nil)
    exact Dictionary.get?_perm (by decide) (List.reverse_perm packed).symm
  · have hreads : ∀ field ∈ TwoOrders.plan.fields, ∀ t, field.transform = some t →
        t.ReadsMembers := by
      intro field hf t ht
      simp only [TwoOrders.plan, List.mem_cons, List.not_mem_nil, or_false] at hf
      rcases hf with rfl | rfl | rfl | rfl <;> cases ht <;>
        exact Transform.readsMembers_of_builtins? rfl
    have hagree : Outcome.Agree (List.Forall₂ SameFinished)
        (([1].mapM (TwoOrders.posts.finish {})).outcome storage).1
        (([1].mapM (TwoOrders.posts'.finish {})).outcome storage).1 :=
      (hfinished {} .sqlite fun _ => .ok []).2 hreads [1] [1] (.cons ⟨rfl, rfl⟩ .nil) [] []
    have hkeys : (([1].mapM (TwoOrders.posts.finish {})).value? storage).map
        (List.map fun f => f.output.keys) = some [["tags", "shared", "comments", "notes"]] := by
      decide +kernel
    have hkeys' : (([1].mapM (TwoOrders.posts'.finish {})).value? storage).map
        (List.map fun f => f.output.keys) = some [["notes", "comments", "shared", "tags"]] := by
      decide +kernel
    obtain ⟨finished, hok, hkeys⟩ := Option.map_eq_some_iff.1 hkeys
    obtain ⟨finished', hok', hkeys'⟩ := Option.map_eq_some_iff.1 hkeys'
    have hok := Outcome.toOption_some.1 hok
    have hok' := Outcome.toOption_some.1 hok'
    refine ⟨finished, finished', hok, hok', hkeys, hkeys', ?_⟩
    rw [hok, hok'] at hagree
    cases hagree with
    | ok hsame => exact hsame

/-! ### Where an order is seen -/

namespace Seen

/-- The keys of the object of a field, in their order. -/
def keyList : Transform :=
  .custom fun _ _ parent => .ok (.str (String.intercalate "," parent.keys))

/-- Refuse objects that end with a member of a name. -/
def refuse (name : String) : Transform := .custom fun value _ parent =>
  if parent.keys.getLast? = some name then .error (.failed name) else .ok value

def user (name : String) : FieldPlan NodePlan :=
  { name, kind := .single ⟨[], "User", [], []⟩ }

def note (transform : Transform) : FieldPlan NodePlan :=
  { name := "note", kind := .value, transform := some transform }

def plan (transform : Transform) : NodePlan :=
  ⟨[], "Post", [user "author", user "editor", note transform], []⟩

def plan' (transform : Transform) : NodePlan :=
  ⟨[], "Post", [user "editor", user "author", note transform], []⟩

/-- A post of nobody, with a hidden column. -/
def row : Row := [("author", .null), ("editor", .null), ("id", Json.ofNat 7), ("note", .str "x")]

def owner : Object := [("team", .str "a"), ("name", .str "b")]

/-- A note for its owner, who is told by an object. -/
def owned (owner : Object) : Row :=
  [("author", .null), ("editor", .null), ("owner", .obj owner), ("note", .str "x")]

def isOwner : Transform := .builtin (.nullIfNotSameUser "owner")

/-- The text of the note of a post, if the post is finished. -/
def noteOf (plan : NodePlan) (row : Row) : Option (Option String) :=
  let graph := ((Graph.addRows plan [row]).on {}).2
  let caller : Caller := { user := some (Json.obj owner).render }
  ((graph.finish caller 0).value? (.ofFunction .sqlite fun _ => .ok [])).map fun finished =>
    (finished.output.get? "note").bind Json.text?

theorem reordered (transform : Transform) : (plan transform).Reordered (plan' transform) := by
  have hnames : ["author", "editor", "note"].Nodup := by decide
  refine ⟨rfl, hnames, [user "author", user "editor", note transform], ?_, .swap _ _ _⟩
  exact .cons ⟨rfl, .single _, rfl, rfl⟩ (.cons ⟨rfl, .single _, rfl, rfl⟩
    (.cons ⟨rfl, .value, rfl, rfl⟩ .nil))

end Seen

open Seen in
/-- A transform that lists the keys of its object tells the order of the fields, also in columns
that are hidden, and one that refuses an object for its last key tells it by failing.  Transforms
that read members tell the order in objects that are values: rows that are equal but for the order
in an object have different notes. -/
theorem field_order_seen :
    (∀ transform, (plan transform).Reordered (plan' transform)) ∧
    noteOf (plan keyList) row = some (some "note,id,author,editor") ∧
    noteOf (plan' keyList) row = some (some "id,note,editor,author") ∧
    noteOf (plan (refuse "author")) row = some (some "x") ∧
    noteOf (plan' (refuse "author")) row = none ∧
    (Json.obj (owned owner)).same (.obj (owned owner.reverse)) = true ∧
    noteOf (plan isOwner) (owned owner) = some (some "x") ∧
    noteOf (plan' isOwner) (owned owner.reverse) = some none :=
  ⟨reordered, by decide +kernel, by decide +kernel, by decide +kernel, by decide +kernel,
    by decide +kernel, by decide +kernel, by decide +kernel⟩

end Resolution

end ObjectGraph
