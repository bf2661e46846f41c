import ObjectGraph.Proofs.Lookup
import ObjectGraph.Proofs.Resolution.Faults
import ObjectGraph.Proofs.Resolution.Finish

/-! # What an answer is put together of

An answered object is put together of its selected fields, those that are relations of other
answered objects.  `Reads` describes an object as a whole: it has the selected names as its keys, and
the value of a relation is what became, by the transform of the field, of something that meets a
specification (`RelationSpec`).  If a specification is met where there is no related object, by a
single one, and by a list with the size of its page (`RelationSpec.Sound`), then it is met all over
the answer to a request, whatever rows the storage gives (`answer_reads_ends`). -/

namespace ObjectGraph

namespace Resolution

open ObjectGraph.Graph (Link Node NodeId)
open Plan (Environment Compiled NodePlan ManyPlan FieldPlan PlannedAt)
open Schema (Relation Resolved)

/-! ### What relations lead to -/

/-- A specification of the value that a relation leads to, given that of its objects. -/
abbrev RelationSpec := Resolved → Relation → (Object → Prop) → Json → Prop

/-- What the value of a field becomes by its transform, if it has one. -/
def Becomes (storage : Storage) (caller : Caller) (related : Json) : Option Transform → Json → Prop
  | none, value => value = related
  | some transform, value => ∃ parent log log',
      transform.apply related caller parent storage log = (.ok value, log')

/-- The keys of an object are the names of some fields, each where it stands first. -/
def HasKeys (fields : List Selection) (object : Object) : Prop :=
  Dictionary.keys object = (fields.map Selection.name).eraseDups

section

variable (env : Environment) (storage : Storage) (spec : RelationSpec)

mutual

/-- The value of a selected field of a type: what a relation leads to meets the specification. -/
def FieldReads (typeName : String) : Selection → Json → Prop
  | .scalar _, _ => True
  | .nested name fields, value => ∃ resolved relation related,
      env.registry.resolve typeName name = .ok resolved ∧ resolved.relation? = some relation ∧
      Becomes storage env.caller related resolved.transform? value ∧
      spec resolved relation (fun object => HasKeys fields object ∧
        FieldsRead (resolved.view.getD relation.target) fields object) related

/-- The values of the selected fields of a type; of fields with one name the last counts. -/
def FieldsRead (typeName : String) : List Selection → Object → Prop
  | [], _ => True
  | field :: fields, object =>
    (field.name ∉ fields.map Selection.name →
      ∃ value, object.get? field.name = some value ∧ FieldReads typeName field value) ∧
    FieldsRead typeName fields object

end

/-- An object of a type has exactly the selected fields, and they meet the specification. -/
def Reads (typeName : String) (fields : List Selection) (object : Object) : Prop :=
  HasKeys fields object ∧ FieldsRead env storage spec typeName fields object

/-- The size that a list of a relation is reported with: that of its follow-ups, or none if nothing
was asked for, and then the list is empty. -/
def PageOf (resolved : Resolved) (relation : Relation) (count : Nat) (size : Option Nat) : Prop :=
  (count = 0 ∧ size = none) ∨
    ∃ target, env.registry.lookup (resolved.view.getD relation.target) = .ok target ∧
      size = some (Plan.pageCap resolved.paging? (Plan.ownLimit env.caller relation target)
        env.settings.maxRelationRows)

/-- A specification is met by whatever a relation can lead to. -/
structure RelationSpec.Sound : Prop where
  absent : ∀ {resolved : Resolved} {relation : Relation} {shape : Object → Prop},
    relation.many = false → spec resolved relation shape .null
  single : ∀ {resolved : Resolved} {relation : Relation} {shape : Object → Prop} {object : Object},
    relation.many = false → shape object → spec resolved relation shape (.obj object)
  list : ∀ {typeName name : String} {resolved : Resolved} {relation : Relation}
    {shape : Object → Prop} {children : List Finished} {size : Option Nat},
    env.registry.resolve typeName name = .ok resolved → resolved.relation? = some relation →
    relation.many = true → PageOf env resolved relation children.length size →
    (∀ child ∈ children, shape child.output) →
    spec resolved relation shape (Connection.ofPaging (sized size resolved.paging?) children)

/-- What a selected field leads to meets the specification. -/
def Leads (typeName : String) (selection : Selection) (value : Json) : Prop :=
  ∀ name below resolved relation, selection = .nested name below →
    env.registry.resolve typeName name = .ok resolved → resolved.relation? = some relation →
    spec resolved relation (Reads env storage spec (resolved.view.getD relation.target) below) value

end

section

variable {env : Environment} {storage : Storage} {spec : RelationSpec} {typeName : String}

theorem fieldsRead_of {selections : List Selection} {object : Object}
    (h : ∀ (i : Nat) (selection : Selection), selections[i]? = some selection →
      selection.name ∉ (selections.drop (i + 1)).map Selection.name →
      ∃ value, object.get? selection.name = some value ∧
        FieldReads env storage spec typeName selection value) :
    FieldsRead env storage spec typeName selections object := by
  induction selections with
  | nil => exact trivial
  | cons selection selections ih =>
    refine ⟨fun hlast => h 0 selection rfl hlast, ih fun i next hi hlast => ?_⟩
    exact h (i + 1) next hi hlast

theorem leads_nested {name : String} {below : List Selection} {resolved : Resolved}
    {relation : Relation} {value : Json} (hr : env.registry.resolve typeName name = .ok resolved)
    (hn : resolved.relation? = some relation)
    (h : spec resolved relation
      (Reads env storage spec (resolved.view.getD relation.target) below) value) :
    Leads env storage spec typeName (.nested name below) value := by
  rintro _ _ resolved' relation' ⟨⟩ hr' hn'
  cases hr.symm.trans hr'
  cases hn.symm.trans hn'
  exact h

end

/-! ### Finishing a node -/

/-- What fields lead to is in an object; of fields with one name the last counts. -/
def Related (P : Nat → Json → Prop) (fields : List (FieldPlan NodePlan)) (object : Object) : Prop :=
  ∀ (i : Nat) (field : FieldPlan NodePlan), fields[i]? = some field → field.kind ≠ .value →
    field.name ∉ (fields.drop (i + 1)).map FieldPlan.name →
    ∃ value, object.get? field.name = some value ∧ P i value

theorem Related.cons {P : Nat → Json → Prop} {first : FieldPlan NodePlan}
    {fields : List (FieldPlan NodePlan)} {object : Object}
    (hfirst : first.kind ≠ .value → first.name ∉ fields.map FieldPlan.name →
      ∃ value, object.get? first.name = some value ∧ P 0 value)
    (h : Related (fun i => P (i + 1)) fields object) : Related P (first :: fields) object := by
  intro i field hi hk hlast
  cases i with
  | zero =>
    cases hi
    exact hfirst hk hlast
  | succ i => exact h i field hi hk hlast

section

variable {storage : Storage} {caller : Caller} {finish : NodeId → Session Fault Finished}

/-- What the fields of a node lead to is put into its row, and nothing else. -/
theorem withRelated_ends {plan : NodePlan} {fault : Fault → Prop}
    {fields : List (FieldPlan NodePlan)} {links : List Link} {P : Nat → Json → Prop}
    (row : Object)
    (h : ∀ (i : Nat) (field : FieldPlan NodePlan), fields[i]? = some field →
      ∃ link, links[i]? = some link ∧
        Session.Ends storage (Graph.linkValue finish plan field link)
          (fun value? => field.kind ≠ .value → ∃ value, value? = some value ∧ P i value)
          fault) :
    Session.Ends storage (Graph.withRelated finish plan (fields.zip links) row)
      (fun object => Related P fields object ∧
        ∀ name, name ∉ fields.map FieldPlan.name → object.get? name = row.get? name)
      fault := by
  induction fields generalizing links P row with
  | nil => exact Session.Ends.pure ⟨fun i field hi => by simp at hi, fun _ _ => rfl⟩
  | cons first fields ih =>
    obtain ⟨link, hl, hfirst⟩ := h 0 first rfl
    cases links with
    | nil => cases hl
    | cons _ links =>
      cases hl
      have hrest : ∀ row, Session.Ends storage (Graph.withRelated finish plan (fields.zip links) row)
          (fun object => Related (fun i => P (i + 1)) fields object ∧
            ∀ name, name ∉ fields.map FieldPlan.name → object.get? name = row.get? name)
          fault := fun row => ih row fun i field hi => h (i + 1) field hi
      rw [List.zip_cons_cons]
      unfold Graph.withRelated
      refine hfirst.bind ?_
      rintro (_ | value) hvalue
      · refine (hrest row).mono ?_ fun _ h => h
        rintro object ⟨hrelated, hframe⟩
        refine ⟨.cons (fun hk => ?_) hrelated, fun name hname => hframe name fun hmem => ?_⟩
        · obtain ⟨_, h, -⟩ := hvalue hk
          cases h
        · exact hname (List.mem_cons_of_mem _ hmem)
      · refine (hrest (row.insert first.name value)).mono ?_ fun _ h => h
        rintro object ⟨hrelated, hframe⟩
        refine ⟨.cons (fun hk hlast => ?_) hrelated, fun name hname => ?_⟩
        · obtain ⟨_, ⟨⟩, hleads⟩ := hvalue hk
          exact ⟨value, by rw [hframe _ hlast, Dictionary.get?_insert, if_pos rfl], hleads⟩
        · rw [List.map_cons, List.mem_cons, not_or] at hname
          rw [hframe name hname.2, Dictionary.get?_insert, if_neg hname.1]

/-- Parsing changes the values of fields of JSON text only. -/
theorem withParsed_get? {typeName : String} {fields : List (FieldPlan NodePlan)}
    {object object' : Object} (h : Graph.withParsed typeName fields object = .ok object')
    {name : String} (hname : ∀ field ∈ fields, field.name = name → field.json = false) :
    object'.get? name = object.get? name := by
  induction fields generalizing object with
  | nil =>
    cases h
    rfl
  | cons field fields ih =>
    have hrest := fun f hf => hname f (List.mem_cons_of_mem field hf)
    unfold Graph.withParsed at h
    split at h
    · next hjson =>
      split at h
      · split at h
        · rw [ih h hrest, Dictionary.get?_insert, if_neg]
          rintro rfl
          rw [hname field List.mem_cons_self rfl] at hjson
          cases hjson
        · cases h
      · exact ih h hrest
    · exact ih h hrest

/-- Transformed values are those of the fields that have a transform. -/
structure Transformed (storage : Storage) (caller : Caller) (object : Object)
    (fields : List (FieldPlan NodePlan)) (values : List (String × Json)) : Prop where
  of_field : ∀ entry ∈ values, ∃ field ∈ fields, ∃ transform, field.name = entry.1 ∧
    field.transform = some transform ∧
      Becomes storage caller ((object.get? entry.1).getD .null) (some transform) entry.2
  all : ∀ field ∈ fields, ∀ transform, field.transform = some transform →
    field.name ∈ values.map Prod.fst

theorem transformed_ends (typeName : String) (object : Object)
    (fields : List (FieldPlan NodePlan)) :
    Session.Ends storage (Graph.transformed caller typeName object fields)
      (Transformed storage caller object fields) (fun e => ¬e.IsGap) := by
  induction fields with
  | nil => exact Session.Ends.pure ⟨(fun _ h => nomatch h), fun _ h => nomatch h⟩
  | cons field fields ih =>
    unfold Graph.transformed
    have hrest : ∀ {values : List (String × Json)} {entry : String × Json},
        Transformed storage caller object fields values → entry ∈ values →
        ∃ f ∈ field :: fields, ∃ transform, f.name = entry.1 ∧ f.transform = some transform ∧
          Becomes storage caller ((object.get? entry.1).getD .null) (some transform) entry.2 := by
      intro values entry h hentry
      obtain ⟨f, hf, hvalue⟩ := h.of_field entry hentry
      exact ⟨f, List.mem_cons_of_mem _ hf, hvalue⟩
    split
    · next hnone =>
      refine ih.mono (fun values h => ⟨fun entry hentry => hrest h hentry, ?_⟩) fun _ h => h
      intro f hf transform htransform
      rcases List.mem_cons.1 hf with rfl | hf
      · cases hnone.symm.trans htransform
      · exact h.all f hf transform htransform
    · next transform htransform =>
      refine (Session.Ends.mapError fun _ => id).bind ?_
      rintro value ⟨log, log', happly⟩
      refine ih.bind fun values h => Session.Ends.pure ⟨fun entry hentry => ?_, ?_⟩
      · rcases List.mem_cons.1 hentry with rfl | hentry
        · exact ⟨field, List.mem_cons_self, transform, rfl, htransform, object, log, log', happly⟩
        · exact hrest h hentry
      · intro f hf transform' htransform'
        rw [List.map_cons]
        rcases List.mem_cons.1 hf with rfl | hf
        · exact List.mem_cons_self
        · exact List.mem_cons_of_mem _ (h.all f hf transform' htransform')

/-- Where all fields of a name have one transform, the value of the name becomes what the transform
makes of it. -/
theorem Transformed.becomes {object : Object} {fields : List (FieldPlan NodePlan)}
    {values : List (String × Json)} (h : Transformed storage caller object fields values)
    {name : String} {transform : Option Transform} {related : Json}
    (hrelated : object.get? name = some related) (hname : ∃ field ∈ fields, field.name = name)
    (hfields : ∀ field ∈ fields, field.name = name → field.transform = transform) :
    ∃ value, Dictionary.get? (values.foldl (fun object item => object.insert item.1 item.2) object)
        name = some value ∧ Becomes storage caller related transform value := by
  by_cases hmem : name ∈ values.map Prod.fst
  · obtain ⟨value, hentry, hvalue⟩ := Dictionary.get?_foldl_insert_of_mem values object hmem
    obtain ⟨field, hf, t, hfield, ht, hbecomes⟩ := h.of_field _ hentry
    rw [hrelated] at hbecomes
    rw [hfields field hf hfield] at ht
    exact ⟨value, hvalue, ht ▸ hbecomes⟩
  · refine ⟨related, (Dictionary.get?_foldl_insert values object hmem).trans hrelated, ?_⟩
    obtain ⟨field, hf, rfl⟩ := hname
    cases ht : field.transform with
    | some t => exact absurd (h.all field hf t ht) hmem
    | none =>
      rw [← hfields field hf rfl, ht]
      exact rfl

theorem output_keys (fields : List (FieldPlan NodePlan)) (object : Object) :
    Dictionary.keys (Graph.output fields object) = (fields.map FieldPlan.name).eraseDups := by
  unfold Graph.output
  rw [Dictionary.keys_ofList, List.map_map]
  rfl

theorem output_get? {fields : List (FieldPlan NodePlan)} {object : Object} {name : String}
    (h : name ∈ fields.map FieldPlan.name) :
    (Graph.output fields object).get? name = some ((object.get? name).getD .null) := by
  refine Dictionary.get?_ofList (f := fun name => (object.get? name).getD .null) ?_ ?_
  · intro entry he
    obtain ⟨field, -, rfl⟩ := List.mem_map.1 he
    rfl
  · rw [List.map_map]
    exact h

/-- A relation is answered with what its transform makes of what it leads to. -/
theorem fieldReads_of_leads {env : Environment} {spec : RelationSpec} {depth : Nat}
    {selections : List Selection} {plan : NodePlan} (hplan : PlannedAt env depth selections plan)
    {related parsed : Object} {values : List (String × Json)}
    (hparsed : Graph.withParsed plan.typeName plan.fields related = .ok parsed)
    (hvalues : Transformed storage caller parsed plan.fields values) (hcaller : caller = env.caller)
    {name : String} {below : List Selection} {resolved : Resolved} {relation : Relation}
    (hr : env.registry.resolve plan.typeName name = .ok resolved)
    (hn : resolved.relation? = some relation) (hname : name ∈ plan.fields.map FieldPlan.name)
    {value : Json} (hvalue : related.get? name = some value)
    (hleads : Leads env storage spec plan.typeName (.nested name below) value) :
    FieldReads env storage spec plan.typeName (.nested name below)
      (((values.foldl (fun object item => object.insert item.1 item.2) parsed).get? name).getD
        .null) := by
  subst hcaller
  have hfields : ∀ field ∈ plan.fields, field.name = name →
      field.json = false ∧ field.transform = resolved.transform? := by
    rintro field hf rfl
    exact hplan.relation_field hf hr hn
  have hparsed' : parsed.get? name = some value :=
    (withParsed_get? hparsed fun f hf hname => (hfields f hf hname).1).trans hvalue
  obtain ⟨value', hfull, hbecomes⟩ := hvalues.becomes hparsed' (List.mem_map.1 hname)
    fun f hf hname => (hfields f hf hname).2
  refine ⟨resolved, relation, value, hr, hn, ?_, hleads name below resolved relation rfl hr hn⟩
  rw [hfull]
  exact hbecomes

/-- A node whose fields lead to what meets the specification is finished with an object that reads
as specified. -/
theorem node_finish_ends {env : Environment} {spec : RelationSpec} {depth : Nat}
    {selections : List Selection} {node : Node}
    (hplan : PlannedAt env depth selections node.plan)
    (h : ∀ (i : Nat) (field : FieldPlan NodePlan), node.plan.fields[i]? = some field →
      ∃ link, node.links[i]? = some link ∧
        Session.Ends storage (Graph.linkValue finish node.plan field link)
          (fun value? => field.kind ≠ .value → ∃ value, value? = some value ∧
            ∀ selection, selections[i]? = some selection →
              Leads env storage spec node.plan.typeName selection value)
          (fun e => ¬e.IsGap)) :
    Session.Ends storage (node.finish env.caller finish)
      (fun finished => Reads env storage spec node.plan.typeName selections finished.output)
      (fun e => ¬e.IsGap) := by
  unfold Graph.Node.finish
  refine (withRelated_ends node.row h).bind ?_
  rintro related ⟨hrelated, -⟩
  have hparses : Session.Ends storage
      (Session.ofExcept (Graph.withParsed node.plan.typeName node.plan.fields related))
      (fun parsed => Graph.withParsed node.plan.typeName node.plan.fields related = .ok parsed)
      (fun e => ¬e.IsGap) := by
    refine Session.Ends.ofExcept (fun _ h => h) fun e he => ?_
    obtain ⟨_, -, rfl⟩ := Graph.withParsed_error he
    exact id
  refine hparses.bind fun parsed hparsed => ?_
  refine (transformed_ends _ _ _).bind fun values hvalues => Session.Ends.pure ?_
  have hnames := hplan.names
  refine ⟨?_, fieldsRead_of fun i selection hi hlast => ?_⟩
  · unfold HasKeys
    rw [← hnames]
    exact output_keys _ _
  · obtain ⟨field, hf⟩ := hplan.exists_field hi
    obtain ⟨mapping, _, hi', hp⟩ := hplan.field_at hf
    cases hi.symm.trans hi'
    have hmem : selection.name ∈ node.plan.fields.map FieldPlan.name := by
      rw [hnames]
      exact List.mem_map_of_mem (List.mem_of_getElem? hi)
    refine ⟨_, output_get? hmem, ?_⟩
    -- of the entries of one name, the last leads to the value that is put into the row
    have hleads : field.kind ≠ .value → ∃ value, related.get? selection.name = some value ∧
        Leads env storage spec node.plan.typeName selection value := by
      intro hk
      rw [← hp.name_eq, List.map_drop, ← hnames, ← List.map_drop] at hlast
      obtain ⟨value, hvalue, hleads⟩ := hrelated i field hf hk hlast
      exact ⟨value, by rwa [← hp.name_eq], hleads selection hi⟩
    cases hp with
    | value _ _ => exact trivial
    | many hr hn _ _ =>
      obtain ⟨value, hvalue, hleads⟩ := hleads fun hk => nomatch hk
      exact fieldReads_of_leads hplan hparsed hvalues rfl hr hn hmem hvalue hleads
    | single hr hn _ _ _ =>
      obtain ⟨value, hvalue, hleads⟩ := hleads fun hk => nomatch hk
      exact fieldReads_of_leads hplan hparsed hvalues rfl hr hn hmem hvalue hleads

end

/-! ### Finishing the nodes of a graph -/

/-- The size of a closed list is that of the pages of its relation. -/
theorem Followed.pageOf {env : Environment} {g : Graph} {sources : List Row} {m : ManyPlan}
    {children : List NodeId} {size : Option Nat} {resolved : Resolved} {relation : Relation}
    (h : Followed env g sources m children size)
    (hr : env.registry.resolve m.parentType m.field = .ok resolved)
    (hn : resolved.relation? = some relation)
    (htarget : m.target = resolved.view.getD relation.target)
    (hpaging : m.paging = resolved.paging?) :
    PageOf env resolved relation children.length size := by
  rcases h.sized with ⟨rfl, hsize⟩ | ⟨keys, compiled, hc, hsize⟩
  · exact .inl ⟨rfl, hsize⟩
  · obtain ⟨resolved', relation', target, hr', hn', hl, hcap⟩ := Plan.compileMany_pageSize hc
    cases hr.symm.trans hr'
    cases hn.symm.trans hn'
    rw [htarget] at hl
    rw [hpaging] at hcap
    exact .inr ⟨target, hl, hsize.trans hcap⟩

section

variable {env : Environment} {root : NodePlan} {Q : NodePlan → Row → Prop} {round : Nat}
  {g : Graph} {sources : List Row} {storage : Storage} {spec : RelationSpec}

/-- What a field of a node leads to meets the specification, if the objects there read as
specified. -/
theorem linkValue_ends {finish : NodeId → Session Fault Finished} (hsound : spec.Sound env)
    (h : Ledger env (followed env) root Q round [] g sources) (hwaiting : g.waiting = [])
    {depth : Nat} {selections : List Selection} {id : NodeId} {node : Node}
    (hn : g.nodes[id]? = some node) (hplan : PlannedAt env depth selections node.plan)
    (hfinish : ∀ {depth' : Nat} {below : List Selection} {child : NodePlan} {row : Row} {i : Nat}
      {cid : NodeId}, child.origin = node.plan.origin ++ [i] → PlannedAt env depth' below child →
      Holds g sources cid child row →
      Session.Ends storage (finish cid)
        (fun finished => Reads env storage spec child.typeName below finished.output)
        (fun e => ¬e.IsGap))
    {i : Nat} {field : FieldPlan NodePlan} {selection : Selection} {link : Link}
    {packed : Option (Option Row)} (hf : node.plan.fields[i]? = some field)
    (hi : selections[i]? = some selection) (hl : node.links[i]? = some link)
    (hlinked : Linked g sources field packed link) :
    Session.Ends storage (Graph.linkValue finish node.plan field link)
      (fun value? => field.kind ≠ .value → ∃ value, value? = some value ∧
        Leads env storage spec node.plan.typeName selection value)
      (fun e => ¬e.IsGap) := by
  obtain ⟨mapping, _, hi', hp⟩ := hplan.field_at hf
  cases hi.symm.trans hi'
  unfold Linked at hlinked
  cases hp with
  | value _ _ =>
    rw [show link = .value from hlinked]
    exact Session.Ends.pure fun hk => absurd rfl hk
  | @single name resolved relation _ below _ _ hr hrelation hmany _ hbelow =>
    rcases hlinked with ⟨-, rfl⟩ | ⟨row, cid, -, rfl, hh⟩
    · exact Session.Ends.pure fun _ =>
        ⟨.null, rfl, leads_nested hr hrelation (hsound.absent hmany)⟩
    · refine (hfinish rfl ⟨_, hbelow⟩ hh).bind fun finished hfinished => Session.Ends.pure ?_
      exact fun _ => ⟨_, rfl, leads_nested hr hrelation (hsound.single hmany hfinished)⟩
  | @many name resolved relation below j hr hrelation hmany hm =>
    obtain ⟨m, children, size, hm', rfl, hclosed⟩ :=
      h.list_closed hwaiting ⟨hn, ⟨_, hf, rfl⟩, hl⟩
    cases hm.symm.trans hm'
    rw [linkValue_many rfl hm]
    have hchildren : ∀ cid ∈ children, Session.Ends storage (finish cid)
        (fun finished => Reads env storage spec (resolved.view.getD relation.target) below
          finished.output) (fun e => ¬e.IsGap) := by
      intro cid hcid
      obtain ⟨keys, compiled, row, hc, hh⟩ := hclosed.objects cid hcid
      obtain ⟨horigin, htype, -⟩ := Plan.compileMany_planned hc
      have hends := hfinish horigin (Plan.compileMany_plannedAt hc) hh
      rw [htype] at hends
      exact hends
    refine (Session.Ends.mapM hchildren).bind fun finished hfinished => Session.Ends.pure ?_
    have hpage : PageOf env resolved relation children.length size :=
      hclosed.pageOf hr hrelation rfl rfl
    rw [hfinished.length_eq] at hpage
    refine fun _ => ⟨_, rfl, leads_nested hr hrelation ?_⟩
    refine hsound.list hr hrelation hmany hpage fun child hc => ?_
    obtain ⟨_, -, hchild⟩ := Outcome.forall₂_mem hfinished.flip hc
    exact hchild

/-- Once no group waits, every node is finished with an object that reads as specified, unless
something other than a gap is in the way. -/
theorem finishWithin_ends (hsound : spec.Sound env)
    (h : Ledger env (followed env) root Q round [] g sources)
    (hwaiting : g.waiting = []) {depth fuel : Nat} {selections : List Selection} {id : NodeId}
    {node : Node} (hn : g.nodes[id]? = some node)
    (hplan : PlannedAt env depth selections node.plan)
    (hfuel : deeper g node.plan.origin.length < fuel) :
    Session.Ends storage (g.finishWithin env.caller fuel id)
      (fun finished => Reads env storage spec node.plan.typeName selections finished.output)
      (fun e => ¬e.IsGap) := by
  induction fuel generalizing depth selections id node with
  | zero => omega
  | succ fuel ih =>
    unfold Graph.finishWithin
    rw [hn]
    obtain ⟨source, hsource⟩ := h.source hn
    -- every object that the node leads to has a longer place
    have hchild : ∀ {depth' : Nat} {below : List Selection} {child : NodePlan} {row : Row} {i : Nat}
        {cid : NodeId}, child.origin = node.plan.origin ++ [i] → PlannedAt env depth' below child →
        Holds g sources cid child row →
        Session.Ends storage (g.finishWithin env.caller fuel cid)
          (fun finished => Reads env storage spec child.typeName below finished.output)
          (fun e => ¬e.IsGap) := by
      intro depth' below child row i cid ho hb hh
      have hlength : child.origin.length = node.plan.origin.length + 1 := by simp [ho]
      have hlt := deeper_lt hh hlength
      obtain ⟨node', hn', rfl⟩ := hh.node
      exact ih hn' hb (by rw [hlength]; omega)
    refine node_finish_ends hplan fun i field hf => ?_
    obtain ⟨link, packed, hl, -, hlinked⟩ := (h.placed hn hsource).linked hf
    obtain ⟨mapping, selection, hi, -⟩ := hplan.field_at hf
    refine ⟨link, hl, (linkValue_ends hsound h hwaiting hn hplan hchild hf hi hl hlinked).mono
      (fun value? hvalue hk => ?_) fun _ h => h⟩
    obtain ⟨value, hvalue, hleads⟩ := hvalue hk
    refine ⟨value, hvalue, fun selection' hi' => ?_⟩
    cases hi.symm.trans hi'
    exact hleads

end

/-! ### Answers -/

section

variable {env : Environment} {request : Request} {filter : Option Schema.TypeFilter}
  {storage : Storage} {spec : RelationSpec}

/-- Gathering the objects of a request ends with a graph in which no group waits. -/
theorem gather_followed {root : Compiled}
    (hcompile : Plan.compileRoot env request filter = .ok root)
    (rows : List Row) :
    Session.Ends storage (gather env request root.plan rows)
      (fun p => (∃ last, Kept env root.plan last [] p.2) ∧ p.2.waiting = [] ∧
        ∀ id ∈ p.1, ∃ node, p.2.nodes[id]? = some node ∧ node.plan = root.plan)
      (fun e => ¬e.IsGap) := by
  have hadded := kept_addRows hcompile rows
  have hgrowing : growing (Graph.addRows root.plan rows) {} =
      Session.ofExcept ((Graph.addRows root.plan rows).result {}) := rfl
  unfold gather
  rw [hgrowing]
  cases hresult : (Graph.addRows root.plan rows).result {} with
  | error e =>
    rw [hresult] at hadded
    exact fun _ => hadded
  | ok p =>
    obtain ⟨roots, g⟩ := p
    rw [hresult] at hadded
    obtain ⟨hkept, hroots⟩ := hadded
    rw [Session.ofExcept_bind]
    have hbound : request.depth ≤ 0 + 1 + request.depth := by omega
    refine (hkept.rounds_ends hcompile hbound).bind ?_
    rintro g' ⟨⟨last, hkept', hkeeps⟩, hwaiting⟩
    refine Session.Ends.pure ⟨⟨last, hkept'⟩, hwaiting, fun id hid => ?_⟩
    obtain ⟨node, hn, hp⟩ := hroots id hid
    obtain ⟨node', hn', hp', -⟩ := hkeeps id node hn
    exact ⟨node', hn', hp'.trans hp⟩

/-- A request is answered with objects that read as specified, or it fails for something other than a
gap. -/
theorem answer_reads_ends (hsound : spec.Sound env) :
    Session.Ends storage (answer env request filter)
      (fun objects => ∀ object ∈ objects,
        Reads env storage spec request.typeName request.fields object)
      (fun e => ¬e.IsGap) := by
  rw [answer_eq]
  unfold fetchAll
  rw [bind_assoc]
  cases hcompile : Plan.compileRoot env request filter with
  | error e => exact fun _ => id
  | ok root =>
    change Session.Ends storage (Session.ofExcept (.ok root) >>= _) _ _
    rw [Session.ofExcept_bind, bind_assoc]
    refine (Session.Ends.mapError fun _ => id).bind fun rows _ => ?_
    refine (gather_followed hcompile rows).bind ?_
    rintro ⟨roots, g⟩ ⟨⟨last, sources, h⟩, hwaiting, hroots⟩
    unfold finishRoots
    have hplan := Plan.compileRoot_plannedAt hcompile
    obtain ⟨-, htype, -⟩ := Plan.compileRoot_planned hcompile
    have hfinish : ∀ id ∈ roots, Session.Ends storage (g.finish env.caller id)
        (fun finished => Reads env storage spec request.typeName request.fields finished.output)
        (fun e => ¬e.IsGap) := by
      intro id hid
      obtain ⟨node, hn, hp⟩ := hroots id hid
      rw [← htype, ← hp]
      rw [← hp] at hplan
      exact finishWithin_ends hsound h hwaiting hn hplan (Nat.lt_succ_of_le deeper_le_size)
    refine (Session.Ends.mapM hfinish).bind fun finished hfinished => Session.Ends.pure ?_
    intro object hobject
    obtain ⟨child, hc, rfl⟩ := List.mem_map.1 hobject
    obtain ⟨_, -, hchild⟩ := Outcome.forall₂_mem hfinished.flip hc
    exact hchild

end

end Resolution

end ObjectGraph
