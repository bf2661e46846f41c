import ObjectGraph.Proofs.Resolution.Ledger
import ObjectGraph.Proofs.Storage.Sessions

/-! # Finishing a node is resolving its row

Once no group waits, every list of a graph is closed, and finishing a node gives what the
reference gives for the row that the node was made of (`finish_gives`).  A node finishes through
nodes of longer places only, of which there are ever fewer (`deeper_lt`), so that as many steps
suffice as there are nodes. -/

namespace ObjectGraph

namespace Resolution

open ObjectGraph.Graph (Group Link Node NodeId)
open Plan (Environment Compiled NodePlan ManyPlan FieldPlan PlannedFor Occurs)
open Session (Alike Gives)

variable {env : Environment} {world : World} {root : NodePlan} {Q : NodePlan → Row → Prop}
  {round : Nat} {g : Graph} {sources : List Row} {storage : Storage}

/-! ### Transforms -/

/-- A storage gives the look-ups of a world. -/
def LooksUp (storage : Storage) (world : World) : Prop :=
  ∀ log table column value, storage.answer log (lookupStatement table column value) =
    world.lookup (lookupStatement table column value)

/-- Two storages answer look-ups alike. -/
def LooksUpAlike (storage storage' : Storage) : Prop :=
  ∀ log log' table column value, storage.answer log (lookupStatement table column value) =
    storage'.answer log' (lookupStatement table column value)

theorem LooksUp.alike (h : LooksUp storage world) : LooksUpAlike storage world.storage :=
  fun log _ table column value => h log table column value

section

variable {storage' : Storage} (hlookup : LooksUpAlike storage storage')

include hlookup

theorem findOneBy_alike (table column : String) (value : Json) :
    Alike storage storage' Eq (Session.findOneBy table column value)
      (Session.findOneBy table column value) := by
  have hfetch : Alike storage storage' Eq (Session.fetch (lookupStatement table column value))
      (Session.fetch (lookupStatement table column value)) := by
    intro log log'
    change Outcome.Same Eq (storage.answer log _) (storage'.answer log' _)
    rw [hlookup log log']
    exact .refl _
  exact hfetch.bind_eq fun _ => Alike.pure rfl

theorem builtin_alike (b : Builtin) (value : Json) (caller : Caller) (parent : Object) :
    Alike storage storage' Eq (b.apply value caller parent) (b.apply value caller parent) := by
  unfold Builtin.apply
  split
  · unfold Builtin.lookUp
    split
    · exact Alike.pure rfl
    · exact (findOneBy_alike hlookup _ _ _).mapError.bind_eq fun _ => Alike.pure rfl
  · split
    · exact Alike.ofExcept (.refl _)
    · exact Alike.pure rfl

/-- A transform comes to the same in both storages. -/
theorem transform_alike (t : Transform) (value : Json) (caller : Caller) (parent : Object) :
    Alike storage storage' Eq (t.apply value caller parent) (t.apply value caller parent) := by
  induction t generalizing value with
  | builtin b => exact builtin_alike hlookup b value caller parent
  | custom f => exact Alike.ofExcept (.refl _)
  | andThen first second ih₁ ih₂ => exact (ih₁ value).bind_eq fun value => ih₂ value

theorem transformed_alike (caller : Caller) (typeName : String) (object : Object)
    (fields : List (FieldPlan NodePlan)) :
    Alike storage storage' Eq (Graph.transformed caller typeName object fields)
      (Graph.transformed caller typeName object fields) := by
  induction fields with
  | nil => exact Alike.pure rfl
  | cons field fields ih =>
    unfold Graph.transformed
    split
    · exact ih
    · next t ht =>
      refine (transform_alike hlookup t _ caller object).mapError.bind_eq fun _ => ?_
      exact ih.bind_eq fun _ => Alike.pure rfl

end

/-- Transforms come to what they come to in the world. -/
theorem transformed_gives (hlookup : LooksUp storage world) (caller : Caller) (typeName : String)
    (object : Object) (fields : List (FieldPlan NodePlan)) :
    Gives storage (Graph.transformed caller typeName object fields)
      ((Graph.transformed caller typeName object fields).outcome world.storage).1.toOption :=
  fun log => congrArg Except.toOption
    (transformed_alike hlookup.alike caller typeName object fields log []).eq

/-! ### The sizes of blank pages -/

/-- Sizes of blank pages, place by place: none, or that of the pages of a follow-up there. -/
def PageSizes (env : Environment) (root : NodePlan) (blank : List Nat → Option Nat) : Prop :=
  ∀ m, Plan.Listed env root m → BlankSize env m (blank m.origin)

/-- Blank pages of a graph are reported with the sizes of their places. -/
def Reports (graph : Graph) (blank : List Nat → Option Nat) : Prop :=
  ∀ {id : NodeId} {node : Node} {i j : Nat} {children : List NodeId} {size : Option Nat}
    {m : ManyPlan}, ListLink graph id node i j (.many children size) →
    node.plan.many[j]? = some m → key? node.row m.keyLabels = none → size = blank m.origin

/-- Whether a place has a blank page of a size. -/
def BlankAt (graph : Graph) (place : List Nat) (size : Option Nat) : Prop :=
  ∃ id node i j children m, ListLink graph id node i j (.many children size) ∧
    node.plan.many[j]? = some m ∧ key? node.row m.keyLabels = none ∧ m.origin = place

theorem Ledger.list_closed {C : Closing} (h : Ledger env C root Q round [] g sources)
    (hwaiting : g.waiting = []) {id : NodeId} {node : Node} {i j : Nat} {link : Link}
    (hl : ListLink g id node i j link) :
    ∃ m children size, node.plan.many[j]? = some m ∧ link = .many children size ∧
      C.holds g sources m node.row children size := by
  rcases h.lists hl with ⟨-, hw⟩ | hclosed
  · obtain ⟨group, hg, -⟩ := hw
    rw [hwaiting] at hg
    cases hg
  · exact hclosed

section

variable {selections : List Selection} (hroot : PlannedFor env selections root)
  (horigin : root.origin = [])

include hroot horigin

theorem blankAt_unique (h : Ledger env (closing env world) root Q round [] g sources) {place : List Nat}
    {size size' : Option Nat} (hb : BlankAt g place size) (hb' : BlankAt g place size') :
    size = size' := by
  obtain ⟨id, node, i, j, children, m, hl, hm, -, ho⟩ := hb
  obtain ⟨id', node', i', j', children', m', hl', hm', -, ho'⟩ := hb'
  obtain ⟨source, hs⟩ := h.source hl.stored
  obtain ⟨source', hs'⟩ := h.source hl'.stored
  obtain ⟨r, -, hr⟩ := (h.placed hl.stored hs).occurs
  obtain ⟨r', -, hr'⟩ := (h.placed hl'.stored hs').occurs
  obtain ⟨field, hf, hk⟩ := hl.isList
  obtain ⟨field', hf', hk'⟩ := hl'.isList
  obtain ⟨hplan, rfl, -⟩ := hr.list_unique hroot horigin hr' hf hf' hk hk' hm hm' (ho.trans ho'.symm)
  have hi : i = i' := by
    obtain ⟨below, hb, -⟩ := hr.plannedFor hroot
    rw [← hplan] at hf'
    exact hb.many_unique hf hf' hk hk'
  subst hi
  exact h.uniform hl hl' hplan

/-- The blank pages of each place have one size. -/
theorem exists_reports (h : Ledger env (closing env world) root Q round [] g sources)
    (hwaiting : g.waiting = []) : ∃ blank, PageSizes env root blank ∧ Reports g blank := by
  classical
  refine ⟨fun place => if hp : ∃ size, BlankAt g place size then hp.choose else none, ?_, ?_⟩
  · rintro m ⟨r, i, j, plan, field, ho, hf, hk, hm⟩
    simp only
    split
    · next hp =>
      obtain ⟨id, node, i', j', children, m', hl, hm', hkey, hplace⟩ := hp.choose_spec
      obtain ⟨m₂, _, _, hm₂, heq, hclosed⟩ := h.list_closed hwaiting hl
      rw [hm'] at hm₂
      cases hm₂
      cases heq
      change Closed env world g sources m' node.row children _ at hclosed
      unfold Closed at hclosed
      rw [hkey] at hclosed
      obtain ⟨source, hs⟩ := h.source hl.stored
      obtain ⟨r', -, ho'⟩ := (h.placed hl.stored hs).occurs
      obtain ⟨field', hf', hk'⟩ := hl.isList
      obtain ⟨-, -, rfl⟩ := ho.list_unique hroot horigin ho' hf hf' hk hk' hm hm' hplace.symm
      exact hclosed.2
    · exact .inl rfl
  · intro id node i j children size m hl hm hkey
    have hb : BlankAt g m.origin size := ⟨id, node, i, j, children, m, hl, hm, hkey, rfl⟩
    have hp : ∃ size, BlankAt g m.origin size := ⟨size, hb⟩
    simp only [dif_pos hp]
    exact blankAt_unique hroot horigin h hb hp.choose_spec

end

/-! ### The links of a node -/

/-- The values of the links of a node, put into its row. -/
theorem withRelated_gives {blank : List Nat → Option Nat} {finish : NodeId → Session Fault Finished}
    {resolve : NodePlan → Row → Option Finished} {plan : NodePlan} {row : Row}
    {fields : List (FieldPlan NodePlan)} {links : List Link}
    {packed : List (Option (Option Row))} (object : Object)
    (h : ∀ (i : Nat) (field : FieldPlan NodePlan), fields[i]? = some field →
      ∃ link p, links[i]? = some link ∧ packed[i]? = some p ∧
        Gives storage (Graph.linkValue finish plan field link)
          (relatedValue env world blank resolve plan row (field, p))) :
    Gives storage (Graph.withRelated finish plan (fields.zip links) object)
      (((fields.zip packed).mapM (relatedValue env world blank resolve plan row)).map
        fun values => put (fields.zip values) object) := by
  induction fields generalizing links packed object with
  | nil => exact Gives.pure
  | cons field fields ih =>
    obtain ⟨link, p, hl, hp, hfirst⟩ := h 0 field rfl
    cases links with
    | nil => cases hl
    | cons _ links =>
      cases packed with
      | nil => cases hp
      | cons _ packed =>
        cases hl
        cases hp
        have hrest : ∀ object, Gives storage (Graph.withRelated finish plan (fields.zip links) object)
            (((fields.zip packed).mapM (relatedValue env world blank resolve plan row)).map
              fun values => put (fields.zip values) object) := by
          intro object
          exact ih object fun i field hf => h (i + 1) field hf
        rw [List.zip_cons_cons, List.zip_cons_cons, List.mapM_cons]
        unfold Graph.withRelated
        have hbind : ((do
              let value ← relatedValue env world blank resolve plan row (field, p)
              let values ← (fields.zip packed).mapM (relatedValue env world blank resolve plan row)
              pure (value :: values) : Option (List (Option Json))).map
            fun values => put ((field :: fields).zip values) object) =
            (relatedValue env world blank resolve plan row (field, p)).bind fun value =>
              ((fields.zip packed).mapM (relatedValue env world blank resolve plan row)).map
                fun values => put ((field, value) :: fields.zip values) object := by
          cases relatedValue env world blank resolve plan row (field, p) with
          | none => rfl
          | some value =>
            cases (fields.zip packed).mapM (relatedValue env world blank resolve plan row) <;> rfl
        rw [hbind]
        refine hfirst.bind ?_
        rintro (_ | value) -
        · exact hrest object
        · exact hrest _

section

variable {blank : List Nat → Option Nat} {finish : NodeId → Session Fault Finished}
  {resolve : NodePlan → Row → Option Finished}

theorem linkValue_many {plan : NodePlan} {field : FieldPlan NodePlan} {j : Nat} {m : ManyPlan}
    {children : List NodeId} {size : Option Nat} (hk : field.kind = .many j)
    (hm : plan.many[j]? = some m) :
    Graph.linkValue finish plan field (.many children size) =
      children.mapM finish >>= fun children =>
        pure (some (Connection.ofPaging (sized size m.paging) children)) := by
  unfold Graph.linkValue
  simp only [hk, Plan.FieldKind.paging?, hm, Option.bind_some]
  cases size <;> rfl

/-- A closed list comes to the list of the object. -/
theorem list_gives {plan : NodePlan} {field : FieldPlan NodePlan} {j : Nat} {m : ManyPlan}
    {row : Row} {children : List NodeId} {size : Option Nat} {p : Option (Option Row)}
    (hk : field.kind = .many j) (hm : plan.many[j]? = some m)
    (hclosed : Closed env world g sources m row children size)
    (hblank : key? row m.keyLabels = none → size = blank m.origin)
    (hfinish : ∀ keys compiled id source, Plan.compileMany env m keys = .ok compiled →
      Holds g sources id compiled.plan source →
      Gives storage (finish id) (resolve compiled.plan source)) :
    Gives storage (Graph.linkValue finish plan field (.many children size))
      (relatedValue env world blank resolve plan row (field, p)) := by
  rw [relatedValue_many hk hm, linkValue_many hk hm]
  unfold Closed at hclosed
  cases hkey : key? row m.keyLabels with
  | none =>
    rw [hkey] at hclosed
    obtain ⟨rfl, -⟩ := hclosed
    rw [related_none hkey, hblank hkey]
    exact Gives.pure
  | some pair =>
    obtain ⟨values, key⟩ := pair
    rw [hkey] at hclosed
    obtain ⟨compiled, hc, rfl, hchildren⟩ := hclosed
    rw [related_some hkey hc, Option.map_map]
    exact (Gives.mapM (hchildren.imp fun id source hh => hfinish _ _ _ _ hc hh)).map

/-- A node that has its related objects finishes to what its row resolves to, where they do. -/
theorem node_gives (hlookup : LooksUp storage world) {node : Node} {source : Row}
    (hrow : node.row = (unpack node.plan.typeName node.plan.fields source).1)
    (hlinks : ∀ (i : Nat) (field : FieldPlan NodePlan), node.plan.fields[i]? = some field →
      ∃ link p, node.links[i]? = some link ∧
        (unpack node.plan.typeName node.plan.fields source).2[i]? = some p ∧
        Gives storage (Graph.linkValue finish node.plan field link)
          (relatedValue env world blank resolve node.plan node.row (field, p))) :
    Gives storage (node.finish env.caller finish)
      (resolveWith env world blank resolve node.plan source) := by
  unfold Graph.Node.finish resolveWith
  simp only [← hrow]
  have hrelated := withRelated_gives node.row hlinks
  refine hrelated.map_bind fun values _ => ?_
  refine Gives.ofExcept.bind fun object _ => ?_
  refine (transformed_gives hlookup _ _ _ _).bind fun values _ => ?_
  exact Gives.pure

end

/-! ### The nodes of longer places -/

/-- The number of nodes whose place is longer. -/
def deeper (graph : Graph) (length : Nat) : Nat :=
  graph.nodes.toList.countP fun node => length < node.plan.origin.length

theorem countP_lt {α : Type} {p q : α → Bool} {xs : List α} {x : α} (hx : x ∈ xs) (hp : p x = true)
    (hq : q x = false) (h : ∀ y ∈ xs, q y = true → p y = true) : xs.countP q < xs.countP p := by
  obtain ⟨before, after, rfl⟩ := List.append_of_mem hx
  have hbefore : before.countP q ≤ before.countP p :=
    List.countP_mono_left fun y hy => h y (List.mem_append_left _ hy)
  have hafter : after.countP q ≤ after.countP p :=
    List.countP_mono_left fun y hy =>
      h y (List.mem_append_right _ (List.mem_cons_of_mem _ hy))
  simp only [List.countP_append, List.countP_cons, hp, hq]
  simp only [Bool.false_eq_true, if_false, if_true]
  omega

/-- Fewer nodes are beyond a node than beyond any that leads to it. -/
theorem deeper_lt {id : NodeId} {plan : NodePlan} {source : Row} {length : Nat}
    (h : Holds g sources id plan source) (hl : plan.origin.length = length + 1) :
    deeper g (length + 1) < deeper g length := by
  obtain ⟨node, hn, rfl⟩ := h.node
  obtain ⟨hlt, hget⟩ := Array.getElem?_eq_some_iff.1 hn
  refine countP_lt (x := node) ?_ ?_ ?_ ?_
  · rw [← hget]
    exact Array.getElem_mem_toList hlt
  · simp [hl]
  · simp [hl]
  · intro other _ ho
    simp only [decide_eq_true_eq] at ho ⊢
    omega

theorem deeper_le_size {length : Nat} : deeper g length ≤ g.nodes.size :=
  List.countP_le_length

/-! ### All nodes -/

section

variable {blank : List Nat → Option Nat}

/-- A link leads to what its field resolves to, if the nodes behind it finish so. -/
theorem linkValue_gives {finish : NodeId → Session Fault Finished}
    {resolve : NodePlan → Row → Option Finished}
    (h : Ledger env (closing env world) root Q round [] g sources) (hwaiting : g.waiting = [])
    (hreports : Reports g blank) {selections : List Selection} {id : NodeId} {node : Node}
    (hn : g.nodes[id]? = some node) (hplan : PlannedFor env selections node.plan)
    (hchild : ∀ {below : List Selection} {child : NodePlan} {row : Row} {i : Nat} {cid : NodeId},
      child.origin = node.plan.origin ++ [i] → PlannedFor env below child →
      Selection.depthOf below < Selection.depthOf selections → Holds g sources cid child row →
      Gives storage (finish cid) (resolve child row))
    {i : Nat} {field : FieldPlan NodePlan} {link : Link} {packed : Option (Option Row)}
    (hf : node.plan.fields[i]? = some field) (hl : node.links[i]? = some link)
    (hlinked : Linked g sources field packed link) :
    Gives storage (Graph.linkValue finish node.plan field link)
      (relatedValue env world blank resolve node.plan node.row (field, packed)) := by
  unfold Linked at hlinked
  cases hk : field.kind with
  | value =>
    rw [hk] at hlinked
    rw [hlinked, relatedValue_value hk]
    exact Gives.pure
  | single child =>
    rw [hk] at hlinked
    obtain ⟨ho, below, hb, hd⟩ := hplan.single_at hf hk
    rw [relatedValue_single hk]
    rcases hlinked with ⟨rfl, rfl⟩ | ⟨row, cid, rfl, rfl, hh⟩
    · exact Gives.pure
    · exact (hchild ho hb hd hh).map
  | many j =>
    have hlist : ListLink g id node i j link := ⟨hn, ⟨field, hf, hk⟩, hl⟩
    obtain ⟨m, children, size, hm, rfl, hclosed⟩ := h.list_closed hwaiting hlist
    obtain ⟨m', hm', ho, hd⟩ := hplan.many_at hf hk
    rw [hm] at hm'
    cases hm'
    refine list_gives hk hm hclosed (hreports hlist hm) ?_
    intro keys compiled cid row hc hh
    obtain ⟨hb, hcompiled⟩ := Plan.compileMany_plannedFor hc
    exact hchild (hcompiled.trans ho) hb hd hh

theorem finishWithin_gives (hlookup : LooksUp storage world)
    (h : Ledger env (closing env world) root Q round [] g sources) (hwaiting : g.waiting = [])
    (hreports : Reports g blank) {selections : List Selection} {levels fuel : Nat} {id : NodeId}
    {plan : NodePlan} {source : Row} (hholds : Holds g sources id plan source)
    (hplan : PlannedFor env selections plan) (hlevels : Selection.depthOf selections < levels)
    (hfuel : deeper g plan.origin.length < fuel) :
    Gives storage (g.finishWithin env.caller fuel id)
      (resolve env world blank levels plan source) := by
  -- on the levels; every step to a child leaves fewer nodes beyond
  induction levels generalizing selections fuel id plan source with
  | zero => omega
  | succ levels ih =>
    obtain ⟨fuel, rfl⟩ : ∃ n, fuel = n + 1 := ⟨fuel - 1, by omega⟩
    obtain ⟨node, hn, rfl⟩ := hholds.node
    have hplaced := h.placed hn hholds.source
    change Gives storage (g.finishWithin env.caller (fuel + 1) id)
      (resolveWith env world blank (resolve env world blank levels) node.plan source)
    unfold Graph.finishWithin
    rw [hn]
    refine node_gives hlookup hplaced.row fun i field hf => ?_
    obtain ⟨link, packed, hl, hp, hlinked⟩ := hplaced.linked hf
    refine ⟨link, packed, hl, hp, linkValue_gives h hwaiting hreports hn hplan ?_ hf hl hlinked⟩
    intro below child row i cid ho hb hd hh
    have hlen : child.origin.length = node.plan.origin.length + 1 := by simp [ho]
    have hlt := deeper_lt hh hlen
    exact ih hh hb (by omega) (by rw [hlen]; omega)

/-- Finishing a node is resolving the row that it was made of. -/
theorem finish_gives (hlookup : LooksUp storage world)
    (h : Ledger env (closing env world) root Q round [] g sources) (hwaiting : g.waiting = [])
    (hreports : Reports g blank) {selections : List Selection} {id : NodeId} {plan : NodePlan}
    {source : Row} (hholds : Holds g sources id plan source)
    (hplan : PlannedFor env selections plan) {levels : Nat}
    (hlevels : Selection.depthOf selections < levels) :
    Gives storage (g.finish env.caller id) (resolve env world blank levels plan source) :=
  finishWithin_gives hlookup h hwaiting hreports hholds hplan hlevels
    (Nat.lt_succ_of_le deeper_le_size)

end

end Resolution

end ObjectGraph
