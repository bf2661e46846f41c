import ObjectGraph.Proofs.Graph.Changes
import ObjectGraph.Proofs.Resolution.Reference

/-! # The ledger of a graph

While a request is answered, a graph is read against the list of the rows that its nodes were made
of.  `Ledger` says what holds of both between any two steps: every node stands at a place of the
request and has its single related objects; every list is open, and then its node is in a group
that waits for it, or closed, as a `Closing` says: with the rows that a world has for the key of the
node (`closing`), or with whatever a follow-up gave.  The two changes of a graph keep the ledger: a
new node (`Ledger.push`) and the lists of a group (`Ledger.close`). -/

namespace ObjectGraph

namespace Resolution

open ObjectGraph.Graph (Group Link Node NodeId Waits setLinks pushed pushed_node)
open Plan (Environment Compiled NodePlan ManyPlan FieldPlan PlannedFor Occurs)

/-! ### Nodes and their rows -/

/-- A node of a plan that was made of a row. -/
structure Holds (graph : Graph) (sources : List Row) (id : NodeId) (plan : NodePlan)
    (source : Row) : Prop where
  node : ∃ node, graph.nodes[id]? = some node ∧ node.plan = plan
  source : sources[id]? = some source

/-- A graph has the nodes of another, at most with other links. -/
structure Extends (graph : Graph) (sources : List Row) (graph' : Graph) (sources' : List Row) :
    Prop where
  nodes : graph.Keeps graph'
  sources : ∀ (id : NodeId) (source : Row), sources[id]? = some source →
    sources'[id]? = some source

section

variable {g g' g'' : Graph} {sources sources' sources'' : List Row}

theorem Extends.refl : Extends g sources g sources := ⟨Graph.Keeps.refl, fun _ _ h => h⟩

theorem Extends.trans (h : Extends g sources g' sources')
    (h' : Extends g' sources' g'' sources'') : Extends g sources g'' sources'' :=
  ⟨h.nodes.trans h'.nodes, fun id source hs => h'.sources id source (h.sources id source hs)⟩

theorem Holds.mono {id : NodeId} {plan : NodePlan} {source : Row}
    (h : Holds g sources id plan source) (he : Extends g sources g' sources') :
    Holds g' sources' id plan source := by
  obtain ⟨node, hn, hp⟩ := h.node
  obtain ⟨node', hn', hp', -⟩ := he.nodes id node hn
  exact ⟨⟨node', hn', hp'.trans hp⟩, he.sources id source h.source⟩

end

/-- The link of a field that is no list, by what is packed into the row. -/
def Linked (graph : Graph) (sources : List Row) (field : FieldPlan NodePlan)
    (packed : Option (Option Row)) (link : Link) : Prop :=
  match field.kind with
  | .value => link = .value
  | .single child =>
    (packed = some none ∧ link = .single none) ∨
      ∃ row id, packed = some (some row) ∧ link = .single (some id) ∧
        Holds graph sources id child row
  | .many _ => True

theorem Linked.mono {g g' : Graph} {sources sources' : List Row} {field : FieldPlan NodePlan}
    {packed : Option (Option Row)} {link : Link} (h : Linked g sources field packed link)
    (he : Extends g sources g' sources') : Linked g' sources' field packed link := by
  unfold Linked at h ⊢
  split
  · next hk =>
    rw [hk] at h
    exact h
  · next child hk =>
    rw [hk] at h
    rcases h with h | ⟨row, id, hp, hl, hh⟩
    · exact .inl h
    · exact .inr ⟨row, id, hp, hl, hh.mono he⟩
  · trivial

/-- A page of no follow-up is reported with no size, or with that of a follow-up of its list. -/
def BlankSize (env : Environment) (m : ManyPlan) (size : Option Nat) : Prop :=
  size = none ∨ ∃ keys compiled, Plan.compileMany env m keys = .ok compiled ∧
    size = compiled.pageSize

/-- The closed list of an object: the rows of its key, or nothing where it has none. -/
def Closed (env : Environment) (world : World) (graph : Graph) (sources : List Row) (m : ManyPlan)
    (row : Row) (children : List NodeId) (size : Option Nat) : Prop :=
  match key? row m.keyLabels with
  | none => children = [] ∧ BlankSize env m size
  | some (values, key) => ∃ compiled, Plan.compileMany env m [values] = .ok compiled ∧
      size = compiled.pageSize ∧
      List.Forall₂ (fun id source => Holds graph sources id compiled.plan source) children
        (world.children m.origin key)

theorem Closed.mono {env : Environment} {world : World} {g g' : Graph}
    {sources sources' : List Row} {m : ManyPlan} {row : Row} {children : List NodeId}
    {size : Option Nat} (h : Closed env world g sources m row children size)
    (he : Extends g sources g' sources') : Closed env world g' sources' m row children size := by
  unfold Closed at h ⊢
  split
  · next hk =>
    rw [hk] at h
    exact h
  · next values key hk =>
    rw [hk] at h
    obtain ⟨compiled, hc, hs, hch⟩ := h
    exact ⟨compiled, hc, hs, hch.imp fun _ _ hh => hh.mono he⟩

/-- What it takes to close the list of an object: the objects in it and the size of their page. -/
structure Closing where
  holds : Graph → List Row → ManyPlan → Row → List NodeId → Option Nat → Prop
  mono : ∀ {g g' : Graph} {sources sources' : List Row} {m : ManyPlan} {row : Row}
    {children : List NodeId} {size : Option Nat}, holds g sources m row children size →
    Extends g sources g' sources' → holds g' sources' m row children size
  blank : ∀ {g : Graph} {sources : List Row} {m : ManyPlan} {row : Row},
    key? row m.keyLabels = none → holds g sources m row [] none

/-- Closing lists with what a world has for the keys of their objects. -/
def closing (env : Environment) (world : World) : Closing where
  holds := Closed env world
  mono := Closed.mono
  blank := by
    intro g sources m row hk
    unfold Closed
    rw [hk]
    exact ⟨rfl, .inl rfl⟩

/-! ### Properties of objects -/

/-- A property of objects that passes to the related objects. -/
structure Inherited (env : Environment) (world : World) (Q : NodePlan → Row → Prop) : Prop where
  single : ∀ {plan child : NodePlan} {source row : Row} {i : Nat} {field : FieldPlan NodePlan},
    Q plan source → plan.fields[i]? = some field → field.kind = .single child →
    (unpack plan.typeName plan.fields source).2[i]? = some (some (some row)) → Q child row
  many : ∀ {plan : NodePlan} {source row : Row} {i j : Nat} {field : FieldPlan NodePlan}
    {m : ManyPlan} {values : List Json} {key : String} {keys : List (List Json)}
    {compiled : Compiled}, Q plan source → plan.fields[i]? = some field → field.kind = .many j →
    plan.many[j]? = some m →
    key? (unpack plan.typeName plan.fields source).1 m.keyLabels = some (values, key) →
    Plan.compileMany env m keys = .ok compiled → row ∈ world.children m.origin key →
    Q compiled.plan row

/-- A property of objects that are unpacked, and whose lists have statements. -/
structure Sufficient (env : Environment) (Q : NodePlan → Row → Prop) : Prop where
  single : ∀ {plan child : NodePlan} {source : Row} {i : Nat} {field : FieldPlan NodePlan},
    Q plan source → plan.fields[i]? = some field → field.kind = .single child →
    (unpack plan.typeName plan.fields source).2[i]? ≠ some none
  many : ∀ {plan : NodePlan} {source : Row} {i j : Nat} {field : FieldPlan NodePlan}
    {m : ManyPlan} {values : List Json} {key : String}, Q plan source →
    plan.fields[i]? = some field → field.kind = .many j → plan.many[j]? = some m →
    key? (unpack plan.typeName plan.fields source).1 m.keyLabels = some (values, key) →
    ∃ compiled, Plan.compileMany env m [values] = .ok compiled

/-! ### The ledger -/

/-- A node stands at a place of the request, and has its single related objects. -/
structure Placed (env : Environment) (root : NodePlan) (Q : NodePlan → Row → Prop) (round : Nat)
    (graph : Graph) (sources : List Row) (node : Node) (source : Row) : Prop where
  occurs : ∃ r ≤ round, Occurs env root r node.plan
  holds : Q node.plan source
  row : node.row = (unpack node.plan.typeName node.plan.fields source).1
  linked : ∀ {i : Nat} {field : FieldPlan NodePlan}, node.plan.fields[i]? = some field →
    ∃ link packed, node.links[i]? = some link ∧
      (unpack node.plan.typeName node.plan.fields source).2[i]? = some packed ∧
      Linked graph sources field packed link

/-- A group is for a list of a plan, and its parents are nodes of the plan. -/
structure Grouped (env : Environment) (root : NodePlan) (round : Nat) (graph : Graph)
    (group : Group) : Prop where
  occurs : Occurs env root round group.plan
  list : ∃ (i : Nat) (field : FieldPlan NodePlan) (m : ManyPlan),
    group.plan.fields[i]? = some field ∧ field.kind = .many group.index ∧
      group.plan.many[group.index]? = some m
  parents : ∀ id ∈ group.parents, ∃ node, graph.nodes[id]? = some node ∧ node.plan = group.plan

/-- A node has a link to a list. -/
structure ListLink (graph : Graph) (id : NodeId) (node : Node) (i j : Nat) (link : Link) :
    Prop where
  stored : graph.nodes[id]? = some node
  isList : ∃ field : FieldPlan NodePlan, node.plan.fields[i]? = some field ∧ field.kind = .many j
  linked : node.links[i]? = some link

/-- What holds of a graph and the rows of its nodes in a round, while some groups of the round
before are still to be served. -/
structure Ledger (env : Environment) (C : Closing) (root : NodePlan)
    (Q : NodePlan → Row → Prop) (round : Nat) (todo : List Group) (graph : Graph)
    (sources : List Row) : Prop where
  sized : sources.length = graph.nodes.size
  placed : ∀ {id : NodeId} {node : Node} {source : Row}, graph.nodes[id]? = some node →
    sources[id]? = some source → Placed env root Q round graph sources node source
  lists : ∀ {id : NodeId} {node : Node} {i j : Nat} {link : Link},
    ListLink graph id node i j link →
    (link = .pending ∧ Waits (todo ++ graph.waiting) (node.plan.origin, j) id) ∨
      ∃ m children size, node.plan.many[j]? = some m ∧ link = .many children size ∧
        C.holds graph sources m node.row children size
  todo_grouped : ∀ group ∈ todo, ∃ r, r + 1 = round ∧ Grouped env root r graph group
  waiting_grouped : ∀ group ∈ graph.waiting, Grouped env root round graph group
  todo_nodup : (todo.map Group.place).Nodup
  waiting_nodup : (graph.waiting.map Group.place).Nodup
  /-- No list of a place is closed before its group is served. -/
  todo_open : ∀ group ∈ todo, ∀ {id : NodeId} {node : Node} {i : Nat} {link : Link},
    ListLink graph id node i group.index link → node.plan = group.plan → link = .pending
  /-- No list of a node of this round is closed. -/
  fresh : ∀ {id : NodeId} {node : Node} {i j : Nat} {link : Link},
    ListLink graph id node i j link → Occurs env root round node.plan → link = .pending
  /-- The closed lists of a place are reported with one size of a page. -/
  uniform : ∀ {id id' : NodeId} {node node' : Node} {i j : Nat} {children children' : List NodeId}
    {size size' : Option Nat}, ListLink graph id node i j (.many children size) →
    ListLink graph id' node' i j (.many children' size') → node.plan = node'.plan → size = size'

section

variable {env : Environment} {C : Closing} {root : NodePlan} {Q : NodePlan → Row → Prop}
  {round : Nat} {g g' : Graph} {sources sources' : List Row} {todo : List Group}

theorem Placed.mono {node : Node} {source : Row}
    (h : Placed env root Q round g sources node source) (he : Extends g sources g' sources') :
    Placed env root Q round g' sources' node source := by
  refine ⟨h.occurs, h.holds, h.row, ?_⟩
  intro i field hf
  obtain ⟨link, packed, hl, hp, hlinked⟩ := h.linked hf
  exact ⟨link, packed, hl, hp, hlinked.mono he⟩

theorem Grouped.mono {group : Group} (h : Grouped env root round g group)
    (he : Extends g sources g' sources') : Grouped env root round g' group := by
  refine ⟨h.occurs, h.list, ?_⟩
  intro id hid
  obtain ⟨node, hn, hp⟩ := h.parents id hid
  obtain ⟨node', hn', hp', -⟩ := he.nodes id node hn
  exact ⟨node', hn', hp'.trans hp⟩

/-- Every node was made of some row. -/
theorem Ledger.source (h : Ledger env C root Q round todo g sources) {id : NodeId}
    {node : Node} (hn : g.nodes[id]? = some node) : ∃ source, sources[id]? = some source := by
  obtain ⟨hlt, -⟩ := Array.getElem?_eq_some_iff.1 hn
  rw [← h.sized] at hlt
  exact ⟨_, List.getElem?_eq_getElem hlt⟩

theorem Ledger.empty : Ledger env C root Q 0 [] {} [] := by
  have hnone : ∀ {id : NodeId} {node : Graph.Node}, ({} : Graph).nodes[id]? ≠ some node := by
    intro id node h
    cases h
  constructor
  case sized => rfl
  case placed => exact fun hn => absurd hn hnone
  case lists => exact fun hl => absurd hl.stored hnone
  case todo_grouped => exact fun _ hg => nomatch hg
  case waiting_grouped => exact fun _ hg => nomatch hg
  case todo_nodup => exact List.nodup_nil
  case waiting_nodup => exact List.nodup_nil
  case todo_open => exact fun _ hg => nomatch hg
  case fresh => exact fun hl => absurd hl.stored hnone
  case uniform => exact fun hl => absurd hl.stored hnone

theorem waits_append {groups groups' : List Group} {place : List Nat × Nat} {id : NodeId} :
    Waits (groups ++ groups') place id ↔ Waits groups place id ∨ Waits groups' place id := by
  constructor
  · rintro ⟨group, hg, hp, hid⟩
    rcases List.mem_append.1 hg with hg | hg
    · exact .inl ⟨group, hg, hp, hid⟩
    · exact .inr ⟨group, hg, hp, hid⟩
  · rintro (⟨group, hg, hp, hid⟩ | ⟨group, hg, hp, hid⟩)
    · exact ⟨group, List.mem_append_left _ hg, hp, hid⟩
    · exact ⟨group, List.mem_append_right _ hg, hp, hid⟩

/-- What waits with a group among others waits with one of the others, unless it is the group. -/
theorem waits_of_middle {pre post groups : List Group} {group : Group} {place : List Nat × Nat}
    {id : NodeId} (h : Waits ((pre ++ group :: post) ++ groups) place id)
    (hnot : ¬(group.place = place ∧ id ∈ group.parents)) :
    Waits ((pre ++ post) ++ groups) place id := by
  obtain ⟨other, ho, hplace, hid⟩ := h
  refine ⟨other, ?_, hplace, hid⟩
  rcases List.mem_append.1 ho with ho | ho
  · rcases List.mem_append.1 ho with ho | ho
    · exact List.mem_append_left _ (List.mem_append_left _ ho)
    · rcases List.mem_cons.1 ho with rfl | ho
      · exact absurd ⟨hplace, hid⟩ hnot
      · exact List.mem_append_left _ (List.mem_append_right _ ho)
  · exact List.mem_append_right _ ho

/-! ### A new node -/

theorem getElem?_snoc {α : Type} {xs : List α} {x : α} {i : Nat} :
    (xs ++ [x])[i]? = if i = xs.length then some x else xs[i]? := by
  by_cases h : i = xs.length
  · simp [h]
  · by_cases hlt : i < xs.length
    · rw [if_neg h, List.getElem?_append_left hlt]
    · rw [if_neg h, List.getElem?_eq_none (by simp; omega), List.getElem?_eq_none (by omega)]

theorem extends_pushed {node : Node} {source : Row} :
    Extends g sources (pushed g node) (sources ++ [source]) := by
  constructor
  · intro id old hn
    obtain ⟨hid, -⟩ := Array.getElem?_eq_some_iff.1 hn
    refine ⟨old, ?_, rfl, rfl⟩
    rw [pushed_node, if_neg (Nat.ne_of_lt hid)]
    exact hn
  · intro id old hs
    obtain ⟨hid, -⟩ := List.getElem?_eq_some_iff.1 hs
    rw [getElem?_snoc, if_neg (Nat.ne_of_lt hid)]
    exact hs

theorem ListLink.of_pushed {node node' : Node} {id : NodeId} {i j : Nat} {link : Link}
    (h : ListLink (pushed g node) id node' i j link) :
    (id = g.nodes.size ∧ node' = node) ∨ ListLink g id node' i j link := by
  obtain ⟨hn, hf, hl⟩ := h
  rw [pushed_node] at hn
  by_cases hid : id = g.nodes.size
  · rw [if_pos hid] at hn
    cases hn
    exact .inl ⟨hid, rfl⟩
  · rw [if_neg hid] at hn
    exact .inr ⟨hn, hf, hl⟩

/-- A new node waits in the group of each of its lists, and these are groups for its plan. -/
theorem Ledger.pushed_grouped {selections : List Selection} (hroot : PlannedFor env selections root)
    (horigin : root.origin = []) (h : Ledger env C root Q round todo g sources) {node : Node}
    (hoccurs : Occurs env root round node.plan) :
    ∀ group ∈ (pushed g node).waiting, Grouped env root round (pushed g node) group := by
  have he : Extends g sources (pushed g node) (sources ++ [node.row]) := extends_pushed
  have hnew : (pushed g node).nodes[g.nodes.size]? = some node := by
    rw [pushed_node, if_pos rfl]
  refine Graph.enqueueAll_all (fun group hg => (h.waiting_grouped group hg).mono he) ?_ ?_
  · intro index _ group hgr hfor
    refine ⟨hgr.occurs, hgr.list, ?_⟩
    intro id hid
    rcases List.mem_append.1 hid with hid | hid
    · exact hgr.parents id hid
    · rw [List.mem_singleton.1 hid]
      have hplace := Graph.Group.isFor_iff.1 hfor
      have hplan := (hgr.occurs.unique hroot horigin hoccurs (congrArg Prod.fst hplace)).1
      exact ⟨node, hnew, hplan.symm⟩
  · intro index hi
    obtain ⟨field, hf, hk⟩ := Graph.mem_manyIndices.1 hi
    obtain ⟨i, hi⟩ := List.getElem?_of_mem hf
    obtain ⟨below, hb, -⟩ := hoccurs.plannedFor hroot
    obtain ⟨m, hm, -⟩ := hb.many_at hi hk
    refine ⟨hoccurs, ⟨i, field, m, hi, hk, hm⟩, ?_⟩
    intro id hid
    rw [List.mem_singleton.1 hid]
    exact ⟨node, hnew, rfl⟩

/-- A node whose single related objects are there and whose lists are pending can be added. -/
theorem Ledger.push {selections : List Selection} (hroot : PlannedFor env selections root)
    (horigin : root.origin = []) (h : Ledger env C root Q round todo g sources) {node : Node}
    {source : Row} (hplaced : Placed env root Q round g sources node source)
    (hoccurs : Occurs env root round node.plan)
    (hpending : ∀ {id : NodeId} {i j : Nat} {link : Link},
      ListLink (pushed g node) id node i j link → id = g.nodes.size → link = .pending) :
    Ledger env C root Q round todo (pushed g node) (sources ++ [source]) := by
  have he : Extends g sources (pushed g node) (sources ++ [source]) := extends_pushed
  constructor
  case sized => simp [pushed, h.sized]
  case placed =>
    intro id node' source' hn hs
    rw [pushed_node] at hn
    rw [getElem?_snoc, h.sized] at hs
    by_cases hid : id = g.nodes.size
    · rw [if_pos hid] at hn hs
      cases hn
      cases hs
      exact hplaced.mono he
    · rw [if_neg hid] at hn hs
      exact (h.placed hn hs).mono he
  case lists =>
    intro id node' i j link hl
    rcases hl.of_pushed with ⟨hid, rfl⟩ | hold
    · obtain ⟨field, hf, hk⟩ := hl.isList
      refine .inl ⟨hpending hl hid, waits_append.2 (.inr ?_)⟩
      rw [hid]
      exact Graph.enqueueAll_waits (Graph.mem_manyIndices.2 ⟨field, List.mem_of_getElem? hf, hk⟩)
    · rcases h.lists hold with ⟨hp, hw⟩ | ⟨m, children, size, hm, hl, hc⟩
      · refine .inl ⟨hp, waits_append.2 ?_⟩
        exact (waits_append.1 hw).imp (fun hw => hw) fun hw => hw.enqueueAll
      · exact .inr ⟨m, children, size, hm, hl, C.mono hc he⟩
  case todo_grouped =>
    intro group hg
    obtain ⟨r, hr, hgr⟩ := h.todo_grouped group hg
    exact ⟨r, hr, hgr.mono he⟩
  case waiting_grouped => exact h.pushed_grouped hroot horigin hoccurs
  case todo_nodup => exact h.todo_nodup
  case waiting_nodup => exact Graph.enqueueAll_nodup h.waiting_nodup
  case todo_open =>
    intro group hg id node' i link hl hplan
    rcases hl.of_pushed with ⟨hid, rfl⟩ | hold
    · exact hpending hl hid
    · exact h.todo_open group hg hold hplan
  case fresh =>
    intro id node' i j link hl ho
    rcases hl.of_pushed with ⟨hid, rfl⟩ | hold
    · exact hpending hl hid
    · exact h.fresh hold ho
  case uniform =>
    intro id id' node₁ node₂ i j children children' size size' hl hl' hplan
    rcases hl.of_pushed with ⟨hid, rfl⟩ | hold
    · cases hpending hl hid
    · rcases hl'.of_pushed with ⟨hid, rfl⟩ | hold'
      · cases hpending hl' hid
      · exact h.uniform hold hold' hplan

end

/-! ### The lists of a group -/

section

variable {env : Environment} {C : Closing} {root : NodePlan} {Q : NodePlan → Row → Prop}
  {round : Nat} {g : Graph} {sources : List Row}

theorem extends_setLinks {ids : List NodeId} {i : Nat} {link : NodeId → Link} :
    Extends g sources (setLinks g ids i link) sources :=
  ⟨Graph.keeps_setLinks, fun _ _ hs => hs⟩

/-- A link after those of a group were set is one of them or an old one. -/
theorem ListLink.of_setLinks {group : Group} {r i : Nat} {field : FieldPlan NodePlan}
    {link' : NodeId → Link} {id : NodeId} {node' : Node} {i' j : Nat} {link : Link}
    (hgroup : Grouped env root r g group) (hi : group.plan.fields[i]? = some field)
    (hk : field.kind = .many group.index)
    (h : ListLink (setLinks g group.parents i link') id node' i' j link) :
    ∃ node, g.nodes[id]? = some node ∧ node'.plan = node.plan ∧ node'.row = node.row ∧
      ((id ∈ group.parents ∧ node.plan = group.plan ∧ i' = i ∧ j = group.index ∧ link = link' id) ∨
        (ListLink g id node i' j link ∧ ¬(id ∈ group.parents ∧ i' = i))) := by
  obtain ⟨hn, hf, hl⟩ := h
  rw [Graph.setLinks_node] at hn
  cases hold : g.nodes[id]? with
  | none =>
    rw [hold] at hn
    cases hn
  | some node =>
    rw [hold, Option.map_some, Option.some.injEq] at hn
    by_cases hid : id ∈ group.parents
    · rw [if_pos hid] at hn
      subst hn
      refine ⟨node, rfl, rfl, rfl, ?_⟩
      obtain ⟨node₂, hn₂, hp₂⟩ := hgroup.parents id hid
      rw [hold] at hn₂
      cases hn₂
      by_cases hpos : i' = i
      · subst hpos
        obtain ⟨field', hf', hk'⟩ := hf
        change node.plan.fields[i']? = some field' at hf'
        rw [hp₂, hi] at hf'
        cases hf'
        rw [hk] at hk'
        cases hk'
        rw [List.getElem?_set] at hl
        simp only [if_true] at hl
        split at hl
        · exact .inl ⟨hid, hp₂, rfl, rfl, (Option.some.inj hl).symm⟩
        · cases hl
      · rw [List.getElem?_set, if_neg fun h => hpos h.symm] at hl
        exact .inr ⟨⟨hold, hf, hl⟩, fun h => hpos h.2⟩
    · rw [if_neg hid] at hn
      subst hn
      exact ⟨node, rfl, rfl, rfl, .inr ⟨⟨hold, hf, hl⟩, fun h => hid h.1⟩⟩

theorem Placed.of_setLinks {group : Group} {r i : Nat} {field : FieldPlan NodePlan}
    {link' : NodeId → Link} {id : NodeId} {node node' : Node} {source : Row}
    (hgroup : Grouped env root r g group) (hi : group.plan.fields[i]? = some field)
    (hk : field.kind = .many group.index) (hn : g.nodes[id]? = some node)
    (hn' : (setLinks g group.parents i link').nodes[id]? = some node')
    (h : Placed env root Q round g sources node source) :
    Placed env root Q round (setLinks g group.parents i link') sources node' source := by
  have he : Extends g sources (setLinks g group.parents i link') sources := extends_setLinks
  rw [Graph.setLinks_node, hn, Option.map_some, Option.some.injEq] at hn'
  by_cases hid : id ∈ group.parents
  · rw [if_pos hid] at hn'
    subst hn'
    obtain ⟨node₂, hn₂, hp₂⟩ := hgroup.parents id hid
    rw [hn] at hn₂
    cases hn₂
    refine ⟨h.occurs, h.holds, h.row, ?_⟩
    intro i' field' hf
    obtain ⟨link, packed, hl, hp, hlinked⟩ := h.linked hf
    by_cases hpos : i = i'
    · subst hpos
      refine ⟨link' id, packed, ?_, hp, ?_⟩
      · obtain ⟨hlt, -⟩ := List.getElem?_eq_some_iff.1 hl
        change (node.links.set i (link' id))[i]? = _
        rw [List.getElem?_set, if_pos rfl, if_pos hlt]
      · change node.plan.fields[i]? = some field' at hf
        rw [hp₂, hi] at hf
        cases hf
        unfold Linked
        rw [hk]
        trivial
    · refine ⟨link, packed, ?_, hp, hlinked.mono he⟩
      change (node.links.set i (link' id))[i']? = _
      rw [List.getElem?_set, if_neg hpos]
      exact hl
  · rw [if_neg hid] at hn'
    subst hn'
    exact h.mono he

section

variable {selections : List Selection} (hroot : PlannedFor env selections root)
  (horigin : root.origin = []) {pre post : List Group} {group : Group}
  (h : Ledger env C root Q round (pre ++ group :: post) g sources) {i : Nat}
  {field : FieldPlan NodePlan} {m : ManyPlan} (hi : group.plan.fields[i]? = some field)
  (hk : field.kind = .many group.index)

include h

/-- Another group that is still to be served is for a list of another place. -/
theorem Ledger.place_ne {other : Group} (ho : other ∈ pre ++ post) : other.place ≠ group.place := by
  intro heq
  have hnodup := (List.perm_middle.map Group.place).nodup_iff.1 h.todo_nodup
  exact (List.nodup_cons.1 hnodup).1 (heq ▸ List.mem_map_of_mem ho)

theorem Ledger.group_grouped : ∃ r, r + 1 = round ∧ Grouped env root r g group :=
  h.todo_grouped group (List.mem_append_right _ List.mem_cons_self)

include hroot hi hk

/-- Setting the links of a group closes its lists, and the other lists are as they were. -/
theorem Ledger.lists_setLinks (hm : group.plan.many[group.index]? = some m)
    (children : NodeId → List NodeId) (size : Option Nat)
    (hclosed : ∀ id ∈ group.parents, ∀ node, g.nodes[id]? = some node →
      C.holds g sources m node.row (children id) size)
    {id : NodeId} {node' : Node} {i' j : Nat} {link : Link}
    (hl : ListLink (setLinks g group.parents i fun id => .many (children id) size) id node' i' j
      link) :
    (link = .pending ∧ Waits ((pre ++ post) ++ g.waiting) (node'.plan.origin, j) id) ∨
      ∃ m children' size', node'.plan.many[j]? = some m ∧ link = .many children' size' ∧
        C.holds (setLinks g group.parents i fun id => .many (children id) size) sources m node'.row
          children' size' := by
  obtain ⟨r, -, hgroup⟩ := h.group_grouped
  obtain ⟨node, hn, hp, hrow, ⟨hid, hplan, rfl, rfl, rfl⟩ | ⟨hold, hnot⟩⟩ :=
    hl.of_setLinks hgroup hi hk
  · rw [hp, hplan, hrow]
    exact .inr ⟨m, children id, size, hm, rfl, C.mono (hclosed id hid node hn) extends_setLinks⟩
  · rw [hp, hrow]
    rcases h.lists hold with ⟨hpend, hwaits⟩ | ⟨m', cs, s, hm', hlink, hc⟩
    · refine .inl ⟨hpend, waits_of_middle hwaits ?_⟩
      -- the group itself would have set this link
      rintro ⟨hplace, hid⟩
      obtain ⟨node₂, hn₂, hplan⟩ := hgroup.parents id hid
      rw [hn] at hn₂
      cases hn₂
      obtain ⟨field', hf', hk'⟩ := hold.isList
      rw [hplan] at hf'
      have hj : group.index = j := congrArg Prod.snd hplace
      rw [← hj] at hk'
      obtain ⟨below, hb, -⟩ := hgroup.occurs.plannedFor hroot
      exact hnot ⟨hid, hb.many_unique hf' hi hk' hk⟩
    · exact .inr ⟨m', cs, s, hm', hlink, C.mono hc extends_setLinks⟩

omit hroot in
/-- The lists of a group are closed with one size, and no list of their place was closed before. -/
theorem Ledger.uniform_setLinks {children : NodeId → List NodeId} {size : Option Nat}
    {id id' : NodeId} {node₁ node₂ : Node} {i' j : Nat} {cs cs' : List NodeId} {s s' : Option Nat}
    (hl : ListLink (setLinks g group.parents i fun id => .many (children id) size) id node₁ i' j
      (.many cs s))
    (hl' : ListLink (setLinks g group.parents i fun id => .many (children id) size) id' node₂ i' j
      (.many cs' s'))
    (hplans : node₁.plan = node₂.plan) : s = s' := by
  have hmem : group ∈ pre ++ group :: post := List.mem_append_right _ List.mem_cons_self
  obtain ⟨r, -, hgroup⟩ := h.group_grouped
  obtain ⟨n₁, hn₁, hp₁, -, hcase₁⟩ := hl.of_setLinks hgroup hi hk
  obtain ⟨n₂, hn₂, hp₂, -, hcase₂⟩ := hl'.of_setLinks hgroup hi hk
  rw [hp₁, hp₂] at hplans
  rcases hcase₁ with ⟨-, hplan, rfl, rfl, heq⟩ | ⟨hold, -⟩
  · rcases hcase₂ with ⟨-, -, -, -, heq'⟩ | ⟨hold', -⟩
    · cases heq
      cases heq'
      rfl
    · cases h.todo_open group hmem hold' (hplans.symm.trans hplan)
  · rcases hcase₂ with ⟨-, hplan, rfl, rfl, heq'⟩ | ⟨hold', -⟩
    · cases h.todo_open group hmem hold (hplans.trans hplan)
    · exact h.uniform hold hold' hplans

include horigin in
/-- The lists of a group can be closed, all with one size of a page. -/
theorem Ledger.close (hm : group.plan.many[group.index]? = some m)
    (children : NodeId → List NodeId) (size : Option Nat)
    (hclosed : ∀ id ∈ group.parents, ∀ node, g.nodes[id]? = some node →
      C.holds g sources m node.row (children id) size) :
    Ledger env C root Q round (pre ++ post)
      (setLinks g group.parents i fun id => .many (children id) size) sources := by
  have he : Extends g sources (setLinks g group.parents i fun id => .many (children id) size)
      sources := extends_setLinks
  have hrest : ∀ other ∈ pre ++ post, other ∈ pre ++ group :: post := fun other ho =>
    ((List.sublist_cons_self group post).append_left pre).subset ho
  obtain ⟨r, hr, hgroup⟩ := h.group_grouped
  constructor
  case sized => rw [Graph.setLinks_size, h.sized]
  case placed =>
    intro id node' source hn' hs
    cases hn : g.nodes[id]? with
    | none =>
      rw [Graph.setLinks_node, hn] at hn'
      cases hn'
    | some node => exact (h.placed hn hs).of_setLinks hgroup hi hk hn hn'
  case lists =>
    intro id node' i' j link hl
    rw [Graph.setLinks_waiting]
    exact h.lists_setLinks hroot hi hk hm children size hclosed hl
  case todo_grouped =>
    intro other ho
    obtain ⟨r', hr', hother⟩ := h.todo_grouped other (hrest other ho)
    exact ⟨r', hr', hother.mono he⟩
  case waiting_grouped =>
    rw [Graph.setLinks_waiting]
    intro other ho
    exact (h.waiting_grouped other ho).mono he
  case todo_nodup =>
    refine List.Sublist.nodup ?_ h.todo_nodup
    exact ((List.sublist_cons_self group post).append_left pre).map Group.place
  case waiting_nodup =>
    rw [Graph.setLinks_waiting]
    exact h.waiting_nodup
  case todo_open =>
    intro other ho id node' i' link hl hplan'
    obtain ⟨node, hn, hp, -, ⟨hid, hplan, rfl, hj, rfl⟩ | ⟨hold, -⟩⟩ := hl.of_setLinks hgroup hi hk
    · refine absurd ?_ (h.place_ne ho)
      simp only [Graph.Group.place, hj, ← hplan', hp, hplan]
    · exact h.todo_open other (hrest other ho) hold (hp.symm.trans hplan')
  case fresh =>
    intro id node' i' j link hl hoccurs
    obtain ⟨node, hn, hp, -, ⟨hid, hplan, rfl, rfl, rfl⟩ | ⟨hold, -⟩⟩ := hl.of_setLinks hgroup hi hk
    · rw [hp, hplan] at hoccurs
      have := (hoccurs.unique hroot horigin hgroup.occurs rfl).2
      omega
    · rw [hp] at hoccurs
      exact h.fresh hold hoccurs
  case uniform =>
    intro id id' node₁ node₂ i' j cs cs' s s' hl hl' hplans
    exact h.uniform_setLinks hi hk hl hl' hplans

end

/-- The groups that wait become those to be served in the next round. -/
theorem Ledger.next {selections : List Selection} (hroot : PlannedFor env selections root)
    (horigin : root.origin = []) (h : Ledger env C root Q round [] g sources) :
    Ledger env C root Q (round + 1) g.waiting { g with waiting := [] } sources := by
  constructor
  case sized => exact h.sized
  case placed =>
    intro id node source hn hs
    obtain ⟨⟨r, hr, ho⟩, hq, hrow, hlinked⟩ := h.placed hn hs
    refine ⟨⟨r, by omega, ho⟩, hq, hrow, ?_⟩
    intro i field hf
    obtain ⟨link, packed, hl, hp, hk⟩ := hlinked hf
    exact ⟨link, packed, hl, hp, hk.mono ⟨fun _ node h => ⟨node, h, rfl, rfl⟩, fun _ _ h => h⟩⟩
  case lists =>
    intro id node i j link hl
    rcases h.lists ⟨hl.stored, hl.isList, hl.linked⟩ with ⟨hp, hw⟩ | ⟨m, cs, s, hm, hlink, hc⟩
    · refine .inl ⟨hp, ?_⟩
      rw [List.append_nil]
      exact hw
    · exact .inr ⟨m, cs, s, hm, hlink,
        C.mono hc ⟨fun _ node h => ⟨node, h, rfl, rfl⟩, fun _ _ h => h⟩⟩
  case todo_grouped =>
    intro group hg
    obtain ⟨ho, hl, hp⟩ := h.waiting_grouped group hg
    exact ⟨round, rfl, ho, hl, hp⟩
  case waiting_grouped =>
    intro group hg
    cases hg
  case todo_nodup => exact h.waiting_nodup
  case waiting_nodup => exact List.nodup_nil
  case todo_open =>
    intro group hg id node i link hl hplan
    refine h.fresh ⟨hl.stored, hl.isList, hl.linked⟩ ?_
    rw [hplan]
    exact (h.waiting_grouped group hg).occurs
  case fresh =>
    intro id node i j link hl ho
    obtain ⟨source, hs⟩ := h.source hl.stored
    obtain ⟨r, hr, hr'⟩ := (h.placed hl.stored hs).occurs
    have := (ho.unique hroot horigin hr' rfl).2
    omega
  case uniform =>
    intro id id' node node' i j cs cs' s s' hl hl' hplan
    exact h.uniform ⟨hl.stored, hl.isList, hl.linked⟩ ⟨hl'.stored, hl'.isList, hl'.linked⟩ hplan

end

end Resolution

end ObjectGraph
