import ObjectGraph.Proofs.Resolution.Ledger

/-! # The keys of the parents of a group

The keys that a follow-up is asked for are those of the parents of its group, each once
(`parentKeys_keysFor`), so that the rows it gives can be told apart by their keys: a parent gets
the rows of its own key in their order (`childrenOf_closed`). -/

namespace ObjectGraph

namespace Resolution

open ObjectGraph.Graph (Group Node NodeId)
open Plan (Environment Compiled NodePlan ManyPlan)

theorem key?_eq_some {row : Row} {labels : List String} {values : List Json} {key : String} :
    key? row labels = some (values, key) ↔
      Graph.keyValues? row labels = some values ∧ Graph.compositeKey? values = some key := by
  unfold key?
  cases Graph.keyValues? row labels with
  | none => simp
  | some vs =>
    cases hk : Graph.compositeKey? vs with
    | none =>
      simp only [Option.bind_eq_bind, Option.bind_some, hk, Option.bind_none, reduceCtorEq,
        Option.some.injEq, false_iff, not_and]
      rintro rfl
      simp [hk]
    | some k =>
      simp only [Option.bind_eq_bind, Option.bind_some, hk, Option.pure_def, Option.some.injEq,
        Prod.mk.injEq]
      constructor
      · rintro ⟨rfl, rfl⟩
        exact ⟨rfl, hk⟩
      · rintro ⟨rfl, hk'⟩
        rw [hk, Option.some.injEq] at hk'
        exact ⟨rfl, hk'⟩

theorem rowKey?_eq (row : Row) (labels : List String) :
    Graph.rowKey? row labels = (key? row labels).map Prod.snd := by
  unfold Graph.rowKey? key?
  cases Graph.keyValues? row labels with
  | none => rfl
  | some values => cases h : Graph.compositeKey? values <;> simp [h]

/-! ### Distinct keys -/

theorem mem_distinctKeys {seen : List String} {all : List (List Json)} {values : List Json}
    (h : values ∈ Graph.distinctKeys seen all) :
    values ∈ all ∧ ∃ key, Graph.compositeKey? values = some key ∧ key ∉ seen := by
  induction all generalizing seen with
  | nil => simp [Graph.distinctKeys] at h
  | cons first all ih =>
    unfold Graph.distinctKeys at h
    split at h
    · obtain ⟨hm, hk⟩ := ih h
      exact ⟨List.mem_cons_of_mem _ hm, hk⟩
    · next key hkey =>
      split at h
      · obtain ⟨hm, hk⟩ := ih h
        exact ⟨List.mem_cons_of_mem _ hm, hk⟩
      · next hseen =>
        rcases List.mem_cons.1 h with rfl | h
        · exact ⟨List.mem_cons_self, key, hkey, hseen⟩
        · obtain ⟨hm, k, hk, hn⟩ := ih h
          exact ⟨List.mem_cons_of_mem _ hm, k, hk, fun hs => hn (List.mem_cons_of_mem _ hs)⟩

/-- Every key is there, unless it is seen. -/
theorem distinctKeys_complete {seen : List String} {all : List (List Json)} {values : List Json}
    {key : String} (h : values ∈ all) (hkey : Graph.compositeKey? values = some key)
    (hseen : key ∉ seen) :
    ∃ values' ∈ Graph.distinctKeys seen all, Graph.compositeKey? values' = some key := by
  induction all generalizing seen with
  | nil => simp at h
  | cons first all ih =>
    unfold Graph.distinctKeys
    split
    · next hnone =>
      rcases List.mem_cons.1 h with rfl | h
      · rw [hkey] at hnone
        cases hnone
      · exact ih h hseen
    · next first' hfirst =>
      split
      · next hmem =>
        rcases List.mem_cons.1 h with rfl | h
        · rw [hkey] at hfirst
          cases hfirst
          exact absurd hmem hseen
        · exact ih h hseen
      · by_cases heq : key = first'
        · subst heq
          exact ⟨first, List.mem_cons_self, hfirst⟩
        · rcases List.mem_cons.1 h with rfl | h
          · rw [hkey] at hfirst
            cases hfirst
            exact absurd rfl heq
          · have hnot : key ∉ first' :: seen := by
              simp only [List.mem_cons, not_or]
              exact ⟨heq, hseen⟩
            obtain ⟨values', hv, hk⟩ := ih h hnot
            exact ⟨values', List.mem_cons_of_mem _ hv, hk⟩

theorem distinctKeys_nodup {seen : List String} {all : List (List Json)} :
    ((Graph.distinctKeys seen all).map Graph.compositeKey?).Nodup := by
  induction all generalizing seen with
  | nil => exact List.nodup_nil
  | cons first all ih =>
    unfold Graph.distinctKeys
    split
    · exact ih
    · next key hkey =>
      split
      · exact ih
      · rw [List.map_cons, List.nodup_cons]
        refine ⟨?_, ih⟩
        intro hmem
        obtain ⟨values, hv, heq⟩ := List.mem_map.1 hmem
        obtain ⟨-, k, hk, hn⟩ := mem_distinctKeys hv
        rw [heq, hkey] at hk
        cases hk
        exact hn List.mem_cons_self

/-! ### The keys of parents -/

/-- Keys are those of some nodes, each once. -/
structure KeysFor (graph : Graph) (parents : List NodeId) (m : ManyPlan)
    (keys : List (List Json)) : Prop where
  distinct : (keys.map Graph.compositeKey?).Nodup
  of_parent : ∀ values ∈ keys, ∃ id ∈ parents, ∃ node key,
    graph.nodes[id]? = some node ∧ key? node.row m.keyLabels = some (values, key)
  all : ∀ id ∈ parents, ∀ node, graph.nodes[id]? = some node → ∀ values key,
    key? node.row m.keyLabels = some (values, key) →
    ∃ values' ∈ keys, Graph.compositeKey? values' = some key

theorem parentKeys_keysFor (graph : Graph) {group : Group} {m : ManyPlan}
    (hm : group.relation? = some m) :
    KeysFor graph group.parents m (graph.parentKeys group) := by
  simp only [Graph.parentKeys, hm]
  constructor
  · exact distinctKeys_nodup
  · intro values hv
    obtain ⟨hmem, key, hkey, -⟩ := mem_distinctKeys hv
    obtain ⟨id, hid, hb⟩ := List.mem_filterMap.1 hmem
    obtain ⟨node, hn, hvalues⟩ := Option.bind_eq_some_iff.1 hb
    exact ⟨id, hid, node, key, hn, key?_eq_some.2 ⟨hvalues, hkey⟩⟩
  · intro id hid node hn values key hk
    obtain ⟨hvalues, hkey⟩ := key?_eq_some.1 hk
    refine distinctKeys_complete (List.mem_filterMap.2 ⟨id, hid, ?_⟩) hkey List.not_mem_nil
    rw [hn, Option.bind_some, hvalues]

theorem KeysFor.keysOf {graph : Graph} {parents : List NodeId} {m : ManyPlan}
    {keys : List (List Json)} (h : KeysFor graph parents m keys) (hne : keys ≠ []) :
    KeysOf m keys := by
  refine ⟨hne, h.distinct, ?_⟩
  intro values hv
  obtain ⟨_, -, node, key, -, hk⟩ := h.of_parent values hv
  exact ⟨node.row, key, hk⟩

theorem keysOf_singleton {m : ManyPlan} {row : Row} {values : List Json} {key : String}
    (h : key? row m.keyLabels = some (values, key)) : KeysOf m [values] := by
  refine ⟨List.cons_ne_nil _ _, List.nodup_cons.2 ⟨List.not_mem_nil, List.nodup_nil⟩, ?_⟩
  intro values' hv
  rw [List.mem_singleton.1 hv]
  exact ⟨row, key, h⟩

theorem KeysFor.mono {g g' : Graph} {sources sources' : List Row} {parents : List NodeId}
    {m : ManyPlan} {keys : List (List Json)} (h : KeysFor g parents m keys)
    (he : Extends g sources g' sources')
    (hparents : ∀ id ∈ parents, ∃ node, g.nodes[id]? = some node) : KeysFor g' parents m keys := by
  refine ⟨h.distinct, ?_, ?_⟩
  · intro values hv
    obtain ⟨id, hid, node, key, hn, hk⟩ := h.of_parent values hv
    obtain ⟨node', hn', -, hr⟩ := he.nodes id node hn
    exact ⟨id, hid, node', key, hn', hr ▸ hk⟩
  · intro id hid node' hn' values key hk
    obtain ⟨node, hn⟩ := hparents id hid
    obtain ⟨node'', hn'', -, hr⟩ := he.nodes id node hn
    rw [hn'] at hn''
    cases hn''
    exact h.all id hid node hn values key (hr ▸ hk)

/-! ### The rows of a key -/

/-- The children with a key are those of the rows with the key. -/
theorem filter_children {α : Type} {R : α → Row → Prop} {labels : List String} {key : String}
    {children : List (String × α)} {rows : List Row}
    (h : List.Forall₂ (fun child row => Graph.rowKey? row labels = some child.1 ∧ R child.2 row)
      children rows) :
    List.Forall₂ R
      (children.filterMap fun child => if child.1 = key then some child.2 else none)
      (rows.filter fun row => Graph.rowKey? row labels == some key) := by
  induction h with
  | nil => exact .nil
  | @cons child row _ _ hfirst _ ih =>
    obtain ⟨hkey, hr⟩ := hfirst
    by_cases heq : child.1 = key
    · rw [List.filter_cons_of_pos (by simp [hkey, heq])]
      simp only [List.filterMap_cons, if_pos heq]
      exact .cons hr ih
    · rw [List.filter_cons_of_neg (by simp [hkey, heq])]
      simp only [List.filterMap_cons, if_neg heq]
      exact ih

/-- What a follow-up for the keys of a group closes the lists of its parents with. -/
theorem childrenOf_closed {env : Environment} {request : Request}
    {filter : Option Schema.TypeFilter} {world : World} {root : Compiled} {m : ManyPlan}
    {g : Graph} {sources rows : List Row} {parents : List NodeId} {keys : List (List Json)}
    {compiled : Compiled} {children : List (String × NodeId)}
    (haccepted : Accepted env request filter)
    (hroot : Plan.compileRoot env request filter = .ok root) (hm : Plan.Listed env root.plan m)
    (hkeys : KeysFor g parents m keys) (hcompiled : Plan.compileMany env m keys = .ok compiled)
    (hrows : Delivers world m compiled.partitionLabels keys rows)
    (hchildren : List.Forall₂ (fun child row =>
      Graph.rowKey? row compiled.partitionLabels = some child.1 ∧
        Holds g sources child.2 compiled.plan row) children rows)
    {id : NodeId} {node : Node} (hid : id ∈ parents) (hn : g.nodes[id]? = some node) :
    Closed env world g sources m node.row (g.childrenOf m.keyLabels children id)
      compiled.pageSize := by
  have hof : (g.nodes[id]?).bind (fun node => Graph.rowKey? node.row m.keyLabels) =
      (key? node.row m.keyLabels).map Prod.snd := by
    rw [hn, Option.bind_some, rowKey?_eq]
  unfold Closed Graph.childrenOf
  rw [hof]
  cases hk : key? node.row m.keyLabels with
  | none => exact ⟨rfl, .inr ⟨keys, compiled, hcompiled, rfl⟩⟩
  | some pair =>
    obtain ⟨values, key⟩ := pair
    obtain ⟨values', hv, hkey'⟩ := hkeys.all id hid node hn values key hk
    obtain ⟨own, hown⟩ := haccepted root hroot m hm keys [values]
      (hkeys.keysOf (List.ne_nil_of_mem hv)) (keysOf_singleton hk) ⟨compiled, hcompiled⟩
    obtain ⟨hplan, -, hsize⟩ := Plan.compileMany_uniform hcompiled hown
    refine ⟨own, hown, hsize, ?_⟩
    rw [← hrows.exact values' hv key hkey', ← hplan]
    exact filter_children hchildren

end Resolution

end ObjectGraph
