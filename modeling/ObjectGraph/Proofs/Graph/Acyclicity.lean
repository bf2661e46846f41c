import Mathlib.Data.Finset.Card
import Mathlib.Order.WellFounded
import ObjectGraph.Proofs.Graph.Batches
import ObjectGraph.Proofs.Graph.Finishing
import ObjectGraph.Proofs.Graph.Frames

/-! # No node leads to itself

What is below a node (`Below`) is below all that the node is below, so the nodes below a node are
more than those below each that it leads to.  Their number is a rank (`rank`): links lower it, and
it is at most the number of nodes.  So `Graph.finish`, which follows the links no further than there
are nodes, never comes to the end of its bound: it is the one solution of the recursion that has
none (`Finishes`), and it meets no number that is not the number of a node.

This holds of all graphs that changes lead to, in any order and even where changes fail
(`links_wellFounded`). -/

namespace ObjectGraph

namespace Graph

open Plan (NodePlan)

/-! ### Ranks -/

section

variable {batch : NodeId → Nat} {a b c : NodeId}

instance : Decidable (Below batch a b) :=
  inferInstanceAs (Decidable (_ ∨ _))

theorem Below.irrefl : ¬Below batch a a := by
  rintro (h | ⟨-, h⟩)
  · exact Nat.lt_irrefl _ h
  · exact Nat.lt_irrefl _ h

theorem Below.trans (hab : Below batch a b) (hbc : Below batch b c) : Below batch a c := by
  rcases hab with hab | ⟨hab, hlt⟩ <;> rcases hbc with hbc | ⟨hbc, hlt'⟩
  · exact .inl (Nat.lt_trans hbc hab)
  · exact .inl (hbc ▸ hab)
  · exact .inl (hab ▸ hbc)
  · exact .inr ⟨hbc.trans hab, Nat.lt_trans hlt hlt'⟩

end

/-- The number of nodes below a node. -/
def rank (graph : Graph) (batch : NodeId → Nat) (id : NodeId) : Nat :=
  ((Finset.range graph.nodes.size).filter (Below batch · id)).card

theorem rank_le_size {graph : Graph} {batch : NodeId → Nat} {id : NodeId} :
    graph.rank batch id ≤ graph.nodes.size := by
  have hcard := Finset.card_filter_le (Finset.range graph.nodes.size) (Below batch · id)
  rwa [Finset.card_range] at hcard

/-- A way to finish nodes that follows their links, however far they lead. -/
def Finishes (graph : Graph) (caller : Caller) (finish : NodeId → Session Fault Finished) : Prop :=
  ∀ id, finish id = match graph.nodes[id]? with
    | none => throw (.data "?" "?" (.unknownNode id))
    | some node => node.finish caller finish

namespace Layered

variable {taken : List Group} {graph : Graph} {batch : NodeId → Nat} {caller : Caller}

theorem rank_lt (h : Layered taken graph batch) {child parent : NodeId}
    (hchild : graph.Child child parent) : graph.rank batch child < graph.rank batch parent := by
  obtain ⟨hlt, hbelow⟩ := h.below hchild
  refine Finset.card_lt_card (Finset.ssubset_iff_subset_ne.2 ⟨fun id hid => ?_, fun heq => ?_⟩)
  · obtain ⟨hsize, hid⟩ := Finset.mem_filter.1 hid
    exact Finset.mem_filter.2 ⟨hsize, hid.trans hbelow⟩
  · have hmem : child ∈ (Finset.range graph.nodes.size).filter (Below batch · child) :=
      heq ▸ Finset.mem_filter.2 ⟨Finset.mem_range.2 hlt, hbelow⟩
    exact Below.irrefl (Finset.mem_filter.1 hmem).2

theorem wellFounded (h : Layered taken graph batch) : WellFounded graph.Child :=
  Subrelation.wf (fun hchild => h.rank_lt hchild) (measure (graph.rank batch)).wf

/-- A bound above the rank of a node is as good as any other. -/
theorem finishWithin_eq (h : Layered taken graph batch) {id : NodeId} {fuel fuel' : Nat}
    (hfuel : graph.rank batch id < fuel) (hfuel' : graph.rank batch id < fuel') :
    graph.finishWithin caller fuel id = graph.finishWithin caller fuel' id := by
  -- Following a link takes one from either bound, and at least one from the rank.
  induction fuel generalizing id fuel' with
  | zero => exact absurd hfuel (Nat.not_lt_zero _)
  | succ fuel ih =>
    cases fuel' with
    | zero => exact absurd hfuel' (Nat.not_lt_zero _)
    | succ fuel' =>
      unfold finishWithin
      cases hn : graph.nodes[id]? with
      | none => rfl
      | some node =>
        refine Node.finish_congr fun link hlink child hchild => ?_
        have hrank := h.rank_lt ⟨node, link, hn, hlink, hchild⟩
        exact ih (Nat.lt_of_lt_of_le hrank (Nat.le_of_lt_succ hfuel))
          (Nat.lt_of_lt_of_le hrank (Nat.le_of_lt_succ hfuel'))

theorem finishes (h : Layered taken graph batch) :
    graph.Finishes caller (graph.finish caller) := by
  intro id
  rw [finish, finishWithin]
  cases hn : graph.nodes[id]? with
  | none => rfl
  | some node =>
    refine Node.finish_congr fun link hlink child hchild => ?_
    have hrank := Nat.lt_of_lt_of_le (h.rank_lt ⟨node, link, hn, hlink, hchild⟩) rank_le_size
    exact h.finishWithin_eq hrank (Nat.lt_succ_of_lt hrank)

/-- The recursion has one solution, by induction along the links. -/
theorem finishes_unique (h : Layered taken graph batch)
    {finish finish' : NodeId → Session Fault Finished} (hfinish : graph.Finishes caller finish)
    (hfinish' : graph.Finishes caller finish') : finish = finish' := by
  funext id
  induction id using h.wellFounded.induction with
  | _ id ih =>
    rw [hfinish, hfinish']
    cases hn : graph.nodes[id]? with
    | none => rfl
    | some node =>
      exact Node.finish_congr fun link hlink child hchild =>
        ih child ⟨node, link, hn, hlink, hchild⟩

theorem finishes_iff (h : Layered taken graph batch)
    {finish : NodeId → Session Fault Finished} :
    graph.Finishes caller finish ↔ finish = graph.finish caller := by
  constructor
  · exact fun hfinish => h.finishes_unique hfinish h.finishes
  · rintro rfl
    exact h.finishes

/-- A node is finished, or fails with what a node can fail with. -/
theorem finish_ends (h : Layered taken graph batch) {id : NodeId} (hid : id < graph.nodes.size)
    (storage : Storage) :
    Session.Ends storage (graph.finish caller id) (fun _ => True) Fault.OfNode := by
  induction id using h.wellFounded.induction with
  | _ id ih =>
    rw [h.finishes id, Array.getElem?_eq_getElem hid]
    refine Node.finish_fails (fun _ he => he) fun link hlink child hchild => ?_
    have hbelow : graph.Child child id :=
      ⟨graph.nodes[id], link, Array.getElem?_eq_getElem hid, hlink, hchild⟩
    exact ih child hbelow (h.below hbelow).1

end Layered

/-- Links lead to nodes and never back; so a node is finished by following them without a bound, and
no number of a node turns out to be unknown. -/
theorem links_wellFounded {plans : NodePlan → Prop} {graph : Graph} {taken : List Group}
    (h : History plans graph taken) :
    (∀ child parent, graph.Child child parent → child < graph.nodes.size) ∧
      WellFounded graph.Child ∧ (∀ id, ¬Relation.TransGen graph.Child id id) ∧
      ∀ caller,
        (∀ fuel > graph.nodes.size, ∀ id,
          graph.finishWithin caller fuel id = graph.finish caller id) ∧
        (∀ finish, graph.Finishes caller finish ↔ finish = graph.finish caller) ∧
        ∀ id < graph.nodes.size, ∀ storage log typeName field n,
          (graph.finish caller id storage log).1 ≠
            .error (.data typeName field (.unknownNode n)) := by
  obtain ⟨batch, h⟩ := h.layered
  refine ⟨fun child parent hchild => (h.below hchild).1, h.wellFounded,
    h.wellFounded.transGen.irrefl.irrefl, fun caller => ⟨?_, ?_, ?_⟩⟩
  · intro fuel hfuel id
    exact h.finishWithin_eq (Nat.lt_of_le_of_lt rank_le_size hfuel)
      (Nat.lt_succ_of_le rank_le_size)
  · exact fun finish => h.finishes_iff
  · intro id hid storage log typeName field n hunknown
    have hends : Session.Ends storage (graph.finish caller id) (fun _ => True) Fault.OfNode :=
      h.finish_ends hid storage
    specialize hends log
    rcases hfinish : graph.finish caller id storage log with ⟨result, log'⟩
    rw [hfinish] at hends hunknown
    cases hunknown
    exact hends

namespace Authors

/-- The authors with their books, after these failed to be attached once for a row without a key. -/
def restocked : Graph :=
  let failed := ((attach group bookPlan ["__pk0"] none (books ++ [[("title", .str "Noon")]])).on
    shelf).2
  ((attach group bookPlan ["__pk0"] none books).on failed).2

theorem restocked_history : History (fun _ => True) restocked [group] := by
  have hshelf : History (fun _ => True) shelf [group] := .take (.addRows authors .start trivial)
  have hgroup : group ∈ [group] := List.mem_singleton_self group
  exact .attach _ _ _ (.attach _ _ _ hshelf hgroup trivial) hgroup trivial

end Authors

open Authors in
/-- An author leads to a publisher that was added before and to books that were added after; between
them are the books that were added when attaching failed. -/
theorem links_wellFounded_authors :
    restocked.nodes.size = 7 ∧ restocked.Child 0 1 ∧ restocked.Child 6 1 ∧ ¬restocked.Child 1 1 ∧
      ∀ caller storage log n, (restocked.finish caller 1 storage log).1 ≠
        .error (.data "?" "?" (.unknownNode n)) := by
  obtain ⟨-, -, hacyclic, hfinish⟩ := links_wellFounded restocked_history
  obtain ⟨node, hn, hpublisher, hbooks⟩ : ∃ node, restocked.nodes[1]? = some node ∧
      .single (some 0) ∈ node.links ∧ .many [5, 6] none ∈ node.links :=
    ⟨_, rfl, by decide, by decide⟩
  have hsize : restocked.nodes.size = 7 := rfl
  refine ⟨hsize, ⟨node, _, hn, hpublisher, by decide⟩, ⟨node, _, hn, hbooks, by decide⟩,
    fun hchild => hacyclic 1 (.single hchild), fun caller => ?_⟩
  obtain ⟨-, -, hknown⟩ := hfinish caller
  exact fun storage log n => hknown 1 (by rw [hsize]; decide) storage log "?" "?" n

end Graph

end ObjectGraph
