import ObjectGraph.Proofs.Resolution.Loop

/-! # Rounds in any order

The groups that wait are served in the order in which their first nodes were added.  A `Schedule`
gives every round an order of its own: the round plans the statements of the groups, issues them and
attaches what they fetched in that order (`roundsBy`, `answerBy`).  The order in which the groups
were queued is one of the schedules (`answerBy_asQueued`).  A ledger says nothing of the order of
the groups, so a graph keeps it when they are reordered (`Ledger.reorder`). -/

namespace ObjectGraph

/-- Put the groups that wait in an order. -/
def Graph.reorder (graph : Graph) (order : List Graph.Group → List Graph.Group) : Graph :=
  { graph with waiting := order graph.waiting }

namespace Resolution

open ObjectGraph.Graph (Group)
open Plan (Environment NodePlan)

/-! ### Schedules -/

/-- An order of the groups that wait, for every round. -/
structure Schedule where
  order : (round : Nat) → List Group → List Group
  perm : ∀ round groups, (order round groups).Perm groups

/-- Serve the groups in the order in which they were queued. -/
def Schedule.asQueued : Schedule where
  order _ groups := groups
  perm _ groups := .refl groups

/-- Serve the groups of every round in reverse. -/
def Schedule.reversed : Schedule where
  order _ groups := groups.reverse
  perm _ groups := groups.reverse_perm

/-- Go on in rounds, at most so many, each of which serves its groups in the order of a schedule. -/
def roundsBy (env : Environment) (schedule : Schedule) :
    (round bound : Nat) → Graph → Session Fault Graph
  | _, 0, graph => pure graph
  | round, bound + 1, graph =>
    if graph.waiting.isEmpty then pure graph
    else do
      roundsBy env schedule (round + 1) bound
        (← Resolution.round env (graph.reorder (schedule.order round)))

/-- Answer a request with rounds that serve their groups in the order of a schedule. -/
def answerBy (env : Environment) (schedule : Schedule) (request : Request)
    (filter : Option Schema.TypeFilter) : Session Fault (List Object) := do
  let root ← Session.ofExcept ((Plan.compileRoot env request filter).mapError .plan)
  let rows ← Session.mapError .storage (Session.fetch root.statement)
  let (roots, graph) ← growing (Graph.addRows root.plan rows) {}
  let graph ← roundsBy env schedule 0 request.depth graph
  let finished ← roots.mapM (graph.finish env.caller)
  pure (finished.map Finished.output)

section

variable {env : Environment} {schedule : Schedule} {g : Graph} {round bound : Nat}

/-! ### The order of the queue -/

theorem roundsBy_asQueued : roundsBy env .asQueued round bound g = rounds env bound g := by
  induction bound generalizing round g with
  | zero => rfl
  | succ bound ih =>
    unfold roundsBy rounds
    simp only [ih]
    rfl

theorem answerBy_asQueued (env : Environment) (request : Request)
    (filter : Option Schema.TypeFilter) :
    answerBy env .asQueued request filter = answer env request filter := by
  unfold answerBy answer
  simp only [roundsBy_asQueued]

/-! ### Rounds without a group -/

theorem round_of_none (h : g.waiting = []) : Resolution.round env g = pure g := by
  obtain ⟨nodes, waiting⟩ := g
  cases h
  rfl

theorem roundsBy_of_none (h : g.waiting = []) : roundsBy env schedule round bound g = pure g := by
  cases bound with
  | zero => rfl
  | succ bound =>
    unfold roundsBy
    rw [h]
    rfl

/-- A round without a group changes nothing, so the rounds need not stop for want of groups. -/
theorem roundsBy_succ :
    roundsBy env schedule round (bound + 1) g =
      Resolution.round env (g.reorder (schedule.order round)) >>=
        roundsBy env schedule (round + 1) bound := by
  cases hw : g.waiting with
  | nil =>
    have hnone : schedule.order round [] = [] := (schedule.perm round []).eq_nil
    have hsame : g.reorder (schedule.order round) = g := by
      obtain ⟨nodes, waiting⟩ := g
      cases hw
      unfold Graph.reorder
      rw [hnone]
    rw [roundsBy_of_none hw, hsame, round_of_none hw, pure_bind, roundsBy_of_none hw]
  | cons group groups =>
    rw [roundsBy, hw]
    rfl

end

/-! ### Ledgers of reordered graphs -/

section

variable {env : Environment} {C : Closing} {root : NodePlan} {Q : NodePlan → Row → Prop}
  {round : Nat} {g : Graph} {sources : List Row} {order : List Group → List Group}

theorem extends_reorder : Extends g sources (g.reorder order) sources :=
  ⟨fun _ node hn => ⟨node, hn, rfl, rfl⟩, fun _ _ hs => hs⟩

theorem ListLink.of_reorder {id : Graph.NodeId} {node : Graph.Node} {i j : Nat} {link : Graph.Link}
    (h : ListLink (g.reorder order) id node i j link) : ListLink g id node i j link :=
  ⟨h.stored, h.isList, h.linked⟩

theorem Ledger.reorder (h : Ledger env C root Q round [] g sources)
    (hperm : (order g.waiting).Perm g.waiting) :
    Ledger env C root Q round [] (g.reorder order) sources := by
  constructor
  case sized => exact h.sized
  case placed => exact fun hn hs => (h.placed hn hs).mono extends_reorder
  case lists =>
    intro id node i j link hl
    rcases h.lists hl.of_reorder with ⟨hpending, group, hg, hplace, hid⟩ |
      ⟨m, children, size, hm, hlink, hclosed⟩
    · exact .inl ⟨hpending, group, hperm.mem_iff.2 hg, hplace, hid⟩
    · exact .inr ⟨m, children, size, hm, hlink, C.mono hclosed extends_reorder⟩
  case todo_grouped => exact fun _ hg => nomatch hg
  case waiting_grouped =>
    intro group hg
    have he : Extends g sources (g.reorder order) sources := extends_reorder
    exact (h.waiting_grouped group (hperm.mem_iff.1 hg)).mono he
  case todo_nodup => exact List.nodup_nil
  case waiting_nodup => exact (hperm.map Graph.Group.place).nodup_iff.2 h.waiting_nodup
  case todo_open => exact fun _ hg => nomatch hg
  case fresh => exact fun hl ho => h.fresh hl.of_reorder ho
  case uniform => exact fun hl hl' hplan => h.uniform hl.of_reorder hl'.of_reorder hplan

theorem Kept.reorder (h : Kept env root round [] g) (hperm : (order g.waiting).Perm g.waiting) :
    Kept env root round [] (g.reorder order) := h.imp fun _ h => h.reorder hperm

end

end Resolution

end ObjectGraph
