import ObjectGraph.Proofs.Resolution.Lockstep

/-! # All rounds side by side

A round takes two graphs that mirror each other to such graphs (`round_alike`), and so do all rounds
(`rounds_alike`), from the root rows on (`gather_alike`). -/

namespace ObjectGraph

namespace Resolution

open ObjectGraph.Graph (Group Link Node NodeId GroupTwin Mirrors)
open Outcome (Same)
open Plan (Environment Compiled NodePlan ManyPlan PlannedFor)
open Session (Alike)

variable {env : Environment} {repeatable : Schema.Resolved → Prop} {R : NodeId → NodeId → Prop}
  {root root' : NodePlan} {selections selections' : List Selection} {round : Nat} {g g' : Graph}
  {storage storage' : Storage} {roots roots' : List NodeId}

/-- Two graphs between rounds, of which the first mirrors the second. -/
structure Together (env : Environment) (repeatable : Schema.Resolved → Prop) (root root' : NodePlan)
    (round : Nat) (roots roots' : List NodeId) (g g' : Graph) : Prop where
  kept : Kept env root round [] g
  kept' : Kept env root' round [] g'
  mirrors : ∃ R : NodeId → NodeId → Prop, Mirrors env repeatable R g g' ∧
    Copies (GroupTwin env repeatable R) [] g.waiting g'.waiting ∧ List.Forall₂ R roots roots'

/-! ### One round -/

theorem Fed.start {fetched : List Fetched}
    (h : Kept env root round (fetched.map fun f => f.planned.group) g)
    (hasked : ∀ f ∈ fetched, Asked env f.planned) (hwaiting : g.waiting = []) :
    Fed env root [] fetched g := by
  obtain ⟨sources, h⟩ := h
  refine ⟨fun f hf => ?_, ?_, fun group hg => ?_⟩
  · obtain ⟨r, -, hgroup⟩ := h.todo_grouped _ (List.mem_map_of_mem hf)
    obtain ⟨m, keys, hrelation, hc⟩ := hasked f hf
    obtain ⟨i, field, m', hi, hk, hm⟩ := hgroup.list
    cases hrelation.symm.trans hm
    exact ⟨⟨r, hgroup.occurs⟩, i, field, m, hi, hk, hm, keys, _, hc, rfl⟩
  · have hnodup := h.todo_nodup
    rw [List.map_map] at hnodup
    exact hnodup
  · rw [hwaiting] at hg
    cases hg

theorem fetchGroups_ok {planned : List Planned} {fetched : List Fetched} {log : List Sql.Statement}
    (h : ((planned.mapM fetchGroup : Session Fault _) storage log).1 = .ok fetched) :
    fetched.map Fetched.planned = planned := by
  rcases hfetch : (planned.mapM fetchGroup : Session Fault _) storage log with ⟨result, log'⟩
  rw [hfetch] at h
  obtain ⟨_, -, -, hok, -⟩ := fetchGroups_log hfetch
  exact (hok fetched h).2

theorem fetchGroups_alike {planned planned' : List Planned}
    (h : Copies (PlannedTwin env repeatable storage storage' R) [] planned planned') :
    Alike storage storage' (fun fetched fetched' =>
        Copies (FetchedTwin env repeatable storage storage' R) [] fetched fetched' ∧
          fetched.map Fetched.planned = planned ∧ fetched'.map Fetched.planned = planned')
      (planned.mapM fetchGroup : Session Fault _) (planned'.mapM fetchGroup) := by
  intro log log'
  have hsame : Same (Copies (FetchedTwin env repeatable storage storage' R) []) _ _ :=
    fetchGroups_twin h (fun _ hp => nomatch hp) log log'
  refine hsame.with_ok.mono ?_
  rintro fetched fetched' ⟨hf, hok, hok'⟩
  exact ⟨hf, fetchGroups_ok hok, fetchGroups_ok hok'⟩

theorem growing_alike {α β : Type} {change : Graph.Growing α} {change' : Graph.Growing β}
    {S : α × Graph → β × Graph → Prop} (h : Same S (change.result g) (change'.result g')) :
    Alike storage storage' S (growing change g) (growing change' g') := fun _ _ => h

section

variable (hroot : PlannedFor env selections root) (horigin : root.origin = [])
  (hroot' : PlannedFor env selections' root') (horigin' : root'.origin = [])
  (halike : FetchesAlike env repeatable root root' storage storage')

include hroot horigin hroot' horigin'

theorem attachAll_together {planned planned' : List Planned} {fetched fetched' : List Fetched}
    (hfetched : Copies (FetchedTwin env repeatable storage storage' R) [] fetched fetched')
    (hplanned : fetched.map Fetched.planned = planned)
    (hplanned' : fetched'.map Fetched.planned = planned')
    (hmirrors : Mirrors env repeatable R g g')
    (hkept : Kept env root round (planned.map Planned.group) g)
    (hkept' : Kept env root' round (planned'.map Planned.group) g')
    (hasked : ∀ p ∈ planned, Asked env p) (hasked' : ∀ p ∈ planned', Asked env p)
    (hwaiting : g.waiting = []) (hwaiting' : g'.waiting = [])
    (hroots : List.Forall₂ R roots roots') :
    Same (fun p p' => Together env repeatable root root' round roots roots' p.2 p'.2)
      ((attachAll fetched).result g) ((attachAll fetched').result g') := by
  subst hplanned hplanned'
  rw [List.map_map] at hkept hkept'
  have hasked : ∀ f ∈ fetched, Asked env f.planned := fun f hf => hasked _ (List.mem_map_of_mem hf)
  have hasked' : ∀ f ∈ fetched', Asked env f.planned :=
    fun f hf => hasked' _ (List.mem_map_of_mem hf)
  have hattached := Kept.attachAll hroot horigin hkept hasked
  have hattached' := Kept.attachAll hroot' horigin' hkept' hasked'
  have hnone : Copies (GroupTwin env repeatable R) [] g.waiting g'.waiting := by
    rw [hwaiting, hwaiting']
    exact .nil
  refine (attachAll_twin hroot horigin hroot' horigin' hfetched (fun _ _ h => h) hmirrors hkept
    hkept' (Fed.start hkept hasked hwaiting) (Fed.start hkept' hasked' hwaiting') hnone
    fun _ hf => nomatch hf).with_ok.mono ?_
  rintro ⟨_, g₁⟩ ⟨_, g₁'⟩ ⟨⟨R', hR, hmirrors₁, hcopies⟩, hok, hok'⟩
  rw [hok] at hattached
  rw [hok'] at hattached'
  exact ⟨hattached.1, hattached'.1, R', hmirrors₁, hcopies, hroots.imp fun _ _ => hR _ _⟩

include halike

/-- A round takes graphs that mirror each other to such graphs. -/
theorem round_alike (h : Together env repeatable root root' round roots roots' g g') :
    Alike storage storage' (Together env repeatable root root' (round + 1) roots roots')
      (Resolution.round env g) (Resolution.round env g') := by
  obtain ⟨hkept, hkept', R, hmirrors, hwaiting, hroots⟩ := h
  have hplanned := hkept.planGroups hroot horigin
  have hplanned' := hkept'.planGroups hroot' horigin'
  have hnext : Kept env root (round + 1) ([] ++ g.waiting) { g with waiting := [] } :=
    hkept.imp fun _ h => h.next hroot horigin
  have hnext' : Kept env root' (round + 1) ([] ++ g'.waiting) { g' with waiting := [] } :=
    hkept'.imp fun _ h => h.next hroot' horigin'
  have hmirrors₀ : Mirrors env repeatable R { g with waiting := [] } { g' with waiting := [] } :=
    ⟨hmirrors.nodes, hmirrors.unique⟩
  have hnone : ∀ group ∈ ([] : List Group),
      Handled env root' { g' with waiting := [] } [] group := fun _ hg => nomatch hg
  have hplan := planGroups_twin hroot horigin hroot' horigin' halike [] [] hwaiting hmirrors₀ hnext
    hnext' hnone
  unfold Resolution.round
  simp only [Graph.takeWaiting]
  refine (Alike.ofExcept hplan.with_ok).bind ?_
  rintro ⟨planned, g₁⟩ ⟨planned', g₁'⟩ ⟨⟨hcopies, hmirrors₁, hw, hw'⟩, hok, hok'⟩
  rw [hok] at hplanned
  rw [hok'] at hplanned'
  obtain ⟨hkept₁, -, -, hasked⟩ := hplanned
  obtain ⟨hkept₁', -, -, hasked'⟩ := hplanned'
  refine (fetchGroups_alike hcopies).bind ?_
  rintro fetched fetched' ⟨hfetched, hf, hf'⟩
  refine (growing_alike (attachAll_together hroot horigin hroot' horigin' hfetched hf hf' hmirrors₁
    hkept₁ hkept₁' hasked hasked' hw hw' hroots)).bind ?_
  rintro ⟨_, g₂⟩ ⟨_, g₂'⟩ htogether
  exact Alike.pure htogether

/-- All rounds take graphs that mirror each other to such graphs. -/
theorem rounds_alike {bound : Nat}
    (h : Together env repeatable root root' round roots roots' g g') :
    Alike storage storage' (fun g g' => ∃ last,
        Together env repeatable root root' last roots roots' g g')
      (rounds env bound g) (rounds env bound g') := by
  induction bound generalizing round g g' with
  | zero => exact Alike.pure ⟨round, h⟩
  | succ bound ih =>
    obtain ⟨R, -, hwaiting, -⟩ := h.mirrors
    have hnone := hwaiting.nil_iff
    unfold rounds
    cases hw : g.waiting with
    | nil =>
      rw [hnone.1 hw]
      exact Alike.pure ⟨round, h⟩
    | cons group groups =>
      cases hw' : g'.waiting with
      | nil =>
        rw [hnone.2 hw'] at hw
        cases hw
      | cons group' groups' =>
        exact (round_alike hroot horigin hroot' horigin' halike h).bind fun _ _ h => ih h

end

/-! ### From the root rows on -/

section

variable {request : Request} {fields' : List Selection} {filter : Option Schema.TypeFilter}
  {top top' : Compiled}
  (hthins : Plan.Thins env.registry repeatable request.typeName [] request.fields fields')
  (hcompile : Plan.compileRoot env request filter = .ok top)
  (hcompile' : Plan.compileRoot env { request with fields := fields' } filter = .ok top')

include hthins hcompile hcompile'

/-- The root rows are added alike. -/
theorem addRows_together (rows : List Row) :
    Same (fun p p' => Together env repeatable top.plan top'.plan 0 p.1 p'.1 p.2 p'.2)
      ((Graph.addRows top.plan rows).result {}) ((Graph.addRows top'.plan rows).result {}) := by
  have htwin := Plan.compileRoot_twin hthins hcompile hcompile'
  have hkept := kept_addRows hcompile rows
  have hkept' := kept_addRows hcompile' rows
  rw [Graph.addRows_result] at hkept hkept' ⊢
  rw [Graph.addRows_result]
  refine (Graph.nodesOfAll_twin htwin rows 0 0).with_ok.map ?_
  rintro ⟨nodes, ids⟩ ⟨nodes', ids'⟩ ⟨⟨hblock, hids⟩, hok, hok'⟩
  rw [show Graph.nodesOfAll top.plan rows ({} : Graph).nodes.size = _ from hok] at hkept
  rw [show Graph.nodesOfAll top'.plan rows ({} : Graph).nodes.size = _ from hok'] at hkept'
  have hnone : Mirrors env repeatable (fun _ _ => False) {} (Graph.pushAll {} nodes') :=
    ⟨fun h => h.elim, fun h => h.elim⟩
  refine ⟨hkept.1, hkept'.1, _, hnone.push hblock Graph.hasBlock_pushAll, ?_,
    hids.imp fun _ _ => .inr⟩
  rw [Graph.waiting_pushAll, Graph.waiting_pushAll]
  have hids : ∀ k < nodes.length, False ∨ Graph.Shift 0 0 nodes.length (0 + k) (0 + k) :=
    fun k hk => .inr ⟨k, hk, rfl, rfl⟩
  have hcopies := Graph.queue_copies
    (R := fun id id' => False ∨ Graph.Shift 0 0 nodes.length id id') htwin
    (hblock.imp fun _ _ hn => hn.2) hids .nil .nil .nil
  exact hcopies.mono fun _ _ h => h.1

/-- From the same root rows on, the graphs of both requests mirror each other, and no group waits in
the end. -/
theorem gather_alike (halike : FetchesAlike env repeatable top.plan top'.plan storage storage')
    (rows : List Row) :
    Alike storage storage' (fun p p' =>
        (∃ last, Together env repeatable top.plan top'.plan last p.1 p'.1 p.2 p'.2) ∧
          p.2.waiting = [] ∧ p'.2.waiting = [])
      (gather env request top.plan rows)
      (gather env { request with fields := fields' } top'.plan rows) := by
  obtain ⟨hroot, horigin⟩ := Plan.compileRoot_plannedFor hcompile
  obtain ⟨hroot', horigin'⟩ := Plan.compileRoot_plannedFor hcompile'
  have hdepth : ({ request with fields := fields' } : Request).depth = request.depth := by
    unfold Request.depth
    rw [hthins.depthOf_eq]
  unfold gather
  rw [hdepth]
  refine (growing_alike (addRows_together hthins hcompile hcompile' rows)).bind ?_
  rintro ⟨roots, g⟩ ⟨roots', g'⟩ htogether
  have hends : Session.Ends storage (rounds env request.depth g) _ _ :=
    htogether.kept.rounds_ends hcompile (Nat.le_add_left _ _)
  have hends' : Session.Ends storage' (rounds env request.depth g') _ _ :=
    htogether.kept'.rounds_ends hcompile' (hdepth ▸ Nat.le_add_left _ _)
  refine ((rounds_alike hroot horigin hroot' horigin' halike htogether).ends hends hends').bind ?_
  rintro g₁ g₁' ⟨hlast, hended, hended'⟩
  exact Alike.pure ⟨hlast, hended.2, hended'.2⟩

end

end Resolution

end ObjectGraph
