import ObjectGraph.Proofs.Graph.Histories
import ObjectGraph.Proofs.Resolution.Statements

/-! # A place is compiled once

The groups of a graph are found by places of the request.  That is to find them by the compilation
that their plan came from, since every statement of a request is compiled for a place of its own:
a level is compiled with the statement that fetches its objects, and no list is fetched in two
rounds or by two statements of one (`Compilations.planned`).  The nodes and the groups of a graph
that is reached keep to the plans of the statements issued so far (`compiled_once`), so a node joins
a group exactly if the group waits for a list of the plan that the node was compiled with
(`Reached.isFor_iff`). -/

namespace ObjectGraph

namespace Resolution

open ObjectGraph.Graph (Group Node NodeId Coherent Identified Growing)
open Plan (Environment Compiled NodePlan ManyPlan Within Occurs Fetches PlannedFor)

/-! ### Compilations -/

/-- How a statement of a request was compiled before a round: as the root statement, or as a
follow-up for a list of a level whose objects were fetched in an earlier round. -/
def CompiledBefore (env : Environment) (root : Compiled) (round : Nat) (compiled : Compiled) :
    Prop :=
  compiled = root ∨ ∃ r < round, ∃ m keys, ListedIn env root.plan r m ∧
    Plan.compileMany env m keys = .ok compiled

/-- What was compiled for a request before a round, each for a place of its own. -/
structure Compilations (env : Environment) (root : Compiled) (round : Nat)
    (compilations : List Compiled) : Prop where
  places : (compilations.map fun compiled => compiled.plan.origin).Nodup
  compiled : ∀ compiled ∈ compilations, CompiledBefore env root round compiled

/-- A plan that came with one of some compilations: that of its objects, or of the single related
objects that are packed into them. -/
def CameWith (compilations : List Compiled) (plan : NodePlan) : Prop :=
  ∃ compiled ∈ compilations, Within compiled.plan plan

section

variable {env : Environment} {root compiled compiled' : Compiled} {round round' : Nat}

theorem ListedIn.occurs {m : ManyPlan} {keys : List (List Json)}
    (h : ListedIn env root.plan round m) (hc : Plan.compileMany env m keys = .ok compiled) :
    Occurs env root.plan (round + 1) compiled.plan := by
  obtain ⟨i, j, plan, field, ho, hi, hk, hm⟩ := h
  exact .many ho hi hk hm hc

theorem CompiledBefore.occurs (h : CompiledBefore env root round compiled) :
    ∃ r ≤ round, Occurs env root.plan r compiled.plan := by
  obtain rfl | ⟨r, hr, m, keys, hlisted, hc⟩ := h
  · exact ⟨0, Nat.zero_le round, .root⟩
  · exact ⟨r + 1, hr, hlisted.occurs hc⟩

variable {selections : List Selection} (hroot : PlannedFor env selections root.plan)
  (horigin : root.plan.origin = [])

include hroot horigin

/-- Plans of one place came with statements for one place. -/
theorem CompiledBefore.unique (h : CompiledBefore env root round compiled)
    (h' : CompiledBefore env root round' compiled') {plan plan' : NodePlan}
    (hw : Within compiled.plan plan) (hw' : Within compiled'.plan plan')
    (heq : plan.origin = plan'.origin) :
    compiled.plan.origin = compiled'.plan.origin ∧ plan = plan' := by
  obtain ⟨_, -, ho⟩ := h.occurs
  obtain ⟨_, -, ho'⟩ := h'.occurs
  refine ⟨?_, ((ho.within hw).unique hroot horigin (ho'.within hw') heq).1⟩
  obtain rfl | ⟨r, -, m, keys, hlisted, hc⟩ := h
  · obtain rfl | ⟨r', -, m', keys', hlisted', hc'⟩ := h'
    · rfl
    · have ho' := (hlisted'.occurs hc').within hw'
      cases ((Occurs.root.within hw).unique hroot horigin ho' heq).2
  · obtain rfl | ⟨r', -, m', keys', hlisted', hc'⟩ := h'
    · have ho := (hlisted.occurs hc).within hw
      cases (ho.unique hroot horigin (Occurs.root.within hw') heq).2
    · obtain ⟨i, j, above, field, ho, hi, hk, hm⟩ := hlisted
      obtain ⟨i', j', above', field', ho', hi', hk', hm'⟩ := hlisted'
      have hfetches : Fetches env root.plan above j compiled.plan :=
        ⟨⟨r, ho⟩, i, field, m, hi, hk, hm, keys, compiled, hc, rfl⟩
      have hfetches' : Fetches env root.plan above' j' compiled'.plan :=
        ⟨⟨r', ho'⟩, i', field', m', hi', hk', hm', keys', compiled', hc', rfl⟩
      obtain ⟨rfl, rfl⟩ := hfetches.unique hroot horigin hfetches' hw hw' heq
      cases hm.symm.trans hm'
      rw [(Plan.compileMany_plannedFor hc).2, (Plan.compileMany_plannedFor hc').2]

variable {compilations : List Compiled}

/-- Plans of one place came with one statement. -/
theorem Compilations.unique (h : Compilations env root round compilations)
    (hc : compiled ∈ compilations) (hc' : compiled' ∈ compilations) {plan plan' : NodePlan}
    (hw : Within compiled.plan plan) (hw' : Within compiled'.plan plan')
    (heq : plan.origin = plan'.origin) : compiled = compiled' ∧ plan = plan' := by
  obtain ⟨hplace, hplan⟩ :=
    (h.compiled _ hc).unique hroot horigin (h.compiled _ hc') hw hw' heq
  exact ⟨List.inj_on_of_nodup_map h.places hc hc' hplace, hplan⟩

theorem Compilations.identified (h : Compilations env root round compilations) :
    Identified (CameWith compilations) := by
  constructor
  case single =>
    rintro plan child field ⟨compiled, hc, hw⟩ hfield hk
    obtain ⟨i, hi⟩ := List.getElem?_of_mem hfield
    exact ⟨compiled, hc, .single hw hi hk⟩
  case unique =>
    rintro plan plan' ⟨compiled, hc, hw⟩ ⟨compiled', hc', hw'⟩ heq
    exact (h.unique hroot horigin hc hc' hw hw' heq).2

/-- What a round plans is compiled for places for which nothing was compiled before. -/
theorem Compilations.planned (h : Compilations env root round compilations) {g g₁ : Graph}
    (hkept : Kept env root.plan round [] g) {planned : List Planned}
    (hplan : planGroups env g.waiting { g with waiting := [] } = .ok (planned, g₁)) :
    Compilations env root (round + 1) (compilations ++ planned.map Planned.compiled) := by
  obtain ⟨hnodup, hfollow⟩ := hkept.planned_places hroot horigin hplan
  constructor
  case places =>
    have hnew : (planned.map Planned.compiled).map (fun compiled => compiled.plan.origin) =
        planned.map Planned.place := by
      rw [List.map_map]
      refine List.map_congr_left fun p hp => ?_
      obtain ⟨m, keys, -, hmo, hc⟩ := hfollow p hp
      exact (Plan.compileMany_plannedFor hc).2.trans hmo
    rw [List.map_append, hnew, List.nodup_append]
    refine ⟨h.places, hnodup, ?_⟩
    rintro place hold _ hplace rfl
    obtain ⟨compiled, hcompiled, rfl⟩ := List.mem_map.1 hold
    obtain ⟨p, hp, heq⟩ := List.mem_map.1 hplace
    obtain ⟨r, hr, ho⟩ := (h.compiled compiled hcompiled).occurs
    obtain ⟨m, keys, hlisted, hmo, hc⟩ := hfollow p hp
    have heq : compiled.plan.origin = p.compiled.plan.origin := by
      rw [(Plan.compileMany_plannedFor hc).2, hmo, heq]
    have hround := (ho.unique hroot horigin (hlisted.occurs hc) heq).2
    omega
  case compiled =>
    intro compiled hcompiled
    rcases List.mem_append.1 hcompiled with hcompiled | hcompiled
    · refine (h.compiled compiled hcompiled).imp_right ?_
      rintro ⟨r, hr, hrest⟩
      exact ⟨r, by omega, hrest⟩
    · obtain ⟨p, hp, rfl⟩ := List.mem_map.1 hcompiled
      obtain ⟨m, keys, hlisted, -, hc⟩ := hfollow p hp
      exact .inr ⟨round, Nat.lt_succ_self round, m, keys, hlisted, hc⟩

end

/-! ### The plans of a graph -/

theorem CameWith.append {compilations : List Compiled} {plan : NodePlan}
    (h : CameWith compilations plan) (more : List Compiled) :
    CameWith (compilations ++ more) plan := by
  obtain ⟨compiled, hc, hw⟩ := h
  exact ⟨compiled, List.mem_append_left _ hc, hw⟩

section

variable {plans : NodePlan → Prop} {taken : List Group} {env : Environment}

theorem planGroups_coherent {groups : List Group} {g g' : Graph} {planned : List Planned}
    (h : Coherent plans taken g) (hplan : planGroups env groups g = .ok (planned, g')) :
    Coherent plans taken g' := by
  induction groups generalizing g planned with
  | nil =>
    cases hplan
    exact h
  | cons group groups ih =>
    unfold planGroups at hplan
    split at hplan
    · exact ih (h.attachNone group) hplan
    · exact ih (h.attachNone group) hplan
    · obtain ⟨compiled, -, hplan⟩ := Outcome.bind_ok.1 hplan
      obtain ⟨⟨rest, g₁⟩, hrest, hplan⟩ := Outcome.bind_ok.1 hplan
      cases hplan
      exact ih h hrest

theorem attachAll_coherent (hplans : Identified plans) {fetched : List Fetched}
    (h : ∀ f ∈ fetched, plans f.planned.compiled.plan) :
    (attachAll fetched).Keeps (Coherent plans taken) fun _ => True := by
  induction fetched with
  | nil => exact .pure trivial
  | cons first fetched ih =>
    exact (Graph.attach_coherent hplans (h first List.mem_cons_self) _ _ _ _).bind fun _ _ =>
      ih fun f hf => h f (List.mem_cons_of_mem _ hf)

end

section

variable {env : Environment} {request : Request} {filter : Option Schema.TypeFilter}
  {storage : Storage} {round : Nat} {g : Graph} {log : List Sql.Statement}

/-- The statements up to a graph that is reached are those of compilations, which its nodes and
groups keep to. -/
theorem Reached.compilations {root : Compiled}
    (hcompile : Plan.compileRoot env request filter = .ok root)
    (h : Reached env request filter storage round g log) :
    ∃ compilations, log = compilations.map Compiled.statement ∧
      Compilations env root round compilations ∧ Coherent (CameWith compilations) [] g := by
  obtain ⟨hroot, horigin⟩ := Plan.compileRoot_plannedFor hcompile
  induction h with
  | @start _ rows _ _ hc _ hadd =>
    cases hcompile.symm.trans hc
    have hcompilations : Compilations env root 0 [root] := by
      refine ⟨List.nodup_singleton _, fun compiled hcompiled => ?_⟩
      exact .inl (List.mem_singleton.1 hcompiled)
    have hempty : Coherent (CameWith [root]) [] {} :=
      Graph.History.start.coherent (hcompilations.identified hroot horigin)
    have hadded := Graph.addRows_coherent (hcompilations.identified hroot horigin)
      ⟨root, List.mem_singleton_self root, .self⟩ rows {} hempty
    rw [Graph.on_of_result hadd] at hadded
    exact ⟨[root], rfl, hcompilations, hadded.1⟩
  | @next n g g' log log' hreached _ hround ih =>
    obtain ⟨compilations, rfl, hcompilations, hcoherent⟩ := ih
    obtain ⟨planned, g₁, fetched, hplan, hfetch, hattach⟩ := round_ok hround
    obtain ⟨issued, -, rfl, hok, -⟩ := fetchGroups_log hfetch
    obtain ⟨rfl, hgroups⟩ := hok fetched rfl
    have hmore := hcompilations.planned hroot horigin (hreached.kept hcompile) hplan
    have hfetched : ∀ f ∈ fetched,
        CameWith (compilations ++ issued.map Planned.compiled) f.planned.compiled.plan := by
      intro f hf
      have hissued : f.planned ∈ issued := hgroups ▸ List.mem_map_of_mem hf
      exact ⟨_, List.mem_append_right _ (List.mem_map_of_mem hissued), .self⟩
    have hall := hcoherent.mono fun _ hcame => hcame.append (issued.map Planned.compiled)
    have htaken : Coherent (CameWith (compilations ++ issued.map Planned.compiled)) []
        { g with waiting := [] } :=
      ⟨hall.nodes, (fun _ hg => nomatch hg), fun _ hg => nomatch hg⟩
    have hattached := attachAll_coherent (hmore.identified hroot horigin) hfetched g₁
      (planGroups_coherent htaken hplan)
    rw [Graph.on_of_result hattach] at hattached
    refine ⟨_, ?_, hmore, hattached.1⟩
    rw [List.map_append, List.map_map]
    rfl

/-- In a request, a place is compiled once.  The statements issued up to a graph were compiled for
different places; the nodes of the graph keep to the plans that came with them, as do the groups
that wait, with their parents; and plans of one place came with one statement. -/
theorem compiled_once (h : Reached env request filter storage round g log) :
    ∃ compilations : List Compiled, log = compilations.map Compiled.statement ∧
      (compilations.map fun compiled => compiled.plan.origin).Nodup ∧
      Coherent (CameWith compilations) [] g ∧
      ∀ compiled ∈ compilations, ∀ compiled' ∈ compilations, ∀ plan plan',
        Within compiled.plan plan → Within compiled'.plan plan' → plan.origin = plan'.origin →
        compiled = compiled' ∧ plan = plan' := by
  obtain ⟨root, hcompile⟩ := h.compiled
  obtain ⟨hroot, horigin⟩ := Plan.compileRoot_plannedFor hcompile
  obtain ⟨compilations, hlog, hcompilations, hcoherent⟩ := h.compilations hcompile
  exact ⟨compilations, hlog, hcompilations.places, hcoherent,
    fun _ hc _ hc' _ _ hw hw' heq => hcompilations.unique hroot horigin hc hc' hw hw' heq⟩

/-- So a group that waits is for a list of a node's plan exactly if it waits for the list of that
index of the very plan. -/
theorem Reached.isFor_iff (h : Reached env request filter storage round g log) {group : Group}
    (hg : group ∈ g.waiting) {id : NodeId} {node : Node} (hn : g.nodes[id]? = some node)
    {index : Nat} :
    group.isFor node.plan index = true ↔ group.plan = node.plan ∧ group.index = index := by
  obtain ⟨compilations, -, -, hcoherent, honce⟩ := compiled_once h
  obtain ⟨compiled, hc, hw⟩ := (hcoherent.waiting group hg).1.1
  obtain ⟨compiled', hc', hw'⟩ := (hcoherent.nodes id node hn).1
  rw [Group.isFor_iff, Group.place, Prod.mk.injEq]
  refine and_congr_left fun _ => ⟨fun heq => ?_, congrArg NodePlan.origin⟩
  exact (honce compiled hc compiled' hc' _ _ hw hw' heq).2

end

end Resolution

end ObjectGraph
