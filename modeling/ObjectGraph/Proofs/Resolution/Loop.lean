import ObjectGraph.Proofs.Graph.Nodes
import ObjectGraph.Proofs.Resolution.Steps
import ObjectGraph.Proofs.Storage.Sessions

/-! # The loop of rounds

What a storage answers is left open here: any rows and any failures.  `round_apply` says what one
round does: it plans all groups that wait, issues their statements in order, and attaches what they
gave.  The graphs between the rounds are those that are `Reached`, and each of them keeps a ledger
(`Reached.kept`) in which every list is open or `followed`: closed with objects that follow-ups of
the list gave. -/

namespace ObjectGraph

namespace Resolution

open ObjectGraph.Graph (Group NodeId Runs)
open Plan (Environment Compiled NodePlan ManyPlan PlannedFor)

/-! ### Ledgers of any storage -/

/-- A list is closed with objects that follow-ups of it gave, and with the size of the pages of a
follow-up; where nothing was asked for, with no objects and no size. -/
structure Followed (env : Environment) (g : Graph) (sources : List Row) (m : ManyPlan)
    (children : List NodeId) (size : Option Nat) : Prop where
  objects : ∀ id ∈ children, ∃ keys compiled source,
    Plan.compileMany env m keys = .ok compiled ∧ Holds g sources id compiled.plan source
  sized : (children = [] ∧ size = none) ∨ ∃ keys compiled,
    Plan.compileMany env m keys = .ok compiled ∧ size = compiled.pageSize

/-- Closing lists with what follow-ups of them gave. -/
def followed (env : Environment) : Closing where
  holds g sources m _ children size := Followed env g sources m children size
  mono := by
    intro g g' sources sources' m row children size h he
    refine ⟨fun id hid => ?_, h.sized⟩
    obtain ⟨keys, compiled, source, hc, hh⟩ := h.objects id hid
    exact ⟨keys, compiled, source, hc, hh.mono he⟩
  blank := by
    intro g sources m row _
    exact ⟨(fun _ hid => nomatch hid), .inl ⟨rfl, rfl⟩⟩

/-- A graph has a ledger, whatever its objects are. -/
def Kept (env : Environment) (root : NodePlan) (round : Nat) (todo : List Group) (g : Graph) :
    Prop :=
  ∃ sources, Ledger env (followed env) root (fun _ _ => True) round todo g sources

theorem inherited_true (env : Environment) (world : World) :
    Inherited env world fun _ _ => True :=
  ⟨fun _ _ _ _ => trivial, fun _ _ _ _ _ _ _ => trivial⟩

/-- The world without any objects. -/
def World.empty : World := { children := fun _ _ => [], lookup := fun _ => .ok [] }

/-- A group is planned with a follow-up of its list. -/
def Asked (env : Environment) (planned : Planned) : Prop :=
  ∃ m keys, planned.group.relation? = some m ∧
    Plan.compileMany env m keys = .ok planned.compiled

theorem Ready.asked {env : Environment} {g : Graph} {planned : Planned}
    (h : Ready env g planned) : Asked env planned := by
  obtain ⟨m, keys, hrelation, -, -, hc⟩ := h
  exact ⟨m, keys, hrelation, hc⟩

theorem mem_childrenOf {g : Graph} {labels : List String} {children : List (String × NodeId)}
    {parent id : NodeId} (h : id ∈ g.childrenOf labels children parent) :
    ∃ key, (key, id) ∈ children := by
  unfold Graph.childrenOf at h
  split at h
  · cases h
  · obtain ⟨⟨key, id'⟩, hmem, heq⟩ := List.mem_filterMap.1 h
    split at heq
    · cases heq
      exact ⟨key, hmem⟩
    · cases heq

section

variable {env : Environment} {root : NodePlan} {selections : List Selection} {round : Nat}
  {g : Graph} {sources : List Row}
  (hroot : PlannedFor env selections root) (horigin : root.origin = [])

include hroot horigin

/-- Any rows of a follow-up close the lists of its group. -/
theorem Asked.attach_runs {fetched : Fetched} {post : List Group}
    (hasked : Asked env fetched.planned)
    (h : Ledger env (followed env) root (fun _ _ => True) round (fetched.planned.group :: post) g
      sources) :
    Runs (Graph.attach fetched.planned.group fetched.planned.compiled.plan
        fetched.planned.compiled.partitionLabels fetched.planned.compiled.pageSize fetched.rows) g
      (fun _ g' => ∃ sources',
        Grown env (followed env) root (fun _ _ => True) round post g sources g' sources')
      (fun e => ¬e.IsGap) := by
  obtain ⟨m, keys, hrelation, hc⟩ := hasked
  refine (Resolution.attach_runs hroot horigin (inherited_true env World.empty) h hrelation hc
    (fun _ _ => trivial) ?_).mono (fun _ _ h => h) fun _ hf => hf.2
  intro g₁ sources₁ children _ hchildren parent _ node _
  refine ⟨fun id hid => ?_, .inr ⟨keys, _, hc, rfl⟩⟩
  obtain ⟨key, hmem⟩ := mem_childrenOf hid
  obtain ⟨row, -, -, hholds⟩ := Outcome.forall₂_mem hchildren hmem
  exact ⟨keys, _, row, hc, hholds⟩

theorem Kept.planGroups (h : Kept env root round [] g) :
    match Resolution.planGroups env g.waiting { g with waiting := [] } with
    | .ok (planned, g₁) =>
      Kept env root (round + 1) (planned.map Planned.group) g₁ ∧ g.Keeps g₁ ∧
        g₁.nodes.size = g.nodes.size ∧ ∀ p ∈ planned, Asked env p
    | .error fault => ∃ e, fault = .plan e := by
  obtain ⟨sources, h⟩ := h
  have hplan := planGroups_ledger hroot horigin [] (h.next hroot horigin)
  split
  · next planned g₁ hok =>
    rw [hok] at hplan
    obtain ⟨h₁, he, hready⟩ := hplan
    exact ⟨⟨sources, h₁⟩, he.nodes, h₁.sized.symm.trans h.sized, fun p hp => (hready p hp).asked⟩
  · next fault herror =>
    rw [herror] at hplan
    obtain ⟨e, he, -⟩ := hplan
    exact ⟨e, he⟩

theorem Kept.attachAll {fetched : List Fetched}
    (h : Kept env root round (fetched.map fun f => f.planned.group) g)
    (hasked : ∀ f ∈ fetched, Asked env f.planned) :
    match (Resolution.attachAll fetched).result g with
    | .ok (_, g') => Kept env root round [] g' ∧ g.Keeps g'
    | .error e => ¬e.IsGap := by
  obtain ⟨sources, h⟩ := h
  have hruns := attachAll_runs (P := fun _ f => Asked env f.planned) (fun hf _ _ => hf)
    (fun hf hl => Asked.attach_runs hroot horigin hf hl) h hasked
  rw [Graph.runs_iff] at hruns
  split
  · next a g' hok =>
    rw [hok] at hruns
    obtain ⟨sources', h', he⟩ := hruns
    exact ⟨⟨sources', h'⟩, he.nodes⟩
  · next e herror =>
    rw [herror] at hruns
    exact hruns

end

/-! ### One round -/

section

variable {env : Environment} {storage : Storage} {g : Graph} {log log' : List Sql.Statement}

/-- The statement of a planned group. -/
def Planned.statement (planned : Planned) : Sql.Statement := planned.compiled.statement

theorem fetchGroup_apply (planned : Planned) :
    fetchGroup planned storage log =
      (((storage.answer log planned.statement).mapError .storage).map (Fetched.mk planned),
        log ++ [planned.statement]) := by
  unfold fetchGroup
  rw [Session.bind_apply]
  unfold Session.mapError Session.fetch Planned.statement
  simp only
  cases storage.answer log planned.compiled.statement <;> rfl

/-- Groups are fetched in order up to the first failure, and all of them if there is none. -/
theorem fetchGroups_log {planned : List Planned} {result : Except Fault (List Fetched)}
    (h : (planned.mapM fetchGroup : Session Fault _) storage log = (result, log')) :
    ∃ issued, issued <+: planned ∧ log' = log ++ issued.map Planned.statement ∧
      (∀ fetched, result = .ok fetched →
        issued = planned ∧ fetched.map Fetched.planned = planned) ∧
      ∀ e, result = .error e → ∃ s, e = .storage s := by
  induction planned generalizing log log' result with
  | nil =>
    cases h
    refine ⟨[], List.nil_prefix, (List.append_nil _).symm, ?_, fun _ he => nomatch he⟩
    intro fetched hf
    cases hf
    exact ⟨rfl, rfl⟩
  | cons first planned ih =>
    rw [List.mapM_cons, Session.bind_apply, fetchGroup_apply] at h
    cases hanswer : storage.answer log first.statement with
    | error s =>
      rw [hanswer] at h
      cases h
      refine ⟨[first], ⟨planned, rfl⟩, rfl, (fun _ hf => nomatch hf), ?_⟩
      intro e he
      cases he
      exact ⟨s, rfl⟩
    | ok rows =>
      rw [hanswer] at h
      change (planned.mapM fetchGroup >>= _) storage (log ++ [first.statement]) = _ at h
      rw [Session.bind_apply] at h
      cases hrest : (planned.mapM fetchGroup : Session Fault _) storage
          (log ++ [first.statement]) with
      | mk rest log₁ =>
        obtain ⟨issued, hissued, hlog, hok, herror⟩ := ih hrest
        rw [hrest] at h
        refine ⟨first :: issued, List.cons_prefix_cons.2 ⟨rfl, hissued⟩, ?_, ?_, ?_⟩
        · have hlog' : log' = log₁ := by
            cases rest <;> cases h <;> rfl
          rw [hlog', hlog, List.append_assoc]
          rfl
        · intro fetched hf
          cases rest with
          | error e =>
            cases h
            cases hf
          | ok others =>
            cases h
            cases hf
            obtain ⟨rfl, hothers⟩ := hok others rfl
            exact ⟨rfl, congrArg (first :: ·) hothers⟩
        · intro e he
          cases rest with
          | error e' =>
            cases h
            cases he
            exact herror e rfl
          | ok others =>
            cases h
            cases he

/-- A round plans all groups, fetches all lists, and attaches all rows. -/
theorem round_apply :
    round env g storage log =
      match planGroups env g.waiting { g with waiting := [] } with
      | .error e => (.error e, log)
      | .ok (planned, g₁) =>
        match (planned.mapM fetchGroup : Session Fault _) storage log with
        | (.error e, log') => (.error e, log')
        | (.ok fetched, log') => (((attachAll fetched).result g₁).map Prod.snd, log') := by
  unfold round
  simp only [Graph.takeWaiting]
  rw [Session.bind_apply]
  unfold Session.ofExcept
  cases planGroups env g.waiting { g with waiting := [] } with
  | error e => rfl
  | ok p =>
    obtain ⟨planned, g₁⟩ := p
    simp only
    rw [Session.bind_apply]
    rcases (planned.mapM fetchGroup : Session Fault _) storage log with ⟨e | fetched, log'⟩
    · rfl
    · change (growing (attachAll fetched) g₁ >>= _) storage log' = _
      have hgrowing : growing (attachAll fetched) g₁ storage log' =
          ((attachAll fetched).result g₁, log') := rfl
      rw [Session.bind_apply, hgrowing]
      simp only
      cases (attachAll fetched).result g₁ <;> rfl

theorem round_ok {g' : Graph} (h : round env g storage log = (.ok g', log')) :
    ∃ planned g₁ fetched,
      planGroups env g.waiting { g with waiting := [] } = .ok (planned, g₁) ∧
      (planned.mapM fetchGroup : Session Fault _) storage log = (.ok fetched, log') ∧
      (attachAll fetched).result g₁ = .ok ((), g') := by
  rw [round_apply] at h
  cases hplan : planGroups env g.waiting { g with waiting := [] } with
  | error e =>
    rw [hplan] at h
    cases h
  | ok p =>
    obtain ⟨planned, g₁⟩ := p
    rw [hplan] at h
    simp only at h
    rcases hfetch : (planned.mapM fetchGroup : Session Fault _) storage log with
      ⟨e | fetched, log''⟩
    · rw [hfetch] at h
      cases h
    · rw [hfetch] at h
      simp only at h
      cases hattach : (attachAll fetched).result g₁ with
      | error e =>
        rw [hattach] at h
        cases h
      | ok p =>
        rw [hattach] at h
        cases h
        exact ⟨planned, g₁, fetched, rfl, hfetch, hattach⟩

end

/-- A round keeps the ledger, and what it fails for is no gap. -/
theorem Kept.round_ends {env : Environment} {root : NodePlan} {selections : List Selection}
    {round : Nat} {g : Graph} {storage : Storage} (hroot : PlannedFor env selections root)
    (horigin : root.origin = []) (h : Kept env root round [] g) :
    Session.Ends storage (Resolution.round env g)
      (fun g' => Kept env root (round + 1) [] g' ∧ g.Keeps g') (fun e => ¬e.IsGap) := by
  intro log
  have hplanned := h.planGroups hroot horigin
  rw [round_apply]
  cases hplan : Resolution.planGroups env g.waiting { g with waiting := [] } with
  | error e =>
    rw [hplan] at hplanned
    obtain ⟨e, rfl⟩ := hplanned
    exact id
  | ok p =>
    obtain ⟨planned, g₁⟩ := p
    rw [hplan] at hplanned
    obtain ⟨h₁, he₁, -, hasked⟩ := hplanned
    simp only
    rcases hfetch : (planned.mapM fetchGroup : Session Fault _) storage log with ⟨result, log'⟩
    obtain ⟨_, -, -, hok, herror⟩ := fetchGroups_log hfetch
    cases result with
    | error e =>
      obtain ⟨s, rfl⟩ := herror e rfl
      exact id
    | ok fetched =>
      have hgroups := (hok fetched rfl).2
      rw [← hgroups, List.map_map] at h₁
      have hattached := Kept.attachAll hroot horigin h₁ fun f hf =>
        hasked f.planned (hgroups ▸ List.mem_map_of_mem hf)
      simp only
      cases hattach : (Resolution.attachAll fetched).result g₁ with
      | error e =>
        rw [hattach] at hattached
        exact hattached
      | ok p =>
        rw [hattach] at hattached
        exact ⟨hattached.1, he₁.trans hattached.2⟩

/-! ### All rounds -/

/-- Add the root rows and go through all rounds. -/
def gather (env : Environment) (request : Request) (plan : NodePlan) (rows : List Row) :
    Session Fault (List NodeId × Graph) := do
  let (roots, graph) ← growing (Graph.addRows plan rows) {}
  let graph ← rounds env request.depth graph
  pure (roots, graph)

/-- Finish the roots of a graph. -/
def finishRoots (caller : Caller) : List NodeId × Graph → Session Fault (List Object)
  | (roots, graph) => do
    let finished ← roots.mapM (graph.finish caller)
    pure (finished.map Finished.output)

/-- All that is done for a request before its objects are finished. -/
def fetchAll (env : Environment) (request : Request) (filter : Option Schema.TypeFilter) :
    Session Fault (List NodeId × Graph) := do
  let root ← Session.ofExcept ((Plan.compileRoot env request filter).mapError .plan)
  let rows ← Session.mapError .storage (Session.fetch root.statement)
  gather env request root.plan rows

theorem answer_eq (env : Environment) (request : Request) (filter : Option Schema.TypeFilter) :
    answer env request filter = fetchAll env request filter >>= finishRoots env.caller := by
  unfold answer fetchAll gather
  simp only [bind_assoc, pure_bind]
  rfl

/-- What every round passes on while a group waits is there in the end, and then no group waits,
if there are bounds to the number of rounds with a group that waits. -/
theorem rounds_ends_of {env : Environment} {storage : Storage} {P : Nat → Graph → Prop}
    {fault : Fault → Prop} {depth round bound : Nat} {g : Graph}
    (hdepth : ∀ round g, P round g → g.waiting ≠ [] → round + 1 < depth)
    (hround : ∀ round g, P round g → g.waiting ≠ [] →
      Session.Ends storage (Resolution.round env g) (P (round + 1)) fault)
    (hbound : depth ≤ round + 1 + bound) (h : P round g) :
    Session.Ends storage (rounds env bound g) (fun g' => (∃ last, P last g') ∧ g'.waiting = [])
      fault := by
  induction bound generalizing round g with
  | zero =>
    refine Session.Ends.pure ⟨⟨round, h⟩, ?_⟩
    by_contra hwaiting
    have := hdepth round g h hwaiting
    omega
  | succ bound ih =>
    unfold rounds
    cases hw : g.waiting with
    | nil => exact Session.Ends.pure ⟨⟨round, h⟩, hw⟩
    | cons group groups =>
      refine (hround round g h ?_).bind fun g' h' => ih (by omega) h'
      rw [hw]
      exact List.cons_ne_nil _ _

/-- The graphs that the rounds of a request lead to, with the number of rounds and the statements
that were issued. -/
inductive Reached (env : Environment) (request : Request) (filter : Option Schema.TypeFilter)
    (storage : Storage) : (rounds : Nat) → Graph → List Sql.Statement → Prop
  | start {root : Compiled} {rows : List Row} {roots : List NodeId} {g : Graph} :
      Plan.compileRoot env request filter = .ok root →
      storage.answer [] root.statement = .ok rows →
      (Graph.addRows root.plan rows).result {} = .ok (roots, g) →
      Reached env request filter storage 0 g [root.statement]
  | next {rounds : Nat} {g g' : Graph} {log log' : List Sql.Statement} :
      Reached env request filter storage rounds g log → g.waiting ≠ [] →
      round env g storage log = (.ok g', log') →
      Reached env request filter storage (rounds + 1) g' log'

section

variable {env : Environment} {request : Request} {filter : Option Schema.TypeFilter}
  {storage : Storage} {root : Compiled} {round : Nat} {g g' : Graph}
  {log log' : List Sql.Statement}

theorem Reached.compiled (h : Reached env request filter storage round g log) :
    ∃ root, Plan.compileRoot env request filter = .ok root := by
  induction h with
  | start hc _ _ => exact ⟨_, hc⟩
  | next _ _ _ ih => exact ih

section

variable (hcompile : Plan.compileRoot env request filter = .ok root)

include hcompile

/-- The root rows are added to the empty graph. -/
theorem kept_addRows (rows : List Row) :
    match (Graph.addRows root.plan rows).result {} with
    | .ok (roots, g) => Kept env root.plan 0 [] g ∧
      ∀ id ∈ roots, ∃ node, g.nodes[id]? = some node ∧ node.plan = root.plan
    | .error e => ¬e.IsGap := by
  obtain ⟨hroot, horigin⟩ := Plan.compileRoot_plannedFor hcompile
  have hempty : Ledger env (followed env) root.plan (fun _ _ => True) 0 [] {} [] := Ledger.empty
  have hruns := addRows_runs hroot horigin (inherited_true env World.empty) hempty .root
    fun row (_ : row ∈ rows) => trivial
  rw [Graph.runs_iff] at hruns
  split
  · next roots g hok =>
    rw [hok] at hruns
    obtain ⟨sources, ⟨h, -⟩, hroots⟩ := hruns
    refine ⟨⟨sources, h⟩, fun id hid => ?_⟩
    obtain ⟨row, -, hh⟩ := Outcome.forall₂_mem hroots hid
    exact hh.node
  · next e herror =>
    rw [herror] at hruns
    exact hruns.2

/-- A group that waits after some rounds leads to one level more. -/
theorem Ledger.lt_depth {C : Closing} {Q : NodePlan → Row → Prop} {sources : List Row}
    (h : Ledger env C root.plan Q round [] g sources) (hwaiting : g.waiting ≠ []) :
    round + 1 < request.depth := by
  obtain ⟨hroot, -⟩ := Plan.compileRoot_plannedFor hcompile
  obtain ⟨group, hg⟩ := List.exists_mem_of_ne_nil _ hwaiting
  have hgroup := h.waiting_grouped group hg
  obtain ⟨i, field, m, hi, hk, -⟩ := hgroup.list
  obtain ⟨below, hb, hle⟩ := hgroup.occurs.plannedFor hroot
  obtain ⟨_, -, -, hlt⟩ := hb.many_at hi hk
  unfold Request.depth
  omega

theorem Kept.lt_depth (h : Kept env root.plan round [] g) (hwaiting : g.waiting ≠ []) :
    round + 1 < request.depth := by
  obtain ⟨sources, h⟩ := h
  exact h.lt_depth hcompile hwaiting

/-- After the rounds of a request no group waits. -/
theorem Kept.rounds_ends {bound : Nat} (hbound : request.depth ≤ round + 1 + bound)
    (h : Kept env root.plan round [] g) :
    Session.Ends storage (rounds env bound g)
      (fun g' => (∃ last, Kept env root.plan last [] g' ∧ g.Keeps g') ∧ g'.waiting = [])
      (fun e => ¬e.IsGap) := by
  obtain ⟨hroot, horigin⟩ := Plan.compileRoot_plannedFor hcompile
  refine rounds_ends_of (P := fun r g' => Kept env root.plan r [] g' ∧ g.Keeps g')
    (fun r g' h => h.1.lt_depth hcompile) ?_ hbound ⟨h, Graph.Keeps.refl⟩
  rintro r g' ⟨h', he⟩ -
  exact (h'.round_ends hroot horigin).mono (fun g'' h'' => ⟨h''.1, he.trans h''.2⟩) fun _ h => h

/-- Every graph between the rounds keeps a ledger. -/
theorem Reached.kept (h : Reached env request filter storage round g log) :
    Kept env root.plan round [] g := by
  obtain ⟨hroot, horigin⟩ := Plan.compileRoot_plannedFor hcompile
  induction h with
  | @start _ rows _ _ hc _ hadd =>
    rw [hcompile] at hc
    cases hc
    have hadded := kept_addRows hcompile rows
    rw [hadd] at hadded
    exact hadded.1
  | @next _ _ _ log _ _ _ hround ih =>
    have hends : Session.Ends storage _ _ _ := ih.round_ends hroot horigin
    have hends := hends log
    rw [hround] at hends
    exact hends.1

end

end

end Resolution

end ObjectGraph
