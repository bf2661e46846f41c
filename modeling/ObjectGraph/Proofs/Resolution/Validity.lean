import ObjectGraph.Proofs.Plan.Quoting
import ObjectGraph.Proofs.Plan.Refusals
import ObjectGraph.Proofs.Resolution.Faults
import ObjectGraph.Proofs.Resolution.Lockstep

/-! # Which requests are rejected

A request is rejected where its root statement is refused, or the follow-up of a list that some
parent with a key asks for (`rejected_iff`): a list that nobody asks for is not planned at all, so
that whether a request is rejected may depend on what is stored (`rejected_with_rows`).  It depends
on no more than this.  What a follow-up is refused for is the same for all keys, a parameter that is
missing apart; hence two storages under which the same lists are asked for, and the same of them
lack a parameter, reject the same requests (`rejected_alike`).  Where no SQL is written in the
schema no parameter is ever missing (`rejected_alike_of_unwritten`). -/

namespace ObjectGraph

namespace Resolution

open ObjectGraph.Graph (Group)
open Plan (Environment Compiled NodePlan ManyPlan)

/-! ### Refusals of a round -/

section

variable {env : Environment} {g : Graph} {groups : List Group} {e : Plan.Error}

/-- Some group is refused a follow-up for the keys of its parents. -/
def RefusedIn (env : Environment) (g : Graph) (groups : List Group) (e : Plan.Error) : Prop :=
  ∃ group ∈ groups, ∃ m, group.relation? = some m ∧ g.parentKeys group ≠ [] ∧
    Plan.compileMany env m (g.parentKeys group) = .error e

theorem RefusedIn.cons {group : Group} (h : RefusedIn env g groups e) :
    RefusedIn env g (group :: groups) e := by
  obtain ⟨group', hg, h⟩ := h
  exact ⟨group', List.mem_cons_of_mem _ hg, h⟩

theorem parentKeys_attachNone (g : Graph) (group group' : Group) :
    (g.attachNone group').parentKeys group = g.parentKeys group :=
  Graph.attachNone_invariant (P := fun g' => g'.parentKeys group = g.parentKeys group)
    (fun _ _ h => parentKeys_setLinks.trans h) rfl

theorem refusedIn_attachNone {group : Group} :
    RefusedIn env (g.attachNone group) groups e ↔ RefusedIn env g groups e := by
  unfold RefusedIn
  simp only [parentKeys_attachNone]

/-- The plans of groups fail for the refusal of one of them. -/
theorem planGroups_error {fault : Fault} (h : planGroups env groups g = .error fault) :
    ∃ e, fault = .plan e ∧ RefusedIn env g groups e := by
  induction groups generalizing g with
  | nil => cases h
  | cons group groups ih =>
    cases hrelation : group.relation? with
    | none =>
      rw [planGroups, hrelation] at h
      obtain ⟨e, he, hrefused⟩ := ih h
      exact ⟨e, he, (refusedIn_attachNone.1 hrefused).cons⟩
    | some m =>
      by_cases hkeys : g.parentKeys group = []
      · rw [planGroups_cons_none hrelation hkeys] at h
        obtain ⟨e, he, hrefused⟩ := ih h
        exact ⟨e, he, (refusedIn_attachNone.1 hrefused).cons⟩
      · rw [planGroups_cons_some hrelation hkeys] at h
        cases hc : Plan.compileMany env m (g.parentKeys group) with
        | error e =>
          rw [hc] at h
          cases h
          exact ⟨e, rfl, group, List.mem_cons_self, m, hrelation, hkeys, hc⟩
        | ok compiled =>
          rw [hc] at h
          cases hrest : planGroups env groups g with
          | error fault' =>
            change (planGroups env groups g).map _ = _ at h
            rw [hrest] at h
            cases h
            obtain ⟨e, he, hrefused⟩ := ih hrest
            exact ⟨e, he, hrefused.cons⟩
          | ok p =>
            change (planGroups env groups g).map _ = _ at h
            rw [hrest] at h
            cases h

theorem RefusedIn.planGroups_error (h : RefusedIn env g groups e) :
    ∃ e', planGroups env groups g = .error (.plan e') := by
  induction groups generalizing g with
  | nil =>
    obtain ⟨_, hg, -⟩ := h
    cases hg
  | cons first groups ih =>
    obtain ⟨group, hg, m, hrelation, hkeys, hc⟩ := h
    rcases List.mem_cons.1 hg with rfl | hg
    · refine ⟨e, ?_⟩
      rw [planGroups_cons_some hrelation hkeys, hc]
      rfl
    · have hrest : RefusedIn env g groups e := ⟨group, hg, m, hrelation, hkeys, hc⟩
      cases hfirst : first.relation? with
      | none =>
        rw [planGroups, hfirst]
        exact ih (refusedIn_attachNone.2 hrest)
      | some m' =>
        by_cases hnone : g.parentKeys first = []
        · rw [planGroups_cons_none hfirst hnone]
          exact ih (refusedIn_attachNone.2 hrest)
        · rw [planGroups_cons_some hfirst hnone]
          cases Plan.compileMany env m' (g.parentKeys first) with
          | error e' => exact ⟨e', rfl⟩
          | ok compiled =>
            obtain ⟨e', he'⟩ := ih hrest
            refine ⟨e', ?_⟩
            change (planGroups env groups g).map _ = _
            rw [he']
            rfl

end

/-! ### Requests that are rejected -/

section

variable (env : Environment) (request : Request) (filter : Option Schema.TypeFilter)
  (storage : Storage)

/-- A request is rejected for the schema, the settings or its own form. -/
def Rejected : Prop :=
  ∃ e, ((answer env request filter).outcome storage).1 = .error (.plan e)

/-- A list is asked for by parents that have some keys: after some rounds a group of them waits for
it. -/
def AsksFor (m : ManyPlan) (keys : List (List Json)) : Prop :=
  ∃ rounds g log group, Reached env request filter storage rounds g log ∧ group ∈ g.waiting ∧
    group.relation? = some m ∧ g.parentKeys group = keys ∧ keys ≠ []

end

section

variable {env : Environment} {request : Request} {filter : Option Schema.TypeFilter}
  {storage : Storage} {n : Nat} {g g' : Graph} {log log' : List Sql.Statement} {e : Plan.Error}

theorem Reached.asksFor (h : Reached env request filter storage n g log)
    (hrefused : RefusedIn env g g.waiting e) :
    ∃ m keys, AsksFor env request filter storage m keys ∧
      Plan.compileMany env m keys = .error e := by
  obtain ⟨group, hg, m, hrelation, hkeys, hc⟩ := hrefused
  exact ⟨m, _, ⟨n, g, log, group, h, hg, hrelation, rfl, hkeys⟩, hc⟩

/-- A round that is refused is refused the follow-up of a list that is asked for. -/
theorem round_refused {log : List Sql.Statement}
    (h : round env g storage log = (.error (.plan e), log')) : RefusedIn env g g.waiting e := by
  rw [round_apply] at h
  cases hplan : planGroups env g.waiting { g with waiting := [] } with
  | error fault =>
    rw [hplan] at h
    obtain ⟨e', rfl, hrefused⟩ := planGroups_error hplan
    cases h
    exact hrefused
  | ok p =>
    obtain ⟨planned, g₁⟩ := p
    rw [hplan] at h
    simp only at h
    rcases hfetch : (planned.mapM fetchGroup : Session Fault _) storage log with ⟨result, log₁⟩
    rw [hfetch] at h
    cases result with
    | error fault =>
      obtain ⟨-, -, -, -, herror⟩ := fetchGroups_log hfetch
      obtain ⟨s, rfl⟩ := herror fault rfl
      cases h
    | ok fetched =>
      simp only at h
      cases hattach : (attachAll fetched).result g₁ with
      | error fault =>
        have hdata := result_unrefused (attachAll_unrefused fetched) hattach
        rw [hattach] at h
        cases h
        exact absurd trivial hdata
      | ok p =>
        rw [hattach] at h
        cases h

theorem RefusedIn.round (h : RefusedIn env g g.waiting e) (storage : Storage)
    (log : List Sql.Statement) :
    ∃ e', Resolution.round env g storage log = (.error (.plan e'), log) := by
  have h' : RefusedIn env { g with waiting := [] } g.waiting e := h
  obtain ⟨e', he'⟩ := h'.planGroups_error
  refine ⟨e', ?_⟩
  rw [round_apply, he']

/-- Rounds that are refused are refused the follow-up of a list that is asked for. -/
theorem Reached.rounds_refused (h : Reached env request filter storage n g log) {bound : Nat}
    (hrounds : rounds env bound g storage log = (.error (.plan e), log')) :
    ∃ m keys, AsksFor env request filter storage m keys ∧
      Plan.compileMany env m keys = .error e := by
  induction bound generalizing n g log with
  | zero => cases hrounds
  | succ bound ih =>
    by_cases hwaiting : g.waiting = []
    · rw [rounds_of_none hwaiting] at hrounds
      cases hrounds
    · rw [rounds_of_some hwaiting, Session.bind_apply] at hrounds
      rcases hr : Resolution.round env g storage log with ⟨fault | g₁, log₁⟩
      · rw [hr] at hrounds
        cases hrounds
        exact h.asksFor (round_refused hr)
      · rw [hr] at hrounds
        exact ih (.next h hwaiting hr) hrounds

/-- The root statement is compiled and fetched, its rows are added, and then the rounds go on. -/
theorem fetchAll_apply : fetchAll env request filter storage [] =
    match Plan.compileRoot env request filter with
    | .error e => (.error (.plan e), [])
    | .ok root =>
      match storage.answer [] root.statement with
      | .error s => (.error (.storage s), [root.statement])
      | .ok rows =>
        match (Graph.addRows root.plan rows).result {} with
        | .error fault => (.error fault, [root.statement])
        | .ok (roots, g) =>
          (rounds env request.depth g >>= fun g' => pure (roots, g')) storage [root.statement] := by
  unfold fetchAll gather
  cases Plan.compileRoot env request filter with
  | error e => rfl
  | ok root =>
    change (Session.ofExcept (.ok root) >>= _) storage [] = _
    rw [Session.ofExcept_bind, Session.bind_apply]
    unfold Session.mapError Session.fetch
    simp only
    cases storage.answer [] root.statement with
    | error s => rfl
    | ok rows =>
      have hgrowing : growing (Graph.addRows root.plan rows) {} =
          Session.ofExcept ((Graph.addRows root.plan rows).result {}) := rfl
      change (growing (Graph.addRows root.plan rows) {} >>= _) storage [root.statement] = _
      rw [hgrowing]
      cases hadd : (Graph.addRows root.plan rows).result {} with
      | error fault =>
        simp only [hadd]
        rfl
      | ok p =>
        simp only [hadd]
        rfl

/-- What is done for a request goes through every graph that it reaches. -/
theorem Reached.fetchAll_eq (h : Reached env request filter storage n g log) :
    ∃ roots, fetchAll env request filter storage [] =
      (rounds env request.depth g >>= fun g' => pure (roots, g')) storage log := by
  obtain ⟨root, hcompile⟩ := h.compiled
  induction h with
  | @start root rows roots g hc hanswer hadd =>
    refine ⟨roots, ?_⟩
    rw [fetchAll_apply, hc]
    simp only [hanswer, hadd]
  | @next n g g' log log' h hwaiting hround ih =>
    obtain ⟨roots, hfetchAll⟩ := ih
    refine ⟨roots, hfetchAll.trans ?_⟩
    have hkept : Kept env root.plan (n + 1) [] g' :=
      (Reached.next h hwaiting hround).kept hcompile
    have hdepth : request.depth = request.depth - 1 + 1 := by
      unfold Request.depth
      omega
    have hbound : rounds env (request.depth - 1) g' = rounds env request.depth g' :=
      hkept.rounds_eq hcompile (by omega) (by omega)
    have hstep : rounds env request.depth g storage log =
        rounds env request.depth g' storage log' := by
      rw [← hbound, hdepth, rounds_of_some hwaiting, Session.bind_apply, hround]
      rfl
    rw [Session.bind_apply, Session.bind_apply, hstep]

end

section

variable {env : Environment} {request : Request} {filter : Option Schema.TypeFilter}
  {storage : Storage} {e : Plan.Error}

theorem AsksFor.rejected {m : ManyPlan} {keys : List (List Json)}
    (h : AsksFor env request filter storage m keys)
    (hc : Plan.compileMany env m keys = .error e) : Rejected env request filter storage := by
  obtain ⟨n, g, log, group, hreached, hg, hrelation, rfl, hkeys⟩ := h
  have hrefused : RefusedIn env g g.waiting e := ⟨group, hg, m, hrelation, hkeys, hc⟩
  obtain ⟨e', hround⟩ := hrefused.round storage log
  obtain ⟨roots, hfetchAll⟩ := hreached.fetchAll_eq
  have hdepth : request.depth = request.depth - 1 + 1 := by
    unfold Request.depth
    omega
  rw [hdepth, rounds_of_some (List.ne_nil_of_mem hg), bind_assoc, Session.bind_apply, hround]
    at hfetchAll
  refine ⟨e', ?_⟩
  change (answer env request filter storage []).1 = _
  rw [answer_eq, Session.bind_apply, hfetchAll]

/-- What is done for a request is refused for its root statement, or for the follow-up of a list
that is asked for. -/
theorem fetchAll_refused {log : List Sql.Statement}
    (h : fetchAll env request filter storage [] = (.error (.plan e), log)) :
    Plan.compileRoot env request filter = .error e ∨
      ∃ m keys, AsksFor env request filter storage m keys ∧
        Plan.compileMany env m keys = .error e := by
  rw [fetchAll_apply] at h
  cases hcompile : Plan.compileRoot env request filter with
  | error e' =>
    rw [hcompile] at h
    cases h
    exact .inl rfl
  | ok root =>
    rw [hcompile] at h
    simp only at h
    cases hanswer : storage.answer [] root.statement with
    | error s =>
      rw [hanswer] at h
      cases h
    | ok rows =>
      rw [hanswer] at h
      simp only at h
      cases hadd : (Graph.addRows root.plan rows).result {} with
      | error fault =>
        have hdata := result_unrefused (Graph.addRows_unrefused root.plan rows) hadd
        rw [hadd] at h
        cases h
        exact absurd trivial hdata
      | ok p =>
        obtain ⟨roots, g⟩ := p
        rw [hadd] at h
        simp only at h
        rw [Session.bind_apply] at h
        rcases hrounds : rounds env request.depth g storage [root.statement] with
          ⟨fault | g', log'⟩
        · rw [hrounds] at h
          cases h
          exact .inr ((Reached.start hcompile hanswer hadd).rounds_refused hrounds)
        · rw [hrounds] at h
          cases h

/-- What a request is rejected for, its root statement is refused for or the follow-up of a list
that is asked for. -/
theorem answer_rejected
    (h : ((answer env request filter).outcome storage).1 = .error (.plan e)) :
    Plan.compileRoot env request filter = .error e ∨
      ∃ m keys, AsksFor env request filter storage m keys ∧
        Plan.compileMany env m keys = .error e := by
  change (answer env request filter storage []).1 = _ at h
  rw [answer_eq, Session.bind_apply] at h
  rcases hfetch : fetchAll env request filter storage [] with ⟨fault | ⟨roots, g⟩, log⟩
  · rw [hfetch] at h
    cases h
    exact fetchAll_refused hfetch
  · rw [hfetch] at h
    have hfinish : Session.Ends storage (finishRoots env.caller (roots, g)) _ _ :=
      finishRoots_unrefused roots g
    have hfinish := hfinish log
    simp only at h
    rw [h] at hfinish
    exact absurd trivial hfinish

/-- A request is rejected where its root statement is refused, or the follow-up of a list that is
asked for. -/
theorem rejected_iff : Rejected env request filter storage ↔
    (∃ e, Plan.compileRoot env request filter = .error e) ∨
      ∃ m keys e, AsksFor env request filter storage m keys ∧
        Plan.compileMany env m keys = .error e := by
  constructor
  · rintro ⟨e, h⟩
    exact (answer_rejected h).imp (fun h => ⟨e, h⟩) fun ⟨m, keys, h⟩ => ⟨m, keys, e, h⟩
  · rintro (⟨e, h⟩ | ⟨m, keys, e, hasks, hc⟩)
    · refine ⟨e, ?_⟩
      change (answer env request filter storage []).1 = _
      unfold answer
      rw [h]
      rfl
    · exact hasks.rejected hc

/-- A list lacks a parameter: its follow-up for some keys has a placeholder that none is bound
for. -/
def Lacks (env : Environment) (m : ManyPlan) (keys : List (List Json)) : Prop :=
  ∃ e, Plan.compileMany env m keys = .error e ∧ e.IsUnbound

/-- A request that is rejected is rejected under any other storage under which the same lists are
asked for, and lack a parameter where they did. -/
theorem Rejected.transfer {draft : Schema.Draft} {storage' : Storage}
    (hbuilt : draft.build = .ok env.registry)
    (hasked : ∀ m keys, AsksFor env request filter storage m keys →
      ∃ keys', AsksFor env request filter storage' m keys')
    (hlacks : ∀ m keys keys', AsksFor env request filter storage m keys →
      AsksFor env request filter storage' m keys' → Lacks env m keys → Lacks env m keys')
    (h : Rejected env request filter storage) : Rejected env request filter storage' := by
  rw [rejected_iff] at h ⊢
  refine h.imp_right ?_
  rintro ⟨m, keys, e, hasks, hc⟩
  obtain ⟨keys', hasks'⟩ := hasked m keys hasks
  by_cases he : e.IsUnbound
  · obtain ⟨e', hc', -⟩ := hlacks m keys keys' hasks hasks' ⟨e, hc, he⟩
    exact ⟨m, keys', e', hasks', hc'⟩
  · have hnever : ∀ typeName name resolved,
        env.registry.resolve typeName name = .ok resolved → resolved.Unaliased :=
      fun typeName name resolved hr => Schema.Draft.resolve_unaliased hbuilt hr
    exact ⟨m, keys', e, hasks', Plan.compileMany_refused hnever m keys keys' e hc he⟩

/-- Two storages reject the same requests, if the same lists are asked for under both and the same
of them lack a parameter. -/
theorem rejected_alike {draft : Schema.Draft} {storage' : Storage}
    (hbuilt : draft.build = .ok env.registry)
    (hasked : ∀ m, (∃ keys, AsksFor env request filter storage m keys) ↔
      ∃ keys, AsksFor env request filter storage' m keys)
    (hlacks : ∀ m keys keys', AsksFor env request filter storage m keys →
      AsksFor env request filter storage' m keys' → (Lacks env m keys ↔ Lacks env m keys')) :
    Rejected env request filter storage ↔ Rejected env request filter storage' :=
  ⟨Rejected.transfer hbuilt (fun m keys h => (hasked m).1 ⟨keys, h⟩)
      fun m keys keys' h h' => (hlacks m keys keys' h h').1,
    Rejected.transfer hbuilt (fun m keys h => (hasked m).2 ⟨keys, h⟩)
      fun m keys keys' h h' => (hlacks m keys' keys h' h).2⟩

theorem AsksFor.listed {root : Compiled} {m : ManyPlan} {keys : List (List Json)}
    (hcompile : Plan.compileRoot env request filter = .ok root)
    (h : AsksFor env request filter storage m keys) : Plan.Listed env root.plan m := by
  obtain ⟨n, g, log, group, hreached, hg, hrelation, -, -⟩ := h
  obtain ⟨sources, hledger⟩ := hreached.kept hcompile
  obtain ⟨i, m', hserved⟩ :=
    (hledger.waiting_grouped group hg).served (Plan.compileRoot_plannedFor hcompile).1
  cases hrelation.symm.trans hserved.relation
  exact hserved.listed

/-- Where no SQL is written in the schema, it only counts which lists are asked for. -/
theorem rejected_alike_of_unwritten {draft : Schema.Draft} {storage' : Storage}
    (hbuilt : draft.build = .ok env.registry) (hunwritten : env.registry.Unwritten)
    (hasked : ∀ m, (∃ keys, AsksFor env request none storage m keys) ↔
      ∃ keys, AsksFor env request none storage' m keys) :
    Rejected env request none storage ↔ Rejected env request none storage' := by
  have hlacks : ∀ storage m keys, AsksFor env request none storage m keys → ¬Lacks env m keys := by
    rintro storage m keys hasks ⟨e, hc, hunbound⟩
    obtain ⟨n, g, log, group, hreached, h⟩ := hasks
    obtain ⟨root, hcompile⟩ := hreached.compiled
    have hlisted := AsksFor.listed hcompile ⟨n, g, log, group, hreached, h⟩
    have hplanned := (Plan.compileRoot_plannedFor hcompile).1
    exact hlisted.bound hbuilt hunwritten hplanned keys e hc hunbound
  constructor
  · exact Rejected.transfer hbuilt (fun m keys h => (hasked m).1 ⟨keys, h⟩)
      fun m keys keys' h _ hl => absurd hl (hlacks storage m keys h)
  · exact Rejected.transfer hbuilt (fun m keys h => (hasked m).2 ⟨keys, h⟩)
      fun m keys keys' h _ hl => absurd hl (hlacks storage' m keys h)

end

/-! ### An instance

The comments of posts, with or without a filter. -/

namespace Threads

open Schema (Relation TypeFilter TypeMapping)

def commentsOf : Relation := { target := "Comment", many := true, join := .columns "id" "postId" }

def post : TypeMapping := { fields := [("comments", { source := .relation commentsOf })] }

def types (filter : Option TypeFilter) : Dictionary TypeMapping :=
  [("Post", post), ("Comment", { filter })]

def environment (filter : Option TypeFilter) : Environment :=
  { registry := ⟨types filter, none⟩, settings := {}, caller := {} }

/-- Posts with their comments, of which something is selected. -/
def request (below : List Selection) : Request :=
  { typeName := "Post", fields := [.nested "comments" below] }

/-- The body of a comment is no relation, and nothing can be selected of it. -/
def ofBody : List Selection := [.nested "body" [.scalar "x"]]

/-- A filter that asks for the second key of a follow-up. -/
def bySecondKey : TypeFilter := .script [.andWhere "score < :parentKeys_1" []]

def keyed (id : Int) : Row := [("__key_id", .num (.int id))]

/-- A storage with some posts, and no comments. -/
def storage (posts : List Row) : Storage := .scripted .sqlite [fun _ => .ok posts]

/-- What an outcome is refused for, if it is. -/
def refusal? {α : Type} : Except Fault α → Option Plan.Error
  | .error (.plan e) => some e
  | _ => none

theorem build_types (filter : Option TypeFilter) :
    ({ types := types filter } : Schema.Draft).build = .ok (environment filter).registry := by
  refine Schema.Draft.build_of_checked ?_
  rintro entry htype field hfield
  rcases List.mem_cons.1 htype with rfl | h
  · rw [List.mem_singleton.1 hfield]
    rfl
  · rw [List.mem_singleton.1 h] at hfield
    cases hfield

theorem rejected_iff_refusal {env : Environment} {request : Request}
    {filter : Option TypeFilter} {storage : Storage} :
    Rejected env request filter storage ↔
      (refusal? ((answer env request filter).outcome storage).1).isSome = true := by
  unfold Rejected
  constructor
  · rintro ⟨e, h⟩
    rw [h]
    rfl
  · intro h
    rcases hresult : ((answer env request filter).outcome storage).1 with (e | _ | _ | _) | objects
    · exact ⟨e, rfl⟩
    all_goals
      rw [hresult] at h
      cases h

end Threads

/-- Whether a request is rejected depends on what is stored: without posts nothing is selected of
a body, and a filter may have to wait for a second post. -/
theorem rejected_with_rows :
    (({ types := Threads.types none } : Schema.Draft).build =
        .ok (Threads.environment none).registry ∧
      ¬Rejected (Threads.environment none) (Threads.request Threads.ofBody) none
        (Threads.storage []) ∧
      Rejected (Threads.environment none) (Threads.request Threads.ofBody) none
        (Threads.storage [Threads.keyed 1])) ∧
    ({ types := Threads.types (some Threads.bySecondKey) } : Schema.Draft).build =
        .ok (Threads.environment (some Threads.bySecondKey)).registry ∧
      Rejected (Threads.environment (some Threads.bySecondKey))
        (Threads.request [.scalar "body"]) none (Threads.storage [Threads.keyed 1]) ∧
      ¬Rejected (Threads.environment (some Threads.bySecondKey))
        (Threads.request [.scalar "body"]) none
        (Threads.storage [Threads.keyed 1, Threads.keyed 2]) := by
  simp only [Threads.rejected_iff_refusal]
  exact ⟨⟨Threads.build_types _, by decide +kernel, by decide +kernel⟩, Threads.build_types _,
    by decide +kernel, by decide +kernel⟩

namespace Threads

def commentsField : Schema.Resolved :=
  { mapping := some { source := .relation commentsOf }, field := "comments" }

/-- The list of the comments of a post, of whose bodies something is selected. -/
def bodies : ManyPlan :=
  Plan.Site.manyPlan ⟨"Post", post, 1, []⟩ 0 "comments" commentsField commentsOf ofBody

/-- The plan of the posts. -/
def plan : NodePlan := ⟨[], "Post", [{ name := "comments", kind := .many 0 }], [bodies]⟩

theorem plan_eq {root : Compiled}
    (hroot : Plan.compileRoot (environment none) (request ofBody) none = .ok root) :
    root.plan = plan := by
  obtain ⟨horigin, htype, mapping, hm, hp⟩ := Plan.compileRoot_planned hroot
  cases hm
  have hplanned : Plan.Planned (environment none) ⟨"Post", post, 1, []⟩ 0 0
      [.nested "comments" ofBody] plan.fields plan.many :=
    @Plan.Planned.many _ _ _ _ _ commentsField commentsOf _ _ _ _ rfl rfl rfl .nil
  exact hp.plan_eq horigin htype hplanned

theorem root_compiles :
    ∃ root, Plan.compileRoot (environment none) (request ofBody) none = .ok root := by
  have hsome : (Plan.compileRoot (environment none) (request ofBody) none).toOption.isSome =
      true := by
    decide +kernel
  cases hroot : Plan.compileRoot (environment none) (request ofBody) none with
  | error e =>
    rw [hroot] at hsome
    cases hsome
  | ok root => exact ⟨root, rfl⟩

/-- The comments of posts are refused whatever the posts are. -/
theorem bodies_refused (keys : List (List Json)) :
    Plan.compileMany (environment none) bodies keys =
      .error (.unexpectedSelection "Comment" "body") := by
  have hnever : ∀ typeName name resolved,
      (environment none).registry.resolve typeName name = .ok resolved → resolved.Unaliased :=
    fun typeName name resolved hr => Schema.Draft.resolve_unaliased (build_types none) hr
  exact Plan.compileMany_refused hnever bodies [] keys _ rfl id

/-- Posts of which some wait for their comments, and have keys. -/
def Wait (posts : List Row) : Prop :=
  ∃ roots g parents, (Graph.addRows plan posts).result {} = .ok (roots, g) ∧
    g.waiting = [⟨plan, 0, parents⟩] ∧ g.parentKeys ⟨plan, 0, parents⟩ ≠ []

section

variable {posts : List Row} (hwait : Wait posts)

include hwait

/-- No round passes, since the comments are refused. -/
theorem reached_waiting {n : Nat} {g : Graph} {log : List Sql.Statement}
    (h : Reached (environment none) (request ofBody) none (storage posts) n g log) :
    ∃ parents, g.waiting = [⟨plan, 0, parents⟩] ∧ g.parentKeys ⟨plan, 0, parents⟩ ≠ [] := by
  obtain ⟨roots, g₀, parents, hadd, hwaiting, hkeys⟩ := hwait
  induction h with
  | start hc hanswer hadd' =>
    cases hanswer
    rw [plan_eq hc, hadd] at hadd'
    cases hadd'
    exact ⟨parents, hwaiting, hkeys⟩
  | @next n g g' log log' _ _ hround ih =>
    obtain ⟨parents', hwaiting', hkeys'⟩ := ih
    have hrefused : RefusedIn (environment none) g g.waiting
        (.unexpectedSelection "Comment" "body") := by
      rw [hwaiting']
      exact ⟨_, List.mem_singleton_self _, bodies, rfl, hkeys', bodies_refused _⟩
    obtain ⟨e, he⟩ := hrefused.round (storage posts) log
    rw [he] at hround
    cases hround

/-- The list of the comments is asked for, and no other. -/
theorem asked_iff {m : ManyPlan} :
    (∃ keys, AsksFor (environment none) (request ofBody) none (storage posts) m keys) ↔
      m = bodies := by
  constructor
  · rintro ⟨keys, n, g, log, group, hreached, hg, hrelation, -, -⟩
    obtain ⟨parents, hwaiting, -⟩ := reached_waiting hwait hreached
    rw [hwaiting] at hg
    cases List.mem_singleton.1 hg
    cases hrelation
    rfl
  · rintro rfl
    obtain ⟨root, hroot⟩ := root_compiles
    obtain ⟨roots, g, parents, hadd, hwaiting, hkeys⟩ := hwait
    rw [← plan_eq hroot] at hadd
    have hstart : Reached (environment none) (request ofBody) none (storage posts) 0 g _ :=
      .start hroot rfl hadd
    refine ⟨_, 0, g, _, ⟨plan, 0, parents⟩, hstart, ?_, rfl, rfl, hkeys⟩
    rw [hwaiting]
    exact List.mem_singleton_self _

end

end Threads

/-- One post and two posts ask for the same list, whose follow-up is refused. -/
theorem rejected_alike_posts :
    Rejected (Threads.environment none) (Threads.request Threads.ofBody) none
        (Threads.storage [Threads.keyed 1]) ∧
      (Rejected (Threads.environment none) (Threads.request Threads.ofBody) none
          (Threads.storage [Threads.keyed 1]) ↔
        Rejected (Threads.environment none) (Threads.request Threads.ofBody) none
          (Threads.storage [Threads.keyed 2, Threads.keyed 3])) := by
  have hfirst : Threads.Wait [Threads.keyed 1] := ⟨_, _, _, rfl, rfl, by decide⟩
  have hsecond : Threads.Wait [Threads.keyed 2, Threads.keyed 3] := ⟨_, _, _, rfl, rfl, by decide⟩
  obtain ⟨keys, hasks⟩ := (Threads.asked_iff hfirst).2 rfl
  refine ⟨hasks.rejected (Threads.bodies_refused keys), rejected_alike (Threads.build_types none)
    (fun m => (Threads.asked_iff hfirst).trans (Threads.asked_iff hsecond).symm) ?_⟩
  intro m keys keys' hasks hasks'
  rw [(Threads.asked_iff hfirst).1 ⟨keys, hasks⟩]
  have hlacks : ∀ keys, ¬Lacks (Threads.environment none) Threads.bodies keys := by
    rintro keys ⟨e, he, hunbound⟩
    rw [Threads.bodies_refused] at he
    cases he
    exact hunbound
  exact iff_of_false (hlacks keys) (hlacks keys')

end Resolution

end ObjectGraph
