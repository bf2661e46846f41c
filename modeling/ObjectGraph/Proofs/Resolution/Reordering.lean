import ObjectGraph.Proofs.Resolution.Schedules
import ObjectGraph.Proofs.Resolution.Thinned

/-! # The order of the groups is immaterial

A request is answered alike whatever the order in which the groups of its rounds are served, if the
answer of the storage to a statement is the same at any time (`answer_in_any_order`).

Another order numbers the nodes anew and reorders the groups of the next round, so two runs are
compared by counterparts.  One run goes ahead through a whole round (`round_ahead`).  The other then
follows in an order of its own (`round_follows`): it finds the counterpart of every group planned
(`planGroups_follow`), fetched (`fetchGroups_follow`) and attached (`attachAll_follows`), so nothing
depends on when it comes to the group.  Between rounds all nodes and groups of the run that follows
have counterparts (`Following`).  It ends if the other does, and the roots of both finish alike. -/

namespace ObjectGraph

namespace Session

variable {ε α β α' β' : Type} {storage storage' : Storage} {R : α → β → Prop}
  {S : α' → β' → Prop}

/-! ### Sessions that follow others -/

/-- If the second session ends with a value, then the first ends with a related one. -/
def Follows (storage storage' : Storage) (R : α → β → Prop) (x : Session ε α) (y : Session ε β) :
    Prop :=
  ∀ log log' b, (y storage' log').1 = .ok b → ∃ a, (x storage log).1 = .ok a ∧ R a b

theorem Follows.pure {a : α} {b : β} (h : R a b) :
    Follows storage storage' R (Pure.pure a : Session ε α) (Pure.pure b) := by
  intro _ _ _ hb
  cases hb
  exact ⟨a, rfl, h⟩

theorem Alike.follows {x : Session ε α} {y : Session ε β} (h : Alike storage storage' R x y) :
    Follows storage storage' R x y := fun log log' _ hb => (h log log').ok_of_right hb

theorem Follows.bind {x : Session ε α} {y : Session ε β} {f : α → Session ε α'}
    {f' : β → Session ε β'} (h : Follows storage storage' R x y)
    (hf : ∀ a b, R a b → Follows storage storage' S (f a) (f' b)) :
    Follows storage storage' S (x >>= f) (y >>= f') := by
  intro log log' b' hb'
  rw [bind_apply] at hb'
  rcases hy : y storage' log' with ⟨e | b, l'⟩
  · rw [hy] at hb'
    cases hb'
  · rw [hy] at hb'
    obtain ⟨a, ha, hab⟩ := h log log' b (congrArg Prod.fst hy)
    rw [bind_apply]
    rcases hx : x storage log with ⟨result, l⟩
    rw [hx] at ha
    cases ha
    exact hf a b hab l l' b' hb'

end Session

namespace Graph

variable {g g' : Graph} {group : Group}

theorem Settles.refl : Settles g g := fun _ node hn => ⟨node, hn, .refl⟩

/-- The keys of a group are in the rows of its parents. -/
theorem Settles.parentKeys (h : Settles g g')
    (hparents : ∀ id ∈ group.parents, ∃ node, g.nodes[id]? = some node) :
    g'.parentKeys group = g.parentKeys group := by
  unfold Graph.parentKeys
  cases group.relation? with
  | none => rfl
  | some relation =>
    refine congrArg (distinctKeys []) (List.filterMap_congr fun id hid => ?_)
    obtain ⟨node, hn⟩ := hparents id hid
    obtain ⟨node', hn', hb⟩ := h id node hn
    rw [hn, hn', Option.bind_some, Option.bind_some, hb.row]

end Graph

namespace Resolution

open ObjectGraph.Graph (Group GroupTwin Link Mirrors Node NodeId Settles)
open Plan (Environment NodePlan PlannedFor)
open Session (Alike Follows)

variable {env : Environment} {repeatable : Schema.Resolved → Prop} {R : NodeId → NodeId → Prop}
  {root : NodePlan} {selections : List Selection} {round : Nat} {g g' g₁ g₁' : Graph}
  {group : Group} {groups : List Group} {planned planned' : List Planned}
  {fetched fetched' past : List Fetched} {roots roots' : List NodeId} {storage : Storage}

/-! ### Planning -/

theorem Handled.settles (h : Handled env root g planned group) (hs : Settles g g')
    (hparents : ∀ id ∈ group.parents, ∃ node, g.nodes[id]? = some node) :
    Handled env root g' planned group := by
  unfold Handled at h ⊢
  rw [hs.parentKeys hparents]
  rcases h with ⟨hkeys, i, hi, hlinked⟩ | h
  · exact .inl ⟨hkeys, i, hi, hlinked.settles hs fun _ => nofun⟩
  · exact .inr h

section

variable (hroot : PlannedFor env selections root) (horigin : root.origin = [])

include hroot horigin

/-- Planning goes ahead: every group is given empty lists or is planned. -/
theorem planGroups_ahead (pre : List Group) (h : Kept env root round (pre ++ groups) g)
    (hplan : planGroups env groups g = .ok (planned, g₁)) :
    Settles g g₁ ∧ g₁.waiting = g.waiting ∧
      ∀ group ∈ groups, Handled env root g₁ planned group := by
  induction groups generalizing g pre planned with
  | nil =>
    cases hplan
    exact ⟨.refl, rfl, fun _ hg => nomatch hg⟩
  | cons group groups ih =>
    obtain ⟨⟨i, hopen⟩, r, hgrouped⟩ := h.open_at hroot pre
    obtain ⟨_, m, hserved⟩ := hgrouped.served hroot
    by_cases hk : g.parentKeys group = []
    · rw [planGroups_cons_none hserved.relation hk] at hplan
      obtain ⟨hsettles, hwaiting, hrest⟩ := ih pre (h.attachNone hroot horigin hk) hplan
      have hempty : Settles g (g.attachNone group) := by
        rw [hopen.listField.attachNone]
        exact hopen.settles _
      refine ⟨hempty.trans hsettles, hwaiting.trans hopen.waiting_attachNone,
        List.forall_mem_cons.2 ⟨(hopen.handled hk).settles hsettles fun id hid => ?_, hrest⟩⟩
      obtain ⟨node, hn, -⟩ := hopen.parents id hid
      obtain ⟨node', hn', -⟩ := hempty id node hn
      exact ⟨node', hn'⟩
    · rw [planGroups_cons_some hserved.relation hk] at hplan
      obtain ⟨compiled, hc, hplan⟩ := Outcome.bind_ok.1 hplan
      cases hothers : planGroups env groups g with
      | error e =>
        rw [hothers] at hplan
        cases hplan
      | ok result =>
        obtain ⟨others, g₂⟩ := result
        rw [hothers] at hplan
        cases hplan
        rw [List.append_cons] at h
        obtain ⟨hsettles, hwaiting, hrest⟩ := ih (pre ++ [group]) h hothers
        refine ⟨hsettles, hwaiting, List.forall_mem_cons.2 ⟨?_, fun other ho =>
          (hrest other ho).mono (List.subset_cons_self _ _)⟩⟩
        have hfirst : Handled env root g (⟨group, compiled⟩ :: others) group :=
          .inr ⟨hk, _, List.mem_cons_self, rfl, m, hserved.relation, hserved.listed,
            Outcome.mapError_ok.1 hc⟩
        refine hfirst.settles hsettles fun id hid => ?_
        obtain ⟨node, hn, -⟩ := hopen.parents id hid
        exact ⟨node, hn⟩

end

/-! ### Fetching -/

theorem fetchGroups_answers {log : List Sql.Statement}
    (h : ((planned.mapM fetchGroup : Session Fault _) storage log).1 = .ok fetched) :
    ∀ p ∈ planned, ∃ f ∈ fetched, f.planned = p ∧
      ∃ log, storage.answer log p.statement = .ok f.rows := by
  induction planned generalizing fetched log with
  | nil => exact fun _ hp => nomatch hp
  | cons first planned ih =>
    rw [fetchGroups_cons] at h
    obtain ⟨rows, hrows, h⟩ := Outcome.bind_ok.1 h
    cases hrest : ((planned.mapM fetchGroup : Session Fault _) storage
        (log ++ [first.statement])).1 with
    | error e =>
      rw [hrest] at h
      cases h
    | ok others =>
      rw [hrest] at h
      cases h
      refine List.forall_mem_cons.2 ⟨⟨_, List.mem_cons_self, rfl, log, ?_⟩, fun p hp => ?_⟩
      · exact Outcome.mapError_ok.1 hrows
      · obtain ⟨f, hf, hplanned⟩ := ih hrest p hp
        exact ⟨f, List.mem_cons_of_mem _ hf, hplanned⟩

/-- Fetching follows: a group is fetched with the rows of its counterpart. -/
theorem fetchGroups_follow
    (hplanned : ∀ p ∈ planned, ∃ p' ∈ planned', PlannedTwin env repeatable storage storage R p p') :
    Follows storage storage (fun fetched fetched' => ∀ f ∈ fetched, ∃ f' ∈ fetched',
        FetchedTwin env repeatable storage storage R f f')
      (planned.mapM fetchGroup : Session Fault _) (planned'.mapM fetchGroup) := by
  intro log log' fetched' hfetched'
  induction planned generalizing log with
  | nil => exact ⟨[], rfl, fun _ hf => nomatch hf⟩
  | cons first planned ih =>
    obtain ⟨⟨p', hp', htwin⟩, hplanned⟩ := List.forall_mem_cons.1 hplanned
    obtain ⟨f', hf', rfl, log'', hrows⟩ := fetchGroups_answers hfetched' p' hp'
    obtain ⟨others, hothers, hall⟩ := ih hplanned (log ++ [first.statement])
    refine ⟨⟨first, f'.rows⟩ :: others, ?_,
      List.forall_mem_cons.2 ⟨⟨f', hf', htwin, rfl⟩, hall⟩⟩
    rw [fetchGroups_cons, htwin.answers log log'', hrows, hothers]
    rfl

/-! ### Attaching -/

/-- Every group that waits in a graph has a counterpart that waits in another. -/
def GroupsFollow (env : Environment) (repeatable : Schema.Resolved → Prop)
    (R : NodeId → NodeId → Prop) (g g' : Graph) : Prop :=
  ∀ group ∈ g.waiting, ∃ group' ∈ g'.waiting, GroupTwin env repeatable R group group'

section

variable (hroot : PlannedFor env selections root) (horigin : root.origin = [])

include hroot horigin

/-- Attaching goes ahead: the rows of every group are attached in the end. -/
theorem attachAll_ahead (h : Kept env root round (fetched.map fun f => f.planned.group) g)
    (hasked : ∀ f ∈ fetched, Asked env f.planned) (hfed : Fed env root past fetched g)
    (hattach : (attachAll fetched).result g = .ok ((), g₁)) :
    Settles g g₁ ∧ g.waiting ⊆ g₁.waiting ∧ ∀ f ∈ fetched, Arrived g₁ f := by
  induction fetched generalizing g past with
  | nil =>
    cases hattach
    exact ⟨.refl, List.Subset.refl _, fun _ hf => nomatch hf⟩
  | cons first fetched ih =>
    obtain ⟨hasked₀, hasked⟩ := List.forall_mem_cons.1 hasked
    obtain ⟨⟨i, hopen⟩, -⟩ := Kept.open_at hroot [] h
    rw [attachAll_cons] at hattach
    obtain ⟨⟨⟨⟩, g₂⟩, hfirst, hrest⟩ := Outcome.bind_ok.1 hattach
    obtain ⟨m, _, nodes, children, hrelation, -, hunpacked, -⟩ := Graph.attach_ok hfirst
    obtain ⟨g₂', hfirst', hsettles, hgrew, hattached⟩ := attach_ahead hopen hrelation hunpacked
      (hfed.fresh hroot horigin)
    cases hfirst.symm.trans hfirst'
    obtain ⟨hsettles', hwaiting', hall⟩ := ih (h.attach hroot horigin hasked₀ hfirst) hasked
      (hfed.step hgrew) hrest
    have hwaiting : g.waiting ⊆ g₂.waiting := by
      rw [hgrew.waiting]
      exact List.subset_append_left _ _
    exact ⟨hsettles.trans hsettles', List.Subset.trans hwaiting hwaiting', List.forall_mem_cons.2
      ⟨⟨m, i, _, nodes, children, hattached.settles hsettles' hwaiting'⟩, hall⟩⟩

/-- Attaching follows: the rows of a group become counterparts of those that are attached to its
counterpart. -/
theorem attachAll_follows
    (hfetched : ∀ f ∈ fetched, ∃ f', Arrived g' f' ∧
      FetchedTwin env repeatable storage storage R f f')
    (hmirrors : Mirrors env repeatable R g g')
    (hkept : Kept env root round (fetched.map fun f => f.planned.group) g)
    (hfed : Fed env root past fetched g)
    (hwaiting : GroupsFollow env repeatable R g g') :
    ∃ g₁ R', (attachAll fetched).result g = .ok ((), g₁) ∧ (∀ id id', R id id' → R' id id') ∧
      Mirrors env repeatable R' g₁ g' ∧ GroupsFollow env repeatable R' g₁ g' := by
  induction fetched generalizing g R past with
  | nil => exact ⟨g, R, rfl, fun _ _ h => h, hmirrors, hwaiting⟩
  | cons first fetched ih =>
    obtain ⟨⟨f', ⟨m', i', start, nodes', children', hattached⟩, htwin⟩, hfetched⟩ :=
      List.forall_mem_cons.1 hfetched
    obtain ⟨⟨i, hopen⟩, -⟩ := Kept.open_at hroot [] hkept
    obtain ⟨g₂, R₂, added, hR₂, hattach, hmirrors₂, hgrew, hadded⟩ :=
      attach_follows hattached htwin hmirrors hopen (hfed.fresh hroot horigin)
    have hwaiting' : GroupsFollow env repeatable R₂ g₂ g' := by
      intro group hg
      rw [hgrew.waiting] at hg
      rcases List.mem_append.1 hg with hg | hg
      · obtain ⟨group', hg', h⟩ := hwaiting group hg
        exact ⟨group', hg', h.mono hR₂⟩
      · obtain ⟨group', hg', h⟩ := hadded.exists_right hg
        exact ⟨group', hattached.queued hg', h⟩
    have hfetched' : ∀ f ∈ fetched, ∃ f', Arrived g' f' ∧
        FetchedTwin env repeatable storage storage R₂ f f' := by
      intro f hf
      obtain ⟨f', harrived, h⟩ := hfetched f hf
      exact ⟨f', harrived, h.mono hR₂⟩
    obtain ⟨g₁, R', hrest, hR', hmirrors', hwaiting''⟩ := ih hfetched' hmirrors₂
      (hkept.attach hroot horigin htwin.planned.asked hattach) (hfed.step hgrew) hwaiting'
    refine ⟨g₁, R', ?_, fun id id' h => hR' id id' (hR₂ id id' h), hmirrors', hwaiting''⟩
    rw [attachAll_cons, hattach]
    exact hrest

end

/-! ### Rounds -/

/-- Two graphs between rounds: the nodes and the groups of the first have counterparts in the
second. -/
structure Following (env : Environment) (repeatable : Schema.Resolved → Prop) (root : NodePlan)
    (round : Nat) (roots roots' : List NodeId) (g g' : Graph) : Prop where
  kept : Kept env root round [] g
  kept' : Kept env root round [] g'
  mirrors : ∃ R : NodeId → NodeId → Prop, Mirrors env repeatable R g g' ∧
    GroupsFollow env repeatable R g g' ∧ List.Forall₂ R roots roots'

theorem Together.following (h : Together env repeatable root root round roots roots' g g') :
    Following env repeatable root round roots roots' g g' := by
  obtain ⟨hkept, hkept', R, hmirrors, hwaiting, hroots⟩ := h
  exact ⟨hkept, hkept', R, hmirrors, fun group hg => hwaiting.exists_right hg, hroots⟩

/-- When no group waits, the graphs mirror each other. -/
theorem Following.together (h : Following env repeatable root round roots roots' g g')
    (hwaiting : g.waiting = []) (hwaiting' : g'.waiting = []) :
    Together env repeatable root root round roots roots' g g' := by
  obtain ⟨hkept, hkept', R, hmirrors, -, hroots⟩ := h
  refine ⟨hkept, hkept', R, hmirrors, ?_, hroots⟩
  rw [hwaiting, hwaiting']
  exact .nil

/-- Counterparts stay when the groups are reordered. -/
theorem Following.reorder {order order' : List Group → List Group}
    (h : Following env repeatable root round roots roots' g g')
    (hperm : (order g.waiting).Perm g.waiting) (hperm' : (order' g'.waiting).Perm g'.waiting) :
    Following env repeatable root round roots roots' (g.reorder order) (g'.reorder order') := by
  obtain ⟨hkept, hkept', R, hmirrors, hwaiting, hroots⟩ := h
  refine ⟨hkept.reorder hperm, hkept'.reorder hperm', R, ⟨hmirrors.nodes, hmirrors.unique⟩, ?_,
    hroots⟩
  intro group hg
  obtain ⟨group', hg', htwin⟩ := hwaiting group (hperm.mem_iff.1 hg)
  exact ⟨group', hperm'.mem_iff.2 hg', htwin⟩

theorem round_of_ok {log : List Sql.Statement}
    (hplan : planGroups env g.waiting { g with waiting := [] } = .ok (planned, g₁))
    (hfetch : ((planned.mapM fetchGroup : Session Fault _) storage log).1 = .ok fetched)
    (hattach : (attachAll fetched).result g₁ = .ok ((), g')) :
    (Resolution.round env g storage log).1 = .ok g' := by
  rw [round_apply, hplan]
  simp only
  rcases hresult : (planned.mapM fetchGroup : Session Fault _) storage log with ⟨result, log'⟩
  rw [hresult] at hfetch
  cases hfetch
  simp only [hattach]
  rfl

/-- What a graph has gone through in a round: its groups are planned, the statements are answered,
and the rows are attached. -/
structure Passed (env : Environment) (root : NodePlan) (round : Nat) (storage : Storage)
    (g g₁ g₂ : Graph) (fetched : List Fetched) : Prop where
  planned : Settles g g₁
  handled : ∀ group ∈ g.waiting, Handled env root g₁ (fetched.map Fetched.planned) group
  todo : Kept env root (round + 1) (fetched.map fun f => f.planned.group) g₁
  answers : ∃ log, (((fetched.map Fetched.planned).mapM fetchGroup : Session Fault _)
    storage log).1 = .ok fetched
  attached : Settles g₁ g₂
  arrived : ∀ f ∈ fetched, Arrived g₂ f
  kept : Kept env root (round + 1) [] g₂

section

variable (hroot : PlannedFor env selections root) (horigin : root.origin = [])

include hroot horigin

/-- The groups that were planned are still to be served. -/
theorem Kept.todo_planned (h : Kept env root round [] g)
    (hplan : Resolution.planGroups env g.waiting { g with waiting := [] } =
      .ok (fetched.map Fetched.planned, g₁)) :
    Kept env root (round + 1) (fetched.map fun f => f.planned.group) g₁ ∧
      ∀ f ∈ fetched, Asked env f.planned := by
  have hplanned := h.planGroups hroot horigin
  rw [hplan] at hplanned
  obtain ⟨htodo, -, -, hasked⟩ := hplanned
  rw [List.map_map] at htodo
  exact ⟨htodo, List.forall_mem_map.1 hasked⟩

/-- A graph goes ahead through a round. -/
theorem round_ahead (h : Kept env root round [] g) {log log' : List Sql.Statement}
    (hround : Resolution.round env g storage log = (.ok g₁', log')) :
    ∃ g₁ fetched, Passed env root round storage g g₁ g₁' fetched := by
  obtain ⟨planned, g₁, fetched, hplan, hfetch, hattach⟩ := round_ok hround
  have hfetch := congrArg Prod.fst hfetch
  obtain rfl := fetchGroups_ok hfetch
  have hnext : Kept env root (round + 1) ([] ++ g.waiting) { g with waiting := [] } :=
    h.imp fun _ h => h.next hroot horigin
  obtain ⟨hsettles, hwaiting, hhandled⟩ := planGroups_ahead hroot horigin [] hnext hplan
  obtain ⟨htodo, hasked⟩ := h.todo_planned hroot horigin hplan
  obtain ⟨hattached, -, harrived⟩ := attachAll_ahead hroot horigin htodo hasked
    (Fed.start htodo hasked hwaiting) hattach
  have hkept := Kept.attachAll hroot horigin htodo hasked
  rw [hattach] at hkept
  exact ⟨g₁, fetched, hsettles, hhandled, htodo, ⟨_, hfetch⟩, hattached, harrived, hkept.1⟩

variable (halike : FetchesAlike env repeatable root root storage storage)

include halike

/-- Planning follows: a group is given empty lists or is planned as its counterpart was. -/
theorem planGroups_follow {g₂' : Graph}
    (hpassed : Passed env root round storage g' g₁' g₂' fetched')
    (hkept : Kept env root round [] g) (hmirrors : Mirrors env repeatable R g g')
    (hwaiting : GroupsFollow env repeatable R g g') :
    ∃ planned g₁, planGroups env g.waiting { g with waiting := [] } = .ok (planned, g₁) ∧
      Mirrors env repeatable R g₁ g₁' ∧ g₁.waiting = [] ∧
      ∀ p ∈ planned, ∃ p' ∈ fetched'.map Fetched.planned,
        PlannedTwin env repeatable storage storage R p p' := by
  have hnext : Kept env root (round + 1) ([] ++ g.waiting) { g with waiting := [] } :=
    hkept.imp fun _ h => h.next hroot horigin
  have htodo := hpassed.todo
  rw [← List.append_nil (fetched'.map _)] at htodo
  have hmirrors : Mirrors env repeatable R { g with waiting := [] } g₁' :=
    Graph.Mirrors.settles ⟨hmirrors.nodes, hmirrors.unique⟩ hpassed.planned
  -- all counterparts have been handled already
  have hplan := planGroups_twin hroot horigin hroot horigin halike [] _ (.of_mem hwaiting) hmirrors
    hnext htodo hpassed.handled
  obtain ⟨⟨planned, g₁⟩, hok, htwins, hmirrors₁, hwaiting₁, -⟩ := hplan.ok_of_right rfl
  refine ⟨planned, g₁, hok, hmirrors₁, hwaiting₁, fun p hp => ?_⟩
  have htwin := htwins.exists_right hp
  rwa [List.append_nil] at htwin

/-- A graph follows through a round. -/
theorem round_follows (h : Following env repeatable root round roots roots' g g') :
    Follows storage storage (Following env repeatable root (round + 1) roots roots')
      (Resolution.round env g) (Resolution.round env g') := by
  intro log log' g₂' hround'
  obtain ⟨hkept, hkept', R, hmirrors, hwaiting, hroots⟩ := h
  obtain ⟨g₁', fetched', hpassed⟩ := round_ahead hroot horigin hkept' (Prod.ext hround' rfl)
  obtain ⟨log'', hfetch'⟩ := hpassed.answers
  obtain ⟨planned, g₁, hplan, hmirrors₁, hwaiting₁, htwins⟩ :=
    planGroups_follow hroot horigin halike hpassed hkept hmirrors hwaiting
  obtain ⟨fetched, hfetch, hfetched⟩ := fetchGroups_follow htwins log log'' fetched' hfetch'
  obtain rfl := fetchGroups_ok hfetch
  obtain ⟨htodo, hasked⟩ := hkept.todo_planned hroot horigin hplan
  have harrived : ∀ f ∈ fetched, ∃ f', Arrived g₂' f' ∧
      FetchedTwin env repeatable storage storage R f f' := by
    intro f hf
    obtain ⟨f', hf', htwin⟩ := hfetched f hf
    exact ⟨f', hpassed.arrived f' hf', htwin⟩
  have hnone : GroupsFollow env repeatable R g₁ g₂' := by
    unfold GroupsFollow
    rw [hwaiting₁]
    exact fun _ hg => nomatch hg
  obtain ⟨g₂, R', hattach, hR', hmirrors₂, hwaiting₂⟩ := attachAll_follows hroot horigin harrived
    (hmirrors₁.settles hpassed.attached) htodo (Fed.start htodo hasked hwaiting₁) hnone
  have hkept₂ := Kept.attachAll hroot horigin htodo hasked
  rw [hattach] at hkept₂
  exact ⟨g₂, round_of_ok hplan hfetch hattach, hkept₂.1, hpassed.kept, R', hmirrors₂, hwaiting₂,
    hroots.imp fun _ _ => hR' _ _⟩

/-- A graph follows through all rounds, whatever the schedules. -/
theorem roundsBy_follows {schedule schedule' : Schedule} {bound : Nat}
    (h : Following env repeatable root round roots roots' g g') :
    Follows storage storage (Following env repeatable root (round + bound) roots roots')
      (roundsBy env schedule round bound g) (roundsBy env schedule' round bound g') := by
  induction bound generalizing round g g' with
  | zero => exact Follows.pure h
  | succ bound ih =>
    rw [roundsBy_succ, roundsBy_succ, show round + (bound + 1) = round + 1 + bound by omega]
    have hreordered := h.reorder (schedule.perm round g.waiting) (schedule'.perm round g'.waiting)
    exact (round_follows hroot horigin halike hreordered).bind fun _ _ h => ih h

end

/-! ### Answers -/

section

variable {draft : Schema.Draft} (hbuild : draft.build = .ok env.registry) (request : Request)
  (filter : Option Schema.TypeFilter) (dialect : Sql.Dialect)
  (rows : Sql.Statement → Except StorageError (List Row))

include hbuild

/-- Lists that stand for each other have the same follow-ups, which get the same answers. -/
theorem FetchesAlike.ofFunction (root : NodePlan) :
    FetchesAlike env (fun _ => False) root root (.ofFunction dialect rows)
      (.ofFunction dialect rows) := by
  have hnever : ∀ typeName name resolved, env.registry.resolve typeName name = .ok resolved →
      resolved.Unaliased := fun _ _ _ hr => Schema.Draft.resolve_unaliased hbuild hr
  intro m m' keys _ _ hm
  have hsame := Plan.compileMany_same hnever (fun _ _ h => h.elim) hm keys (.inl trivial)
  exact hsame.mono fun _ _ hstatement _ _ => congrArg rows (hstatement trivial)

/-- Whatever the schedules, one run follows the other to the same answer. -/
theorem answerBy_follows (schedule schedule' : Schedule) :
    Follows (.ofFunction dialect rows) (.ofFunction dialect rows) Eq
      (answerBy env schedule request filter) (answerBy env schedule' request filter) := by
  have hcompile : Follows (.ofFunction dialect rows) (.ofFunction dialect rows)
      (fun top top' => top = top' ∧ Plan.compileRoot env request filter = .ok top)
      (Session.ofExcept ((Plan.compileRoot env request filter).mapError Fault.plan))
      (Session.ofExcept ((Plan.compileRoot env request filter).mapError Fault.plan)) :=
    fun _ _ top htop => ⟨top, htop, rfl, Outcome.mapError_ok.1 htop⟩
  refine hcompile.bind ?_
  rintro top _ ⟨rfl, htop⟩
  have hfetch : Follows (.ofFunction dialect rows) (.ofFunction dialect rows) Eq
      (Session.mapError Fault.storage (Session.fetch top.statement))
      (Session.mapError Fault.storage (Session.fetch top.statement)) :=
    fun _ _ fetched hfetched => ⟨fetched, hfetched, rfl⟩
  refine hfetch.bind ?_
  rintro fetched _ rfl
  have hthins : Plan.Thins env.registry (fun _ => False) request.typeName [] request.fields
      request.fields := .refl _ _
  have hadd := addRows_together hthins htop htop fetched
  refine (growing_alike hadd).follows.bind ?_
  rintro ⟨roots, g⟩ ⟨roots', g'⟩ htogether
  obtain ⟨hroot, horigin⟩ := Plan.compileRoot_plannedFor htop
  have halike := FetchesAlike.ofFunction hbuild dialect rows top.plan
  refine (roundsBy_follows hroot horigin halike htogether.following).bind ?_
  intro g₁ g₁' h
  -- there have been as many rounds as the request has levels
  have hnone : ∀ {g : Graph}, Kept env top.plan (0 + request.depth) [] g → g.waiting = [] := by
    intro g hkept
    by_contra hwaiting
    have := hkept.lt_depth htop hwaiting
    omega
  exact (finishRoots_alike hroot hroot (fun _ _ _ _ _ => rfl)
    (h.together (hnone h.kept) (hnone h.kept')) (hnone h.kept) (hnone h.kept')).follows

/-- Follow-ups commute.  Whatever the orders in which the groups of the rounds are served in two
runs, one run ends with an answer if and only if the other ends with the same one; and serving the
groups in the order of the queue is what `answer` does. -/
theorem answer_in_any_order :
    answerBy env .asQueued request filter = answer env request filter ∧
      ∀ (schedule schedule' : Schedule) (objects : List Object),
        ((answerBy env schedule request filter).outcome (.ofFunction dialect rows)).1 =
            .ok objects ↔
          ((answerBy env schedule' request filter).outcome (.ofFunction dialect rows)).1 =
            .ok objects := by
  have hfollows : ∀ (schedule schedule' : Schedule) (objects : List Object),
      ((answerBy env schedule' request filter).outcome (.ofFunction dialect rows)).1 =
          .ok objects →
        ((answerBy env schedule request filter).outcome (.ofFunction dialect rows)).1 =
          .ok objects := by
    intro schedule schedule' objects h
    obtain ⟨_, h', rfl⟩ := answerBy_follows hbuild request filter dialect rows schedule schedule'
      [] [] objects h
    exact h'
  exact ⟨answerBy_asQueued env request filter, fun schedule schedule' objects =>
    ⟨hfollows schedule' schedule objects, hfollows schedule schedule' objects⟩⟩

end

/-! ### Albums with two lists

The tracks and the reviews of albums are two groups of one round.  A track of no album is fetched as
well, and two albums share their reviews. -/

namespace Albums

open Schema (Relation TypeMapping)

def tracksOf : Relation := { target := "Track", many := true, join := .columns "id" "albumId" }

def reviewsOf : Relation := { target := "Review", many := true, join := .columns "series" "series" }

def album : TypeMapping :=
  { fields := [("tracks", { source := .relation tracksOf }),
      ("reviews", { source := .relation reviewsOf })] }

def draft : Schema.Draft := { types := [("Album", album), ("Track", {}), ("Review", {})] }

def environment : Environment :=
  { registry := ⟨draft.types, none⟩, settings := {}, caller := {} }

def request : Request :=
  { typeName := "Album"
    fields := [.nested "tracks" [.scalar "name"], .nested "reviews" [.scalar "text"]] }

def albums : List Row :=
  [[("__key_id", .str "a"), ("__key_series", .str "s")],
    [("__key_id", .str "b"), ("__key_series", .str "s")]]

def tracks : List Row :=
  [[("name", .str "first"), ("__pk0", .str "b")], [("name", .str "stray"), ("__pk0", .str "c")]]

def reviews : List Row := [[("text", .str "good"), ("__pk0", .str "s")]]

/-- The rows of a table, by the first alias of a statement. -/
def fetch (statement : Sql.Statement) : Except StorageError (List Row) :=
  .ok (if statement.aliases.head? = some "album_1" then albums
    else if statement.aliases.head? = some "track_1" then tracks
    else reviews)

def answered : List Json :=
  let reviews : Json := .arr [.obj [("text", .str "good")]]
  [.obj [("tracks", .arr []), ("reviews", reviews)],
    .obj [("tracks", .arr [.obj [("name", .str "first")]]), ("reviews", reviews)]]

theorem build_draft : draft.build = .ok environment.registry := by
  refine Schema.Draft.build_of_checked ?_
  rintro entry htype field hfield
  rcases List.mem_cons.1 htype with rfl | htype
  · rcases List.mem_cons.1 hfield with rfl | hfield
    · rfl
    · rw [List.mem_singleton.1 hfield]
      rfl
  · rcases List.mem_cons.1 htype with rfl | htype
    · cases hfield
    · rw [List.mem_singleton.1 htype] at hfield
      cases hfield

theorem answer_albums :
    ((answer environment request none).outcome (.ofFunction .sqlite fetch)).1.toOption.map
      (fun objects => Json.sameItems answered (objects.map .obj)) = some true := by
  decide +kernel

end Albums

theorem answer_in_any_order_albums :
    Albums.draft.build = .ok Albums.environment.registry ∧
      ∃ objects, Json.sameItems Albums.answered (objects.map .obj) = true ∧
        ((answerBy Albums.environment .reversed Albums.request none).outcome
          (.ofFunction .sqlite Albums.fetch)).1 = .ok objects := by
  obtain ⟨hqueued, hany⟩ := answer_in_any_order Albums.build_draft Albums.request none .sqlite
    Albums.fetch
  obtain ⟨objects, hobjects, hsame⟩ := Option.map_eq_some_iff.1 Albums.answer_albums
  refine ⟨Albums.build_draft, objects, hsame, (hany .reversed .asQueued objects).2 ?_⟩
  rw [hqueued]
  exact Outcome.toOption_some.1 hobjects

end Resolution

end ObjectGraph
