import ObjectGraph.Proofs.Plan.SameStatements
import ObjectGraph.Proofs.Resolution.Repeats
import ObjectGraph.Proofs.Resolution.Tandem

/-! # Requests without repeated entries

Dropping repeated entries of a request leaves its answer as it is, the fault included, if only
values that are no documents and lists are dropped: the graphs of both requests are built side by
side, and nodes that stand for each other finish alike (`answer_thinned`).  The statements of both
requests are refused alike, so that the same rows are all that is asked of the storage
(`answer_without_repeats`).  A single related object or a document may not be dropped: it is taken
out of its row, or parsed, once for every entry that names it. -/

namespace ObjectGraph

namespace Resolution

open ObjectGraph.Graph (Link LinkTwin Mirrors Node NodeId NodeTwin GroupTwin)
open Outcome (Same)
open Plan (Environment Compiled FieldPlan FieldTwin ManyPlan ManyTwin NodePlan PlannedFor Thins)
open Session (Alike)

variable {env : Environment} {repeatable : Schema.Resolved → Prop} {R : NodeId → NodeId → Prop}
  {storage storage' : Storage} {root root' : NodePlan} {selections selections' : List Selection}
  {round round' : Nat} {g g' : Graph}

/-! ### Links -/

/-- Links of fields that stand for each other lead to the same value, if what they lead to finishes
alike. -/
theorem linkValue_alike {plan plan' : NodePlan} {field field' : FieldPlan NodePlan}
    {link link' : Link} {finish finish' : NodeId → Session Fault Finished}
    (hf : FieldTwin env repeatable plan plan' field field') (hl : LinkTwin R link link')
    (hclosed : link ≠ .pending)
    (hfinish : ∀ id ∈ link.targets, ∀ id' ∈ link'.targets, R id id' →
      Alike storage storage' Eq (finish id) (finish' id')) :
    Alike storage storage' Eq (Graph.linkValue finish plan field link)
      (Graph.linkValue finish' plan' field' link') := by
  cases hl with
  | value => exact Alike.pure rfl
  | pending => exact absurd rfl hclosed
  | none => exact Alike.pure rfl
  | single hR =>
    exact (hfinish _ (List.mem_singleton_self _) _ (List.mem_singleton_self _) hR).bind_eq
      fun _ => Alike.pure rfl
  | @many ids ids' size hids =>
    have hpaging : field.kind.paging? plan.many = field'.kind.paging? plan'.many := by
      have hkind := hf.kind
      generalize field.kind = kind at hkind ⊢
      generalize field'.kind = kind' at hkind ⊢
      cases hkind with
      | value => rfl
      | single _ => rfl
      | many hm hm' htwin =>
        simp only [Plan.FieldKind.paging?, hm, hm', Option.bind_some]
        exact htwin.paging
    have hall : List.Forall₂ (fun id id' => Alike storage storage' Eq (finish id) (finish' id')) ids
        ids' := by
      obtain ⟨hlength, hget⟩ := List.forall₂_iff_get.1 hids
      refine List.forall₂_iff_get.2 ⟨hlength, fun i hi hi' => ?_⟩
      exact hfinish _ (List.get_mem _ _) _ (List.get_mem _ _) (hget i hi hi')
    unfold Graph.linkValue
    simp only [hpaging]
    refine (Alike.mapM hall).bind ?_
    intro finished finished' heq
    rw [List.forall₂_eq_eq_eq] at heq
    rw [heq]
    exact Alike.pure rfl

/-- When no group waits, a node leads to nodes of longer places, of which there are fewer. -/
theorem Kept.entry_closed (hroot : PlannedFor env selections root)
    (h : Kept env root round [] g) (hwaiting : g.waiting = []) {id : Nat} {node : Node}
    {entry : FieldPlan NodePlan × Link} (hn : g.nodes[id]? = some node)
    (he : entry ∈ node.plan.fields.zip node.links) :
    entry.2 ≠ .pending ∧ ∀ child ∈ entry.2.targets, ∃ node', g.nodes[child]? = some node' ∧
      deeper g node'.plan.origin.length < deeper g node.plan.origin.length := by
  obtain ⟨field, link⟩ := entry
  obtain ⟨i, hi⟩ := List.mem_iff_getElem?.1 he
  obtain ⟨hf, hl⟩ := List.getElem?_zip_eq_some.1 hi
  obtain ⟨sources, h⟩ := h
  obtain ⟨source, hs⟩ := h.source hn
  have hplaced := h.placed hn hs
  obtain ⟨r, -, ho⟩ := hplaced.occurs
  obtain ⟨below, hb, -⟩ := ho.plannedFor hroot
  have hstep : ∀ {child : Nat} {plan : NodePlan} {row : Row},
      plan.origin = node.plan.origin ++ [i] → Holds g sources child plan row →
      ∃ node', g.nodes[child]? = some node' ∧
        deeper g node'.plan.origin.length < deeper g node.plan.origin.length := by
    intro child plan row horigin hh
    have hlength : plan.origin.length = node.plan.origin.length + 1 := by simp [horigin]
    obtain ⟨node', hn', hp⟩ := hh.node
    refine ⟨node', hn', ?_⟩
    rw [hp, hlength]
    exact Resolution.deeper_lt hh hlength
  obtain ⟨link', packed, hl', -, hlinked⟩ := hplaced.linked hf
  cases hl.symm.trans hl'
  unfold Linked at hlinked
  cases hk : field.kind with
  | value =>
    rw [hk] at hlinked
    subst hlinked
    exact ⟨nofun, fun _ hc => nomatch hc⟩
  | single child =>
    rw [hk] at hlinked
    obtain ⟨horigin, -⟩ := hb.single_at hf hk
    rcases hlinked with ⟨-, rfl⟩ | ⟨row, cid, -, rfl, hh⟩
    · exact ⟨nofun, fun _ hc => nomatch hc⟩
    · refine ⟨nofun, fun child hc => ?_⟩
      rw [List.mem_singleton.1 hc]
      exact hstep horigin hh
  | many j =>
    obtain ⟨m, children, size, hm, rfl, hclosed⟩ := h.list_closed hwaiting ⟨hn, ⟨field, hf, hk⟩, hl⟩
    obtain ⟨m', hm', horigin, -⟩ := hb.many_at hf hk
    cases hm.symm.trans hm'
    refine ⟨nofun, fun child hc => ?_⟩
    obtain ⟨keys, compiled, row, hcompiled, hh⟩ := hclosed.objects child hc
    exact hstep ((Plan.compileMany_plannedFor hcompiled).2.trans horigin) hh

section

variable (hroot : PlannedFor env selections root) (hroot' : PlannedFor env selections' root')
  (hlookup : LooksUpAlike storage storage')

include hroot hroot' hlookup

/-- Nodes that stand for each other finish alike. -/
theorem finishWithin_alike (hmirrors : Mirrors env repeatable R g g')
    (hkept : Kept env root round [] g) (hkept' : Kept env root' round' [] g')
    (hwaiting : g.waiting = []) (hwaiting' : g'.waiting = []) {id id' : Nat} {node node' : Node}
    {fuel fuel' : Nat} (hR : R id id') (hn : g.nodes[id]? = some node)
    (hn' : g'.nodes[id']? = some node') (hfuel : deeper g node.plan.origin.length < fuel)
    (hfuel' : deeper g' node'.plan.origin.length < fuel') :
    Alike storage storage' Eq (g.finishWithin env.caller fuel id)
      (g'.finishWithin env.caller fuel' id') := by
  induction fuel generalizing fuel' id id' node node' with
  | zero => exact absurd hfuel (Nat.not_lt_zero _)
  | succ fuel ih =>
    obtain ⟨fuel', rfl⟩ : ∃ n, fuel' = n + 1 := ⟨fuel' - 1, by omega⟩
    obtain ⟨_, _, hnode, hnode', htwin⟩ := hmirrors.nodes hR
    cases hn.symm.trans hnode
    cases hn'.symm.trans hnode'
    unfold Graph.finishWithin
    rw [hn, hn']
    refine NodeTwin.finish_alike htwin hlookup fun entry he entry' he' htwinEntry => ?_
    obtain ⟨hopen, hbelow⟩ := hkept.entry_closed hroot hwaiting hn he
    obtain ⟨-, hbelow'⟩ := hkept'.entry_closed hroot' hwaiting' hn' he'
    refine linkValue_alike htwinEntry.1 htwinEntry.2 hopen fun child hc child' hc' hchildren => ?_
    obtain ⟨below, hb, hlt⟩ := hbelow child hc
    obtain ⟨below', hb', hlt'⟩ := hbelow' child' hc'
    exact ih hchildren hb hb' (by omega) (by omega)

/-- Roots that stand for each other finish alike once no group waits. -/
theorem finishRoots_alike {roots roots' : List NodeId}
    (h : Together env repeatable root root' round roots roots' g g')
    (hwaiting : g.waiting = []) (hwaiting' : g'.waiting = []) :
    Alike storage storage' Eq (finishRoots env.caller (roots, g))
      (finishRoots env.caller (roots', g')) := by
  obtain ⟨hkept, hkept', R, hmirrors, -, hroots⟩ := h
  have hfinish : List.Forall₂ (fun id id' => Alike storage storage' Eq
      (g.finish env.caller id) (g'.finish env.caller id')) roots roots' := by
    refine hroots.imp fun id id' hR => ?_
    obtain ⟨node, node', hn, hn', -⟩ := hmirrors.nodes hR
    exact finishWithin_alike hroot hroot' hlookup hmirrors hkept hkept' hwaiting hwaiting' hR hn hn'
      (Nat.lt_succ_of_le deeper_le_size) (Nat.lt_succ_of_le deeper_le_size)
  unfold finishRoots
  refine (Alike.mapM hfinish).bind ?_
  intro finished finished' heq
  rw [List.forall₂_eq_eq_eq] at heq
  rw [heq]
  exact Alike.pure rfl

end

/-! ### The answer -/

/-- The answer from the root statement on. -/
theorem outcome_answer (env : Environment) (request : Request) (filter : Option Schema.TypeFilter)
    (storage : Storage) :
    ((answer env request filter).outcome storage).1 =
      (Plan.compileRoot env request filter).mapError .plan >>= fun root =>
        (storage.answer [] root.statement).mapError .storage >>= fun rows =>
          ((gather env request root.plan rows >>= finishRoots env.caller) storage
            [root.statement]).1 := by
  rw [answer_eq]
  unfold fetchAll Session.outcome
  rw [bind_assoc]
  cases Plan.compileRoot env request filter with
  | error e => rfl
  | ok root =>
    change ((Session.ofExcept (.ok root) >>= _) storage []).1 = _
    rw [Session.ofExcept_bind, bind_assoc, Session.bind_apply]
    unfold Session.mapError Session.fetch
    change _ = Except.bind (.ok root) _
    simp only [List.nil_append, Except.bind]
    cases storage.answer [] root.statement <;> rfl

/-- Root statements are refused alike or answered alike. -/
def RootAlike (env : Environment) (request request' : Request) (filter : Option Schema.TypeFilter)
    (storage storage' : Storage) : Prop :=
  Same (fun root root' =>
      storage.answer [] root.statement = storage'.answer [] root'.statement)
    (Plan.compileRoot env request filter) (Plan.compileRoot env request' filter)

/-- Dropping repeated entries leaves the answer as it is, if both requests get the same rows. -/
theorem answer_thinned {request : Request} {fields' : List Selection}
    {filter : Option Schema.TypeFilter}
    (hthins : Thins env.registry repeatable request.typeName [] request.fields fields')
    (hrows : RootAlike env request { request with fields := fields' } filter storage storage')
    (hlists : ∀ root root', Plan.compileRoot env request filter = .ok root →
      Plan.compileRoot env { request with fields := fields' } filter = .ok root' →
      FetchesAlike env repeatable root.plan root'.plan storage storage')
    (hlookup : LooksUpAlike storage storage') :
    ((answer env request filter).outcome storage).1 =
      ((answer env { request with fields := fields' } filter).outcome storage').1 := by
  rw [outcome_answer, outcome_answer]
  refine Same.eq (hrows.with_ok.mapError.bind ?_)
  rintro root root' ⟨hanswers, hcompile, hcompile'⟩
  rw [hanswers]
  refine (Same.refl _).bind ?_
  rintro rows _ rfl
  have halike : Alike storage storage' Eq
      (gather env request root.plan rows >>= finishRoots env.caller)
      (gather env { request with fields := fields' } root'.plan rows >>=
        finishRoots env.caller) := by
    refine (gather_alike hthins hcompile hcompile'
      (hlists root root' hcompile hcompile') rows).bind ?_
    rintro ⟨roots, g⟩ ⟨roots', g'⟩ ⟨⟨last, htogether⟩, hwaiting, hwaiting'⟩
    exact finishRoots_alike (Plan.compileRoot_plannedFor hcompile).1
      (Plan.compileRoot_plannedFor hcompile').1 hlookup htogether hwaiting hwaiting'
  exact halike _ _

/-! ### The same rows -/

section

variable {request : Request} {fields' : List Selection} {filter : Option Schema.TypeFilter}

/-- Two requests get the same root rows, the same rows for lists of one relation with the same keys,
and the same rows where transforms look something up. -/
structure SameRows (env : Environment) (repeatable : Schema.Resolved → Prop)
    (request request' : Request) (filter : Option Schema.TypeFilter) (storage storage' : Storage) :
    Prop where
  root : ∀ root root', Plan.compileRoot env request filter = .ok root →
    Plan.compileRoot env request' filter = .ok root' →
    storage.answer [] root.statement = storage'.answer [] root'.statement
  lists : ∀ root root', Plan.compileRoot env request filter = .ok root →
    Plan.compileRoot env request' filter = .ok root' →
    ∀ m m' keys compiled compiled', Plan.Listed env root.plan m → Plan.Listed env root'.plan m' →
      ManyTwin env repeatable m m' → Plan.compileMany env m keys = .ok compiled →
      Plan.compileMany env m' keys = .ok compiled' →
      ∀ log log', storage.answer log compiled.statement = storage'.answer log' compiled'.statement
  lookups : LooksUpAlike storage storage'

/-- No statement of a request is refused for a placeholder that no parameter was bound for. -/
def FullyBound (env : Environment) (request : Request) (filter : Option Schema.TypeFilter) : Prop :=
  Plan.Bound (Plan.compileRoot env request filter) ∧
    ∀ root, Plan.compileRoot env request filter = .ok root →
      ∀ m keys, Plan.Listed env root.plan m → Plan.Bound (Plan.compileMany env m keys)

/-- Dropping repeated values that are no documents and repeated lists leaves the answer as it is, if
both requests get the same rows.  Where a value that takes aliases or parameters is dropped, the
others are numbered anew, so no statement may lack a parameter. -/
theorem answer_without_repeats {draft : Schema.Draft} (hbuild : draft.build = .ok env.registry)
    (hthins : Thins env.registry repeatable request.typeName [] request.fields fields')
    (hbound : (∀ resolved, repeatable resolved → Plan.Steady env resolved) ∨
      FullyBound env request filter ∧ FullyBound env { request with fields := fields' } filter)
    (hrows : SameRows env repeatable request { request with fields := fields' } filter storage
      storage') :
    ((answer env request filter).outcome storage).1 =
      ((answer env { request with fields := fields' } filter).outcome storage').1 := by
  have hnever : ∀ typeName name resolved, env.registry.resolve typeName name = .ok resolved →
      resolved.Unaliased := fun _ _ _ hr => Schema.Draft.resolve_unaliased hbuild hr
  refine answer_thinned hthins ?_ ?_ hrows.lookups
  · have hroot := Plan.compileRoot_same hnever id hthins filter
      (hbound.imp_right fun ⟨h, h'⟩ => ⟨h.1, h'.1⟩)
    exact hroot.with_ok.mono fun root root' ⟨_, h, h'⟩ => hrows.root root root' h h'
  · intro root root' hcompile hcompile' m m' keys hm hm' htwin
    have hmany := Plan.compileMany_same hnever id htwin keys
      (hbound.imp_right fun ⟨h, h'⟩ =>
        ⟨h.2 root hcompile m keys hm, h'.2 root' hcompile' m' keys hm'⟩)
    exact hmany.with_ok.mono fun compiled compiled' ⟨_, h, h'⟩ =>
      hrows.lists root root' hcompile hcompile' m m' keys compiled compiled' hm hm' htwin h h'

/-- A storage that answers the same statement with the same rows gives the same rows to both
requests if their statements are the same. -/
theorem SameRows.ofFunction {draft : Schema.Draft} (hbuild : draft.build = .ok env.registry)
    (hthins : Thins env.registry repeatable request.typeName [] request.fields fields')
    (hsteady : ∀ resolved, repeatable resolved → Plan.Steady env resolved) (dialect : Sql.Dialect)
    (rows : Sql.Statement → Except StorageError (List Row)) :
    SameRows env repeatable request { request with fields := fields' } filter
      (.ofFunction dialect rows) (.ofFunction dialect rows) := by
  have hnever : ∀ typeName name resolved, env.registry.resolve typeName name = .ok resolved →
      resolved.Unaliased := fun _ _ _ hr => Schema.Draft.resolve_unaliased hbuild hr
  refine ⟨fun root root' h h' => ?_, ?_, fun _ _ _ _ _ => rfl⟩
  · have hroot := Plan.compileRoot_same hnever (fun _ => hsteady) hthins filter (.inl trivial)
    rw [h, h'] at hroot
    cases hroot with
    | ok hstatement => exact congrArg rows (hstatement trivial)
  · intro root root' _ _ m m' keys compiled compiled' _ _ htwin h h' log log'
    have hmany := Plan.compileMany_same hnever (fun _ => hsteady) htwin keys (.inl trivial)
    rw [h, h'] at hmany
    cases hmany with
    | ok hstatement => exact congrArg rows (hstatement trivial)

end

namespace Instance

/-- The request for posts with every entry twice. -/
def repeated : Request := { request with fields := request.fields ++ request.fields }

/-- The second half of the entries repeats the first. -/
theorem repeated_thins : Thins registry (fun resolved => resolved.mapping = none) "Post" []
    repeated.fields request.fields :=
  .keep (.keep (.value rfl rfl rfl rfl (.list rfl rfl rfl (Thins.refl _ _) rfl .nil)))

theorem unmapped_steady (resolved : Schema.Resolved) (h : resolved.mapping = none) :
    Plan.Steady environment resolved := by
  intro m computed hm
  cases h.symm.trans hm

end Instance

theorem answer_without_repeats_posts :
    ((answer Instance.environment Instance.repeated none).outcome
        (.ofFunction .sqlite Instance.fetch)).1 =
      ((answer Instance.environment Instance.request none).outcome
        (.ofFunction .sqlite Instance.fetch)).1 ∧
      ((answer Instance.environment Instance.repeated none).outcome
        (.ofFunction .sqlite Instance.fetch)).1.toOption.map (List.map Dictionary.keys) =
          some (List.replicate 5 ["title", "comments"]) := by
  have hrows : SameRows Instance.environment (fun resolved => resolved.mapping = none)
      Instance.repeated Instance.request none (.ofFunction .sqlite Instance.fetch)
      (.ofFunction .sqlite Instance.fetch) :=
    SameRows.ofFunction Instance.build_draft Instance.repeated_thins Instance.unmapped_steady
      .sqlite Instance.fetch
  have hanswer : ((answer Instance.environment Instance.repeated none).outcome
        (.ofFunction .sqlite Instance.fetch)).1 =
      ((answer Instance.environment Instance.request none).outcome
        (.ofFunction .sqlite Instance.fetch)).1 :=
    answer_without_repeats Instance.build_draft Instance.repeated_thins
      (.inl Instance.unmapped_steady) hrows
  obtain ⟨objects, hobjects, hkeys, -⟩ := Instance.answer_posts
  refine ⟨hanswer, ?_⟩
  rw [hanswer, hobjects]
  exact congrArg some hkeys

end Resolution

end ObjectGraph
