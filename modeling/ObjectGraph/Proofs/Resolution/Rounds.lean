import ObjectGraph.Proofs.Resolution.Loop

/-! # Rounds in a world keep the ledger

Where a storage has what is in a world, the follow-up of a group closes its lists with the rows of
the world (`Answered.attach_runs`).  A round serves all groups that wait (`round_ends`), and after
as many rounds as the request has levels no group waits (`rounds_ends`).  A round fails only where
the objects are not `Sufficient`. -/

namespace ObjectGraph

namespace Resolution

open ObjectGraph.Graph (Group Runs)
open Plan (Environment Compiled NodePlan ManyPlan)

/-! ### One group -/

variable {env : Environment} {world : World} {Q : NodePlan → Row → Prop} {request : Request}
  {filter : Option Schema.TypeFilter} {root : Compiled} {round : Nat} {g : Graph}
  {sources : List Row}

/-- A fetched group: its rows are those of the keys of its parents. -/
def Answered (env : Environment) (world : World) (g : Graph) (fetched : Fetched) : Prop :=
  ∃ m keys, fetched.planned.group.relation? = some m ∧
    KeysFor g fetched.planned.group.parents m keys ∧
    Plan.compileMany env m keys = .ok fetched.planned.compiled ∧
    Delivers world m fetched.planned.compiled.partitionLabels keys fetched.rows

theorem Answered.mono {r : Nat} {plan : NodePlan} {g g' : Graph} {sources sources' : List Row}
    {fetched : Fetched} (h : Answered env world g fetched)
    (hgroup : Grouped env plan r g fetched.planned.group)
    (he : Extends g sources g' sources') : Answered env world g' fetched := by
  obtain ⟨m, keys, hrelation, hkeys, hc, hrows⟩ := h
  refine ⟨m, keys, hrelation, hkeys.mono he fun id hid => ?_, hc, hrows⟩
  obtain ⟨node, hn, -⟩ := hgroup.parents id hid
  exact ⟨node, hn⟩

section

variable (hcompile : Plan.compileRoot env request filter = .ok root)
  (haccepted : Accepted env request filter)

include hcompile haccepted

/-- The rows that a world has for a group close its lists. -/
theorem Answered.attach_runs (hinherited : Inherited env world Q) {post : List Group}
    {fetched : Fetched} (hanswered : Answered env world g fetched)
    (h : Ledger env (closing env world) root.plan Q round (fetched.planned.group :: post) g
      sources) :
    Runs (Graph.attach fetched.planned.group fetched.planned.compiled.plan
        fetched.planned.compiled.partitionLabels fetched.planned.compiled.pageSize fetched.rows) g
      (fun _ g' => ∃ sources',
        Grown env (closing env world) root.plan Q round post g sources g' sources')
      (fun _ => ¬Sufficient env Q) := by
  obtain ⟨m, keys, hrelation, hkeys, hcompiled, hrows⟩ := hanswered
  obtain ⟨hroot, horigin⟩ := Plan.compileRoot_plannedFor hcompile
  obtain ⟨r, hr, hgroup⟩ := h.todo_grouped _ List.mem_cons_self
  obtain ⟨i, m', hs⟩ := hgroup.served hroot
  have hm := hrelation
  rw [hs.relation] at hm
  cases hm
  obtain ⟨field, hi, hk⟩ := hs.listField.field
  have hq : ∀ row ∈ fetched.rows, Q fetched.planned.compiled.plan row := by
    intro row hrow
    obtain ⟨values, hv, key, hkey, hrowKey⟩ := hrows.keyed row hrow
    obtain ⟨id, hid, node, key', hn, hk'⟩ := hkeys.of_parent values hv
    obtain ⟨-, hkey'⟩ := key?_eq_some.1 hk'
    rw [hkey] at hkey'
    cases hkey'
    obtain ⟨source, hsource⟩ := h.source hn
    have hplaced := h.placed hn hsource
    obtain ⟨node', hn', hplan⟩ := hgroup.parents id hid
    rw [hn] at hn'
    cases hn'
    rw [hplaced.row] at hk'
    have hi' := hi
    have hm' := hs.relation
    rw [← hplan] at hi'
    unfold Group.relation? at hm'
    rw [← hplan] at hm'
    refine hinherited.many hplaced.holds hi' hk hm' hk' hcompiled ?_
    rw [← hrows.exact values hv key hkey, List.mem_filter]
    exact ⟨hrow, by simp [hrowKey]⟩
  refine (Resolution.attach_runs hroot horigin hinherited h hrelation hcompiled hq ?_).mono
    (fun _ _ h => h) ?_
  · intro g₁ sources₁ children he₁ hchildren id hid node hn
    have hkeys₁ : KeysFor g₁ fetched.planned.group.parents m keys := by
      refine hkeys.mono he₁ fun id hid => ?_
      obtain ⟨node, hn, -⟩ := hgroup.parents id hid
      exact ⟨node, hn⟩
    exact childrenOf_closed haccepted hcompile hs.listed hkeys₁ hcompiled hrows hchildren hid hn
  · rintro e ⟨hs, -⟩ hsufficient
    obtain ⟨row, hrow, hnone⟩ := hs hsufficient
    obtain ⟨_, -, key, -, hkey⟩ := hrows.keyed row hrow
    rw [hnone] at hkey
    cases hkey

/-- If a follow-up is refused, then some object of the group has a list without a statement. -/
theorem Refused.not_sufficient {todo : List Group} {m : ManyPlan} {keys : List (List Json)}
    {e : Plan.Error} (hrefused : Refused env g todo m keys e)
    (h : Ledger env (closing env world) root.plan Q round todo g sources) :
    ¬Sufficient env Q := by
  intro hsufficient
  obtain ⟨⟨group, hmem, hrelation, hkeys⟩, hne, he⟩ := hrefused
  obtain ⟨hroot, -⟩ := Plan.compileRoot_plannedFor hcompile
  obtain ⟨r, -, hgroup⟩ := h.todo_grouped group hmem
  obtain ⟨i, m', hs⟩ := hgroup.served hroot
  rw [hs.relation] at hrelation
  cases hrelation
  obtain ⟨field, hi, hk⟩ := hs.listField.field
  obtain ⟨values, hv⟩ := List.exists_mem_of_ne_nil keys hne
  obtain ⟨id, hid, node, key, hn, hkey⟩ := hkeys.of_parent values hv
  obtain ⟨node', hn', hplan⟩ := hgroup.parents id hid
  rw [hn] at hn'
  cases hn'
  obtain ⟨source, hsource⟩ := h.source hn
  have hplaced := h.placed hn hsource
  have hi' := hi
  have hm' := hs.relation
  unfold Group.relation? at hm'
  rw [← hplan] at hi' hm'
  rw [hplaced.row] at hkey
  have hone := hsufficient.many hplaced.holds hi' hk hm' hkey
  obtain ⟨compiled, hc⟩ := haccepted root hcompile m hs.listed [values] keys
    (keysOf_singleton hkey) (hkeys.keysOf hne) hone
  rw [he] at hc
  cases hc

end

/-! ### All rounds -/

theorem growing_ends {α : Type} {storage : Storage} {change : Graph.Growing α}
    {post : α → Graph → Prop} {fault : Fault → Prop} (h : Runs change g post fault) :
    Session.Ends storage (growing change g) (fun p => post p.1 p.2) fault := by
  unfold Runs at h
  unfold growing
  rcases hc : change.on g with ⟨e | a, g'⟩
  · rw [hc] at h
    exact fun _ => h
  · rw [hc] at h
    exact fun _ => h

theorem fetched_groups {P : Fetched → Prop} {planned : List Planned} {fetched : List Fetched}
    (h : List.Forall₂ (fun p f => f.planned = p ∧ P f) planned fetched) :
    fetched.map (fun f => f.planned.group) = planned.map Planned.group ∧ ∀ f ∈ fetched, P f := by
  induction h with
  | nil => exact ⟨rfl, fun _ hf => nomatch hf⟩
  | cons hfirst _ ih =>
    obtain ⟨hplanned, hp⟩ := hfirst
    rw [List.map_cons, List.map_cons, ih.1, hplanned]
    refine ⟨rfl, ?_⟩
    intro f hf
    rcases List.mem_cons.1 hf with rfl | hf
    · exact hp
    · exact ih.2 f hf

section

variable {storage : Storage} {rows : List Row}
  (hcompile : Plan.compileRoot env request filter = .ok root)
  (haccepted : Accepted env request filter)
  (hserves : Serves env request filter storage world rows)

include hcompile hserves

theorem fetchGroup_ends {planned : Planned} {fault : Fault → Prop} (hready : Ready env g planned)
    (hlisted : ∀ m, planned.group.relation? = some m → Plan.Listed env root.plan m) :
    Session.Ends storage (fetchGroup planned)
      (fun fetched => fetched.planned = planned ∧ Answered env world g fetched) fault := by
  obtain ⟨m, keys, hrelation, hkeys, hne, hc⟩ := hready
  intro log
  obtain ⟨fetched, hf, hdelivers⟩ := hserves.followUp root hcompile m (hlisted m hrelation) keys
    (hkeys.keysOf hne) planned.compiled hc log
  unfold fetchGroup Session.fetch Session.mapError
  rw [Session.bind_apply]
  simp only [hf]
  exact ⟨rfl, m, keys, hrelation, hkeys, hc, hdelivers⟩

include haccepted

theorem round_ends (hinherited : Inherited env world Q)
    (h : Ledger env (closing env world) root.plan Q round [] g sources) :
    Session.Ends storage (Resolution.round env g) (fun g' => ∃ sources',
      Grown env (closing env world) root.plan Q (round + 1) [] g sources g' sources')
      (fun _ => ¬Sufficient env Q) := by
  obtain ⟨hroot, horigin⟩ := Plan.compileRoot_plannedFor hcompile
  have hnext := h.next hroot horigin
  have hplan := planGroups_ledger hroot horigin [] hnext
  unfold Resolution.round
  have hplanned : Session.Ends storage
      (Session.ofExcept (planGroups env g.waiting { g with waiting := [] }))
      (fun p => Ledger env (closing env world) root.plan Q (round + 1) (p.1.map Planned.group) p.2
          sources ∧ Extends g sources p.2 sources ∧ ∀ q ∈ p.1, Ready env p.2 q)
      (fun _ => ¬Sufficient env Q) := by
    refine Session.Ends.ofExcept ?_ ?_
    · rintro ⟨planned, g'⟩ hok
      rw [hok] at hplan
      obtain ⟨h', he', hready⟩ := hplan
      exact ⟨h', ⟨fun id node hn => he'.nodes id node hn, he'.sources⟩, hready⟩
    · intro e he
      rw [he] at hplan
      obtain ⟨e, -, todo, g', m, keys, h', hrefused⟩ := hplan
      exact hrefused.not_sufficient hcompile haccepted h'
  refine hplanned.bind ?_
  · rintro ⟨planned, g₁⟩ ⟨h₁, he₁, hready⟩
    refine Session.Ends.bind (Session.Ends.mapM fun p hp =>
      fetchGroup_ends hcompile hserves (hready p hp) ?_) ?_
    · intro m hm
      obtain ⟨r, -, hgroup⟩ := h₁.todo_grouped p.group (List.mem_map_of_mem hp)
      obtain ⟨i, m', hs⟩ := hgroup.served hroot
      rw [hs.relation] at hm
      cases hm
      exact hs.listed
    · intro fetched hfetched
      obtain ⟨hgroups, hanswered⟩ := fetched_groups hfetched
      rw [← hgroups] at h₁
      refine (growing_ends (attachAll_runs Answered.mono
        (fun hf => hf.attach_runs hcompile haccepted hinherited) h₁ hanswered)).bind ?_
      rintro ⟨_, g'⟩ ⟨sources', h', he'⟩
      exact Session.Ends.pure ⟨sources', h', he₁.trans he'⟩

/-- When as many rounds have passed as the request has levels, no group waits. -/
theorem rounds_ends (hinherited : Inherited env world Q) {bound : Nat}
    (hbound : request.depth ≤ round + bound)
    (h : Ledger env (closing env world) root.plan Q round [] g sources) :
    Session.Ends storage (rounds env bound g) (fun g' => ∃ last sources',
      Grown env (closing env world) root.plan Q last [] g sources g' sources' ∧ g'.waiting = [])
      (fun _ => ¬Sufficient env Q) := by
  have hstart : ∃ sources', Grown env (closing env world) root.plan Q round [] g sources g sources' :=
    ⟨sources, h, Extends.refl⟩
  refine (rounds_ends_of (P := fun r g' => ∃ sources',
    Grown env (closing env world) root.plan Q r [] g sources g' sources') ?_ ?_
    (by omega : request.depth ≤ round + 1 + bound) hstart).mono ?_ fun _ h => h
  · rintro r g' ⟨sources', h', -⟩ hwaiting
    exact h'.lt_depth hcompile hwaiting
  · rintro r g' ⟨sources', h', he'⟩ -
    refine (round_ends hcompile haccepted hserves hinherited h').mono ?_ fun _ h => h
    rintro g'' ⟨sources'', h'', he''⟩
    exact ⟨sources'', h'', he'.trans he''⟩
  · rintro g' ⟨⟨last, sources', h'⟩, hwaiting⟩
    exact ⟨last, sources', h', hwaiting⟩

end

end Resolution

end ObjectGraph
