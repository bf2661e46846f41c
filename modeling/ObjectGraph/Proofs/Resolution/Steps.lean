import ObjectGraph.Proofs.Resolution.Insertion
import ObjectGraph.Proofs.Resolution.Keys

/-! # The steps of a round keep the ledger

A round serves the groups that wait one after another.  A group without a key gets empty lists
(`attachNone_ledger`); the others are planned (`planGroups_ledger`), and what their follow-ups gave
is attached (`attach_runs`, `attachAll_runs`).  Nothing is said here of what a storage gives: a
step keeps the ledger of any `Closing` that its lists are closed by. -/

namespace ObjectGraph

namespace Resolution

open ObjectGraph.Graph (Group Link Node NodeId Runs setLinks)
open Plan (Environment Compiled NodePlan ManyPlan FieldPlan PlannedFor Occurs)

/-! ### The field of a list -/

theorem isMany_iff {kind : Plan.FieldKind NodePlan} {index : Nat} :
    kind.isMany index = true ↔ kind = .many index := by
  cases kind <;> simp [Plan.FieldKind.isMany]

/-- A list stands at one position of the plan of a group. -/
structure ListField (group : Group) (i : Nat) : Prop where
  field : ∃ field : FieldPlan NodePlan,
    group.plan.fields[i]? = some field ∧ field.kind = .many group.index
  unique : ∀ (i' : Nat) (field : FieldPlan NodePlan), group.plan.fields[i']? = some field →
    field.kind = .many group.index → i' = i

theorem ListField.field? {group : Group} {i : Nat} (h : ListField group i) :
    group.field? = some i := by
  obtain ⟨field, hf, hk⟩ := h.field
  obtain ⟨hlt, hget⟩ := List.getElem?_eq_some_iff.1 hf
  unfold Group.field?
  rw [List.findIdx?_eq_some_iff_getElem]
  refine ⟨hlt, ?_, ?_⟩
  · rw [hget, isMany_iff]
    exact hk
  · intro j hj hmany
    rw [isMany_iff] at hmany
    have := h.unique j _ (List.getElem?_eq_getElem (Nat.lt_trans hj hlt)) hmany
    omega

section

variable {α β : Type} {f : β → α × Nat → β} {xs : List α} {start : Nat}

theorem foldl_zipIdx_id (b : β)
    (h : ∀ (i : Nat) (x : α), xs[i]? = some x → ∀ b, f b (x, start + i) = b) :
    (xs.zipIdx start).foldl f b = b := by
  induction xs generalizing start b with
  | nil => rfl
  | cons first xs ih =>
    have hfirst : f b (first, start) = b := h 0 first rfl b
    rw [List.zipIdx_cons, List.foldl_cons, hfirst]
    refine ih b fun i x hx b => ?_
    rw [show start + 1 + i = start + (i + 1) by omega]
    exact h (i + 1) x hx b

/-- A fold that does something at one position only. -/
theorem foldl_zipIdx_at {i : Nat} {x : α} (b : β) (hi : xs[i]? = some x)
    (hrest : ∀ (i' : Nat) (x' : α), xs[i']? = some x' → i' ≠ i →
      ∀ b, f b (x', start + i') = b) :
    (xs.zipIdx start).foldl f b = f b (x, start + i) := by
  induction xs generalizing start i b with
  | nil => simp at hi
  | cons first xs ih =>
    rw [List.zipIdx_cons, List.foldl_cons]
    cases i with
    | zero =>
      cases hi
      refine foldl_zipIdx_id _ fun i' x' hx b => ?_
      rw [show start + 1 + i' = start + (i' + 1) by omega]
      exact hrest (i' + 1) x' hx (by omega) b
    | succ i =>
      have hfirst : f b (first, start) = b := hrest 0 first rfl (by omega) b
      rw [hfirst, ih b hi, show start + 1 + i = start + (i + 1) by omega]
      intro i' x' hx hne b
      rw [show start + 1 + i' = start + (i' + 1) by omega]
      exact hrest (i' + 1) x' hx (by omega) b

end

theorem ListField.attachNone {group : Group} {i : Nat} (h : ListField group i) (g : Graph) :
    g.attachNone group = setLinks g group.parents i fun _ => .many [] none := by
  obtain ⟨field, hf, hk⟩ := h.field
  unfold Graph.attachNone
  rw [foldl_zipIdx_at g hf]
  · simp only [Nat.zero_add]
    rw [if_pos (isMany_iff.2 hk)]
    rfl
  · intro i' field' hf' hne graph
    refine if_neg ?_
    intro hmany
    exact hne (h.unique i' field' hf' (isMany_iff.1 hmany))

/-! ### One group -/

variable {env : Environment} {world : World} {C : Closing} {root : NodePlan}
  {Q : NodePlan → Row → Prop} {selections : List Selection} {round : Nat} {g : Graph}
  {sources : List Row}

/-- A group of the request, with its list. -/
structure Served (env : Environment) (root : NodePlan) (group : Group) (i : Nat) (m : ManyPlan) :
    Prop where
  listField : ListField group i
  relation : group.relation? = some m
  listed : Plan.Listed env root m

theorem Grouped.served (hroot : PlannedFor env selections root) {group : Group}
    (h : Grouped env root round g group) : ∃ i m, Served env root group i m := by
  obtain ⟨i, field, m, hi, hk, hm⟩ := h.list
  obtain ⟨below, hb, -⟩ := h.occurs.plannedFor hroot
  refine ⟨i, m, ⟨⟨field, hi, hk⟩, ?_⟩, hm, ⟨round, i, _, _, field, h.occurs, hi, hk, hm⟩⟩
  intro i' field' hi' hk'
  exact hb.many_unique hi' hi hk' hk

section

variable (hroot : PlannedFor env selections root) (horigin : root.origin = [])

include hroot horigin

theorem attachNone_ledger {pre post : List Group} {group : Group}
    (h : Ledger env C root Q round (pre ++ group :: post) g sources)
    (hkeys : g.parentKeys group = []) :
    Ledger env C root Q round (pre ++ post) (g.attachNone group) sources ∧
      Extends g sources (g.attachNone group) sources := by
  obtain ⟨r, -, hgroup⟩ := h.todo_grouped group (List.mem_append_right _ List.mem_cons_self)
  obtain ⟨i, m, hs⟩ := hgroup.served hroot
  obtain ⟨field, hi, hk⟩ := hs.listField.field
  rw [hs.listField.attachNone]
  refine ⟨?_, extends_setLinks⟩
  refine h.close hroot horigin hi hk hs.relation (fun _ => []) none ?_
  intro id hid node hn
  have hfor := parentKeys_keysFor g hs.relation
  cases hkey : key? node.row m.keyLabels with
  | none => exact C.blank hkey
  | some pair =>
    obtain ⟨values', hv, -⟩ := hfor.all id hid node hn pair.1 pair.2 hkey
    rw [hkeys] at hv
    cases hv

/-- Attaching the rows of a follow-up closes the lists of its group, if the closing holds of the
children that the parents get. -/
theorem attach_runs (hinherited : Inherited env world Q) {post : List Group} {group : Group}
    {m : ManyPlan} {keys : List (List Json)} {compiled : Compiled} {rows : List Row}
    (h : Ledger env C root Q round (group :: post) g sources)
    (hrelation : group.relation? = some m)
    (hcompiled : Plan.compileMany env m keys = .ok compiled)
    (hq : ∀ row ∈ rows, Q compiled.plan row)
    (hclosed : ∀ g₁ sources₁ children, Extends g sources g₁ sources₁ →
      List.Forall₂ (fun child row => Graph.rowKey? row compiled.partitionLabels = some child.1 ∧
        Holds g₁ sources₁ child.2 compiled.plan row) children rows →
      ∀ id ∈ group.parents, ∀ node, g₁.nodes[id]? = some node →
        C.holds g₁ sources₁ m node.row (g₁.childrenOf m.keyLabels children id)
          compiled.pageSize) :
    Runs (Graph.attach group compiled.plan compiled.partitionLabels compiled.pageSize rows) g
      (fun _ g' => ∃ sources', Grown env C root Q round post g sources g' sources')
      (fun e => (Sufficient env Q →
        ∃ row ∈ rows, Graph.rowKey? row compiled.partitionLabels = none) ∧ ¬e.IsGap) := by
  obtain ⟨r, hr, hgroup⟩ := h.todo_grouped group List.mem_cons_self
  obtain ⟨i, m', hs⟩ := hgroup.served hroot
  rw [hs.relation] at hrelation
  cases hrelation
  obtain ⟨field, hi, hk⟩ := hs.listField.field
  have hoccurs : Occurs env root round compiled.plan :=
    hr ▸ .many hgroup.occurs hi hk hs.relation hcompiled
  unfold Graph.attach
  rw [hs.relation]
  refine (addChildren_runs hroot horigin hinherited h hoccurs hq).bind ?_
  rintro children g₁ ⟨sources₁, ⟨h₁, he₁⟩, hchildren⟩
  rw [hs.listField.field?]
  have h₁' : Ledger env C root Q round ([] ++ group :: post) g₁ sources₁ := h₁
  have hclose := h₁'.close hroot horigin hi hk hs.relation
    (g₁.childrenOf m.keyLabels children) compiled.pageSize
    (hclosed g₁ sources₁ children he₁ hchildren)
  exact ⟨sources₁, hclose, he₁.trans extends_setLinks⟩

end

/-! ### All groups of a round -/

/-- A planned group: its follow-up is compiled for the keys of its parents. -/
def Ready (env : Environment) (g : Graph) (planned : Planned) : Prop :=
  ∃ m keys, planned.group.relation? = some m ∧ KeysFor g planned.group.parents m keys ∧
    keys ≠ [] ∧ Plan.compileMany env m keys = .ok planned.compiled

/-- A group that is still to be served is refused a follow-up for the keys of its parents. -/
structure Refused (env : Environment) (g : Graph) (todo : List Group) (m : ManyPlan)
    (keys : List (List Json)) (e : Plan.Error) : Prop where
  group : ∃ group ∈ todo, group.relation? = some m ∧ KeysFor g group.parents m keys
  nonempty : keys ≠ []
  refused : Plan.compileMany env m keys = .error e

section

variable {group : Group} {groups : List Group} {m : ManyPlan} (hrelation : group.relation? = some m)

include hrelation

theorem planGroups_cons_none (hkeys : g.parentKeys group = []) :
    planGroups env (group :: groups) g = planGroups env groups (g.attachNone group) := by
  rw [planGroups, hrelation, hkeys]

theorem planGroups_cons_some (hkeys : g.parentKeys group ≠ []) :
    planGroups env (group :: groups) g =
      (Plan.compileMany env m (g.parentKeys group)).mapError Fault.plan >>= fun compiled =>
        (planGroups env groups g).map fun p => (⟨group, compiled⟩ :: p.1, p.2) := by
  rw [planGroups, hrelation]
  cases hk : g.parentKeys group with
  | nil => exact absurd hk hkeys
  | cons values keys =>
    refine bind_congr fun compiled => ?_
    cases planGroups env groups g <;> rfl

end

section

variable (hroot : PlannedFor env selections root) (horigin : root.origin = [])

include hroot horigin

theorem planGroups_ledger {groups : List Group} (pre : List Group)
    (h : Ledger env C root Q round (pre ++ groups) g sources) :
    match planGroups env groups g with
    | .ok (planned, g') =>
      Ledger env C root Q round (pre ++ planned.map Planned.group) g' sources ∧
        Extends g sources g' sources ∧ ∀ p ∈ planned, Ready env g' p
    | .error fault => ∃ e, fault = .plan e ∧ ∃ todo g' m keys,
      Ledger env C root Q round todo g' sources ∧ Refused env g' todo m keys e := by
  induction groups generalizing pre g with
  | nil => exact ⟨h, Extends.refl, fun _ hp => nomatch hp⟩
  | cons group groups ih =>
    have hmem : group ∈ pre ++ group :: groups := List.mem_append_right _ List.mem_cons_self
    obtain ⟨r, -, hgroup⟩ := h.todo_grouped group hmem
    obtain ⟨i, m, hs⟩ := hgroup.served hroot
    by_cases hkeys : g.parentKeys group = []
    · obtain ⟨h₁, he₁⟩ := attachNone_ledger hroot horigin h hkeys
      have hrest := ih pre h₁
      rw [planGroups_cons_none hs.relation hkeys]
      split
      · next planned g' hplan =>
        rw [hplan] at hrest
        obtain ⟨h', he', hready⟩ := hrest
        exact ⟨h', he₁.trans he', hready⟩
      · next e hplan =>
        rw [hplan] at hrest
        exact hrest
    · have hfor := parentKeys_keysFor g hs.relation
      have hrest := ih (pre ++ [group]) (by rw [← List.append_cons]; exact h)
      rw [planGroups_cons_some hs.relation hkeys]
      cases hc : Plan.compileMany env m (g.parentKeys group) with
      | error e => exact ⟨e, rfl, _, g, m, _, h, ⟨group, hmem, hs.relation, hfor⟩, hkeys, hc⟩
      | ok compiled =>
        cases hplan : planGroups env groups g with
        | error e =>
          rw [hplan] at hrest
          exact hrest
        | ok result =>
          obtain ⟨planned, g'⟩ := result
          rw [hplan] at hrest
          obtain ⟨h', he', hready⟩ := hrest
          rw [← List.append_cons] at h'
          refine ⟨h', he', List.forall_mem_cons.2 ⟨?_, hready⟩⟩
          refine ⟨m, _, hs.relation, hfor.mono he' fun id hid => ?_, hkeys, hc⟩
          obtain ⟨node, hn, -⟩ := hgroup.parents id hid
          exact ⟨node, hn⟩

end

/-- If attaching the rows of one fetched group keeps the ledger, then so does attaching those of
all. -/
theorem attachAll_runs {P : Graph → Fetched → Prop} {fault : Fault → Prop}
    (hmono : ∀ {r : Nat} {g g' : Graph} {sources sources' : List Row} {f : Fetched}, P g f →
      Grouped env root r g f.planned.group → Extends g sources g' sources' → P g' f)
    (hattach : ∀ {g : Graph} {sources : List Row} {f : Fetched} {post : List Group}, P g f →
      Ledger env C root Q round (f.planned.group :: post) g sources →
      Runs (Graph.attach f.planned.group f.planned.compiled.plan f.planned.compiled.partitionLabels
          f.planned.compiled.pageSize f.rows) g
        (fun _ g' => ∃ sources', Grown env C root Q round post g sources g' sources') fault)
    {fetched : List Fetched}
    (h : Ledger env C root Q round (fetched.map fun f => f.planned.group) g sources)
    (hfetched : ∀ f ∈ fetched, P g f) :
    Runs (attachAll fetched) g
      (fun _ g' => ∃ sources', Grown env C root Q round [] g sources g' sources') fault := by
  induction fetched generalizing g sources with
  | nil => exact Runs.pure ⟨sources, h, Extends.refl⟩
  | cons first fetched ih =>
    refine (hattach (hfetched first List.mem_cons_self) h).bind ?_
    rintro - g₁ ⟨sources₁, h₁, he₁⟩
    refine (ih h₁ ?_).mono ?_ fun _ h => h
    · intro f hf
      obtain ⟨r, -, hgroup⟩ := h.todo_grouped f.planned.group
        (List.mem_map_of_mem (List.mem_cons_of_mem _ hf))
      exact hmono (hfetched f (List.mem_cons_of_mem _ hf)) hgroup he₁
    · rintro - g' ⟨sources', h', he'⟩
      exact ⟨sources', h', he₁.trans he'⟩

end Resolution

end ObjectGraph
