import ObjectGraph.Proofs.Graph.Veils
import ObjectGraph.Proofs.Resolution.Tandem

/-! # Rounds on rows that differ behind a veil

Two storages that answer every statement of a request with rows that differ only behind a veil are
sent the same statements: no round reads anything behind the veil, neither for the keys of a
follow-up nor to find the parents of its rows.  So a round takes graphs that differ only behind the
veil to such graphs, and it ends with the same fault in both if it fails (`round_veiled`); and so do
all rounds (`rounds_veiled`). -/

namespace ObjectGraph

namespace Resolution

open ObjectGraph.Graph (Group Node NodeId Readable Veil VeiledChild VeiledGraph VeiledRow)
open Outcome (Same)
open Plan (Environment Compiled ManyPlan NodePlan Occurs PlannedFor)
open Session (InStep)

/-- No label behind a veil carries the key of a list. -/
def KeysUnveiled (env : Environment) (root : NodePlan) (veil : Veil) : Prop :=
  ∀ round plan m label, Occurs env root round plan → m ∈ plan.many → label ∈ m.keyLabels →
    ¬veil plan.origin label

/-- Two storages answer the follow-ups of a request alike, but for values behind a veil. -/
def ListsVeiled (env : Environment) (root : NodePlan) (veil : Veil) (storage storage' : Storage) :
    Prop :=
  ∀ m keys compiled, Plan.Listed env root m → Plan.compileMany env m keys = .ok compiled → ∀ log,
    Same (List.Forall₂ (VeiledChild veil compiled.plan compiled.partitionLabels))
      (storage.answer log compiled.statement) (storage'.answer log compiled.statement)

variable {env : Environment} {root : NodePlan} {veil : Veil} {storage storage' : Storage}
  {round : Nat} {g g' : Graph}

theorem Grouped.readable {group : Group} (h : Grouped env root round g group)
    (hkeys : KeysUnveiled env root veil) : Readable veil g group := by
  intro id hid
  obtain ⟨node, hn, hplan⟩ := h.parents id hid
  refine ⟨node, hn, fun m hm label hl => ?_⟩
  rw [hplan]
  exact hkeys round group.plan m label h.occurs (List.mem_of_getElem? hm) hl

/-- Groups are planned alike. -/
theorem planGroups_veiled {groups : List Group} (h : VeiledGraph veil g g')
    (hgroups : ∀ group ∈ groups, Readable veil g group) :
    Same (fun p p' => p.1 = p'.1 ∧ VeiledGraph veil p.2 p'.2) (planGroups env groups g)
      (planGroups env groups g') := by
  induction groups generalizing g g' with
  | nil => exact .ok ⟨rfl, h⟩
  | cons group groups ih =>
    have hgroup := hgroups group List.mem_cons_self
    have hrest : ∀ other ∈ groups, Readable veil g other :=
      fun other ho => hgroups other (List.mem_cons_of_mem _ ho)
    have hnone : Same (fun p p' => p.1 = p'.1 ∧ VeiledGraph veil p.2 p'.2)
        (planGroups env groups (g.attachNone group))
        (planGroups env groups (g'.attachNone group)) :=
      ih (h.attachNone group) fun other ho =>
        (hrest other ho).mono (Graph.keeps_attachNone g group)
    unfold planGroups
    rw [← Graph.parentKeys_veiled h hgroup]
    cases group.relation? with
    | none => exact hnone
    | some m =>
      cases g.parentKeys group with
      | nil => exact hnone
      | cons values keys =>
        refine (Same.refl _).bind ?_
        rintro compiled _ rfl
        refine (ih h hrest).bind ?_
        rintro ⟨planned, g₁⟩ ⟨planned', g₁'⟩ ⟨hplanned, h₁⟩
        simp only at hplanned
        subst hplanned
        exact .ok ⟨rfl, h₁⟩

/-- Groups with the same follow-up and with rows that differ only behind a veil. -/
structure VeiledFetched (veil : Veil) (fetched fetched' : Fetched) : Prop where
  planned : fetched.planned = fetched'.planned
  rows : List.Forall₂
    (VeiledChild veil fetched.planned.compiled.plan fetched.planned.compiled.partitionLabels)
    fetched.rows fetched'.rows

/-- The rows of groups are attached alike. -/
theorem attachAll_veiled {fetched fetched' : List Fetched}
    (hfetched : List.Forall₂ (VeiledFetched veil) fetched fetched') (h : VeiledGraph veil g g')
    (hgroups : ∀ f ∈ fetched, Readable veil g f.planned.group) :
    Same (fun p p' => VeiledGraph veil p.2 p'.2) ((attachAll fetched).result g)
      ((attachAll fetched').result g') := by
  induction hfetched generalizing g g' with
  | nil => exact .ok h
  | @cons f f' fetched fetched' hf _ ih =>
    rw [attachAll_cons, attachAll_cons]
    have hattach := Graph.attach_veiled h (hgroups f List.mem_cons_self)
      f.planned.compiled.pageSize hf.rows
    unfold Fetched.attach
    rw [← hf.planned]
    refine hattach.with_ok.bind ?_
    rintro ⟨⟨⟩, g₁⟩ ⟨⟨⟩, g₁'⟩ ⟨h₁, hok, -⟩
    exact ih h₁ fun other ho =>
      (hgroups other (List.mem_cons_of_mem _ ho)).mono (Graph.attach_keeps hok)

section

variable {selections : List Selection} (hroot : PlannedFor env selections root)
  (horigin : root.origin = []) (hkeys : KeysUnveiled env root veil)
  (hlists : ListsVeiled env root veil storage storage')

include hroot horigin hkeys hlists

/-- A round takes graphs that differ only behind a veil to such graphs, with the same statements. -/
theorem round_veiled (hkept : Kept env root round [] g) (h : VeiledGraph veil g g') :
    InStep storage storage' (VeiledGraph veil) (Resolution.round env g)
      (Resolution.round env g') := by
  have hgroups : ∀ group ∈ g.waiting, Readable veil { g with waiting := [] } group := by
    obtain ⟨sources, hledger⟩ := hkept
    intro group hg
    exact (hledger.waiting_grouped group hg).readable hkeys
  have hempty : VeiledGraph veil { g with waiting := [] } { g' with waiting := [] } :=
    ⟨h.size, h.nodes, rfl⟩
  have hplan : Same (fun p p' => p.1 = p'.1 ∧ VeiledGraph veil p.2 p'.2)
      (planGroups env g.waiting { g with waiting := [] })
      (planGroups env g.waiting { g' with waiting := [] }) :=
    planGroups_veiled hempty hgroups
  have hplanned := hkept.planGroups hroot horigin
  unfold Resolution.round
  simp only [Graph.takeWaiting]
  rw [← h.waiting]
  refine (InStep.ofExcept hplan.with_ok).bind ?_
  rintro ⟨planned, g₁⟩ ⟨planned', g₁'⟩ ⟨⟨heq, h₁⟩, hok, -⟩
  simp only at heq
  subst heq
  rw [hok] at hplanned
  obtain ⟨⟨sources, hledger⟩, -, -, hasked⟩ := hplanned
  have hserved : ∀ p ∈ planned, ∃ r, Grouped env root r g₁ p.group := by
    intro p hp
    obtain ⟨r, -, hgroup⟩ := hledger.todo_grouped p.group (List.mem_map_of_mem hp)
    exact ⟨r, hgroup⟩
  have hfetch : InStep storage storage' (List.Forall₂ (VeiledFetched veil))
      (planned.mapM fetchGroup) (planned.mapM fetchGroup) := by
    refine InStep.mapM (List.forall₂_same.2 fun p hp => ?_)
    obtain ⟨r, hgroup⟩ := hserved p hp
    obtain ⟨m, keys, hm, hc⟩ := hasked p hp
    refine (InStep.fetch (hlists m keys _ (hgroup.listed hm) hc)).mapError.bind ?_
    intro rows rows' hrows
    exact InStep.pure ⟨rfl, hrows⟩
  have hends : Session.Ends storage (planned.mapM fetchGroup)
      (fun fetched => fetched.map Fetched.planned = planned) (fun _ : Fault => True) := by
    intro log
    split
    · next fetched hfetched => exact fetchGroups_ok hfetched
    · trivial
  refine (hfetch.ends hends).bind ?_
  rintro fetched fetched' ⟨hfetched, hmap⟩
  have hattach := attachAll_veiled hfetched h₁ fun f hf => by
    obtain ⟨r, hgroup⟩ := hserved f.planned (hmap ▸ List.mem_map_of_mem hf)
    exact hgroup.readable hkeys
  refine (InStep.ofExcept hattach : InStep storage storage' _ (growing _ _) (growing _ _)).bind ?_
  rintro ⟨_, g₂⟩ ⟨_, g₂'⟩ h₂
  exact InStep.pure h₂

/-- All rounds take graphs that differ only behind a veil to such graphs. -/
theorem rounds_veiled {bound : Nat} (hkept : Kept env root round [] g) (h : VeiledGraph veil g g') :
    InStep storage storage' (fun g₁ g₁' => VeiledGraph veil g₁ g₁' ∧
        ∃ last, Kept env root last [] g₁) (rounds env bound g) (rounds env bound g') := by
  induction bound generalizing round g g' with
  | zero => exact InStep.pure ⟨h, round, hkept⟩
  | succ bound ih =>
    unfold rounds
    rw [← h.waiting]
    split
    · exact InStep.pure ⟨h, round, hkept⟩
    · have hends : Session.Ends storage _ _ _ := hkept.round_ends hroot horigin
      refine ((round_veiled hroot horigin hkeys hlists hkept h).ends hends).bind ?_
      rintro g₁ g₁' ⟨h₁, hkept₁, -⟩
      exact ih hkept₁ h₁

end

end Resolution

end ObjectGraph
