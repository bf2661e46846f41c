import Mathlib.Data.List.Induction
import ObjectGraph.Proofs.Plan.Places

/-! # Selections without repeated entries

A selection may name an entry more than once.  `Thins` drops repeated entries, at any level: a
dropped entry is a value that is no document or a list, and the last kept entry of its name is the
same one.  `Slots` reads off where every entry went: the kept ones to the places after one another,
a dropped one to that of the entry it repeats. -/

namespace ObjectGraph

namespace Plan

open Schema (Registry Relation Resolved)

/-- The last entry of a name. -/
def lastNamed (name : String) (entries : List Selection) : Option Selection :=
  entries.reverse.find? fun entry => entry.name == name

/-- Dropping repeated entries of a type after some kept ones.  Only values that `repeatable` admits
and lists are dropped; the entries of a list may be thinned before it is. -/
inductive Thins (registry : Registry) (repeatable : Resolved → Prop) :
    (typeName : String) → (kept entries entries' : List Selection) → Prop
  | nil {typeName : String} {kept : List Selection} : Thins registry repeatable typeName kept [] []
  | keep {typeName : String} {kept entries entries' : List Selection} {entry : Selection} :
      Thins registry repeatable typeName (kept ++ [entry]) entries entries' →
      Thins registry repeatable typeName kept (entry :: entries) (entry :: entries')
  | within {typeName name : String} {kept entries entries' below below' : List Selection}
      {resolved : Resolved} {relation : Relation} :
      registry.resolve typeName name = .ok resolved → resolved.relation? = some relation →
      Thins registry repeatable (resolved.view.getD relation.target) [] below below' →
      Thins registry repeatable typeName (kept ++ [.nested name below']) entries entries' →
      Thins registry repeatable typeName kept (.nested name below :: entries)
        (.nested name below' :: entries')
  | value {typeName name : String} {kept entries entries' : List Selection} {resolved : Resolved} :
      registry.resolve typeName name = .ok resolved → resolved.json = false →
      repeatable resolved → lastNamed name kept = some (.scalar name) →
      Thins registry repeatable typeName kept entries entries' →
      Thins registry repeatable typeName kept (.scalar name :: entries) entries'
  | list {typeName name : String} {kept entries entries' below below' : List Selection}
      {resolved : Resolved} {relation : Relation} :
      registry.resolve typeName name = .ok resolved → resolved.relation? = some relation →
      relation.many = true →
      Thins registry repeatable (resolved.view.getD relation.target) [] below below' →
      lastNamed name kept = some (.nested name below') →
      Thins registry repeatable typeName kept entries entries' →
      Thins registry repeatable typeName kept (.nested name below :: entries) entries'

section

variable {registry : Registry} {repeatable : Resolved → Prop} {typeName : String}
  {kept entries entries' : List Selection}

theorem Thins.refl (kept entries : List Selection) :
    Thins registry repeatable typeName kept entries entries := by
  induction entries generalizing kept with
  | nil => exact .nil
  | cons entry entries ih => exact .keep (ih _)

theorem lastNamed_mem {name : String} {entry : Selection} (h : lastNamed name kept = some entry) :
    entry ∈ kept :=
  List.mem_reverse.1 (List.mem_of_find?_eq_some h)

/-! ### Levels -/

theorem depthOf_append (entries entries' : List Selection) :
    Selection.depthOf (entries ++ entries') =
      max (Selection.depthOf entries) (Selection.depthOf entries') := by
  induction entries with
  | nil => simp [Selection.depthOf]
  | cons entry entries ih => rw [List.cons_append, Selection.depthOf, Selection.depthOf, ih,
      Nat.max_assoc]

theorem depthOf_singleton (entry : Selection) : Selection.depthOf [entry] = entry.depth := by
  simp [Selection.depthOf]

/-- Dropping repeated entries leaves the number of levels as it is. -/
theorem Thins.depthOf_max (h : Thins registry repeatable typeName kept entries entries') :
    max (Selection.depthOf kept) (Selection.depthOf entries) =
      max (Selection.depthOf kept) (Selection.depthOf entries') := by
  induction h with
  | nil => rfl
  | keep _ ih =>
    rw [depthOf_append, depthOf_singleton] at ih
    rw [Selection.depthOf, Selection.depthOf, ← Nat.max_assoc, ← Nat.max_assoc]
    exact ih
  | within _ _ _ _ ihBelow ih =>
    rw [depthOf_append, depthOf_singleton, Selection.depth] at ih
    simp only [Selection.depthOf, Nat.zero_max] at ihBelow
    rw [Selection.depthOf, Selection.depthOf, Selection.depth, Selection.depth, ihBelow,
      ← Nat.max_assoc, ← Nat.max_assoc]
    exact ih
  | value _ _ _ _ _ ih =>
    rw [Selection.depthOf, Selection.depth, Nat.zero_max]
    exact ih
  | list _ _ _ _ hl _ ihBelow ih =>
    simp only [Selection.depthOf, Nat.zero_max] at ihBelow
    have hle := depth_le_depthOf (lastNamed_mem hl)
    rw [Selection.depth] at hle
    rw [Selection.depthOf, Selection.depth, ihBelow, ← Nat.max_assoc, Nat.max_eq_left hle]
    exact ih

theorem Thins.depthOf_eq (h : Thins registry repeatable typeName [] entries entries') :
    Selection.depthOf entries = Selection.depthOf entries' := by
  have hmax := h.depthOf_max
  simpa only [Selection.depthOf, Nat.zero_max] using hmax

end

/-! ### Where the entries go -/

section

variable (registry : Registry) (repeatable : Resolved → Prop) (typeName : String)

/-- An entry, and the same one with its own entries thinned. -/
inductive Narrows : Selection → Selection → Prop
  | same (entry : Selection) : Narrows entry entry
  | within {name : String} {below below' : List Selection} {resolved : Resolved}
      {relation : Relation} :
      registry.resolve typeName name = .ok resolved → resolved.relation? = some relation →
      Thins registry repeatable (resolved.view.getD relation.target) [] below below' →
      Narrows (.nested name below) (.nested name below')

/-- An entry that may be dropped where it is repeated. -/
inductive Droppable : Selection → Prop
  | value {name : String} {resolved : Resolved} :
      registry.resolve typeName name = .ok resolved → resolved.json = false →
      repeatable resolved → Droppable (.scalar name)
  | list {name : String} {below : List Selection} {resolved : Resolved} {relation : Relation} :
      registry.resolve typeName name = .ok resolved → resolved.relation? = some relation →
      relation.many = true → Droppable (.nested name below)

/-- The last of the first so many members that satisfies something. -/
structure LastOf {α : Type} (all : List α) (taken : Nat) (P : α → Prop) (i : Nat) (x : α) :
    Prop where
  lt : i < taken
  at_i : all[i]? = some x
  holds : P x
  last : ∀ k y, i < k → k < taken → all[k]? = some y → ¬P y

/-- The places, among all that are kept, that the entries go to once so many are kept. -/
inductive Slots (all : List Selection) : (taken : Nat) → List Nat → List Selection →
    List Selection → Prop
  | nil {taken : Nat} : Slots all taken [] [] []
  | keep {taken : Nat} {slots : List Nat} {entry entry' : Selection}
      {entries entries' : List Selection} :
      Narrows registry repeatable typeName entry entry' →
      Slots all (taken + 1) slots entries entries' →
      Slots all taken (taken :: slots) (entry :: entries) (entry' :: entries')
  | again {taken i : Nat} {slots : List Nat} {entry entry' : Selection}
      {entries entries' : List Selection} :
      LastOf all taken (fun e => e.name = entry.name) i entry' →
      Narrows registry repeatable typeName entry entry' →
      Droppable registry repeatable typeName entry →
      Slots all taken slots entries entries' →
      Slots all taken (i :: slots) (entry :: entries) entries'

end

section

variable {registry : Registry} {repeatable : Resolved → Prop} {typeName : String}
  {kept entries entries' : List Selection}

theorem Narrows.nested {name : String} {below : List Selection} {entry' : Selection}
    (h : Narrows registry repeatable typeName (.nested name below) entry') :
    ∃ below', entry' = .nested name below' ∧ ∀ resolved relation,
      registry.resolve typeName name = .ok resolved → resolved.relation? = some relation →
      Thins registry repeatable (resolved.view.getD relation.target) [] below below' := by
  cases h with
  | same => exact ⟨below, rfl, fun _ _ _ _ => Thins.refl _ _⟩
  | within hr hn hb =>
    refine ⟨_, rfl, fun resolved relation hr' hn' => ?_⟩
    cases hr.symm.trans hr'
    cases hn.symm.trans hn'
    exact hb

/-- The first entry is kept, or one that is kept already stands for it. -/
theorem Thins.cons {entry : Selection}
    (h : Thins registry repeatable typeName kept (entry :: entries) entries') :
    (∃ entry' rest, entries' = entry' :: rest ∧ Narrows registry repeatable typeName entry entry' ∧
        Thins registry repeatable typeName (kept ++ [entry']) entries rest) ∨
      ∃ entry' ∈ kept, Narrows registry repeatable typeName entry entry' ∧
        Droppable registry repeatable typeName entry ∧
        Thins registry repeatable typeName kept entries entries' := by
  cases h with
  | keep h => exact .inl ⟨entry, _, rfl, .same entry, h⟩
  | within hr hn hb h => exact .inl ⟨_, _, rfl, .within hr hn hb, h⟩
  | value hr hj hp hl h => exact .inr ⟨_, lastNamed_mem hl, .same _, .value hr hj hp, h⟩
  | list hr hn hm hb hl h =>
    exact .inr ⟨_, lastNamed_mem hl, .within hr hn hb, .list hr hn hm, h⟩

theorem lastOf_lastNamed {name : String} {entry : Selection} (entries' : List Selection)
    (h : lastNamed name kept = some entry) :
    ∃ i, LastOf (kept ++ entries') kept.length (fun e => e.name = name) i entry := by
  induction kept using List.reverseRecOn generalizing entries' with
  | nil => cases h
  | append_singleton kept last ih =>
    unfold lastNamed at h ih
    rw [List.reverse_append, List.reverse_singleton, List.singleton_append, List.find?_cons] at h
    by_cases hname : last.name = name
    · rw [beq_iff_eq.2 hname] at h
      cases h
      refine ⟨kept.length, by simp, by simp, hname, ?_⟩
      intro k y hlt hk
      rw [List.length_append, List.length_singleton] at hk
      omega
    · rw [beq_false_of_ne hname] at h
      obtain ⟨i, hlt, hi, hp, hlast⟩ := ih (last :: entries') h
      rw [List.append_assoc, List.singleton_append, List.length_append, List.length_singleton]
      refine ⟨i, by omega, hi, hp, ?_⟩
      intro k y hik hk hy
      by_cases hend : k = kept.length
      · rw [hend, List.getElem?_append_right (Nat.le_refl _), Nat.sub_self] at hy
        cases hy
        exact hname
      · exact hlast k y hik (by omega) hy

/-- Every entry goes somewhere. -/
theorem Thins.slots (h : Thins registry repeatable typeName kept entries entries') :
    ∃ slots, Slots registry repeatable typeName (kept ++ entries') kept.length slots entries
      entries' := by
  induction h with
  | nil => exact ⟨[], .nil⟩
  | @keep _ kept entries entries' entry _ ih =>
    obtain ⟨slots, hs⟩ := ih
    rw [List.append_assoc, List.length_append] at hs
    exact ⟨_, .keep (.same entry) hs⟩
  | within hr hn hb _ _ ih =>
    obtain ⟨slots, hs⟩ := ih
    rw [List.append_assoc, List.length_append] at hs
    exact ⟨_, .keep (.within hr hn hb) hs⟩
  | value hr hj hp hl _ ih =>
    obtain ⟨slots, hs⟩ := ih
    obtain ⟨i, hi⟩ := lastOf_lastNamed _ hl
    exact ⟨_, .again hi (.same _) (.value hr hj hp) hs⟩
  | list hr hn hm hb hl _ _ ih =>
    obtain ⟨slots, hs⟩ := ih
    obtain ⟨i, hi⟩ := lastOf_lastNamed _ hl
    exact ⟨_, .again hi (.within hr hn hb) (.list hr hn hm) hs⟩

end

end Plan

end ObjectGraph
