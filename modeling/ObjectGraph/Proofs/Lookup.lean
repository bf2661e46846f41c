import Mathlib.Data.List.Induction
import Mathlib.Data.List.Nodup
import ObjectGraph.Dictionary

/-! # Looking up keys

What is found under a key in a list of keyed values, and what keys there are once values were put
under some of them. -/

namespace ObjectGraph

namespace Dictionary

variable {α : Type} {d d' : List (String × α)} {key : String} {x : α}

theorem lookup_cons_eq {key' : String} : List.lookup key ((key', x) :: d) =
    if key' = key then some x else d.lookup key := by
  rw [List.lookup_cons]
  by_cases h : key' = key
  · rw [if_pos h, h, beq_self_eq_true]
  · rw [if_neg h, beq_false_of_ne fun heq => h heq.symm]

theorem lookup_append : (d ++ d').lookup key = (d.lookup key).or (d'.lookup key) := by
  induction d with
  | nil => rfl
  | cons item d ih =>
    rw [List.cons_append, List.lookup_cons, List.lookup_cons, ih]
    cases key == item.1 <;> rfl

theorem mem_of_lookup (h : d.lookup key = some x) : (key, x) ∈ d := by
  obtain ⟨before, after, rfl, -⟩ := List.lookup_eq_some_iff.1 h
  exact List.mem_append_right _ List.mem_cons_self

theorem lookup_eq_none (h : key ∉ d.map Prod.fst) : d.lookup key = none := by
  rw [List.lookup_eq_none_iff]
  intro item hitem
  rw [bne_iff_ne]
  intro hkey
  rw [hkey] at h
  exact h (List.mem_map_of_mem hitem)

/-- Where no key is repeated, a value is found under its key. -/
theorem lookup_of_mem (hnodup : (d.map Prod.fst).Nodup) (h : (key, x) ∈ d) :
    d.lookup key = some x := by
  induction d with
  | nil => exact absurd h List.not_mem_nil
  | cons item d ih =>
    rw [List.map_cons, List.nodup_cons] at hnodup
    rcases List.mem_cons.1 h with heq | h
    · rw [← heq, List.lookup_cons_self]
    · have hne : key ≠ item.1 := by
        intro hkey
        apply hnodup.1
        rw [← hkey]
        exact List.mem_map.2 ⟨_, h, rfl⟩
      rw [List.lookup_cons, beq_false_of_ne hne]
      exact ih hnodup.2 h

theorem get?_lastFirst (d : Dictionary α) (key : String) :
    d.lastFirst.get? key = d.get? key := by
  rcases List.eq_nil_or_concat d with rfl | ⟨others, ⟨k, v⟩, rfl⟩
  · rfl
  · unfold get? lastFirst has get?
    rw [List.concat_eq_append, List.getLast?_concat, List.dropLast_concat, lookup_append,
      lookup_cons_eq, List.lookup_nil]
    simp only
    by_cases hkey : k = key
    · subst hkey
      cases hlast : others.lookup k with
      | none => simp
      | some value => simp [hlast]
    · rw [if_neg hkey, Option.or_none]
      split
      · rfl
      · rw [lookup_cons_eq, if_neg hkey]

theorem get?_erase (d : Dictionary α) (key key' : String) :
    (d.erase key).get? key' = if key' = key then none else d.get? key' := by
  induction d with
  | nil => simp [erase, get?]
  | cons entry rest ih =>
    obtain ⟨k, v⟩ := entry
    unfold erase
    split
    · next hk =>
      rw [get?_lastFirst, ih]
      subst hk
      by_cases hkey : key' = k
      · rw [if_pos hkey, if_pos hkey]
      · rw [if_neg hkey, if_neg hkey, get?, get?, lookup_cons_eq, if_neg (Ne.symm hkey)]
    · next hk =>
      rw [get?, lookup_cons_eq]
      split
      · next hkey =>
        subst hkey
        rw [if_neg hk, get?, List.lookup_cons_self]
      · next hkey => rw [← get?, ih, get?, get?, lookup_cons_eq, if_neg hkey]

example : Dictionary.erase [("a", 1), ("b", 2), ("c", 3)] "a" = [("c", 3), ("b", 2)] := rfl

/-! ### Entries put in turn -/

theorem keys_cons (entry : String × α) (d : Dictionary α) :
    Dictionary.keys (entry :: d) = entry.1 :: d.keys := rfl

theorem keys_insert (d : Dictionary α) (key : String) (value : α) :
    (d.insert key value).keys = if key ∈ d.keys then d.keys else d.keys ++ [key] := by
  induction d with
  | nil => rfl
  | cons entry rest ih =>
    obtain ⟨k, v⟩ := entry
    unfold Dictionary.insert
    by_cases hk : k = key
    · rw [if_pos hk, keys_cons, keys_cons, if_pos (hk ▸ List.mem_cons_self)]
    · have hmem : key ∈ k :: Dictionary.keys rest ↔ key ∈ Dictionary.keys rest := by
        rw [List.mem_cons, or_iff_right fun h => hk h.symm]
      rw [if_neg hk, keys_cons, keys_cons, ih]
      simp only [hmem]
      split
      · rfl
      · rfl

/-- Putting a value where it stands changes nothing. -/
theorem insert_self {d : Dictionary α} {key : String} {value : α} (h : d.get? key = some value) :
    d.insert key value = d := by
  induction d with
  | nil => cases h
  | cons entry rest ih =>
    obtain ⟨k, v⟩ := entry
    unfold Dictionary.insert
    by_cases hk : k = key
    · subst hk
      rw [get?, List.lookup_cons_self] at h
      rw [if_pos rfl, Option.some.inj h]
    · rw [get?, List.lookup_cons, beq_false_of_ne fun heq => hk heq.symm] at h
      rw [if_neg hk, ih h]

/-- The keys of a dictionary of entries stand in the order of their first entries. -/
theorem keys_ofList (entries : List (String × α)) :
    (Dictionary.ofList entries).keys = (entries.map Prod.fst).eraseDups := by
  induction entries using List.reverseRecOn with
  | nil => rfl
  | append_singleton entries entry ih =>
    unfold Dictionary.ofList at ih ⊢
    rw [List.foldl_append, List.foldl_cons, List.foldl_nil, keys_insert, ih, List.map_append,
      List.map_singleton, List.eraseDups_append, List.removeAll]
    simp only [List.mem_eraseDups, List.filter_cons, List.elem_eq_mem, List.filter_nil]
    by_cases hmem : entry.1 ∈ entries.map Prod.fst
    · simp [hmem]
    · simp [hmem, List.eraseDups_cons]

theorem get?_foldl_insert (entries : List (String × α)) (d : Dictionary α) {key : String}
    (h : key ∉ entries.map Prod.fst) :
    (entries.foldl (fun d entry => d.insert entry.1 entry.2) d).get? key = d.get? key := by
  induction entries generalizing d with
  | nil => rfl
  | cons entry entries ih =>
    rw [List.map_cons, List.mem_cons, not_or] at h
    rw [List.foldl_cons, ih _ h.2, get?_insert, if_neg h.1]

/-- Of the entries of a key, one is found once all are put. -/
theorem get?_foldl_insert_of_mem (entries : List (String × α)) (d : Dictionary α) {key : String}
    (h : key ∈ entries.map Prod.fst) :
    ∃ value, (key, value) ∈ entries ∧
      (entries.foldl (fun d entry => d.insert entry.1 entry.2) d).get? key = some value := by
  induction entries generalizing d with
  | nil => cases h
  | cons entry entries ih =>
    rw [List.foldl_cons]
    by_cases hrest : key ∈ entries.map Prod.fst
    · obtain ⟨value, hmem, hvalue⟩ := ih (d.insert entry.1 entry.2) hrest
      exact ⟨value, List.mem_cons_of_mem _ hmem, hvalue⟩
    · obtain rfl : key = entry.1 := (List.mem_cons.1 h).resolve_right hrest
      refine ⟨entry.2, List.mem_cons_self, ?_⟩
      rw [get?_foldl_insert entries _ hrest, get?_insert, if_pos rfl]

/-- Where the entries of a key agree, their value is found under it. -/
theorem get?_ofList {entries : List (String × α)} {f : String → α}
    (h : ∀ entry ∈ entries, entry.2 = f entry.1) {key : String}
    (hkey : key ∈ entries.map Prod.fst) : (Dictionary.ofList entries).get? key = some (f key) := by
  induction entries using List.reverseRecOn with
  | nil => cases hkey
  | append_singleton entries entry ih =>
    unfold Dictionary.ofList at ih ⊢
    rw [List.foldl_append, List.foldl_cons, List.foldl_nil, get?_insert,
      h entry (List.mem_append_right _ (List.mem_singleton_self _))]
    split
    · next heq => rw [heq]
    · next hne =>
      refine ih (fun entry he => h entry (List.mem_append_left _ he)) ?_
      rw [List.map_append, List.mem_append, List.map_singleton, List.mem_singleton] at hkey
      exact hkey.resolve_right hne

/-! ### Distinct keys -/

theorem insert_of_not_mem {d : Dictionary α} {key : String} {value : α}
    (h : key ∉ d.keys) : d.insert key value = d ++ [(key, value)] := by
  induction d with
  | nil => rfl
  | cons entry rest ih =>
    rw [keys_cons, List.mem_cons, not_or] at h
    rw [Dictionary.insert, if_neg (Ne.symm h.1), ih h.2, List.cons_append]

theorem nodup_insert {d : Dictionary α} {key : String} {value : α}
    (h : d.keys.Nodup) : (d.insert key value).keys.Nodup := by
  rw [Dictionary.keys_insert]
  split
  · exact h
  · next hnot =>
    rw [← List.concat_eq_append]
    exact h.concat hnot

/-- Entries of distinct keys are a dictionary as they stand. -/
theorem ofList_of_nodup {entries : List (String × α)}
    (h : (entries.map Prod.fst).Nodup) : Dictionary.ofList entries = entries := by
  induction entries using List.reverseRecOn with
  | nil => rfl
  | append_singleton entries entry ih =>
    rw [List.map_append, List.nodup_append] at h
    have hfresh : entry.1 ∉ Dictionary.keys entries := fun hmem =>
      h.2.2 _ hmem _ List.mem_cons_self rfl
    unfold Dictionary.ofList at ih ⊢
    rw [List.foldl_append, ih h.1, List.foldl_cons, List.foldl_nil, insert_of_not_mem hfresh]

theorem mem_iff_get? {d : Dictionary α} (hnodup : d.keys.Nodup) {key : String} {x : α} :
    (key, x) ∈ d ↔ d.get? key = some x :=
  ⟨Dictionary.lookup_of_mem hnodup, Dictionary.mem_of_lookup⟩

theorem get?_perm {entries entries' : Dictionary α} (hnodup : entries.keys.Nodup)
    (h : entries.Perm entries') (key : String) : entries.get? key = entries'.get? key := by
  have hnodup' : entries'.keys.Nodup := (h.map Prod.fst).nodup_iff.1 hnodup
  refine Option.ext fun x => ?_
  rw [← mem_iff_get? hnodup, ← mem_iff_get? hnodup']
  exact h.mem_iff

end Dictionary

end ObjectGraph
