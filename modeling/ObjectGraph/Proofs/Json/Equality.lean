import Mathlib.Data.List.Perm.Subperm
import ObjectGraph.Json.Basic
import ObjectGraph.Proofs.Lookup

/-! # Equality of values

Values are compared without regard to the order of the members of their objects.  On values whose
objects do not repeat a key (`Json.Valid`) this is an equivalence (`same_refl`, `same_symm`,
`same_trans`). -/

namespace ObjectGraph

theorem Number.same_refl (x : Number) : x.same x = true := by
  cases x with
  | int n => exact beq_self_eq_true n
  | float f => exact Binary64.sameValue_refl f

theorem Number.same_symm {x y : Number} (h : x.same y = true) : y.same x = true := by
  cases x with
  | int n =>
    cases y with
    | int m =>
      rw [beq_iff_eq.1 (show (n == m) = true from h)]
      exact beq_self_eq_true m
    | float g => cases h
  | float f =>
    cases y with
    | int m => cases h
    | float g =>
      change g.sameValue f = true
      rw [Binary64.sameValue_comm]
      exact h

theorem Binary64.sameValue_iff {x y : Binary64} :
    x.sameValue y = true ↔ x = y ∨ x.isZero = true ∧ y.isZero = true := by
  rw [Binary64.sameValue, Bool.or_eq_true, beq_iff_eq, Bool.and_eq_true]

theorem Number.same_trans {x y z : Number} (hxy : x.same y = true) (hyz : y.same z = true) :
    x.same z = true := by
  cases x with
  | int n =>
    cases y with
    | int m =>
      rw [beq_iff_eq.1 (show (n == m) = true from hxy)]
      exact hyz
    | float g => cases hxy
  | float f =>
    cases y with
    | int m => cases hxy
    | float g =>
      cases z with
      | int k => cases hyz
      | float k =>
        change f.sameValue k = true
        rcases Binary64.sameValue_iff.1 hxy with rfl | ⟨hf, hg⟩
        · exact hyz
        · rcases Binary64.sameValue_iff.1 hyz with rfl | ⟨-, hk⟩
          · exact hxy
          · exact Binary64.sameValue_iff.2 (.inr ⟨hf, hk⟩)

namespace Json

mutual

/-- No object in a value repeats a key. -/
def Valid : Json → Prop
  | .arr items => ValidItems items
  | .obj members => (members.map Prod.fst).Nodup ∧ ValidMembers members
  | _ => True

/-- The same for all items of an array. -/
def ValidItems : List Json → Prop
  | [] => True
  | x :: xs => x.Valid ∧ ValidItems xs

/-- The same for the values of all members of an object. -/
def ValidMembers : List (String × Json) → Prop
  | [] => True
  | (_, x) :: xs => x.Valid ∧ ValidMembers xs

end

variable {xs ys : List (String × Json)} {key : String} {x y : Json}

theorem valid_of_mem_items {items : List Json} (h : ValidItems items) :
    ∀ item ∈ items, item.Valid := by
  induction items with
  | nil => exact fun _ hi => absurd hi List.not_mem_nil
  | cons first items ih =>
    rw [ValidItems] at h
    intro item hitem
    rcases List.mem_cons.1 hitem with rfl | hitem
    · exact h.1
    · exact ih h.2 item hitem

theorem valid_of_mem (h : ValidMembers xs) (hx : (key, x) ∈ xs) : x.Valid := by
  induction xs with
  | nil => exact absurd hx List.not_mem_nil
  | cons item xs ih =>
    obtain ⟨k, value⟩ := item
    rw [ValidMembers] at h
    rcases List.mem_cons.1 hx with heq | hx
    · cases heq
      exact h.1
    · exact ih h.2 hx

theorem membersIn_iff :
    membersIn xs ys = true ↔ ∀ key x, (key, x) ∈ xs → ∃ y, ys.lookup key = some y ∧
      x.same y = true := by
  induction xs with
  | nil => simp [membersIn]
  | cons item xs ih =>
    obtain ⟨k, value⟩ := item
    rw [membersIn, Bool.and_eq_true, ih]
    constructor
    · rintro ⟨hfirst, hrest⟩ key x hx
      rcases List.mem_cons.1 hx with heq | hx
      · cases heq
        cases hlookup : ys.lookup k with
        | none => simp [hlookup] at hfirst
        | some y =>
          simp only [hlookup] at hfirst
          exact ⟨y, rfl, hfirst⟩
      · exact hrest key x hx
    · intro h
      obtain ⟨y, hlookup, hsame⟩ := h k value List.mem_cons_self
      refine ⟨?_, fun key x hx => h key x (List.mem_cons_of_mem _ hx)⟩
      rw [hlookup]
      exact hsame

/-! ### An equivalence -/

mutual

theorem same_refl : (x : Json) → x.Valid → x.same x = true
  | .null, _ => by rw [same]
  | .bool b, _ => by
    rw [same]
    exact beq_self_eq_true b
  | .num n, _ => by
    rw [same]
    exact n.same_refl
  | .str text, _ => by
    rw [same]
    exact beq_self_eq_true text
  | .arr items, h => by
    rw [same]
    rw [Valid] at h
    exact sameItems_refl items h
  | .obj members, h => by
    rw [Valid] at h
    rw [same, Bool.and_eq_true, beq_iff_eq, membersIn_iff]
    refine ⟨rfl, ?_⟩
    intro key x hx
    exact ⟨x, Dictionary.lookup_of_mem h.1 hx, same_refl_of_mem members h.2 key x hx⟩

theorem sameItems_refl : (xs : List Json) → ValidItems xs → sameItems xs xs = true
  | [], _ => by rw [sameItems]
  | x :: xs, h => by
    rw [ValidItems] at h
    rw [sameItems, same_refl x h.1, sameItems_refl xs h.2]
    rfl

theorem same_refl_of_mem : (xs : List (String × Json)) → ValidMembers xs →
    ∀ key x, (key, x) ∈ xs → x.same x = true
  | [], _ => fun _ _ hx => absurd hx List.not_mem_nil
  | (k, value) :: xs, h => by
    rw [ValidMembers] at h
    intro key x hx
    rcases List.mem_cons.1 hx with heq | hx
    · cases heq
      exact same_refl value h.1
    · exact same_refl_of_mem xs h.2 key x hx

end

/-- Of objects without repeated keys, if the members of one are found in another of the same size,
those of the other are found in it. -/
theorem membersIn_symm (hx : (xs.map Prod.fst).Nodup) (hy : (ys.map Prod.fst).Nodup)
    (hlength : xs.length = ys.length)
    (hsame : ∀ key x, (key, x) ∈ xs → ∀ y, (key, y) ∈ ys → x.same y = true → y.same x = true)
    (h : membersIn xs ys = true) : membersIn ys xs = true := by
  rw [membersIn_iff] at h ⊢
  have hsub : xs.map Prod.fst ⊆ ys.map Prod.fst := by
    intro key hkey
    obtain ⟨⟨k, x⟩, hmem, rfl⟩ := List.mem_map.1 hkey
    obtain ⟨y, hlookup, -⟩ := h k x hmem
    exact List.mem_map.2 ⟨(k, y), Dictionary.mem_of_lookup hlookup, rfl⟩
  have hperm : (xs.map Prod.fst).Perm (ys.map Prod.fst) := by
    apply (List.subperm_of_subset hx hsub).perm_of_length_le
    rw [List.length_map, List.length_map]
    omega
  intro key y hkey
  have hmem : key ∈ xs.map Prod.fst :=
    hperm.mem_iff.2 (List.mem_map.2 ⟨(key, y), hkey, rfl⟩)
  obtain ⟨⟨k, x⟩, hx', rfl⟩ := List.mem_map.1 hmem
  obtain ⟨y', hlookup, hxy⟩ := h k x hx'
  rw [Dictionary.lookup_of_mem hy hkey] at hlookup
  cases hlookup
  exact ⟨x, Dictionary.lookup_of_mem hx hx', hsame k x hx' y hkey hxy⟩

mutual

theorem same_symm : (x y : Json) → x.Valid → y.Valid → x.same y = true → y.same x = true
  | .null, y, _, _, h => by
    cases y <;> exact h
  | .bool b, y, _, _, h => by
    cases y with
    | bool c =>
      rw [same] at h ⊢
      rw [beq_iff_eq.1 h]
      exact beq_self_eq_true c
    | null | num | str | arr | obj => exact h
  | .num n, y, _, _, h => by
    cases y with
    | num m =>
      rw [same] at h ⊢
      exact Number.same_symm h
    | null | bool | str | arr | obj => exact h
  | .str text, y, _, _, h => by
    cases y with
    | str text' =>
      rw [same] at h ⊢
      rw [beq_iff_eq.1 h]
      exact beq_self_eq_true text'
    | null | bool | num | arr | obj => exact h
  | .arr items, y, hx, hy, h => by
    cases y with
    | arr items' =>
      rw [Valid] at hx hy
      rw [same] at h ⊢
      exact sameItems_symm items items' hx hy h
    | null | bool | num | str | obj => exact h
  | .obj members, y, hx, hy, h => by
    cases y with
    | obj members' =>
      rw [Valid] at hx hy
      rw [same, Bool.and_eq_true, beq_iff_eq] at h ⊢
      refine ⟨h.1.symm, membersIn_symm hx.1 hy.1 h.1 ?_ h.2⟩
      intro key x hmem y hmem' hsame
      exact same_symm_of_mem members hx.2 key x hmem y (valid_of_mem hy.2 hmem') hsame
    | null | bool | num | str | arr => exact h

theorem sameItems_symm : (xs ys : List Json) → ValidItems xs → ValidItems ys →
    sameItems xs ys = true → sameItems ys xs = true
  | [], ys, _, _, h => by
    cases ys <;> exact h
  | x :: xs, [], _, _, h => h
  | x :: xs, y :: ys, hx, hy, h => by
    rw [ValidItems] at hx hy
    rw [sameItems, Bool.and_eq_true] at h ⊢
    exact ⟨same_symm x y hx.1 hy.1 h.1, sameItems_symm xs ys hx.2 hy.2 h.2⟩

theorem same_symm_of_mem : (xs : List (String × Json)) → ValidMembers xs →
    ∀ key x, (key, x) ∈ xs → ∀ y : Json, y.Valid → x.same y = true → y.same x = true
  | [], _ => fun _ _ hx => absurd hx List.not_mem_nil
  | (k, value) :: xs, h => by
    rw [ValidMembers] at h
    intro key x hx y hy hsame
    rcases List.mem_cons.1 hx with heq | hx
    · cases heq
      exact same_symm value y h.1 hy hsame
    · exact same_symm_of_mem xs h.2 key x hx y hy hsame

end

mutual

theorem same_trans : (x y z : Json) → x.same y = true → y.same z = true → x.same z = true
  | .null, y, z, hxy, hyz => by
    cases y <;> first | exact hyz | cases hxy
  | .bool b, y, z, hxy, hyz => by
    cases y with
    | bool c =>
      rw [same, beq_iff_eq] at hxy
      rw [hxy]
      exact hyz
    | null | num | str | arr | obj => cases hxy
  | .num n, y, z, hxy, hyz => by
    cases y with
    | num m =>
      cases z with
      | num k =>
        rw [same] at hxy hyz ⊢
        exact Number.same_trans hxy hyz
      | null | bool | str | arr | obj => cases hyz
    | null | bool | str | arr | obj => cases hxy
  | .str text, y, z, hxy, hyz => by
    cases y with
    | str text' =>
      rw [same, beq_iff_eq] at hxy
      rw [hxy]
      exact hyz
    | null | bool | num | arr | obj => cases hxy
  | .arr items, y, z, hxy, hyz => by
    cases y with
    | arr items' =>
      cases z with
      | arr items'' =>
        rw [same] at hxy hyz ⊢
        exact sameItems_trans items items' items'' hxy hyz
      | null | bool | num | str | obj => cases hyz
    | null | bool | num | str | obj => cases hxy
  | .obj members, y, z, hxy, hyz => by
    cases y with
    | obj members' =>
      cases z with
      | obj members'' =>
        rw [same, Bool.and_eq_true, beq_iff_eq, membersIn_iff] at hxy hyz ⊢
        refine ⟨hxy.1.trans hyz.1, ?_⟩
        intro key x hx
        obtain ⟨y, hy, hsame⟩ := hxy.2 key x hx
        obtain ⟨z, hz, hsame'⟩ := hyz.2 key y (Dictionary.mem_of_lookup hy)
        exact ⟨z, hz, same_trans_of_mem members key x hx y z hsame hsame'⟩
      | null | bool | num | str | arr => cases hyz
    | null | bool | num | str | arr => cases hxy

theorem sameItems_trans : (xs ys zs : List Json) → sameItems xs ys = true →
    sameItems ys zs = true → sameItems xs zs = true
  | [], [], zs, _, hyz => hyz
  | [], y :: ys, zs, hxy, _ => by cases hxy
  | x :: xs, [], zs, hxy, _ => by cases hxy
  | x :: xs, y :: ys, [], _, hyz => by cases hyz
  | x :: xs, y :: ys, z :: zs, hxy, hyz => by
    rw [sameItems, Bool.and_eq_true] at hxy hyz ⊢
    exact ⟨same_trans x y z hxy.1 hyz.1, sameItems_trans xs ys zs hxy.2 hyz.2⟩

theorem same_trans_of_mem : (xs : List (String × Json)) → ∀ key x, (key, x) ∈ xs →
    ∀ y z : Json, x.same y = true → y.same z = true → x.same z = true
  | [] => fun _ _ hx => absurd hx List.not_mem_nil
  | (k, value) :: xs => by
    intro key x hx y z hxy hyz
    rcases List.mem_cons.1 hx with heq | hx
    · cases heq
      exact same_trans value y z hxy hyz
    · exact same_trans_of_mem xs key x hx y z hxy hyz

end

end Json

end ObjectGraph
