import ObjectGraph.Proofs.Schema.Built

/-! # Checks in turn

A computation that checks many places either passes, when there is nothing wrong anywhere, or fails
with what is wrong at the first place (`ReportsFirst`).  Such checks compose, one after the other
and over the entries of a dictionary in the order of their keys. -/

namespace ObjectGraph

namespace Schema

section

variable {π ε α : Type} {before : π → π → Prop} {V W : π → ε → Prop} {x y : Except ε Unit}

/-- A check of places, where `V` says what is wrong at which place. -/
structure ReportsFirst (before : π → π → Prop) (V : π → ε → Prop) (x : Except ε Unit) : Prop where
  ok : x = .ok () ↔ ∀ p e, ¬ V p e
  error : ∀ e, x = .error e ↔ ∃ p, V p e ∧ ∀ q e', V q e' → ¬ before q p

theorem ReportsFirst.congr (h : ReportsFirst before V x) (hV : ∀ p e, V p e ↔ W p e) :
    ReportsFirst before W x := by
  constructor
  · simp only [h.ok, hV]
  · simp only [h.error, hV, implies_true]

/-- A check of one place. -/
theorem ReportsFirst.single {p : π} (hirrefl : ¬ before p p) :
    ReportsFirst before (fun q e => q = p ∧ x = .error e) x := by
  constructor
  · constructor
    · rintro rfl q e ⟨-, ⟨⟩⟩
    · intro h
      cases x with
      | error e => exact absurd ⟨rfl, rfl⟩ (h p e)
      | ok _ => rfl
  · intro e
    constructor
    · rintro rfl
      refine ⟨p, ⟨rfl, rfl⟩, ?_⟩
      rintro q e' ⟨rfl, -⟩
      exact hirrefl
    · rintro ⟨q, ⟨-, h⟩, -⟩
      exact h

theorem ReportsFirst.nothing : ReportsFirst before (fun _ (_ : ε) => False) (.ok ()) := by
  constructor
  · exact iff_of_true rfl fun _ _ h => h
  · intro e
    constructor
    · rintro ⟨⟩
    · rintro ⟨-, ⟨⟩, -⟩

/-- One check after another, of later places. -/
theorem ReportsFirst.andThen (hx : ReportsFirst before V x) (hy : ReportsFirst before W y)
    (hVW : ∀ p q e e', V p e → W q e' → before p q ∧ ¬ before q p) :
    ReportsFirst before (fun p e => V p e ∨ W p e) (x >>= fun _ => y) := by
  cases hresult : x with
  | ok =>
    -- nothing is wrong at the places of `x`, so that those of `y` decide
    have hnone := hx.ok.1 hresult
    exact hy.congr fun p e => (or_iff_right (hnone p e)).symm
  | error fault =>
    have hfound := (hx.error fault).1 hresult
    obtain ⟨p, hp, hfirst⟩ := hfound
    constructor
    · constructor
      · intro h
        cases h
      · intro h
        exact absurd (.inl hp) (h p fault)
    · intro e
      constructor
      · intro h
        cases h
        refine ⟨p, .inl hp, fun q e' hq => ?_⟩
        rcases hq with hq | hq
        · exact hfirst q e' hq
        · exact (hVW p q fault e' hp hq).2
      · rintro ⟨q, hq | hq, hmin⟩
        · have hfault := (hx.error e).2 ⟨q, hq, fun r e' hr => hmin r e' (.inl hr)⟩
          cases hresult.symm.trans hfault
          rfl
        · exact absurd (hVW p q fault e hp hq).1 (hmin p fault (.inl hp))

/-- Checks of the items of a list, whose places come one after the other. -/
theorem ReportsFirst.forM {check : α → Except ε Unit} {V : α → π → ε → Prop} {xs : List α}
    (hcheck : ∀ x ∈ xs, ReportsFirst before (V x) (check x))
    (hsorted : xs.Pairwise fun x y =>
      ∀ p q e e', V x p e → V y q e' → before p q ∧ ¬ before q p) :
    ReportsFirst before (fun p e => ∃ x ∈ xs, V x p e) (xs.forM check) := by
  induction xs with
  | nil => exact nothing.congr fun p e => ⟨fun h => h.elim, fun ⟨_, h, _⟩ => nomatch h⟩
  | cons x xs ih =>
    obtain ⟨hx, hxs⟩ := List.pairwise_cons.1 hsorted
    have hrest := ih (fun y hy => hcheck y (List.mem_cons_of_mem x hy)) hxs
    have hall := (hcheck x List.mem_cons_self).andThen hrest
      fun p q e e' hp ⟨y, hy, hq⟩ => hx y hy p q e e' hp hq
    exact hall.congr fun p e => by simp only [List.mem_cons, exists_eq_or_imp]

end

theorem forM_congr {ε α : Type} {check check' : α → Except ε Unit} {xs : List α}
    (h : ∀ x ∈ xs, check x = check' x) : xs.forM check = xs.forM check' := by
  induction xs with
  | nil => rfl
  | cons x xs ih =>
    change (check x >>= fun _ => xs.forM check) = (check' x >>= fun _ => xs.forM check')
    rw [h x List.mem_cons_self, ih fun y hy => h y (List.mem_cons_of_mem x hy)]

/-- The entries of a dictionary in the order of their keys, where no key is repeated. -/
theorem sorted_pairwise {α : Type} {d : Dictionary α} (hnodup : d.keys.Nodup) :
    d.sorted.Pairwise fun x y => x.1 < y.1 := by
  have hle : d.sorted.Pairwise fun x y => ¬ y.1 < x.1 := by
    have htotal (x y : String × α) : (!(y.1 < x.1) || !(x.1 < y.1)) = true := by
      simp only [Bool.or_eq_true, Bool.not_eq_true', decide_eq_false_iff_not]
      exact (em (y.1 < x.1)).elim (fun h => .inr (String.lt_asymm h)) .inl
    have hsorted := d.pairwise_mergeSort (fun x y z hxy hyz => by
      simp only [Bool.not_eq_true', decide_eq_false_iff_not] at hxy hyz ⊢
      exact String.not_lt.2 (String.le_trans (String.not_lt.1 hxy) (String.not_lt.1 hyz))) htotal
    exact hsorted.imp fun h => by simpa using h
  have hne : d.sorted.Pairwise fun x y => x.1 ≠ y.1 :=
    List.pairwise_map.1 (((List.mergeSort_perm d _).map Prod.fst).nodup_iff.2 hnodup)
  refine (hle.and hne).imp ?_
  rintro x y ⟨hle, hne⟩
  by_contra hlt
  exact hne (String.le_antisymm (String.not_lt.1 hle) (String.not_lt.1 hlt))

end Schema

end ObjectGraph
