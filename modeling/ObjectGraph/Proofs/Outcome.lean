import Mathlib.Data.List.Forall2

/-! # Outcomes

When a computation that may fail succeeds, and what is left of it when its fault is forgotten
(`Except.toOption`). -/

namespace ObjectGraph

namespace Outcome

variable {ε ε' α β : Type}

theorem bind_ok {x : Except ε α} {f : α → Except ε β} {b : β} :
    x >>= f = .ok b ↔ ∃ a, x = .ok a ∧ f a = .ok b := by
  cases x <;> simp [bind, Except.bind]

theorem bind_error {x : Except ε α} {f : α → Except ε β} :
    (∃ e, x >>= f = .error e) ↔ (∃ e, x = .error e) ∨ ∃ a, x = .ok a ∧ ∃ e, f a = .error e := by
  cases x <;> simp [bind, Except.bind]

theorem bind_eq_error {x : Except ε α} {f : α → Except ε β} {e : ε} :
    x >>= f = .error e ↔ x = .error e ∨ ∃ a, x = .ok a ∧ f a = .error e := by
  cases x <;> simp [bind, Except.bind]

theorem bind_error_of_ok {x : Except ε α} {f : α → Except ε β} (h : ∀ a, ∃ b, f a = .ok b) :
    (∃ e, x >>= f = .error e) ↔ ∃ e, x = .error e := by
  refine bind_error.trans (or_iff_left ?_)
  rintro ⟨a, -, e, he⟩
  obtain ⟨b, hb⟩ := h a
  cases he.symm.trans hb

theorem pure_ok {a b : α} : (pure a : Except ε α) = .ok b ↔ a = b := by
  simp [pure, Except.pure]

theorem throw_ok {e : ε} {b : α} : (throw e : Except ε α) = .ok b ↔ False := by
  simp [throw, throwThe, MonadExceptOf.throw]

theorem mapError_ok {f : ε → ε'} {x : Except ε α} {a : α} :
    x.mapError f = .ok a ↔ x = .ok a := by
  cases x with
  | error e => constructor <;> intro h <;> cases h
  | ok b =>
    constructor
    · intro h
      cases h
      rfl
    · intro h
      cases h
      rfl

theorem toOption_some {x : Except ε α} {a : α} : x.toOption = some a ↔ x = .ok a := by
  cases x <;> simp [Except.toOption]

theorem mapM_congr {f g : α → Option β} {xs : List α} (h : ∀ x ∈ xs, f x = g x) :
    xs.mapM f = xs.mapM g := by
  induction xs with
  | nil => rfl
  | cons x xs ih =>
    rw [List.mapM_cons, List.mapM_cons, h x List.mem_cons_self,
      ih fun y hy => h y (List.mem_cons_of_mem x hy)]

theorem mapM_some {f : α → Option β} {xs : List α} {ys : List β} (h : xs.mapM f = some ys)
    {x : α} (hx : x ∈ xs) : ∃ y ∈ ys, f x = some y := by
  induction xs generalizing ys with
  | nil => simp at hx
  | cons first xs ih =>
    rw [List.mapM_cons] at h
    obtain ⟨y, hy, h⟩ := Option.bind_eq_some_iff.1 h
    obtain ⟨rest, hrest, h⟩ := Option.bind_eq_some_iff.1 h
    cases h
    rcases List.mem_cons.1 hx with rfl | hx
    · exact ⟨y, List.mem_cons_self, hy⟩
    · obtain ⟨y', hy', hf⟩ := ih hrest hx
      exact ⟨y', List.mem_cons_of_mem _ hy', hf⟩

/-- Every member of one list is related to some member of the other. -/
theorem forall₂_mem {R : α → β → Prop} {xs : List α} {ys : List β} (h : List.Forall₂ R xs ys)
    {x : α} (hx : x ∈ xs) : ∃ y ∈ ys, R x y := by
  induction h with
  | nil => cases hx
  | cons hfirst _ ih =>
    rcases List.mem_cons.1 hx with rfl | hx
    · exact ⟨_, List.mem_cons_self, hfirst⟩
    · obtain ⟨y, hy, hr⟩ := ih hx
      exact ⟨y, List.mem_cons_of_mem _ hy, hr⟩

theorem forall₂_getElem? {R : α → β → Prop} {xs : List α} {ys : List β} (h : List.Forall₂ R xs ys)
    {i : Nat} {x : α} (hx : xs[i]? = some x) : ∃ y, ys[i]? = some y ∧ R x y := by
  induction h generalizing i with
  | nil => cases hx
  | cons hfirst _ ih =>
    cases i with
    | zero =>
      cases hx
      exact ⟨_, rfl, hfirst⟩
    | succ i => exact ih hx

/-! ### Outcomes side by side -/

/-- Two computations fail with the same fault, or they succeed with related values. -/
inductive Same (R : α → β → Prop) : Except ε α → Except ε β → Prop
  | ok {a : α} {b : β} : R a b → Same R (.ok a) (.ok b)
  | error (e : ε) : Same R (.error e) (.error e)

section

variable {α' β' : Type} {R R' : α → β → Prop} {x : Except ε α} {y : Except ε β}

theorem Same.refl (x : Except ε α) : Same Eq x x := by
  cases x with
  | error e => exact .error e
  | ok a => exact .ok rfl

theorem Same.eq {x y : Except ε α} (h : Same Eq x y) : x = y := by
  cases h with
  | ok h => rw [h]
  | error e => rfl

theorem Same.mono (h : Same R x y) (hR : ∀ a b, R a b → R' a b) : Same R' x y := by
  cases h with
  | ok h => exact .ok (hR _ _ h)
  | error e => exact .error e

theorem Same.with_ok (h : Same R x y) :
    Same (fun a b => R a b ∧ x = .ok a ∧ y = .ok b) x y := by
  cases h with
  | ok h => exact .ok ⟨h, rfl, rfl⟩
  | error e => exact .error e

theorem Same.ok_of_right (h : Same R x y) {b : β} (hy : y = .ok b) : ∃ a, x = .ok a ∧ R a b := by
  cases h with
  | ok h =>
    cases hy
    exact ⟨_, rfl, h⟩
  | error e => cases hy

theorem Same.error_of_right (h : Same R x y) {e : ε} (hy : y = .error e) : x = .error e := by
  cases h with
  | ok h => cases hy
  | error e' =>
    cases hy
    rfl

theorem Same.bind {S : α' → β' → Prop} {f : α → Except ε α'} {f' : β → Except ε β'}
    (h : Same R x y) (hf : ∀ a b, R a b → Same S (f a) (f' b)) :
    Same S (x >>= f) (y >>= f') := by
  cases h with
  | ok h => exact hf _ _ h
  | error e => exact .error e

theorem Same.map {S : α' → β' → Prop} {f : α → α'} {f' : β → β'} (h : Same R x y)
    (hf : ∀ a b, R a b → S (f a) (f' b)) : Same S (x.map f) (y.map f') := by
  cases h with
  | ok h => exact .ok (hf _ _ h)
  | error e => exact .error e

theorem Same.map_left {S : α' → β → Prop} {f : α → α'} (h : Same R x y)
    (hf : ∀ a b, R a b → S (f a) b) : Same S (x.map f) y := by
  cases h with
  | ok h => exact .ok (hf _ _ h)
  | error e => exact .error e

theorem Same.mapError {f : ε → ε'} (h : Same R x y) : Same R (x.mapError f) (y.mapError f) := by
  cases h with
  | ok h => exact .ok h
  | error e => exact .error (f e)

end

end Outcome

end ObjectGraph
