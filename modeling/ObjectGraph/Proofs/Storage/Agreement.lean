import ObjectGraph.Proofs.Storage.Sessions

/-! # Computations that succeed together

Two computations agree if both fail, for whatever reasons, or both succeed, with related values.
What is done in another order does not fail for the same reason, so this is as much as can be said
of it. -/

namespace ObjectGraph

namespace Outcome

variable {ε ε' α β : Type}

/-- Two computations both fail, or they succeed with related values. -/
inductive Agree (R : α → β → Prop) : Except ε α → Except ε' β → Prop
  | ok {a : α} {b : β} : R a b → Agree R (.ok a) (.ok b)
  | error (e : ε) (e' : ε') : Agree R (.error e) (.error e')

section

variable {α' β' : Type} {R R' : α → β → Prop} {x : Except ε α} {y : Except ε' β}

theorem Agree.bind {S : α' → β' → Prop} {f : α → Except ε α'} {f' : β → Except ε' β'}
    (h : Agree R x y) (hf : ∀ a b, R a b → Agree S (f a) (f' b)) :
    Agree S (x >>= f) (y >>= f') := by
  cases h with
  | ok h => exact hf _ _ h
  | error e e' => exact .error e e'

theorem Same.agree {y : Except ε β} (h : Same R x y) : Agree R x y := by
  cases h with
  | ok h => exact .ok h
  | error e => exact .error e e

/-- Computations of which none fails alone agree if their values do. -/
theorem Agree.of_error_iff (herror : (∃ e, x = .error e) ↔ ∃ e', y = .error e')
    (hok : ∀ a b, x = .ok a → y = .ok b → R a b) : Agree R x y := by
  cases x with
  | error e =>
    obtain ⟨e', rfl⟩ := herror.1 ⟨e, rfl⟩
    exact .error e e'
  | ok a =>
    cases y with
    | error e' =>
      obtain ⟨e, he⟩ := herror.2 ⟨e', rfl⟩
      cases he
    | ok b => exact .ok (hok a b rfl rfl)

end

end Outcome

namespace Session

variable {ε α β α' β' : Type} {storage : Storage} {R R' : α → β → Prop} {S : α' → β' → Prop}
  {x : Session ε α} {y : Session ε β}

/-- Two sessions in a storage both fail, or they end with related values. -/
def Agree (storage : Storage) (R : α → β → Prop) (x : Session ε α) (y : Session ε β) : Prop :=
  ∀ log log', Outcome.Agree R (x storage log).1 (y storage log').1

theorem Agree.pure {a : α} {b : β} (h : R a b) :
    Agree storage R (Pure.pure a : Session ε α) (Pure.pure b) := fun _ _ => .ok h

theorem Agree.throw (e e' : ε) :
    Agree storage R (MonadExcept.throw e : Session ε α) (MonadExcept.throw e') :=
  fun _ _ => .error e e'

theorem Alike.agree (h : Alike storage storage R x y) : Agree storage R x y :=
  fun log log' => (h log log').agree

theorem Agree.bind {f : α → Session ε α'} {f' : β → Session ε β'} (h : Agree storage R x y)
    (hf : ∀ a b, R a b → Agree storage S (f a) (f' b)) :
    Agree storage S (x >>= f) (y >>= f') := by
  intro log log'
  have hxy := h log log'
  rw [bind_apply, bind_apply]
  rcases hx : x storage log with ⟨r, l⟩
  rcases hy : y storage log' with ⟨r', l'⟩
  rw [hx, hy] at hxy
  cases hxy with
  | ok hab => exact hf _ _ hab l l'
  | error e e' => exact .error e e'

theorem Agree.mapM {f : α → Session ε α'} {f' : β → Session ε β'} {xs : List α} {ys : List β}
    (h : List.Forall₂ (fun a b => Agree storage S (f a) (f' b)) xs ys) :
    Agree storage (List.Forall₂ S) (xs.mapM f) (ys.mapM f') := by
  induction h with
  | nil => exact Agree.pure .nil
  | cons hx _ ih =>
    rw [List.mapM_cons, List.mapM_cons]
    exact hx.bind fun _ _ ha => ih.bind fun _ _ has => Agree.pure (.cons ha has)

/-- What a session ends with if nothing was issued before. -/
def value? (x : Session ε α) (storage : Storage) : Option α := (x.outcome storage).1.toOption

/-- Sessions that agree on what they end with give one outcome. -/
theorem Agree.gives {x y : Session ε α} (h : Agree storage Eq x y) :
    Gives storage x (x.value? storage) ∧ Gives storage y (y.value? storage) ∧
      x.value? storage = y.value? storage := by
  have heq : ∀ log log', (x storage log).1.toOption = (y storage log').1.toOption := by
    intro log log'
    have hlog := h log log'
    generalize (x storage log).1 = r at hlog
    generalize (y storage log').1 = r' at hlog
    cases hlog with
    | ok h => rw [h]
    | error e e' => rfl
  exact ⟨fun log => (heq log []).trans (heq [] []).symm,
    fun log => (heq [] log).symm.trans (heq [] []), heq [] []⟩

theorem Agree.ends {post : α → Prop} {post' : β → Prop} {fault fault' : ε → Prop}
    (h : Agree storage R x y) (hx : Ends storage x post fault) (hy : Ends storage y post' fault') :
    Agree storage (fun a b => R a b ∧ post a ∧ post' b) x y := by
  intro log log'
  have hlog := h log log'
  have hpost := hx log
  have hpost' := hy log'
  generalize (x storage log).1 = r at hlog hpost ⊢
  generalize (y storage log').1 = r' at hlog hpost' ⊢
  cases hlog with
  | ok hab => exact .ok ⟨hab, hpost, hpost'⟩
  | error e e' => exact .error e e'

/-- A session that gives one outcome ends with it. -/
theorem Gives.ends {o : Option α} (h : Gives storage x o) :
    Ends storage x (fun a => o = some a) fun _ => o = none := by
  intro log
  have hlog := h log
  generalize (x storage log).1 = r at hlog ⊢
  cases r with
  | error e => exact hlog.symm
  | ok a => exact hlog.symm

theorem Agree.of_gives {o : Option α} {o' : Option β} (hx : Gives storage x o)
    (hy : Gives storage y o') (hnone : o = none ↔ o' = none)
    (hsome : ∀ a b, o = some a → o' = some b → R a b) : Agree storage R x y := by
  intro log log'
  have hlog := hx log
  have hlog' := hy log'
  generalize (x storage log).1 = r at hlog ⊢
  generalize (y storage log').1 = r' at hlog' ⊢
  subst hlog hlog'
  cases r with
  | error e =>
    cases r' with
    | error e' => exact .error e e'
    | ok b => cases hnone.1 rfl
  | ok a =>
    cases r' with
    | error e' => cases hnone.2 rfl
    | ok b => exact .ok (hsome a b rfl rfl)

theorem Gives.agree {x y : Session ε α} {o : Option α} (hx : Gives storage x o)
    (hy : Gives storage y o) : Agree storage Eq x y :=
  .of_gives hx hy Iff.rfl fun _ _ ha hb => Option.some.inj (ha.symm.trans hb)

end Session

end ObjectGraph
