import ObjectGraph.Proofs.Outcome
import ObjectGraph.Storage.Session

/-! # What sessions come to

What a session gives may depend on the statements issued before it.  `Ends` and `Gives` say what
it comes to whatever these were: a value that satisfies something or a failure, and one outcome,
its failures not told apart.  `Alike` compares two sessions, each in a storage of its own, and
`InStep` compares the statements that they issue as well. -/

namespace ObjectGraph

namespace Session

variable {ε ε' α β γ : Type} {storage : Storage}

theorem bind_apply (x : Session ε α) (f : α → Session ε β) (log : List Sql.Statement) :
    (x >>= f) storage log = match x storage log with
      | (.ok a, log') => f a storage log'
      | (.error e, log') => (.error e, log') := by
  change (ExceptT.bindCont (fun a => f a storage) (x storage log).1) (x storage log).2 = _
  rcases x storage log with ⟨_ | a, log'⟩ <;> rfl

theorem ofExcept_bind (a : α) (f : α → Session ε β) : ofExcept (.ok a) >>= f = f a := rfl

/-! ### Endings -/

/-- A session ends with a value that satisfies `post`, or it fails for a reason that satisfies
`fault`. -/
def Ends (storage : Storage) (x : Session ε α) (post : α → Prop) (fault : ε → Prop) : Prop :=
  ∀ log, match (x storage log).1 with
    | .ok a => post a
    | .error e => fault e

section

variable {post : α → Prop} {post' : β → Prop} {fault : ε → Prop}

theorem Ends.pure {a : α} (h : post a) : Ends storage (Pure.pure a : Session ε α) post fault :=
  fun _ => h

theorem Ends.bind {x : Session ε α} {f : α → Session ε β} (h : Ends storage x post fault)
    (hf : ∀ a, post a → Ends storage (f a) post' fault) :
    Ends storage (x >>= f) post' fault := by
  intro log
  have hx := h log
  rw [bind_apply]
  rcases hr : x storage log with ⟨e | a, log'⟩
  · rw [hr] at hx
    exact hx
  · rw [hr] at hx
    exact hf a hx log'

theorem Ends.mono {post₂ : α → Prop} {fault₂ : ε → Prop} {x : Session ε α}
    (h : Ends storage x post fault) (hp : ∀ a, post a → post₂ a)
    (hfault : ∀ e, fault e → fault₂ e) : Ends storage x post₂ fault₂ := by
  intro log
  have hx := h log
  split
  · next a ha =>
    rw [ha] at hx
    exact hp a hx
  · next e he =>
    rw [he] at hx
    exact hfault e hx

theorem Ends.ofExcept {r : Except ε α} (hok : ∀ a, r = .ok a → post a)
    (herror : ∀ e, r = .error e → fault e) : Ends storage (Session.ofExcept r) post fault := by
  intro log
  cases r with
  | error e => exact herror e rfl
  | ok a => exact hok a rfl

theorem Ends.mapError {x : Session ε α} {f : ε → ε'} {fault' : ε' → Prop}
    (h : ∀ e, fault' (f e)) :
    Ends storage (Session.mapError f x) (fun a => ∃ log log', x storage log = (.ok a, log'))
      fault' := by
  intro log
  unfold Session.mapError
  rcases hx : x storage log with ⟨e | a, log'⟩
  · exact h e
  · exact ⟨log, log', hx⟩

theorem Ends.mapM {f : α → Session ε β} {R : α → β → Prop} {xs : List α}
    (h : ∀ x ∈ xs, Ends storage (f x) (R x) fault) :
    Ends storage (xs.mapM f) (fun ys => List.Forall₂ R xs ys) fault := by
  induction xs with
  | nil => exact Ends.pure .nil
  | cons x xs ih =>
    rw [List.mapM_cons]
    refine (h x List.mem_cons_self).bind fun y hy => ?_
    refine (ih fun x hx => h x (List.mem_cons_of_mem _ hx)).bind fun ys hys => ?_
    exact Ends.pure (.cons hy hys)

end

/-! ### Outcomes -/

/-- A session gives one outcome. -/
def Gives (storage : Storage) (x : Session ε α) (outcome : Option α) : Prop :=
  ∀ log, (x storage log).1.toOption = outcome

theorem Gives.pure {a : α} : Gives storage (Pure.pure a : Session ε α) (some a) := fun _ => rfl

theorem Gives.ofExcept {r : Except ε α} : Gives storage (Session.ofExcept r) r.toOption :=
  fun _ => rfl

theorem Gives.bind {x : Session ε α} {f : α → Session ε β} {o : Option α} {p : α → Option β}
    (h : Gives storage x o) (hf : ∀ a, o = some a → Gives storage (f a) (p a)) :
    Gives storage (x >>= f) (o.bind p) := by
  intro log
  have hx := h log
  rw [bind_apply]
  rcases hr : x storage log with ⟨e | a, log'⟩
  · rw [hr] at hx
    rw [← hx]
    rfl
  · rw [hr] at hx
    rw [← hx]
    exact hf a hx.symm log'

theorem Gives.map {x : Session ε α} {f : α → β} {o : Option α} (h : Gives storage x o) :
    Gives storage (x >>= fun a => Pure.pure (f a)) (o.map f) := by
  rw [Option.map_eq_bind]
  exact h.bind fun a _ => Gives.pure

theorem Gives.map_bind {x : Session ε β} {f : β → Session ε γ} {o : Option α} {g : α → β}
    {p : α → Option γ} (h : Gives storage x (o.map g))
    (hf : ∀ a, o = some a → Gives storage (f (g a)) (p a)) :
    Gives storage (x >>= f) (o.bind p) := by
  cases o with
  | none => exact h.bind (p := fun _ => none) fun _ ha => nomatch ha
  | some a =>
    refine h.bind (p := fun _ => p a) ?_
    rintro _ ⟨⟩
    exact hf a rfl

theorem Gives.mapM {f : α → Session ε β} {p : γ → Option β} {xs : List α} {ys : List γ}
    (h : List.Forall₂ (fun x y => Gives storage (f x) (p y)) xs ys) :
    Gives storage (xs.mapM f) (ys.mapM p) := by
  induction h with
  | nil => exact Gives.pure
  | cons hx _ ih =>
    rw [List.mapM_cons, List.mapM_cons]
    exact hx.bind fun _ _ => ih.bind fun _ _ => Gives.pure

/-! ### Sessions side by side -/

/-- Two sessions fail with the same fault, or they end with related values. -/
def Alike (storage storage' : Storage) (R : α → β → Prop) (x : Session ε α) (y : Session ε β) :
    Prop :=
  ∀ log log', Outcome.Same R (x storage log).1 (y storage' log').1

section

variable {α' β' : Type} {storage' : Storage} {R R' : α → β → Prop} {S : α' → β' → Prop}
  {x : Session ε α} {y : Session ε β}

theorem Alike.pure {a : α} {b : β} (h : R a b) :
    Alike storage storage' R (Pure.pure a : Session ε α) (Pure.pure b) := fun _ _ => .ok h

theorem Alike.ofExcept {r : Except ε α} {r' : Except ε β} (h : Outcome.Same R r r') :
    Alike storage storage' R (Session.ofExcept r) (Session.ofExcept r') := fun _ _ => h

theorem Alike.mapError {f : ε → ε'} (h : Alike storage storage' R x y) :
    Alike storage storage' R (Session.mapError f x) (Session.mapError f y) :=
  fun log log' => (h log log').mapError

theorem Alike.bind {f : α → Session ε α'} {f' : β → Session ε β'} (h : Alike storage storage' R x y)
    (hf : ∀ a b, R a b → Alike storage storage' S (f a) (f' b)) :
    Alike storage storage' S (x >>= f) (y >>= f') := by
  intro log log'
  have hxy := h log log'
  rw [bind_apply, bind_apply]
  rcases hx : x storage log with ⟨r, l⟩
  rcases hy : y storage' log' with ⟨r', l'⟩
  rw [hx, hy] at hxy
  cases hxy with
  | ok hab => exact hf _ _ hab l l'
  | error e => exact .error e

theorem Alike.bind_eq {x y : Session ε α} {f : α → Session ε α'} {f' : α → Session ε β'}
    (h : Alike storage storage' Eq x y) (hf : ∀ a, Alike storage storage' S (f a) (f' a)) :
    Alike storage storage' S (x >>= f) (y >>= f') := by
  refine h.bind ?_
  rintro a _ rfl
  exact hf a

/-- What an outcome is does not depend on the statements issued before. -/
theorem Alike.settled {x y : Session ε α} (h : Alike storage storage' Eq x y) :
    Alike storage storage' (fun a b => a = b ∧ ∀ log, (y storage' log).1 = .ok b) x y := by
  intro log log'
  refine (h log log').with_ok.mono ?_
  rintro a b ⟨hab, ha, -⟩
  refine ⟨hab, fun log'' => ?_⟩
  rw [← (h log log'').eq, ha, hab]

theorem Alike.bind_left {a : α} {f : α → Session ε α'} {z : Session ε β'}
    (hx : ∀ log, (x storage log).1 = .ok a) (h : Alike storage storage' S (f a) z) :
    Alike storage storage' S (x >>= f) z := by
  intro log log'
  rw [bind_apply]
  rcases hr : x storage log with ⟨r, l⟩
  have ha := hx log
  rw [hr] at ha
  subst ha
  exact h l log'

theorem Alike.ends {post : α → Prop} {post' : β → Prop} {fault fault' : ε → Prop}
    (h : Alike storage storage' R x y) (hx : Ends storage x post fault)
    (hy : Ends storage' y post' fault') :
    Alike storage storage' (fun a b => R a b ∧ post a ∧ post' b) x y := by
  intro log log'
  have hsame := (h log log').with_ok
  have hpost := hx log
  have hpost' := hy log'
  refine hsame.mono ?_
  rintro a b ⟨hab, ha, hb⟩
  rw [ha] at hpost
  rw [hb] at hpost'
  exact ⟨hab, hpost, hpost'⟩

theorem Alike.mapM {f : α → Session ε α'} {f' : β → Session ε β'} {xs : List α} {ys : List β}
    (h : List.Forall₂ (fun a b => Alike storage storage' S (f a) (f' b)) xs ys) :
    Alike storage storage' (List.Forall₂ S) (xs.mapM f) (ys.mapM f') := by
  induction h with
  | nil => exact Alike.pure .nil
  | cons hx _ ih =>
    rw [List.mapM_cons, List.mapM_cons]
    exact hx.bind fun _ _ ha => ih.bind fun _ _ has => Alike.pure (.cons ha has)

end

/-! ### Sessions in step -/

/-- Two sessions that begin after the same statements issue the same statements, and they fail with
the same fault or end with related values. -/
def InStep (storage storage' : Storage) (R : α → β → Prop) (x : Session ε α) (y : Session ε β) :
    Prop :=
  ∀ log, Outcome.Same R (x storage log).1 (y storage' log).1 ∧
    (x storage log).2 = (y storage' log).2

section

variable {α' β' : Type} {storage' : Storage} {R R' : α → β → Prop} {S : α' → β' → Prop}
  {x : Session ε α} {y : Session ε β}

theorem InStep.pure {a : α} {b : β} (h : R a b) :
    InStep storage storage' R (Pure.pure a : Session ε α) (Pure.pure b) := fun _ => ⟨.ok h, rfl⟩

theorem InStep.ofExcept {r : Except ε α} {r' : Except ε β} (h : Outcome.Same R r r') :
    InStep storage storage' R (Session.ofExcept r) (Session.ofExcept r') := fun _ => ⟨h, rfl⟩

theorem InStep.throw (e : ε) :
    InStep storage storage' R (MonadExcept.throw e : Session ε α)
      (MonadExcept.throw e : Session ε β) := fun _ => ⟨.error e, rfl⟩

theorem InStep.fetch {statement : Sql.Statement} {S : List Row → List Row → Prop}
    (h : ∀ log, Outcome.Same S (storage.answer log statement) (storage'.answer log statement)) :
    InStep storage storage' S (Session.fetch statement) (Session.fetch statement) :=
  fun log => ⟨h log, rfl⟩

theorem InStep.mono (h : InStep storage storage' R x y) (hR : ∀ a b, R a b → R' a b) :
    InStep storage storage' R' x y := fun log => ⟨(h log).1.mono hR, (h log).2⟩

theorem InStep.mapError {f : ε → ε'} (h : InStep storage storage' R x y) :
    InStep storage storage' R (Session.mapError f x) (Session.mapError f y) :=
  fun log => ⟨(h log).1.mapError, (h log).2⟩

theorem InStep.bind {f : α → Session ε α'} {f' : β → Session ε β'}
    (h : InStep storage storage' R x y)
    (hf : ∀ a b, R a b → InStep storage storage' S (f a) (f' b)) :
    InStep storage storage' S (x >>= f) (y >>= f') := by
  intro log
  obtain ⟨hresult, hlog⟩ := h log
  rw [bind_apply, bind_apply]
  rcases hx : x storage log with ⟨r, l⟩
  rcases hy : y storage' log with ⟨r', l'⟩
  rw [hx, hy] at hresult hlog
  simp only at hresult hlog
  subst hlog
  cases hresult with
  | ok hab => exact hf _ _ hab l
  | error e => exact ⟨.error e, rfl⟩

theorem InStep.bind_eq {x y : Session ε α} {f : α → Session ε α'} {f' : α → Session ε β'}
    (h : InStep storage storage' Eq x y) (hf : ∀ a, InStep storage storage' S (f a) (f' a)) :
    InStep storage storage' S (x >>= f) (y >>= f') := by
  refine h.bind ?_
  rintro a _ rfl
  exact hf a

theorem InStep.mapM {f : α → Session ε α'} {f' : β → Session ε β'} {xs : List α} {ys : List β}
    (h : List.Forall₂ (fun a b => InStep storage storage' S (f a) (f' b)) xs ys) :
    InStep storage storage' (List.Forall₂ S) (xs.mapM f) (ys.mapM f') := by
  induction h with
  | nil => exact InStep.pure .nil
  | cons hx _ ih =>
    rw [List.mapM_cons, List.mapM_cons]
    exact hx.bind fun _ _ ha => ih.bind fun _ _ has => InStep.pure (.cons ha has)

/-- What holds of the end of the first session may be used. -/
theorem InStep.ends {post : α → Prop} {fault : ε → Prop} (h : InStep storage storage' R x y)
    (hx : Ends storage x post fault) :
    InStep storage storage' (fun a b => R a b ∧ post a) x y := by
  intro log
  obtain ⟨hresult, hlog⟩ := h log
  refine ⟨hresult.with_ok.mono ?_, hlog⟩
  rintro a b ⟨hab, ha, -⟩
  have hpost := hx log
  rw [ha] at hpost
  exact ⟨hab, hpost⟩

theorem InStep.outcome_eq {x y : Session ε α} (h : InStep storage storage' Eq x y) :
    x.outcome storage = y.outcome storage' := by
  obtain ⟨hresult, hlog⟩ := h []
  exact Prod.ext hresult.eq hlog

end

end Session

end ObjectGraph
