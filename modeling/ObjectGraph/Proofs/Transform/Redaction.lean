import ObjectGraph.Catalog.Application
import ObjectGraph.Proofs.Outcome
import ObjectGraph.Proofs.Storage.Sessions

/-! # Redaction

Transforms are stacked by mappings, by the lists of a catalog and by an alias on its target; a
stack of built-in ones is a chain (`Transform.builtins?`), and stacking appends chains
(`chain?_andThen?`, `chain?_addTransforms`, `chain?_resolved`).

A redactor withholds a value from a caller whom it does not admit (`Builtin.Withholds`).  Nothing
of the value is left then: what the chain comes to is what the transforms after the redactor make
of `null` (`apply_withheld`).  Three coercions have an answer of their own for `null`, since a value
that is missing has no parts, is not positive and has no length (`Builtin.FillsIn`).  Where none of
these comes after the redactor, the chain answers `null` (`redacted_null`). -/

namespace ObjectGraph

namespace Builtin

/-- The transform is a redactor that does not admit the caller. -/
def Withholds (caller : Caller) (parent : Object) : Builtin → Prop
  | .nullIfNotLoggedIn => caller.isLoggedIn = false
  | .nullIfNotSameUser column => caller.isOwner parent column = false
  | .premiumOnly => caller.premium = false
  | _ => False

/-- The coercion has an answer other than `null` for `null`. -/
def FillsIn : Builtin → Prop
  | .splitComma | .positive | .arrayLength => True
  | _ => False

instance (caller : Caller) (parent : Object) : DecidablePred (Withholds caller parent)
  | .nullIfNotLoggedIn => inferInstanceAs (Decidable (caller.isLoggedIn = false))
  | .nullIfNotSameUser column => inferInstanceAs (Decidable (caller.isOwner parent column = false))
  | .premiumOnly => inferInstanceAs (Decidable (caller.premium = false))
  | .toDate | .splitComma | .toBool | .negate | .positive | .arrayLength | .lookup _ _ =>
    .isFalse id

instance : DecidablePred FillsIn
  | .splitComma | .positive | .arrayLength => .isTrue trivial
  | .nullIfNotLoggedIn | .nullIfNotSameUser _ | .premiumOnly | .toDate | .toBool | .negate
  | .lookup _ _ => .isFalse id

/-- Apply built-in transforms in turn. -/
def applyAll (caller : Caller) (parent : Object) :
    List Builtin → Json → Session TransformError Json
  | [], value => pure value
  | b :: bs, value => do applyAll caller parent bs (← b.apply value caller parent)

section

variable {caller : Caller} {parent : Object} {b : Builtin} {bs : List Builtin}

theorem Withholds.apply_eq (h : b.Withholds caller parent) (value : Json) :
    b.apply value caller parent = pure .null := by
  have hkeep : ∀ condition, condition = false → keepIf condition value = .null := by
    intro condition hc
    simp [keepIf, hc]
  cases b with
  | nullIfNotLoggedIn | nullIfNotSameUser | premiumOnly =>
    simp only [Builtin.apply, applyPure?, hkeep _ h]
    rfl
  | toDate | splitComma | toBool | negate | positive | arrayLength | lookup => exact h.elim

/-- Where a coercion has nothing to say about `null`, it lets it pass, and so do the redactors. -/
theorem apply_null (h : ¬b.FillsIn) : b.apply .null caller parent = pure .null := by
  have hkeep : ∀ condition, keepIf condition Json.null = .null := by
    intro condition
    cases condition <;> rfl
  cases b with
  | nullIfNotLoggedIn | nullIfNotSameUser | premiumOnly =>
    simp only [Builtin.apply, applyPure?, hkeep]
    rfl
  | toDate | toBool | negate => rfl
  | lookup table column => rfl
  | splitComma | positive | arrayLength => exact (h trivial).elim

theorem applyAll_null (h : ∀ b ∈ bs, ¬b.FillsIn) :
    applyAll caller parent bs .null = pure .null := by
  induction bs with
  | nil => rfl
  | cons b bs ih =>
    rw [applyAll, apply_null (h b List.mem_cons_self), pure_bind]
    exact ih fun b hb => h b (List.mem_cons_of_mem _ hb)

theorem applyAll_append (first second : List Builtin) (value : Json) :
    applyAll caller parent (first ++ second) value =
      applyAll caller parent first value >>= applyAll caller parent second := by
  induction first generalizing value with
  | nil => rw [List.nil_append, applyAll, pure_bind]
  | cons b first ih =>
    rw [List.cons_append, applyAll, applyAll, bind_assoc]
    exact bind_congr ih

end

end Builtin

namespace Transform

open Builtin (applyAll)

/-- The transforms of a chain in the order they are applied, if all of them are built-in. -/
def builtins? : Transform → Option (List Builtin)
  | .builtin b => some [b]
  | .custom _ => none
  | .andThen first second =>
    first.builtins?.bind fun bs => second.builtins?.map fun cs => bs ++ cs

/-- The chain of a transform that need not be there. -/
def chain? (t : Option Transform) : Option (List Builtin) :=
  t.elim (some []) builtins?

/-! ### Stacks of transforms -/

theorem chain?_andThen? {first second : Option Transform} {bs cs : List Builtin}
    (h : chain? first = some bs) (h' : chain? second = some cs) :
    chain? (andThen? first second) = some (bs ++ cs) := by
  cases first with
  | none =>
    cases h
    exact h'
  | some first =>
    cases second with
    | none =>
      cases h'
      rw [List.append_nil]
      exact h
    | some second =>
      change first.builtins? = some bs at h
      change second.builtins? = some cs at h'
      change (Transform.andThen first second).builtins? = _
      rw [builtins?, h, h', Option.bind_some, Option.map_some]

/-- A mapping appends the transform that is added to it. -/
theorem chain?_andTransform {m : Schema.FieldMapping} {t : Transform} {bs cs : List Builtin}
    (h : chain? m.transform = some bs) (h' : t.builtins? = some cs) :
    chain? (m.andTransform t).transform = some (bs ++ cs) :=
  chain?_andThen? h h'

theorem named?_builtin {entry : String} {t : Transform} (h : named? entry = some t) :
    ∃ b, t = .builtin b := by
  obtain ⟨b, -, rfl⟩ := Option.map_eq_some_iff.1 h
  exact ⟨b, rfl⟩

/-- A catalog appends the transforms that it names, in the order of its list. -/
theorem chain?_addTransforms {typeName field : String} {names : List String}
    {m m' : Schema.FieldMapping} {bs : List Builtin} (h : chain? m.transform = some bs)
    (hadd : Catalog.addTransforms typeName field m names = .ok m') :
    ∃ cs, names.map named? = cs.map (fun b => some (.builtin b)) ∧
      chain? m'.transform = some (bs ++ cs) := by
  induction names generalizing m bs with
  | nil =>
    cases hadd
    exact ⟨[], rfl, by rw [List.append_nil]; exact h⟩
  | cons name names ih =>
    unfold Catalog.addTransforms at hadd
    rw [List.foldlM_cons] at hadd
    cases hn : named? name with
    | none =>
      rw [hn] at hadd
      cases hadd
    | some t =>
      rw [hn] at hadd
      obtain ⟨b, rfl⟩ := named?_builtin hn
      obtain ⟨cs, hcs, hchain⟩ := ih (chain?_andTransform h rfl) hadd
      refine ⟨b :: cs, ?_, ?_⟩
      · rw [List.map_cons, List.map_cons, hn, hcs]
      · rw [hchain, List.append_assoc]
        rfl

/-- An alias appends its transforms to those of its target. -/
theorem chain?_resolved {r : Schema.Resolved} {bs cs : List Builtin}
    (h : chain? (r.mapping.bind Schema.FieldMapping.transform) = some bs)
    (h' : chain? (r.aliasMapping.bind Schema.FieldMapping.transform) = some cs) :
    chain? r.transform? = some (bs ++ cs) :=
  chain?_andThen? h h'

/-! ### What a chain comes to -/

section

variable {t : Transform} {caller : Caller} {parent : Object} {redactor : Builtin}
  {bs before after : List Builtin}

theorem apply_eq_applyAll (h : t.builtins? = some bs) (value : Json) :
    t.apply value caller parent = applyAll caller parent bs value := by
  induction t generalizing bs value with
  | builtin b =>
    cases h
    rw [Transform.apply, applyAll]
    exact (bind_pure _).symm
  | custom f => cases h
  | andThen first second ihFirst ihSecond =>
    rw [builtins?] at h
    obtain ⟨cs, hfirst, h⟩ := Option.bind_eq_some_iff.1 h
    obtain ⟨ds, hsecond, rfl⟩ := Option.map_eq_some_iff.1 h
    rw [Transform.apply, Builtin.applyAll_append, ihFirst hfirst]
    exact bind_congr (ihSecond hsecond)

/-- A value that is withheld leaves no trace in what the chain comes to. -/
theorem apply_withheld (h : t.builtins? = some (before ++ redactor :: after))
    (hredactor : redactor.Withholds caller parent) (value : Json) :
    t.apply value caller parent =
      applyAll caller parent before value >>= fun _ => applyAll caller parent after .null := by
  rw [apply_eq_applyAll h, Builtin.applyAll_append]
  refine bind_congr fun v => ?_
  rw [applyAll, hredactor.apply_eq, pure_bind]

/-- A chain of built-in transforms in which a redactor withholds the value comes to what the
transforms after it make of `null`, if it comes to anything; it is `null` unless one of those has
an answer of its own for `null`. -/
theorem redacted_null (h : t.builtins? = some (before ++ redactor :: after))
    (hredactor : redactor.Withholds caller parent) (storage : Storage)
    (log log' : List Sql.Statement) (value result : Json)
    (hok : t.apply value caller parent storage log = (.ok result, log')) :
    (∃ issued, applyAll caller parent after .null storage issued = (.ok result, log')) ∧
      ((∀ b ∈ after, ¬b.FillsIn) → result = .null) := by
  have hrest : ∃ issued,
      applyAll caller parent after .null storage issued = (.ok result, log') := by
    rw [apply_withheld h hredactor, Session.bind_apply] at hok
    rcases hbefore : applyAll caller parent before value storage log with ⟨e | v, issued⟩
    · rw [hbefore] at hok
      cases hok
    · rw [hbefore] at hok
      exact ⟨issued, hok⟩
  refine ⟨hrest, fun hafter => ?_⟩
  obtain ⟨issued, hissued⟩ := hrest
  rw [Builtin.applyAll_null hafter] at hissued
  cases hissued
  rfl

end

/-- The name of another user, read as a truth value. -/
theorem redacted_null_other_user :
    let t := Transform.andThen (.builtin (.nullIfNotSameUser "id")) (.builtin .toBool)
    let caller : Caller := { user := some "u2" }
    let parent : Object := [("id", .str "u1")]
    let storage := Storage.scripted .sqlite []
    t.builtins? = some ([] ++ .nullIfNotSameUser "id" :: [.toBool]) ∧
      (Builtin.nullIfNotSameUser "id").Withholds caller parent ∧
      ∃ result, t.apply (.str "yes") caller parent storage [] = (.ok result, []) ∧
        (∃ issued, applyAll caller parent [.toBool] .null storage issued = (.ok result, [])) ∧
        result = .null := by
  intro t caller parent storage
  have hchain : t.builtins? = some ([] ++ .nullIfNotSameUser "id" :: [.toBool]) := rfl
  have hwithheld : (Builtin.nullIfNotSameUser "id").Withholds caller parent := by
    decide +kernel
  have hok : t.apply (.str "yes") caller parent storage [] = (.ok .null, []) := rfl
  obtain ⟨hrest, hnull⟩ := redacted_null hchain hwithheld storage [] [] (.str "yes") .null hok
  exact ⟨hchain, hwithheld, .null, hok, hrest, hnull (by decide)⟩

/-- A text that is split after it was withheld from an anonymous caller has no parts, which is not
`null`. -/
theorem redacted_filled_in : ¬∀ (t : Transform) (bs : List Builtin) (caller : Caller)
    (parent : Object) (storage : Storage) (log log' : List Sql.Statement) (value result : Json),
    t.builtins? = some bs → (∃ b ∈ bs, b.Withholds caller parent) →
    t.apply value caller parent storage log = (.ok result, log') → result = .null := by
  intro h
  have := h (.andThen (.builtin .nullIfNotLoggedIn) (.builtin .splitComma))
    [.nullIfNotLoggedIn, .splitComma] {} [] (Storage.scripted .sqlite []) [] [] (.str "a,b")
    (.arr []) rfl ⟨.nullIfNotLoggedIn, List.mem_cons_self, rfl⟩ rfl
  cases this

end Transform

end ObjectGraph
