import ObjectGraph.Proofs.Json.Equality
import ObjectGraph.Sql.Template

/-! # Binding parameters

The parameters of a scope are a store that only grows (`bind_ok`): a value is bound at the end, or
under a name that holds an equal value already.  The names that are tried for it differ from each
other, so that one of them always serves (`accepts_nameFor`). -/

namespace ObjectGraph

namespace Sql

open Scope (candidate accepts nameFor)

theorem toString_inj {m n : Nat} (h : toString m = toString n) : m = n := by
  have hdigits : Nat.toDigits 10 m = Nat.toDigits 10 n := String.ofList_injective h
  rw [← Nat.ofDigitChars_ten_toDigits (n := m), hdigits, Nat.ofDigitChars_ten_toDigits]

/-- The names that are tried for a value differ. -/
theorem candidate_inj {name : String} {i j : Nat} (h : candidate name i = candidate name j) :
    i = j := by
  have hlonger : ∀ k, name ≠ name ++ "_" ++ toString (k + 2) := by
    intro k hk
    have hlength := congrArg String.length hk
    rw [String.length_append, String.length_append] at hlength
    have hunderscore : "_".length = 1 := rfl
    omega
  cases i with
  | zero =>
    cases j with
    | zero => rfl
    | succ j => exact absurd h (hlonger j)
  | succ i =>
    cases j with
    | zero => exact absurd h.symm (hlonger i)
    | succ j =>
      have hnumber : toString (i + 2) = toString (j + 2) := String.append_right_inj _ |>.1 h
      have hij := toString_inj hnumber
      omega

/-- Of the names that are tried for a value, one can be used. -/
theorem exists_accepted (params : Params) (name : String) (value : Json) :
    ∃ i < params.length + 1, accepts params value (candidate name i) = true := by
  by_contra hnone
  have hmem : ∀ i < params.length + 1, candidate name i ∈ params.map Prod.fst := by
    intro i hi
    by_contra hfree
    apply hnone
    refine ⟨i, hi, ?_⟩
    have hget : params.get? (candidate name i) = none := Dictionary.lookup_eq_none hfree
    rw [accepts, hget]
  have hnodup : ((List.range (params.length + 1)).map (candidate name)).Nodup :=
    List.nodup_range.map fun i j h => candidate_inj h
  have hsub : (List.range (params.length + 1)).map (candidate name) ⊆ params.map Prod.fst := by
    intro c hc
    obtain ⟨i, hi, rfl⟩ := List.mem_map.1 hc
    exact hmem i (List.mem_range.1 hi)
  have hle := (List.subperm_of_subset hnodup hsub).length_le
  rw [List.length_map, List.length_map, List.length_range] at hle
  omega

theorem accepts_nameFor (params : Params) (name : String) (value : Json) :
    accepts params value (nameFor params name value) = true := by
  obtain ⟨i, hi, haccepts⟩ := exists_accepted params name value
  unfold nameFor
  cases hfind : (List.range (params.length + 1)).find? fun i =>
      accepts params value (candidate name i) with
  | some j => exact List.find?_some (p := fun i => accepts params value (candidate name i)) hfind
  | none =>
    have hnot := List.find?_eq_none.1 hfind i (List.mem_range.2 hi)
    exact absurd haccepts hnot

/-- A value is bound under the name that is given for it: it is added under a free name, or an equal
value is there already. -/
theorem bind_ok {name bound : String} {value : Json} {s t : Scope}
    (h : bind name value s = (bound, t)) :
    (t = s ∧ ∃ held, s.params.get? bound = some held ∧ held.same value = true) ∨
      (s.params.get? bound = none ∧ t = { s with params := s.params ++ [(bound, value)] }) := by
  unfold bind at h
  have haccepts := accepts_nameFor s.params name value
  cases hget : s.params.get? (nameFor s.params name value) with
  | some held =>
    simp only [hget] at h
    cases h
    rw [accepts, hget] at haccepts
    exact .inl ⟨rfl, held, hget, haccepts⟩
  | none =>
    simp only [hget] at h
    cases h
    exact .inr ⟨hget, rfl⟩

theorem get?_append {params : Params} {name : String} {value : Json}
    (h : params.get? name = none) : Dictionary.get? (params ++ [(name, value)]) name = some value := by
  have hnone : params.lookup name = none := h
  unfold Dictionary.get?
  rw [Dictionary.lookup_append, hnone, Option.none_or, List.lookup_cons_self]

theorem bind_grows {name bound : String} {value : Json} {s t : Scope}
    (h : bind name value s = (bound, t)) : s.params <+: t.params := by
  rcases bind_ok h with ⟨rfl, -⟩ | ⟨-, rfl⟩
  · exact List.prefix_rfl
  · exact List.prefix_append _ _

/-- What is bound stays bound as the store grows. -/
theorem get?_of_grows {params params' : Params} {name : String} {held : Json}
    (h : params <+: params') (hget : params.get? name = some held) :
    params'.get? name = some held := by
  obtain ⟨rest, rfl⟩ := h
  change (params ++ rest).lookup name = some held
  have hlookup : params.lookup name = some held := hget
  rw [Dictionary.lookup_append, hlookup, Option.some_or]

/-! ### Aliases -/

section

variable (s : Scope)

theorem aliases_bind (name : String) (value : Json) : (bind name value s).2.aliases = s.aliases := by
  unfold bind
  dsimp only
  split
  · rfl
  · rfl

theorem aliases_bindElements (name : String) (index : Nat) (items : List Json) :
    (bindElements name index items s).2.aliases = s.aliases := by
  induction items generalizing index s with
  | nil => rfl
  | cons item items ih =>
    change (bindElements name (index + 1) items (bind _ item s).2).2.aliases = _
    rw [ih, aliases_bind]

theorem aliases_bindPlaceholder (list : Bool) (name : String) (value : Json) :
    (bindPlaceholder list name value s).2.aliases = s.aliases := by
  unfold bindPlaceholder
  split
  · rfl
  · exact aliases_bindElements s _ 0 _
  · exact aliases_bind s _ _

theorem aliases_bindToken (params : Params) (token : Token) :
    (bindToken params token s).2.aliases = s.aliases := by
  cases token with
  | placeholder list name =>
    unfold bindToken
    dsimp only
    cases params.get? (String.ofList name) with
    | some value => exact aliases_bindPlaceholder s list _ value
    | none => rfl
  | _ => rfl

theorem aliases_bindTokens (params : Params) (tokens : List Token) :
    (bindTokens params tokens s).2.aliases = s.aliases := by
  induction tokens generalizing s with
  | nil => rfl
  | cons token tokens ih =>
    change (bindTokens params tokens (bindToken params token s).2).2.aliases = _
    rw [ih, aliases_bindToken]

/-- Binding the values of a template mints no alias. -/
theorem aliases_bindTemplate (template : String) (params : Params) :
    (bindTemplate template params s).2.aliases = s.aliases := by
  unfold bindTemplate
  split
  · rfl
  · exact aliases_bindTokens s params _

end

end Sql

end ObjectGraph
