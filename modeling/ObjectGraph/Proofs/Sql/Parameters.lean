import ObjectGraph.Proofs.Sql.Binding

/-! # The store of parameters

Values are bound one after another, each under the first candidate of its name that takes it
(`nameFor_first`).  Candidates that are passed over hold other values, and what a scope holds it
holds for good, so they are passed over again: a value that comes back under its name is found where
it was bound, whatever was bound in between (`bind_again`).  `bindings_stable` states what a run of
bindings comes to. -/

namespace ObjectGraph

namespace Sql

open Scope (candidate accepts nameFor)

/-! ### The first candidate -/

/-- An index is that of the first candidate of a name that takes a value. -/
structure First (params : Params) (name : String) (value : Json) (index : Nat) : Prop where
  takes : accepts params value (candidate name index) = true
  before : ∀ j < index, accepts params value (candidate name j) = false

theorem First.unique {params : Params} {name : String} {value : Json} {i j : Nat}
    (hi : First params name value i) (hj : First params name value j) : i = j := by
  rcases Nat.lt_trichotomy i j with hlt | heq | hgt
  · exact absurd hi.takes (by rw [hj.before i hlt]; exact Bool.false_ne_true)
  · exact heq
  · exact absurd hj.takes (by rw [hi.before j hgt]; exact Bool.false_ne_true)

/-- The search for a name ends after as many candidates as there are parameters, at the latest. -/
theorem nameFor_first (params : Params) (name : String) (value : Json) :
    ∃ i ≤ params.length, First params name value i ∧
      nameFor params name value = candidate name i := by
  obtain ⟨i, hi, haccepts⟩ := exists_accepted params name value
  have hsome : ((List.range (params.length + 1)).find? fun i =>
      accepts params value (candidate name i)).isSome = true :=
    List.find?_isSome.2 ⟨i, List.mem_range.2 hi, haccepts⟩
  obtain ⟨index, hfind⟩ := Option.isSome_iff_exists.1 hsome
  obtain ⟨htakes, hmem, hbefore⟩ := List.find?_range_eq_some.1 hfind
  have hlt := List.mem_range.1 hmem
  refine ⟨index, by omega, ⟨htakes, fun j hj => ?_⟩, ?_⟩
  · have hnot := hbefore j hj
    rwa [Bool.not_eq_true'] at hnot
  · unfold nameFor
    rw [hfind]
    rfl

theorem nameFor_eq {params : Params} {name : String} {value : Json} {index : Nat}
    (h : First params name value index) : nameFor params name value = candidate name index := by
  obtain ⟨i, -, hfirst, heq⟩ := nameFor_first params name value
  rw [heq, hfirst.unique h]

/-! ### One binding -/

section

variable {name bound : String} {value value' : Json} {s t u : Scope}

theorem bind_name (h : bind name value s = (bound, t)) : bound = nameFor s.params name value := by
  unfold bind at h
  dsimp only at h
  split at h
  · exact (congrArg Prod.fst h).symm
  · exact (congrArg Prod.fst h).symm

/-- Names stay distinct. -/
theorem bind_nodup (h : bind name value s = (bound, t)) (hs : (s.params.map Prod.fst).Nodup) :
    (t.params.map Prod.fst).Nodup := by
  rcases bind_ok h with ⟨rfl, -⟩ | ⟨hfree, rfl⟩
  · exact hs
  · rw [List.map_append, List.map_singleton]
    refine List.nodup_append.2 ⟨hs, List.nodup_singleton _, ?_⟩
    rintro key hkey _ hlast rfl
    obtain ⟨⟨key', held⟩, hmem, rfl⟩ := List.mem_map.1 hkey
    obtain rfl : key' = bound := List.mem_singleton.1 hlast
    have hheld : s.params.get? key' = some held := Dictionary.lookup_of_mem hs hmem
    rw [hfree] at hheld
    cases hheld

theorem bind_held (h : bind name value s = (bound, t)) (hvalid : value.Valid) :
    ∃ held, t.params.get? bound = some held ∧ held.same value = true := by
  rcases bind_ok h with ⟨rfl, hheld⟩ | ⟨hfree, rfl⟩
  · exact hheld
  · exact ⟨value, get?_append hfree, Json.same_refl value hvalid⟩

/-- A candidate that holds another value than one holds another than an equal one, and goes on to do
so. -/
theorem accepts_of_grows (hgrows : s.params <+: u.params) (hvalid : value.Valid)
    (hvalid' : value'.Valid) (hsame : value.same value' = true) {key : String}
    (h : accepts s.params value key = false) : accepts u.params value' key = false := by
  unfold accepts at h ⊢
  cases hget : s.params.get? key with
  | none =>
    rw [hget] at h
    cases h
  | some held =>
    have hother : held.same value = false := by
      rw [hget] at h
      exact h
    rw [get?_of_grows hgrows hget]
    by_contra hne
    have hheld : held.same value' = true := Bool.of_not_eq_false hne
    have hback := Json.same_symm value value' hvalid hvalid' hsame
    have hown := Json.same_trans held value' value hheld hback
    rw [hother] at hown
    cases hown

/-- An equal value that is bound under the same name again is found where the first was bound,
whatever was bound in between. -/
theorem bind_again (h : bind name value s = (bound, t)) (hgrows : t.params <+: u.params)
    (hvalid : value.Valid) (hvalid' : value'.Valid) (hsame : value.same value' = true) :
    bind name value' u = (bound, u) := by
  obtain ⟨i, -, hfirst, hname⟩ := nameFor_first s.params name value
  have hbound : bound = candidate name i := (bind_name h).trans hname
  obtain ⟨held, hheld, hown⟩ := bind_held h hvalid
  have hlater : u.params.get? bound = some held := get?_of_grows hgrows hheld
  have hagain : First u.params name value' i := by
    constructor
    case takes =>
      rw [← hbound, accepts, hlater]
      exact Json.same_trans held value value' hown hsame
    case before =>
      intro j hj
      exact accepts_of_grows ((bind_grows h).trans hgrows) hvalid hvalid' hsame
        (hfirst.before j hj)
  unfold bind
  dsimp only
  rw [nameFor_eq hagain, ← hbound, hlater]

end

/-! ### Runs of bindings -/

/-- Bind values in turn and give the names they are bound under. -/
def bindAll : List (String × Json) → Building (List String)
  | [] => pure []
  | (name, value) :: calls => do
    let bound ← bind name value
    let names ← bindAll calls
    pure (bound :: names)

section

variable {before after : List (String × Json)} {s : Scope}

theorem bindAll_append : bindAll (before ++ after) s =
    ((bindAll before s).1 ++ (bindAll after (bindAll before s).2).1,
      (bindAll after (bindAll before s).2).2) := by
  induction before generalizing s with
  | nil => rfl
  | cons call before ih =>
    obtain ⟨name, value⟩ := call
    change ((bind name value s).1 :: (bindAll (before ++ after) (bind name value s).2).1,
      (bindAll (before ++ after) (bind name value s).2).2) = _
    rw [ih]
    rfl

theorem length_bindAll (calls : List (String × Json)) (s : Scope) :
    (bindAll calls s).1.length = calls.length := by
  induction calls generalizing s with
  | nil => rfl
  | cons call calls ih => exact congrArg Nat.succ (ih (bind call.1 call.2 s).2)

theorem bindAll_grows (calls : List (String × Json)) (s : Scope) :
    s.params <+: (bindAll calls s).2.params := by
  induction calls generalizing s with
  | nil => exact List.prefix_rfl
  | cons call calls ih =>
    have hfirst : s.params <+: (bind call.1 call.2 s).2.params := bind_grows rfl
    exact hfirst.trans (ih (bind call.1 call.2 s).2)

/-- Every name holds the value it was given for, in the scope that all are bound in. -/
theorem bindAll_held {calls : List (String × Json)} (hvalid : ∀ call ∈ calls, call.2.Valid)
    (s : Scope) : List.Forall₂ (fun name call => ∃ held,
      (bindAll calls s).2.params.get? name = some held ∧ held.same call.2 = true)
      (bindAll calls s).1 calls := by
  induction calls generalizing s with
  | nil => exact .nil
  | cons call calls ih =>
    have hcall : bind call.1 call.2 s = ((bind call.1 call.2 s).1, (bind call.1 call.2 s).2) := rfl
    obtain ⟨held, hheld, hsame⟩ := bind_held hcall (hvalid call List.mem_cons_self)
    have hlater := get?_of_grows (bindAll_grows calls (bind call.1 call.2 s).2) hheld
    exact .cons ⟨held, hlater, hsame⟩
      (ih (fun other ho => hvalid other (List.mem_cons_of_mem _ ho)) (bind call.1 call.2 s).2)

theorem bindAll_nodup (calls : List (String × Json)) (hs : (s.params.map Prod.fst).Nodup) :
    ((bindAll calls s).2.params.map Prod.fst).Nodup := by
  induction calls generalizing s with
  | nil => exact hs
  | cons call calls ih =>
    have hcall : bind call.1 call.2 s = ((bind call.1 call.2 s).1, (bind call.1 call.2 s).2) := rfl
    exact ih (bind_nodup hcall hs)

end

theorem candidate_cases (name : String) (index : Nat) :
    candidate name index = name ∨
      ∃ k, 2 ≤ k ∧ candidate name index = name ++ "_" ++ toString k := by
  cases index with
  | zero => exact .inl rfl
  | succ n => exact .inr ⟨n + 2, by omega, rfl⟩

/-- After any run of bindings in a new scope, no name is there twice, and all that was bound at any
time is there unchanged.  The search for the name of a value ended at the first candidate that takes
it, after no more candidates than there were parameters; under that name, which is the one asked for
or the same with a number behind it, the statement has an equal value; and binding an equal value
under the same name again gives that name and changes nothing. -/
theorem bindings_stable {calls : List (String × Json)} (hvalid : ∀ call ∈ calls, call.2.Valid)
    {names : List String} {s : Scope} (h : bindAll calls {} = (names, s)) :
    names.length = calls.length ∧ (s.params.map Prod.fst).Nodup ∧
    ∀ before name value after, calls = before ++ (name, value) :: after →
      ∃ earlier bound index, (bindAll before {}).2 = earlier ∧ names[before.length]? = some bound ∧
        earlier.params <+: (bind name value earlier).2.params ∧
        (bind name value earlier).2.params <+: s.params ∧
        index ≤ earlier.params.length ∧ First earlier.params name value index ∧
        bound = candidate name index ∧
        (bound = name ∨ ∃ k, 2 ≤ k ∧ bound = name ++ "_" ++ toString k) ∧
        (∀ sql, ∃ held, (s.statement sql).param? bound = some held ∧ held.same value = true) ∧
        ∀ value', value'.Valid → value.same value' = true → bind name value' s = (bound, s) := by
  obtain rfl : names = (bindAll calls {}).1 := (congrArg Prod.fst h).symm
  obtain rfl : s = (bindAll calls {}).2 := (congrArg Prod.snd h).symm
  refine ⟨length_bindAll calls {}, bindAll_nodup calls List.nodup_nil, ?_⟩
  intro before name value after hcalls
  have hvalue : value.Valid := hvalid (name, value)
    (hcalls ▸ List.mem_append_right _ List.mem_cons_self)
  generalize hearlier : (bindAll before {}).2 = earlier
  obtain ⟨bound, t, hbind⟩ : ∃ bound t, bind name value earlier = (bound, t) := ⟨_, _, rfl⟩
  have hrun : bindAll calls {} =
      ((bindAll before {}).1 ++ bound :: (bindAll after t).1, (bindAll after t).2) := by
    rw [hcalls, bindAll_append, hearlier]
    change (_ ++ (bind name value earlier).1 :: (bindAll after (bind name value earlier).2).1,
      (bindAll after (bind name value earlier).2).2) = _
    rw [hbind]
  have hlater : t.params <+: (bindAll calls {}).2.params := by
    rw [hrun]
    exact bindAll_grows after t
  obtain ⟨index, hindex, hfirst, hname⟩ := nameFor_first earlier.params name value
  have hbound : bound = candidate name index := (bind_name hbind).trans hname
  obtain ⟨held, hheld, hsame⟩ := bind_held hbind hvalue
  refine ⟨earlier, bound, index, rfl, ?_, bind_grows rfl, ?_, hindex, hfirst, hbound, ?_, ?_, ?_⟩
  · have hlength := length_bindAll before {}
    rw [hrun, List.getElem?_append_right (Nat.le_of_eq hlength), hlength, Nat.sub_self]
    rfl
  · rw [hbind]
    exact hlater
  · rw [hbound]
    exact candidate_cases name index
  · exact fun _ => ⟨held, get?_of_grows hlater hheld, hsame⟩
  · exact fun value' hvalid' hequal => bind_again hbind hlater hvalue hvalid' hequal

/-- Values for a role, one of them under a name that looks like a renamed one. -/
def roles : List (String × Json) :=
  [("role", .str "admin"), ("role_2", .str "blocked"), ("role", .str "member"),
    ("role_2", .str "guest"), ("role", .str "blocked")]

/-- The names under which they are bound; the last value is found where it stands already. -/
theorem bindings_stable_roles : ∃ s,
    bindAll roles {} = (["role", "role_2", "role_3", "role_2_2", "role_2"], s) ∧
      (s.params.map Prod.fst).Nodup ∧ s.params.length = 4 ∧
      bind "role" (.str "blocked") s = ("role_2", s) := by
  have hvalid : ∀ call ∈ roles, call.2.Valid := by
    intro call hcall
    simp only [roles, List.mem_cons, List.not_mem_nil, or_false] at hcall
    rcases hcall with rfl | rfl | rfl | rfl | rfl <;> trivial
  have hnames : (bindAll roles {}).1 = ["role", "role_2", "role_3", "role_2_2", "role_2"] := by
    decide +kernel
  refine ⟨(bindAll roles {}).2, Prod.ext hnames rfl, ?_⟩
  obtain ⟨-, hnodup, hcalls⟩ := bindings_stable hvalid (Prod.ext hnames rfl)
  refine ⟨hnodup, by decide +kernel, ?_⟩
  obtain ⟨_, bound, _, -, hbound, -, -, -, -, -, -, -, hagain⟩ :=
    hcalls (roles.take 4) "role" (.str "blocked") [] rfl
  cases hbound
  exact hagain (.str "blocked") trivial rfl

end Sql

end ObjectGraph
