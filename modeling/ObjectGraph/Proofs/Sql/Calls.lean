import ObjectGraph.Proofs.Sql.Minting

/-! # What building does to a scope

A scope has two operations: an alias is minted in it, or a value is bound.  Building a part of a
statement leads from one scope to another by such calls and by nothing else
(`Building.ByCalls`), so that what any run of calls keeps holds of the scope of any statement: its
parameters are only added to (`runCalls_grows`), and its aliases are the minted ones, each numbered
(`runCalls_mints`). -/

namespace ObjectGraph

namespace Sql

/-- An operation on a scope. -/
inductive Call where
  | mint (hint : String)
  | bind (name : String) (value : Json)

/-- Make calls in turn, and give the aliases that they mint. -/
def runCalls : List Call → Building (List String)
  | [] => pure []
  | .mint hint :: calls => do
    let name ← freshAlias hint
    let names ← runCalls calls
    pure (name :: names)
  | .bind name value :: calls => do
    let _ ← bind name value
    runCalls calls

/-! ### Runs of calls -/

theorem runCalls_append (before after : List Call) (s : Scope) :
    (runCalls (before ++ after) s).2 = (runCalls after (runCalls before s).2).2 := by
  induction before generalizing s with
  | nil => rfl
  | cons call before ih =>
    cases call with
    | mint hint => exact ih (freshAlias hint s).2
    | bind name value => exact ih (bind name value s).2

theorem runCalls_grows (calls : List Call) (s : Scope) :
    s.params <+: (runCalls calls s).2.params := by
  induction calls generalizing s with
  | nil => exact List.prefix_rfl
  | cons call calls ih =>
    cases call with
    | mint hint => exact ih (freshAlias hint s).2
    | bind name value =>
      have hfirst : s.params <+: (bind name value s).2.params := bind_grows rfl
      exact hfirst.trans (ih (bind name value s).2)

theorem runCalls_mints (calls : List Call) (s : Scope) :
    Mints s (runCalls calls s).1 (runCalls calls s).2 := by
  induction calls generalizing s with
  | nil => exact mints_nothing rfl
  | cons call calls ih =>
    cases call with
    | mint hint =>
      have hfirst : Mints s [s.aliasFor hint] (freshAlias hint s).2 := mints_freshAlias rfl
      exact hfirst.trans (ih (freshAlias hint s).2)
    | bind name value =>
      have hfirst : Mints s [] (bind name value s).2 := mints_nothing (aliases_bind s name value)
      exact hfirst.trans (ih (bind name value s).2)

/-! ### Steps of building -/

/-- A step of building changes its scope by calls. -/
def Building.ByCalls {α : Type} (build : Building α) : Prop :=
  ∀ s, ∃ calls, (build s).2 = (runCalls calls s).2

namespace Building

variable {α β : Type}

theorem ByCalls.pure (a : α) : ByCalls (Pure.pure a : Building α) := fun _ => ⟨[], rfl⟩

theorem ByCalls.bind {build : Building α} {next : α → Building β} (h : ByCalls build)
    (hnext : ∀ a, ByCalls (next a)) : ByCalls (build >>= next) := by
  intro s
  obtain ⟨calls, hcalls⟩ := h s
  obtain ⟨more, hmore⟩ := hnext (build s).1 (build s).2
  refine ⟨calls ++ more, ?_⟩
  rw [runCalls_append, ← hcalls, ← hmore]
  rfl

theorem ByCalls.grows {build : Building α} (h : ByCalls build) (s : Scope) :
    s.params <+: (build s).2.params := by
  obtain ⟨calls, hcalls⟩ := h s
  rw [hcalls]
  exact runCalls_grows calls s

end Building

theorem freshAlias_byCalls (hint : String) : (freshAlias hint).ByCalls :=
  fun _ => ⟨[.mint hint], rfl⟩

theorem bind_byCalls (name : String) (value : Json) : (bind name value).ByCalls :=
  fun _ => ⟨[.bind name value], rfl⟩

end Sql

end ObjectGraph
