import ObjectGraph.Proofs.Plan.Growth
import ObjectGraph.Proofs.Plan.Labels

/-! # The aliases of a statement

The aliases of a compiled statement are those of a run of calls on a new scope, however deep the
request is (`compileRoot_aliases`, `compileMany_aliases`).  An alias is made of a hint and ends in
its position, so the aliases of any run are lower-case identifiers that differ, whatever the hints
are (`aliases_distinct`). -/

namespace ObjectGraph

namespace Plan

variable {env : Environment}

theorem finish_aliases {sql : String} {scope : Sql.Scope} {statement : Sql.Statement}
    {calls : List Sql.Call} (h : finish sql scope = .ok statement)
    (hscope : scope = (Sql.runCalls calls {}).2) :
    statement.aliases = (Sql.runCalls calls {}).1 := by
  rw [(finish_ok h).1, hscope]
  exact (Sql.runCalls_mints calls {}).aliases

theorem compileRoot_aliases {request : Request} {filter : Option Schema.TypeFilter}
    {compiled : Compiled} (h : compileRoot env request filter = .ok compiled) :
    ∃ calls, compiled.statement.aliases = (Sql.runCalls calls {}).1 := by
  obtain ⟨-, sql, plan, scope, hroot, hfinish, -⟩ := compileRoot_ok h
  obtain ⟨calls, hscope⟩ := rootLevel_byCalls env request filter _ _ _ hroot
  exact ⟨calls, finish_aliases hfinish hscope⟩

theorem compileMany_aliases {many : ManyPlan} {keys : List (List Json)} {compiled : Compiled}
    (h : compileMany env many keys = .ok compiled) :
    ∃ calls, compiled.statement.aliases = (Sql.runCalls calls {}).1 := by
  obtain ⟨-, parent, resolved, relation, child, f, scope, -, -, -, -, hf, hfinish, -⟩ :=
    compileMany_ok h
  obtain ⟨calls, hscope⟩ := followUpLevel_byCalls env many parent child relation keys _ _ _ hf
  exact ⟨calls, finish_aliases hfinish hscope⟩

/-- Aliases that are minted in a new scope, with any values bound in between, are what the scope
lists; they are identifiers that differ even if the case of letters is ignored, whatever they are
made of.  So are those of all compiled statements. -/
theorem aliases_distinct :
    (∀ calls names s, Sql.runCalls calls {} = (names, s) →
      s.aliases = names ∧ Sql.Distinct names) ∧
    (∀ env request filter compiled, compileRoot env request filter = .ok compiled →
      Sql.Distinct compiled.statement.aliases) ∧
    ∀ env many keys compiled, compileMany env many keys = .ok compiled →
      Sql.Distinct compiled.statement.aliases := by
  have hruns : ∀ calls, Sql.Distinct (Sql.runCalls calls {}).1 :=
    fun calls => (Sql.runCalls_mints calls {}).numbered_new.distinct
  refine ⟨fun calls names s h => ?_, fun env request filter compiled h => ?_,
    fun env many keys compiled h => ?_⟩
  · have haliases := (Sql.runCalls_mints calls {}).aliases
    have hdistinct := hruns calls
    rw [h] at haliases hdistinct
    exact ⟨haliases, hdistinct⟩
  · obtain ⟨calls, haliases⟩ := compileRoot_aliases h
    exact haliases ▸ hruns calls
  · obtain ⟨calls, haliases⟩ := compileMany_aliases h
    exact haliases ▸ hruns calls

/-- Hints that are empty, begin with a digit, look like an alias or differ in their case only. -/
def hints : List Sql.Call :=
  [.mint "", .bind "role" (.str "guest"), .mint "9Lives", .mint "post_4", .mint "Post",
    .bind "role" (.str "admin"), .mint "POST", .mint "Übung"]

theorem aliases_distinct_hints :
    (∃ s, Sql.runCalls hints {} =
        (["t_1", "t9_lives_2", "post_4_3", "post_4", "post_5", "_bung_6"], s) ∧
      s.aliases = ["t_1", "t9_lives_2", "post_4_3", "post_4", "post_5", "_bung_6"]) ∧
    ∃ root many compiled, compileRoot Shelf.environment Shelf.request none = .ok root ∧
      compileMany Shelf.environment many [[Json.ofNat 1]] = .ok compiled ∧
      Sql.Distinct root.statement.aliases ∧ Sql.Distinct compiled.statement.aliases := by
  obtain ⟨hcalls, hroots, hlists⟩ := aliases_distinct
  constructor
  · have hnames : (Sql.runCalls hints {}).1 =
        ["t_1", "t9_lives_2", "post_4_3", "post_4", "post_5", "_bung_6"] := by decide +kernel
    obtain ⟨haliases, -⟩ := hcalls hints _ _ (Prod.ext hnames rfl)
    exact ⟨_, Prod.ext hnames rfl, haliases⟩
  · obtain ⟨compiled, hsome⟩ := Option.isSome_iff_exists.1 Shelf.compiles
    obtain ⟨root, hroot, hsome⟩ := Option.bind_eq_some_iff.1 hsome
    obtain ⟨⟨field, child, many⟩, -, hcompiled⟩ := Option.bind_eq_some_iff.1 hsome
    have hroot := Outcome.toOption_some.1 hroot
    have hcompiled := Outcome.toOption_some.1 hcompiled
    exact ⟨root, many, compiled, hroot, hcompiled, hroots _ _ _ _ hroot, hlists _ _ _ _ hcompiled⟩

end Plan

end ObjectGraph
