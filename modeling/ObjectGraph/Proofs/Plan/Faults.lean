import ObjectGraph.Proofs.Plan.Planned

/-! # What compiling may fail with

Compiling a statement fails for the schema, for a text, for a selection that a field has or lacks,
or for the depth.  What it says then is so (`CompileFault`): a field that lacks a selection has a
relation, one that has too much has none, and a level is too deep only if it is beyond the limit.
The levels in question are those of the statement itself, so that a bound on them bounds what may be
found too deep (`compileRoot_fails`, `compileMany_fails`). -/

namespace ObjectGraph

namespace Plan

open Compiling
open Schema (Relation Resolved TypeFilter)

/-- What compiling levels of a bounded depth may fail with. -/
inductive CompileFault (env : Environment) (bound : Nat) : Error → Prop
  | schema (fault : Schema.Error) : CompileFault env bound (.schema fault)
  | sql (fault : Sql.BuildError) : CompileFault env bound (.sql fault)
  | missing {typeName field : String} {resolved : Resolved} :
      env.registry.resolve typeName field = .ok resolved → resolved.relation?.isSome = true →
      CompileFault env bound (.missingSelection typeName field)
  | unexpected {typeName field : String} {resolved : Resolved} :
      env.registry.resolve typeName field = .ok resolved → resolved.relation? = none →
      CompileFault env bound (.unexpectedSelection typeName field)
  | tooDeep {depth : Nat} : depth ≤ bound → env.settings.maxDepth < depth →
      CompileFault env bound (.depthExceeded depth env.settings.maxDepth)

/-! ### Levels -/

section

variable {env : Environment} {bound : Nat} {level : Level}

theorem openLevel_fails {filter : Option TypeFilter} {q : Sql.Query} (h : level.depth ≤ bound) :
    FailsOnly (CompileFault env bound) (openLevel env level filter q) := by
  unfold openLevel
  by_cases hd : env.settings.maxDepth < level.depth
  · simp only [hd, if_true]
    exact .bind (failsOnly_throw (.tooDeep h hd)) fun _ _ _ hthrow => (throw_ok.1 hthrow).elim
  · simp only [hd, if_false]
    exact .bind (failsOnly_ofSchema fun _ _ => .schema _) fun _ _ _ _ =>
      .bind (failsOnly_ofBuilding _) fun _ _ _ _ => .bind (failsOnly_ofBuilding _)
        fun _ _ _ _ => failsOnly_pure _

theorem openLevel_depth {filter : Option TypeFilter} {q : Sql.Query} {s t : Sql.Scope} {o : Opened}
    (h : openLevel env level filter q s = .ok (o, t)) : o.level.depth = level.depth := by
  obtain ⟨-, _, _, _, _, -, -, -, rfl⟩ := openLevel_ok h
  rfl

variable {position : Nat} {relation : Relation} {target : String}

theorem openSingle_fails (h : level.depth + 1 ≤ bound) :
    FailsOnly (CompileFault env bound) (openSingle env level position relation target) := by
  unfold openSingle
  exact .bind (failsOnly_ofSchema fun _ _ => .schema _) fun _ _ _ _ =>
    .bind (failsOnly_ofBuilding _) fun _ _ _ _ => .bind (failsOnly_ofBuilding _)
      fun _ _ _ _ => openLevel_fails h

theorem openSingle_depth {s t : Sql.Scope} {o : Opened}
    (h : openSingle env level position relation target s = .ok (o, t)) :
    o.level.depth = level.depth + 1 :=
  congrArg Site.depth (openSingle_site h).2.1

theorem valueExpression_fails {name : String} {resolved : Resolved}
    {extras : List (String × String)} :
    FailsOnly (CompileFault env bound) (valueExpression env level name resolved extras) := by
  unfold valueExpression
  dsimp only
  split
  · exact .bind (failsOnly_ofBuilding _) fun _ _ _ _ => failsOnly_pure _
  · exact failsOnly_pure _
  · split
    · exact failsOnly_pure _
    · split
      · exact failsOnly_pure _
      · exact failsOnly_pure _
      · exact failsOnly_pure _
      · exact failsOnly_throw (.schema _)

mutual

/-- A selected field fails as it should if the bound leaves room for the levels below it. -/
theorem entry_fails {o : Opened} {p : Progress} {position : Nat} : (selection : Selection) →
    o.level.depth + selection.depth ≤ bound →
    FailsOnly (CompileFault env bound) (entry env o p position selection)
  | .scalar name, _ => by
    rw [entry, valueEntry]
    refine .bind (failsOnly_ofSchema fun _ _ => .schema _) fun resolved _ _ hr => ?_
    by_cases hn : resolved.relation?.isSome = true
    · simp only [hn, if_true]
      exact .bind (failsOnly_throw (.missing (ofSchema_ok.1 hr).1 hn))
        fun _ _ _ hthrow => (throw_ok.1 hthrow).elim
    · simp only [hn]
      exact .bind valueExpression_fails fun _ _ _ _ => failsOnly_pure _
  | .nested name selection, h => by
    rw [Selection.depth] at h
    rw [entry]
    refine .bind (failsOnly_ofSchema fun _ _ => .schema _) fun resolved _ _ hr => ?_
    split
    · next hn => exact failsOnly_throw (.unexpected (ofSchema_ok.1 hr).1 hn)
    · split
      · exact failsOnly_pure _
      · have hroom : o.level.depth + 1 ≤ bound := by omega
        refine .bind (openSingle_fails hroom) fun child _ _ ho => ?_
        have hchild := openSingle_depth ho
        exact .bind (entries_fails selection (by omega)) fun _ _ _ _ => failsOnly_pure _

/-- So do selected fields. -/
theorem entries_fails {o : Opened} {p : Progress} {position : Nat} :
    (selections : List Selection) → o.level.depth + Selection.depthOf selections ≤ bound →
    FailsOnly (CompileFault env bound) (entries env o p position selections)
  | [], _ => by
    rw [entries]
    exact failsOnly_pure _
  | selection :: selections, h => by
    rw [Selection.depthOf] at h
    rw [entries]
    exact .bind (entry_fails selection (by omega)) fun _ _ _ _ =>
      entries_fails selections (by omega)

end

theorem compileLevel_fails {filter : Option TypeFilter} {q : Sql.Query}
    {selections : List Selection} (h : level.depth + Selection.depthOf selections ≤ bound) :
    FailsOnly (CompileFault env bound) (compileLevel env level filter q selections) := by
  unfold compileLevel
  refine .bind (openLevel_fails (by omega)) fun o _ _ ho => ?_
  rw [← openLevel_depth ho] at h
  exact .bind (entries_fails selections h) fun _ _ _ _ => failsOnly_pure _

theorem addRequestFilter_fails {tableAlias : String} : (filter : Object) → (q : Sql.Query) →
    FailsOnly (CompileFault env bound) (addRequestFilter tableAlias q filter)
  | [], _ => failsOnly_pure _
  | _ :: rest, _ => by
    rw [addRequestFilter]
    exact .bind (failsOnly_ofBuilding _) fun q _ _ _ => addRequestFilter_fails rest q

/-! ### Statements -/

theorem looked_up_fails {α : Type} {look : Except Schema.Error α} {e : Error}
    (h : look.mapError Error.schema = .error e) : CompileFault env bound e := by
  cases look with
  | ok _ => cases h
  | error fault =>
    cases h
    exact .schema fault

/-- What is made of a text fails for a placeholder only. -/
theorem finish_fails {sql : String} {scope : Sql.Scope} {e : Error}
    (h : finish sql scope = .error e) : CompileFault env bound e := by
  unfold finish at h
  rcases Outcome.bind_eq_error.1 h with h | ⟨_, -, ⟨⟩⟩
  cases hv : (scope.statement sql).verifyBound with
  | ok _ =>
    rw [hv] at h
    cases h
  | error fault =>
    rw [hv] at h
    cases h
    exact .sql fault

theorem rootLevel_fails {request : Request} {filter : Option TypeFilter} :
    FailsOnly (CompileFault env request.depth) (rootLevel env request filter) := by
  unfold rootLevel
  exact .bind (failsOnly_ofSchema fun _ _ => .schema _) fun _ _ _ _ =>
    .bind (failsOnly_ofBuilding _) fun _ _ _ _ => .bind (compileLevel_fails (Nat.le_refl _))
      fun _ _ _ _ => .bind (addRequestFilter_fails _ _) fun _ _ _ _ =>
        .bind (failsOnly_ofSql .sql) fun _ _ _ _ => failsOnly_pure _

theorem followUpLevel_fails {m : ManyPlan} {parent child : Schema.TypeMapping}
    {keys : List (List Json)} :
    FailsOnly (CompileFault env (m.depth + Selection.depthOf m.selection))
      (followUpLevel env m parent child relation keys) := by
  unfold followUpLevel
  exact .bind (failsOnly_ofBuilding _) fun _ _ _ _ => .bind (compileLevel_fails (Nat.le_refl _))
    fun _ _ _ _ => .bind (failsOnly_ofSql .sql) fun _ _ _ _ => .bind (failsOnly_ofBuilding _)
      fun _ _ _ _ => .bind (failsOnly_ofBuilding _) fun _ _ _ _ => failsOnly_pure _

/-- A root statement fails as it should, and for the depth only within that of the request. -/
theorem compileRoot_fails {request : Request} {filter : Option TypeFilter} {e : Error}
    (h : compileRoot env request filter = .error e) : CompileFault env request.depth e := by
  unfold compileRoot at h
  split at h
  · next hd =>
    cases h
    exact .tooDeep (Nat.le_refl _) hd
  · rcases Outcome.bind_eq_error.1 h with hroot | ⟨_, -, h⟩
    · exact rootLevel_fails {} e hroot
    · rcases Outcome.bind_eq_error.1 h with hfinish | ⟨_, -, ⟨⟩⟩
      exact finish_fails hfinish

/-- A follow-up fails as it should, and for the depth only within that of its list. -/
theorem compileMany_fails {m : ManyPlan} {keys : List (List Json)} {e : Error}
    (h : compileMany env m keys = .error e) :
    CompileFault env (m.depth + Selection.depthOf m.selection) e := by
  unfold compileMany at h
  split at h
  · next hd =>
    cases h
    exact .tooDeep (Nat.le_add_right _ _) hd
  rcases Outcome.bind_eq_error.1 h with hparent | ⟨parent, -, h⟩
  · exact looked_up_fails hparent
  rcases Outcome.bind_eq_error.1 h with hresolve | ⟨resolved, -, h⟩
  · exact looked_up_fails hresolve
  cases hn : resolved.relation? with
  | none =>
    rw [hn] at h
    cases h
    exact .schema _
  | some relation =>
    rw [hn] at h
    rcases Outcome.bind_eq_error.1 h with hchild | ⟨child, -, h⟩
    · exact looked_up_fails hchild
    rcases Outcome.bind_eq_error.1 h with hfollow | ⟨_, -, h⟩
    · exact followUpLevel_fails {} e hfollow
    rcases Outcome.bind_eq_error.1 h with hfinish | ⟨_, -, ⟨⟩⟩
    exact finish_fails hfinish

end

end Plan

end ObjectGraph
