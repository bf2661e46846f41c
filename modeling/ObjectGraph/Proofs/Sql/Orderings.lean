import Mathlib.Data.List.Infix
import ObjectGraph.Sql.Script

/-! # What scripts add to an ordering

A script adds terms to the ordering of a query after those there are, or takes all of them away
(`Step.keepsOrdering`).  What it adds depends on the caller, the scope and the holes, and of the
query on the alias of the main table alone; two queries are carried on alike (`Beside`) if they have
the same main table, or if the script does not name it. -/

namespace ObjectGraph

namespace Text

/-- Whether a pattern occurs in a text. -/
def mentions (pattern text : String) : Bool :=
  text.toList.tails.any pattern.toList.isPrefixOf

theorem replaceFrom_of_absent {pattern replacement text : List Char}
    (h : text.tails.any pattern.isPrefixOf = false) :
    replaceFrom pattern replacement 0 text = text := by
  induction text with
  | nil => rfl
  | cons c rest ih =>
    rw [List.tails_cons, List.any_cons, Bool.or_eq_false_iff] at h
    rw [replaceFrom, h.1, if_neg Bool.false_ne_true, ih h.2]

/-- A pattern that does not occur is not replaced. -/
theorem replace_of_absent {text pattern replacement : String}
    (h : mentions pattern text = false) : replace text pattern replacement = text := by
  unfold replace
  rw [replaceFrom_of_absent h, String.ofList_toList]

end Text

namespace Sql

/-! ### What a script does -/

mutual

/-- Whether a step leaves the terms of an ordering in place. -/
def Step.keepsOrdering (caller : Caller) : Step → Bool
  | .embed _ outer => outer.keepsOrdering caller
  | .when condition steps => !condition.holds caller || Step.keepsOrderingAll caller steps
  | .ask .takeOrdering => false
  | _ => true

/-- Whether steps leave the terms of an ordering in place. -/
def Step.keepsOrderingAll (caller : Caller) : List Step → Bool
  | [] => true
  | step :: steps => step.keepsOrdering caller && Step.keepsOrderingAll caller steps

end

/-- The texts of a step that holes are filled in. -/
def Step.texts : Step → List String
  | .select e | .addSelect e | .andWhere e _ | .orWhere e | .orderBy e _ => [e]
  | .addSelectAs e label => [e, label]
  | .fromTable table name | .fromFresh table name | .crossJoin table name => [table, name]
  | .innerJoin table tableAlias on _ | .leftJoin table tableAlias on => [table, tableAlias, on]
  | .ask (.freshAlias hint) => [hint]
  | .limit _ | .embed _ _ | .when _ _ | .ask _ => []

mutual

/-- Whether a step names the main table of the query that it is applied to. -/
def Step.namesMain : Step → Bool
  | .embed _ outer => outer.namesMain
  | .when _ steps => Step.namesMainAny steps
  | step => step.texts.any (Text.mentions fromHole)

/-- Whether some step names the main table. -/
def Step.namesMainAny : List Step → Bool
  | [] => false
  | step :: steps => step.namesMain || Step.namesMainAny steps

end

/-- Two queries were carried on alike: the same terms were added to both orderings after what was
kept of them, in the same scope. -/
structure Beside (keeps : Bool) (q q' : Query) (r r' : Query × Scope) : Prop where
  added : ∃ terms, r.1.ordering = (if keeps then q.ordering else []) ++ terms ∧
    r'.1.ordering = (if keeps then q'.ordering else []) ++ terms
  scope : r.2 = r'.2
  main : q.tableAlias? = q'.tableAlias? → r.1.tableAlias? = r'.1.tableAlias?

variable {caller : Caller} {q q' : Query} {s : Scope}

/-- Neither ordering was touched. -/
theorem Beside.untouched {r r' : Query × Scope} (ho : r.1.ordering = q.ordering)
    (ho' : r'.1.ordering = q'.ordering) (hs : r.2 = r'.2)
    (hmain : q.tableAlias? = q'.tableAlias? → r.1.tableAlias? = r'.1.tableAlias?) :
    Beside true q q' r r' :=
  ⟨⟨[], by rw [if_pos rfl, List.append_nil, ho], by rw [if_pos rfl, List.append_nil, ho']⟩, hs,
    hmain⟩

theorem Beside.trans {keeps keeps' : Bool} {r r' t t' : Query × Scope}
    (h : Beside keeps q q' r r') (h' : Beside keeps' r.1 r'.1 t t') :
    Beside (keeps && keeps') q q' t t' := by
  obtain ⟨terms, hterms, hterms'⟩ := h.added
  obtain ⟨more, hmore, hmore'⟩ := h'.added
  refine ⟨?_, h'.scope, fun hmain => h'.main (h.main hmain)⟩
  cases keeps' with
  | false =>
    rw [Bool.and_false]
    exact ⟨more, hmore, hmore'⟩
  | true =>
    rw [Bool.and_true]
    refine ⟨terms ++ more, ?_, ?_⟩
    · rw [hmore, if_pos rfl, hterms, List.append_assoc]
    · rw [hmore', if_pos rfl, hterms', List.append_assoc]

/-- Texts that do not name the main table are filled alike. -/
theorem fill_alike {holes : Text.Holes} {text : String}
    (h : Text.mentions fromHole text = true → q.tableAlias? = q'.tableAlias?) :
    q.fill holes text = q'.fill holes text := by
  unfold Query.fill Text.fill
  rw [List.foldl_cons, List.foldl_cons]
  cases hmentions : Text.mentions fromHole text with
  | true => rw [h hmentions]
  | false => rw [Text.replace_of_absent hmentions, Text.replace_of_absent hmentions]

/-- Where a step does not name the main table, its texts are filled alike. -/
theorem Step.fill_alike {holes : Text.Holes} {step : Step} {text : String}
    (h : step.namesMain = true → q.tableAlias? = q'.tableAlias?) (ht : text ∈ step.texts) :
    q.fill holes text = q'.fill holes text := by
  refine Sql.fill_alike fun hm => h ?_
  cases step with
  | embed steps outer => cases ht
  | when condition steps => cases ht
  | _ => exact List.any_eq_true.2 ⟨text, ht, hm⟩

theorem orWhere_ordering (condition : String) :
    (q.orWhere condition).ordering = q.ordering ∧
      (q.orWhere condition).tableAlias? = q.tableAlias? := by
  unfold Query.orWhere
  split
  · exact ⟨rfl, rfl⟩
  · exact ⟨rfl, rfl⟩

mutual

/-- A step carries two queries on alike that have the same main table, or if it does not name
that. -/
theorem step_beside {holes : Text.Holes} {q q' : Query} {s : Scope} : (step : Step) →
    (step.namesMain = true → q.tableAlias? = q'.tableAlias?) →
    Beside (step.keepsOrdering caller) q q' (step.run caller holes q s)
      (step.run caller holes q' s)
  | .select _, _ | .addSelect _, _ | .addSelectAs _ _, _ | .leftJoin _ _ _, _ | .crossJoin _ _, _
  | .limit _, _ => .untouched rfl rfl rfl id
  | .fromTable table name, h => by
    have hname : q.fill holes name = q'.fill holes name := Step.fill_alike h (by simp [Step.texts])
    refine .untouched rfl rfl rfl fun _ => ?_
    change some (q.fill holes name) = some (q'.fill holes name)
    rw [hname]
  | .fromFresh table hint, h => by
    have hhint : q.fill holes hint = q'.fill holes hint := Step.fill_alike h (by simp [Step.texts])
    refine .untouched rfl rfl ?_ fun _ => ?_
    · change (freshAlias (q.fill holes hint) s).2 = (freshAlias (q'.fill holes hint) s).2
      rw [hhint]
    · change some (freshAlias (q.fill holes hint) s).1 = some (freshAlias (q'.fill holes hint) s).1
      rw [hhint]
  | .innerJoin table tableAlias on params, h => by
    have hon : q.fill holes on = q'.fill holes on := Step.fill_alike h (by simp [Step.texts])
    refine .untouched rfl rfl ?_ id
    change (bindTemplate (q.fill holes on) _ s).2 = (bindTemplate (q'.fill holes on) _ s).2
    rw [hon]
  | .andWhere condition params, h => by
    have hcondition : q.fill holes condition = q'.fill holes condition :=
      Step.fill_alike h (by simp [Step.texts])
    refine .untouched rfl rfl ?_ id
    change (bindTemplate (q.fill holes condition) _ s).2 =
      (bindTemplate (q'.fill holes condition) _ s).2
    rw [hcondition]
  | .orWhere condition, _ =>
    .untouched (orWhere_ordering _).1 (orWhere_ordering _).1 rfl fun hmain =>
      (orWhere_ordering _).2.trans (hmain.trans (orWhere_ordering _).2.symm)
  | .orderBy e order, h => by
    have he : q.fill holes e = q'.fill holes e := Step.fill_alike h (by simp [Step.texts])
    refine ⟨⟨[q.fill holes e ++ " " ++ order.keyword], rfl, ?_⟩, rfl, id⟩
    rw [he]
    rfl
  | .embed steps outer, h => by
    rw [Step.keepsOrdering]
    exact step_beside outer h
  | .when condition steps, h => by
    rw [Step.keepsOrdering, Step.run, Step.run]
    cases condition.holds caller with
    | true => exact steps_beside steps h
    | false => exact .untouched rfl rfl rfl id
  | .ask question, h => by
    cases question with
    | freshAlias hint =>
      have hhint : q.fill holes hint = q'.fill holes hint :=
        Step.fill_alike h (by simp [Step.texts])
      refine .untouched rfl rfl ?_ id
      change (freshAlias (q.fill holes hint) s).2 = (freshAlias (q'.fill holes hint) s).2
      rw [hhint]
    | takeOrdering => exact ⟨⟨[], rfl, rfl⟩, rfl, id⟩
    | _ => exact .untouched rfl rfl rfl id

/-- So do steps in turn. -/
theorem steps_beside {holes : Text.Holes} {q q' : Query} {s : Scope} : (steps : List Step) →
    (Step.namesMainAny steps = true → q.tableAlias? = q'.tableAlias?) →
    Beside (Step.keepsOrderingAll caller steps) q q' (Step.runAll caller holes q steps s)
      (Step.runAll caller holes q' steps s)
  | [], _ => .untouched rfl rfl rfl id
  | step :: steps, h => by
    have hstep : Beside (step.keepsOrdering caller) q q' (step.run caller holes q s)
        (step.run caller holes q' s) :=
      step_beside step fun hm => h (by rw [Step.namesMainAny, hm, Bool.true_or])
    refine hstep.trans ?_
    change Beside _ _ _ (Step.runAll caller holes (step.run caller holes q s).1 steps
      (step.run caller holes q s).2) (Step.runAll caller holes (step.run caller holes q' s).1 steps
      (step.run caller holes q' s).2)
    rw [← hstep.scope]
    exact steps_beside steps fun hm => hstep.main (h (by rw [Step.namesMainAny, hm, Bool.or_true]))

end

end Sql

end ObjectGraph
