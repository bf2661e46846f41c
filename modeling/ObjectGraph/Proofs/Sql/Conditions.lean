import ObjectGraph.Proofs.Sql.Operands
import ObjectGraph.Sql.Script

/-! # What is added to the conditions of a query

Whatever a script does to a query, it does to the conditions a sequence of `Addition`s that does
not depend on the conditions there are (`Step.exists_adds`).  Their meaning is the fold of the
additions (`whereTruth_extendAll`).

Several contributors add in turn.  A row that satisfies the conditions in the end satisfies those
of every contributor, whatever the conditions are, exactly if the contributors are `Separate`:
none of them disjoins after another has added something (`separate_iff`). -/

namespace ObjectGraph

namespace Sql

/-! ### Additions -/

/-- How a condition is added to others. -/
inductive Junction
  | conjoin
  | disjoin
deriving DecidableEq, Repr

/-- A condition that is added to the conditions of a query. -/
structure Addition where
  junction : Junction
  condition : String
deriving DecidableEq, Repr

/-- Add a condition. -/
def extend (conditions : List String) (a : Addition) : List String :=
  match a.junction, conditions with
  | .conjoin, conditions => conditions ++ [a.condition]
  | .disjoin, [] => [a.condition]
  | .disjoin, conditions =>
    [parenthesized (conjunction conditions) ++ " OR " ++ parenthesized a.condition]

/-- Add conditions in turn. -/
def extendAll (conditions : List String) (additions : List Addition) : List String :=
  additions.foldl extend conditions

theorem extendAll_append (conditions : List String) (as bs : List Addition) :
    extendAll conditions (as ++ bs) = extendAll (extendAll conditions as) bs := List.foldl_append

/-- Conditions that are conjoined are kept apart. -/
theorem length_extendAll {additions : List Addition} (h : ∀ a ∈ additions, a.junction = .conjoin)
    (conditions : List String) :
    (extendAll conditions additions).length = conditions.length + additions.length := by
  induction additions generalizing conditions with
  | nil => rfl
  | cons a additions ih =>
    have hextend : extend conditions a = conditions ++ [a.condition] := by
      unfold extend
      rw [h a List.mem_cons_self]
    have hrest := ih (fun b hb => h b (List.mem_cons_of_mem a hb)) (extend conditions a)
    change (extendAll (extend conditions a) additions).length = _
    rw [hrest, hextend, List.length_append, List.length_singleton, List.length_cons]
    omega

/-- An action does the same to a query whatever conditions it has: it adds to them. -/
def Adds (build : Query → Building Query) (q : Query) (s : Scope) (additions : List Addition)
    (q' : Query) (t : Scope) : Prop :=
  ∀ conditions, build { q with conditions } s =
    ({ q' with conditions := extendAll conditions additions }, t)

section

variable {build next : Query → Building Query} {q q' q'' : Query} {s t u : Scope}
  {as bs : List Addition}

theorem Adds.bind (h : Adds build q s as q' t) (h' : Adds next q' t bs q'' u) :
    Adds (fun q => build q >>= next) q s (as ++ bs) q'' u := by
  intro conditions
  change next (build { q with conditions } s).1 (build { q with conditions } s).2 = _
  rw [h conditions, extendAll_append]
  exact h' _

theorem Adds.run (h : Adds build q s as q' t) :
    build q s = ({ q' with conditions := extendAll q.conditions as }, t) := h q.conditions

theorem adds_andWhere (condition : String) (s : Scope) :
    Adds (fun q => pure (q.andWhere condition)) q s [⟨.conjoin, condition⟩] q s := fun _ => rfl

theorem adds_andWhereWith (condition : String) (params : Params) (s : Scope) :
    Adds (fun q => q.andWhereWith condition params) q s
      [⟨.conjoin, (bindTemplate condition params s).1⟩] q (bindTemplate condition params s).2 :=
  fun _ => rfl

theorem adds_orWhere (condition : String) (s : Scope) :
    Adds (fun q => pure (q.orWhere condition)) q s [⟨.disjoin, condition⟩] q s := by
  intro conditions
  cases conditions with
  | nil => rfl
  | cons c conditions => rfl

end

/-! ### Scripts -/

theorem Question.exists_adds (holes : Text.Holes) (question : Question) (q : Query) (s : Scope) :
    ∃ q' t, Adds (fun q => do pure (← question.answer holes q).2) q s [] q' t := by
  cases question with
  | freshAlias hint => exact ⟨q, (Sql.freshAlias (q.fill holes hint) s).2, fun _ => rfl⟩
  | takeLabelled => exact ⟨q.takeLabelled.2, s, fun _ => rfl⟩
  | takeOrdering => exact ⟨q.takeOrdering.2, s, fun _ => rfl⟩
  | tableAlias | items | conditions | joins | limit | render => exact ⟨q, s, fun _ => rfl⟩

mutual

/-- A step adds to the conditions, whatever they are. -/
theorem Step.exists_adds (caller : Caller) (holes : Text.Holes) (q : Query) (s : Scope) :
    (step : Step) → ∃ as q' t, Adds (fun q => step.run caller holes q) q s as q' t
  | .select e => ⟨[], q.select (q.fill holes e), s, fun _ => rfl⟩
  | .addSelect e => ⟨[], q.addSelect (q.fill holes e), s, fun _ => rfl⟩
  | .addSelectAs e label =>
    ⟨[], q.addSelectAs (q.fill holes e) (q.fill holes label), s, fun _ => rfl⟩
  | .fromTable table tableAlias =>
    ⟨[], q.fromTable (q.fill holes table) (q.fill holes tableAlias), s, fun _ => rfl⟩
  | .fromFresh table hint =>
    ⟨[], (q.fromFresh (q.fill holes table) (q.fill holes hint) s).1,
      (Sql.freshAlias (q.fill holes hint) s).2, fun _ => rfl⟩
  | .innerJoin table tableAlias on params =>
    ⟨[], (q.innerJoinWith (q.fill holes table) (q.fill holes tableAlias) (q.fill holes on)
      (resolveArguments caller params) s).1,
      (bindTemplate (q.fill holes on) (resolveArguments caller params) s).2, fun _ => rfl⟩
  | .leftJoin table tableAlias on =>
    ⟨[], q.join .left (q.fill holes table) (q.fill holes tableAlias) (some (q.fill holes on)), s,
      fun _ => rfl⟩
  | .crossJoin table tableAlias =>
    ⟨[], q.join .cross (q.fill holes table) (q.fill holes tableAlias) none, s, fun _ => rfl⟩
  | .andWhere condition params =>
    ⟨_, q, _, adds_andWhereWith (q.fill holes condition) (resolveArguments caller params) s⟩
  | .orWhere condition => ⟨_, q, s, adds_orWhere (q.fill holes condition) s⟩
  | .orderBy e order => ⟨[], q.orderBy (q.fill holes e) order, s, fun _ => rfl⟩
  | .limit n => ⟨[], q.withLimit n, s, fun _ => rfl⟩
  | .embed steps outer => by
    obtain ⟨as, q', t, h⟩ := Step.exists_adds caller
      (holes ++ [(subHole, (Step.runAll caller holes {} steps s).1.embedded)]) q
      (Step.runAll caller holes {} steps s).2 outer
    refine ⟨as, q', t, ?_⟩
    intro conditions
    rw [← h conditions]
    simp only [Step.run]
    rfl
  | .when condition steps => by
    by_cases hholds : condition.holds caller = true
    · obtain ⟨as, q', t, h⟩ := Step.exists_addsAll caller holes q s steps
      refine ⟨as, q', t, ?_⟩
      intro conditions
      rw [← h conditions]
      simp only [Step.run, if_pos hholds]
    · refine ⟨[], q, s, ?_⟩
      intro conditions
      simp only [Step.run, if_neg hholds]
      rfl
  | .ask question => by
    obtain ⟨q', t, h⟩ := question.exists_adds holes q s
    refine ⟨[], q', t, ?_⟩
    intro conditions
    rw [← h conditions]
    simp only [Step.run]

/-- So do steps in turn. -/
theorem Step.exists_addsAll (caller : Caller) (holes : Text.Holes) (q : Query) (s : Scope) :
    (steps : List Step) → ∃ as q' t, Adds (fun q => Step.runAll caller holes q steps) q s as q' t
  | [] => by
    refine ⟨[], q, s, ?_⟩
    intro conditions
    simp only [Step.runAll]
    rfl
  | step :: steps => by
    obtain ⟨as, q', t, h⟩ := Step.exists_adds caller holes q s step
    obtain ⟨bs, q'', u, h'⟩ := Step.exists_addsAll caller holes q' t steps
    refine ⟨as ++ bs, q'', u, ?_⟩
    intro conditions
    rw [← h.bind h' conditions]
    simp only [Step.runAll]

end

/-! ### What conditions mean -/

/-- The truth of the conditions of a query, if there are any. -/
def whereTruth (v : Atoms) : List String → Option Truth
  | [] => none
  | conditions => some (truth v (conjunction conditions))

/-- A row satisfies the conditions of a query. -/
def Holds (v : Atoms) (conditions : List String) : Prop :=
  ∀ t ∈ whereTruth v conditions, t = .yes

/-- The truth of conditions with one more. -/
def Junction.combine (j : Junction) (t? : Option Truth) (t : Truth) : Option Truth :=
  match t?, j with
  | none, _ => some t
  | some t', .conjoin => some (t'.and t)
  | some t', .disjoin => some (t'.or t)

/-- The truth of conditions with more of them added in turn. -/
def foldTruth (v : Atoms) (t? : Option Truth) (additions : List Addition) : Option Truth :=
  additions.foldl (fun t? a => a.junction.combine t? (truth v a.condition)) t?

section

variable {v : Atoms} {conditions : List String} {t? : Option Truth} {as bs : List Addition}

theorem foldTruth_append : foldTruth v t? (as ++ bs) = foldTruth v (foldTruth v t? as) bs :=
  List.foldl_append

theorem foldr_and (t : Truth) (ts : List Truth) :
    (ts ++ [t]).foldr Truth.and .yes = (ts.foldr Truth.and .yes).and t := by
  induction ts with
  | nil => exact Truth.and_yes t
  | cons first ts ih =>
    rw [List.cons_append, List.foldr_cons, List.foldr_cons, ih, Truth.and_assoc]

theorem complete_extend {a : Addition} (h : ∀ c ∈ conditions, Complete c)
    (ha : Complete a.condition) : ∀ c ∈ extend conditions a, Complete c := by
  obtain ⟨junction, condition⟩ := a
  cases junction with
  | conjoin =>
    intro c hc
    rcases List.mem_append.1 hc with hc | hc
    · exact h c hc
    · rw [List.mem_singleton.1 hc]
      exact ha
  | disjoin =>
    cases conditions with
    | nil =>
      intro c hc
      rw [List.mem_singleton.1 hc]
      exact ha
    | cons first conditions =>
      intro c hc
      rw [List.mem_singleton.1 hc]
      exact complete_disjunction (complete_conjunction h) ha

theorem whereTruth_extend {a : Addition} (h : ∀ c ∈ conditions, Complete c)
    (ha : Complete a.condition) :
    whereTruth v (extend conditions a) =
      a.junction.combine (whereTruth v conditions) (truth v a.condition) := by
  obtain ⟨junction, condition⟩ := a
  cases conditions with
  | nil => cases junction <;> rfl
  | cons first conditions =>
    cases junction with
    | conjoin =>
      have hall : ∀ c ∈ first :: (conditions ++ [condition]), Complete c :=
        complete_extend (a := ⟨.conjoin, condition⟩) h ha
      change some (truth v (conjunction (first :: (conditions ++ [condition])))) =
        some ((truth v (conjunction (first :: conditions))).and (truth v condition))
      rw [truth_conjunction hall (List.cons_ne_nil _ _),
        truth_conjunction h (List.cons_ne_nil _ _), ← List.cons_append, List.map_append,
        List.map_singleton, foldr_and]
    | disjoin =>
      change some (truth v (_ ++ " OR " ++ _)) = some _
      rw [truth_disjunction (complete_conjunction h) ha]

/-- Conditions mean the fold of what was added. -/
theorem whereTruth_extendAll (h : ∀ c ∈ conditions, Complete c)
    (ha : ∀ a ∈ as, Complete a.condition) :
    whereTruth v (extendAll conditions as) = foldTruth v (whereTruth v conditions) as := by
  induction as generalizing conditions with
  | nil => rfl
  | cons a as ih =>
    have hfirst : Complete a.condition := ha a List.mem_cons_self
    change whereTruth v (extendAll (extend conditions a) as) =
      foldTruth v (a.junction.combine (whereTruth v conditions) (truth v a.condition)) as
    rw [ih (complete_extend h hfirst) fun b hb => ha b (List.mem_cons_of_mem a hb),
      whereTruth_extend h hfirst]

end

/-! ### Several contributors -/

/-- A truth that does not keep a row out. -/
def Passes (t? : Option Truth) : Prop := ∀ t ∈ t?, t = .yes

/-- No contributor disjoins after another has added something. -/
def Separate (shapes : List (List Junction)) : Prop :=
  shapes.Pairwise fun earlier later => earlier = [] ∨ ∀ j ∈ later, j = .conjoin

/-- The junctions of the contributors' additions. -/
def shapes (parts : List (List Addition)) : List (List Junction) :=
  parts.map fun part => part.map Addition.junction

section

variable {v : Atoms} {t : Truth} {as bs : List Addition} {parts : List (List Addition)}

theorem passes_none : Passes none := fun _ h => absurd h (Option.not_mem_none _)

theorem passes_some : Passes (some t) ↔ t = .yes :=
  ⟨fun h => h t rfl, fun h _ ht => (Option.some.inj ht) ▸ h⟩

theorem holds_iff_passes (h : ∀ a ∈ as, Complete a.condition) :
    Holds v (extendAll [] as) ↔ Passes (foldTruth v none as) := by
  have hfold : whereTruth v (extendAll [] as) = foldTruth v none as :=
    whereTruth_extendAll (fun _ hc => absurd hc List.not_mem_nil) h
  rw [← hfold]
  rfl

/-- Conditions that are only conjoined with a truth say no less than on their own. -/
theorem passes_conjoin (h : ∀ a ∈ as, a.junction = .conjoin) :
    Passes (foldTruth v (some t) as) ↔ t = .yes ∧ Passes (foldTruth v none as) := by
  induction as generalizing t with
  | nil =>
    change Passes (some t) ↔ t = .yes ∧ Passes none
    rw [passes_some]
    exact ⟨fun h => ⟨h, passes_none⟩, And.left⟩
  | cons a as ih =>
    have hcombine : a.junction.combine (some t) (truth v a.condition) =
        some (t.and (truth v a.condition)) := by
      rw [h a List.mem_cons_self]
      rfl
    have hrest : ∀ b ∈ as, b.junction = .conjoin := fun b hb => h b (List.mem_cons_of_mem a hb)
    change Passes (foldTruth v (a.junction.combine (some t) (truth v a.condition)) as) ↔
      t = .yes ∧ Passes (foldTruth v (some (truth v a.condition)) as)
    rw [hcombine, ih hrest, ih hrest, Truth.and_eq_yes, and_assoc]

theorem passes_append (h : ∀ b ∈ bs, b.junction = .conjoin) :
    Passes (foldTruth v none (as ++ bs)) ↔
      Passes (foldTruth v none as) ∧ Passes (foldTruth v none bs) := by
  rw [foldTruth_append]
  cases foldTruth v none as with
  | none => exact ⟨fun hp => ⟨passes_none, hp⟩, And.right⟩
  | some t => rw [passes_conjoin h, passes_some]

/-- Separate contributors are conjoined: a row passes all of them or is kept out. -/
theorem passes_flatten (h : Separate (shapes parts)) :
    Passes (foldTruth v none parts.flatten) ↔ ∀ part ∈ parts, Passes (foldTruth v none part) := by
  induction parts with
  | nil => exact ⟨fun _ _ hp => absurd hp List.not_mem_nil, fun _ => passes_none⟩
  | cons part parts ih =>
    obtain ⟨hfirst, hrest⟩ := List.pairwise_cons.1 h
    have hsplit : Passes (foldTruth v none (part ++ parts.flatten)) ↔
        Passes (foldTruth v none part) ∧ Passes (foldTruth v none parts.flatten) := by
      cases part with
      | nil => exact ⟨fun hp => ⟨passes_none, hp⟩, And.right⟩
      | cons a part =>
        apply passes_append
        intro b hb
        obtain ⟨later, hlater, hmem⟩ := List.mem_flatten.1 hb
        rcases hfirst _ (List.mem_map_of_mem hlater) with hnil | hconjoin
        · cases hnil
        · exact hconjoin _ (List.mem_map_of_mem hmem)
    rw [List.flatten_cons, hsplit, ih hrest, List.forall_mem_cons]

end

/-! ### Contributors that are not separate -/

namespace Separate

/-- A condition that is true in a row or false in it. -/
def conditionOf (b : Bool) : String := if b then "t" else "f"

/-- The row in which they are. -/
def row : Atoms
  | [.word ['t']] => .yes
  | _ => .no

/-- Additions of one of the two conditions. -/
def additions (b : Bool) (shape : List Junction) : List Addition :=
  shape.map fun j => ⟨j, conditionOf b⟩

theorem complete_conditionOf (b : Bool) : Complete (conditionOf b) := by
  cases b <;> decide

theorem truth_conditionOf (b : Bool) :
    truth row (conditionOf b) = if b then .yes else .no := by
  cases b <;> decide

theorem foldTruth_false {shape : List Junction} {t? : Option Truth} (h : t? = none ∨ t? = some .no)
    (hne : shape ≠ []) : foldTruth row t? (additions false shape) = some .no := by
  induction shape generalizing t? with
  | nil => exact absurd rfl hne
  | cons j shape ih =>
    have hstep : j.combine t? (truth row (conditionOf false)) = some .no := by
      rw [truth_conditionOf]
      rcases h with rfl | rfl
      · rfl
      · cases j <;> rfl
    change foldTruth row (j.combine t? (truth row (conditionOf false))) (additions false shape) = _
    rw [hstep]
    cases shape with
    | nil => rfl
    | cons k shape => exact ih (.inr rfl) (List.cons_ne_nil _ _)

theorem foldTruth_true (shape : List Junction) :
    foldTruth row (some .yes) (additions true shape) = some .yes := by
  induction shape with
  | nil => rfl
  | cons j shape ih =>
    have hstep : j.combine (some .yes) (truth row (conditionOf true)) = some .yes := by
      rw [truth_conditionOf]
      cases j <;> rfl
    change foldTruth row (j.combine (some .yes) (truth row (conditionOf true)))
      (additions true shape) = _
    rw [hstep, ih]

theorem junction_additions (b : Bool) (shape : List Junction) :
    (additions b shape).map Addition.junction = shape := by
  rw [additions, List.map_map]
  exact List.map_id shape

theorem shapes_additions (b : Bool) (s : List (List Junction)) :
    shapes (s.map (additions b)) = s := by
  have hcomp : ((fun part => part.map Addition.junction) ∘ additions b) = id := by
    funext shape
    exact junction_additions b shape
  rw [shapes, List.map_map, hcomp, List.map_id]

theorem flatten_additions (b : Bool) (s : List (List Junction)) :
    (s.map (additions b)).flatten = additions b s.flatten := by
  rw [additions, List.map_flatten]
  rfl

theorem complete_additions {b : Bool} {shape : List Junction} {a : Addition}
    (h : a ∈ additions b shape) : Complete a.condition := by
  obtain ⟨j, -, rfl⟩ := List.mem_map.1 h
  exact complete_conditionOf b

section

variable (before between after : List (List Junction)) (earlier front back : List Junction)

/-- All is false in the row up to a disjunction, and all is true from there on. -/
def parts : List (List Addition) :=
  before.map (additions false) ++ additions false earlier :: (between.map (additions false) ++
    (additions false front ++ ⟨.disjoin, conditionOf true⟩ :: additions true back) ::
      after.map (additions true))

theorem shapes_parts : shapes (parts before between after earlier front back) =
    before ++ earlier :: (between ++ (front ++ .disjoin :: back) :: after) := by
  have hfalse := shapes_additions false
  have htrue := shapes_additions true after
  unfold shapes at hfalse htrue
  rw [parts, shapes, List.map_append, List.map_cons, List.map_append, List.map_cons,
    List.map_append, List.map_cons, hfalse, hfalse, htrue, junction_additions, junction_additions,
    junction_additions]

theorem flatten_parts : (parts before between after earlier front back).flatten =
    additions false (before.flatten ++ (earlier ++ (between.flatten ++ front))) ++
      ⟨.disjoin, conditionOf true⟩ :: additions true (back ++ after.flatten) := by
  simp only [parts, List.flatten_append, List.flatten_cons, flatten_additions]
  simp only [additions, List.map_append, List.append_assoc, List.cons_append]

theorem complete_parts : ∀ part ∈ parts before between after earlier front back, ∀ a ∈ part,
    Complete a.condition := by
  intro part hpart a ha
  have hmem : a ∈ (parts before between after earlier front back).flatten :=
    List.mem_flatten.2 ⟨part, hpart, ha⟩
  rw [flatten_parts] at hmem
  rcases List.mem_append.1 hmem with hmem | hmem
  · exact complete_additions hmem
  · rcases List.mem_cons.1 hmem with rfl | hmem
    · exact complete_conditionOf true
    · exact complete_additions hmem

theorem foldTruth_parts (hne : earlier ≠ []) :
    foldTruth row none (parts before between after earlier front back).flatten = some .yes := by
  have hfront : before.flatten ++ (earlier ++ (between.flatten ++ front)) ≠ [] := by
    intro h
    exact hne (List.append_eq_nil_iff.1 (List.append_eq_nil_iff.1 h).2).1
  rw [flatten_parts, foldTruth_append, foldTruth_false (.inl rfl) hfront]
  change foldTruth row (some (Truth.no.or (truth row (conditionOf true)))) _ = _
  rw [truth_conditionOf]
  exact foldTruth_true _

end

/-- Where contributors are not separate, one of them disjoins after another. -/
theorem exists_split {s : List (List Junction)} (h : ¬Separate s) :
    ∃ before earlier between front back after,
      s = before ++ earlier :: (between ++ (front ++ .disjoin :: back) :: after) ∧
        earlier ≠ [] := by
  induction s with
  | nil => exact absurd List.Pairwise.nil h
  | cons shape s ih =>
    by_cases hs : Separate s
    · have hfirst : ∃ later ∈ s, ¬(shape = [] ∨ ∀ j ∈ later, j = .conjoin) := by
        by_contra hnone
        apply h
        rw [Separate, List.pairwise_cons]
        refine ⟨?_, hs⟩
        intro later hlater
        by_contra hnot
        exact hnone ⟨later, hlater, hnot⟩
      obtain ⟨later, hlater, hnot⟩ := hfirst
      rw [not_or] at hnot
      obtain ⟨between, after, rfl⟩ := List.append_of_mem hlater
      have hdisjoin : Junction.disjoin ∈ later := by
        by_contra hmem
        apply hnot.2
        intro j hj
        cases j with
        | conjoin => rfl
        | disjoin => exact absurd hj hmem
      obtain ⟨front, back, rfl⟩ := List.append_of_mem hdisjoin
      exact ⟨[], shape, between, front, back, after, rfl, hnot.1⟩
    · obtain ⟨before, earlier, between, front, back, after, rfl, hne⟩ := ih hs
      exact ⟨shape :: before, earlier, between, front, back, after, rfl, hne⟩

end Separate

/-- Contributors are separate exactly if, whatever their conditions are, a row that satisfies all
that they added satisfies what each of them adds on its own. -/
theorem separate_iff {s : List (List Junction)} :
    Separate s ↔ ∀ parts, shapes parts = s → (∀ part ∈ parts, ∀ a ∈ part, Complete a.condition) →
      ∀ v, Holds v (extendAll [] parts.flatten) → ∀ part ∈ parts, Holds v (extendAll [] part) := by
  constructor
  · rintro h parts rfl hcomplete v hholds part hpart
    have hall : ∀ a ∈ parts.flatten, Complete a.condition := by
      intro a ha
      obtain ⟨part, hpart, hmem⟩ := List.mem_flatten.1 ha
      exact hcomplete part hpart a hmem
    rw [holds_iff_passes hall, passes_flatten h] at hholds
    rw [holds_iff_passes (hcomplete part hpart)]
    exact hholds part hpart
  · intro hall
    by_contra hnot
    obtain ⟨before, earlier, between, front, back, after, rfl, hne⟩ := Separate.exists_split hnot
    have hcomplete := Separate.complete_parts before between after earlier front back
    have hearlier : Separate.additions false earlier ∈
        Separate.parts before between after earlier front back :=
      List.mem_append_right _ List.mem_cons_self
    have hholds := hall _ (Separate.shapes_parts before between after earlier front back) hcomplete
      Separate.row ?_ _ hearlier
    · rw [holds_iff_passes (hcomplete _ hearlier), Separate.foldTruth_false (.inl rfl) hne,
        passes_some] at hholds
      cases hholds
    · rw [holds_iff_passes, Separate.foldTruth_parts before between after earlier front back hne,
        passes_some]
      intro a ha
      obtain ⟨part, hpart, hmem⟩ := List.mem_flatten.1 ha
      exact hcomplete part hpart a hmem

end Sql

end ObjectGraph
