import ObjectGraph.Proofs.Plan.Compiling
import ObjectGraph.Proofs.Sql.Calls

/-! # What compiling does to a scope

Whatever a schema contributes to a statement, compiling it only mints aliases and binds values
(`compileLevel_byCalls`, `rootLevel_byCalls`, `followUpLevel_byCalls`).  So a placeholder that is
written on the way stands for the same value in the finished statement (`ByCalls.grows`). -/

namespace ObjectGraph

namespace Sql

open Building (ByCalls)

theorem bindElements_byCalls (name : String) (index : Nat) (items : List Json) :
    ByCalls (bindElements name index items) := by
  induction items generalizing index with
  | nil => exact ByCalls.pure _
  | cons item items ih =>
    exact (bind_byCalls _ item).bind fun _ => (ih (index + 1)).bind fun _ => ByCalls.pure _

theorem bindPlaceholder_byCalls (list : Bool) (name : String) (value : Json) :
    ByCalls (bindPlaceholder list name value) := by
  unfold bindPlaceholder
  split
  · exact ByCalls.pure _
  · exact (bindElements_byCalls name 0 _).bind fun _ => ByCalls.pure _
  · exact (bind_byCalls name value).bind fun _ => ByCalls.pure _

theorem bindToken_byCalls (params : Params) (token : Token) : ByCalls (bindToken params token) := by
  unfold bindToken
  split
  · split
    · exact bindPlaceholder_byCalls _ _ _
    · exact ByCalls.pure _
  · exact ByCalls.pure _

theorem bindTokens_byCalls (params : Params) (tokens : List Token) :
    ByCalls (bindTokens params tokens) := by
  induction tokens with
  | nil => exact ByCalls.pure _
  | cons token tokens ih =>
    exact (bindToken_byCalls params token).bind fun _ => ih.bind fun _ => ByCalls.pure _

theorem bindTemplate_byCalls (template : String) (params : Params) :
    ByCalls (bindTemplate template params) := by
  unfold bindTemplate
  split
  · exact ByCalls.pure _
  · exact (bindTokens_byCalls params _).bind fun _ => ByCalls.pure _

namespace Query

variable (q : Query)

theorem andWhereWith_byCalls (condition : String) (params : Params) :
    ByCalls (q.andWhereWith condition params) :=
  (bindTemplate_byCalls condition params).bind fun _ => ByCalls.pure _

theorem innerJoinWith_byCalls (table tableAlias on : String) (params : Params) :
    ByCalls (q.innerJoinWith table tableAlias on params) :=
  (bindTemplate_byCalls on params).bind fun _ => ByCalls.pure _

theorem fromFresh_byCalls (table hint : String) : ByCalls (q.fromFresh table hint) :=
  (freshAlias_byCalls hint).bind fun _ => ByCalls.pure _

end Query

theorem answer_byCalls (holes : Text.Holes) (q : Query) (question : Question) :
    ByCalls (question.answer holes q) := by
  cases question with
  | freshAlias hint => exact (freshAlias_byCalls _).bind fun _ => ByCalls.pure _
  | _ => exact ByCalls.pure _

section

variable {caller : Caller}

mutual

theorem step_byCalls (holes : Text.Holes) (q : Query) : (step : Step) →
    ByCalls (step.run caller holes q)
  | .select _ => ByCalls.pure _
  | .addSelect _ => ByCalls.pure _
  | .addSelectAs _ _ => ByCalls.pure _
  | .fromTable _ _ => ByCalls.pure _
  | .fromFresh _ _ => q.fromFresh_byCalls _ _
  | .innerJoin _ _ _ _ => q.innerJoinWith_byCalls _ _ _ _
  | .leftJoin _ _ _ => ByCalls.pure _
  | .crossJoin _ _ => ByCalls.pure _
  | .andWhere _ _ => q.andWhereWith_byCalls _ _
  | .orWhere _ => ByCalls.pure _
  | .orderBy _ _ => ByCalls.pure _
  | .limit _ => ByCalls.pure _
  | .embed steps outer => (steps_byCalls holes {} steps).bind fun _ => step_byCalls _ q outer
  | .when condition steps => by
    rw [Step.run]
    split
    · exact steps_byCalls holes q steps
    · exact ByCalls.pure _
  | .ask question => (answer_byCalls holes q question).bind fun _ => ByCalls.pure _

theorem steps_byCalls (holes : Text.Holes) (q : Query) : (steps : List Step) →
    ByCalls (Step.runAll caller holes q steps)
  | [] => ByCalls.pure _
  | step :: steps => (step_byCalls holes q step).bind fun q' => steps_byCalls holes q' steps

end

end

end Sql

namespace Schema

open Sql.Building (ByCalls)

variable {caller : Caller}

theorem applyOption_byCalls (tableAlias : String) (q : Sql.Query) (filter : Option TypeFilter) :
    ByCalls (TypeFilter.applyOption caller tableAlias q filter) := by
  cases filter with
  | none => exact ByCalls.pure _
  | some filter =>
    cases filter with
    | template text => exact q.andWhereWith_byCalls _ _
    | script steps => exact Sql.steps_byCalls _ q steps

theorem join_byCalls (parent child : String) (q : Sql.Query) (rule : JoinRule) :
    ByCalls (rule.apply caller parent child q) := by
  cases rule with
  | columns _ _ => exact ByCalls.pure _
  | limitedColumns _ _ _ => exact ByCalls.pure _
  | condition text limit => exact (q.andWhereWith_byCalls _ _).bind fun _ => ByCalls.pure _
  | script steps => exact Sql.steps_byCalls _ q steps

theorem existsByUser_byCalls (test : ExistsByUser) (tableAlias : String) :
    ByCalls (test.render caller tableAlias) := by
  unfold ExistsByUser.render
  refine (Sql.Query.fromFresh_byCalls _ _ _).bind fun q => ?_
  refine (Sql.Query.andWhereWith_byCalls _ _ _).bind fun q => ?_
  cases test.extra with
  | none => exact (ByCalls.pure _).bind fun _ => ByCalls.pure _
  | some extra => exact (Sql.Query.andWhereWith_byCalls _ _ _).bind fun _ => ByCalls.pure _

theorem computed_byCalls (tableAlias : String) (computed : Computed) :
    ByCalls (computed.render caller tableAlias) := by
  cases computed with
  | existsByUser test => exact existsByUser_byCalls test tableAlias
  | script steps wrap => exact (Sql.steps_byCalls _ {} steps).bind fun _ => ByCalls.pure _

end Schema

namespace Plan

namespace Compiling

variable {α β : Type}

/-- Where a step of compiling succeeds, it changes its scope by calls. -/
def ByCalls (x : Compiling α) : Prop :=
  ∀ s a t, x s = .ok (a, t) → ∃ calls, t = (Sql.runCalls calls s).2

theorem ByCalls.grows {x : Compiling α} (h : ByCalls x) {s t : Sql.Scope} {a : α}
    (hrun : x s = .ok (a, t)) : s.params <+: t.params := by
  obtain ⟨calls, rfl⟩ := h s a t hrun
  exact Sql.runCalls_grows calls s

theorem ByCalls.pure (a : α) : ByCalls (Pure.pure a : Compiling α) := by
  intro s b t h
  obtain ⟨-, rfl⟩ := pure_ok.1 h
  exact ⟨[], rfl⟩

theorem ByCalls.throw (e : Error) : ByCalls (MonadExcept.throw e : Compiling α) :=
  fun _ _ _ h => (throw_ok.1 h).elim

theorem ByCalls.bind {x : Compiling α} {f : α → Compiling β} (h : ByCalls x)
    (hf : ∀ a, ByCalls (f a)) : ByCalls (x >>= f) := by
  intro s b t hrun
  obtain ⟨a, u, hx, hnext⟩ := bind_ok.1 hrun
  obtain ⟨calls, rfl⟩ := h s a u hx
  obtain ⟨more, rfl⟩ := hf a _ b t hnext
  exact ⟨calls ++ more, (Sql.runCalls_append calls more s).symm⟩

theorem ByCalls.ofBuilding {build : Sql.Building α} (h : build.ByCalls) :
    ByCalls (ofBuilding build) := by
  intro s a t hrun
  have hcalls := h s
  rw [ofBuilding_ok.1 hrun] at hcalls
  exact hcalls

theorem ByCalls.ofSchema (x : Except Schema.Error α) : ByCalls (ofSchema x) := by
  intro s a t h
  obtain ⟨-, rfl⟩ := ofSchema_ok.1 h
  exact ⟨[], rfl⟩

theorem ByCalls.ofSql (x : Except Sql.BuildError α) : ByCalls (ofSql x) := by
  intro s a t h
  obtain ⟨-, rfl⟩ := ofSql_ok.1 h
  exact ⟨[], rfl⟩

end Compiling

open Compiling (ByCalls)
open Sql (Building)

variable (env : Environment)

theorem openLevel_byCalls (level : Level) (filter : Option Schema.TypeFilter) (q : Sql.Query) :
    ByCalls (openLevel env level filter q) := by
  unfold openLevel
  split
  · exact ByCalls.throw _
  · refine (ByCalls.ofSchema _).bind fun mapping => ?_
    refine (ByCalls.ofBuilding (Schema.applyOption_byCalls _ _ _)).bind fun q => ?_
    exact (ByCalls.ofBuilding (Schema.applyOption_byCalls _ _ _)).bind fun q => ByCalls.pure _

theorem valueExpression_byCalls (level : Level) (name : String) (resolved : Schema.Resolved)
    (extras : List (String × String)) :
    ByCalls (valueExpression env level name resolved extras) := by
  unfold valueExpression
  dsimp only
  split
  · exact (ByCalls.ofBuilding (Schema.computed_byCalls _ _)).bind fun _ => ByCalls.pure _
  · exact ByCalls.pure _
  · split
    · exact ByCalls.pure _
    · split
      · exact ByCalls.pure _
      · exact ByCalls.pure _
      · exact ByCalls.pure _
      · exact ByCalls.throw _

theorem valueEntry_byCalls (level : Level) (p : Progress) (name : String) :
    ByCalls (valueEntry env level p name) := by
  unfold valueEntry
  refine (ByCalls.ofSchema _).bind fun resolved => ?_
  split
  · exact ByCalls.throw _
  · exact (valueExpression_byCalls env level name resolved _).bind fun _ => ByCalls.pure _

theorem openSingle_byCalls (level : Level) (position : Nat) (relation : Schema.Relation)
    (target : String) : ByCalls (openSingle env level position relation target) := by
  unfold openSingle
  refine (ByCalls.ofSchema _).bind fun mapping => ?_
  refine (ByCalls.ofBuilding (Sql.freshAlias_byCalls target)).bind fun tableAlias => ?_
  refine (ByCalls.ofBuilding (Schema.join_byCalls _ _ _ _)).bind fun q => ?_
  exact openLevel_byCalls env _ none _

mutual

theorem entry_byCalls (opened : Opened) (p : Progress) (position : Nat) : (field : Selection) →
    ByCalls (entry env opened p position field)
  | .scalar name => by
    rw [entry]
    exact valueEntry_byCalls env opened.level p name
  | .nested name selection => by
    rw [entry]
    refine (ByCalls.ofSchema _).bind fun resolved => ?_
    split
    · exact ByCalls.throw _
    · split
      · exact ByCalls.pure _
      · exact (openSingle_byCalls env _ _ _ _).bind fun child =>
          (entries_byCalls child child.progress 0 selection).bind fun _ => ByCalls.pure _

theorem entries_byCalls (opened : Opened) (p : Progress) (position : Nat) :
    (fields : List Selection) → ByCalls (entries env opened p position fields)
  | [] => by
    rw [entries]
    exact ByCalls.pure _
  | field :: fields => by
    rw [entries]
    exact (entry_byCalls opened p position field).bind fun p' =>
      entries_byCalls opened p' (position + 1) fields

end

theorem compileLevel_byCalls (level : Level) (filter : Option Schema.TypeFilter) (q : Sql.Query)
    (fields : List Selection) : ByCalls (compileLevel env level filter q fields) := by
  unfold compileLevel
  exact (openLevel_byCalls env level filter q).bind fun opened =>
    (entries_byCalls env opened opened.progress 0 fields).bind fun _ => ByCalls.pure _

/-! ### Root statements -/

theorem addRequestFilter_byCalls (tableAlias : String) (q : Sql.Query) (filter : Object) :
    ByCalls (addRequestFilter tableAlias q filter) := by
  induction filter generalizing q with
  | nil => exact ByCalls.pure _
  | cons item filter ih =>
    exact (ByCalls.ofBuilding (q.andWhereWith_byCalls _ _)).bind fun q => ih q

theorem rootLevel_byCalls (request : Request) (filter : Option Schema.TypeFilter) :
    ByCalls (rootLevel env request filter) := by
  unfold rootLevel
  refine (ByCalls.ofSchema _).bind fun mapping => ?_
  refine (ByCalls.ofBuilding (Sql.freshAlias_byCalls _)).bind fun tableAlias => ?_
  refine (compileLevel_byCalls env _ filter _ request.fields).bind fun ⟨q, select, plan⟩ => ?_
  refine (addRequestFilter_byCalls tableAlias q request.filter).bind fun q => ?_
  exact (ByCalls.ofSql _).bind fun sql => ByCalls.pure _

/-! ### Follow-up statements -/

theorem keyCondition_byCalls (tableAlias : String) (index component : Nat)
    (parts : List (String × Json)) :
    Building.ByCalls (keyCondition tableAlias index component parts) := by
  induction parts generalizing component with
  | nil => exact Building.ByCalls.pure _
  | cons part parts ih =>
    exact (Sql.bind_byCalls _ part.2).bind fun _ =>
      (ih (component + 1)).bind fun _ => Building.ByCalls.pure _

theorem keyConditions_byCalls (tableAlias : String) (columns : List String) (index : Nat)
    (keys : List (List Json)) :
    Building.ByCalls (keyConditions tableAlias columns index keys) := by
  induction keys generalizing index with
  | nil => exact Building.ByCalls.pure _
  | cons key keys ih =>
    exact (keyCondition_byCalls tableAlias index 0 _).bind fun _ =>
      (ih (index + 1)).bind fun _ => Building.ByCalls.pure _

theorem restrictParents_byCalls (q : Sql.Query) (tableAlias : String) (columns : List String)
    (keys : List (List Json)) : Building.ByCalls (restrictParents q tableAlias columns keys) := by
  unfold restrictParents
  split
  · exact q.andWhereWith_byCalls _ _
  · exact (keyConditions_byCalls tableAlias _ 0 keys).bind fun _ => Building.ByCalls.pure _

theorem childQuery_byCalls (parentType target : String) (parent child : Schema.TypeMapping)
    (relation : Schema.Relation) (keys : List (List Json)) :
    Building.ByCalls (childQuery env parentType target parent child relation keys) := by
  unfold childQuery
  split
  · refine (Sql.freshAlias_byCalls target).bind fun tableAlias => ?_
    exact (Sql.Query.andWhereWith_byCalls _ _ _).bind fun q => Building.ByCalls.pure _
  · refine (Sql.freshAlias_byCalls parentType).bind fun parentAlias => ?_
    refine (Sql.freshAlias_byCalls target).bind fun tableAlias => ?_
    refine (restrictParents_byCalls _ parentAlias parent.key keys).bind fun q => ?_
    exact (Schema.join_byCalls parentAlias tableAlias q relation.join).bind fun q =>
      Building.ByCalls.pure _

theorem followUpLevel_byCalls (many : ManyPlan) (parent child : Schema.TypeMapping)
    (relation : Schema.Relation) (keys : List (List Json)) :
    ByCalls (followUpLevel env many parent child relation keys) := by
  unfold followUpLevel
  refine (ByCalls.ofBuilding (childQuery_byCalls env _ _ parent child relation keys)).bind
    fun children => ?_
  refine (compileLevel_byCalls env _ none children.query many.selection).bind
    fun ⟨q, select, plan⟩ => ?_
  refine (ByCalls.ofSql _).bind fun inner => ?_
  refine (ByCalls.ofBuilding (Sql.freshAlias_byCalls "page")).bind fun tableAlias => ?_
  exact (ByCalls.ofBuilding (Sql.bind_byCalls "pageLimit" _)).bind fun param => ByCalls.pure _

end Plan

end ObjectGraph
