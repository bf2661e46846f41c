import ObjectGraph.Proofs.Plan.Dropping
import ObjectGraph.Proofs.Plan.Filters
import ObjectGraph.Proofs.Plan.Twins

/-! # Statements that repeated entries leave as they are

The statements for a selection and for one that thins it are refused alike, if none of them lacks a
parameter, and they are the same if every value that was dropped is steady (`compileRoot_same`,
`compileMany_same`).  The two differ at most in the aliases that dropped values took and in the
parameters that they bound. -/

namespace ObjectGraph

namespace Plan

open Outcome (Same)
open Sql (Query Building qualified)
open Schema (Registry Relation Resolved TypeMapping TypeFilter)
open Compiling (Alike)

/-! ### From one scope on -/

/-- Two compilations that start in one scope are alike. -/
def Beside {α β : Type} (exact : Prop) (R : α → β → Prop) (x : Compiling α) (y : Compiling β) :
    Prop :=
  ∀ s : Sql.Scope, Same (fun p q => R p.1 q.1 ∧ (exact → p.2 = q.2)) (x s) (y s)

section

variable {α β γ δ : Type} {exact : Prop} {R : α → β → Prop} {S : γ → δ → Prop} {x : Compiling α}
  {y : Compiling β}

theorem Beside.bind {f : α → Compiling γ} {g : β → Compiling δ} (h : Beside exact R x y)
    (hf : ∀ a b, R a b → Alike exact S (f a) (g b)) : Beside exact S (x >>= f) (y >>= g) := by
  intro s
  refine (h s).bind ?_
  rintro ⟨a, t⟩ ⟨b, t'⟩ ⟨hab, ht⟩
  exact hf a b hab t t' ht

/-- What both begin with is the same. -/
theorem Beside.after {f : α → Compiling γ} {g : α → Compiling δ}
    (h : ∀ a, Beside exact S (f a) (g a)) : Beside exact S (x >>= f) (x >>= g) := by
  intro s
  refine (Same.refl (x s)).bind ?_
  rintro ⟨a, t⟩ _ rfl
  exact h a t

end

/-! ### A level -/

/-- A query, a select list and a plan that are the same up to the place of the plan, or at least up
to the items that are selected. -/
structure LevelSame (exact : Prop) (r r' : Query × SelectList × NodePlan) : Prop where
  query : r.1 = r'.1
  select : exact → r.2.1 = r'.2.1
  empty : r.2.1 = [] ↔ r'.2.1 = []

section

variable {env : Environment} {repeatable : Resolved → Prop} {exact : Prop}
  (hnever : ∀ typeName name resolved, env.registry.resolve typeName name = .ok resolved →
    resolved.Unaliased)
  (hsteady : exact → ∀ resolved, repeatable resolved → Steady env resolved)

include hnever hsteady

theorem compileLevel_beside {level level' : Level} (h : LevelTwin True level level')
    {selections selections' : List Selection}
    (hthins : Thins env.registry repeatable level.typeName [] selections selections')
    (filter : Option TypeFilter) (q : Query) :
    Beside exact (LevelSame exact) (compileLevel env level filter q selections)
      (compileLevel env level' filter q selections') := by
  intro s
  unfold compileLevel
  refine (openLevel_alike h filter (fun _ => rfl) s s fun _ => rfl).bind ?_
  rintro ⟨o, t⟩ ⟨o', t'⟩ ⟨⟨ho, hlevel, -, extras, extras', hp, hp', hextras⟩, ht⟩
  have hexact : OpenedTwin exact o o' := ho.imp fun _ => trivial
  rw [← hlevel] at hthins
  have hstart : Ahead exact True o.progress o'.progress := by
    rw [hp, hp']
    exact Ahead.start (fun _ => hextras trivial) fun _ => hextras trivial
  have hentries : Alike exact (Ahead exact True) (Plan.entries env o o.progress 0 selections)
      (Plan.entries env o' o'.progress 0 selections') :=
    entries_alike hnever hsteady hexact hstart selections hthins fun _ he => absurd he List.not_mem_nil
  refine (hentries t t' fun _ => ht trivial).bind ?_
  rintro ⟨p, u⟩ ⟨p', u'⟩ ⟨hahead, hu⟩
  exact .ok ⟨⟨ho.query trivial, hahead.closeLevel_eq hexact,
    hahead.closeLevel_nil hexact trivial⟩, hu⟩

end

/-! ### Queries -/

/-- Queries that are rendered alike. -/
structure QueryTwin (exact : Prop) (q q' : Query) : Prop where
  source : q.source.isNone = q'.source.isNone
  items : q.items = [] ↔ q'.items = []
  same : exact → q = q'

section

variable {exact : Prop} {q q' : Query}

theorem QueryTwin.refl : QueryTwin exact q q := ⟨rfl, Iff.rfl, fun _ => rfl⟩

theorem QueryTwin.render (h : QueryTwin exact q q') :
    Same (fun text text' => exact → text = text') q.render q'.render := by
  unfold Query.render
  have hitems : q.items.isEmpty = q'.items.isEmpty := by
    rw [Bool.eq_iff_iff, List.isEmpty_iff, List.isEmpty_iff]
    exact h.items
  rw [h.source, hitems]
  split
  · exact .error _
  · split
    · exact .error _
    · exact .ok fun he => by rw [h.same he]

theorem items_addSelects {select : SelectList} :
    (addSelects q select).items = [] ↔ q.items = [] ∧ select = [] := by
  unfold addSelects
  induction select generalizing q with
  | nil => exact ⟨fun h => ⟨h, rfl⟩, And.left⟩
  | cons item select ih =>
    rw [List.foldl_cons, ih]
    exact iff_of_false (fun h => List.append_ne_nil_of_right_ne_nil _ (List.cons_ne_nil _ _) h.1)
      fun h => List.cons_ne_nil _ _ h.2

theorem source_addSelects {select : SelectList} : (addSelects q select).source = q.source := by
  unfold addSelects
  induction select generalizing q with
  | nil => rfl
  | cons item select ih => exact ih

theorem QueryTwin.addSelects (h : QueryTwin exact q q') {select select' : SelectList}
    (hselect : exact → select = select') (hempty : select = [] ↔ select' = []) :
    QueryTwin exact (addSelects q select) (addSelects q' select') := by
  refine ⟨?_, ?_, fun he => by rw [h.same he, hselect he]⟩
  · rw [source_addSelects, source_addSelects, h.source]
  · rw [items_addSelects, items_addSelects, h.items, hempty]

theorem addRequestFilter_alike (tableAlias : String) (filter : Object) (h : QueryTwin exact q q') :
    Alike exact (QueryTwin exact) (addRequestFilter tableAlias q filter)
      (addRequestFilter tableAlias q' filter) := by
  induction filter generalizing q q' with
  | nil => exact Alike.pure h
  | cons item filter ih =>
    obtain ⟨column, value⟩ := item
    unfold addRequestFilter
    refine Alike.bind (R := QueryTwin exact) ?_ fun a b hab => ih hab
    intro s s' hs
    exact .ok ⟨⟨h.source, h.items, fun he => by rw [h.same he, hs he]⟩,
      fun he => by rw [h.same he, hs he]⟩

theorem QueryTwin.rootQuery (h : QueryTwin exact q q') (request : Request) (tableAlias : String)
    {select select' : SelectList} (hselect : exact → select = select')
    (hempty : select = [] ↔ select' = []) :
    QueryTwin exact (rootQuery request tableAlias q select)
      (rootQuery request tableAlias q' select') := by
  unfold Plan.rootQuery
  refine QueryTwin.addSelects ?_ hselect hempty
  cases request.orderBy <;> cases request.limit <;>
    exact ⟨h.source, h.items, fun he => by rw [h.same he]⟩

theorem pageQuery_twin (children : ChildQuery) (relation : Relation) (q : Query)
    {select select' : SelectList} (hselect : exact → select = select')
    (hempty : select = [] ↔ select' = []) :
    QueryTwin exact (pageQuery children relation q select)
      (pageQuery children relation q select') := by
  have hselects : QueryTwin exact (addSelects q.takeOrdering.2 select)
      (addSelects q.takeOrdering.2 select') := QueryTwin.refl.addSelects hselect hempty
  have hlabels := hselects.addSelects (fun _ => rfl)
    (Iff.rfl (a := ((List.range children.partition.length).map partitionLabel).zip
      children.partition = []))
  unfold pageQuery
  refine ⟨hlabels.source, ?_, fun he => by rw [hselect he]⟩
  exact iff_of_false (List.append_ne_nil_of_right_ne_nil _ (List.cons_ne_nil _ _))
    (List.append_ne_nil_of_right_ne_nil _ (List.cons_ne_nil _ _))

end

/-! ### Statements -/

/-- A refusal for a placeholder that no parameter was bound for. -/
def Error.IsUnbound : Error → Prop
  | .sql (.unboundParameter _) => True
  | _ => False

/-- A statement is not refused for a placeholder that no parameter was bound for. -/
def Bound {α : Type} (x : Except Error α) : Prop := ∀ e, x = .error e → ¬e.IsUnbound

section

variable {α β : Type} {x : Except Error α} {f : α → Except Error β} {a : α}

theorem Bound.first (h : Bound (x >>= f)) : Bound x := by
  rintro e rfl
  exact h e rfl

theorem Bound.rest (h : Bound (x >>= f)) (hx : x = .ok a) : Bound (f a) := by
  subst hx
  exact h

/-- Two computations go on with what both begin with. -/
theorem same_after {exact : Prop} {γ : Type} {g : α → Except Error γ} {S : β → γ → Prop}
    (hbound : exact ∨ Bound (x >>= f) ∧ Bound (x >>= g))
    (h : ∀ a, (exact ∨ Bound (f a) ∧ Bound (g a)) → Same S (f a) (g a)) :
    Same S (x >>= f) (x >>= g) := by
  cases x with
  | error e => exact .error e
  | ok a => exact h a hbound

end

/-- A text is finished, or a parameter is missing. -/
theorem finish_bound {sql : String} {s : Sql.Scope} (h : Bound (finish sql s)) :
    finish sql s = .ok (s.statement sql) := by
  have hfinish : finish sql s =
      ((s.statement sql).verifyBound.mapError .sql).bind fun _ => .ok (s.statement sql) := rfl
  rw [hfinish] at h ⊢
  cases hv : (s.statement sql).verifyBound with
  | ok _ => rfl
  | error e =>
    rw [hv] at h
    unfold Sql.Statement.verifyBound at hv
    split at hv
    · cases hv
      exact absurd trivial (h _ rfl)
    · cases hv

theorem finish_same {exact : Prop} {sql sql' : String} {s s' : Sql.Scope}
    (hbound : exact ∨ Bound (finish sql s) ∧ Bound (finish sql' s')) (hsql : exact → sql = sql')
    (hs : exact → s = s') :
    Same (fun statement statement' => exact → statement = statement') (finish sql s)
      (finish sql' s') := by
  rcases hbound with he | ⟨h, h'⟩
  · rw [hsql he, hs he]
    exact (Same.refl _).mono fun _ _ h _ => h
  · rw [finish_bound h, finish_bound h']
    exact .ok fun he => by rw [hsql he, hs he]

section

variable {env : Environment} {repeatable : Resolved → Prop} {exact : Prop}
  (hnever : ∀ typeName name resolved, env.registry.resolve typeName name = .ok resolved →
    resolved.Unaliased)
  (hsteady : exact → ∀ resolved, repeatable resolved → Steady env resolved)

include hnever hsteady

theorem rootLevel_beside {request : Request} {fields' : List Selection}
    (hthins : Thins env.registry repeatable request.typeName [] request.fields fields')
    (filter : Option TypeFilter) :
    Beside exact (fun r r' => exact → r.1 = r'.1) (rootLevel env request filter)
      (rootLevel env { request with fields := fields' } filter) := by
  unfold rootLevel
  refine Beside.after fun mapping => Beside.after fun tableAlias => ?_
  have hroot : LevelTwin True (rootOf request tableAlias) (rootOf request tableAlias) :=
    ⟨rfl, rfl, rfl, rfl, fun _ => rfl⟩
  refine (compileLevel_beside hnever hsteady hroot hthins filter _).bind ?_
  rintro ⟨q, select, plan⟩ ⟨_, select', plan'⟩ ⟨⟨⟩, hselect, hempty⟩
  refine (addRequestFilter_alike tableAlias request.filter QueryTwin.refl).bind fun q₁ q₁' hq => ?_
  refine (Alike.ofSql (hq.rootQuery request tableAlias hselect hempty).render).bind ?_
  intro text text' htext
  exact Alike.pure htext

/-- The root statement of a request whose selection is thinned is the same or refused alike. -/
theorem compileRoot_same {request : Request} {fields' : List Selection}
    (hthins : Thins env.registry repeatable request.typeName [] request.fields fields')
    (filter : Option TypeFilter)
    (hbound : exact ∨ Bound (compileRoot env request filter) ∧
      Bound (compileRoot env { request with fields := fields' } filter)) :
    Same (fun root root' => exact → root.statement = root'.statement)
      (compileRoot env request filter)
      (compileRoot env { request with fields := fields' } filter) := by
  have hdepth : ({ request with fields := fields' } : Request).depth = request.depth := by
    unfold Request.depth
    rw [hthins.depthOf_eq]
  unfold compileRoot at hbound ⊢
  rw [hdepth] at hbound ⊢
  split
  · exact .error _
  · next hle =>
    have hlevel := rootLevel_beside hnever hsteady hthins filter {}
    rw [if_neg hle, if_neg hle] at hbound
    refine hlevel.with_ok.bind ?_
    rintro ⟨⟨sql, plan⟩, scope⟩ ⟨⟨sql', plan'⟩, scope'⟩ ⟨⟨hsql, hscope⟩, hok, hok'⟩
    have hfinish : exact ∨ Bound (finish sql scope) ∧ Bound (finish sql' scope') :=
      hbound.imp_right fun ⟨h, h'⟩ => ⟨(h.rest hok).first, (h'.rest hok').first⟩
    refine (finish_same hfinish hsql hscope).bind fun statement statement' hstatement => ?_
    exact .ok hstatement

theorem followUpLevel_beside {m m' : ManyPlan} (hm : ManyTwin env repeatable m m')
    (parent child : TypeMapping) (relation : Relation) (keys : List (List Json)) :
    Beside exact (fun f f' => exact → f.sql = f'.sql)
      (followUpLevel env m parent child relation keys)
      (followUpLevel env m' parent child relation keys) := by
  -- both lists have the same data, their places and selections apart
  obtain ⟨field, parentType, target, selection, keyLabels, depth, paging, origin⟩ := m
  obtain ⟨_, _, _, selection', _, _, _, origin'⟩ := m'
  obtain ⟨⟨⟩, ⟨⟩, ⟨⟩, ⟨⟩, ⟨⟩, ⟨⟩, hthins⟩ := hm
  unfold followUpLevel
  refine Beside.after fun children => ?_
  let level (origin : List Nat) : Level :=
    childLevel ⟨field, parentType, target, selection, keyLabels, depth, paging, origin⟩ relation
      children.tableAlias
  have hlevel : LevelTwin True (level origin) (level origin') := ⟨rfl, rfl, rfl, rfl, fun _ => rfl⟩
  refine (compileLevel_beside hnever hsteady hlevel hthins none children.query).bind ?_
  rintro ⟨q, select, plan⟩ ⟨_, select', plan'⟩ ⟨⟨⟩, hselect, hempty⟩
  refine (Alike.ofSql (pageQuery_twin children relation q hselect hempty).render).bind ?_
  intro inner inner' hinner
  refine (Alike.ofBuilding fun _ => rfl).bind fun tableAlias tableAlias' ha => ?_
  refine (Alike.ofBuilding fun _ => rfl).bind fun param param' hp => ?_
  exact Alike.pure fun he => by rw [hinner he, ha he, hp he]

/-- The follow-up of a list whose selection is thinned is the same or refused alike. -/
theorem compileMany_same {m m' : ManyPlan} (hm : ManyTwin env repeatable m m')
    (keys : List (List Json))
    (hbound : exact ∨ Bound (compileMany env m keys) ∧ Bound (compileMany env m' keys)) :
    Same (fun compiled compiled' => exact → compiled.statement = compiled'.statement)
      (compileMany env m keys) (compileMany env m' keys) := by
  unfold compileMany at hbound ⊢
  rw [hm.depth, hm.parentType, hm.field, hm.target] at hbound ⊢
  split
  · exact .error _
  · next hle =>
    rw [if_neg hle, if_neg hle] at hbound
    refine same_after hbound fun parent hbound => ?_
    refine same_after hbound fun resolved hbound => ?_
    cases hn : resolved.relation? with
    | none => exact .error _
    | some relation =>
      simp only [hn] at hbound
      refine same_after hbound fun child hbound => ?_
      have hlevel := followUpLevel_beside hnever hsteady hm parent child relation keys {}
      refine hlevel.with_ok.bind ?_
      rintro ⟨f, scope⟩ ⟨f', scope'⟩ ⟨⟨hsql, hscope⟩, hok, hok'⟩
      have hfinish : exact ∨ Bound (finish f.sql scope) ∧ Bound (finish f'.sql scope') :=
        hbound.imp_right fun ⟨h, h'⟩ => ⟨(h.rest hok).first, (h'.rest hok').first⟩
      refine (finish_same hfinish hsql hscope).bind fun statement statement' hstatement => ?_
      exact .ok hstatement

end

end Plan

end ObjectGraph
