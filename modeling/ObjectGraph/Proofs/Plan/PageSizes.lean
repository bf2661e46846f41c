import ObjectGraph.Proofs.Plan.Limits
import ObjectGraph.Proofs.Sql.Binding

/-! # How many rows of a parent a follow-up lets through

A follow-up numbers the rows of each parent inside and compares their numbers outside with one
parameter, which is bound to the size of the page (`compileMany_keepsFirst`).  That size is the
least of the limits that are left once the level is compiled (`pageCap_le_iff`).

The join of a relation sets its limit before the filter of the target is applied, and to set a
limit replaces the one before.  So a filter can leave more room than the join gave; `page_bounded`
says exactly when the limit of the join is kept. -/

namespace ObjectGraph

namespace Plan

open Sql (Query)
open Schema (Relation TypeFilter)

/-! ### The size of a page -/

theorem pageCap_le_paging {paging : Paging} {own : Option Nat} {ceiling : Nat} :
    pageCap (some paging) own ceiling ≤ paging.limit := by
  cases own with
  | none => exact Nat.le_refl _
  | some own => exact Nat.min_le_left _ _

/-- A page is within a bound exactly if one of the limits is; the ceiling counts where there is
none. -/
theorem pageCap_le_iff {paging : Option Paging} {own : Option Nat} {ceiling n : Nat} :
    pageCap paging own ceiling ≤ n ↔
      (∃ p, paging = some p ∧ p.limit ≤ n) ∨ (∃ m, own = some m ∧ m ≤ n) ∨
        (paging = none ∧ own = none ∧ ceiling ≤ n) := by
  cases paging with
  | none =>
    cases own with
    | none => simp [pageCap]
    | some own => simp [pageCap]
  | some paging =>
    cases own with
    | none => simp [pageCap]
    | some own =>
      have hmin : min paging.limit own ≤ n ↔ paging.limit ≤ n ∨ own ≤ n := by omega
      simp only [pageCap, Option.some.injEq, exists_eq_left', reduceCtorEq, false_and, or_false]
      exact hmin

/-! ### The statement -/

theorem same_ofNat {held : Json} {n : Nat} (h : held.same (Json.ofNat n) = true) :
    held = Json.ofNat n := by
  cases held with
  | num number =>
    cases number with
    | int value =>
      have hvalue : (value == (n : Int)) = true := h
      rw [eq_of_beq hvalue]
      rfl
    | float value => cases h
  | _ => cases h

/-- The size of a page is bound under the name that is given for it. -/
theorem bind_size {name bound sql : String} {size : Nat} {s t : Sql.Scope}
    (h : Sql.bind name (Json.ofNat size) s = (bound, t)) :
    (t.statement sql).param? bound = some (Json.ofNat size) := by
  rcases Sql.bind_ok h with ⟨rfl, held, hheld, hsame⟩ | ⟨hfree, rfl⟩
  · rw [same_ofNat hsame] at hheld
    exact hheld
  · exact Sql.get?_append hfree

theorem addSelects_limit (q : Query) (select : SelectList) :
    (addSelects q select).limit = q.limit := by
  induction select generalizing q with
  | nil => rfl
  | cons item select ih => exact ih (q.addSelectAs item.2 item.1)

theorem pageQuery_limit {children : ChildQuery} {relation : Relation} {q : Query}
    {select : SelectList} : (pageQuery children relation q select).limit = none := by
  unfold pageQuery
  dsimp only
  change (addSelects (addSelects q.takeOrdering.2 select) _).limit = none
  rw [addSelects_limit, addSelects_limit]
  rfl

/-- A statement keeps the rows of a parent whose number is at most a size: an inner query, without a
limit of its own, numbers the rows in its last item, and what is around it compares the number with
a parameter that is bound to the size. -/
structure KeepsFirst (compiled : Compiled) (size : Nat) : Prop where
  text : ∃ (inner : Query) (partition terms : List String) (text pageAlias param : String),
    inner.render = .ok text ∧ inner.limit = none ∧
    inner.items.getLast? = some ⟨rowNumber partition terms, some rowNumberLabel⟩ ∧
    compiled.partitionLabels = (List.range partition.length).map partitionLabel ∧
    compiled.statement.sql = pageText text pageAlias param compiled.partitionLabels ∧
    compiled.statement.param? param = some (Json.ofNat size)
  pageSize : compiled.pageSize = some size

variable {env : Environment} {many : ManyPlan} {keys : List (List Json)} {compiled : Compiled}

theorem compileMany_keepsFirst (h : compileMany env many keys = .ok compiled) :
    ∃ size, KeepsFirst compiled size := by
  obtain ⟨-, parent, resolved, relation, child, f, scope, -, -, -, -, hf, hfinish, -, hlabels,
    hsize⟩ := compileMany_ok h
  obtain ⟨children, _, q, select, _, text, pageAlias, _, param, -, -, hrender, -, hbind, -,
    hpartition, hsql⟩ := followUpLevel_ok hf
  have hstatement := (finish_ok hfinish).1
  refine ⟨f.cap, ⟨pageQuery children relation q select, children.partition, _, text, pageAlias,
    param, hrender, pageQuery_limit, List.getLast?_concat, ?_, ?_, ?_⟩, hsize⟩
  · rw [hlabels, hpartition]
  · rw [hstatement, hlabels]
    exact hsql
  · rw [hstatement]
    exact bind_size hbind

/-- The size of a page is within the limit of the paging.  It is within the limit of the join
exactly if the paging or what the filter of the target leaves is: a filter that sets a greater
limit, or takes it away, loosens it.  Where no limit is declared, it is the ceiling. -/
theorem page_bounded (h : compileMany env many keys = .ok compiled) :
    ∃ size, KeepsFirst compiled size ∧
      (∀ paging, many.paging = some paging → size ≤ paging.limit) ∧
      ∃ resolved relation target,
        env.registry.resolve many.parentType many.field = .ok resolved ∧
        resolved.relation? = some relation ∧ env.registry.lookup many.target = .ok target ∧
        (∀ n, relation.join.limit? env.caller = some n →
          (size ≤ n ↔
            (∃ paging, many.paging = some paging ∧ paging.limit ≤ n) ∨
            (∃ m, TypeFilter.limitAfter env.caller (some n) target.filter = some m ∧ m ≤ n) ∨
            (many.paging = none ∧ TypeFilter.limitAfter env.caller (some n) target.filter = none ∧
              env.settings.maxRelationRows ≤ n))) ∧
        (many.paging = none → relation.join.limit? env.caller = none →
          TypeFilter.limitAfter env.caller none target.filter = none →
          size = env.settings.maxRelationRows) := by
  obtain ⟨size, hkeeps⟩ := compileMany_keepsFirst h
  obtain ⟨resolved, relation, target, hr, hn, hc, hcap⟩ := compileMany_pageSize h
  have hsize : size = pageCap many.paging (ownLimit env.caller relation target)
      env.settings.maxRelationRows := Option.some.inj (hkeeps.pageSize.symm.trans hcap)
  refine ⟨size, hkeeps, ?_, resolved, relation, target, hr, hn, hc, ?_, ?_⟩
  · intro paging hpaging
    rw [hsize, hpaging]
    exact pageCap_le_paging
  · intro n hjoin
    rw [hsize, pageCap_le_iff, ownLimit, hjoin]
  · intro hpaging hjoin hfilter
    rw [hsize, hpaging, ownLimit, hjoin, hfilter]
    rfl

/-! ### A filter that loosens a limit

The relation of a post to its parts has a limit of three, and the filter of parts sets one of
ten. -/

namespace Loosened

def partsOf : Relation :=
  { target := "Part", many := true
    join := .script [.andWhere (Sql.childHole ++ ".post = " ++ Sql.parentHole ++ ".id") [],
      .limit 3] }

def post : Schema.TypeMapping := { fields := [("parts", { source := .relation partsOf })] }

def part : Schema.TypeMapping := { filter := some (.script [.limit 10]) }

def environment : Environment :=
  { registry := ⟨[("Post", post), ("Part", part)], none⟩, settings := {}, caller := {} }

def parts : ManyPlan :=
  { field := "parts", parentType := "Post", target := "Part", selection := [.scalar "name"]
    keyLabels := ["__key_id"], depth := 2, paging := none, origin := [0] }

theorem compiles : (compileMany environment parts [[.num (.int 1)]]).toOption.isSome = true := by
  decide +kernel

end Loosened

/-- The page has room for more than the three that the join allows. -/
theorem page_bounded_loosened : Loosened.partsOf.join.limit? Loosened.environment.caller = some 3 ∧
    ∃ compiled size, compileMany Loosened.environment Loosened.parts [[.num (.int 1)]] =
        .ok compiled ∧
      KeepsFirst compiled size ∧ ¬size ≤ 3 := by
  refine ⟨rfl, ?_⟩
  cases hcompiled : compileMany Loosened.environment Loosened.parts [[.num (.int 1)]] with
  | error e =>
    have hok := Loosened.compiles
    rw [hcompiled] at hok
    cases hok
  | ok compiled =>
    obtain ⟨size, hkeeps, -, resolved, relation, target, hr, hn, hc, hbound, -⟩ :=
      page_bounded hcompiled
    refine ⟨compiled, size, rfl, hkeeps, ?_⟩
    cases hr
    cases hn
    cases hc
    rw [hbound 3 rfl]
    rintro (⟨paging, hpaging, -⟩ | ⟨m, hm, hle⟩ | ⟨-, hnone, -⟩)
    · cases hpaging
    · cases hm
      omega
    · cases hnone

end Plan

end ObjectGraph
