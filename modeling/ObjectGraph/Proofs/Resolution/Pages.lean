import ObjectGraph.Proofs.Resolution.Shape
import ObjectGraph.Proofs.Schema.Built

/-! # The pages of an answer

A list with paging is answered with a page, and the page tells whether there may be more after it.
Its size is the smaller of the limits of the paging and of the relation itself.  Where that size is
not zero, a page tells that there is more if and only if there are objects in it, as many as its
size, whether or not anything was asked for it (`TellsMore`); this holds of every page of an answer
(`pages_tell_more`).

A page of size zero is the exception: it has no objects, and yet it is full. -/

namespace ObjectGraph

namespace Resolution

open Plan (Environment ownLimit pageCap)
open Schema (Draft Relation Resolved)

/-! ### One page -/

/-- What a page tells of what comes after it: the page has `count` objects, its paging has the
limit `limit`, and no page of the list has more objects than `size`. -/
structure TellsMore (limit size count : Nat) (hasNext : Bool) : Prop where
  exact : size ≠ 0 → (hasNext = true ↔ count ≠ 0 ∧ count = size)
  filled : count ≠ 0 → (hasNext = true ↔ count = size)
  /-- An empty page is full where its size is zero; a list that nothing was asked for is measured by
  the limit of the paging alone. -/
  empty : count = 0 → (hasNext = true ↔ size = 0) ∨ (hasNext = true ↔ limit = 0)

/-- The size of a page is at most the limit of its paging. -/
theorem pageCap_le {paging : Paging} {own : Option Nat} {ceiling : Nat} :
    pageCap (some paging) own ceiling ≤ paging.limit := by
  cases own with
  | none => exact Nat.le_refl _
  | some own => exact Nat.min_le_left _ _

theorem hasNext_iff {paging : Paging} (hoverride : paging.hasNextOverride = none) {count : Nat} :
    paging.hasNext count = true ↔ count = paging.limit := by
  unfold Paging.hasNext
  rw [hoverride]
  exact beq_iff_eq

/-- A page tells as much if it was asked for, and if not. -/
theorem tellsMore_sized {paging : Paging} (hoverride : paging.hasNextOverride = none)
    {own size : Option Nat} {ceiling count : Nat}
    (hsize : (count = 0 ∧ size = none) ∨ size = some (pageCap (some paging) own ceiling)) :
    ∃ paging', sized size (some paging) = some paging' ∧
      TellsMore paging.limit (pageCap (some paging) own ceiling) count (paging'.hasNext count) := by
  have hle : pageCap (some paging) own ceiling ≤ paging.limit := pageCap_le
  rcases hsize with ⟨rfl, rfl⟩ | rfl
  · refine ⟨paging, rfl, ?_, fun h => absurd rfl h, fun _ => .inr ?_⟩
    · intro hroom
      rw [hasNext_iff hoverride]
      omega
    · rw [hasNext_iff hoverride]
      exact eq_comm
  · refine ⟨paging.capped _, rfl, ?_⟩
    have hnext : (paging.capped (pageCap (some paging) own ceiling)).hasNext count = true ↔
        count = pageCap (some paging) own ceiling := by
      rw [hasNext_iff (show (paging.capped _).hasNextOverride = none from hoverride)]
      change count = min paging.limit _ ↔ _
      rw [Nat.min_eq_right hle]
    refine ⟨fun hroom => ?_, fun _ => hnext, fun hempty => .inl ?_⟩
    · rw [hnext]
      omega
    · rw [hnext, hempty]
      exact eq_comm

/-! ### The pages of a request -/

/-- A connection with some edges that tells whether there is more after them. -/
def IsPage (value : Json) (edges : List Json) (hasNext : Bool) : Prop :=
  ∃ info, value = .obj
    [("edges", .arr edges), ("pageInfo", .obj (("hasNextPage", .bool hasNext) :: info))]

/-- That what a relation leads to has the shape of its objects, and is a page that tells whether
there is more after it, where the relation has paging that leaves this to the page being full. -/
def inPages (env : Environment) : RelationSpec := fun resolved relation shape value =>
  RelationShape shape resolved relation value ∧
    ∀ paging, relation.many = true → resolved.paging? = some paging →
      paging.hasNextOverride = none →
      ∃ target edges hasNext,
        env.registry.lookup (resolved.view.getD relation.target) = .ok target ∧
        IsPage value edges hasNext ∧
        TellsMore paging.limit
          (pageCap (some paging) (ownLimit env.caller relation target)
            env.settings.maxRelationRows)
          edges.length hasNext

section

variable {draft : Draft} {env : Environment}

theorem inPages_sound (hbuilt : draft.build = .ok env.registry) : (inPages env).Sound env where
  absent := by
    intro resolved relation shape hmany
    refine ⟨(inShape_sound env).absent hmany, fun paging hlist => ?_⟩
    cases hmany.symm.trans hlist
  single := by
    intro resolved relation shape object hmany hobject
    refine ⟨(inShape_sound env).single hmany hobject, fun paging hlist => ?_⟩
    cases hmany.symm.trans hlist
  list := by
    intro typeName name resolved relation shape children size hr hn hmany hpage hchildren
    refine ⟨(inShape_sound env).list hr hn hmany hpage hchildren, ?_⟩
    intro paging _ hpaging hoverride
    obtain ⟨target, htarget⟩ := Draft.target_registered hbuilt hr hn
    have hsize : (children.length = 0 ∧ size = none) ∨ size = some (pageCap (some paging)
        (ownLimit env.caller relation target) env.settings.maxRelationRows) := by
      refine hpage.imp_right ?_
      rintro ⟨target', htarget', hsize⟩
      cases htarget.symm.trans htarget'
      rw [← hpaging]
      exact hsize
    obtain ⟨paging', hsized, htells⟩ := tellsMore_sized hoverride hsize
    rw [hpaging, hsized]
    refine ⟨target, children.map (Connection.edge paging'), paging'.hasNext children.length,
      htarget, ⟨_, rfl⟩, ?_⟩
    rw [List.length_map]
    exact htells

/-- Every page of an answer tells whether there is more after it. -/
theorem pages_tell_more {request : Request} {filter : Option Schema.TypeFilter} {storage : Storage}
    (hbuilt : draft.build = .ok env.registry) {objects : List Object} {log : List Sql.Statement}
    (h : (answer env request filter).outcome storage = (.ok objects, log)) :
    ∀ object ∈ objects,
      Reads env storage (inPages env) request.typeName request.fields object := by
  have hends : Session.Ends storage (answer env request filter) _ _ :=
    answer_reads_ends (inPages_sound hbuilt)
  have hends := hends []
  change (answer env request filter) storage [] = _ at h
  rw [h] at hends
  exact hends

end

/-! ### An instance

The comments of a post are paged, two at a time, and the relation itself lets none of them through:
the size of a page is zero. -/

namespace NoRoom

def commentsOf : Relation :=
  { target := "Comment", many := true, join := .limitedColumns "id" "postId" 0 }

def comments : Schema.FieldMapping :=
  { source := .relation commentsOf, paging := some (.ofLimit 2) }

def post : Schema.TypeMapping := { fields := [("comments", comments)] }

def draft : Draft := { types := [("Post", post), ("Comment", {})] }

def environment : Environment :=
  { registry := ⟨[("Post", post), ("Comment", {})], none⟩, settings := {}, caller := {} }

def request : Request :=
  { typeName := "Post", fields := [.nested "comments" [.scalar "body"]] }

/-- One post; the statement for posts mints one alias, that for comments more. -/
def fetch (statement : Sql.Statement) : Except StorageError (List Row) :=
  .ok (if statement.aliases.length = 1 then [[("__key_id", .num (.int 1))]] else [])

/-- The page of a post, as it is answered. -/
def page : Json :=
  .obj [("edges", .arr []), ("pageInfo", .obj [("hasNextPage", .bool true),
    ("hasPreviousPage", .bool false), ("startCursor", .null), ("endCursor", .null)])]

theorem build_draft : draft.build = .ok environment.registry := by
  refine Draft.build_of_checked ?_
  rintro entry htype field hfield
  rcases List.mem_cons.1 htype with rfl | h
  · rw [List.mem_singleton.1 hfield]
    rfl
  · rw [List.mem_singleton.1 h] at hfield
    cases hfield

theorem answer_page :
    ((answer environment request none).outcome (.ofFunction .sqlite fetch)).1.toOption.map
      (List.map (Option.map (Json.same page) ∘ fun post : Object => post.get? "comments")) =
        some [some true] := by
  decide +kernel

end NoRoom

/-- An empty page of size zero tells that there is more after it. -/
theorem pages_tell_more_empty :
    pageCap (some (.ofLimit 2)) (ownLimit NoRoom.environment.caller NoRoom.commentsOf {})
        NoRoom.environment.settings.maxRelationRows = 0 ∧
      ∃ objects log, (answer NoRoom.environment NoRoom.request none).outcome
          (.ofFunction .sqlite NoRoom.fetch) = (.ok objects, log) ∧
        objects.map (Option.map (Json.same NoRoom.page) ∘ fun post : Object =>
          post.get? "comments") = [some true] ∧
        ∀ object ∈ objects, Reads NoRoom.environment (.ofFunction .sqlite NoRoom.fetch)
          (inPages NoRoom.environment) "Post" NoRoom.request.fields object := by
  have hpage := NoRoom.answer_page
  rcases h : (answer NoRoom.environment NoRoom.request none).outcome
    (.ofFunction .sqlite NoRoom.fetch) with ⟨e | objects, log⟩
  · rw [h] at hpage
    cases hpage
  · rw [h] at hpage
    exact ⟨rfl, objects, log, rfl, Option.some.inj hpage, pages_tell_more NoRoom.build_draft h⟩

end Resolution

end ObjectGraph
