import ObjectGraph.Proofs.Resolution.Withheld
import ObjectGraph.Proofs.Sql.Binding

/-! # Noninterference

What an anonymous caller is answered, and which statements are issued on the way, does not depend on
values that are withheld: two storages whose rows differ only behind a veil lead to the same outcome
(`answer_noninterference`).  The rounds build graphs that differ only behind the veil, and the nodes
of such graphs are finished with the same outputs (`finishWithin_veiled`): a list shows the cursors
of its objects besides their outputs, and these ignore what is hidden (`ofPaging_congr`). -/

namespace ObjectGraph

/-! ### Look-ups -/

theorem length_aliases_lookupStatement (table column : String) (value : Json) :
    (lookupStatement table column value).aliases.length = 1 :=
  congrArg List.length (Sql.aliases_bindTemplate ⟨[_], []⟩ _ [("lookupValue", value)])

namespace Resolution

open ObjectGraph.Graph (AgreeBut Link Node NodeId Veil VeiledFields VeiledGraph VeiledRow)
open Outcome (Same)
open Plan (Environment Compiled FieldPlan ManyPlan NodePlan Occurs PlannedFor)
open Session (InStep)

variable {env : Environment} {root : NodePlan} {veil : Veil} {storage storage' : Storage}

/-! ### Related objects -/

/-- Finished objects with the same output, whose rows agree but for hidden values. -/
def FinishedBut (hidden : String → Prop) (x x' : Finished) : Prop :=
  x.output = x'.output ∧ AgreeBut hidden x.row x'.row

theorem map_congr_forall₂ {α β γ : Type} {R : α → β → Prop} {f : α → γ} {f' : β → γ} {xs : List α}
    {ys : List β} (h : List.Forall₂ R xs ys) (hf : ∀ x y, R x y → f x = f' y) :
    xs.map f = ys.map f' := by
  induction h with
  | nil => rfl
  | cons hxy _ ih => rw [List.map_cons, List.map_cons, hf _ _ hxy, ih]

theorem ofPaging_congr {hidden : String → Prop} {paging : Option Paging} {xs ys : List Finished}
    (h : List.Forall₂ (FinishedBut hidden) xs ys)
    (hpaging : ∀ p, paging = some p → p.Ignores hidden) :
    Connection.ofPaging paging xs = Connection.ofPaging paging ys := by
  cases paging with
  | none =>
    refine congrArg Json.arr (map_congr_forall₂ h fun x y hxy => ?_)
    rw [hxy.1]
  | some p =>
    have hcursor : ∀ x y, FinishedBut hidden x y → p.cursor x.row = p.cursor y.row :=
      fun x y hxy => hpaging p rfl x.row y.row hxy.2
    have hedges : xs.map (Connection.edge p) = ys.map (Connection.edge p) := by
      refine map_congr_forall₂ h fun x y hxy => ?_
      unfold Connection.edge
      rw [hxy.1, hcursor x y hxy]
    have hcursors : xs.map (fun x => p.cursor x.row) = ys.map fun x => p.cursor x.row :=
      map_congr_forall₂ h hcursor
    have hof : ∀ x : Option Finished, Connection.cursorOf p x =
        Json.ofOption .str (x.map fun c => p.cursor c.row).join := by
      intro x
      cases x <;> rfl
    have hinfo : Connection.pageInfo p xs = Connection.pageInfo p ys := by
      unfold Connection.pageInfo
      rw [hof, hof, hof, hof, ← List.head?_map, ← List.head?_map, ← List.getLast?_map,
        ← List.getLast?_map, hcursors, h.length_eq]
    change Connection.page p xs = Connection.page p ys
    unfold Connection.page
    rw [hedges, hinfo]

/-- What a finished node is worth on both sides. -/
def Finishes (veil : Veil) (storage storage' : Storage) (g : Graph)
    (finish finish' : NodeId → Session Fault Finished) (id : NodeId) : Prop :=
  InStep storage storage' (fun x x' => x.output = x'.output ∧
      ∀ node, g.nodes[id]? = some node → AgreeBut (veil node.plan.origin) x.row x'.row)
    (finish id) (finish' id)

section

variable {g : Graph} {finish finish' : NodeId → Session Fault Finished}
  (hfinish : ∀ id, Finishes veil storage storage' g finish finish' id) {plan : NodePlan}
  {field : FieldPlan NodePlan}

include hfinish

/-- Nodes make the same list, if its cursors are not read from what may differ in their rows. -/
theorem linkMany_veiled (hidden : String → Prop) {children : List NodeId} {size : Option Nat}
    (hrows : ∀ id ∈ children, ∀ x x' : Finished, (∀ node, g.nodes[id]? = some node →
      AgreeBut (veil node.plan.origin) x.row x'.row) → AgreeBut hidden x.row x'.row)
    (hpaging : ∀ p, field.kind.paging? plan.many = some p → p.Ignores hidden) :
    InStep storage storage' Eq (Graph.linkValue finish plan field (.many children size))
      (Graph.linkValue finish' plan field (.many children size)) := by
  have hall : InStep storage storage' (List.Forall₂ (FinishedBut hidden)) (children.mapM finish)
      (children.mapM finish') := by
    refine InStep.mapM (List.forall₂_same.2 fun id hmem => ?_)
    exact (hfinish id).mono fun x x' hx => ⟨hx.1, hrows id hmem x x' hx.2⟩
  unfold Graph.linkValue
  refine hall.bind fun xs ys hxs => InStep.pure (congrArg some (ofPaging_congr hxs ?_))
  cases size with
  | none => exact hpaging
  | some size =>
    -- a smaller page has the same cursors
    intro q hq
    obtain ⟨p, hp, rfl⟩ := Option.map_eq_some_iff.1 hq
    exact hpaging p hp

/-- A link leads to the same value, if the cursors of a list are not read from hidden values. -/
theorem linkValue_veiled {link : Link}
    (hcursor : ∀ children size p, link = .many children size →
      field.kind.paging? plan.many = some p → ∃ origin, p.Ignores (veil origin) ∧
        ∀ id ∈ children, ∃ node, g.nodes[id]? = some node ∧ node.plan.origin = origin) :
    InStep storage storage' Eq (Graph.linkValue finish plan field link)
      (Graph.linkValue finish' plan field link) := by
  cases link with
  | value => exact InStep.pure rfl
  | pending => exact InStep.throw _
  | single child =>
    cases child with
    | none => exact InStep.pure rfl
    | some id =>
      refine (hfinish id).bind fun x x' hx => InStep.pure ?_
      rw [hx.1]
  | many children size =>
    cases hp : field.kind.paging? plan.many with
    | none =>
      -- without paging no row is looked at, so that everything may be hidden
      refine linkMany_veiled hfinish (fun _ => True) ?_ ?_
      · exact fun _ _ _ _ _ label hl => absurd trivial hl
      · intro p hp'
        cases hp.symm.trans hp'
    | some p =>
      obtain ⟨origin, hignores, horigin⟩ := hcursor children size p rfl hp
      refine linkMany_veiled hfinish (veil origin) ?_ ?_
      · intro id hmem x x' hx
        obtain ⟨node, hn, ho⟩ := horigin id hmem
        exact ho ▸ hx node hn
      · intro q hq
        cases hp.symm.trans hq
        exact hignores

end

/-! ### All nodes -/

section

variable {selections : List Selection} {round : Nat} {g g' : Graph}
  (hroot : PlannedFor env selections root) (hbuiltin : env.registry.BuiltIn)
  (hcaller : env.caller.user = none) (hwithheld : Withheld env root veil)
  (hlookup : ∀ log table column value, storage.answer log (lookupStatement table column value) =
    storage'.answer log (lookupStatement table column value))

include hwithheld

/-- The cursors of a list that was attached are not read from hidden values. -/
theorem Kept.cursors_ignore (hkept : Kept env root round [] g) {id : NodeId} {node : Node}
    (hn : g.nodes[id]? = some node) {entry : FieldPlan NodePlan × Link}
    (he : entry ∈ node.plan.fields.zip node.links) {children : List NodeId} {size : Option Nat}
    {p : Paging} (hlink : entry.2 = .many children size)
    (hp : entry.1.kind.paging? node.plan.many = some p) :
    ∃ origin, p.Ignores (veil origin) ∧
      ∀ child ∈ children, ∃ node', g.nodes[child]? = some node' ∧ node'.plan.origin = origin := by
  obtain ⟨field, link⟩ := entry
  simp only at hlink hp
  subst hlink
  obtain ⟨i, hi⟩ := List.mem_iff_getElem?.1 he
  obtain ⟨hf, hl⟩ := List.getElem?_zip_eq_some.1 hi
  obtain ⟨sources, h⟩ := hkept
  obtain ⟨source, hs⟩ := h.source hn
  obtain ⟨r, -, ho⟩ := (h.placed hn hs).occurs
  cases hk : field.kind with
  | value =>
    rw [hk] at hp
    cases hp
  | single child =>
    rw [hk] at hp
    cases hp
  | many j =>
    rw [hk] at hp
    obtain ⟨m, hm, hpaging⟩ := Option.bind_eq_some_iff.1 hp
    refine ⟨m.origin, hwithheld.cursors m p ⟨r, i, j, _, field, ho, hf, hk, hm⟩ hpaging, ?_⟩
    intro child hchild
    rcases h.lists ⟨hn, ⟨field, hf, hk⟩, hl⟩ with ⟨hpending, -⟩ | ⟨m', _, _, hm', heq, hclosed⟩
    · cases hpending
    · cases heq
      cases hm.symm.trans hm'
      obtain ⟨keys, compiled, source', hc, hholds⟩ := hclosed.objects child hchild
      obtain ⟨node', hn', hplan⟩ := hholds.node
      refine ⟨node', hn', ?_⟩
      rw [hplan, (Plan.compileMany_plannedFor hc).2]

include hroot hbuiltin hcaller hlookup

/-- Nodes of graphs that differ only behind a veil are finished with the same output. -/
theorem finishWithin_veiled (hkept : Kept env root round [] g) (h : VeiledGraph veil g g')
    (fuel : Nat) (id : NodeId) :
    Finishes veil storage storage' g (g.finishWithin env.caller fuel)
      (g'.finishWithin env.caller fuel) id := by
  unfold Finishes
  induction fuel generalizing id with
  | zero => exact InStep.throw _
  | succ fuel ih =>
    unfold Graph.finishWithin
    have hrel := h.nodes id
    cases hn : g.nodes[id]? with
    | none =>
      rw [hn] at hrel
      generalize g'.nodes[id]? = found at hrel ⊢
      cases hrel
      exact InStep.throw _
    | some node =>
      obtain ⟨node', hn', hnode⟩ := h.node hn
      rw [hn']
      obtain ⟨r, ho⟩ : ∃ r, Occurs env root r node.plan := by
        obtain ⟨sources, hledger⟩ := hkept
        obtain ⟨source, hs⟩ := hledger.source hn
        obtain ⟨r, -, ho⟩ := (hledger.placed hn hs).occurs
        exact ⟨r, ho⟩
      have hfinish := finishNode_veiled hlookup hcaller
        (hwithheld.discreet hroot hbuiltin ho) hnode.plan hnode.links hnode.row
        fun entry he => linkValue_veiled ih
          fun children size p hlink hp => hkept.cursors_ignore hwithheld hn he hlink hp
      refine hfinish.mono ?_
      rintro x x' ⟨houtput, hrow, hrow'⟩
      refine ⟨houtput, ?_⟩
      rintro _ ⟨⟩
      rw [hrow, hrow']
      exact hnode.row

end

/-! ### The answer -/

/-- Noninterference for anonymous callers: where all transforms are built in, the storages answer
with rows that differ only in values behind a veil, and these are withheld, the same statements are
issued and the outcome is the same, the fault included. -/
theorem answer_noninterference {request : Request} {filter : Option Schema.TypeFilter}
    (hcaller : env.caller.user = none) (hbuiltin : env.registry.BuiltIn)
    (hwithheld : ∀ top, Plan.compileRoot env request filter = .ok top →
      Withheld env top.plan veil)
    (hstorage : ∀ top, Plan.compileRoot env request filter = .ok top →
      VeiledStorage env top veil storage storage') :
    (answer env request filter).outcome storage = (answer env request filter).outcome storage' := by
  refine InStep.outcome_eq ?_
  unfold answer
  cases hcompile : Plan.compileRoot env request filter with
  | error e => exact fun log => ⟨.error _, rfl⟩
  | ok top =>
    obtain ⟨hroot, horigin⟩ := Plan.compileRoot_plannedFor hcompile
    have hveil := hwithheld top hcompile
    have hanswers := hstorage top hcompile
    change InStep storage storage' Eq (Session.ofExcept (.ok top) >>= _)
      (Session.ofExcept (.ok top) >>= _)
    rw [Session.ofExcept_bind]
    refine (InStep.fetch hanswers.rows).mapError.bind ?_
    intro rows rows' hrows
    have hempty : VeiledGraph veil {} {} := VeiledGraph.empty
    have hadded := (Graph.addRows_veiled hempty hrows).with_ok
    refine (InStep.ofExcept hadded : InStep storage storage' _ (growing _ _) (growing _ _)).bind ?_
    rintro ⟨roots, g⟩ ⟨roots', g'⟩ ⟨⟨heq, hgraph⟩, hok, -⟩
    simp only at heq
    subst heq
    have hkept := kept_addRows hcompile rows
    rw [show (Graph.addRows top.plan rows).result {} = _ from hok] at hkept
    refine (rounds_veiled hroot horigin hveil.keys hanswers.lists hkept.1 hgraph).bind ?_
    rintro g₁ g₁' ⟨hgraph₁, last, hkept₁⟩
    have hfinish : InStep storage storage' (List.Forall₂ (FinishedBut fun _ => True))
        (roots.mapM (g₁.finish env.caller)) (roots.mapM (g₁'.finish env.caller)) := by
      refine InStep.mapM (List.forall₂_same.2 fun id _ => ?_)
      unfold Graph.finish
      rw [← hgraph₁.size]
      exact (finishWithin_veiled hroot hbuiltin hcaller hveil hanswers.lookups hkept₁ hgraph₁
        _ id).mono fun x x' hx => ⟨hx.1, fun _ hl => absurd trivial hl⟩
    refine hfinish.bind fun xs ys hxs => InStep.pure ?_
    exact map_congr_forall₂ hxs fun _ _ hxy => hxy.1

/-! ### An instance

The comments of a post are paged, and only those who are logged in may read their bodies. -/

namespace Anonymous

def commentsOf : Schema.Relation :=
  { target := "Comment", many := true, join := .columns "id" "postId" }

def commentsField : Schema.FieldMapping :=
  { source := .relation commentsOf, paging := some (.ofLimit 2) }

def bodyField : Schema.FieldMapping :=
  { source := .column none, transform := some (.builtin .nullIfNotLoggedIn) }

def post : Schema.TypeMapping := { fields := [("comments", commentsField)] }

def comment : Schema.TypeMapping := { fields := [("body", bodyField)] }

def registry : Schema.Registry :=
  { types := [("Post", post), ("Comment", comment)], exposed := none }

def environment : Environment := { registry, settings := {}, caller := {} }

def request : Request :=
  { typeName := "Post", fields := [.scalar "title", .nested "comments" [.scalar "body"]] }

/-- A storage with one comment. -/
def commented (body : String) : Storage :=
  .ofFunction .sqlite fun statement =>
    -- only the follow-up takes more than one alias
    .ok (if statement.aliases.length = 1 then
        [[("title", .str "first"), ("__key_id", Json.ofNat 1)]]
      else [[("body", .str body), ("__pk0", Json.ofNat 1)]])

/-- The bodies of the comments. -/
def bodies : Veil := fun place label => place = [1] ∧ label = "body"

def commentList : ManyPlan :=
  Plan.Site.manyPlan ⟨"Post", post, 1, []⟩ 1 "comments"
    { mapping := some commentsField, field := "comments" } commentsOf [.scalar "body"]

def postPlan : NodePlan :=
  ⟨[], "Post", [{ name := "title", kind := .value }, { name := "comments", kind := .many 0 }],
    [commentList]⟩

def commentPlan : NodePlan :=
  ⟨[1], "Comment",
    [{ name := "body", kind := .value, transform := some (.builtin .nullIfNotLoggedIn) }], []⟩

theorem plan_root {top : Compiled} (h : Plan.compileRoot environment request none = .ok top) :
    top.plan = postPlan := by
  obtain ⟨horigin, htype, mapping, hm, hp⟩ := Plan.compileRoot_planned h
  cases hm
  have hplanned : Plan.Planned environment ⟨"Post", post, 1, []⟩ 0 0 request.fields
      postPlan.fields postPlan.many :=
    @Plan.Planned.value _ _ _ _ _ { mapping := none, field := "title" } _ _ _ rfl rfl
      (@Plan.Planned.many _ _ _ _ _ { mapping := some commentsField, field := "comments" }
        commentsOf _ _ _ _ rfl rfl rfl .nil)
  exact hp.plan_eq horigin htype hplanned

theorem plan_comments {keys : List (List Json)} {compiled : Compiled}
    (h : Plan.compileMany environment commentList keys = .ok compiled) :
    compiled.plan = commentPlan := by
  obtain ⟨horigin, htype, mapping, hm, hp⟩ := Plan.compileMany_planned h
  cases hm
  have hplanned : Plan.Planned environment ⟨"Comment", comment, 2, [1]⟩ 0 0 [.scalar "body"]
      commentPlan.fields commentPlan.many :=
    @Plan.Planned.value _ _ _ _ _ { mapping := some bodyField, field := "body" } _ _ _ rfl rfl .nil
  exact hp.plan_eq horigin htype hplanned

theorem occurs_cases {round : Nat} {plan : NodePlan}
    (h : Occurs environment postPlan round plan) : plan = postPlan ∨ plan = commentPlan := by
  induction h with
  | root => exact .inl rfl
  | @single _ i _ _ field _ hi hk ih =>
    have hmem := List.mem_of_getElem? hi
    rcases ih with rfl | rfl
    · simp only [postPlan, List.mem_cons, List.not_mem_nil, or_false] at hmem
      rcases hmem with rfl | rfl <;> cases hk
    · simp only [commentPlan, List.mem_cons, List.not_mem_nil, or_false] at hmem
      subst hmem
      cases hk
  | many _ _ _ hm hc ih =>
    rcases ih with rfl | rfl
    · have hlist := List.mem_singleton.1 (List.mem_of_getElem? hm)
      subst hlist
      exact .inr (plan_comments hc)
    · cases hm

theorem listed_eq {m : ManyPlan} (h : Plan.Listed environment postPlan m) : m = commentList := by
  obtain ⟨round, i, j, plan, field, ho, -, -, hm⟩ := h
  rcases occurs_cases ho with rfl | rfl
  · exact List.mem_singleton.1 (List.mem_of_getElem? hm)
  · cases hm

theorem builtIn : registry.BuiltIn := by
  intro typeName mapping field m ht hf
  have htype := Dictionary.mem_of_lookup ht
  have hfield := Dictionary.mem_of_lookup hf
  simp only [registry, List.mem_cons, Prod.mk.injEq, List.not_mem_nil, or_false] at htype
  rcases htype with ⟨-, rfl⟩ | ⟨-, rfl⟩
  · cases List.mem_singleton.1 hfield
    exact ⟨[], rfl⟩
  · cases List.mem_singleton.1 hfield
    exact ⟨[.nullIfNotLoggedIn], rfl⟩

theorem withheld : Withheld environment postPlan bodies := by
  constructor
  · rintro round plan _ ho ⟨horigin, rfl⟩
    rcases occurs_cases ho with rfl | rfl
    · cases horigin
    · exact ⟨{ mapping := some bodyField, field := "body" }, _, [], rfl, rfl, rfl, rfl, rfl⟩
  · rintro round plan m label ho hm hl ⟨horigin, rfl⟩
    rcases occurs_cases ho with rfl | rfl
    · cases horigin
    · cases hm
  · intro m paging hm hp
    rw [listed_eq hm] at hp ⊢
    cases hp
    refine (Paging.readsColumns_ofLimit 2).ignores ?_
    rintro column hc ⟨-, rfl⟩
    revert hc
    decide

theorem partitionLabel_ne (index : Nat) : Plan.partitionLabel index ≠ "body" := by
  intro h
  have hchars := congrArg String.toList h
  rw [Plan.partitionLabel, String.toList_append] at hchars
  cases hchars

/-- Rows of comments agree but for the bodies. -/
theorem agree (body body' label : String) (hl : label ≠ "body") :
    Dictionary.get? [("body", Json.str body), ("__pk0", Json.ofNat 1)] label =
      Dictionary.get? [("body", Json.str body'), ("__pk0", Json.ofNat 1)] label := by
  simp only [Dictionary.get?, List.lookup_cons, beq_false_of_ne hl]

theorem storage_veiled {top : Compiled} (h : Plan.compileRoot environment request none = .ok top) :
    VeiledStorage environment top bodies (commented "yes") (commented "no") := by
  have haliases : (Plan.compileRoot environment request none).toOption.map
      (fun compiled => compiled.statement.aliases.length) = some 1 := by
    decide +kernel
  rw [h] at haliases
  have hone : top.statement.aliases.length = 1 := Option.some.inj haliases
  constructor
  · intro log
    change Same _ (Except.ok (ite _ _ _)) (Except.ok (ite _ _ _))
    rw [if_pos hone, if_pos hone]
    exact .ok (List.forall₂_same.2 fun row _ => VeiledRow.refl _ row)
  · intro m keys compiled hm hc log
    rw [plan_root h] at hm
    rw [listed_eq hm] at hc
    rw [plan_comments hc]
    change Same _ (Except.ok (ite _ _ _)) (Except.ok (ite _ _ _))
    split
    · exact .ok (List.forall₂_same.2 fun row _ => ⟨VeiledRow.refl _ row, fun _ _ => rfl⟩)
    · have hlabels : ∀ label ∈ compiled.partitionLabels, label ≠ "body" := by
        obtain ⟨-, _, _, _, _, f, _, -, -, -, -, hf, -, -, hlabels, -⟩ := Plan.compileMany_ok hc
        obtain ⟨_, _, _, _, _, _, _, _, _, -, -, -, -, -, -, hrange, -⟩ := Plan.followUpLevel_ok hf
        rw [hlabels, hrange]
        intro label hl
        obtain ⟨index, -, rfl⟩ := List.mem_map.1 hl
        exact partitionLabel_ne index
      refine .ok (.cons ⟨?_, fun label hl => agree _ _ label (hlabels label hl)⟩ .nil)
      unfold commentPlan
      rw [VeiledRow]
      refine VeiledFields.of_agreeBut (fun label hl => agree _ _ label ?_) ?_
      · rintro rfl
        exact hl ⟨rfl, rfl⟩
      · intro field hf child hk
        rw [List.mem_singleton.1 hf] at hk
        cases hk
  · intro log table column value
    change Except.ok (ite _ _ _) = Except.ok (ite _ _ _)
    rw [if_pos (length_aliases_lookupStatement table column value),
      if_pos (length_aliases_lookupStatement table column value)]

end Anonymous

theorem answer_noninterference_bodies :
    (answer Anonymous.environment Anonymous.request none).outcome (Anonymous.commented "yes") =
        (answer Anonymous.environment Anonymous.request none).outcome (Anonymous.commented "no") ∧
      ((answer Anonymous.environment Anonymous.request none).outcome
        (Anonymous.commented "no")).1.toOption.map (List.map Dictionary.keys) =
          some [["title", "comments"]] := by
  refine ⟨?_, ?_⟩
  · have hwithheld : ∀ top, Plan.compileRoot Anonymous.environment Anonymous.request none =
        .ok top → Withheld Anonymous.environment top.plan Anonymous.bodies := by
      intro top h
      rw [Anonymous.plan_root h]
      exact Anonymous.withheld
    refine answer_noninterference rfl Anonymous.builtIn hwithheld ?_
    · intro top h
      exact Anonymous.storage_veiled h
  · decide +kernel

end Resolution

end ObjectGraph
