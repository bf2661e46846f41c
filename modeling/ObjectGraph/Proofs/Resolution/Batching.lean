import ObjectGraph.Proofs.Plan.Quoting
import ObjectGraph.Proofs.Plan.Refusals
import ObjectGraph.Proofs.Plan.StoredKeys
import ObjectGraph.Proofs.Resolution.Finish
import ObjectGraph.Proofs.Resolution.Rounds

/-! # Batches answer what single objects would be answered

`answer` fetches one list for all objects of a place at once.  It succeeds exactly where resolving
every object on its own does, and gives the same answer (`answer_eq_reference`).  The ledger of the
graph is used twice: where all rounds pass, finishing the graph is resolving its rows; where every
object resolves, all rounds pass (`gather_ends` for `Resolves`).

What is asked of a request, that its follow-ups are refused for all keys or for none, holds of all
requests where no SQL is written in the schema (`accepted_of_unwritten`). -/

namespace ObjectGraph

namespace Resolution

open ObjectGraph.Graph (Group NodeId)
open Plan (Environment Compiled NodePlan ManyPlan FieldPlan PlannedFor Occurs)

section

variable {env : Environment} {world : World} {request : Request}
  {filter : Option Schema.TypeFilter} {storage : Storage} {rows : List Row} {root : Compiled}

/-! ### Objects that resolve -/

theorem length_unpack (typeName : String) (fields : List (FieldPlan NodePlan)) (row : Row) :
    (unpack typeName fields row).2.length = fields.length := by
  induction fields generalizing row with
  | nil => rfl
  | cons field fields ih =>
    unfold unpack
    split
    · exact congrArg Nat.succ (ih _)
    · exact congrArg Nat.succ (ih _)

section

variable {blank : List Nat → Option Nat}

/-- Where an object resolves, each of its fields does. -/
theorem relatedValue_some {R : NodePlan → Row → Option Finished} {plan : NodePlan} {source : Row}
    {finished : Finished} (h : resolveWith env world blank R plan source = some finished) {i : Nat}
    {field : FieldPlan NodePlan} (hf : plan.fields[i]? = some field) :
    ∃ packed value, (unpack plan.typeName plan.fields source).2[i]? = some packed ∧
      relatedValue env world blank R plan (unpack plan.typeName plan.fields source).1
        (field, packed) = some value := by
  obtain ⟨values, hvalues, -⟩ := Option.bind_eq_some_iff.1 h
  obtain ⟨hlt, -⟩ := List.getElem?_eq_some_iff.1 hf
  rw [← length_unpack plan.typeName plan.fields source] at hlt
  have hp := List.getElem?_eq_getElem hlt
  have hzip : (plan.fields.zip (unpack plan.typeName plan.fields source).2)[i]? =
      some (field, _) := List.getElem?_zip_eq_some.2 ⟨hf, hp⟩
  obtain ⟨value, -, hv⟩ := Outcome.mapM_some hvalues (List.mem_of_getElem? hzip)
  exact ⟨_, value, hp, hv⟩

variable (env world blank) in
/-- An object resolves with some number of levels. -/
def Resolves (plan : NodePlan) (source : Row) : Prop :=
  ∃ levels finished, resolve env world blank levels plan source = some finished

theorem Resolves.with {plan : NodePlan} {source : Row} (h : Resolves env world blank plan source) :
    ∃ levels finished, resolveWith env world blank (resolve env world blank levels) plan source =
      some finished := by
  obtain ⟨_ | levels, finished, h⟩ := h
  · cases h
  · exact ⟨levels, finished, h⟩

section

variable {plan : NodePlan} {source : Row} {i : Nat} {field : FieldPlan NodePlan}
  (h : Resolves env world blank plan source) (hf : plan.fields[i]? = some field)

include h hf

/-- What is packed into an object that resolves is unpacked, and it resolves. -/
theorem Resolves.single {child : NodePlan} {packed : Option (Option Row)}
    (hk : field.kind = .single child)
    (hp : (unpack plan.typeName plan.fields source).2[i]? = some packed) :
    ∃ related, packed = some related ∧
      ∀ row, related = some row → Resolves env world blank child row := by
  obtain ⟨levels, _, h⟩ := h.with
  obtain ⟨packed', value, hp', hv⟩ := relatedValue_some h hf
  cases hp.symm.trans hp'
  rw [relatedValue_single hk] at hv
  cases packed with
  | none => cases hv
  | some related =>
    refine ⟨related, rfl, ?_⟩
    rintro row rfl
    obtain ⟨finished, hr, -⟩ := Option.map_eq_some_iff.1 hv
    exact ⟨levels, finished, hr⟩

/-- The lists of an object that resolves have statements, and their members resolve. -/
theorem Resolves.list {j : Nat} {m : ManyPlan} {values : List Json} {key : String}
    (hk : field.kind = .many j) (hm : plan.many[j]? = some m)
    (hkey : key? (unpack plan.typeName plan.fields source).1 m.keyLabels = some (values, key)) :
    ∃ own, Plan.compileMany env m [values] = .ok own ∧
      ∀ row ∈ world.children m.origin key, Resolves env world blank own.plan row := by
  obtain ⟨levels, _, h⟩ := h.with
  obtain ⟨packed, value, -, hv⟩ := relatedValue_some h hf
  rw [relatedValue_many hk hm] at hv
  obtain ⟨list, hl, -⟩ := Option.map_eq_some_iff.1 hv
  cases hown : Plan.compileMany env m [values] with
  | error e =>
    rw [related_refused hkey hown] at hl
    cases hl
  | ok own =>
    refine ⟨own, rfl, fun row hrow => ?_⟩
    rw [related_some hkey hown] at hl
    obtain ⟨children, hch, -⟩ := Option.map_eq_some_iff.1 hl
    obtain ⟨finished, -, hr⟩ := Outcome.mapM_some hch hrow
    exact ⟨levels, finished, hr⟩

end

theorem resolves_inherited : Inherited env world (Resolves env world blank) := by
  constructor
  · intro plan child source row i field h hf hk hp
    obtain ⟨_, ⟨⟩, hrow⟩ := h.single hf hk hp
    exact hrow row rfl
  · intro plan source row i j field m values key keys compiled h hf hk hm hkey hc hrow
    obtain ⟨own, hown, hmembers⟩ := h.list hf hk hm hkey
    rw [(Plan.compileMany_uniform hc hown).1]
    exact hmembers row hrow

theorem resolves_sufficient : Sufficient env (Resolves env world blank) := by
  constructor
  · intro plan child source i field h hf hk hp
    obtain ⟨_, ⟨⟩, -⟩ := h.single hf hk hp
  · intro plan source i j field m values key h hf hk hm hkey
    obtain ⟨own, hown, -⟩ := h.list hf hk hm hkey
    exact ⟨own, hown⟩

end

/-! ### The graph of a request -/

/-- All objects of a request are in the graph: its roots are made of the root rows, and no list is
open. -/
def Complete (env : Environment) (world : World) (plan : NodePlan) (Q : NodePlan → Row → Prop)
    (rows : List Row) (roots : List NodeId) (graph : Graph) : Prop :=
  ∃ last sources, Ledger env (closing env world) plan Q last [] graph sources ∧ graph.waiting = [] ∧
    List.Forall₂ (fun id row => Holds graph sources id plan row) roots rows

theorem gather_ends (hcompile : Plan.compileRoot env request filter = .ok root)
    (haccepted : Accepted env request filter)
    (hserves : Serves env request filter storage world rows) {Q : NodePlan → Row → Prop}
    (hinherited : Inherited env world Q) (hq : ∀ row ∈ rows, Q root.plan row) :
    Session.Ends storage (gather env request root.plan rows)
      (fun p => Complete env world root.plan Q rows p.1 p.2) (fun _ => ¬Sufficient env Q) := by
  obtain ⟨hroot, horigin⟩ := Plan.compileRoot_plannedFor hcompile
  have hempty : Ledger env (closing env world) root.plan Q 0 [] {} [] := Ledger.empty
  have hadded := addRows_runs hroot horigin hinherited hempty .root hq
  refine ((growing_ends hadded).mono (fun _ h => h) fun _ hf => hf.1).bind ?_
  rintro ⟨roots, graph⟩ ⟨sources, ⟨h, -⟩, hroots⟩
  have hbound : request.depth ≤ 0 + request.depth := by omega
  refine (rounds_ends hcompile haccepted hserves hinherited hbound h).bind ?_
  rintro graph' ⟨last, sources', ⟨h', he⟩, hwaiting⟩
  exact Session.Ends.pure ⟨last, sources', h', hwaiting, hroots.imp fun _ _ hh => hh.mono he⟩

/-- The answer to a request, after its root statement. -/
theorem answer_apply (hcompile : Plan.compileRoot env request filter = .ok root)
    (hserves : Serves env request filter storage world rows) :
    (answer env request filter).outcome storage =
      (gather env request root.plan rows >>= finishRoots env.caller) storage [root.statement] := by
  unfold Session.outcome answer
  rw [hcompile, Session.bind_apply]
  change (Session.mapError Fault.storage (Session.fetch root.statement) >>= _) storage [] = _
  rw [Session.bind_apply]
  unfold Session.mapError Session.fetch
  simp only [hserves.root root hcompile]
  unfold gather
  rw [bind_assoc]
  simp only [bind_assoc, pure_bind]
  rfl

/-! ### Answers -/

theorem reference_ok {blank : List Nat → Option Nat}
    (hcompile : Plan.compileRoot env request filter = .ok root) :
    reference env world blank request.depth request filter rows =
      (rows.mapM (resolve env world blank request.depth root.plan)).map
        (List.map Finished.output) := by
  unfold reference
  rw [hcompile, Option.map_eq_bind]
  rfl

/-- A complete graph gives the answer of the reference. -/
theorem finishRoots_gives {Q : NodePlan → Row → Prop} {roots : List NodeId} {graph : Graph}
    (hcompile : Plan.compileRoot env request filter = .ok root)
    (hserves : Serves env request filter storage world rows)
    (h : Complete env world root.plan Q rows roots graph) :
    ∃ blank, PageSizes env root.plan blank ∧
      Session.Gives storage (finishRoots env.caller (roots, graph))
        (reference env world blank request.depth request filter rows) := by
  obtain ⟨hroot, horigin⟩ := Plan.compileRoot_plannedFor hcompile
  obtain ⟨last, sources, h, hwaiting, hroots⟩ := h
  obtain ⟨blank, hsizes, hreports⟩ := exists_reports hroot horigin h hwaiting
  refine ⟨blank, hsizes, ?_⟩
  rw [reference_ok hcompile]
  refine (Session.Gives.mapM (hroots.imp fun id row hh => ?_)).map
  refine finish_gives hserves.lookup h hwaiting hreports hh hroot ?_
  unfold Request.depth
  omega

/-- A request is answered as resolving every object on its own with just the levels of the request
answers it, and exactly where that does. -/
theorem answer_eq_depth (hserves : Serves env request filter storage world rows)
    (haccepted : Accepted env request filter) :
    ∃ blank : List Nat → Option Nat,
      (∀ root, Plan.compileRoot env request filter = .ok root →
        PageSizes env root.plan blank) ∧
      ((answer env request filter).outcome storage).1.toOption =
        reference env world blank request.depth request filter rows := by
  cases hcompile : Plan.compileRoot env request filter with
  | error e =>
    refine ⟨fun _ => none, (fun _ hroot => nomatch hroot), ?_⟩
    unfold answer reference
    rw [hcompile]
    rfl
  | ok root =>
    rw [answer_apply hcompile hserves, Session.bind_apply]
    cases hgather : gather env request root.plan rows storage [root.statement] with
    | mk result log =>
      cases result with
      | ok p =>
        have hinherited : Inherited env world fun _ _ => True :=
          ⟨fun _ _ _ _ => trivial, fun _ _ _ _ _ _ _ => trivial⟩
        have hends := gather_ends hcompile haccepted hserves hinherited
          (fun _ _ => trivial) [root.statement]
        rw [hgather] at hends
        obtain ⟨blank, hsizes, hgives⟩ := finishRoots_gives hcompile hserves hends
        refine ⟨blank, ?_, hgives log⟩
        rintro _ ⟨⟩
        exact hsizes
      | error e =>
        refine ⟨fun _ => none, fun _ _ _ _ => .inl rfl, ?_⟩
        -- the reference fails too: otherwise its objects would have carried the rounds through
        cases href : reference env world (fun _ => none) request.depth request filter rows with
        | none => rfl
        | some objects =>
          rw [reference_ok hcompile] at href
          obtain ⟨finished, hfinished, -⟩ := Option.map_eq_some_iff.1 href
          have hresolves : ∀ row ∈ rows, Resolves env world (fun _ => none) root.plan row := by
            intro row hrow
            obtain ⟨value, -, hv⟩ := Outcome.mapM_some hfinished hrow
            exact ⟨_, value, hv⟩
          have hends := gather_ends hcompile haccepted hserves resolves_inherited hresolves
            [root.statement]
          rw [hgather] at hends
          exact absurd resolves_sufficient hends

/-- A request is answered exactly where resolving every object on its own answers it, and then in
the same way, however many levels of objects are resolved beyond those of the request: only the size
that an empty page of an object without a key is reported with is left open, between that of its
paging and that of the follow-ups of its place. -/
theorem answer_eq_reference (hserves : Serves env request filter storage world rows)
    (haccepted : Accepted env request filter) :
    ∃ blank : List Nat → Option Nat,
      (∀ root, Plan.compileRoot env request filter = .ok root →
        PageSizes env root.plan blank) ∧
      ∀ levels, request.depth ≤ levels →
        ((answer env request filter).outcome storage).1.toOption =
          reference env world blank levels request filter rows := by
  obtain ⟨blank, hsizes, hanswer⟩ := answer_eq_depth hserves haccepted
  exact ⟨blank, hsizes, fun levels hlevels => hanswer.trans (reference_levels hlevels).symm⟩

/-- Where no SQL is written in the schema, follow-ups are refused for all keys or for none. -/
theorem accepted_of_unwritten {draft : Schema.Draft} (hbuilt : draft.build = .ok env.registry)
    (hunwritten : env.registry.Unwritten) : Accepted env request none := by
  have hnever : ∀ typeName name resolved,
      env.registry.resolve typeName name = .ok resolved → resolved.Unaliased :=
    fun typeName name resolved hr => Schema.Draft.resolve_unaliased hbuilt hr
  rintro root hroot m hm keys keys' - - ⟨compiled, hc⟩
  have hplanned := (Plan.compileRoot_plannedFor hroot).1
  cases hc' : Plan.compileMany env m keys' with
  | ok compiled' => exact ⟨compiled', rfl⟩
  | error e =>
    have hbound := hm.bound hbuilt hunwritten hplanned keys' e hc'
    cases hc.symm.trans (Plan.compileMany_refused hnever m keys' keys e hc' hbound)

end

/-! ### An instance

Posts with the comments of their threads, in pages of two. -/

namespace Instance

open Schema (Registry)

/-- The comments of a post: those of its thread. -/
def commentsOf : Schema.Relation :=
  { target := "Comment", many := true, join := .columns "threadId" "threadId" }

def commentsMapping : Schema.FieldMapping :=
  { source := .relation commentsOf, paging := some (.ofLimit 2) }

def post : Schema.TypeMapping := { fields := [("comments", commentsMapping)] }

/-- Posts with comments. -/
def draft : Schema.Draft := { types := [("Post", post), ("Comment", {})] }

def registry : Registry := { types := draft.types, exposed := none }

def environment : Environment := { registry, settings := {}, caller := {} }

def request : Request :=
  { typeName := "Post", fields := [.scalar "title", .nested "comments" [.scalar "body"]] }

/-- Two posts of a thread with one of another between them, and two posts without a thread. -/
def posts : List Row :=
  [ [("title", .str "first"), ("__key_threadId", .str "a")],
    [("title", .str "second"), ("__key_threadId", .str "b")],
    [("title", .str "third"), ("__key_threadId", .str "a")],
    [("title", .str "fourth"), ("__key_threadId", .null)],
    [("title", .str "fifth")] ]

def comment (threadId body : String) (createdAt : Nat) : Row :=
  [("body", .str body), ("createdAt", Json.ofNat createdAt), ("__pk0", .str threadId)]

/-- The comments of three threads, in turns. -/
def comments : List Row :=
  [comment "a" "yes" 1, comment "b" "why" 2, comment "c" "off" 3, comment "a" "no" 4]

/-- The threads that a follow-up is bound to: the values of its parameters, without the size of its
pages. -/
def boundThreads (statement : Sql.Statement) : List String :=
  statement.params.filterMap fun param =>
    if param.1 = "pageLimit" then none else Graph.compositeKey? [param.2]

def threadOf (row : Row) : Option String := Graph.rowKey? row ["__pk0"]

/-- The statement for posts has no parameters; one for comments gives those of its threads. -/
def fetch (statement : Sql.Statement) : Except StorageError (List Row) :=
  .ok (if statement.params.isEmpty then posts
    else comments.filter fun row =>
      (boundThreads statement).any fun thread => threadOf row == some thread)

def world : World where
  children _ key := comments.filter fun row => threadOf row == some key
  lookup := fetch

def commentsField : Schema.Resolved :=
  { mapping := some commentsMapping, field := "comments" }

/-- The list of the comments of a post. -/
def commentList : ManyPlan :=
  Plan.Site.manyPlan ⟨"Post", post, 1, []⟩ 1 "comments" commentsField commentsOf [.scalar "body"]

def postFields : List (FieldPlan NodePlan) :=
  [{ name := "title", kind := .value }, { name := "comments", kind := .many 0 }]

def commentFields : List (FieldPlan NodePlan) := [{ name := "body", kind := .value }]

def postPlan : NodePlan := ⟨[], "Post", postFields, [commentList]⟩

def commentPlan : NodePlan := ⟨[1], "Comment", commentFields, []⟩

theorem plan_root {root : Compiled}
    (hroot : Plan.compileRoot environment request none = .ok root) : root.plan = postPlan := by
  obtain ⟨horigin, htype, mapping, hm, hp⟩ := Plan.compileRoot_planned hroot
  cases hm
  have hcomments : Plan.Planned environment ⟨"Post", post, 1, []⟩ 1 0
      [.nested "comments" [.scalar "body"]] [{ name := "comments", kind := .many 0 }]
      [commentList] :=
    @Plan.Planned.many _ _ _ _ _ commentsField commentsOf _ _ _ _ rfl rfl rfl .nil
  have hposts : Plan.Planned environment ⟨"Post", post, 1, []⟩ 0 0 request.fields postPlan.fields
      postPlan.many :=
    @Plan.Planned.value _ _ _ _ _ { mapping := none, field := "title" } _ _ _ rfl rfl hcomments
  exact hp.plan_eq horigin htype hposts

theorem plan_comments {keys : List (List Json)} {compiled : Compiled}
    (h : Plan.compileMany environment commentList keys = .ok compiled) :
    compiled.plan = commentPlan := by
  obtain ⟨horigin, htype, mapping, hm, hp⟩ := Plan.compileMany_planned h
  cases hm
  have hcomments : Plan.Planned environment ⟨"Comment", {}, 2, [1]⟩ 0 0 [.scalar "body"]
      commentPlan.fields commentPlan.many :=
    @Plan.Planned.value _ _ _ _ _ { mapping := none, field := "body" } _ _ _ rfl rfl .nil
  exact hp.plan_eq horigin htype hcomments

/-- The levels of the request are that of the posts and that of the comments. -/
theorem occurs_cases {round : Nat} {plan : NodePlan} (h : Occurs environment postPlan round plan) :
    plan = postPlan ∨ plan = commentPlan := by
  induction h with
  | root => exact .inl rfl
  | @single _ i _ _ field _ hi hk ih =>
    have hmem := List.mem_of_getElem? hi
    rcases ih with rfl | rfl
    · simp only [postPlan, postFields, List.mem_cons, List.not_mem_nil, or_false] at hmem
      rcases hmem with rfl | rfl <;> cases hk
    · cases List.mem_singleton.1 hmem
      cases hk
  | many _ _ _ hm hc ih =>
    rcases ih with rfl | rfl
    · cases List.mem_singleton.1 (List.mem_of_getElem? hm)
      exact .inr (plan_comments hc)
    · cases hm

theorem listed_eq {m : ManyPlan} (h : Plan.Listed environment postPlan m) : m = commentList := by
  obtain ⟨round, i, j, plan, field, ho, -, -, hm⟩ := h
  rcases occurs_cases ho with rfl | rfl
  · exact List.mem_singleton.1 (List.mem_of_getElem? hm)
  · cases hm

/-- The values that are bound for keys. -/
def boundParams (keys : List (List Json)) : Sql.Params :=
  (Plan.firstComponents keys).zipIdx.map fun item =>
    ("parentKeys" ++ "_" ++ toString item.2, item.1)

theorem childQuery_params {keys : List (List Json)} {children : Plan.ChildQuery} {s : Sql.Scope}
    (h : Plan.childQuery environment "Post" "Comment" post {} commentsOf keys {} = (children, s)) :
    s.params = boundParams keys ∧ children.partition.length = 1 ∧ children.query.items = [] := by
  obtain ⟨rfl, rfl⟩ := Prod.mk.inj h
  refine ⟨?_, rfl, rfl⟩
  have htemplate := @Sql.bindTemplate_in _ "threadId" (Sql.freshAlias "Comment" {}).2
    (Sql.isAlias_aliasFor {} "Comment").1 (Plan.firstComponents keys)
  refine (congrArg (fun p => p.2.params) htemplate).trans ?_
  unfold boundParams
  cases Plan.firstComponents keys with
  | nil => rfl
  | cons value values =>
    obtain ⟨-, -, hparams⟩ := @Sql.bindElements_free (Sql.freshAlias "Comment" {}).2 "parentKeys" 0
      (value :: values) fun _ _ => rfl
    exact hparams

/-- The level of the comments binds nothing. -/
theorem level_scope {q : Sql.Query} {tableAlias : String} {s t : Sql.Scope}
    {p : Sql.Query × Plan.SelectList × NodePlan} (hq : q.items = [])
    (h : Plan.compileLevel environment (Plan.childLevel commentList commentsOf tableAlias) none q
      [.scalar "body"] s = .ok (p, t)) : t = s := by
  obtain ⟨items, source, joins, conditions, ordering, limit⟩ := q
  cases hq
  obtain ⟨p', hrun⟩ : ∃ p', Plan.compileLevel environment
      (Plan.childLevel commentList commentsOf tableAlias) none
      ⟨[], source, joins, conditions, ordering, limit⟩ [.scalar "body"] s = .ok (p', s) := ⟨_, rfl⟩
  rw [hrun] at h
  cases h
  rfl

theorem name_ne (index : Nat) : "parentKeys" ++ "_" ++ toString index ≠ "pageLimit" := by
  intro h
  have hchars := congrArg (fun name : String => name.toList[2]?) h
  simp at hchars

theorem get?_boundParams (keys : List (List Json)) :
    (boundParams keys).get? "pageLimit" = none := by
  refine Dictionary.lookup_eq_none fun hmem => ?_
  obtain ⟨param, hparam, hname⟩ := List.mem_map.1 hmem
  obtain ⟨item, -, rfl⟩ := List.mem_map.1 hparam
  exact name_ne item.2 hname

/-- A follow-up for comments is bound to its keys, and tells the threads under one label. -/
theorem comments_ok {keys : List (List Json)} {compiled : Compiled}
    (h : Plan.compileMany environment commentList keys = .ok compiled) :
    compiled.partitionLabels = ["__pk0"] ∧ ∃ size,
      compiled.statement.params = boundParams keys ++ [("pageLimit", size)] := by
  obtain ⟨-, parent, resolved, relation, child, f, scope, hp, hr, hn, hc, hf, hs, -, hlabels, -⟩ :=
    Plan.compileMany_ok h
  cases hp
  cases hr
  cases hn
  cases hc
  obtain ⟨children, s₁, q, select, s₂, inner, pageAlias, s₃, param, hchildren, hlevel, -, halias,
    hbind, -, hf, -⟩ := Plan.followUpLevel_ok hf
  obtain ⟨hparams, hone, hitems⟩ := childQuery_params hchildren
  obtain rfl := level_scope hitems hlevel
  refine ⟨?_, Json.ofNat f.cap, ?_⟩
  · rw [hlabels, hf, hone]
    rfl
  · have hpage : s₃.params = boundParams keys := by
      cases halias
      exact hparams
    have hfree : s₃.params.get? "pageLimit" = none := by
      rw [hpage]
      exact get?_boundParams keys
    rw [Sql.bind_free hfree] at hbind
    cases hbind
    rw [(Plan.finish_ok hs).1, ← hpage]
    rfl

theorem mem_boundThreads {keys : List (List Json)} {statement : Sql.Statement} {size : Json}
    (h : statement.params = boundParams keys ++ [("pageLimit", size)])
    (hkeys : ∀ key ∈ keys, key.length = 1) {thread : String} :
    thread ∈ boundThreads statement ↔
      ∃ values ∈ keys, Graph.compositeKey? values = some thread := by
  unfold boundThreads
  rw [h, List.mem_filterMap]
  constructor
  · rintro ⟨⟨name, value⟩, hparam, hthread⟩
    rcases List.mem_append.1 hparam with hparam | hparam
    · obtain ⟨⟨first, i⟩, hfirst, heq⟩ := List.mem_map.1 hparam
      cases heq
      refine ⟨[first], ?_, (if_neg (name_ne i)).symm.trans hthread⟩
      rw [Plan.keys_of_one hkeys]
      exact List.mem_map_of_mem (List.mem_of_getElem? (List.mk_mem_zipIdx_iff_getElem?.1 hfirst))
    · cases List.mem_singleton.1 hparam
      cases hthread
  · rintro ⟨values, hvalues, hthread⟩
    rw [Plan.keys_of_one hkeys] at hvalues
    obtain ⟨value, hvalue, rfl⟩ := List.mem_map.1 hvalues
    obtain ⟨i, hi⟩ := List.getElem?_of_mem hvalue
    have hparam : ("parentKeys" ++ "_" ++ toString i, value) ∈ boundParams keys :=
      List.mem_map.2 ⟨(value, i), List.mk_mem_zipIdx_iff_getElem?.2 hi, rfl⟩
    exact ⟨_, List.mem_append_left _ hparam, (if_neg (name_ne i)).trans hthread⟩

theorem root_params : (Plan.compileRoot environment request none).toOption.map
    (fun compiled => compiled.statement.params.isEmpty) = some true := by
  decide +kernel

theorem serves :
    Serves environment request none (.ofFunction .sqlite fetch) world posts := by
  constructor
  case root =>
    intro root hroot
    have hempty := root_params
    rw [hroot] at hempty
    change Except.ok (if root.statement.params.isEmpty then posts else _) = _
    rw [if_pos (Option.some.inj hempty)]
  case followUp =>
    intro root hroot m hm keys hkeys compiled hc log
    obtain rfl := listed_eq (plan_root hroot ▸ hm)
    obtain ⟨hlabels, size, hparams⟩ := comments_ok hc
    have hone : ∀ key ∈ keys, key.length = 1 := by
      intro key hkey
      obtain ⟨row, _, hrow⟩ := hkeys.of_row key hkey
      exact (Graph.keyValues?_spec (key?_eq_some.1 hrow).1).1
    refine ⟨comments.filter fun row => (boundThreads compiled.statement).any
      fun thread => threadOf row == some thread, ?_, ?_⟩
    · have hsome : ¬compiled.statement.params.isEmpty = true := by simp [hparams]
      change Except.ok (if compiled.statement.params.isEmpty then posts else _) = _
      rw [if_neg hsome]
    · rw [hlabels]
      constructor
      case keyed =>
        intro row hrow
        obtain ⟨thread, hthread, hrow⟩ := List.any_eq_true.1 (List.mem_filter.1 hrow).2
        obtain ⟨values, hvalues, hkey⟩ := (mem_boundThreads hparams hone).1 hthread
        exact ⟨values, hvalues, thread, hkey, eq_of_beq hrow⟩
      case exact =>
        intro values hvalues key hkey
        rw [List.filter_filter]
        refine List.filter_congr fun row _ => Bool.and_eq_left_iff_imp.2 fun hrow => ?_
        have hbound := (mem_boundThreads hparams hone).2 ⟨values, hvalues, hkey⟩
        exact List.any_eq_true.2 ⟨key, hbound, hrow⟩
  case lookup =>
    intro log table column value
    rfl

theorem build_draft : draft.build = .ok registry := by
  have htypes : Schema.checkTypes draft.types = .ok () := by
    refine Schema.sorted_forM_ok.2 ?_
    rintro ⟨typeName, mapping⟩ htype
    refine Schema.sorted_forM_ok.2 ?_
    rintro ⟨field, m⟩ hfield
    simp only [draft, post, List.mem_cons, Prod.mk.injEq, List.not_mem_nil, or_false] at htype
    rcases htype with ⟨rfl, rfl⟩ | ⟨rfl, rfl⟩
    · rw [List.mem_singleton] at hfield
      cases hfield
      rfl
    · cases hfield
  change (Schema.checkTypes draft.types >>= fun _ => pure registry) = _
  rw [htypes]
  rfl

theorem unwritten : registry.Unwritten := by
  constructor
  case exposed => rfl
  case filter =>
    intro entry hentry
    simp only [registry, draft, List.mem_cons, List.not_mem_nil, or_false] at hentry
    rcases hentry with rfl | rfl <;> rfl
  case fields =>
    intro entry hentry field hfield
    simp only [registry, draft, List.mem_cons, List.not_mem_nil, or_false] at hentry
    rcases hentry with rfl | rfl
    · cases List.mem_singleton.1 hfield
      exact ⟨rfl, trivial⟩
    · cases hfield

/-- The bodies of the comments of a post. -/
def bodies (post : Object) : Option (List (Option String)) := do
  let page ← (← post.get? "comments").object?
  let edges ← (← page.get? "edges").items?
  pure (edges.map fun edge => do (← (← (← (← edge.object?).get? "node").object?).get? "body").text?)

theorem answer_posts : ∃ objects,
    ((answer environment request none).outcome (.ofFunction .sqlite fetch)).1.toOption =
        some objects ∧
      objects.map Dictionary.keys = List.replicate 5 ["title", "comments"] ∧
      objects.map bodies = [some [some "yes", some "no"], some [some "why"],
        some [some "yes", some "no"], some [], some []] := by
  have hanswer : ((answer environment request none).outcome
      (.ofFunction .sqlite fetch)).1.toOption.map
        (fun objects => (objects.map Dictionary.keys, objects.map bodies)) =
      some (List.replicate 5 ["title", "comments"], [some [some "yes", some "no"],
        some [some "why"], some [some "yes", some "no"], some [], some []]) := by
    decide +kernel
  obtain ⟨objects, hobjects, hboth⟩ := Option.map_eq_some_iff.1 hanswer
  exact ⟨objects, hobjects, Prod.mk.inj hboth⟩

end Instance

/-- The posts of one thread have the same comments, those of another thread have others, and posts
without a thread have none. -/
theorem answer_eq_reference_posts :
    ∃ (blank : List Nat → Option Nat) (objects : List Object),
      (∀ root, Plan.compileRoot Instance.environment Instance.request none = .ok root →
        PageSizes Instance.environment root.plan blank) ∧
      objects.map Instance.bodies = [some [some "yes", some "no"], some [some "why"],
        some [some "yes", some "no"], some [], some []] ∧
      ((answer Instance.environment Instance.request none).outcome
        (.ofFunction .sqlite Instance.fetch)).1.toOption = some objects ∧
      ∀ levels, 2 ≤ levels →
        reference Instance.environment Instance.world blank levels Instance.request none
          Instance.posts = some objects := by
  obtain ⟨blank, hsizes, hanswer⟩ := answer_eq_reference Instance.serves
    (accepted_of_unwritten Instance.build_draft Instance.unwritten)
  obtain ⟨objects, hobjects, -, hbodies⟩ := Instance.answer_posts
  exact ⟨blank, objects, hsizes, hbodies, hobjects,
    fun levels hlevels => (hanswer levels hlevels).symm.trans hobjects⟩

end Resolution

end ObjectGraph
