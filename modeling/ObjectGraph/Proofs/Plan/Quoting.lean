import Mathlib.Logic.Equiv.Basic
import ObjectGraph.Proofs.Plan.Renaming

/-! # Names stay between their quotes

What a request names shows in its statements between quotes alone, where no SQL is written in the
schema.  A root statement or a follow-up is scanned to lexemes: quoted names, placeholders that are
bound, and symbols of the grammar (`Lexed`).  After a renaming of what is not of the schema, it is
scanned to the same lexemes but for the quoted names (`Compiled.Renamed`). -/

namespace ObjectGraph

namespace Plan

open Sql (Query Scope Params Building IsName Written qualified Lexeme Token)
open Sql.Building (Gives)
open Schema (Registry TypeMapping Relation Resolved)
open Compiling (Renames)

section

variable {env : Environment} {σ : String → String} {s : Scope} {params : Params}

/-! ### The conditions of keys -/

theorem keyCondition_gives {tableAlias : String} (ha : IsName tableAlias) (index component : Nat)
    {pairs : List (String × Json)} (hpairs : ∀ pair ∈ pairs, σ pair.1 = pair.1) :
    Gives s (keyCondition tableAlias index component pairs) fun params terms =>
      List.Forall₂ (Written σ params) terms terms := by
  induction pairs generalizing component s with
  | nil => exact Gives.pure .nil
  | cons pair pairs ih =>
    obtain ⟨column, value⟩ := pair
    unfold keyCondition
    refine (Sql.bind_gives (.parentKey index component) value s).bind fun param t _ hparam => ?_
    refine (ih (component + 1) fun pair hp => hpairs pair (List.mem_cons_of_mem _ hp)).bind
      fun terms u hgrows hterms => ?_
    have hcolumn : σ column = column := hpairs _ List.mem_cons_self
    have hterm := Sql.written_equal ha hcolumn hparam.1 hparam.2
    exact Gives.pure (.cons (hterm.grow hgrows) hterms)

theorem keyConditions_gives {tableAlias : String} (ha : IsName tableAlias) {columns : List String}
    (hcolumns : ∀ c ∈ columns, σ c = c) (index : Nat) (keys : List (List Json)) :
    Gives s (keyConditions tableAlias columns index keys) fun params conditions =>
      List.Forall₂ (Written σ params) conditions conditions := by
  induction keys generalizing index s with
  | nil => exact Gives.pure .nil
  | cons key keys ih =>
    unfold keyConditions
    have hpairs : ∀ pair ∈ columns.zip key, σ pair.1 = pair.1 := fun pair hp =>
      hcolumns _ (List.of_mem_zip hp).1
    refine (keyCondition_gives ha index 0 hpairs).bind fun terms t _ hterms => ?_
    refine (ih (index + 1)).bind fun conditions u hgrows hconditions => ?_
    have hkey := Sql.written_intercalate " AND " (by decide) hterms
    exact Gives.pure (.cons (hkey.grow hgrows) hconditions)

/-- The restriction to parents with some keys. -/
theorem restrictParents_gives {q : Query} {tableAlias : String} (hq : q.Fixed σ s.params)
    (ha : IsName tableAlias) {columns : List String} (hcolumns : ∀ c ∈ columns, σ c = c)
    (keys : List (List Json)) :
    Gives s (restrictParents q tableAlias columns keys) fun params q' => q'.Fixed σ params := by
  have hseveral : Gives s (do
      let conditions ← keyConditions tableAlias columns 0 keys
      pure (q.andWhere (if conditions.isEmpty then "1 = 0"
        else String.intercalate " OR " (conditions.map Sql.parenthesized))))
      fun params q' => q'.Fixed σ params := by
    refine (keyConditions_gives ha hcolumns 0 keys).bind fun conditions t hgrows hconditions => ?_
    refine Gives.pure ((hq.grow hgrows).andWhere ?_)
    split
    · exact Sql.written_plain (by decide)
    · refine Sql.written_intercalate " OR " (by decide) ?_
      rw [List.forall₂_map_left_iff, List.forall₂_map_right_iff]
      exact hconditions.imp fun _ _ => Sql.written_parenthesized
  cases columns with
  | nil => exact hseveral
  | cons column rest =>
    cases rest with
    | cons other rest => exact hseveral
    | nil => exact hq.andWhereWith_gives (Sql.in_gives ha (hcolumns column List.mem_cons_self) _)

/-! ### Follow-ups -/

/-- The query of the children. -/
structure ChildQuery.Kept (σ : String → String) (params : Params) (most : Nat)
    (children : ChildQuery) : Prop where
  query : children.query.Fixed σ params
  tableAlias : IsName children.tableAlias
  partition : List.Forall₂ (Written σ params) children.partition children.partition
  length_le : children.partition.length ≤ most

theorem ChildQuery.Kept.grow {params' : Params} {most : Nat} {children : ChildQuery}
    (h : children.Kept σ params most) (hgrows : params <+: params') :
    children.Kept σ params' most :=
  { h with
    query := h.query.grow hgrows
    partition := h.partition.imp fun _ _ hp => hp.grow hgrows }

theorem childQuery_gives {parentType target typeName field : String} {parent child : TypeMapping}
    {resolved : Resolved} {relation : Relation} (hσ : Renaming env σ)
    (hparent : env.registry.lookup parentType = .ok parent)
    (hchild : env.registry.lookup target = .ok child)
    (hr : env.registry.resolve typeName field = .ok resolved)
    (hn : resolved.relation? = some relation) (keys : List (List Json)) :
    Gives s (childQuery env parentType target parent child relation keys)
      fun params children => children.Kept σ params (max 1 parent.key.length) := by
  have hnames : ∀ c ∈ relation.join.names, σ c = c := fun c hc =>
    hσ.kept.names c (Registry.relation_names hr hn
      (List.mem_cons_of_mem _ (List.mem_append_left _ hc)))
  have htarget := hσ.kept.names _ (Registry.tableName_mem hchild)
  have hcolumns := hσ.unwritten.onColumns hr hn
  unfold childQuery
  cases hjoin : relation.join with
  | condition text limit | script steps =>
    rw [hjoin] at hcolumns
    cases hcolumns
  | columns parentColumn column =>
    rw [hjoin] at hnames
    have hcolumn : σ column = column :=
      hnames column (List.mem_cons_of_mem _ List.mem_cons_self)
    refine (Sql.freshAlias_gives target s).bind fun tableAlias t _ ha => ?_
    refine (Query.Fixed.andWhereWith_gives (.fromTable htarget ha)
      (Sql.in_gives ha hcolumn _)).bind fun q u _ hq => ?_
    exact Gives.pure ⟨hq, ha, .cons (Sql.written_qualified_kept ha hcolumn) .nil,
      Nat.le_max_left _ _⟩
  | limitedColumns parentColumn column limit =>
    have hkey : ∀ c ∈ parent.key, σ c = c := fun c hc =>
      hσ.kept.names c (Registry.mem_names hparent (.inr (Schema.TypeMapping.mem_names_of_key hc)))
    refine (Sql.freshAlias_gives parentType s).bind fun parentAlias t _ hp => ?_
    refine (Sql.freshAlias_gives target t).bind fun tableAlias u _ ha => ?_
    have hq : Query.Fixed σ u.params _ :=
      (Query.Fixed.fromTable (hσ.kept.names _ (Registry.tableName_mem hparent)) hp).crossJoin
        htarget ha
    refine (restrictParents_gives hq hp hkey keys).bind fun q v _ hq => ?_
    rw [← hjoin]
    refine (Schema.JoinRule.apply_gives env.caller hcolumns hnames hp ha hq).bind fun q w _ hq => ?_
    refine Gives.pure ⟨hq, ha, ?_, ?_⟩
    · rw [List.forall₂_map_left_iff, List.forall₂_map_right_iff]
      exact List.forall₂_same.2 fun c hc => Sql.written_qualified_kept hp (hkey c hc)
    · rw [List.length_map]
      exact Nat.le_max_right _ _

/-! ### Levels and their statements -/

/-- What a level is compiled to, and what it is compiled to after a renaming. -/
structure LevelRenamed (σ : String → String) (params : Params)
    (r r' : Query × SelectList × NodePlan) : Prop where
  same : r.1 = r'.1
  query : r.1.Fixed σ params
  select : r.2.1.Renamed σ params r'.2.1
  plan : r'.2.2 = r.2.2.rename σ

theorem compileLevel_renames (level : Level) {q : Query} (hσ : Renaming env σ)
    (ha : IsName level.tableAlias) (hextra : ∀ c ∈ level.extraRequired, σ c = c)
    (hq : q.Fixed σ s.params) (fields : List Selection) :
    Renames σ s (LevelRenamed σ) (compileLevel env level none q fields)
      (compileLevel env level none q (Selection.renameAll σ fields)) := by
  unfold compileLevel
  refine (openLevel_renames hσ.unwritten ha hextra hq).bind ?_
  rintro o _ t ht ⟨rfl, ho, -, hstart⟩
  rw [hstart]
  refine (entries_renames hσ ho progress_start fields).bind fun p p' u hu hp => ?_
  obtain ⟨hselect, hplan⟩ := closeLevel_renamed hσ (ho.grow hu) hp
  exact Renames.pure ⟨rfl, ho.query.grow hu, hselect, hplan⟩

/-- Queries are rendered to texts that are written alike. -/
theorem render_renames {q q' : Query} (h : Query.Renamed σ s.params q q') :
    Renames σ s (Written σ) (Compiling.ofSql q.render) (Compiling.ofSql q'.render) := by
  unfold Query.render
  rw [h.source, h.isEmpty_items]
  split
  · exact Renamed.error (e := .sql .missingFrom) id
  · split
    · exact Renamed.error (e := .sql .emptySelect) id
    · exact Renames.pure h.text

/-- A text is finished where it is written alike: none of its parameters is missing. -/
theorem finish_written {scope : Scope} {sql sql' : String} (h : Written σ scope.params sql sql') :
    finish sql scope = .ok (scope.statement sql) := by
  have hfinish : finish sql scope =
      ((scope.statement sql).verifyBound.mapError .sql).bind fun _ => .ok (scope.statement sql) :=
    rfl
  rw [hfinish, h.verifyBound]
  rfl

theorem addRequestFilter_renames {tableAlias : String} {q : Query} (ha : IsName tableAlias)
    (hq : q.Fixed σ s.params) {filter : Object} (hfilter : ∀ entry ∈ filter, σ entry.1 = entry.1) :
    Renames σ s (fun params q q' => q = q' ∧ q.Fixed σ params)
      (addRequestFilter tableAlias q filter) (addRequestFilter tableAlias q filter) := by
  induction filter generalizing q s with
  | nil => exact Renames.pure ⟨rfl, hq⟩
  | cons entry filter ih =>
    obtain ⟨column, value⟩ := entry
    have hcolumn : σ column = column := hfilter _ List.mem_cons_self
    have hequal := hq.andWhereWith_gives (Sql.equal_gives ha hcolumn (.filter column) value)
    unfold addRequestFilter
    refine (Renames.ofGives hequal).bind ?_
    rintro q _ t _ ⟨rfl, hq⟩
    exact ih hq fun other ho => hfilter other (List.mem_cons_of_mem _ ho)

theorem rootQuery_renamed (request : Request) {tableAlias : String} {q : Query}
    {select select' : SelectList} (ha : IsName tableAlias) (hq : q.Fixed σ params)
    (hselect : select.Renamed σ params select') :
    Query.Renamed σ params (rootQuery request tableAlias q select)
      (rootQuery (request.rename σ) tableAlias q select') := by
  obtain ⟨typeName, fields, filter, orderBy, limit⟩ := request
  refine hselect.addSelects ?_
  cases orderBy with
  | none =>
    cases limit with
    | none => exact hq.renamed
    | some limit => exact hq.renamed.withLimit limit
  | some sort =>
    have hsorted := hq.renamed.orderBy (Sql.written_qualified ha sort.1) sort.2
    cases limit with
    | none => exact hsorted
    | some limit => exact hsorted.withLimit limit

/-- The text and the plan of a root statement. -/
theorem rootLevel_renames {request : Request} (hσ : Renaming env σ)
    (hfilter : ∀ entry ∈ request.filter, σ entry.1 = entry.1) :
    Renames σ s (fun params r r' => Written σ params r.1 r'.1 ∧ r'.2 = r.2.rename σ)
      (rootLevel env request none) (rootLevel env (request.rename σ) none) := by
  unfold rootLevel
  refine Renames.lookup fun mapping hl => ?_
  refine (Renames.ofGives (Sql.freshAlias_gives request.typeName s)).bind ?_
  rintro tableAlias _ t ht ⟨rfl, ha⟩
  have hq : (Query.fromTable {} (mapping.tableName request.typeName) tableAlias).Fixed σ t.params :=
    .fromTable (hσ.kept.names _ (Registry.tableName_mem hl)) ha
  refine (compileLevel_renames (rootOf request tableAlias) hσ ha
    (fun _ hc => absurd hc List.not_mem_nil) hq request.fields).bind ?_
  rintro ⟨q, select, plan⟩ ⟨q', select', plan'⟩ u hu ⟨hsame, hq, hselect, hplan⟩
  obtain rfl : q = q' := hsame
  refine (addRequestFilter_renames ha hq hfilter).bind ?_
  rintro q _ v hv ⟨rfl, hq⟩
  refine (render_renames (rootQuery_renamed request ha hq (hselect.grow hv))).bind ?_
  intro sql sql' w hw hsql
  exact Renames.pure ⟨hsql, hplan⟩

theorem rowNumber_written {partition ordering : List String}
    (hpartition : List.Forall₂ (Written σ params) partition partition)
    (hordering : List.Forall₂ (Written σ params) ordering ordering) :
    Written σ params (rowNumber partition ordering) (rowNumber partition ordering) := by
  have hlead := (Sql.written_intercalate ", " (by decide) hpartition).prepend
    (w := "ROW_NUMBER() OVER (PARTITION BY ") (by decide)
  unfold rowNumber
  exact (hlead.then (Query.clause_orderingText hordering)).append (Sql.written_plain (by decide))
    (by decide) (by decide)

/-- The inner query of a follow-up. -/
theorem pageQuery_renamed {children : ChildQuery} {relation : Relation} {q : Query}
    {select select' : SelectList} {most : Nat} (hσ : Renaming env σ)
    (hchildren : children.Kept σ params most)
    (hlabels : ∀ index < most, σ (partitionLabel index) = partitionLabel index)
    (hsort : ∀ c ∈ (relation.sort.map Prod.fst).toList, σ c = c) (hq : q.Fixed σ params)
    (hselect : select.Renamed σ params select') :
    Query.Renamed σ params (pageQuery children relation q select)
      (pageQuery children relation q select') := by
  have hpartition : SelectList.Renamed σ params
      (((List.range children.partition.length).map partitionLabel).zip children.partition)
      (((List.range children.partition.length).map partitionLabel).zip children.partition) := by
    refine List.forall₂_same.2 fun item hitem => ?_
    obtain ⟨hlabel, hexpression⟩ := List.of_mem_zip hitem
    obtain ⟨index, hindex, heq⟩ := List.mem_map.1 hlabel
    have hlt := Nat.lt_of_lt_of_le (List.mem_range.1 hindex) hchildren.length_le
    refine ⟨?_, List.forall₂_same.1 hchildren.partition _ hexpression⟩
    rw [← heq, hlabels index hlt]
  have hterms : List.Forall₂ (Written σ params)
      (relation.sort.toList.map fun sort =>
        qualified children.tableAlias sort.1 ++ " " ++ sort.2.keyword)
      (relation.sort.toList.map fun sort =>
        qualified children.tableAlias sort.1 ++ " " ++ sort.2.keyword) := by
    cases hs : relation.sort with
    | none => exact .nil
    | some sort =>
      have hcolumn : σ sort.1 = sort.1 := hsort _ (by rw [hs]; exact List.mem_singleton.2 rfl)
      exact .cons ((Sql.written_qualified_kept hchildren.tableAlias hcolumn).sorted sort.2) .nil
  have hnumber := rowNumber_written hchildren.partition
    (List.rel_append hterms hq.renamed.ordering)
  have hselects := hpartition.addSelects (hselect.addSelects hq.renamed.takeOrdering)
  have hnumbered := hselects.addSelectAs hnumber rowNumberLabel
  rw [hσ.kept.hidden _ List.mem_cons_self] at hnumbered
  exact hnumbered

/-- The statement around the inner query. -/
theorem pageText_written {inner inner' tableAlias param : String} {labels : List String}
    (h : Written σ params inner inner') (ha : IsName tableAlias) (hparam : Sql.ParamName param)
    (hfound : (params.get? param).isSome = true)
    (hlabels : ∀ label ∈ labels ++ [rowNumberLabel], σ label = label) :
    Written σ params (pageText inner tableAlias param labels)
      (pageText inner' tableAlias param labels) := by
  have hcolumns : Written σ params
      (String.intercalate ", " ((labels ++ [rowNumberLabel]).map (qualified tableAlias)))
      (String.intercalate ", " ((labels ++ [rowNumberLabel]).map (qualified tableAlias))) := by
    refine Sql.written_intercalate ", " (by decide) ?_
    rw [List.forall₂_map_left_iff, List.forall₂_map_right_iff]
    exact List.forall₂_same.2 fun label hl => Sql.written_qualified_kept ha (hlabels label hl)
  have hnumber : σ rowNumberLabel = rowNumberLabel :=
    hlabels _ (List.mem_append_right _ (List.mem_singleton.2 rfl))
  have hrows := ((h.prepend (w := "SELECT * FROM (") (by decide)).link ") AS " (by decide)
    (Sql.written_plain (Sql.plain_of_isName ha))).link " WHERE " (by decide)
      (Sql.written_qualified_kept ha hnumber)
  have hlimited := hrows.link " <= " (by decide) (Sql.written_param hparam hfound)
  rw [Sql.colon_append " <= " " <= :" rfl, Sql.colon_append " <= " " <= :" rfl] at hlimited
  exact hlimited.link " ORDER BY " (by decide) hcolumns

/-- The parts of a follow-up, and of the follow-up after a renaming. -/
structure FollowUpRenamed (σ : String → String) (params : Params) (f f' : FollowUp) : Prop where
  sql : Written σ params f.sql f'.sql
  plan : f'.plan = f.plan.rename σ
  labels : f'.labels = f.labels
  cap : f'.cap = f.cap

theorem followUpLevel_renames {many : ManyPlan} {parent child : TypeMapping} {resolved : Resolved}
    {relation : Relation} (hσ : Renaming env σ)
    (hparent : env.registry.lookup many.parentType = .ok parent)
    (hchild : env.registry.lookup many.target = .ok child)
    (hr : env.registry.resolve many.parentType many.field = .ok resolved)
    (hn : resolved.relation? = some relation) (hpaging : many.paging = resolved.paging?)
    (keys : List (List Json)) :
    Renames σ s (FollowUpRenamed σ) (followUpLevel env many parent child relation keys)
      (followUpLevel env (many.rename σ) parent child relation keys) := by
  have hsort : ∀ c ∈ (relation.sort.map Prod.fst).toList, σ c = c := fun c hc =>
    hσ.kept.names c (Registry.relation_names hr hn
      (List.mem_cons_of_mem _ (List.mem_append_right _ hc)))
  have hextra : ∀ c ∈ (relation.sort.map Prod.fst).toList ++
      ((many.paging.map Paging.cursorColumns).getD []), σ c = c := by
    intro c hc
    rcases List.mem_append.1 hc with hc | hc
    · exact hsort c hc
    · rw [hpaging] at hc
      cases hp : resolved.paging? with
      | none =>
        rw [hp] at hc
        exact absurd hc List.not_mem_nil
      | some paging =>
        rw [hp] at hc
        exact hσ.kept.names c (Registry.paging_names hr hp hc)
  unfold followUpLevel
  refine (Renames.ofGives (childQuery_gives hσ hparent hchild hr hn keys)).bind ?_
  rintro children _ t ht ⟨rfl, hchildren⟩
  refine (compileLevel_renames (childLevel many relation children.tableAlias) hσ
    hchildren.tableAlias hextra hchildren.query many.selection).bind ?_
  rintro ⟨q, select, plan⟩ ⟨q', select', plan'⟩ u hu ⟨hsame, hq, hselect, hplan⟩
  obtain rfl : q = q' := hsame
  have hlabels : ∀ index < max 1 parent.key.length,
      σ (partitionLabel index) = partitionLabel index := fun index hi =>
    hσ.kept.hidden _ (Registry.partitionLabel_mem hparent hi)
  have hquery := pageQuery_renamed hσ (hchildren.grow hu) hlabels hsort hq hselect
  refine (render_renames hquery).bind fun inner inner' v _ hinner => ?_
  refine (Renames.ofGives (Sql.freshAlias_gives "page" v)).bind ?_
  rintro tableAlias _ w hw ⟨rfl, ha⟩
  refine (Renames.ofGives (Sql.bind_gives .pageLimit _ w)).bind ?_
  rintro param _ x hx ⟨rfl, hparam, hfound⟩
  have hhidden : ∀ label ∈ (List.range children.partition.length).map partitionLabel ++
      [rowNumberLabel], σ label = label := by
    intro label hl
    rcases List.mem_append.1 hl with hl | hl
    · obtain ⟨index, hindex, rfl⟩ := List.mem_map.1 hl
      exact hlabels index (Nat.lt_of_lt_of_le (List.mem_range.1 hindex) hchildren.length_le)
    · rw [List.mem_singleton.1 hl]
      exact hσ.kept.hidden _ List.mem_cons_self
  exact Renames.pure ⟨pageText_written (hinner.grow (hw.trans hx)) ha hparam hfound hhidden, hplan,
    rfl, rfl⟩

/-! ### Statements -/

end

/-- A statement is scanned to lexemes that may stand in it. -/
def Lexed (statement : Sql.Statement) : Prop :=
  ∃ ls : List Lexeme, (∀ l ∈ ls, l.Stands statement.params) ∧
    Token.scan statement.sql.toList = ls.map Lexeme.token

/-- A statement with the shape of its rows, and what it is after a renaming: the same but for what
is quoted and for the names of fields. -/
structure Compiled.Renamed (σ : String → String) (c c' : Compiled) : Prop where
  lexemes : ∃ ls : List Lexeme, (∀ l ∈ ls, l.Stands c.statement.params) ∧
    Token.scan c.statement.sql.toList = ls.map Lexeme.token ∧
    Token.scan c'.statement.sql.toList = (ls.map (Lexeme.rename σ)).map Lexeme.token
  params : c'.statement.params = c.statement.params
  aliases : c'.statement.aliases = c.statement.aliases
  plan : c'.plan = c.plan.rename σ
  partitionLabels : c'.partitionLabels = c.partitionLabels
  pageSize : c'.pageSize = c.pageSize

section

variable {env : Environment} {σ : String → String}

theorem Compiled.Renamed.lexed {c c' : Compiled} (h : c.Renamed σ c') : Lexed c.statement := by
  obtain ⟨ls, hstands, hscan, -⟩ := h.lexemes
  exact ⟨ls, hstands, hscan⟩

/-- The root statement of a request after a renaming. -/
theorem compileRoot_renamed (request : Request) (hσ : Renaming env σ)
    (hfilter : ∀ entry ∈ request.filter, σ entry.1 = entry.1) :
    Renamed σ (Compiled.Renamed σ) (compileRoot env request none)
      (compileRoot env (request.rename σ) none) := by
  have hdepth : (request.rename σ).depth = request.depth :=
    congrArg (1 + ·) (Selection.depthOf_renameAll σ request.fields)
  unfold compileRoot
  rw [hdepth]
  split
  · exact Renamed.error (e := .depthExceeded _ _) id
  · refine Renamed.bind (rootLevel_renames (s := {}) hσ hfilter) ?_
    rintro ⟨⟨sql, plan⟩, scope⟩ ⟨⟨sql', plan'⟩, scope'⟩ ⟨hscope, -, hsql, hplan⟩
    obtain rfl : scope = scope' := hscope.symm
    change Renamed σ (Compiled.Renamed σ)
      (finish sql scope >>= fun statement => pure { statement, plan })
      (finish sql' scope >>= fun statement => pure { statement, plan := plan' })
    rw [finish_written hsql, finish_written (Written.right hsql)]
    exact .ok ⟨hsql.scan, rfl, rfl, hplan, rfl, rfl⟩

/-- A list that was planned is the relation of its field, and has its paging. -/
def ManyPlan.Declared (registry : Registry) (m : ManyPlan) : Prop :=
  ∃ resolved relation, registry.resolve m.parentType m.field = .ok resolved ∧
    resolved.relation? = some relation ∧ m.paging = resolved.paging?

/-- A follow-up after a renaming. -/
theorem compileMany_renamed {many : ManyPlan} (hσ : Renaming env σ)
    (hmany : many.Declared env.registry) (keys : List (List Json)) :
    Renamed σ (Compiled.Renamed σ) (compileMany env many keys)
      (compileMany env (many.rename σ) keys) := by
  obtain ⟨resolved, relation, hr, hn, hpaging⟩ := hmany
  have hr' : env.registry.resolve many.parentType (σ many.field) = .ok (resolved.rename σ) := by
    rw [Registry.resolve_rename hσ.unwritten.exposed hσ.kept, hr]
    rfl
  have hn' : (resolved.rename σ).relation? = some relation := hn
  unfold compileMany
  change Renamed σ _ _ (if env.settings.maxDepth < many.depth then _ else _)
  split
  · exact Renamed.error (e := .depthExceeded _ _) id
  · refine Renamed.lookup fun parent hparent => ?_
    refine Renamed.bind (R := fun a b => a = resolved ∧ b = resolved.rename σ) ?_ ?_
    · change Renamed σ _ ((env.registry.resolve many.parentType many.field).mapError _)
        ((env.registry.resolve many.parentType (σ many.field)).mapError _)
      rw [hr, hr']
      exact .ok ⟨rfl, rfl⟩
    · rintro _ _ ⟨rfl, rfl⟩
      rw [hn, hn']
      refine Renamed.lookup fun child hchild => ?_
      refine Renamed.bind
        (followUpLevel_renames (s := {}) hσ hparent hchild hr hn hpaging keys) ?_
      rintro ⟨f, scope⟩ ⟨f', scope'⟩ ⟨hscope, -, hfollow⟩
      obtain rfl : scope = scope' := hscope.symm
      have hsql : Written σ scope.params f.sql f'.sql := hfollow.sql
      change Renamed σ (Compiled.Renamed σ)
        (finish f.sql scope >>= fun statement => pure
          { statement, plan := f.plan, partitionLabels := f.labels, pageSize := some f.cap })
        (finish f'.sql scope >>= fun statement => pure
          { statement, plan := f'.plan, partitionLabels := f'.labels, pageSize := some f'.cap })
      rw [finish_written hsql, finish_written hsql.right]
      exact .ok ⟨hsql.scan, rfl, rfl, hfollow.plan, hfollow.labels, congrArg some hfollow.cap⟩

/-! ### The follow-ups of a request -/

/-- Every list of a request is the relation of a field. -/
theorem Listed.declared {root : NodePlan} {selections : List Selection}
    (hroot : PlannedFor env selections root) {m : ManyPlan} (h : Listed env root m) :
    m.Declared env.registry := by
  obtain ⟨round, i, j, plan, field, hoccurs, hi, hk, hj⟩ := h
  obtain ⟨below, ⟨mapping, depth, hplanned⟩, -⟩ := hoccurs.plannedFor hroot
  obtain ⟨selection, hs, hfield⟩ := hplanned.field_at hi
  cases hfield with
  | value _ _ => cases hk
  | single _ _ _ _ _ => cases hk
  | many hr hn _ hl =>
    cases hk
    cases hj.symm.trans hl.2
    exact ⟨_, _, hr, hn, rfl⟩

theorem getElem?_renameFields {fields : List (FieldPlan NodePlan)} {i : Nat}
    {field : FieldPlan NodePlan} (h : fields[i]? = some field) :
    (renameFields σ fields)[i]? = some (renameField σ field) := by
  induction fields generalizing i with
  | nil => cases h
  | cons first fields ih =>
    cases i with
    | zero =>
      cases h
      rfl
    | succ i => exact ih h

theorem field_rename {plan : NodePlan} {i : Nat} {field : FieldPlan NodePlan}
    {kind : FieldKind NodePlan} (hi : plan.fields[i]? = some field) (hk : field.kind = kind) :
    (plan.rename σ).fields[i]? = some (renameField σ field) ∧
      (renameField σ field).kind = renameKind σ kind := by
  obtain ⟨origin, typeName, fields, many⟩ := plan
  obtain ⟨name, _, json, transform⟩ := field
  cases hk
  exact ⟨getElem?_renameFields hi, rfl⟩

theorem many_rename {plan : NodePlan} {j : Nat} {m : ManyPlan} (hj : plan.many[j]? = some m) :
    (plan.rename σ).many[j]? = some (m.rename σ) := by
  obtain ⟨origin, typeName, fields, many⟩ := plan
  exact (List.getElem?_map).trans (congrArg (Option.map (ManyPlan.rename σ)) hj)

/-- The plans of a request after a renaming. -/
theorem Occurs.rename {root plan : NodePlan} {selections : List Selection} {round : Nat}
    (hσ : Renaming env σ) (hroot : PlannedFor env selections root)
    (h : Occurs env root round plan) : Occurs env (root.rename σ) round (plan.rename σ) := by
  induction h with
  | root => exact .root
  | single _ hi hk ih =>
    obtain ⟨hi', hk'⟩ := field_rename hi hk
    exact .single ih hi' hk'
  | many ho hi hk hj hc ih =>
    obtain ⟨hi', hk'⟩ := field_rename hi hk
    have hdeclared := Listed.declared hroot ⟨_, _, _, _, _, ho, hi, hk, hj⟩
    obtain ⟨compiled', hc', hcompiled⟩ := (compileMany_renamed hσ hdeclared _).ok_left hc
    rw [← hcompiled.plan]
    exact .many ih hi' hk' (many_rename hj) hc'

/-- The lists of a request after a renaming. -/
theorem Listed.rename {root : NodePlan} {selections : List Selection} {m : ManyPlan}
    (hσ : Renaming env σ) (hroot : PlannedFor env selections root) (h : Listed env root m) :
    Listed env (root.rename σ) (m.rename σ) := by
  obtain ⟨round, i, j, plan, field, ho, hi, hk, hj⟩ := h
  obtain ⟨hi', hk'⟩ := field_rename hi hk
  exact ⟨round, i, j, _, _, ho.rename hσ hroot, hi', hk', many_rename hj⟩

end

/-! ### Names of requests -/

/-- A name that stands for nothing of the schema and of the filter: no name of the registry, no
hidden label and no column that the request filters by. -/
structure Loose (registry : Registry) (request : Request) (name : String) : Prop where
  names : name ∉ registry.names
  hidden : name ∉ registry.hiddenLabels
  filter : name ∉ request.filter.map Prod.fst

section

variable {draft : Schema.Draft} {env : Environment} {request : Request} {old new : String}

theorem renaming_id (hbuild : draft.build = .ok env.registry)
    (hunwritten : env.registry.Unwritten) : Renaming env id :=
  ⟨hunwritten, ⟨Function.injective_id, fun _ _ => rfl, fun _ _ => rfl⟩,
    fun _ _ _ hr => Schema.Draft.resolve_unaliased hbuild hr⟩

/-- Where no SQL is written in the schema, no follow-up of a request lacks a parameter. -/
theorem Listed.bound {root : NodePlan} {selections : List Selection} {m : ManyPlan}
    (hbuild : draft.build = .ok env.registry) (hunwritten : env.registry.Unwritten)
    (hroot : PlannedFor env selections root) (h : Listed env root m) (keys : List (List Json)) :
    Bound (compileMany env m keys) :=
  (compileMany_renamed (renaming_id hbuild hunwritten) (h.declared hroot) keys).bound

/-- One loose name in the place of another is a renaming. -/
theorem renaming_swap (hbuild : draft.build = .ok env.registry)
    (hunwritten : env.registry.Unwritten) (hold : Loose env.registry request old)
    (hnew : Loose env.registry request new) : Renaming env (Equiv.swap old new) := by
  have hkept : ∀ {names : List String}, old ∉ names → new ∉ names → ∀ c ∈ names,
      Equiv.swap old new c = c := fun hold hnew c hc =>
    Equiv.swap_apply_of_ne_of_ne (ne_of_mem_of_not_mem hc hold) (ne_of_mem_of_not_mem hc hnew)
  exact ⟨hunwritten, ⟨(Equiv.swap old new).injective, hkept hold.names hnew.names,
    hkept hold.hidden hnew.hidden⟩, fun _ _ _ hr => Schema.Draft.resolve_unaliased hbuild hr⟩

/-- Names of a request cannot escape their quotes, where the schema is built, has no written SQL and
exposes all fields.  The root statement and all follow-ups of a request are scanned completely to
quoted names, to symbols and to placeholders of planning; none is refused for a placeholder without
a parameter.  If one loose name stands for another in the fields and the order of the request, the
statements change in the quoted names alone; a name that the request does not have yet is thereby
put in the place of one that it has. -/
theorem names_stay_quoted (hbuild : draft.build = .ok env.registry)
    (hunwritten : env.registry.Unwritten) (request : Request) :
    (Bound (compileRoot env request none) ∧
      ∀ root, compileRoot env request none = .ok root → Lexed root.statement ∧
        ∀ many, Listed env root.plan many → ∀ keys, Bound (compileMany env many keys) ∧
          ∀ compiled, compileMany env many keys = .ok compiled → Lexed compiled.statement) ∧
    ∀ old new, Loose env.registry request old → Loose env.registry request new →
      let σ := Equiv.swap old new
      Renamed σ (Compiled.Renamed σ) (compileRoot env request none)
        (compileRoot env (request.rename σ) none) ∧
      ∀ root, compileRoot env request none = .ok root → ∀ many, Listed env root.plan many →
        Listed env (root.plan.rename σ) (many.rename σ) ∧
        ∀ keys, Renamed σ (Compiled.Renamed σ) (compileMany env many keys)
          (compileMany env (many.rename σ) keys) := by
  have hid := renaming_id hbuild hunwritten
  have hroot := compileRoot_renamed request hid fun _ _ => rfl
  refine ⟨⟨hroot.bound, fun root h => ?_⟩, fun old new hold hnew => ?_⟩
  · obtain ⟨_, -, hlexed⟩ := hroot.ok_left h
    refine ⟨hlexed.lexed, fun many hmany keys => ?_⟩
    have hplanned := (compileRoot_plannedFor h).1
    have hfollow := compileMany_renamed hid (Listed.declared hplanned hmany) keys
    refine ⟨hfollow.bound, fun compiled hc => ?_⟩
    obtain ⟨_, -, hlexed⟩ := hfollow.ok_left hc
    exact hlexed.lexed
  · have hσ := renaming_swap hbuild hunwritten hold hnew
    have hfilter : ∀ entry ∈ request.filter, Equiv.swap old new entry.1 = entry.1 := fun entry he =>
      Equiv.swap_apply_of_ne_of_ne
        (ne_of_mem_of_not_mem (List.mem_map_of_mem he) hold.filter)
        (ne_of_mem_of_not_mem (List.mem_map_of_mem he) hnew.filter)
    refine ⟨compileRoot_renamed request hσ hfilter, fun root h many hmany => ?_⟩
    have hplanned := (compileRoot_plannedFor h).1
    exact ⟨hmany.rename hσ hplanned, compileMany_renamed hσ (Listed.declared hplanned hmany)⟩

end

namespace Bulletin

/-- Whether the caller has read a post is told by a receipt. -/
def receipt : Schema.ExistsByUser := { table := "Receipt", parentColumn := "postId" }

def comments : Relation := { target := "Comment", many := true, join := .columns "id" "postId" }

def post : TypeMapping :=
  { fields := [("wasRead", .existsByUser receipt), ("comments", { source := .relation comments })] }

def draft : Schema.Draft := { types := [("Post", post), ("Comment", {})] }

def environment : Environment :=
  { registry := ⟨[("Post", post), ("Comment", {})], none⟩, settings := {}, caller := {} }

def request : Request :=
  { typeName := "Post"
    fields := [.scalar "title", .scalar "wasRead", .nested "comments" [.scalar "title"]] }

/-- A title that would end its quotes, and ask for a parameter, if it could. -/
def title : String := "x\" :userId"

/-- The text of the root statement of a request. -/
def text? (request : Request) : Option String :=
  (compileRoot environment request none).toOption.map fun compiled => compiled.statement.sql

theorem build_draft : draft.build = .ok environment.registry := by
  refine Schema.Draft.build_of_checked ?_
  rintro entry htype field hfield
  rcases List.mem_cons.1 htype with rfl | h
  · rcases List.mem_cons.1 hfield with rfl | h
    · rfl
    · rw [List.mem_singleton.1 h]
      rfl
  · rw [List.mem_singleton.1 h] at hfield
    cases hfield

theorem unwritten : environment.registry.Unwritten := by
  have htypes : ∀ entry ∈ environment.registry.types,
      entry = ("Post", post) ∨ entry = ("Comment", {}) := fun entry he =>
    (List.mem_cons.1 he).imp_right List.mem_singleton.1
  refine ⟨rfl, fun entry he => ?_, fun entry he field hf => ?_⟩
  · rcases htypes entry he with rfl | rfl <;> rfl
  · rcases htypes entry he with rfl | rfl
    · rcases List.mem_cons.1 hf with rfl | hf
      · exact ⟨rfl, rfl⟩
      · rw [List.mem_singleton.1 hf]
        exact ⟨rfl, trivial⟩
    · cases hf

end Bulletin

/-- The title of a post gives way to one with a quote and a placeholder in it. -/
theorem names_stay_quoted_title :
    Renamed (Equiv.swap "title" Bulletin.title)
        (Compiled.Renamed (Equiv.swap "title" Bulletin.title))
        (compileRoot Bulletin.environment Bulletin.request none)
        (compileRoot Bulletin.environment
          (Bulletin.request.rename (Equiv.swap "title" Bulletin.title)) none) ∧
      Bulletin.text? (Bulletin.request.rename (Equiv.swap "title" Bulletin.title)) = some
        ("SELECT post_1.\"x\"\" :userId\" AS \"x\"\" :userId\", EXISTS (SELECT 1 FROM " ++
          "\"Receipt\" receipt_2 WHERE (receipt_2.\"userId\" = :userId) AND " ++
          "(receipt_2.\"postId\" = post_1.\"id\")) AS \"wasRead\", post_1.\"id\" AS " ++
          "\"__key_id\" FROM \"Post\" post_1") := by
  have hold : Loose Bulletin.environment.registry Bulletin.request "title" :=
    ⟨by decide +kernel, by decide +kernel, by decide +kernel⟩
  have hnew : Loose Bulletin.environment.registry Bulletin.request Bulletin.title :=
    ⟨by decide +kernel, by decide +kernel, by decide +kernel⟩
  have hquoted := (names_stay_quoted Bulletin.build_draft Bulletin.unwritten Bulletin.request).2 _ _
    hold hnew
  exact ⟨hquoted.1, by decide +kernel⟩

end Plan

end ObjectGraph
