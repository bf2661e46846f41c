import ObjectGraph.Proofs.Sql.Lexemes

/-! # Queries written alike

Two queries are `Renamed` if their clauses are written alike but for a renaming of what is quoted,
and so are their texts (`Renamed.text`).  The conditions that are made without written SQL compare
columns with columns and with parameters; binding their values gives texts whose placeholders are
bound (`equal_gives`, `in_gives`). -/

namespace ObjectGraph

namespace Sql

variable {σ : String → String} {params params' : Params}

/-! ### Bound values -/

/-- A building step succeeds with a value of which something holds; parameters are only added. -/
def Building.Gives {α : Type} (s : Scope) (build : Building α) (P : Params → α → Prop) : Prop :=
  s.params <+: (build s).2.params ∧ P (build s).2.params (build s).1

namespace Building

variable {α β : Type} {s : Scope} {P : Params → α → Prop} {Q : Params → β → Prop}

theorem Gives.pure {a : α} (h : P s.params a) : Gives s (Pure.pure a : Building α) P :=
  ⟨List.prefix_rfl, h⟩

theorem Gives.bind {build : Building α} {next : α → Building β} (h : Gives s build P)
    (hnext : ∀ a t, s.params <+: t.params → P t.params a → Gives t (next a) Q) :
    Gives s (build >>= next) Q := by
  obtain ⟨hgrows, hfirst⟩ := h
  obtain ⟨hgrows', hsecond⟩ := hnext _ _ hgrows hfirst
  exact ⟨hgrows.trans hgrows', hsecond⟩

end Building

open Building (Gives)

theorem freshAlias_gives (hint : String) (s : Scope) :
    Gives s (freshAlias hint) fun _ tableAlias => IsName tableAlias :=
  ⟨List.prefix_rfl, isName_aliasFor s hint⟩

theorem fromFresh_gives (table hint : String) (s : Scope) :
    Gives s (Query.fromFresh {} table hint) fun _ q =>
      ∃ tableAlias, IsName tableAlias ∧ q = Query.fromTable {} table tableAlias :=
  (freshAlias_gives hint s).bind fun tableAlias _ _ ha => Gives.pure ⟨tableAlias, ha, rfl⟩

/-- A value is bound under a name of planning again. -/
theorem ParamName.bind {name : String} (h : ParamName name) (value : Json) (s : Scope) :
    ParamName (Sql.bind name value s).1 := bind_of_numbered h h.numbered value s

theorem bind_gives {name : String} (hname : ParamName name) (value : Json) (s : Scope) :
    Gives s (bind name value) fun params bound =>
      ParamName bound ∧ (params.get? bound).isSome = true := by
  refine ⟨bind_grows rfl, hname.bind value s, ?_⟩
  have hbind : bind name value s = ((bind name value s).1, (bind name value s).2) := rfl
  rcases bind_ok hbind with ⟨ht, held, hget, -⟩ | ⟨hfree, ht⟩
  · rw [ht, hget]
    rfl
  · rw [ht]
    exact Option.isSome_iff_exists.2 ⟨value, get?_append hfree⟩

theorem bindElements_gives {name : String} (hname : ParamName name) (index : Nat)
    (items : List Json) (s : Scope) :
    Gives s (bindElements name index items) fun params names =>
      ∀ bound ∈ names, ParamName bound ∧ (params.get? bound).isSome = true := by
  induction items generalizing index s with
  | nil => exact Gives.pure fun _ hb => absurd hb List.not_mem_nil
  | cons item items ih =>
    refine (bind_gives (hname.numbered index) item s).bind fun bound t _ hbound => ?_
    refine (ih (index + 1) t).bind fun names u hgrows hnames => ?_
    refine Gives.pure fun other ho => ?_
    rcases List.mem_cons.1 ho with rfl | ho
    · obtain ⟨held, hget⟩ := Option.isSome_iff_exists.1 hbound.2
      exact ⟨hbound.1, Option.isSome_iff_exists.2 ⟨held, get?_of_grows hgrows hget⟩⟩
    · exact hnames other ho

/-- A list of values becomes placeholders that are bound. -/
theorem bindPlaceholder_gives {name : String} (hname : ParamName name) (items : List Json)
    (s : Scope) :
    Gives s (bindPlaceholder true name (.arr items)) fun params text =>
      Written σ params text text := by
  cases items with
  | nil => exact Gives.pure (written_plain (by decide))
  | cons item items =>
    refine (bindElements_gives hname 0 (item :: items) s).bind fun names t _ hnames => ?_
    refine Gives.pure (written_intercalate ", " (by decide) ?_)
    rw [List.forall₂_map_left_iff, List.forall₂_map_right_iff]
    exact List.forall₂_same.2 fun bound hb => written_param (hnames bound hb).1 (hnames bound hb).2

/-! ### Conditions -/

section

variable {tableAlias column : String} {s : Scope}

/-- The lexemes of a column with symbols after it. -/
def columnLexemes (tableAlias column w : String) : List Lexeme :=
  tableAlias.toList.map .symbol ++ [.symbol '.', .quoted '"' column] ++ w.toList.map .symbol

/-- A column is scanned to its lexemes, whatever follows the symbols after it. -/
theorem scan_column (ha : IsName tableAlias) {w : String} (hw : Gap w) (rest : List Char) :
    Token.scan ((qualified tableAlias column ++ w).toList ++ rest) =
      (columnLexemes tableAlias column w).map Lexeme.token ++ Token.scan rest := by
  have htext : (qualified tableAlias column ++ w).toList ++ rest =
      (tableAlias.toList ++ ['.']) ++ ((quoteIdent column).toList ++ (w.toList ++ rest)) := by
    unfold qualified
    simp only [String.toList_append, List.append_assoc]
    rfl
  have hlead : ∀ c ∈ tableAlias.toList ++ ['.'], isSymbol c = true := by
    intro c hc
    rcases List.mem_append.1 hc with hc | hc
    · exact plain_of_isName ha c hc
    · rw [List.mem_singleton.1 hc]
      rfl
  have hended : Ended (w.toList ++ rest) := by
    have hrest := hw.opens (String.ofList rest)
    unfold Opens at hrest
    rwa [String.toList_append, String.toList_ofList] at hrest
  have hident := scans_quoted (.inr rfl) column _ hended
  rw [htext, scan_symbols hlead]
  change _ ++ Token.scan ((enclose '"' column).toList ++ _) = _
  rw [hident, scan_symbols hw.1]
  unfold columnLexemes
  simp only [List.map_append, List.map_map, List.map_cons, List.map_nil, List.append_assoc]
  rfl

theorem name_columnLexemes {w : String} :
    ∀ token ∈ (columnLexemes tableAlias column w).map Lexeme.token, token.name = none := by
  intro token htoken
  unfold columnLexemes at htoken
  simp only [List.map_append, List.mem_append, List.mem_map, List.map_cons, List.map_nil,
    List.mem_cons, List.not_mem_nil, or_false] at htoken
  rcases htoken with (⟨l, ⟨c, -, rfl⟩, rfl⟩ | rfl | rfl) | ⟨l, ⟨c, -, rfl⟩, rfl⟩ <;> rfl

theorem text_columnLexemes (ha : IsName tableAlias) {w : String} (hw : Gap w) :
    ((columnLexemes tableAlias column w).map Lexeme.token).flatMap Token.text =
      (qualified tableAlias column ++ w).toList := by
  have hscan : Token.scan ((qualified tableAlias column ++ w).toList ++ []) = _ :=
    scan_column ha hw []
  rw [List.append_nil, Token.scan, List.append_nil] at hscan
  rw [← hscan]
  exact Token.text_scan _

/-- The colon of a placeholder is written with the symbols before it. -/
theorem colon_append (w w' : String) (hw : w' = w ++ ":") (text name : String) :
    text ++ w ++ (":" ++ name) = text ++ w' ++ name := by
  rw [hw, ← String.append_assoc, ← String.append_assoc]

/-- A column is compared with a value that is bound. -/
theorem bindTemplate_equal (ha : IsName tableAlias) {name : String} (hname : Bindable name)
    (value : Json) :
    bindTemplate (qualified tableAlias column ++ " = :" ++ name) [(name, value)] s =
      (qualified tableAlias column ++ " = " ++ (":" ++ (bind name value s).1),
        (bind name value s).2) := by
  have hplaceholder : Token.scan (":" ++ name).toList =
      [.placeholder false name.toList] := by
    have hscan := scans_param hname [] fun _ hc => absurd hc (Option.not_mem_none _)
    rw [List.append_nil, Token.scan] at hscan
    rw [String.toList_append]
    exact hscan
  have hscan : Token.scan (qualified tableAlias column ++ " = " ++ (":" ++ name)).toList =
      (columnLexemes tableAlias column " = ").map Lexeme.token ++
        [.placeholder false name.toList] := by
    rw [String.toList_append, scan_column ha (by decide), hplaceholder]
  have hbound : bindTemplate (qualified tableAlias column ++ " = " ++ (":" ++ name))
      [(name, value)] s = (qualified tableAlias column ++ " = " ++
        (bindPlaceholder false name value s).1 ++ "", (bindPlaceholder false name value s).2) :=
    bindTemplate_one hscan (text_columnLexemes ha (by decide)) rfl
      name_columnLexemes fun _ ht => absurd ht List.not_mem_nil
  rw [← colon_append " = " " = :" rfl, hbound, String.append_empty]
  rfl

/-- A column is among bound values. -/
theorem bindTemplate_in (ha : IsName tableAlias) (items : List Json) :
    bindTemplate (qualified tableAlias column ++ " IN (:...parentKeys)")
        [("parentKeys", .arr items)] s =
      (qualified tableAlias column ++ " IN (" ++
        (bindPlaceholder true "parentKeys" (.arr items) s).1 ++ ")",
        (bindPlaceholder true "parentKeys" (.arr items) s).2) := by
  have htext : qualified tableAlias column ++ " IN (:...parentKeys)" =
      qualified tableAlias column ++ " IN (" ++ ":...parentKeys)" := by
    have hsplit : " IN (:...parentKeys)" = " IN (" ++ ":...parentKeys)" := rfl
    rw [hsplit, String.append_assoc]
  have hplaceholder : Token.scan ":...parentKeys)".toList =
      [.placeholder true "parentKeys".toList, .char ')'] := by
    have hchars : ":...parentKeys)".toList = ':' :: ("...parentKeys)".toList) := rfl
    have hfirst : Token.next ':' "...parentKeys)".toList =
        (.placeholder true "parentKeys".toList, [')']) := rfl
    have hlast : Token.next ')' [] = (.char ')', []) := rfl
    rw [hchars, Token.scan, hfirst, Token.scan, hlast, Token.scan]
  have hscan : Token.scan (qualified tableAlias column ++ " IN (" ++ ":...parentKeys)").toList =
      (columnLexemes tableAlias column " IN (").map Lexeme.token ++
        [.placeholder true "parentKeys".toList, .char ')'] := by
    rw [String.toList_append, scan_column ha (by decide), hplaceholder]
  rw [htext]
  refine bindTemplate_one hscan (text_columnLexemes ha (by decide)) rfl
    name_columnLexemes fun token ht => ?_
  rw [List.mem_singleton.1 ht]
  rfl

/-- A column is compared with a parameter. -/
theorem written_equal (ha : IsName tableAlias) (hc : σ column = column) {bound : String}
    (hbound : ParamName bound) (hfound : (params.get? bound).isSome = true) :
    Written σ params (qualified tableAlias column ++ " = :" ++ bound)
      (qualified tableAlias column ++ " = :" ++ bound) := by
  have hequal := (written_qualified_kept ha hc).link " = " (by decide)
    (written_param (σ := σ) hbound hfound)
  rwa [colon_append " = " " = :" rfl] at hequal

theorem equal_gives (ha : IsName tableAlias) (hc : σ column = column) {name : String}
    (hname : ParamName name) (value : Json) :
    Gives s (bindTemplate (qualified tableAlias column ++ " = :" ++ name) [(name, value)])
      fun params text => Written σ params text text := by
  unfold Gives
  rw [bindTemplate_equal ha hname.bindable, colon_append " = " " = :" rfl]
  obtain ⟨hgrows, hbound, hfound⟩ := bind_gives hname value s
  exact ⟨hgrows, written_equal ha hc hbound hfound⟩

theorem in_gives (ha : IsName tableAlias) (hc : σ column = column) (items : List Json) :
    Gives s (bindTemplate (qualified tableAlias column ++ " IN (:...parentKeys)")
        [("parentKeys", .arr items)]) fun params text => Written σ params text text := by
  unfold Gives
  rw [bindTemplate_in ha]
  obtain ⟨hgrows, hwritten⟩ := bindPlaceholder_gives (σ := σ) .parentKeys items s
  have hlist := (written_qualified_kept ha hc).link " IN (" (by decide) hwritten
  exact ⟨hgrows, hlist.append (written_plain (by decide)) (by decide) (by decide)⟩

theorem andWhereWith_gives {template : String} {values : Params} (q : Query)
    (h : Gives s (bindTemplate template values) fun params text => Written σ params text text) :
    Gives s (q.andWhereWith template values) fun params q' =>
      ∃ text, q' = q.andWhere text ∧ Written σ params text text :=
  h.bind fun text _ _ htext => Gives.pure ⟨text, rfl, htext⟩

end

/-! ### Queries -/

/-- A table of a query: its name is kept, and its alias is a plain identifier. -/
def TableKept (σ : String → String) (table tableAlias : String) : Prop :=
  (∃ name, σ name = name ∧ table = quoteIdent name) ∧ IsName tableAlias

/-- Queries whose clauses are written alike.  Their tables are the same, and every join is a cross
join. -/
structure Query.Renamed (σ : String → String) (params : Params) (q q' : Query) : Prop where
  items : List.Forall₂ (fun item item' : SelectItem => item'.label = item.label.map σ ∧
    Written σ params item.expression item'.expression) q.items q'.items
  source : q'.source = q.source
  source_kept : ∀ source ∈ q.source, TableKept σ source.table source.tableAlias
  joins : q'.joins = q.joins
  joins_kept : ∀ join ∈ q.joins, join.on = none ∧ TableKept σ join.table join.tableAlias
  conditions : List.Forall₂ (Written σ params) q.conditions q'.conditions
  ordering : List.Forall₂ (Written σ params) q.ordering q'.ordering
  limit : q'.limit = q.limit

/-- Clauses are written alike, and a query goes on with them after a separator. -/
structure Clause (σ : String → String) (params : Params) (s s' : String) : Prop where
  written : Written σ params s s'
  opens : Opens s
  opens' : Opens s'

section

variable {s s' t t' : String}

theorem clause_empty : Clause σ params "" "" := ⟨written_empty, by decide, by decide⟩

theorem Written.clause (h : Written σ params s s') (w : String) (hw : Gap w) :
    Clause σ params (w ++ s) (w ++ s') :=
  ⟨h.prepend hw.1, hw.opens s, hw.opens s'⟩

theorem Written.sorted (h : Written σ params s s') (order : SortOrder) :
    Written σ params (s ++ " " ++ order.keyword) (s' ++ " " ++ order.keyword) := by
  have hkeyword : Plain order.keyword := by cases order <;> decide
  exact h.link " " (by decide) (written_plain hkeyword)

theorem Written.then (h : Written σ params s s') (h' : Clause σ params t t') :
    Written σ params (s ++ t) (s' ++ t') :=
  h.append h'.written h'.opens h'.opens'

theorem Clause.then (h : Clause σ params s s') (h' : Clause σ params t t') :
    Clause σ params (s ++ t) (s' ++ t') := by
  refine ⟨h.written.then h', ?_, ?_⟩
  · unfold Opens
    rw [String.toList_append]
    exact Ended.append h.opens h'.opens
  · unfold Opens
    rw [String.toList_append]
    exact Ended.append h.opens' h'.opens'

/-- A kept table with its alias after a keyword. -/
theorem TableKept.clause {table tableAlias : String} (h : TableKept σ table tableAlias)
    (w : String) (hw : Gap w) :
    Clause σ params (w ++ table ++ " " ++ tableAlias) (w ++ table ++ " " ++ tableAlias) := by
  obtain ⟨⟨name, hname, rfl⟩, ha⟩ := h
  have htable : Written σ params (quoteIdent name ++ " " ++ tableAlias)
      (quoteIdent name ++ " " ++ tableAlias) :=
    (written_kept hname).link " " (by decide) (written_plain (plain_of_isName ha))
  have hclause := htable.clause w hw
  rwa [← String.append_assoc, ← String.append_assoc] at hclause

end

namespace Query

variable {q q' : Query}

theorem renamed_empty : Renamed σ params {} {} :=
  ⟨.nil, rfl, fun _ h => absurd h (Option.not_mem_none _), rfl,
    fun _ h => absurd h List.not_mem_nil, .nil, .nil, rfl⟩

theorem Renamed.grow (h : Renamed σ params q q') (hgrows : params <+: params') :
    Renamed σ params' q q' :=
  { h with
    items := h.items.imp fun _ _ hitem => ⟨hitem.1, hitem.2.grow hgrows⟩
    conditions := h.conditions.imp fun _ _ hc => hc.grow hgrows
    ordering := h.ordering.imp fun _ _ ho => ho.grow hgrows }

theorem Renamed.fromTable (h : Renamed σ params q q') {table tableAlias : String}
    (htable : σ table = table) (ha : IsName tableAlias) :
    Renamed σ params (q.fromTable table tableAlias) (q'.fromTable table tableAlias) :=
  { h with
    source := rfl
    source_kept := fun source hs => by
      cases hs
      exact ⟨⟨table, htable, rfl⟩, ha⟩ }

theorem Renamed.crossJoin (h : Renamed σ params q q') {table tableAlias : String}
    (htable : σ table = table) (ha : IsName tableAlias) :
    Renamed σ params (q.join .cross table tableAlias none)
      (q'.join .cross table tableAlias none) :=
  { h with
    joins := by
      unfold Query.join
      simp only
      rw [h.joins]
    joins_kept := fun join hj => by
      rcases List.mem_append.1 hj with hj | hj
      · exact h.joins_kept join hj
      · rw [List.mem_singleton.1 hj]
        exact ⟨rfl, ⟨table, htable, rfl⟩, ha⟩ }

theorem Renamed.andWhere (h : Renamed σ params q q') {condition condition' : String}
    (hc : Written σ params condition condition') :
    Renamed σ params (q.andWhere condition) (q'.andWhere condition') :=
  { h with conditions := List.rel_append h.conditions (.cons hc .nil) }

theorem Renamed.orderBy (h : Renamed σ params q q') {expression expression' : String}
    (he : Written σ params expression expression') (order : SortOrder) :
    Renamed σ params (q.orderBy expression order) (q'.orderBy expression' order) :=
  { h with ordering := List.rel_append h.ordering (.cons (he.sorted order) .nil) }

theorem Renamed.withLimit (h : Renamed σ params q q') (limit : Nat) :
    Renamed σ params (q.withLimit limit) (q'.withLimit limit) :=
  { h with limit := rfl }

theorem Renamed.select (h : Renamed σ params q q') {expression expression' : String}
    (he : Written σ params expression expression') :
    Renamed σ params (q.select expression) (q'.select expression') :=
  { h with items := .cons ⟨rfl, he⟩ .nil }

theorem Renamed.addSelectAs (h : Renamed σ params q q') {expression expression' : String}
    (he : Written σ params expression expression') (label : String) :
    Renamed σ params (q.addSelectAs expression label) (q'.addSelectAs expression' (σ label)) :=
  { h with items := List.rel_append h.items (.cons ⟨rfl, he⟩ .nil) }

/-- A query that selects nothing yet and that a renaming leaves as it is. -/
structure Fixed (σ : String → String) (params : Params) (q : Query) : Prop where
  renamed : Renamed σ params q q
  items : q.items = []

theorem Fixed.grow (h : q.Fixed σ params) (hgrows : params <+: params') : q.Fixed σ params' :=
  ⟨h.renamed.grow hgrows, h.items⟩

theorem Fixed.fromTable {table tableAlias : String} (htable : σ table = table)
    (ha : IsName tableAlias) : (Query.fromTable {} table tableAlias).Fixed σ params :=
  ⟨renamed_empty.fromTable htable ha, rfl⟩

theorem Fixed.crossJoin (h : q.Fixed σ params) {table tableAlias : String}
    (htable : σ table = table) (ha : IsName tableAlias) :
    (q.join .cross table tableAlias none).Fixed σ params :=
  ⟨h.renamed.crossJoin htable ha, h.items⟩

theorem Fixed.andWhere (h : q.Fixed σ params) {condition : String}
    (hc : Written σ params condition condition) : (q.andWhere condition).Fixed σ params :=
  ⟨h.renamed.andWhere hc, h.items⟩

theorem Fixed.andWhereWith_gives {s : Scope} (h : q.Fixed σ s.params) {template : String}
    {values : Params}
    (hc : Gives s (bindTemplate template values) fun params text => Written σ params text text) :
    Gives s (q.andWhereWith template values) fun params q' => q'.Fixed σ params :=
  hc.bind fun _ _ hgrows htext => Gives.pure ((h.grow hgrows).andWhere htext)

theorem Fixed.orderBy (h : q.Fixed σ params) {expression : String}
    (he : Written σ params expression expression) (order : SortOrder) :
    (q.orderBy expression order).Fixed σ params :=
  ⟨h.renamed.orderBy he order, h.items⟩

theorem Fixed.withLimit (h : q.Fixed σ params) (limit : Nat) : (q.withLimit limit).Fixed σ params :=
  ⟨h.renamed.withLimit limit, h.items⟩

theorem Renamed.takeOrdering (h : Renamed σ params q q') :
    Renamed σ params q.takeOrdering.2 q'.takeOrdering.2 :=
  { h with
    ordering := .nil
    limit := rfl }

/-- No select was added to it. -/
theorem Fixed.takeLabelled (h : q.Fixed σ params) : q.takeLabelled = ([], q) := by
  have hitems := h.items
  obtain ⟨items, source, joins, conditions, ordering, limit⟩ := q
  cases hitems
  rfl

/-! ### Their texts -/

theorem Renamed.itemsText (h : Renamed σ params q q') :
    Written σ params (Query.itemsText q.items) (Query.itemsText q'.items) := by
  have hitem : ∀ item item' : SelectItem, item'.label = item.label.map σ ∧
      Written σ params item.expression item'.expression →
        Written σ params (itemText item) (itemText item') := by
    rintro ⟨expression, label⟩ ⟨expression', label'⟩ ⟨hlabel, he⟩
    cases hlabel
    cases label with
    | none => exact he
    | some label => exact he.link " AS " (by decide) (written_ident label)
  have hitems := h.items
  generalize q.items = items, q'.items = items' at hitems
  cases hitems with
  | nil => exact written_plain (by decide)
  | cons hfirst hrest =>
    refine written_intercalate ", " (by decide) ?_
    rw [List.forall₂_map_left_iff, List.forall₂_map_right_iff]
    exact .cons (hitem _ _ hfirst) (hrest.imp hitem)

theorem Renamed.sourceText (h : Renamed σ params q q') :
    Clause σ params (Query.sourceText q.source) (Query.sourceText q'.source) := by
  rw [h.source]
  have hkept := h.source_kept
  cases hs : q.source with
  | none => exact clause_empty
  | some source => exact (hkept source hs).clause " FROM " (by decide)

theorem Renamed.joinsText (h : Renamed σ params q q') :
    Clause σ params (String.join (q.joins.map joinText)) (String.join (q'.joins.map joinText)) := by
  rw [h.joins]
  have hkept := h.joins_kept
  generalize q.joins = joins at hkept
  induction joins with
  | nil => exact clause_empty
  | cons join joins ih =>
    obtain ⟨hon, htable⟩ := hkept join List.mem_cons_self
    have htext : joinText join = " CROSS JOIN " ++ join.table ++ " " ++ join.tableAlias := by
      unfold joinText
      rw [hon]
      cases join.kind <;> rfl
    rw [List.map_cons, String.join_cons, htext]
    exact (htable.clause " CROSS JOIN " (by decide)).then
      (ih fun other ho => hkept other (List.mem_cons_of_mem _ ho))

theorem written_conjunction {conditions conditions' : List String}
    (h : List.Forall₂ (Written σ params) conditions conditions') :
    Written σ params (conjunction conditions) (conjunction conditions') := by
  cases h with
  | nil => exact written_plain (by decide)
  | cons hfirst hrest =>
    cases hrest with
    | nil => exact hfirst
    | cons hsecond hrest =>
      have hall := List.Forall₂.cons hfirst (.cons hsecond hrest)
      refine written_intercalate " AND " (by decide) ?_
      rw [List.forall₂_map_left_iff, List.forall₂_map_right_iff]
      exact hall.imp fun _ _ => written_parenthesized

theorem Renamed.conditionsText (h : Renamed σ params q q') :
    Clause σ params (Query.conditionsText q.conditions) (Query.conditionsText q'.conditions) := by
  have hconditions := h.conditions
  generalize q.conditions = conditions, q'.conditions = conditions' at hconditions
  cases hconditions with
  | nil => exact clause_empty
  | cons hfirst hrest =>
    exact (written_conjunction (.cons hfirst hrest)).clause " WHERE " (by decide)

theorem clause_orderingText {terms terms' : List String}
    (h : List.Forall₂ (Written σ params) terms terms') :
    Clause σ params (orderingText terms) (orderingText terms') := by
  cases h with
  | nil => exact clause_empty
  | cons hfirst hrest =>
    have hterms := written_intercalate ", " (by decide) (.cons hfirst hrest)
    exact hterms.clause " ORDER BY " (by decide)

theorem Renamed.limitText (h : Renamed σ params q q') :
    Clause σ params (Query.limitText q.limit) (Query.limitText q'.limit) := by
  rw [h.limit]
  cases q.limit with
  | none => exact clause_empty
  | some limit =>
    exact (written_plain (plain_of_isName (isName_toString limit))).clause " LIMIT " (by decide)

theorem Renamed.text (h : Renamed σ params q q') : Written σ params q.text q'.text := by
  have hselect := h.itemsText.prepend (w := "SELECT ") (by decide)
  have hrows := ((hselect.then h.sourceText).then h.joinsText).then h.conditionsText
  exact (hrows.then (clause_orderingText h.ordering)).then h.limitText

theorem Renamed.embedded (h : Renamed σ params q q') :
    Written σ params q.embedded q'.embedded :=
  written_parenthesized h.text

theorem Renamed.isEmpty_items (h : Renamed σ params q q') :
    q'.items.isEmpty = q.items.isEmpty := by
  rw [Bool.eq_iff_iff, List.isEmpty_iff, List.isEmpty_iff, ← List.length_eq_zero_iff,
    ← List.length_eq_zero_iff, h.items.length_eq]

end Query

end Sql

end ObjectGraph
