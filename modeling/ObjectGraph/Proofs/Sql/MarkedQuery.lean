import ObjectGraph.Proofs.Sql.Soundness
import ObjectGraph.Sql.Query

/-! # Queries with occurrences

The operations on queries, instrumented: a `MarkedQuery` is a query whose texts carry the
occurrences of their bound placeholders.  An `Operation` does to it what it does to the query alone
(`query_operate`), and the text of a marked query is that of the query (`text_text`).  Operations
keep every occurrence standing for the value it was given last (`sound_operate`). -/

namespace ObjectGraph

namespace Sql

/-! ### Operations -/

/-- An operation on a query; its text, if it has one, is given apart. -/
inductive Operation
  | select
  | addSelect
  | addSelectAs (label : String)
  | fromTable (table tableAlias : String)
  | fromFresh (table hint : String)
  | join (kind : JoinKind) (table tableAlias : String)
  | crossJoin (table tableAlias : String)
  | innerJoinWith (table tableAlias : String) (params : Params)
  | andWhere
  | andWhereWith (params : Params)
  | orWhere
  | orderBy (order : SortOrder)
  | withLimit (limit : Nat)

/-- The values that an operation binds. -/
def Operation.params : Operation → Params
  | innerJoinWith _ _ params | andWhereWith params => params
  | _ => []

/-- Perform an operation with a text. -/
def Query.operate (q : Query) (text : String) : Operation → Building Query
  | .select => pure (q.select text)
  | .addSelect => pure (q.addSelect text)
  | .addSelectAs label => pure (q.addSelectAs text label)
  | .fromTable table tableAlias => pure (q.fromTable table tableAlias)
  | .fromFresh table hint => q.fromFresh table hint
  | .join kind table tableAlias => pure (q.join kind table tableAlias (some text))
  | .crossJoin table tableAlias => pure (q.join .cross table tableAlias none)
  | .innerJoinWith table tableAlias params => q.innerJoinWith table tableAlias text params
  | .andWhere => pure (q.andWhere text)
  | .andWhereWith params => q.andWhereWith text params
  | .orWhere => pure (q.orWhere text)
  | .orderBy order => pure (q.orderBy text order)
  | .withLimit limit => pure (q.withLimit limit)

/-! ### Marked queries -/

/-- An item of a select list. -/
structure MarkedItem where
  expression : Marked
  label : Option String := none

/-- A joined table, its name quoted. -/
structure MarkedJoin where
  kind : JoinKind
  table : String
  tableAlias : String
  on : Option Marked

/-- A query whose texts are marked. -/
structure MarkedQuery where
  items : List MarkedItem := []
  source : Option Source := none
  joins : List MarkedJoin := []
  conditions : List Marked := []
  ordering : List Marked := []
  limit : Option Nat := none

namespace Marked

/-- A text in parentheses. -/
def parenthesized (m : Marked) : Marked := plain "(" ++ m ++ plain ")"

/-- The conjunction of conditions. -/
def conjunction : List Marked → Marked
  | [condition] => condition
  | conditions => join " AND " (conditions.map parenthesized)

@[simp] theorem text_flatten (parts : List Marked) :
    Marked.text parts.flatten = String.join (parts.map text) := by
  induction parts with
  | nil => rfl
  | cons m parts ih =>
    rw [List.flatten_cons, text_append, List.map_cons, String.join_cons, ih]

@[simp] theorem text_parenthesized (m : Marked) :
    m.parenthesized.text = Sql.parenthesized m.text := by
  rw [parenthesized, text_append, text_append, text_plain, text_plain]
  rfl

@[simp] theorem text_conjunction (conditions : List Marked) :
    (conjunction conditions).text = Sql.conjunction (conditions.map text) := by
  match conditions with
  | [] => rfl
  | [condition] => rfl
  | first :: second :: conditions =>
    have hmarked : conjunction (first :: second :: conditions) =
        Marked.join " AND " ((first :: second :: conditions).map parenthesized) := rfl
    have hparts : ((first :: second :: conditions).map parenthesized).map text =
        ((first :: second :: conditions).map text).map Sql.parenthesized := by
      rw [List.map_map, List.map_map]
      exact List.map_congr_left fun m _ => text_parenthesized m
    rw [hmarked, text_join, hparts]
    rfl

theorem sound_parenthesized {s : Scope} {m : Marked} (h : Sound s m) :
    Sound s m.parenthesized :=
  sound_append (sound_append (sound_plain "(") h) (sound_plain ")")

theorem sound_conjunction {s : Scope} {conditions : List Marked}
    (h : ∀ condition ∈ conditions, Sound s condition) : Sound s (conjunction conditions) := by
  match conditions with
  | [] => exact sound_plain ""
  | [condition] => exact h condition List.mem_cons_self
  | first :: second :: conditions =>
    apply sound_join
    intro part hpart
    obtain ⟨condition, hc, rfl⟩ := List.mem_map.1 hpart
    exact sound_parenthesized (h condition hc)

theorem sound_flatten {s : Scope} {parts : List Marked} (h : ∀ part ∈ parts, Sound s part) :
    Sound s parts.flatten := by
  induction parts with
  | nil => exact sound_plain ""
  | cons m parts ih =>
    have hrest := ih fun part hpart => h part (List.mem_cons_of_mem m hpart)
    exact sound_append (h m List.mem_cons_self) hrest

end Marked

namespace MarkedQuery

open Marked (plain)

/-- The query alone. -/
def query (m : MarkedQuery) : Query :=
  { items := m.items.map fun item => ⟨item.expression.text, item.label⟩
    source := m.source
    joins := m.joins.map fun j => ⟨j.kind, j.table, j.tableAlias, j.on.map Marked.text⟩
    conditions := m.conditions.map Marked.text
    ordering := m.ordering.map Marked.text
    limit := m.limit }

/-! ### Operations -/

/-- Add an expression to the select list, with or without a label. -/
def addItem (m : MarkedQuery) (expression : Marked) (label : Option String) : MarkedQuery :=
  { m with items := m.items ++ [{ expression, label }] }

/-- Set the main table. -/
def fromTable (m : MarkedQuery) (table tableAlias : String) : MarkedQuery :=
  { m with source := some ⟨quoteIdent table, tableAlias⟩ }

/-- Join a table. -/
def join (m : MarkedQuery) (kind : JoinKind) (table tableAlias : String) (on : Option Marked) :
    MarkedQuery :=
  { m with joins := m.joins ++ [⟨kind, quoteIdent table, tableAlias, on⟩] }

/-- Conjoin a condition. -/
def andWhere (m : MarkedQuery) (condition : Marked) : MarkedQuery :=
  { m with conditions := m.conditions ++ [condition] }

/-- Disjoin a condition with all that is conjoined so far. -/
def orWhere (m : MarkedQuery) (condition : Marked) : MarkedQuery :=
  match m.conditions with
  | [] => { m with conditions := [condition] }
  | conditions =>
    { m with conditions :=
        [(Marked.conjunction conditions).parenthesized ++ plain " OR " ++
          condition.parenthesized] }

/-- Order by an expression, after the terms there are. -/
def orderBy (m : MarkedQuery) (expression : Marked) (order : SortOrder) : MarkedQuery :=
  { m with ordering := m.ordering ++ [expression ++ plain (" " ++ order.keyword)] }

/-- Take the labelled items out of the select list, as pairs of label and expression. -/
def takeLabelled (m : MarkedQuery) : List (String × Marked) × MarkedQuery :=
  (m.items.filterMap fun item => item.label.map fun label => (label, item.expression),
    { m with items := m.items.filter fun item => item.label.isNone })

/-- Take ordering and limit out. -/
def takeOrdering (m : MarkedQuery) : (List Marked × Option Nat) × MarkedQuery :=
  ((m.ordering, m.limit), { m with ordering := [], limit := none })

/-- Perform an operation with a text. -/
def operate (m : MarkedQuery) (text : Marked) : Operation → Building MarkedQuery
  | .select => pure { m with items := [{ expression := text }] }
  | .addSelect => pure (m.addItem text none)
  | .addSelectAs label => pure (m.addItem text (some label))
  | .fromTable table tableAlias => pure (m.fromTable table tableAlias)
  | .fromFresh table hint => do pure (m.fromTable table (← freshAlias hint))
  | .join kind table tableAlias => pure (m.join kind table tableAlias (some text))
  | .crossJoin table tableAlias => pure (m.join .cross table tableAlias none)
  | .innerJoinWith table tableAlias params => do
    pure (m.join .inner table tableAlias (some (← text.bindTemplate params)))
  | .andWhere => pure (m.andWhere text)
  | .andWhereWith params => do pure (m.andWhere (← text.bindTemplate params))
  | .orWhere => pure (m.orWhere text)
  | .orderBy order => pure (m.orderBy text order)
  | .withLimit limit => pure { m with limit := some limit }

/-! ### Text -/

/-- The text of an item. -/
def itemText (item : MarkedItem) : Marked :=
  match item.label with
  | some label => item.expression ++ plain (" AS " ++ quoteIdent label)
  | none => item.expression

/-- The text of a join. -/
def joinText (j : MarkedJoin) : Marked :=
  match j.kind, j.on with
  | .cross, _ | _, none => plain (" CROSS JOIN " ++ j.table ++ " " ++ j.tableAlias)
  | kind, some on =>
    plain (" " ++ kind.keyword ++ " JOIN " ++ j.table ++ " " ++ j.tableAlias ++ " ON ") ++ on

/-- The text of the select list. -/
def itemsText : List MarkedItem → Marked
  | [] => plain "1"
  | items => Marked.join ", " (items.map itemText)

/-- The text of the WHERE clause. -/
def conditionsText : List Marked → Marked
  | [] => plain ""
  | conditions => plain " WHERE " ++ Marked.conjunction conditions

/-- The text of the ORDER BY clause. -/
def orderingText : List Marked → Marked
  | [] => plain ""
  | terms => plain " ORDER BY " ++ Marked.join ", " terms

/-- The text of a query. -/
def text (m : MarkedQuery) : Marked :=
  plain "SELECT " ++ itemsText m.items ++ plain (Query.sourceText m.source) ++
    (m.joins.map joinText).flatten ++ conditionsText m.conditions ++
    orderingText m.ordering ++ plain (Query.limitText m.limit)

/-- The query in parentheses, to be embedded in another. -/
def embedded (m : MarkedQuery) : Marked := m.text.parenthesized

/-! ### Operations do to the query what they do without the marks -/

variable (m : MarkedQuery)

theorem text_itemText (item : MarkedItem) :
    (itemText item).text = Query.itemText ⟨item.expression.text, item.label⟩ := by
  unfold itemText Query.itemText
  cases item.label with
  | none => rfl
  | some label => simp [String.append_assoc]

theorem text_joinText (j : MarkedJoin) :
    (joinText j).text = Query.joinText ⟨j.kind, j.table, j.tableAlias, j.on.map Marked.text⟩ := by
  obtain ⟨kind, table, tableAlias, on⟩ := j
  cases kind <;> cases on <;> simp [joinText, Query.joinText]

theorem text_itemsText (items : List MarkedItem) :
    (itemsText items).text =
      Query.itemsText (items.map fun item => ⟨item.expression.text, item.label⟩) := by
  cases items with
  | nil => exact Marked.text_plain "1"
  | cons item items =>
    have hparts : ((item :: items).map itemText).map Marked.text =
        ((item :: items).map fun item : MarkedItem =>
          (⟨item.expression.text, item.label⟩ : SelectItem)).map Query.itemText := by
      rw [List.map_map, List.map_map]
      exact List.map_congr_left fun item _ => text_itemText item
    have hmarked : itemsText (item :: items) =
        Marked.join ", " ((item :: items).map itemText) := rfl
    rw [hmarked, Marked.text_join, hparts]
    rfl

theorem text_conditionsText (conditions : List Marked) :
    (conditionsText conditions).text = Query.conditionsText (conditions.map Marked.text) := by
  cases conditions with
  | nil => exact Marked.text_plain ""
  | cons condition conditions =>
    have hmarked : conditionsText (condition :: conditions) =
        plain " WHERE " ++ Marked.conjunction (condition :: conditions) := rfl
    rw [hmarked, Marked.text_append, Marked.text_plain, Marked.text_conjunction]
    rfl

theorem text_orderingText (terms : List Marked) :
    (orderingText terms).text = Query.orderingText (terms.map Marked.text) := by
  cases terms with
  | nil => exact Marked.text_plain ""
  | cons term terms =>
    have hmarked : orderingText (term :: terms) =
        plain " ORDER BY " ++ Marked.join ", " (term :: terms) := rfl
    rw [hmarked, Marked.text_append, Marked.text_plain, Marked.text_join]
    rfl

/-- The text of a marked query is that of the query. -/
theorem text_text : m.text.text = m.query.text := by
  have hjoins : (m.joins.map joinText).map Marked.text = m.query.joins.map Query.joinText := by
    change _ = (m.joins.map _).map _
    rw [List.map_map, List.map_map]
    exact List.map_congr_left fun j _ => text_joinText j
  unfold text Query.text
  simp only [Marked.text_append, Marked.text_plain, text_itemsText, text_conditionsText,
    text_orderingText, Marked.text_flatten, hjoins]
  rfl

theorem text_embedded : m.embedded.text = m.query.embedded := by
  unfold embedded Query.embedded
  rw [Marked.text_parenthesized, text_text]

theorem query_addItem (expression : Marked) (label : Option String) :
    (m.addItem expression label).query =
      { m.query with items := m.query.items ++ [⟨expression.text, label⟩] } := by
  simp [addItem, query]

theorem query_join (kind : JoinKind) (table tableAlias : String) (on : Option Marked) :
    (m.join kind table tableAlias on).query =
      m.query.join kind table tableAlias (on.map Marked.text) := by
  simp [join, Query.join, query]

theorem query_andWhere (condition : Marked) :
    (m.andWhere condition).query = m.query.andWhere condition.text := by
  simp [andWhere, Query.andWhere, query]

theorem query_orWhere (condition : Marked) :
    (m.orWhere condition).query = m.query.orWhere condition.text := by
  cases hconditions : m.conditions with
  | nil => simp [orWhere, Query.orWhere, query, hconditions]
  | cons first conditions =>
    simp [orWhere, Query.orWhere, query, hconditions, String.append_assoc]

theorem query_orderBy (expression : Marked) (order : SortOrder) :
    (m.orderBy expression order).query = m.query.orderBy expression.text order := by
  simp [orderBy, Query.orderBy, query, String.append_assoc]

/-- An operation does to the query what it does without the marks. -/
theorem query_operate (text : Marked) (operation : Operation) (s : Scope) :
    m.query.operate text.text operation s =
      ((m.operate text operation s).1.query, (m.operate text operation s).2) := by
  cases operation with
  | select | fromTable | fromFresh | withLimit => rfl
  | addSelect =>
    change (_, s) = ((m.addItem text none).query, s)
    rw [query_addItem]
    rfl
  | addSelectAs label =>
    change (_, s) = ((m.addItem text (some label)).query, s)
    rw [query_addItem]
    rfl
  | join kind table tableAlias =>
    change (_, s) = ((m.join kind table tableAlias (some text)).query, s)
    rw [query_join]
    rfl
  | crossJoin table tableAlias =>
    change (_, s) = ((m.join .cross table tableAlias none).query, s)
    rw [query_join]
    rfl
  | innerJoinWith table tableAlias params =>
    change (m.query.join .inner table tableAlias (some (bindTemplate text.text params s).1),
      (bindTemplate text.text params s).2) =
        ((m.join .inner table tableAlias (some (text.bindTemplate params s).1)).query, _)
    rw [Marked.text_bindTemplate, query_join]
    rfl
  | andWhere =>
    change (_, s) = ((m.andWhere text).query, s)
    rw [query_andWhere]
  | andWhereWith params =>
    change (m.query.andWhere (bindTemplate text.text params s).1,
      (bindTemplate text.text params s).2) = ((m.andWhere (text.bindTemplate params s).1).query, _)
    rw [Marked.text_bindTemplate, query_andWhere]
    rfl
  | orWhere =>
    change (_, s) = ((m.orWhere text).query, s)
    rw [query_orWhere]
  | orderBy order =>
    change (_, s) = ((m.orderBy text order).query, s)
    rw [query_orderBy]

/-- Taking the labelled items gives their texts, and leaves the query that it leaves without the
marks. -/
theorem query_takeLabelled :
    m.query.takeLabelled =
      (m.takeLabelled.1.map fun pair => (pair.1, pair.2.text), m.takeLabelled.2.query) := by
  simp [takeLabelled, Query.takeLabelled, query, List.map_filterMap, List.filterMap_map,
    Function.comp_def, List.filter_map]

theorem query_takeOrdering :
    m.query.takeOrdering =
      ((m.takeOrdering.1.1.map Marked.text, m.takeOrdering.1.2), m.takeOrdering.2.query) :=
  rfl

/-! ### Occurrences in queries -/

/-- Every occurrence in a query stands for the value it was given last. -/
structure Sound (s : Scope) (m : MarkedQuery) : Prop where
  items : ∀ item ∈ m.items, Marked.Sound s item.expression
  joins : ∀ j ∈ m.joins, ∀ on ∈ j.on, Marked.Sound s on
  conditions : ∀ condition ∈ m.conditions, Marked.Sound s condition
  ordering : ∀ term ∈ m.ordering, Marked.Sound s term

section

variable {s : Scope}

theorem sound_itemText {item : MarkedItem} (h : Marked.Sound s item.expression) :
    Marked.Sound s (itemText item) := by
  unfold itemText
  cases item.label with
  | none => exact h
  | some label => exact Marked.sound_append h (Marked.sound_plain _)

theorem sound_itemsText {items : List MarkedItem}
    (h : ∀ item ∈ items, Marked.Sound s item.expression) : Marked.Sound s (itemsText items) := by
  cases items with
  | nil => exact Marked.sound_plain "1"
  | cons first items =>
    apply Marked.sound_join
    intro part hpart
    obtain ⟨item, hitem, rfl⟩ := List.mem_map.1 hpart
    exact sound_itemText (h item hitem)

theorem sound_joinText {j : MarkedJoin} (h : ∀ on ∈ j.on, Marked.Sound s on) :
    Marked.Sound s (joinText j) := by
  obtain ⟨kind, table, tableAlias, on⟩ := j
  cases on with
  | none => cases kind <;> exact Marked.sound_plain _
  | some on =>
    have hon : Marked.Sound s on := h on rfl
    cases kind with
    | cross => exact Marked.sound_plain _
    | inner | left => exact Marked.sound_append (Marked.sound_plain _) hon

theorem sound_conditionsText {conditions : List Marked}
    (h : ∀ condition ∈ conditions, Marked.Sound s condition) :
    Marked.Sound s (conditionsText conditions) := by
  cases conditions with
  | nil => exact Marked.sound_plain ""
  | cons first conditions =>
    exact Marked.sound_append (Marked.sound_plain " WHERE ") (Marked.sound_conjunction h)

theorem sound_orderingText {terms : List Marked} (h : ∀ term ∈ terms, Marked.Sound s term) :
    Marked.Sound s (orderingText terms) := by
  cases terms with
  | nil => exact Marked.sound_plain ""
  | cons first terms =>
    exact Marked.sound_append (Marked.sound_plain " ORDER BY ") (Marked.sound_join h)

end

namespace Sound

variable {s t : Scope} {m : MarkedQuery} {part : Marked}

theorem grow (h : m.Sound s) (hgrows : s.params <+: t.params) : m.Sound t where
  items := fun item hitem => (h.items item hitem).grow hgrows
  joins := fun j hj on hon => (h.joins j hj on hon).grow hgrows
  conditions := fun condition hc => (h.conditions condition hc).grow hgrows
  ordering := fun term hterm => (h.ordering term hterm).grow hgrows

theorem empty : Sound s {} where
  items := fun _ h => absurd h List.not_mem_nil
  joins := fun _ h => absurd h List.not_mem_nil
  conditions := fun _ h => absurd h List.not_mem_nil
  ordering := fun _ h => absurd h List.not_mem_nil

theorem addItem (h : m.Sound s) (hpart : Marked.Sound s part) (label : Option String) :
    (m.addItem part label).Sound s := by
  refine ⟨?_, h.joins, h.conditions, h.ordering⟩
  intro item hitem
  rcases List.mem_append.1 hitem with hitem | hitem
  · exact h.items item hitem
  · rw [List.mem_singleton.1 hitem]
    exact hpart

theorem join (h : m.Sound s) (kind : JoinKind) (table tableAlias : String) {on : Option Marked}
    (hon : ∀ part ∈ on, Marked.Sound s part) : (m.join kind table tableAlias on).Sound s := by
  refine ⟨h.items, ?_, h.conditions, h.ordering⟩
  intro j hj
  rcases List.mem_append.1 hj with hj | hj
  · exact h.joins j hj
  · rw [List.mem_singleton.1 hj]
    exact hon

theorem andWhere (h : m.Sound s) (hpart : Marked.Sound s part) : (m.andWhere part).Sound s := by
  refine ⟨h.items, h.joins, ?_, h.ordering⟩
  intro condition hc
  rcases List.mem_append.1 hc with hc | hc
  · exact h.conditions condition hc
  · rw [List.mem_singleton.1 hc]
    exact hpart

theorem orWhere (h : m.Sound s) (hpart : Marked.Sound s part) : (m.orWhere part).Sound s := by
  unfold MarkedQuery.orWhere
  cases hconditions : m.conditions with
  | nil =>
    refine ⟨h.items, h.joins, ?_, h.ordering⟩
    intro condition hc
    rw [List.mem_singleton.1 hc]
    exact hpart
  | cons first conditions =>
    refine ⟨h.items, h.joins, ?_, h.ordering⟩
    intro condition hc
    have hall : Marked.Sound s (Marked.conjunction (first :: conditions)) := by
      rw [← hconditions]
      exact Marked.sound_conjunction h.conditions
    rw [List.mem_singleton.1 hc]
    exact Marked.sound_append
      (Marked.sound_append (Marked.sound_parenthesized hall) (Marked.sound_plain " OR "))
      (Marked.sound_parenthesized hpart)

theorem orderBy (h : m.Sound s) (hpart : Marked.Sound s part) (order : SortOrder) :
    (m.orderBy part order).Sound s := by
  refine ⟨h.items, h.joins, h.conditions, ?_⟩
  intro term hterm
  rcases List.mem_append.1 hterm with hterm | hterm
  · exact h.ordering term hterm
  · rw [List.mem_singleton.1 hterm]
    exact Marked.sound_append hpart (Marked.sound_plain _)

theorem takeLabelled (h : m.Sound s) :
    (∀ pair ∈ m.takeLabelled.1, Marked.Sound s pair.2) ∧ m.takeLabelled.2.Sound s := by
  refine ⟨?_, fun item hitem => h.items item (List.mem_of_mem_filter hitem), h.joins,
    h.conditions, h.ordering⟩
  intro pair hpair
  obtain ⟨item, hitem, hlabel⟩ := List.mem_filterMap.1 hpair
  obtain ⟨label, -, rfl⟩ := Option.map_eq_some_iff.1 hlabel
  exact h.items item hitem

theorem takeOrdering (h : m.Sound s) :
    (∀ term ∈ m.takeOrdering.1.1, Marked.Sound s term) ∧ m.takeOrdering.2.Sound s :=
  ⟨h.ordering, h.items, h.joins, h.conditions, fun _ hterm => absurd hterm List.not_mem_nil⟩

/-- After an operation, every occurrence in the query stands for the value it was given last. -/
theorem operate (h : m.Sound s) (hs : s.Valid) (hpart : Marked.Sound s part)
    (operation : Operation) (hv : ∀ entry ∈ operation.params, entry.2.Valid) :
    s.params <+: (m.operate part operation s).2.params ∧ (m.operate part operation s).2.Valid ∧
      (m.operate part operation s).1.Sound (m.operate part operation s).2 := by
  cases operation with
  | select =>
    refine ⟨List.prefix_rfl, hs, ?_, h.joins, h.conditions, h.ordering⟩
    intro item hitem
    rw [List.mem_singleton.1 hitem]
    exact hpart
  | addSelect => exact ⟨List.prefix_rfl, hs, h.addItem hpart none⟩
  | addSelectAs label => exact ⟨List.prefix_rfl, hs, h.addItem hpart (some label)⟩
  | fromTable | withLimit =>
    exact ⟨List.prefix_rfl, hs, h.items, h.joins, h.conditions, h.ordering⟩
  | fromFresh table hint =>
    have hminted : m.Sound (freshAlias hint s).2 := h.grow List.prefix_rfl
    exact ⟨List.prefix_rfl, hs, hminted.items, hminted.joins, hminted.conditions,
      hminted.ordering⟩
  | join kind table tableAlias =>
    refine ⟨List.prefix_rfl, hs, h.join kind table tableAlias ?_⟩
    intro on hon
    rw [← Option.mem_some.1 hon]
    exact hpart
  | crossJoin table tableAlias =>
    exact ⟨List.prefix_rfl, hs, h.join .cross table tableAlias fun _ hon =>
      absurd hon (Option.not_mem_none _)⟩
  | innerJoinWith table tableAlias params =>
    obtain ⟨hgrows, ht, hbound⟩ := Marked.sound_bindTemplate hs hpart hv
    refine ⟨hgrows, ht, (h.grow hgrows).join .inner table tableAlias ?_⟩
    intro on hon
    rw [← Option.mem_some.1 hon]
    exact hbound
  | andWhere => exact ⟨List.prefix_rfl, hs, h.andWhere hpart⟩
  | andWhereWith params =>
    obtain ⟨hgrows, ht, hbound⟩ := Marked.sound_bindTemplate hs hpart hv
    exact ⟨hgrows, ht, (h.grow hgrows).andWhere hbound⟩
  | orWhere => exact ⟨List.prefix_rfl, hs, h.orWhere hpart⟩
  | orderBy order => exact ⟨List.prefix_rfl, hs, h.orderBy hpart order⟩

/-- Every occurrence in the text of a query stands for the value it was given last. -/
theorem text (h : m.Sound s) : Marked.Sound s m.text := by
  have hitems := sound_itemsText h.items
  have hjoins : Marked.Sound s (m.joins.map joinText).flatten := by
    apply Marked.sound_flatten
    intro part hpart
    obtain ⟨j, hj, rfl⟩ := List.mem_map.1 hpart
    exact sound_joinText (h.joins j hj)
  have hconditions := sound_conditionsText h.conditions
  have hordering := sound_orderingText h.ordering
  have hsource := Marked.sound_plain (s := s) (Query.sourceText m.source)
  have hlimit := Marked.sound_plain (s := s) (Query.limitText m.limit)
  have hselect := Marked.sound_append (Marked.sound_plain "SELECT ") hitems
  have hfrom := Marked.sound_append (Marked.sound_append hselect hsource) hjoins
  exact Marked.sound_append
    (Marked.sound_append (Marked.sound_append hfrom hconditions) hordering) hlimit

end Sound

end MarkedQuery

end Sql

end ObjectGraph
