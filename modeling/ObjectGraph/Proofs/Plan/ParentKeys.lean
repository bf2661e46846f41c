import ObjectGraph.Proofs.Plan.Growth
import ObjectGraph.Proofs.Sql.Comparisons
import ObjectGraph.Proofs.Sql.Minting
import ObjectGraph.Proofs.Sql.Parameters
import ObjectGraph.Proofs.Sql.Renaming

/-! # Restriction to parents

A follow-up whose join is more than a pair of columns is restricted to the parents that have one of
the given keys.  The condition is written in three ways: one key column is looked for in a list of
values, several are compared one by one, and where no key is given nothing is let through.  The
names under which the components are bound differ, so none of them is renamed (`bindElements_free`,
`keyConditions_free`), and what they are bound to stays as the statement is compiled further.

Where the parents have a key column, the condition is true of a row exactly if its key is one of
those given (`parents_restricted`).  Where they have none, and keys are given, each alternative is
empty, which is no condition at all. -/

namespace ObjectGraph

namespace Sql

section

variable {s t : Scope} {params : Params} {name other : String} {value : Json}

/-- A value is bound under its own name if that is free. -/
theorem bind_free (h : s.params.get? name = none) :
    bind name value s = (name, { s with params := s.params ++ [(name, value)] }) := by
  have hfirst : First s.params name value 0 := by
    refine ⟨?_, fun j hj => absurd hj (Nat.not_lt_zero j)⟩
    change Scope.accepts s.params value name = true
    rw [Scope.accepts, h]
  have hname : Scope.nameFor s.params name value = name := nameFor_eq hfirst
  unfold bind
  dsimp only
  rw [hname, h]

theorem get?_append_ne (h : other ≠ name) :
    Dictionary.get? (params ++ [(name, value)]) other = params.get? other := by
  have hlast : [(name, value)].lookup other = none := by
    rw [List.lookup_cons, beq_false_of_ne h]
    rfl
  unfold Dictionary.get?
  rw [Dictionary.lookup_append, hlast, Option.or_none]

/-- The elements of a list are bound as they are, under consecutive names that are free, and nothing
else is. -/
theorem bindElements_free (name : String) {index : Nat} (items : List Json)
    (hfree : ∀ k, index ≤ k → s.params.get? (name ++ "_" ++ toString k) = none) :
    (bindElements name index items s).1 =
        (List.range' index items.length).map (name ++ "_" ++ toString ·) ∧
      List.Forall₂ (fun k value => (bindElements name index items s).2.params.get?
          (name ++ "_" ++ toString k) = some value) (List.range' index items.length) items ∧
      (bindElements name index items s).2.params = s.params ++
        (items.zipIdx index).map fun item => (name ++ "_" ++ toString item.2, item.1) := by
  induction items generalizing index s with
  | nil => exact ⟨rfl, .nil, (List.append_nil _).symm⟩
  | cons item items ih =>
    obtain ⟨t, ht⟩ : ∃ t : Scope, t = { s with params := s.params ++
      [(name ++ "_" ++ toString index, item)] } := ⟨_, rfl⟩
    have hbind : bind (name ++ "_" ++ toString index) item s = (_, t) :=
      ht ▸ bind_free (hfree index (Nat.le_refl _))
    have hrun : bindElements name index (item :: items) s =
        ((bind (name ++ "_" ++ toString index) item s).1 ::
          (bindElements name (index + 1) items (bind (name ++ "_" ++ toString index) item s).2).1,
          (bindElements name (index + 1) items
            (bind (name ++ "_" ++ toString index) item s).2).2) := rfl
    rw [hbind] at hrun
    have hheld : t.params.get? (name ++ "_" ++ toString index) = some item := by
      rw [ht]
      exact get?_append (hfree index (Nat.le_refl _))
    have hlater : ∀ k, index + 1 ≤ k → t.params.get? (name ++ "_" ++ toString k) = none := by
      intro k hk
      rw [ht]
      change Dictionary.get? (s.params ++ [_]) _ = none
      rw [get?_append_ne]
      · exact hfree k (by omega)
      · intro heq
        have := number_inj heq
        omega
    obtain ⟨hnames, hothers, hparams⟩ := ih hlater
    rw [hrun, List.length_cons, List.range'_succ, List.map_cons, hnames]
    have hlast := (bindElements_byCalls name (index + 1) items).grows t
    refine ⟨rfl, .cons (get?_of_grows hlast hheld) hothers, ?_⟩
    rw [hparams, ht, List.append_assoc]
    rfl

end

end Sql

namespace Plan

open Sql (Query Scope Building AliasedRow AsOperand AsCondition WellFormed IsAlias Truth Bindable
  equality qualified parenthesized)
open Schema (TypeMapping Relation)

/-! ### Keys -/

/-- The truth of a row having a key, component by component. -/
noncomputable def keyTruth (row : AliasedRow) (columns : List String) (key : List Json) : Truth :=
  ((columns.zip key).map fun part => equality (row.value part.1) part.2).foldr Truth.and .yes

theorem keyTruth_eq_yes {row : AliasedRow} {columns : List String} {key : List Json}
    (h : key.length = columns.length) :
    keyTruth row columns key = .yes ↔
      List.Forall₂ Json.SqlEqual (columns.map row.value) key := by
  unfold keyTruth
  induction columns generalizing key with
  | nil =>
    rw [List.length_eq_zero_iff.1 h]
    exact iff_of_true rfl .nil
  | cons column columns ih =>
    cases key with
    | nil => cases h
    | cons value key =>
      rw [List.zip_cons_cons, List.map_cons, List.foldr_cons, Truth.and_eq_yes,
        Sql.equality_eq_yes, ih (Nat.succ.inj h), List.map_cons, List.forall₂_cons]

/-- The name under which a component of a key is bound. -/
def keyParam (index component : Nat) : String :=
  "parentKey_" ++ toString index ++ "_" ++ toString component

theorem keyParam_inj {i j k l : Nat} (h : keyParam i j = keyParam k l) : i = k ∧ j = l := by
  have hcomponent : j = l := Sql.number_inj h
  subst hcomponent
  unfold keyParam at h
  have hindex := (String.append_right_inj _).1
    ((String.append_left_inj _).1 ((String.append_left_inj _).1 h))
  exact ⟨Sql.toString_inj hindex, rfl⟩

theorem bindable_keyParam (index component : Nat) : Bindable (keyParam index component) :=
  (Sql.ParamName.parentKey index component).bindable

section

variable {tableAlias : String} {columns : List String} {index component : Nat}
  {keys : List (List Json)} {s t : Scope}

theorem keyCondition_cons_ok {column : String} {value : Json} {parts : List (String × Json)}
    {terms : List String}
    (h : keyCondition tableAlias index component ((column, value) :: parts) s = (terms, t)) :
    ∃ param u more, Sql.bind (keyParam index component) value s = (param, u) ∧
      keyCondition tableAlias index (component + 1) parts u = (more, t) ∧
      terms = (qualified tableAlias column ++ " = :" ++ param) :: more := by
  cases h
  exact ⟨_, _, _, rfl, rfl, rfl⟩

theorem keyConditions_cons_ok {key : List Json} {conditions : List String}
    (h : keyConditions tableAlias columns index (key :: keys) s = (conditions, t)) :
    ∃ terms u more, keyCondition tableAlias index 0 (columns.zip key) s = (terms, u) ∧
      keyConditions tableAlias columns (index + 1) keys u = (more, t) ∧
      conditions = String.intercalate " AND " terms :: more := by
  cases h
  exact ⟨_, _, _, rfl, rfl, rfl⟩

/-- The components of a key are bound as they are, and compared with their columns. -/
theorem keyCondition_free (ha : IsAlias tableAlias) (parts : List (String × Json))
    (hfree : ∀ k, component ≤ k → s.params.get? (keyParam index k) = none) {terms : List String}
    (h : keyCondition tableAlias index component parts s = (terms, t)) :
    s.params <+: t.params ∧
      (∀ i k, i ≠ index → t.params.get? (keyParam i k) = s.params.get? (keyParam i k)) ∧
      (∀ j part, parts[j]? = some part →
        t.params.get? (keyParam index (component + j)) = some part.2) ∧
      ∀ row : AliasedRow, row.tableAlias = tableAlias → t.params <+: row.params →
        List.Forall₂ (AsOperand row) terms
          (parts.map fun part => equality (row.value part.1) part.2) := by
  induction parts generalizing component s terms with
  | nil =>
    cases h
    exact ⟨List.prefix_rfl, fun _ _ _ => rfl, nofun, fun _ _ _ => .nil⟩
  | cons part parts ih =>
    obtain ⟨column, value⟩ := part
    have hown := hfree component (Nat.le_refl _)
    obtain ⟨param, u, rest, hbind, hrun, rfl⟩ := keyCondition_cons_ok h
    obtain ⟨rfl, hu⟩ := Prod.mk.inj ((Sql.bind_free hown).symm.trans hbind)
    have hkept : ∀ i k, (i, k) ≠ (index, component) →
        u.params.get? (keyParam i k) = s.params.get? (keyParam i k) := by
      intro i k hne
      rw [← hu]
      refine Sql.get?_append_ne fun heq => hne ?_
      obtain ⟨rfl, rfl⟩ := keyParam_inj heq
      rfl
    have hheld : u.params.get? (keyParam index component) = some value := by
      rw [← hu]
      exact Sql.get?_append hown
    have hlater : ∀ k, component + 1 ≤ k → u.params.get? (keyParam index k) = none := by
      intro k hk
      rw [hkept index k (by simp only [ne_eq, Prod.mk.injEq]; omega)]
      exact hfree k (by omega)
    obtain ⟨hgrows, hothers, hheldLater, hterms⟩ := ih hlater hrun
    refine ⟨(Sql.bind_grows hbind).trans hgrows, fun i k hi => ?_, fun j part hj => ?_,
      fun row hrow hparams => ?_⟩
    · rw [hothers i k hi, hkept i k fun heq => hi (congrArg Prod.fst heq)]
    · cases j with
      | zero =>
        cases hj
        exact Sql.get?_of_grows hgrows hheld
      | succ j =>
        rw [Nat.add_comm j 1, ← Nat.add_assoc]
        exact hheldLater j part hj
    · subst hrow
      have hget := Sql.get?_of_grows (hgrows.trans hparams) hheld
      rw [← Sql.colon_append " = " " = :" rfl]
      exact .cons (.equal (Sql.asExpression_column ha column)
        (Sql.asExpression_placeholder (bindable_keyParam index component) hget))
        (hterms row rfl hparams)

/-- The alternatives for keys of some columns. -/
theorem keyConditions_free (ha : IsAlias tableAlias) (hcolumns : columns ≠ [])
    (hfree : ∀ i, index ≤ i → ∀ k, s.params.get? (keyParam i k) = none)
    (hwidth : ∀ key ∈ keys, key.length = columns.length) {conditions : List String}
    (h : keyConditions tableAlias columns index keys s = (conditions, t)) :
    s.params <+: t.params ∧
      (∀ i j key value, keys[i]? = some key → key[j]? = some value →
        t.params.get? (keyParam (index + i) j) = some value) ∧
      ∀ row : AliasedRow, row.tableAlias = tableAlias → t.params <+: row.params →
        List.Forall₂ (AsCondition row) conditions (keys.map (keyTruth row columns)) := by
  induction keys generalizing index s conditions with
  | nil =>
    cases h
    exact ⟨List.prefix_rfl, nofun, fun _ _ _ => .nil⟩
  | cons key keys ih =>
    obtain ⟨terms, u, rest, hkey, hrest, rfl⟩ := keyConditions_cons_ok h
    have hlength := hwidth key List.mem_cons_self
    obtain ⟨hgrows, hothers, hheld, hterms⟩ :=
      keyCondition_free ha _ (fun k _ => hfree index (Nat.le_refl _) k) hkey
    have hlater : ∀ i, index + 1 ≤ i → ∀ k, u.params.get? (keyParam i k) = none := by
      intro i hi k
      rw [hothers i k (by omega)]
      exact hfree i (by omega) k
    obtain ⟨hgrows', hheldLater, hrest⟩ :=
      ih hlater (fun k hk => hwidth k (List.mem_cons_of_mem _ hk)) hrest
    refine ⟨hgrows.trans hgrows', fun i j key' value hi hj => ?_,
      fun row hrow hparams => .cons ?_ (hrest row hrow hparams)⟩
    · cases i with
      | zero =>
        cases hi
        have hlt : j < columns.length := hlength ▸ (List.getElem?_eq_some_iff.1 hj).1
        have hpart : (columns.zip key)[j]? = some (columns[j], value) :=
          List.getElem?_zip_eq_some.2 ⟨List.getElem?_eq_getElem hlt, hj⟩
        have hget := hheld j _ hpart
        rw [Nat.zero_add] at hget
        exact Sql.get?_of_grows hgrows' hget
      | succ i =>
        rw [Nat.add_comm i 1, ← Nat.add_assoc]
        exact hheldLater i j key' value hi hj
    · have hoperands := hterms row hrow (hgrows'.trans hparams)
      refine AsCondition.conjunction hoperands fun hnil => ?_
      rw [hnil] at hoperands
      have hnone := hoperands.length_eq
      rw [List.length_map, List.length_zip, hlength, Nat.min_self] at hnone
      exact hcolumns (List.length_eq_zero_iff.1 hnone.symm)

end

/-! ### The condition -/

/-- The condition that a row has one of the keys. -/
def parentCondition (tableAlias : String) (columns : List String) (keys : List (List Json)) :
    Building String :=
  match columns with
  | [column] =>
    Sql.bindTemplate (qualified tableAlias column ++ " IN (:...parentKeys)")
      [("parentKeys", .arr (firstComponents keys))]
  | columns => do
    let conditions ← keyConditions tableAlias columns 0 keys
    pure (if conditions.isEmpty then "1 = 0"
      else String.intercalate " OR " (conditions.map parenthesized))

/-- To restrict a query to parents is to add the condition. -/
theorem restrictParents_eq (q : Query) (tableAlias : String) (columns : List String)
    (keys : List (List Json)) (s : Scope) :
    restrictParents q tableAlias columns keys s =
      (q.andWhere (parentCondition tableAlias columns keys s).1,
        (parentCondition tableAlias columns keys s).2) := by
  match columns with
  | [] => rfl
  | [_] => rfl
  | _ :: _ :: _ => rfl

section

variable {tableAlias : String} {columns : List String} {keys : List (List Json)} {s t : Scope}
  {row : AliasedRow} {condition : String}

/-- A text is a condition that holds of a row exactly if it has one of the keys. -/
def Tells (row : AliasedRow) (columns : List String) (keys : List (List Json))
    (condition : String) : Prop :=
  ∃ t, AsCondition row condition t ∧
    (t = .yes ↔ ∃ key ∈ keys, List.Forall₂ Json.SqlEqual (columns.map row.value) key)

/-- Nothing has one of no keys. -/
theorem tells_none : Tells row columns [] "1 = 0" := by
  have hone : Sql.AsExpression row "1" (Json.ofNat 1) :=
    Sql.asExpression_word rfl rfl
      (.number (List.cons_ne_nil _ _) (List.forall_mem_singleton.2 rfl)) rfl
  have hzero : Sql.AsExpression row "0" (Json.ofNat 0) :=
    Sql.asExpression_word rfl rfl
      (.number (List.cons_ne_nil _ _) (List.forall_mem_singleton.2 rfl)) rfl
  refine ⟨_, (AsOperand.equal hone hzero).alone, ?_⟩
  rw [Sql.equality_eq_yes]
  refine iff_of_false (fun hequal => ?_) fun ⟨key, hmem, _⟩ => absurd hmem List.not_mem_nil
  cases Number.units_int_inj hequal

theorem keys_of_one (hwidth : ∀ key ∈ keys, key.length = 1) :
    keys = (firstComponents keys).map fun value => [value] := by
  induction keys with
  | nil => rfl
  | cons key keys ih =>
    obtain ⟨value, rfl⟩ := List.length_eq_one_iff.1 (hwidth key List.mem_cons_self)
    change [value] :: keys = [value] :: (firstComponents keys).map fun value => [value]
    rw [← ih fun k hk => hwidth k (List.mem_cons_of_mem _ hk)]

/-- One key column is looked for among the values of the keys. -/
theorem tells_one {column : String} (ha : IsAlias tableAlias) (hs : s.params = [])
    (hwidth : ∀ key ∈ keys, key.length = 1)
    (h : parentCondition tableAlias [column] keys s = (condition, t))
    (hrow : row.tableAlias = tableAlias) (hparams : t.params <+: row.params) :
    Tells row [column] keys condition := by
  subst hrow
  obtain ⟨values, hvalues⟩ : ∃ values, values = firstComponents keys := ⟨_, rfl⟩
  have hcolumn := Sql.asExpression_column ha column
  change Sql.bindTemplate _ _ s = _ at h
  rw [Sql.bindTemplate_in ha.1, ← hvalues] at h
  have hmatch : (∃ key ∈ keys, List.Forall₂ Json.SqlEqual ([column].map row.value) key) ↔
      ∃ value ∈ values, Json.SqlEqual (row.value column) value := by
    rw [keys_of_one hwidth, ← hvalues]
    simp
  unfold Tells
  rw [hmatch]
  cases values with
  | nil =>
    cases h
    refine ⟨_, (AsOperand.among hcolumn (.cons Sql.asExpression_null .nil)
      (List.cons_ne_nil _ _)).alone, ?_⟩
    rw [Sql.among_eq_yes]
    refine iff_of_false ?_ fun ⟨value, hmem, _⟩ => absurd hmem List.not_mem_nil
    rintro ⟨value, hmem, hequal⟩
    rw [List.mem_singleton.1 hmem] at hequal
    exact Sql.not_sqlEqual_null _ hequal
  | cons value values =>
    cases h
    have hfree : ∀ k, 0 ≤ k → s.params.get? ("parentKeys" ++ "_" ++ toString k) = none := by
      intro k _
      rw [hs]
      rfl
    obtain ⟨hnames, hbound, -⟩ := Sql.bindElements_free "parentKeys" (value :: values) hfree
    have hlist : List.Forall₂ (Sql.AsExpression row)
        ((Sql.bindElements "parentKeys" 0 (value :: values) s).1.map (":" ++ ·))
        (value :: values) := by
      rw [hnames, List.map_map, List.forall₂_map_left_iff]
      refine hbound.imp fun k held hget => ?_
      exact Sql.asExpression_placeholder (Sql.ParamName.parentKeys.bindable.numbered k)
        (Sql.get?_of_grows hparams hget)
    have hne : (Sql.bindElements "parentKeys" 0 (value :: values) s).1.map (":" ++ ·) ≠ [] :=
      List.cons_ne_nil _ _
    exact ⟨_, (AsOperand.among hcolumn hlist hne).alone, Sql.among_eq_yes⟩

/-- The condition of several key columns, or of none. -/
theorem parentCondition_several (hone : columns.length ≠ 1)
    (h : parentCondition tableAlias columns keys s = (condition, t)) :
    ∃ conditions, keyConditions tableAlias columns 0 keys s = (conditions, t) ∧
      condition = if conditions.isEmpty then "1 = 0"
        else String.intercalate " OR " (conditions.map parenthesized) := by
  match columns, hone with
  | [], _ =>
    cases h
    exact ⟨_, rfl, rfl⟩
  | _ :: _ :: _, _ =>
    cases h
    exact ⟨_, rfl, rfl⟩

/-- Several key columns are compared one by one with the components of some key. -/
theorem tells_several (ha : IsAlias tableAlias) (hs : s.params = []) (hcolumns : columns ≠ [])
    (hone : columns.length ≠ 1) (hwidth : ∀ key ∈ keys, key.length = columns.length)
    (h : parentCondition tableAlias columns keys s = (condition, t))
    (hrow : row.tableAlias = tableAlias) (hparams : t.params <+: row.params) :
    Tells row columns keys condition := by
  obtain ⟨conditions, hrun, rfl⟩ := parentCondition_several hone h
  have hfree : ∀ i, 0 ≤ i → ∀ k, s.params.get? (keyParam i k) = none := by
    intro i _ k
    rw [hs]
    rfl
  obtain ⟨-, -, hall⟩ := keyConditions_free ha hcolumns hfree hwidth hrun
  have hconditions := hall row hrow hparams
  cases keys with
  | nil =>
    cases hconditions
    exact tells_none
  | cons key keys =>
    have hparts : List.Forall₂ (AsOperand row) (conditions.map parenthesized)
        ((key :: keys).map (keyTruth row columns)) := by
      rw [List.forall₂_map_left_iff]
      exact hconditions.imp fun _ _ hc => hc.parenthesized
    have hne : conditions.map parenthesized ≠ [] := by
      intro hnil
      rw [hnil] at hparts
      cases hparts
    have hnonempty : conditions.isEmpty = false := by
      rw [List.isEmpty_eq_false_iff]
      rintro rfl
      exact hne rfl
    rw [hnonempty]
    refine ⟨_, AsCondition.disjunction hparts hne, ?_⟩
    rw [Truth.any_yes]
    simp only [List.mem_map, exists_exists_and_eq_and]
    refine exists_congr fun k => and_congr_right fun hk => ?_
    exact keyTruth_eq_yes (hwidth k hk)

/-- Without key columns, each key has an empty alternative. -/
theorem keyConditions_nil (tableAlias : String) (index : Nat) (keys : List (List Json))
    (s : Scope) :
    keyConditions tableAlias [] index keys s = (keys.map fun _ => "", s) := by
  induction keys generalizing index with
  | nil => rfl
  | cons key keys ih =>
    change ("" :: (keyConditions tableAlias [] (index + 1) keys s).1,
      (keyConditions tableAlias [] (index + 1) keys s).2) = _
    rw [ih]
    rfl

theorem not_wellFormed_nil (hkeys : keys ≠ [])
    (h : parentCondition tableAlias [] keys s = (condition, t)) : ¬WellFormed condition := by
  obtain ⟨conditions, hrun, rfl⟩ := parentCondition_several (by decide) h
  rw [keyConditions_nil] at hrun
  cases hrun
  have hsep : Sql.Closes " OR " (Sql.spaced ['O', 'R']) := rfl
  have hnonempty : (keys.map fun _ => "").isEmpty = false := by
    rw [List.isEmpty_eq_false_iff]
    exact fun hnil => hkeys (List.map_eq_nil_iff.1 hnil)
  rw [hnonempty, List.map_map]
  refine Sql.not_wellFormed_empty hsep (by decide) (by decide) (fun text hmem => ?_)
    fun hnil => hkeys (List.map_eq_nil_iff.1 hnil)
  obtain ⟨key, -, rfl⟩ := List.mem_map.1 hmem
  rfl

/-- The condition tells the rows that have one of the keys, if there is a key column. -/
theorem tells_keys (ha : IsAlias tableAlias) (hs : s.params = [])
    (hwidth : ∀ key ∈ keys, key.length = columns.length)
    (h : parentCondition tableAlias columns keys s = (condition, t))
    (hrow : row.tableAlias = tableAlias) (hparams : t.params <+: row.params)
    (hsome : columns ≠ [] ∨ keys = []) : Tells row columns keys condition := by
  match columns with
  | [] =>
    obtain rfl : keys = [] := hsome.resolve_left fun hne => hne rfl
    cases h
    exact tells_none
  | [column] => exact tells_one ha hs hwidth h hrow hparams
  | first :: second :: rest =>
    have hone : (first :: second :: rest).length ≠ 1 := by
      rw [List.length_cons, List.length_cons]
      omega
    exact tells_several ha hs (List.cons_ne_nil _ _) hone hwidth h hrow hparams

end

/-! ### Follow-ups -/

/-- The alias of the parents in a follow-up. -/
def parentAlias (parentType : String) : String := (Sql.freshAlias parentType {}).1

/-- The alias of the children in a follow-up, after that of the parents. -/
def childAlias (parentType target : String) : String :=
  (Sql.freshAlias target (Sql.freshAlias parentType {}).2).1

/-- The scope of a follow-up once its parents and its children have their aliases. -/
def pairScope (parentType target : String) : Scope :=
  (Sql.freshAlias target (Sql.freshAlias parentType {}).2).2

/-- The parents and the children of a follow-up side by side. -/
def pairQuery (parentType target : String) (parent child : TypeMapping) : Query :=
  (({} : Query).fromTable (parent.tableName parentType) (parentAlias parentType)).join .cross
    (child.tableName target) (childAlias parentType target) none

section

variable {env : Environment} {parent child : TypeMapping} {relation : Relation}
  {keys : List (List Json)}

/-- A join that is more than a pair of columns is made after the restriction to the parents. -/
theorem childQuery_join {parentType target : String} (hjoin : relation.join.columns? = none)
    {children : ChildQuery} {u : Scope}
    (h : childQuery env parentType target parent child relation keys {} = (children, u)) :
    ∃ q t, restrictParents (pairQuery parentType target parent child) (parentAlias parentType)
        parent.key keys (pairScope parentType target) = (q, t) ∧
      relation.join.apply env.caller (parentAlias parentType) (childAlias parentType target) q t =
        (children.query, u) := by
  unfold childQuery at h
  rw [hjoin] at h
  cases h
  exact ⟨_, _, rfl, rfl⟩

/-- So what is bound in the restriction stays bound. -/
theorem childQuery_restricts {parentType target : String} (hjoin : relation.join.columns? = none)
    {children : ChildQuery} {u : Scope}
    (h : childQuery env parentType target parent child relation keys {} = (children, u)) :
    ∃ q t, restrictParents (pairQuery parentType target parent child) (parentAlias parentType)
        parent.key keys (pairScope parentType target) = (q, t) ∧ t.params <+: u.params := by
  obtain ⟨q, t, hrestrict, happly⟩ := childQuery_join hjoin h
  have hgrows : t.params <+: (relation.join.apply env.caller (parentAlias parentType)
      (childAlias parentType target) q t).2.params :=
    (Schema.join_byCalls _ _ q relation.join).grows t
  rw [happly] at hgrows
  exact ⟨q, t, hrestrict, hgrows⟩

/-- What is bound for the children of a follow-up is a parameter of the statement. -/
theorem compileMany_children {many : ManyPlan} {compiled : Compiled} {resolved : Schema.Resolved}
    (h : compileMany env many keys = .ok compiled)
    (hp : env.registry.lookup many.parentType = .ok parent)
    (hc : env.registry.lookup many.target = .ok child)
    (hr : env.registry.resolve many.parentType many.field = .ok resolved)
    (hn : resolved.relation? = some relation) {children : ChildQuery} {u : Scope}
    (hchildren : childQuery env many.parentType many.target parent child relation keys {} =
      (children, u)) : u.params <+: compiled.statement.params := by
  obtain ⟨-, parent', resolved', relation', child', f, scope, hp', hr', hn', hc', hf, hfinish, -⟩ :=
    compileMany_ok h
  cases hp.symm.trans hp'
  cases hr.symm.trans hr'
  cases hn.symm.trans hn'
  cases hc.symm.trans hc'
  obtain ⟨children', s₁, q', select, s₂, inner, pageAlias, s₃, param, hchildren', hlevel, -, halias,
    hbind, -⟩ := followUpLevel_ok hf
  cases hchildren.symm.trans hchildren'
  have hpage : s₂.params <+: s₃.params := by
    have hgrows := (Sql.freshAlias_byCalls "page").grows s₂
    rwa [halias] at hgrows
  rw [(finish_ok hfinish).1]
  exact (((compileLevel_byCalls env _ none _ _).grows hlevel).trans hpage).trans
    (Sql.bind_grows hbind)

/-- So is what is bound in a restriction to parents. -/
theorem compileMany_grows {many : ManyPlan} {compiled : Compiled} {resolved : Schema.Resolved}
    (h : compileMany env many keys = .ok compiled)
    (hp : env.registry.lookup many.parentType = .ok parent)
    (hc : env.registry.lookup many.target = .ok child)
    (hr : env.registry.resolve many.parentType many.field = .ok resolved)
    (hn : resolved.relation? = some relation) (hjoin : relation.join.columns? = none) {q : Query}
    {t : Scope}
    (hrestrict : restrictParents (pairQuery many.parentType many.target parent child)
      (parentAlias many.parentType) parent.key keys (pairScope many.parentType many.target) =
        (q, t)) : t.params <+: compiled.statement.params := by
  obtain ⟨children, u, hchildren⟩ : ∃ children u, childQuery env many.parentType many.target parent
      child relation keys {} = (children, u) := ⟨_, _, rfl⟩
  obtain ⟨q', t', hrestrict', hjoined⟩ := childQuery_restricts hjoin hchildren
  obtain ⟨-, rfl⟩ := Prod.mk.inj (hrestrict.symm.trans hrestrict')
  exact hjoined.trans (compileMany_children h hp hc hr hn hchildren)

/-- A follow-up is restricted to the parents that have one of the given keys.  The condition that is
added is well-formed if the parents have a key column, or no key is given; then it is true of a row
of a parent, with the parameters of the statement, exactly if the row has one of the keys. -/
theorem parents_restricted {many : ManyPlan} {compiled : Compiled} {resolved : Schema.Resolved}
    (h : compileMany env many keys = .ok compiled)
    (hp : env.registry.lookup many.parentType = .ok parent)
    (hc : env.registry.lookup many.target = .ok child)
    (hr : env.registry.resolve many.parentType many.field = .ok resolved)
    (hn : resolved.relation? = some relation) (hjoin : relation.join.columns? = none)
    (hwidth : ∀ key ∈ keys, key.length = parent.key.length) :
    ∃ condition t,
      restrictParents (pairQuery many.parentType many.target parent child)
          (parentAlias many.parentType) parent.key keys
          (pairScope many.parentType many.target) =
        ((pairQuery many.parentType many.target parent child).andWhere condition, t) ∧
      (WellFormed condition ↔ parent.key ≠ [] ∨ keys = []) ∧
      (WellFormed condition → ∀ value : String → Json,
        (Sql.truth (AliasedRow.atoms ⟨parentAlias many.parentType, value,
            compiled.statement.params⟩) condition = .yes ↔
          ∃ key ∈ keys, List.Forall₂ Json.SqlEqual (parent.key.map value) key)) := by
  obtain ⟨condition, t, hcondition⟩ : ∃ condition t, parentCondition (parentAlias many.parentType)
      parent.key keys (pairScope many.parentType many.target) = (condition, t) := ⟨_, _, rfl⟩
  have hrestrict : restrictParents (pairQuery many.parentType many.target parent child)
      (parentAlias many.parentType) parent.key keys (pairScope many.parentType many.target) =
        ((pairQuery many.parentType many.target parent child).andWhere condition, t) := by
    rw [restrictParents_eq, hcondition]
  have hgrows := compileMany_grows h hp hc hr hn hjoin hrestrict
  have hparent : IsAlias (parentAlias many.parentType) := Sql.isAlias_aliasFor {} _
  have htells : ∀ value : String → Json, parent.key ≠ [] ∨ keys = [] →
      Tells ⟨parentAlias many.parentType, value, compiled.statement.params⟩ parent.key keys
        condition :=
    fun value hsome => tells_keys hparent rfl hwidth hcondition rfl hgrows hsome
  have hwellFormed : WellFormed condition ↔ parent.key ≠ [] ∨ keys = [] := by
    constructor
    · intro hwell
      by_contra hnone
      obtain ⟨hkey, hkeys⟩ := not_or.1 hnone
      rw [not_not.1 hkey] at hcondition
      exact not_wellFormed_nil hkeys hcondition hwell
    · intro hsome
      obtain ⟨_, htrue, -⟩ := htells (fun _ => .null) hsome
      exact htrue.wellFormed
  refine ⟨condition, t, hrestrict, hwellFormed, fun hwell value => ?_⟩
  obtain ⟨truth, htrue, hkeys⟩ := htells value (hwellFormed.1 hwell)
  rw [htrue.truth]
  exact hkeys

end

/-! ### Parents without a key

The key of a post has no columns, and its parts are joined by a condition. -/

namespace Keyless

def partsOf : Relation :=
  { target := "Part", many := true
    join := .script [.andWhere (Sql.childHole ++ ".post = " ++ Sql.parentHole ++ ".id") []] }

def post : TypeMapping := { key := [], fields := [("parts", { source := .relation partsOf })] }

def environment : Environment :=
  { registry := ⟨[("Post", post), ("Part", {})], none⟩, settings := {}, caller := {} }

def parts : ManyPlan :=
  { field := "parts", parentType := "Post", target := "Part", selection := [.scalar "name"]
    keyLabels := [], depth := 2, paging := none, origin := [1] }

theorem compiles : (compileMany environment parts [[]]).toOption.isSome = true := by
  decide +kernel

end Keyless

/-- The condition on posts without a key is not well-formed. -/
theorem parents_restricted_keyless : ∃ compiled condition t,
    compileMany Keyless.environment Keyless.parts [[]] = .ok compiled ∧
      restrictParents (pairQuery "Post" "Part" Keyless.post {}) (parentAlias "Post") [] [[]]
          (pairScope "Post" "Part") =
        ((pairQuery "Post" "Part" Keyless.post {}).andWhere condition, t) ∧
      ¬WellFormed condition := by
  cases hcompiled : compileMany Keyless.environment Keyless.parts [[]] with
  | error e =>
    have hok := Keyless.compiles
    rw [hcompiled] at hok
    cases hok
  | ok compiled =>
    have hwidth : ∀ key ∈ ([[]] : List (List Json)), key.length = Keyless.post.key.length := by
      intro key hkey
      rw [List.mem_singleton.1 hkey]
      rfl
    obtain ⟨condition, t, hrestrict, hwell, -⟩ :=
      parents_restricted hcompiled rfl rfl rfl rfl rfl hwidth
    refine ⟨compiled, condition, t, rfl, hrestrict, ?_⟩
    rw [hwell]
    rintro (hkey | hkeys)
    · exact hkey rfl
    · cases hkeys

end Plan

end ObjectGraph
