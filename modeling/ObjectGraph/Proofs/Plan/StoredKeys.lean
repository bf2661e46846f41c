import ObjectGraph.Proofs.Graph.CompositeKeys
import ObjectGraph.Proofs.Plan.Labels
import ObjectGraph.Proofs.Plan.ParentKeys
import ObjectGraph.Proofs.Text.Utf8
import ObjectGraph.Storage.Cell

/-! # Stored keys on their way into a follow-up

The key of a parent is read from a row and bound in the follow-up of a list.  What is bound is what
was stored if that is an integer, a real, or text in well-formed UTF-8 (`Cell.rebound_eq_iff`): a
blob comes back as the text of its Base64 form, and faulty text with U+FFFD for each fault.

Every component of every key is a parameter of the follow-up as it was read (`childQuery_held`), so
that nothing but the reading changes a key (`stored_keys_rebound`). -/

namespace ObjectGraph

/-! ### Cells -/

namespace Cell

/-- What a stored value is bound as after it was read. -/
def rebound : Cell → Cell
  | .text bytes => .text (Text.Utf8.encode (Text.Utf8.decodeLossy bytes))
  | .blob bytes => .text (Text.Utf8.encode (Text.Base64.encode bytes))
  | cell => cell

/-- The stored values that can be told by what is read of them: no blob, and no faulty text. -/
def Kept : Cell → Prop
  | .text bytes => Text.Utf8.WellFormed bytes
  | .blob _ => False
  | _ => True

theorem ofJson_integer (n : Int64) : ofJson (.num (.int n.toInt)) = .integer n := by
  have hrange : -2 ^ 63 ≤ n.toInt ∧ n.toInt < 2 ^ 63 := ⟨n.le_toInt, n.toInt_lt⟩
  rw [ofJson, if_pos hrange, Int64.ofInt_toInt]

variable {cell : Cell}

theorem ofJson_toJson (h : cell.toJson ≠ .null) : ofJson cell.toJson = cell.rebound := by
  cases cell with
  | null => exact absurd rfl h
  | irregular bits => exact absurd rfl h
  | integer n => exact ofJson_integer n
  | real x => rfl
  | text bytes => rfl
  | blob bytes => rfl

theorem rebound_eq_iff : cell.rebound = cell ↔ cell.Kept := by
  cases cell with
  | text bytes => exact Cell.text.injEq _ _ ▸ Text.Utf8.encode_decodeLossy_iff
  | blob bytes => exact iff_of_false nofun id
  | _ => exact iff_of_true rfl trivial

/-- The blob of one byte is bound as the text of its Base64 form. -/
theorem blob_changed : (Cell.blob [0xff]).toJson ≠ .null ∧
    ofJson (Cell.blob [0xff]).toJson ≠ .blob [0xff] :=
  ⟨nofun, nofun⟩

end Cell

namespace Plan

open ObjectGraph.Graph (keyValues?)
open Schema (TypeMapping Relation)
open Sql (Scope IsAlias)

/-! ### Keys as parameters -/

/-- The name under which a component of a key is bound: one key column has a list of its own. -/
def boundName (width index component : Nat) : String :=
  if width = 1 then "parentKeys" ++ "_" ++ toString index else keyParam index component

section

variable {keys : List (List Json)} {s t : Scope} {i j : Nat} {key : List Json} {value : Json}

theorem bindPlaceholder_elements {name : String} {items : List Json} (h : items ≠ []) :
    (Sql.bindPlaceholder true name (.arr items) s).2 = (Sql.bindElements name 0 items s).2 := by
  cases items with
  | nil => exact absurd rfl h
  | cons _ _ => rfl

/-- The components of keys are parameters of a restriction to them. -/
theorem parentCondition_held {tableAlias condition : String} {columns : List String}
    (ha : IsAlias tableAlias) (hs : s.params = [])
    (hwidth : ∀ key ∈ keys, key.length = columns.length)
    (h : parentCondition tableAlias columns keys s = (condition, t)) (hi : keys[i]? = some key)
    (hj : key[j]? = some value) :
    t.params.get? (boundName columns.length i j) = some value := by
  have hlength := hwidth key (List.mem_of_getElem? hi)
  have hlt := (List.getElem?_eq_some_iff.1 hj).1
  match columns with
  | [] =>
    rw [hlength] at hlt
    cases hlt
  | [column] =>
    obtain ⟨value', rfl⟩ := List.length_eq_one_iff.1 hlength
    obtain rfl : j = 0 := Nat.lt_one_iff.1 hlt
    cases hj
    have hfirst : (firstComponents keys)[i]? = some value := by
      rw [keys_of_one hwidth, List.getElem?_map] at hi
      obtain ⟨first, hget, hone⟩ := Option.map_eq_some_iff.1 hi
      cases hone
      exact hget
    change Sql.bindTemplate _ _ s = _ at h
    rw [Sql.bindTemplate_in ha.1, bindPlaceholder_elements fun hnil => by
      rw [hnil] at hfirst
      cases hfirst] at h
    cases h
    have hfree : ∀ k, 0 ≤ k → s.params.get? ("parentKeys" ++ "_" ++ toString k) = none := by
      intro k _
      rw [hs]
      rfl
    obtain ⟨-, hheld, -⟩ := Sql.bindElements_free "parentKeys" (firstComponents keys) hfree
    obtain ⟨hbound, hitem⟩ := List.getElem?_eq_some_iff.1 hfirst
    have hrange : i < (List.range' 0 (firstComponents keys).length).length := by
      rwa [List.length_range']
    have hget := hheld.get hrange hbound
    rw [List.get_eq_getElem, List.get_eq_getElem, List.getElem_range', hitem, Nat.one_mul,
      Nat.zero_add] at hget
    exact hget
  | first :: second :: rest =>
    obtain ⟨conditions, hrun, -⟩ := parentCondition_several (by simp) h
    have hfree : ∀ i, 0 ≤ i → ∀ k, s.params.get? (keyParam i k) = none := by
      intro i _ k
      rw [hs]
      rfl
    obtain ⟨-, hheld, -⟩ := keyConditions_free ha (List.cons_ne_nil _ _) hfree hwidth hrun
    have hget := hheld i j key value hi hj
    rw [Nat.zero_add] at hget
    have hseveral : (first :: second :: rest).length ≠ 1 := by simp
    rw [boundName, if_neg hseveral]
    exact hget

variable {env : Environment} {parent child : TypeMapping} {relation : Relation}

/-- Whatever the join, the components of the keys are parameters of the query of the children. -/
theorem childQuery_held {parentType target : String} {children : ChildQuery} {u : Scope}
    (hwidth : ∀ key ∈ keys, key.length = (parentKeyColumns parent relation).length)
    (h : childQuery env parentType target parent child relation keys {} = (children, u))
    (hi : keys[i]? = some key) (hj : key[j]? = some value) :
    u.params.get? (boundName (parentKeyColumns parent relation).length i j) = some value := by
  cases hjoin : relation.join.columns? with
  | some columns =>
    obtain ⟨parentColumn, column⟩ := columns
    have hcolumns : parentKeyColumns parent relation = [parentColumn] := by
      rw [parentKeyColumns, hjoin]
    rw [hcolumns] at hwidth ⊢
    unfold childQuery at h
    rw [hjoin] at h
    cases h
    have hheld := @parentCondition_held keys (Sql.freshAlias target {}).2 _ i j key value _ _
      [column] (Sql.isAlias_aliasFor {} target) rfl hwidth rfl hi hj
    exact hheld
  | none =>
    have hcolumns : parentKeyColumns parent relation = parent.key := by
      rw [parentKeyColumns, hjoin]
    rw [hcolumns] at hwidth ⊢
    obtain ⟨q, t, hrestrict, hgrows⟩ := childQuery_restricts hjoin h
    rw [restrictParents_eq] at hrestrict
    cases hrestrict
    exact Sql.get?_of_grows hgrows
      (parentCondition_held (Sql.isAlias_aliasFor {} parentType) rfl hwidth rfl hi hj)

/-! ### Keys read from rows -/

/-- A value of a row stands for a component of one of some keys: it was read under the label of the
component from a row that has the key. -/
def ReadAs (labels : List String) (keys : List (List Json)) (i j : Nat) (value : Json) : Prop :=
  ∃ row label key, keys[i]? = some key ∧ keyValues? row labels = some key ∧
    labels[j]? = some label ∧ row.get? label = some value

theorem keyValues?_get {row : Row} {labels : List String} {label : String}
    (h : keyValues? row labels = some key) (hj : labels[j]? = some label)
    (hget : row.get? label = some value) : key[j]? = some value := by
  unfold keyValues? at h
  induction labels generalizing key j with
  | nil => cases hj
  | cons first labels ih =>
    rw [List.mapM_cons] at h
    obtain ⟨held, hheld, h⟩ := Option.bind_eq_some_iff.1 h
    obtain ⟨rest, hrest, h⟩ := Option.bind_eq_some_iff.1 h
    cases h
    cases j with
    | zero =>
      cases hj
      have hsame := (Option.filter_eq_some_iff.1 hheld).1
      exact hsame.symm.trans hget
    | succ j =>
      rw [List.getElem?_cons_succ]
      exact ih hrest hj

/-- The follow-up of a list of a level binds what was read. -/
theorem Compiles.key_held {start : Start} {o : Opened} {selections : List Selection} {p : Progress}
    (h : Compiles env start o selections s p) {m : ManyPlan} (hm : m ∈ (closeLevel o p).2.many)
    (hkeys : ∀ key ∈ keys, ∃ row, keyValues? row m.keyLabels = some key) {compiled : Compiled}
    (hc : compileMany env m keys = .ok compiled) (hread : ReadAs m.keyLabels keys i j value) :
    compiled.statement.param? (boundName m.keyLabels.length i j) = some value := by
  obtain ⟨resolved, relation, hparent, hr, hn, hlabels⟩ := h.list_mem hm
  obtain ⟨-, _, _, _, child, _, _, -, -, -, hchild, -⟩ := compileMany_ok hc
  have hlength : m.keyLabels.length = (parentKeyColumns o.mapping relation).length := by
    rw [hlabels, List.length_map]
  have hwidth : ∀ key ∈ keys, key.length = (parentKeyColumns o.mapping relation).length := by
    intro key hkey
    obtain ⟨row, hrow⟩ := hkeys key hkey
    rw [(Graph.keyValues?_spec hrow).1, hlength]
  obtain ⟨row, label, key, hi, hrow, hlabel, hget⟩ := hread
  have hj := keyValues?_get hrow hlabel hget
  obtain ⟨children, u, hchildren⟩ : ∃ children u, childQuery env m.parentType m.target o.mapping
      child relation keys {} = (children, u) := ⟨_, _, rfl⟩
  have hgrows := compileMany_children hc hparent hchild hr hn hchildren
  rw [hlength]
  exact Sql.get?_of_grows hgrows (childQuery_held hwidth hchildren hi hj)

end

/-- A stored value that is read as a value is bound as it was stored if it is an integer, a real, or
text in well-formed UTF-8, and only then; other text is bound with U+FFFD for each fault, and a blob
as the text of its Base64 form.  So a component of a key that was read from a row is bound in the
follow-up of any list of any level. -/
theorem stored_keys_rebound {cell : Cell} (hread : cell.toJson ≠ .null) :
    Cell.ofJson cell.toJson = cell.rebound ∧ (cell.rebound = cell ↔ cell.Kept) ∧
      ∀ env start o selections s p, Compiles env start o selections s p →
        ∀ m ∈ (closeLevel o p).2.many, ∀ keys,
          (∀ key ∈ keys, ∃ row, keyValues? row m.keyLabels = some key) →
          ∀ compiled, compileMany env m keys = .ok compiled →
            ∀ i j, ReadAs m.keyLabels keys i j cell.toJson →
              ∃ value,
                compiled.statement.param? (boundName m.keyLabels.length i j) = some value ∧
                Cell.ofJson value = cell.rebound := by
  have hbound := Cell.ofJson_toJson hread
  refine ⟨hbound, Cell.rebound_eq_iff, ?_⟩
  intro env start o selections s p h m hm keys hkeys compiled hc i j hvalue
  exact ⟨cell.toJson, h.key_held hm hkeys hc hvalue, hbound⟩

namespace Shelf

/-- Authors with their books alone. -/
def listing : Request := { typeName := "Author", fields := [.nested "books" [.scalar "title"]] }

/-- The books of authors are compiled for an author that is keyed by a number. -/
theorem books_compile : ((compileRoot environment listing none).toOption.bind fun root =>
    root.plan.many[0]?.bind fun m =>
      if m.keyLabels = ["__key_id"] then (compileMany environment m [[Json.ofNat 1]]).toOption
      else none).isSome = true := by
  decide +kernel

end Shelf

/-- The number of an author is bound as it was stored. -/
theorem stored_keys_rebound_authors : ∃ m compiled value,
    compileMany Shelf.environment m [[(Cell.integer 1).toJson]] = .ok compiled ∧
      compiled.statement.param? "parentKeys_0" = some value ∧
      Cell.ofJson value = .integer 1 := by
  obtain ⟨compiled, hsome⟩ := Option.isSome_iff_exists.1 Shelf.books_compile
  obtain ⟨root, hroot, hsome⟩ := Option.bind_eq_some_iff.1 hsome
  obtain ⟨m, hm, hsome⟩ := Option.bind_eq_some_iff.1 hsome
  obtain ⟨hlabels, hsome⟩ := Option.ite_none_right_eq_some.1 hsome
  have hcompiled := Outcome.toOption_some.1 hsome
  obtain ⟨o, s, p, hlevel, hplan⟩ := compileRoot_compiles (Outcome.toOption_some.1 hroot)
  have hmem : m ∈ (closeLevel o p).2.many := hplan ▸ List.mem_of_getElem? hm
  have hkey : keyValues? [("__key_id", (Cell.integer 1).toJson)] m.keyLabels =
      some [(Cell.integer 1).toJson] := by
    rw [hlabels]
    rfl
  have hread : ReadAs m.keyLabels [[(Cell.integer 1).toJson]] 0 0 (Cell.integer 1).toJson := by
    refine ⟨_, "__key_id", _, rfl, hkey, ?_, rfl⟩
    rw [hlabels]
    rfl
  obtain ⟨-, -, hbound⟩ := @stored_keys_rebound (.integer 1) nofun
  obtain ⟨value, hvalue, hcell⟩ := hbound _ _ o _ s p hlevel m hmem [[(Cell.integer 1).toJson]]
    (fun key hmem => ⟨_, List.mem_singleton.1 hmem ▸ hkey⟩) compiled hcompiled 0 0 hread
  rw [hlabels] at hvalue
  exact ⟨m, compiled, value, hcompiled, hvalue, hcell⟩

end Plan

end ObjectGraph
