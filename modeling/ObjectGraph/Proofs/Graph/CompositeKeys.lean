import ObjectGraph.Proofs.Graph.Attachments
import ObjectGraph.Proofs.Json.Identities
import ObjectGraph.Proofs.Resolution.Keys

/-! # Composite keys

The key of a row joins the texts of its components with a separator, which a component may hold as
well.  So a key does not tell its components but their `pieces` between separators: two keys of one
width are equal exactly if their pieces are (`compositeKey?_inj_iff`).  That comes to the components
themselves unless both keys hold the separator in a component (`compositeKey?_inj_of_undivided`).
`keys_told_by_pieces` states what this means for a group: which keys are asked for, and whose rows a
parent gets. -/

namespace ObjectGraph

/-- The text of an identity value. -/
def Json.identityText (value : Json) : String := value.identityKey?.getD ""

theorem Json.identityKey?_eq_some {value : Json} (h : value ≠ .null) :
    value.identityKey? = some value.identityText := by
  unfold identityText
  cases value with
  | null => exact absurd rfl h
  | _ => rfl

namespace Graph

open Plan (NodePlan ManyPlan)

/-! ### Pieces -/

/-- The character that stands between the components of a key. -/
def separator : Char := '\x1f'

/-- The pieces of a text between separators. -/
def piecesOf (text : String) : List (List Char) := text.toList.splitOn separator

/-- The pieces of the components of a key, one after another. -/
def pieces (values : List Json) : List (List Char) :=
  values.flatMap fun value => piecesOf value.identityText

theorem piecesOf_injective {s t : String} (h : piecesOf s = piecesOf t) : s = t := by
  have hlist : s.toList = t.toList :=
    calc
      s.toList = [separator].intercalate (piecesOf s) := (List.intercalate_splitOn separator).symm
      _ = [separator].intercalate (piecesOf t) := by rw [h]
      _ = t.toList := List.intercalate_splitOn separator
  exact String.toList_inj.1 hlist

theorem piecesOf_ne_nil (text : String) : piecesOf text ≠ [] := List.splitOn_ne_nil _ _

theorem piecesOf_of_not_mem {text : String} (h : separator ∉ text.toList) :
    piecesOf text = [text.toList] := List.splitOn_eq_singleton h

/-- A joined text falls into the pieces of its parts. -/
theorem piecesOf_intercalate {texts : List String} (h : texts ≠ []) :
    piecesOf (String.intercalate keySeparator texts) = texts.flatMap piecesOf := by
  have hlists : ∀ lists : List (List Char), lists ≠ [] →
      ([separator].intercalate lists).splitOn separator =
        lists.flatMap (List.splitOn separator) := by
    intro lists hne
    induction lists with
    | nil => exact absurd rfl hne
    | cons first rest ih =>
      cases rest with
      | nil => rw [List.intercalate_singleton, List.flatMap_singleton]
      | cons second rest =>
        rw [List.intercalate_cons_cons, List.append_assoc, List.singleton_append,
          List.splitOn_append_cons_self, ih (List.cons_ne_nil _ _)]
        rfl
  unfold piecesOf
  rw [String.toList_intercalate]
  change ([separator].intercalate _).splitOn separator = _
  rw [hlists _ (by simpa using h), List.flatMap_map]

/-! ### Keys -/

section

variable {values values' : List Json}

theorem compositeKey?_eq (h : .null ∉ values) :
    compositeKey? values =
      some (String.intercalate keySeparator (values.map Json.identityText)) := by
  have htexts : values.mapM Json.identityKey? = some (values.map Json.identityText) := by
    rw [Outcome.mapM_congr fun value hv =>
      Json.identityKey?_eq_some fun hnull => h (hnull ▸ hv)]
    exact List.mapM_pure
  unfold compositeKey?
  rw [htexts]
  rfl

/-- Keys of one width are equal exactly if they fall into the same pieces. -/
theorem compositeKey?_inj_iff (hlength : values.length = values'.length) (h : .null ∉ values)
    (h' : .null ∉ values') :
    compositeKey? values = compositeKey? values' ↔ pieces values = pieces values' := by
  rw [compositeKey?_eq h, compositeKey?_eq h', Option.some.injEq]
  cases values with
  | nil =>
    cases values' with
    | nil => exact iff_of_true rfl rfl
    | cons _ _ => cases hlength
  | cons first rest =>
    cases values' with
    | nil => cases hlength
    | cons first' rest' =>
      have hpieces : ∀ values : List Json, values ≠ [] →
          piecesOf (String.intercalate keySeparator (values.map Json.identityText)) =
            pieces values := by
        intro values hne
        rw [piecesOf_intercalate (by simpa using hne), List.flatMap_map]
        rfl
      rw [← hpieces _ (List.cons_ne_nil _ _), ← hpieces _ (List.cons_ne_nil _ _)]
      exact ⟨fun h => congrArg piecesOf h, piecesOf_injective⟩

/-- The components of two keys have the same identities. -/
def SameIdentities (values values' : List Json) : Prop :=
  List.Forall₂ (fun value value' => value.identityKey? = value'.identityKey?) values values'

/-- One key does not have more pieces in a component than another. -/
def NoMorePieces (values values' : List Json) : Prop :=
  List.Forall₂ (fun value value' =>
    (piecesOf value.identityText).length ≤ (piecesOf value'.identityText).length) values values'

theorem NoMorePieces.length_le (h : NoMorePieces values values') :
    (pieces values).length ≤ (pieces values').length := by
  induction h with
  | nil => exact Nat.le_refl 0
  | cons hfirst _ ih =>
    unfold pieces at ih ⊢
    rw [List.flatMap_cons, List.flatMap_cons, List.length_append, List.length_append]
    omega

/-- Pieces that are the same stand in the same components if no component has fewer of them. -/
theorem NoMorePieces.texts_eq (hmore : NoMorePieces values values')
    (h : pieces values = pieces values') :
    List.Forall₂ (fun value value' => value.identityText = value'.identityText) values values' := by
  induction hmore with
  | nil => exact .nil
  | @cons first first' rest rest' hfirst hrest ih =>
    have hlength : (pieces rest).length ≤ (pieces rest').length :=
      NoMorePieces.length_le hrest
    have happend : piecesOf first.identityText ++ pieces rest =
        piecesOf first'.identityText ++ pieces rest' := h
    have htotal := congrArg List.length happend
    rw [List.length_append, List.length_append] at htotal
    obtain ⟨hpieces, hothers⟩ := List.append_inj happend (by omega)
    exact .cons (piecesOf_injective hpieces) (ih hothers)

theorem sameIdentities_of_texts (h : .null ∉ values) (h' : .null ∉ values')
    (htexts : List.Forall₂ (fun value value' => value.identityText = value'.identityText) values
      values') : SameIdentities values values' := by
  induction htexts with
  | nil => exact .nil
  | cons htext _ ih =>
    simp only [List.mem_cons, not_or] at h h'
    refine .cons ?_ (ih h.2 h'.2)
    rw [Json.identityKey?_eq_some (Ne.symm h.1), Json.identityKey?_eq_some (Ne.symm h'.1), htext]

theorem SameIdentities.pieces_eq (h : SameIdentities values values') :
    pieces values = pieces values' := by
  induction h with
  | nil => rfl
  | cons hfirst _ ih =>
    unfold pieces at ih ⊢
    rw [List.flatMap_cons, List.flatMap_cons, ih, Json.identityText, Json.identityText, hfirst]

theorem SameIdentities.symm (h : SameIdentities values values') :
    SameIdentities values' values := h.flip.imp fun _ _ heq => heq.symm

theorem NoMorePieces.inj_iff (hmore : NoMorePieces values values') (h : .null ∉ values)
    (h' : .null ∉ values') :
    compositeKey? values = compositeKey? values' ↔ SameIdentities values values' := by
  rw [compositeKey?_inj_iff hmore.length_eq h h']
  refine ⟨fun hpieces => ?_, SameIdentities.pieces_eq⟩
  exact sameIdentities_of_texts h h' (hmore.texts_eq hpieces)

/-- A key has at most one component, or no string among them holds a separator. -/
def Undivided (values : List Json) : Prop :=
  values.length ≤ 1 ∨ ∀ text, .str text ∈ values → separator ∉ text.toList

theorem separator_not_mem {value : Json}
    (h : ∀ text, value = .str text → separator ∉ text.toList) :
    separator ∉ value.identityText.toList := by
  have hprinted : ∀ text : String, Printable text → separator ∉ text.toList := by
    intro text htext hmem
    exact absurd (htext _ hmem) (by decide)
  cases value with
  | null => exact List.not_mem_nil
  | str text => exact h text rfl
  | _ => exact hprinted _ (Json.printable_render _)

theorem noMorePieces_of_undivided (hlength : values.length = values'.length)
    (h : ∀ text, .str text ∈ values → separator ∉ text.toList) :
    NoMorePieces values values' := by
  refine List.forall₂_iff_get.2 ⟨hlength, fun i hi hi' => ?_⟩
  rw [piecesOf_of_not_mem (separator_not_mem fun text heq => h text (heq ▸ List.get_mem _ _))]
  exact Nat.one_le_iff_ne_zero.2 fun hzero => piecesOf_ne_nil _ (List.length_eq_zero_iff.1 hzero)

theorem sameIdentities_of_narrow (hlength : values.length = values'.length)
    (hnarrow : values.length ≤ 1) (h : .null ∉ values) (h' : .null ∉ values')
    (hpieces : pieces values = pieces values') : SameIdentities values values' := by
  cases values with
  | nil =>
    rw [List.length_eq_zero_iff.1 hlength.symm]
    exact .nil
  | cons value rest =>
    obtain rfl : rest = [] := List.length_eq_zero_iff.1 (by simpa using hnarrow)
    obtain ⟨value', rfl⟩ := List.length_eq_one_iff.1 hlength.symm
    unfold pieces at hpieces
    rw [List.flatMap_singleton, List.flatMap_singleton] at hpieces
    exact sameIdentities_of_texts h h' (.cons (piecesOf_injective hpieces) .nil)

/-- Keys of one width, one of which is undivided, are equal exactly if their components have the
same identities. -/
theorem compositeKey?_inj_of_undivided (hlength : values.length = values'.length)
    (h : .null ∉ values) (h' : .null ∉ values')
    (hundivided : Undivided values ∨ Undivided values') :
    compositeKey? values = compositeKey? values' ↔ SameIdentities values values' := by
  have hnarrow : values.length ≤ 1 →
      (compositeKey? values = compositeKey? values' ↔ SameIdentities values values') := by
    intro hle
    rw [compositeKey?_inj_iff hlength h h']
    exact ⟨sameIdentities_of_narrow hlength hle h h', SameIdentities.pieces_eq⟩
  rcases hundivided with (hle | hplain) | (hle | hplain)
  · exact hnarrow hle
  · exact (noMorePieces_of_undivided hlength hplain).inj_iff h h'
  · exact hnarrow (hlength ▸ hle)
  · rw [eq_comm, (noMorePieces_of_undivided hlength.symm hplain).inj_iff h' h]
    exact ⟨SameIdentities.symm, SameIdentities.symm⟩

end

/-! ### The keys of rows -/

theorem keyValues?_spec {row : Row} {labels : List String} {values : List Json}
    (h : keyValues? row labels = some values) :
    values.length = labels.length ∧ .null ∉ values := by
  unfold keyValues? at h
  induction labels generalizing values with
  | nil =>
    cases h
    exact ⟨rfl, List.not_mem_nil⟩
  | cons label labels ih =>
    rw [List.mapM_cons] at h
    obtain ⟨value, hvalue, h⟩ := Option.bind_eq_some_iff.1 h
    obtain ⟨rest, hrest, h⟩ := Option.bind_eq_some_iff.1 h
    cases h
    obtain ⟨hlength, hnull⟩ := ih hrest
    obtain ⟨-, hvalue⟩ := Option.filter_eq_some_iff.1 hvalue
    refine ⟨congrArg Nat.succ hlength, ?_⟩
    rw [List.mem_cons, not_or]
    refine ⟨?_, hnull⟩
    rintro rfl
    cases hvalue

/-- Two rows have one key exactly if the values of their keys fall into the same pieces. -/
theorem rowKey?_eq_iff {row row' : Row} {labels labels' : List String} {values values' : List Json}
    (hlabels : labels.length = labels'.length) (h : keyValues? row labels = some values)
    (h' : keyValues? row' labels' = some values') :
    rowKey? row labels = rowKey? row' labels' ↔ pieces values = pieces values' := by
  obtain ⟨hlength, hnull⟩ := keyValues?_spec h
  obtain ⟨hlength', hnull'⟩ := keyValues?_spec h'
  unfold rowKey?
  rw [h, h', Option.bind_some, Option.bind_some]
  refine compositeKey?_inj_iff ?_ hnull hnull'
  rw [hlength, hlength', hlabels]

theorem rowKey?_eq_some_iff {row : Row} {labels : List String} :
    (∃ key, rowKey? row labels = some key) ↔ ∃ values, keyValues? row labels = some values := by
  unfold rowKey?
  cases hv : keyValues? row labels with
  | none => simp
  | some values =>
    rw [Option.bind_some, compositeKey?_eq (keyValues?_spec hv).2]
    simp

/-! ### The keys of a group -/

/-- The values of the key of a node. -/
def keyOf? (graph : Graph) (labels : List String) (id : NodeId) : Option (List Json) :=
  (graph.nodes[id]?).bind fun node => keyValues? node.row labels

/-- A group of the first parents only. -/
def Group.upTo (group : Group) (parents : List NodeId) : Group := { group with parents }

/-- The last key is kept unless it is seen or one before it is equal. -/
theorem distinctKeys_snoc {seen : List String} {all : List (List Json)} {values : List Json}
    {key : String} (h : compositeKey? values = some key) :
    distinctKeys seen (all ++ [values]) = distinctKeys seen all ++
      if key ∈ seen ∨ some key ∈ all.map compositeKey? then [] else [values] := by
  induction all generalizing seen with
  | nil => by_cases hmem : key ∈ seen <;> simp [distinctKeys, h, hmem]
  | cons first all ih =>
    rw [List.cons_append, distinctKeys, distinctKeys, List.map_cons]
    cases hfirst : compositeKey? first with
    | none =>
      simp only [ih]
      refine congrArg _ (if_congr ?_ rfl rfl)
      have hnone : some key ≠ (none : Option String) := Option.some_ne_none key
      rw [List.mem_cons, or_iff_right hnone]
    | some own =>
      by_cases hmem : own ∈ seen
      · -- what is seen makes no difference a second time
        have hseen : some key = some own → key ∈ seen := fun heq => Option.some.inj heq ▸ hmem
        simp only [if_pos hmem, ih]
        refine congrArg _ (if_congr ?_ rfl rfl)
        rw [List.mem_cons, ← or_assoc, or_iff_left_of_imp hseen]
      · simp only [if_neg hmem, ih, List.cons_append]
        refine congrArg _ (congrArg _ (if_congr ?_ rfl rfl))
        rw [List.mem_cons, List.mem_cons, Option.some.injEq, or_left_comm, or_assoc]

theorem distinctKeys_extend (seen : List String) (all rest : List (List Json)) :
    distinctKeys seen all <+: distinctKeys seen (all ++ rest) := by
  induction all generalizing seen with
  | nil => exact List.nil_prefix
  | cons first all ih =>
    rw [List.cons_append, distinctKeys, distinctKeys]
    cases compositeKey? first with
    | none => exact ih seen
    | some key =>
      by_cases hmem : key ∈ seen
      · simp only [if_pos hmem]
        exact ih seen
      · simp only [if_neg hmem]
        exact List.cons_prefix_cons.2 ⟨rfl, ih (key :: seen)⟩

section

variable {graph : Graph} {group : Group} {relation : ManyPlan}

theorem parentKeys_upTo (hrelation : group.relation? = some relation) (parents : List NodeId) :
    graph.parentKeys (group.upTo parents) =
      distinctKeys [] (parents.filterMap (graph.keyOf? relation.keyLabels)) := by
  have h : (group.upTo parents).relation? = some relation := hrelation
  unfold parentKeys
  rw [h]
  rfl

theorem keyOf?_spec {labels : List String} {id : NodeId} {values : List Json}
    (h : graph.keyOf? labels id = some values) :
    values.length = labels.length ∧ .null ∉ values := by
  obtain ⟨node, -, hvalues⟩ := Option.bind_eq_some_iff.1 h
  exact keyValues?_spec hvalues

/-- A node among some has a key with the same pieces. -/
def Repeated (graph : Graph) (labels : List String) (ids : List NodeId) (values : List Json) :
    Prop :=
  ∃ id ∈ ids, ∃ values', graph.keyOf? labels id = some values' ∧ pieces values' = pieces values

/-- The next parent of a group adds its key to those that are asked for, unless an earlier one has a
key with the same pieces. -/
theorem parentKeys_snoc (hrelation : group.relation? = some relation) (before : List NodeId)
    {parent : NodeId} {values : List Json}
    (hvalues : graph.keyOf? relation.keyLabels parent = some values) :
    (graph.Repeated relation.keyLabels before values →
        graph.parentKeys (group.upTo (before ++ [parent])) =
          graph.parentKeys (group.upTo before)) ∧
      (¬graph.Repeated relation.keyLabels before values →
        graph.parentKeys (group.upTo (before ++ [parent])) =
          graph.parentKeys (group.upTo before) ++ [values]) := by
  obtain ⟨hlength, hnull⟩ := keyOf?_spec hvalues
  have hkey := compositeKey?_eq hnull
  have hrepeated : graph.Repeated relation.keyLabels before values ↔
      compositeKey? values ∈
        (before.filterMap (graph.keyOf? relation.keyLabels)).map compositeKey? := by
    have hsame : ∀ {id : NodeId} {values' : List Json},
        graph.keyOf? relation.keyLabels id = some values' →
        (compositeKey? values' = compositeKey? values ↔ pieces values' = pieces values) := by
      intro id values' hv
      obtain ⟨hlength', hnull'⟩ := keyOf?_spec hv
      exact compositeKey?_inj_iff (hlength'.trans hlength.symm) hnull' hnull
    rw [List.mem_map]
    constructor
    · rintro ⟨id, hid, values', hv, hpieces⟩
      exact ⟨values', List.mem_filterMap.2 ⟨id, hid, hv⟩, (hsame hv).2 hpieces⟩
    · rintro ⟨values', hmem, heq⟩
      obtain ⟨id, hid, hv⟩ := List.mem_filterMap.1 hmem
      exact ⟨id, hid, values', hv, (hsame hv).1 heq⟩
  rw [parentKeys_upTo hrelation, parentKeys_upTo hrelation, List.filterMap_append, hrepeated, hkey]
  have hlast : [parent].filterMap (graph.keyOf? relation.keyLabels) = [values] := by
    rw [List.filterMap_cons_some hvalues, List.filterMap_nil]
  rw [hlast, distinctKeys_snoc hkey]
  constructor
  · intro hmem
    rw [if_pos (.inr hmem), List.append_nil]
  · intro hmem
    rw [if_neg]
    rintro (hseen | hmem')
    · exact absurd hseen List.not_mem_nil
    · exact hmem hmem'

/-- Parents that follow leave the keys of those before them as they are. -/
theorem parentKeys_extend (hrelation : group.relation? = some relation)
    {before after : List NodeId} (hparents : group.parents = before ++ after) :
    graph.parentKeys (group.upTo before) <+: graph.parentKeys group := by
  have hgroup : group = group.upTo (before ++ after) := by
    rw [← hparents]
    rfl
  rw [hgroup]
  change graph.parentKeys (group.upTo before) <+: graph.parentKeys (group.upTo (before ++ after))
  rw [parentKeys_upTo hrelation, parentKeys_upTo hrelation, List.filterMap_append]
  exact distinctKeys_extend _ _ _

end

/-- A parent gets the nodes of those rows whose keys fall into the pieces of its own. -/
theorem mem_withKey_iff {row : Row} {labels labels' : List String} {values : List Json}
    {rows : List Row} {ids : List NodeId} {id : NodeId} (hlabels : labels.length = labels'.length)
    (hvalues : keyValues? row labels' = some values) :
    id ∈ withKey labels (rowKey? row labels') rows ids ↔
      ∃ (i : Nat) (row' : Row) (values' : List Json), rows[i]? = some row' ∧ ids[i]? = some id ∧
        keyValues? row' labels = some values' ∧ pieces values' = pieces values := by
  obtain ⟨key, hkey⟩ := rowKey?_eq_some_iff.2 ⟨values, hvalues⟩
  rw [mem_withKey]
  constructor
  · rintro ⟨i, row', hrow, hid, heq⟩
    obtain ⟨values', hv⟩ := rowKey?_eq_some_iff.1 ⟨key, heq.trans hkey⟩
    exact ⟨i, row', values', hrow, hid, hv, (rowKey?_eq_iff hlabels hv hvalues).1 heq⟩
  · rintro ⟨i, row', values', hrow, hid, hv, hpieces⟩
    exact ⟨i, row', hrow, hid, (rowKey?_eq_iff hlabels hv hvalues).2 hpieces⟩

/-- A key tells its components up to where the separators of its text stand.  So for any width, two
keys are equal exactly if they fall into the same pieces, which are those of equal identities if one
of them is undivided; the key of a parent is not asked for exactly if an earlier parent has one of
the same pieces; and a parent gets exactly the rows whose keys fall into the pieces of its own. -/
theorem keys_told_by_pieces (n : Nat) :
    (∀ values values' : List Json, values.length = n → values'.length = n → .null ∉ values →
      .null ∉ values' →
      (compositeKey? values = compositeKey? values' ↔ pieces values = pieces values') ∧
        (Undivided values ∨ Undivided values' →
          (compositeKey? values = compositeKey? values' ↔ SameIdentities values values'))) ∧
    (∀ (graph : Graph) (group : Group) (relation : ManyPlan) (before after : List NodeId)
      (parent : NodeId) (values : List Json), group.relation? = some relation →
      relation.keyLabels.length = n → group.parents = before ++ parent :: after →
      graph.keyOf? relation.keyLabels parent = some values →
      graph.parentKeys (group.upTo (before ++ [parent])) <+: graph.parentKeys group ∧
        (graph.Repeated relation.keyLabels before values →
          graph.parentKeys (group.upTo (before ++ [parent])) =
            graph.parentKeys (group.upTo before)) ∧
        (¬graph.Repeated relation.keyLabels before values →
          graph.parentKeys (group.upTo (before ++ [parent])) =
            graph.parentKeys (group.upTo before) ++ [values])) ∧
    (∀ (graph graph' : Graph) (group : Group) (plan : NodePlan) (labels : List String)
      (pageSize : Option Nat) (rows : List Row), labels.length = n →
      (attach group plan labels pageSize rows).result graph = .ok ((), graph') →
      ∃ relation field ids,
        Attached graph graph' group plan labels pageSize rows relation field ids ∧
        (relation.keyLabels.length = n →
          ∀ parent ∈ group.parents, ∀ values,
            graph.keyOf? relation.keyLabels parent = some values →
            ∀ (node : Node) (children : List NodeId), graph'.nodes[parent]? = some node →
            node.links[field]? = some (.many children pageSize) → ∀ id,
            id ∈ children ↔ ∃ (i : Nat) (row : Row) (values' : List Json), rows[i]? = some row ∧
              ids[i]? = some id ∧ keyValues? row labels = some values' ∧
              pieces values' = pieces values)) := by
  refine ⟨?_, ?_, ?_⟩
  · intro values values' hn hn' hnull hnull'
    have hlength : values.length = values'.length := hn.trans hn'.symm
    exact ⟨compositeKey?_inj_iff hlength hnull hnull',
      compositeKey?_inj_of_undivided hlength hnull hnull'⟩
  · intro graph group relation before after parent values hrelation _ hparents hvalues
    have hupTo : group.parents = before ++ [parent] ++ after := by
      rw [hparents, List.append_assoc, List.singleton_append]
    exact ⟨parentKeys_extend hrelation hupTo, parentKeys_snoc hrelation before hvalues⟩
  · intro graph graph' group plan labels pageSize rows hlabels hattach
    obtain ⟨relation, field, ids, h⟩ := attach_children hattach
    refine ⟨relation, field, ids, h, ?_⟩
    intro hwidth parent hparent values hkey node children hnode hlink id
    obtain ⟨old, hold, hvalues⟩ := Option.bind_eq_some_iff.1 hkey
    have hnew := h.parents parent hparent old hold
    rw [hnode] at hnew
    cases hnew
    rw [List.getElem?_set, if_pos rfl] at hlink
    split at hlink
    · cases hlink
      exact mem_withKey_iff (hlabels.trans hwidth.symm) hvalues
    · cases hlink

namespace Sample

def postPlan : NodePlan :=
  { origin := [], typeName := "Post"
    fields := [{ name := "parts", kind := .many 0 }]
    many := [{ field := "parts", parentType := "Post", target := "Part", selection := []
               keyLabels := ["k0", "k1"], depth := 2, paging := none, origin := [0] }] }

def partPlan : NodePlan :=
  { origin := [0], typeName := "Part", fields := [{ name := "name", kind := .value }], many := [] }

/-- Posts with keys, once their group is taken. -/
def posts (keys : List (List Json)) : Graph :=
  ((addRows postPlan (keys.map (["k0", "k1"].zip ·))).on {}).2.takeWaiting.2

def group : Group := ⟨postPlan, 0, [0, 1]⟩

/-- Attach a part that is said to belong to the post of a key. -/
def attachPart (key : List Json) (graph : Graph) : Except Fault (Unit × Graph) :=
  (attach group partPlan ["p0", "p1"] none [["p0", "p1"].zip key]).result graph

def first : List Json := [.str "a\x1fb", .str "c"]

def second : List Json := [.str "a", .str "b\x1fc"]

theorem attachPart_second :
    ∃ graph', attachPart second (posts [first, second]) = .ok ((), graph') :=
  ⟨_, rfl⟩

end Sample

open Sample in
/-- Two posts with the keys `first` and `second`: the key of the second is not asked for, and the
first gets the part of the second. -/
theorem keys_told_by_pieces_merged :
    compositeKey? first = compositeKey? second ∧ ¬SameIdentities first second ∧
      (posts [first, second]).parentKeys (group.upTo [0, 1]) =
        (posts [first, second]).parentKeys (group.upTo [0]) ∧
      ∃ graph' node children id, attachPart second (posts [first, second]) = .ok ((), graph') ∧
        graph'.nodes[0]? = some node ∧ node.links[0]? = some (.many children none) ∧
        graph'.NodeOf partPlan (["p0", "p1"].zip second) id ∧ id ∈ children := by
  obtain ⟨graph', hattach⟩ := attachPart_second
  have hpieces : pieces second = pieces first := by decide
  refine ⟨?_, ?_, ?_, ?_⟩
  · have hnull : Json.null ∉ first ∧ Json.null ∉ second := by simp [first, second]
    exact ((keys_told_by_pieces 2).1 first second rfl rfl hnull.1 hnull.2).1.2 hpieces.symm
  · intro h
    cases h with
    | cons hfirst _ => exact absurd hfirst (by decide)
  · exact ((keys_told_by_pieces 2).2.1 _ group _ [0] [] 1 second rfl rfl rfl rfl).2.1
      ⟨0, List.mem_singleton_self 0, first, rfl, hpieces.symm⟩
  · obtain ⟨relation, field, ids, hattached, hmem⟩ :=
      (keys_told_by_pieces 2).2.2 _ _ group _ _ _ _ rfl hattach
    obtain rfl : relation = _ := (Option.some.inj hattached.list).symm
    obtain rfl : field = 0 := (Option.some.inj hattached.position).symm
    have hstands := hattached.stands
    cases hstands with
    | cons hstands hnil =>
      cases hnil
      have hnode := hattached.parents 0 (by decide) _ rfl
      refine ⟨graph', _, _, _, hattach, hnode, rfl, hstands, ?_⟩
      exact (hmem rfl 0 (by decide) first rfl _ _ hnode rfl _).2
        ⟨0, _, second, rfl, rfl, rfl, hpieces⟩

end Graph

end ObjectGraph
