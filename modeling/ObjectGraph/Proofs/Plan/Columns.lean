import ObjectGraph.Proofs.Lookup
import ObjectGraph.Proofs.Plan.Levels

/-! # Which columns a level fetches

The first item of a label counts in a select list, and requested fields come before the columns
that a type, an ordering or a cursor requires.  So a required column is there once under its label,
and it is the stored column unless the first field with this label reads something else
(`required_column`). -/

namespace ObjectGraph

namespace Plan

open Sql (Query qualified)
open Compiling
open Schema (Relation Resolved FieldSource)

/-! ### Select lists -/

section

variable {select : SelectList} {items : List (String × String)} {label c expression : String}

theorem any_label_iff : (select.any fun item => item.1 == label) = true ↔
    (select.lookup label).isSome = true := by
  induction select with
  | nil => simp
  | cons item select ih =>
    rw [List.any_cons, List.lookup_cons, Bool.or_eq_true, ih]
    by_cases h : item.1 = label
    · rw [h, beq_self_eq_true]
      exact ⟨fun _ => rfl, fun _ => .inl rfl⟩
    · have h' : (label == item.1) = false := beq_false_of_ne fun he => h he.symm
      rw [beq_false_of_ne h, h']
      simp only [Bool.false_eq_true, false_or]

/-- An item is added where its label is not there yet. -/
theorem lookup_add : (select.add label expression).lookup c =
    (select.lookup c).or ([(label, expression)].lookup c) := by
  unfold SelectList.add
  split
  · next h =>
    rw [any_label_iff] at h
    by_cases hc : c = label
    · rw [hc]
      obtain ⟨e, he⟩ := Option.isSome_iff_exists.1 h
      rw [he, Option.some_or]
    · rw [List.lookup_cons, beq_false_of_ne hc]
      exact Option.or_none.symm
  · exact Dictionary.lookup_append

theorem lookup_addAll : (select.addAll items).lookup c =
    (select.lookup c).or (items.lookup c) := by
  induction items generalizing select with
  | nil => exact Option.or_none.symm
  | cons item items ih =>
    change ((select.add item.1 item.2).addAll items).lookup c = _
    rw [ih, lookup_add, Option.or_assoc, ← Dictionary.lookup_append]
    rfl

theorem nodup_add (h : (select.map Prod.fst).Nodup) :
    ((select.add label expression).map Prod.fst).Nodup := by
  unfold SelectList.add
  split
  · exact h
  · next hnot =>
    rw [List.map_append, List.nodup_append]
    refine ⟨h, List.nodup_cons.2 ⟨List.not_mem_nil, List.nodup_nil⟩, ?_⟩
    intro l hl l' hl' heq
    rw [List.map_singleton, List.mem_singleton] at hl'
    obtain ⟨item, hitem, rfl⟩ := List.mem_map.1 hl
    exact hnot (List.any_eq_true.2 ⟨item, hitem, beq_iff_eq.2 (heq.trans hl')⟩)

theorem nodup_addAll (h : (select.map Prod.fst).Nodup) :
    ((select.addAll items).map Prod.fst).Nodup := by
  induction items generalizing select with
  | nil => exact h
  | cons item items ih => exact ih (nodup_add h)

/-- Where labels differ, the item of a label is the only one. -/
theorem filter_label (hnodup : (select.map Prod.fst).Nodup)
    (h : select.lookup c = some expression) :
    select.filter (fun item => item.1 == c) = [(c, expression)] := by
  induction select with
  | nil => cases h
  | cons item select ih =>
    rw [List.map_cons, List.nodup_cons] at hnodup
    by_cases hc : item.1 = c
    · rw [List.filter_cons_of_pos (by simp [hc])]
      rw [List.lookup_cons, hc, beq_self_eq_true] at h
      have hrest : select.filter (fun item => item.1 == c) = [] := by
        rw [List.filter_eq_nil_iff]
        intro other ho heq
        have hmem : other.1 ∈ select.map Prod.fst := List.mem_map_of_mem ho
        rw [beq_iff_eq.1 heq, ← hc] at hmem
        exact hnodup.1 hmem
      rw [hrest, ← hc, ← Option.some.inj h]
    · rw [List.filter_cons_of_neg (by simp [hc])]
      rw [List.lookup_cons, beq_false_of_ne fun he => hc he.symm] at h
      exact ih hnodup.2 h

/-- Taking a label out leaves the other labels as they are. -/
theorem takeLabel_some {rest : List (String × String)}
    (h : takeLabel label items = some (expression, rest)) :
    items.lookup label = some expression ∧
      ∀ c, c ≠ label → rest.lookup c = items.lookup c := by
  induction items generalizing rest with
  | nil => cases h
  | cons item items ih =>
    unfold takeLabel at h
    by_cases hl : item.1 = label
    · rw [if_pos hl] at h
      cases h
      refine ⟨by rw [List.lookup_cons, hl, beq_self_eq_true], ?_⟩
      intro c hc
      rw [List.lookup_cons, hl, beq_false_of_ne hc]
    · rw [if_neg hl] at h
      obtain ⟨⟨e, r⟩, ht, he⟩ := Option.map_eq_some_iff.1 h
      cases he
      obtain ⟨hlookup, hother⟩ := ih ht
      refine ⟨?_, ?_⟩
      · rw [List.lookup_cons, beq_false_of_ne fun he => hl he.symm]
        exact hlookup
      · intro c hc
        rw [List.lookup_cons, List.lookup_cons, hother c hc]

theorem takeLabel_none (h : takeLabel label items = none) : items.lookup label = none := by
  induction items with
  | nil => rfl
  | cons item items ih =>
    unfold takeLabel at h
    by_cases hl : item.1 = label
    · rw [if_pos hl] at h
      cases h
    · rw [if_neg hl] at h
      rw [List.lookup_cons, beq_false_of_ne fun he => hl he.symm]
      exact ih (Option.map_eq_none_iff.1 h)

end

/-! ### What fields add -/

/-- The columns that a level needs besides those that its type requires: on a follow-up, the
column its relation is sorted by and those of its cursors. -/
def Start.extraRequired : Start → List String
  | .followUp many _ _ relation _ =>
    (relation.sort.map Prod.fst).toList ++ ((many.paging.map Paging.cursorColumns).getD [])
  | _ => []

/-- The labels under which a field is in the select list of its level. -/
def labels (env : Environment) (o : Opened) : Selection → List String
  | .scalar name => [name]
  | .nested name _ =>
    match env.registry.resolve o.level.typeName name with
    | .ok resolved =>
      match resolved.relation? with
      | some relation =>
        if relation.many then (parentKeyColumns o.mapping relation).map keyLabel else [name]
      | none => []
    | .error _ => []

/-- A value is the stored column `c`: as the expression that is computed or written for it, as
what a filter added under its name, or as the column it names. -/
def ReadsColumn (env : Environment) (tableAlias c : String) (resolved : Resolved)
    (extra? : Option String) (s : Sql.Scope) : Prop :=
  let source? : Option (FieldSource × Bool) :=
    resolved.mapping.map fun m => (m.source, m.rawSelect)
  match source? with
  | some (.computed computed, _) =>
    (computed.render env.caller tableAlias s).1 = qualified tableAlias c
  | some (.column (some raw), true) =>
    Text.replace raw Sql.aliasHole tableAlias = qualified tableAlias c
  | source =>
    match extra? with
    | some expression => expression = qualified tableAlias c
    | none =>
      match source with
      | some (.column (some column), _) => column = c
      | _ => resolved.field = c

/-- A field that is labelled `c` is the stored column `c`; a related object never is. -/
def Reads (env : Environment) (o : Opened) (extras : List (String × String)) (c : String)
    (s : Sql.Scope) : Selection → Prop
  | .scalar name => ∃ resolved, env.registry.resolve o.level.typeName name = .ok resolved ∧
    ReadsColumn env o.level.tableAlias c resolved (extras.lookup c) s
  | .nested _ _ => False

/-- The first of the fields of a level that is labelled `c`, and the scope it is compiled in. -/
def FirstLabelled (env : Environment) (o : Opened) (c : String) (selections : List Selection)
    (s : Sql.Scope) (field : Selection) (t : Sql.Scope) : Prop :=
  ∃ before after q, selections = before ++ field :: after ∧ (∀ f ∈ before, c ∉ labels env o f) ∧
    c ∈ labels env o field ∧ entries env o o.progress 0 before s = .ok (q, t)

section

variable {env : Environment} {o : Opened} {p p' : Progress} {position : Nat} {s t : Sql.Scope}
  {c : String}

/-- A labelled select of a filter is used for a value, or else the value is taken elsewhere. -/
theorem takeLabel_or_ok {name expression : String} {extras rest : List (String × String)}
    {x : Compiling (String × List (String × String))} {stored : String} {P : Prop}
    (h : (match takeLabel name extras with
      | some found => pure found
      | none => x) s = .ok ((expression, rest), t))
    (hx : x s = .ok ((expression, rest), t) → rest = extras ∧ (expression = stored ↔ P)) :
    (∀ l, l ≠ name → rest.lookup l = extras.lookup l) ∧
      (expression = stored ↔
        match extras.lookup name with
        | some expression => expression = stored
        | none => P) := by
  cases htake : takeLabel name extras with
  | none =>
    rw [htake] at h
    obtain ⟨hrest, hstored⟩ := hx h
    rw [takeLabel_none htake, hrest]
    exact ⟨fun _ _ => rfl, hstored⟩
  | some found =>
    rw [htake] at h
    obtain ⟨rfl, -⟩ := pure_ok.1 h
    obtain ⟨hlookup, hother⟩ := takeLabel_some htake
    rw [hlookup]
    exact ⟨hother, Iff.rfl⟩

theorem valueExpression_ok {level : Level} {name expression : String} {resolved : Resolved}
    {extras rest : List (String × String)}
    (h : valueExpression env level name resolved extras s = .ok ((expression, rest), t)) :
    (∀ l, l ≠ name → rest.lookup l = extras.lookup l) ∧
      (expression = qualified level.tableAlias c ↔
        ReadsColumn env level.tableAlias c resolved (extras.lookup name) s) := by
  have hcolumn : ∀ {column : String},
      (pure (qualified level.tableAlias column, extras) : Compiling _) s =
          .ok ((expression, rest), t) →
        rest = extras ∧ (expression = qualified level.tableAlias c ↔ column = c) := by
    intro column hpure
    obtain ⟨heq, -⟩ := pure_ok.1 hpure
    cases heq
    exact ⟨rfl, Sql.qualified_inj⟩
  unfold valueExpression at h
  unfold ReadsColumn
  generalize (resolved.mapping.map fun m => (m.source, m.rawSelect)) = source? at h ⊢
  rcases source? with _ | ⟨⟨_ | column⟩ | computed | relation | ⟨field, view⟩, raw⟩
  · exact takeLabel_or_ok h hcolumn
  · exact takeLabel_or_ok h hcolumn
  · cases raw with
    | false => exact takeLabel_or_ok h hcolumn
    | true =>
      obtain ⟨heq, -⟩ := pure_ok.1 h
      cases heq
      exact ⟨fun _ _ => rfl, Iff.rfl⟩
  · obtain ⟨e, u, hrender, hpure⟩ := bind_ok.1 h
    obtain ⟨heq, -⟩ := pure_ok.1 hpure
    cases heq
    rw [ofBuilding_ok] at hrender
    refine ⟨fun _ _ => rfl, ?_⟩
    simp only [hrender]
  · exact takeLabel_or_ok h fun hthrow => (throw_ok.1 hthrow).elim
  · exact takeLabel_or_ok h fun hthrow => (throw_ok.1 hthrow).elim

/-- A related object is packed by an expression that is no column. -/
theorem packed_ne (ha : Sql.IsName o.level.tableAlias) {q : Query} :
    (if o.level.nested then env.settings.dialect.embedJson q.embedded else q.embedded) ≠
      qualified o.level.tableAlias c := by
  have hsub : q.embedded ≠ qualified o.level.tableAlias c := by
    have hempty : "" ++ ("(" ++ (q.text ++ ")")) ≠ qualified o.level.tableAlias c :=
      Sql.qualified_ne_call ha fun _ h => absurd h List.not_mem_nil
    rw [String.empty_append, ← String.append_assoc] at hempty
    exact hempty
  split
  · cases env.settings.dialect with
    | postgresql => exact hsub
    | sqlite =>
      have hname : Sql.IsName "json" := List.all_eq_true.1 rfl
      have hjson : "json" ++ ("(" ++ (q.embedded ++ ")")) ≠ qualified o.level.tableAlias c :=
        Sql.qualified_ne_call ha hname
      intro h
      apply hjson
      rw [← h]
      change "json" ++ ("(" ++ (q.embedded ++ ")")) = "json(" ++ q.embedded ++ ")"
      rw [String.append_assoc, ← String.append_assoc]
      rfl
  · exact hsub

theorem keyLabel_ne (column : String) : keyLabel column ≠ column := by
  intro h
  have hlength := congrArg String.length h
  rw [keyLabel, String.length_append] at hlength
  have hprefix : "__key_".length = 6 := rfl
  omega

/-- What a field adds to the select list of its level, and what it leaves there. -/
theorem entry_select {field : Selection} (ha : Sql.IsName o.level.tableAlias)
    (h : entry env o p position field s = .ok (p', t)) :
    ∃ items, p'.select = p.select.addAll items ∧ items.map Prod.fst = labels env o field ∧
      (∀ l, l ∉ labels env o field → p'.extras.lookup l = p.extras.lookup l) ∧
      ∀ e, items.lookup c = some e →
        (e = qualified o.level.tableAlias c ↔ Reads env o p.extras c s field) := by
  cases field with
  | scalar name =>
    obtain ⟨resolved, expression, extras, hr, -, hvalue, rfl⟩ := valueEntry_ok h
    obtain ⟨hextras, hreads⟩ := valueExpression_ok hvalue
    refine ⟨[(name, expression)], rfl, rfl, ?_, ?_⟩
    · intro l hl
      exact hextras l fun he => hl (List.mem_singleton.2 he)
    · intro e he
      cases List.mem_singleton.1 (Dictionary.mem_of_lookup he)
      rw [hreads]
      constructor
      · intro hcolumn
        exact ⟨resolved, hr, hcolumn⟩
      · rintro ⟨resolved', hr', hcolumn⟩
        rw [hr] at hr'
        cases hr'
        exact hcolumn
  | nested name selection =>
    obtain ⟨resolved, relation, hr, hn, hcases⟩ := entry_nested_ok h
    have hlabels : labels env o (.nested name selection) =
        if relation.many then (parentKeyColumns o.mapping relation).map keyLabel else [name] := by
      simp only [labels, hr, hn]
    rw [hlabels]
    rcases hcases with ⟨hmany, -, rfl⟩ | ⟨hmany, child, s₁, q, -, -, rfl⟩
    · rw [if_pos hmany]
      refine ⟨_, rfl, ?_, fun _ _ => rfl, ?_⟩
      · rw [List.map_map]
        rfl
      · intro e he
        obtain ⟨column, -, hitem⟩ := List.mem_map.1 (Dictionary.mem_of_lookup he)
        obtain ⟨hlabel, rfl⟩ := Prod.mk.inj hitem
        refine ⟨fun hcolumn => ?_, False.elim⟩
        have hname : column = c := Sql.qualified_inj.1 hcolumn
        exact keyLabel_ne c (hname ▸ hlabel)
    · rw [if_neg (Bool.eq_false_iff.1 hmany)]
      refine ⟨[(name, _)], rfl, rfl, fun _ _ => rfl, ?_⟩
      intro e he
      refine ⟨fun hcolumn => ?_, False.elim⟩
      obtain ⟨-, rfl⟩ := Prod.mk.inj (List.mem_singleton.1 (Dictionary.mem_of_lookup he))
      exact packed_ne ha hcolumn

/-! ### What all fields of a level add -/

variable {selections : List Selection}

theorem entries_append_ok {before after : List Selection}
    (h : entries env o p position (before ++ after) s = .ok (p', t)) :
    ∃ q u, entries env o p position before s = .ok (q, u) ∧
      entries env o q (position + before.length) after u = .ok (p', t) := by
  induction before generalizing p position s with
  | nil => exact ⟨p, s, pure_ok.2 ⟨rfl, rfl⟩, h⟩
  | cons field before ih =>
    obtain ⟨q, u, hentry, hrest⟩ := entries_cons_ok h
    obtain ⟨q', u', hbefore, hafter⟩ := ih hrest
    refine ⟨q', u', ?_, ?_⟩
    · rw [entries, bind_ok]
      exact ⟨q, u, hentry, hbefore⟩
    · have hlength : position + (field :: before).length = position + 1 + before.length := by
        rw [List.length_cons]
        omega
      rw [hlength]
      exact hafter

/-- The first item of a label stays. -/
theorem entries_lookup_some {e : String} (ha : Sql.IsName o.level.tableAlias)
    (h : entries env o p position selections s = .ok (p', t)) (hp : p.select.lookup c = some e) :
    p'.select.lookup c = some e := by
  induction selections generalizing p position s with
  | nil =>
    obtain ⟨rfl, -⟩ := entries_nil_ok h
    exact hp
  | cons field selections ih =>
    obtain ⟨q, u, hentry, hrest⟩ := entries_cons_ok h
    obtain ⟨items, hselect, -⟩ := entry_select (c := c) ha hentry
    apply ih hrest
    rw [hselect, lookup_addAll, hp, Option.some_or]

/-- Fields with other labels leave a label alone. -/
theorem entries_lookup_none (ha : Sql.IsName o.level.tableAlias)
    (h : entries env o p position selections s = .ok (p', t))
    (hc : ∀ f ∈ selections, c ∉ labels env o f) :
    p'.select.lookup c = p.select.lookup c ∧ p'.extras.lookup c = p.extras.lookup c := by
  induction selections generalizing p position s with
  | nil =>
    obtain ⟨rfl, -⟩ := entries_nil_ok h
    exact ⟨rfl, rfl⟩
  | cons field selections ih =>
    obtain ⟨q, u, hentry, hrest⟩ := entries_cons_ok h
    obtain ⟨items, hselect, hitems, hextras, -⟩ := entry_select (c := c) ha hentry
    have hfield := hc field List.mem_cons_self
    obtain ⟨hselect', hextras'⟩ := ih hrest fun f hf => hc f (List.mem_cons_of_mem _ hf)
    refine ⟨?_, hextras'.trans (hextras c hfield)⟩
    rw [← hitems] at hfield
    rw [hselect', hselect, lookup_addAll, Dictionary.lookup_eq_none hfield, Option.or_none]

theorem entries_nodup (ha : Sql.IsName o.level.tableAlias)
    (h : entries env o p position selections s = .ok (p', t))
    (hp : (p.select.map Prod.fst).Nodup) : (p'.select.map Prod.fst).Nodup := by
  induction selections generalizing p position s with
  | nil =>
    obtain ⟨rfl, -⟩ := entries_nil_ok h
    exact hp
  | cons field selections ih =>
    obtain ⟨q, u, hentry, hrest⟩ := entries_cons_ok h
    obtain ⟨items, hselect, -⟩ := entry_select (c := "") ha hentry
    apply ih hrest
    rw [hselect]
    exact nodup_addAll hp

/-- The first field with a label decides what stands under it. -/
theorem first_decides {field : Selection} {u : Sql.Scope} (ha : Sql.IsName o.level.tableAlias)
    (hempty : o.progress.select = [])
    (h : entries env o o.progress 0 selections s = .ok (p, t))
    (hfirst : FirstLabelled env o c selections s field u) :
    ∃ e, p.select.lookup c = some e ∧
      (e = qualified o.level.tableAlias c ↔ Reads env o o.progress.extras c u field) := by
  obtain ⟨before, after, q, rfl, hbefore, hfield, hq⟩ := hfirst
  obtain ⟨q₁, u₁, hq₁, hrest⟩ := entries_append_ok h
  rw [hq] at hq₁
  cases hq₁
  obtain ⟨q₂, u₂, hentry, hafter⟩ := entries_cons_ok hrest
  obtain ⟨hselect, hextras⟩ := entries_lookup_none ha hq hbefore
  obtain ⟨items, hadd, hitems, -, hreads⟩ := entry_select (c := c) ha hentry
  cases hlookup : items.lookup c with
  | none =>
    rw [← hitems] at hfield
    obtain ⟨item, hitem, hlabel⟩ := List.mem_map.1 hfield
    have hother := List.lookup_eq_none_iff.1 hlookup item hitem
    rw [bne_iff_ne] at hother
    exact absurd hlabel.symm hother
  | some e =>
    refine ⟨e, ?_, ?_⟩
    · apply entries_lookup_some ha hafter
      rw [hadd, lookup_addAll, hselect, hempty, hlookup]
      rfl
    · rw [hreads e hlookup]
      cases field with
      | scalar name => simp only [Reads, hextras]
      | nested name selection => exact Iff.rfl

theorem exists_firstLabelled (h : entries env o o.progress 0 selections s = .ok (p, t))
    (hc : ∃ f ∈ selections, c ∈ labels env o f) :
    ∃ field u, FirstLabelled env o c selections s field u := by
  have hsome : (selections.find? fun f => decide (c ∈ labels env o f)).isSome := by
    obtain ⟨f, hf, hl⟩ := hc
    rw [List.find?_isSome]
    exact ⟨f, hf, decide_eq_true hl⟩
  obtain ⟨field, hfind⟩ := Option.isSome_iff_exists.1 hsome
  obtain ⟨hfield, before, after, rfl, hbefore⟩ := List.find?_eq_some_iff_append.1 hfind
  obtain ⟨q, u, hq, -⟩ := entries_append_ok h
  refine ⟨field, u, before, after, q, rfl, ?_, of_decide_eq_true hfield, hq⟩
  intro f hf hl
  have hnot := hbefore f hf
  rw [decide_eq_true hl] at hnot
  cases hnot

end

/-! ### Required columns -/

section

variable {env : Environment} {start : Start} {o : Opened} {selections : List Selection}
  {s : Sql.Scope} {p : Progress} {c : String}

theorem Compiles.extraRequired_eq (h : Compiles env start o selections s p) :
    o.level.extraRequired = start.extraRequired := by
  cases h with
  | root _ _ _ ho _ =>
    obtain ⟨-, _, _, _, _, -, -, -, rfl⟩ := openLevel_ok ho
    rfl
  | followUp _ _ _ _ _ _ ho _ =>
    obtain ⟨-, _, _, _, _, -, -, -, rfl⟩ := openLevel_ok ho
    rfl
  | single _ _ _ _ _ _ ho _ =>
    obtain ⟨_, _, _, _, _, -, -, -, ho⟩ := openSingle_ok ho
    obtain ⟨-, _, _, _, _, -, -, -, rfl⟩ := openLevel_ok ho
    rfl

/-- Closing a level keeps the labels that are there and adds those that are required. -/
theorem closeLevel_lookup (hc : c ∈ o.mapping.required ++ o.level.extraRequired) :
    (closeLevel o p).1.lookup c =
      (p.select.lookup c).or (some (qualified o.level.tableAlias c)) := by
  have hrequired : ((o.mapping.required ++ o.level.extraRequired).map fun c =>
      (c, qualified o.level.tableAlias c)).lookup c =
        some (qualified o.level.tableAlias c) := by
    cases hl : ((o.mapping.required ++ o.level.extraRequired).map fun c =>
        (c, qualified o.level.tableAlias c)).lookup c with
    | none =>
      have hother := List.lookup_eq_none_iff.1 hl _ (List.mem_map_of_mem hc)
      rw [bne_self_eq_false] at hother
      cases hother
    | some e =>
      obtain ⟨c', -, hitem⟩ := List.mem_map.1 (Dictionary.mem_of_lookup hl)
      obtain ⟨rfl, rfl⟩ := Prod.mk.inj hitem
      rfl
  unfold closeLevel
  rw [lookup_addAll, lookup_addAll, hrequired]
  cases p.select.lookup c <;> rfl

/-- A required column stands once in the select list of a level, and it is the stored column
exactly if the first requested field with its label, where there is one, is the stored column. -/
theorem required_column (h : Compiles env start o selections s p)
    (hc : c ∈ o.mapping.required ∨ c ∈ start.extraRequired) :
    ∃ expression,
      (closeLevel o p).1.filter (fun item => item.1 == c) = [(c, expression)] ∧
      (expression = qualified o.level.tableAlias c ↔
        ∀ field t, FirstLabelled env o c selections s field t →
          Reads env o o.progress.extras c t field) := by
  have ha := h.isName
  have hempty := h.progress_select
  obtain ⟨t, he⟩ := h.entries_ok
  have hnodup : ((closeLevel o p).1.map Prod.fst).Nodup := by
    have hp : (p.select.map Prod.fst).Nodup :=
      entries_nodup ha he (by rw [hempty]; exact List.nodup_nil)
    exact nodup_addAll (nodup_addAll hp)
  have hlookup : (closeLevel o p).1.lookup c =
      (p.select.lookup c).or (some (qualified o.level.tableAlias c)) := by
    apply closeLevel_lookup
    rw [h.extraRequired_eq]
    exact List.mem_append.2 hc
  by_cases hlabel : ∃ f ∈ selections, c ∈ labels env o f
  · obtain ⟨field, u, hfirst⟩ := exists_firstLabelled he hlabel
    obtain ⟨e, hp, hreads⟩ := first_decides ha hempty he hfirst
    rw [hp, Option.some_or] at hlookup
    refine ⟨e, filter_label hnodup hlookup, ?_, fun hall => hreads.2 (hall field u hfirst)⟩
    intro hstored field' u' hfirst'
    obtain ⟨e', hp', hreads'⟩ := first_decides ha hempty he hfirst'
    rw [hp] at hp'
    cases hp'
    exact hreads'.1 hstored
  · have hnone : ∀ f ∈ selections, c ∉ labels env o f := fun f hf hl => hlabel ⟨f, hf, hl⟩
    rw [(entries_lookup_none ha he hnone).1, hempty] at hlookup
    refine ⟨_, filter_label hnodup hlookup, ?_, fun _ => rfl⟩
    rintro - field u ⟨before, after, q, rfl, -, hfield, -⟩
    exact absurd hfield (hnone field (List.mem_append_right _ List.mem_cons_self))

end

/-! ### A column that a field takes the place of -/

namespace Shadow

/-- Posts need their `authorId`, and a field of this name is another column. -/
def post : Schema.TypeMapping :=
  { required := ["authorId"], fields := [("authorId", .column "other")] }

def environment : Environment :=
  { registry := ⟨[("Post", post)], none⟩, settings := {}, caller := {} }

def request : Request := { typeName := "Post", fields := [.scalar "authorId"] }

theorem compiles : (compileRoot environment request none).toOption.isSome = true := by
  decide +kernel

/-- The level of the posts has their mapping and the alias `post_1`, and no filter adds to it. -/
theorem opened_eq {o : Opened} {s : Sql.Scope} {p : Progress}
    (h : Compiles environment (.root request none) o request.fields s p) :
    o.mapping = post ∧ o.level = rootOf request "post_1" ∧ o.progress.extras = [] := by
  cases h with
  | root _ hm ha ho _ =>
    obtain ⟨-, mapping, q₁, s₁, q₂, hm', h₁, h₂, rfl⟩ := openLevel_ok ho
    cases hm
    cases ha
    cases hm'
    cases h₁
    cases h₂
    exact ⟨rfl, rfl, rfl⟩

end Shadow

/-- Requesting the field puts the other column in the place of the required one. -/
theorem required_column_shadowed : ∃ o s p expression,
    Compiles Shadow.environment (.root Shadow.request none) o Shadow.request.fields s p ∧
      "authorId" ∈ o.mapping.required ∧
      (closeLevel o p).1.filter (fun item => item.1 == "authorId") = [("authorId", expression)] ∧
      expression ≠ qualified o.level.tableAlias "authorId" := by
  cases hcompiled : compileRoot Shadow.environment Shadow.request none with
  | error e =>
    have hok := Shadow.compiles
    rw [hcompiled] at hok
    cases hok
  | ok compiled =>
    obtain ⟨o, s, p, hlevel, -⟩ := compileRoot_compiles hcompiled
    obtain ⟨hmapping, hopened, hextras⟩ := Shadow.opened_eq hlevel
    have hrequired : "authorId" ∈ o.mapping.required := by
      rw [hmapping]
      exact List.mem_singleton.2 rfl
    obtain ⟨expression, hfilter, hstored⟩ := required_column hlevel (.inl hrequired)
    refine ⟨o, s, p, expression, hlevel, hrequired, hfilter, ?_⟩
    intro h
    have hfirst : FirstLabelled Shadow.environment o "authorId" Shadow.request.fields s
        (.scalar "authorId") s :=
      ⟨[], [], o.progress, rfl, fun _ hf => absurd hf List.not_mem_nil, List.mem_singleton.2 rfl,
        rfl⟩
    obtain ⟨resolved, hresolved, hreads⟩ := hstored.1 h _ _ hfirst
    rw [hopened] at hresolved
    cases hresolved
    rw [hextras] at hreads
    have hother : "other" = "authorId" := hreads
    exact absurd hother (by decide)

end Plan

end ObjectGraph
