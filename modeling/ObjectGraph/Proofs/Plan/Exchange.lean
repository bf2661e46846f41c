import ObjectGraph.Proofs.Plan.Dropping

/-! # One entry exchanged for another

Two selections of a level that differ in one entry are compiled with the same parts before it and
after it (`entries_exchanged`): what the entry added in its place is all that differs, apart from
the labelled selects of filters that only one of the entries uses (`Exchanged`).  The place of an
entry shows in `entries_append`; `answeredEntry` compiles it from the answer that was found for its
field, which need not be the one of its name. -/

namespace ObjectGraph

namespace Plan

open Outcome (Same)
open Schema (Relation Resolved)
open Compiling (Alike)

/-- A compilation is like itself. -/
theorem Compiling.Alike.same {α : Type} (x : Compiling α) : Alike True Eq x x := by
  intro s s' hs
  rw [hs trivial]
  exact (Same.refl _).mono fun p q hpq => ⟨congrArg Prod.fst hpq, fun _ => congrArg Prod.snd hpq⟩

/-! ### An entry by the answer of its field -/

/-- The entry of a field, with fields of its own if there are any. -/
def selected (name : String) : Option (List Selection) → Selection
  | none => .scalar name
  | some below => .nested name below

/-- Compile the entry of a field that is answered in a given way. -/
def answeredEntry (env : Environment) (o : Opened) (p : Progress) (position : Nat) (name : String)
    (resolved : Resolved) : Option (List Selection) → Compiling Progress
  | none => do
    if resolved.relation?.isSome then throw (.missingSelection o.level.typeName name)
    let (expression, extras) ← valueExpression env o.level name resolved p.extras
    pure { p with
      select := p.select.add name expression
      extras
      fields := p.fields ++ [valueField name resolved] }
  | some below =>
    match resolved.relation? with
    | none => throw (.unexpectedSelection o.level.typeName name)
    | some relation =>
      if relation.many then pure (manyEntry o p position name resolved relation below)
      else do
        let child ← openSingle env o.level position relation (resolved.view.getD relation.target)
        let q ← entries env child child.progress 0 below
        pure (closeSingle env o.level p name resolved child q)

/-- Compile the fields of a level, one of which is answered in a given way. -/
def entriesAnswered (env : Environment) (o : Opened) (before : List Selection) (name : String)
    (resolved : Resolved) (below : Option (List Selection)) (after : List Selection) :
    Compiling Progress := do
  let p ← entries env o o.progress 0 before
  let p ← answeredEntry env o p before.length name resolved below
  entries env o p (before.length + 1) after

section

variable {env : Environment} {o : Opened} {p p' : Progress} {position : Nat} {name : String}
  {resolved : Resolved} {below : Option (List Selection)} {s t : Sql.Scope}

theorem exists_selected (field : Selection) : ∃ below, field = selected field.name below := by
  cases field with
  | scalar name => exact ⟨none, rfl⟩
  | nested name below => exact ⟨some below, rfl⟩

theorem entry_selected : entry env o p position (selected name below) =
    Compiling.ofSchema (env.registry.resolve o.level.typeName name) >>= fun resolved =>
      answeredEntry env o p position name resolved below := by
  cases below <;> rfl

theorem entry_eq (hr : env.registry.resolve o.level.typeName name = .ok resolved) :
    entry env o p position (selected name below) =
      answeredEntry env o p position name resolved below := by
  rw [entry_selected, hr]
  rfl

theorem entries_append (before after : List Selection) :
    entries env o p position (before ++ after) = entries env o p position before >>= fun q =>
      entries env o q (position + before.length) after := by
  induction before generalizing p position with
  | nil => rfl
  | cons field before ih =>
    have hlength : position + (field :: before).length = position + 1 + before.length := by
      rw [List.length_cons]
      omega
    rw [List.cons_append, entries, entries, bind_assoc, hlength]
    exact bind_congr fun q => ih

/-- The entry of a field is compiled in its place from the answer that is found for its name. -/
theorem entries_selected (before after : List Selection)
    (hr : env.registry.resolve o.level.typeName name = .ok resolved) :
    entries env o o.progress 0 (before ++ selected name below :: after) =
      entriesAnswered env o before name resolved below after := by
  rw [entries_append, Nat.zero_add]
  refine bind_congr fun p => ?_
  rw [entries, entry_eq hr]

/-- A value that is no relation is compiled to its own expression or to that of a filter. -/
theorem answeredEntry_value (hn : resolved.relation? = none) (ha : resolved.Unaliased) :
    answeredEntry env o p position name resolved none =
      Compiling.ofBuilding (ownExpression env o.level.tableAlias resolved) >>= fun own =>
        let picked := pick name own p.extras
        pure { p with
          select := p.select.add name picked.1
          extras := picked.2
          fields := p.fields ++ [valueField name resolved] } := by
  unfold answeredEntry
  rw [hn, valueExpression_eq hn ha]
  rfl

/-- An entry claims its name or the keys of its list. -/
theorem entry_claims {field : Selection} {c : String}
    (h : entry env o p position field s = .ok (p', t)) :
    p.many ⊆ p'.many ∧ (p.select.lookup c = none → field.name ≠ c →
      (∀ many ∈ p'.many, c ∉ many.keyLabels) → p'.select.lookup c = none) := by
  have hadd : ∀ expression, p.select.lookup c = none → field.name ≠ c →
      (p.select.add field.name expression).lookup c = none := by
    intro expression hp hne
    rw [lookup_add, hp, Option.none_or, List.lookup_cons,
      beq_false_of_ne fun he => hne he.symm]
    rfl
  cases field with
  | scalar name =>
    obtain ⟨resolved, expression, extras, -, -, -, rfl⟩ := valueEntry_ok h
    exact ⟨List.Subset.refl _, fun hp hne _ => hadd expression hp hne⟩
  | nested name below =>
    obtain ⟨resolved, relation, -, -, ⟨-, -, rfl⟩ | ⟨-, child, s₁, q, -, -, rfl⟩⟩ :=
      entry_nested_ok h
    · refine ⟨List.subset_append_left _ _, fun hp _ hkeys => ?_⟩
      have hkey := hkeys _ (List.mem_append_right _ (List.mem_singleton.2 rfl))
      have hitems : ((parentKeyColumns o.mapping relation).map fun column =>
          (keyLabel column, Sql.qualified o.level.tableAlias column)).lookup c = none := by
        refine Dictionary.lookup_eq_none fun hmem => hkey ?_
        rw [List.map_map] at hmem
        exact hmem
      change (p.select.addAll _).lookup c = none
      rw [lookup_addAll, hp, hitems]
      rfl
    · exact ⟨List.Subset.refl _, fun hp hne _ => hadd _ hp hne⟩

/-- Only the names of fields and the keys of lists are labels of a level. -/
theorem entries_claims {fields : List Selection} {c : String}
    (h : entries env o p position fields s = .ok (p', t)) :
    p.many ⊆ p'.many ∧ (p.select.lookup c = none → (∀ field ∈ fields, field.name ≠ c) →
      (∀ many ∈ p'.many, c ∉ many.keyLabels) → p'.select.lookup c = none) := by
  induction fields generalizing p position s with
  | nil =>
    obtain ⟨rfl, -⟩ := entries_nil_ok h
    exact ⟨List.Subset.refl _, fun hp _ _ => hp⟩
  | cons field fields ih =>
    obtain ⟨q, u, hentry, hrest⟩ := entries_cons_ok h
    obtain ⟨hmany, hclaims⟩ := entry_claims (c := c) hentry
    obtain ⟨hmany', hclaims'⟩ := ih hrest
    refine ⟨List.Subset.trans hmany hmany', fun hp hfields hkeys => ?_⟩
    refine hclaims' ?_ (fun other ho => hfields other (List.mem_cons_of_mem _ ho)) hkeys
    exact hclaims hp (hfields field List.mem_cons_self) fun many hm => hkeys many (hmany' hm)

end

/-! ### Progress with an entry in the place of another -/

/-- What an entry adds to its level. -/
structure Added where
  items : List (String × String)
  field : FieldPlan NodePlan
  many : List ManyPlan

/-- The items under labels other than two. -/
def others (t a : String) (items : List (String × String)) : List (String × String) :=
  items.filter fun item => item.1 != t && item.1 != a

/-- Two selections of which the same was compiled before a place, an entry each in it, and the same
after it; they may leave other labelled selects under the names of the two entries. -/
structure Exchanged (t a : String) (start : Progress) (e e' : Added) (p p' : Progress) : Prop where
  select : ∃ rest, p.select = (start.select.addAll e.items).addAll rest ∧
    p'.select = (start.select.addAll e'.items).addAll rest
  extras : others t a p.extras = others t a p'.extras
  fields : ∃ rest, p.fields = start.fields ++ e.field :: rest ∧
    p'.fields = start.fields ++ e'.field :: rest
  many : ∃ rest, p.many = start.many ++ e.many ++ rest ∧ p'.many = start.many ++ e'.many ++ rest

section

variable {t a name : String} {own : String × Bool} {items : List (String × String)}
  {start p p' : Progress} {e e' : Added}

theorem others_cons {item : String × String} : others t a (item :: items) =
    if item.1 != t && item.1 != a then item :: others t a items else others t a items :=
  List.filter_cons

theorem takeLabel_others (ht : name ≠ t) (ha : name ≠ a) :
    takeLabel name (others t a items) =
      (takeLabel name items).map fun found => (found.1, others t a found.2) := by
  induction items with
  | nil => rfl
  | cons item items ih =>
    rw [others_cons]
    by_cases hname : item.1 = name
    · rw [if_pos (by rw [hname, bne_iff_ne.2 ht, bne_iff_ne.2 ha]; rfl), takeLabel, takeLabel,
        if_pos hname, if_pos hname]
      rfl
    · rw [takeLabel, if_neg hname, Option.map_map]
      split
      · next hkept =>
        rw [takeLabel, if_neg hname, ih, Option.map_map]
        refine Option.map_congr fun found _ => ?_
        simp only [Function.comp_apply, others_cons, if_pos hkept]
      · next hkept =>
        rw [ih]
        refine Option.map_congr fun found _ => ?_
        simp only [Function.comp_apply, others_cons, if_neg hkept]

/-- What is picked under another name, and what it leaves of the other items. -/
theorem pick_others (ht : name ≠ t) (ha : name ≠ a) :
    pick name own (others t a items) =
      ((pick name own items).1, others t a (pick name own items).2) := by
  unfold pick
  split
  · rfl
  · rw [takeLabel_others ht ha]
    cases takeLabel name items <;> rfl

/-- What an entry picks under one of the two names is not among the other items. -/
theorem others_pick (h : name = t ∨ name = a) :
    others t a (pick name own items).2 = others t a items := by
  unfold pick
  split
  · rfl
  · cases htake : takeLabel name items with
    | none => rfl
    | some found =>
      have hrest := filter_takeLabel htake
      have hothers : ∀ xs : List (String × String),
          others t a xs = others t a (xs.filter fun item => item.1 != name) := by
        intro xs
        unfold others
        rw [List.filter_filter]
        refine List.filter_congr fun item _ => ?_
        rcases h with rfl | rfl
        · rw [Bool.and_right_comm, Bool.and_self]
        · rw [Bool.and_assoc, Bool.and_self]
      rw [hothers, hothers items, ← hrest]
      rfl

/-- The progress in which the entries were just added. -/
theorem Exchanged.ofAdded {extras extras' : List (String × String)}
    (hextras : others t a extras = others t a extras') :
    Exchanged t a p e e'
      ⟨p.select.addAll e.items, extras, p.fields ++ [e.field], p.many ++ e.many⟩
      ⟨p.select.addAll e'.items, extras', p.fields ++ [e'.field], p.many ++ e'.many⟩ :=
  ⟨⟨[], rfl, rfl⟩, hextras, ⟨[], rfl, rfl⟩,
    ⟨[], (List.append_nil _).symm, (List.append_nil _).symm⟩⟩

/-- The progress in which a value or a single object was just added under each name. -/
theorem Exchanged.ofOne {extras extras' : List (String × String)}
    (hextras : others t a extras = others t a extras') (expression expression' : String)
    (field field' : FieldPlan NodePlan) :
    Exchanged t a p ⟨[(t, expression)], field, []⟩ ⟨[(a, expression')], field', []⟩
      ⟨p.select.add t expression, extras, p.fields ++ [field], p.many⟩
      ⟨p.select.add a expression', extras', p.fields ++ [field'], p.many⟩ :=
  ⟨⟨[], rfl, rfl⟩, hextras, ⟨[], rfl, rfl⟩,
    ⟨[], by rw [List.append_nil, List.append_nil], by rw [List.append_nil, List.append_nil]⟩⟩

/-- The same is added to both after the place. -/
theorem Exchanged.add (h : Exchanged t a start e e' p p') {extras extras' : List (String × String)}
    (hextras : others t a extras = others t a extras') (added : Added) :
    Exchanged t a start e e'
      ⟨p.select.addAll added.items, extras, p.fields ++ [added.field], p.many ++ added.many⟩
      ⟨p'.select.addAll added.items, extras', p'.fields ++ [added.field],
        p'.many ++ added.many⟩ := by
  obtain ⟨items, hs, hs'⟩ := h.select
  obtain ⟨fields, hf, hf'⟩ := h.fields
  obtain ⟨many, hm, hm'⟩ := h.many
  refine ⟨⟨items ++ added.items, ?_, ?_⟩, hextras, ⟨fields ++ [added.field], ?_, ?_⟩,
    ⟨many ++ added.many, ?_, ?_⟩⟩
  · rw [hs, addAll_append]
  · rw [hs', addAll_append]
  · rw [hf, List.append_assoc, List.cons_append]
  · rw [hf', List.append_assoc, List.cons_append]
  · rw [hm, List.append_assoc]
  · rw [hm', List.append_assoc]

/-- The same value or single object is added to both after the place. -/
theorem Exchanged.addOne (h : Exchanged t a start e e' p p')
    {extras extras' : List (String × String)} (hextras : others t a extras = others t a extras')
    (label expression : String) (field : FieldPlan NodePlan) :
    Exchanged t a start e e'
      ⟨p.select.add label expression, extras, p.fields ++ [field], p.many⟩
      ⟨p'.select.add label expression, extras', p'.fields ++ [field], p'.many⟩ := by
  have hadded := h.add hextras ⟨[(label, expression)], field, []⟩
  rw [List.append_nil, List.append_nil] at hadded
  exact hadded

theorem Exchanged.length_many (h : Exchanged t a start e e' p p')
    (hlength : e.many.length = e'.many.length) : p.many.length = p'.many.length := by
  obtain ⟨many, hm, hm'⟩ := h.many
  rw [hm, hm']
  simp only [List.length_append, hlength]

/-- The entries of other fields add the same to both. -/
theorem entry_exchanged {env : Environment} {o : Opened} {position : Nat} {field : Selection}
    (hnever : ∀ typeName name resolved, env.registry.resolve typeName name = .ok resolved →
      resolved.Unaliased)
    (hlength : e.many.length = e'.many.length) (ht : field.name ≠ t) (ha : field.name ≠ a)
    (h : Exchanged t a start e e' p p') :
    Alike True (Exchanged t a start e e') (entry env o p position field)
      (entry env o p' position field) := by
  obtain ⟨below, hfield⟩ := exists_selected field
  rw [hfield, entry_selected, entry_selected]
  refine Alike.ofSchema fun resolved hr => ?_
  cases below with
  | none =>
    cases hn : resolved.relation? with
    | some relation =>
      unfold answeredEntry
      rw [hn]
      exact Alike.throw _
    | none =>
      rw [answeredEntry_value hn (hnever _ _ _ hr), answeredEntry_value hn (hnever _ _ _ hr)]
      refine (Alike.ofBuilding fun _ => rfl).bind fun own own' hown => ?_
      obtain rfl := hown trivial
      have hpicked : pick field.name own (others t a p.extras) = _ := pick_others ht ha
      rw [h.extras, pick_others ht ha, Prod.mk.injEq] at hpicked
      simp only
      rw [hpicked.1]
      exact Alike.pure (h.addOne hpicked.2.symm _ _ _)
  | some below =>
    unfold answeredEntry
    cases hn : resolved.relation? with
    | none => exact Alike.throw _
    | some relation =>
      by_cases hm : relation.many = true
      · simp only [hm, if_true]
        refine Alike.pure ?_
        unfold manyEntry
        rw [h.length_many hlength]
        exact h.add h.extras ⟨_, _, [_]⟩
      · simp only [hm]
        refine (Alike.same _).bind fun child _ hchild => ?_
        obtain rfl := hchild
        refine (Alike.same _).bind fun q _ hq => ?_
        obtain rfl := hq
        exact Alike.pure (h.addOne h.extras _ _ _)

/-- Fields with other names add the same to both. -/
theorem entries_exchanged {env : Environment} {o : Opened} {position : Nat}
    {fields : List Selection}
    (hnever : ∀ typeName name resolved, env.registry.resolve typeName name = .ok resolved →
      resolved.Unaliased)
    (hlength : e.many.length = e'.many.length)
    (hfields : ∀ field ∈ fields, field.name ≠ t ∧ field.name ≠ a)
    (h : Exchanged t a start e e' p p') :
    Alike True (Exchanged t a start e e') (entries env o p position fields)
      (entries env o p' position fields) := by
  induction fields generalizing p p' position with
  | nil =>
    rw [entries, entries]
    exact Alike.pure h
  | cons field fields ih =>
    rw [entries, entries]
    obtain ⟨ht, ha⟩ := hfields field List.mem_cons_self
    refine (entry_exchanged hnever hlength ht ha h).bind fun q q' hq => ?_
    exact ih (fun other ho => hfields other (List.mem_cons_of_mem _ ho)) hq

end

end Plan

end ObjectGraph
