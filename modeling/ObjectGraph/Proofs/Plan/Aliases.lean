import ObjectGraph.Proofs.Plan.Exchange

/-! # Aliases

A field that is an alias is compiled as the field that it leads to, its target, would be in its
place (`alias_as_target`): what the entries add is the same but for their names, for what the alias
declares besides, and for the labelled selects of filters, which count for the name that was
requested (`AliasEntry`).  What is compiled before them and after them is the same (`Exchanged`),
and faults differ at most in the name of the field (`SameButFor`). -/

namespace ObjectGraph

namespace Schema

variable {draft : Draft} {registry : Registry}

/-- An alias of a registry that was built leads to a mapped field that is no alias; a view is of a
relation. -/
theorem Draft.alias_target (h : draft.build = .ok registry) {typeName a t : String}
    {mapping : TypeMapping} {m : FieldMapping} {view : Option String}
    (ht : registry.lookup typeName = .ok mapping) (hm : mapping.fields.get? a = some m)
    (hsource : m.source = .aliasOf t view) :
    ∃ target, mapping.fields.get? t = some target ∧
      (∀ field view, target.source ≠ .aliasOf field view) ∧
      (target.relation? = none → view = none) := by
  have hchecked := Draft.build_checked h (Registry.lookup_ok.1 ht) hm
  unfold checkField at hchecked
  obtain ⟨⟨⟩, -, hchecked⟩ := Outcome.bind_ok.1 hchecked
  obtain ⟨⟨⟩, -, hchecked⟩ := Outcome.bind_ok.1 hchecked
  simp only [hsource] at hchecked
  cases htarget : mapping.fields.get? t with
  | none =>
    unfold checkAlias at hchecked
    rw [htarget] at hchecked
    split at hchecked <;> cases hchecked
  | some target =>
    refine ⟨target, rfl, checkAlias_ok hchecked htarget, fun hn => ?_⟩
    unfold checkAlias at hchecked
    rw [htarget] at hchecked
    cases view with
    | none => rfl
    | some view =>
      unfold FieldMapping.relation? at hn
      split at hchecked
      · cases hchecked
      · cases hs : target.source with
        | relation relation =>
          rw [hs] at hn
          cases hn
        | column column | computed computed | aliasOf field other =>
          simp only [hs] at hchecked
          cases hchecked

/-- How an alias is answered, and how its target is. -/
theorem Registry.resolve_alias {typeName a t : String} {mapping : TypeMapping}
    {m target : FieldMapping} {view : Option String}
    (ht : registry.lookup typeName = .ok mapping) (hm : mapping.fields.get? a = some m)
    (hsource : m.source = .aliasOf t view) (htarget : mapping.fields.get? t = some target)
    (hlists : registry.lists typeName a = true) :
    registry.resolve typeName a =
      .ok { mapping := some target, field := t, view, aliasMapping := some m } := by
  unfold Registry.resolve
  rw [ht]
  change (if (!registry.lists typeName a) = true then _ else _) = _
  rw [hlists]
  simp only [hm, hsource, htarget]
  rfl

theorem Registry.resolve_mapped {typeName t : String} {mapping : TypeMapping}
    {target : FieldMapping} (ht : registry.lookup typeName = .ok mapping)
    (htarget : mapping.fields.get? t = some target)
    (hunaliased : ∀ field view, target.source ≠ .aliasOf field view)
    (hlists : registry.lists typeName t = true) :
    registry.resolve typeName t = .ok { mapping := some target, field := t } := by
  unfold Registry.resolve
  rw [ht]
  change (if (!registry.lists typeName t) = true then _ else _) = _
  rw [hlists]
  simp only [htarget]
  cases hs : target.source with
  | aliasOf field view => exact absurd hs (hunaliased field view)
  | column column | computed computed | relation relation => rfl

end Schema

namespace Plan

open Outcome (Same)
open Sql (Query)
open Schema (FieldMapping Relation Resolved TypeFilter)
open Compiling (Alike)

/-! ### What is compared -/

/-- Two compilations that succeed with related values, fail with the same fault, or find that the
selection of a field does not fit it, which has one name in the first and another in the second. -/
inductive SameButFor {α β : Type} (typeName t a : String) (R : α → β → Prop) :
    Except Error α → Except Error β → Prop
  | ok {x : α} {y : β} : R x y → SameButFor typeName t a R (.ok x) (.ok y)
  | error (e : Error) : SameButFor typeName t a R (.error e) (.error e)
  | missing : SameButFor typeName t a R (.error (.missingSelection typeName t))
      (.error (.missingSelection typeName a))
  | unexpected : SameButFor typeName t a R (.error (.unexpectedSelection typeName t))
      (.error (.unexpectedSelection typeName a))

/-- A target as an alias views it: its relation leads to the type of the view. -/
def viewed (t : String) (target : FieldMapping) (view : Option String) : Resolved :=
  { mapping := some target, field := t, view }

/-- What the entry of the target `t` adds to its level, as the alias `a` views it, and what that of
the alias adds in its place. -/
inductive AliasEntry (env : Environment) (o : Opened) (start : Progress) (t a : String)
    (target m : FieldMapping) (view : Option String) : Added → Added → Prop
  /-- A value: the same expression, except that what a filter added under the requested name comes
  before a column. -/
  | value (own : String × Bool) (s : Sql.Scope) : target.relation? = none →
      own = (ownExpression env o.level.tableAlias (viewed t target view) s).1 →
      AliasEntry env o start t a target m view
        ⟨[(t, (pick t own start.extras).1)],
          { name := t, kind := .value, json := target.json, transform := target.transform }, []⟩
        ⟨[(a, (pick a own start.extras).1)],
          { name := a
            kind := .value
            json := target.json || m.json
            transform := Transform.andThen? target.transform m.transform }, []⟩
  /-- A related object: the same sub-select, of the type of the view if there is one. -/
  | single (relation : Relation) (expression : String) (plan : NodePlan) :
      target.relation? = some relation → relation.many = false →
      plan.typeName = view.getD relation.target →
      AliasEntry env o start t a target m view
        ⟨[(t, expression)],
          { name := t, kind := .single plan, transform := target.transform }, []⟩
        ⟨[(a, expression)],
          { name := a
            kind := .single plan
            transform := Transform.andThen? target.transform m.transform }, []⟩
  /-- A list of related objects: the same keys and the same follow-ups. -/
  | many (relation : Relation) (list : ManyPlan) (items : List (String × String)) :
      target.relation? = some relation → relation.many = true → list.field = t →
      list.target = view.getD relation.target → list.paging = target.paging →
      items.map Prod.fst = list.keyLabels →
      (∀ keys, compileMany env { list with field := a } keys = compileMany env list keys) →
      AliasEntry env o start t a target m view
        ⟨items,
          { name := t, kind := .many start.many.length, transform := target.transform }, [list]⟩
        ⟨items,
          { name := a
            kind := .many start.many.length
            transform := Transform.andThen? target.transform m.transform },
          [{ list with field := a }]⟩

/-- An expression that an entry adds under its own name is in the select list of its level, unless
the key of a list before it has that label. -/
def Shown (o : Opened) (start p : Progress) (name : String) (e : Added) : Prop :=
  ∀ expression, e.items = [(name, expression)] → (∀ many ∈ start.many, name ∉ many.keyLabels) →
    (closeLevel o p).1.lookup name = some expression

/-- What is compiled of a level with the target of an alias and with the alias in its place. -/
structure AsTarget (env : Environment) (o : Opened) (start : Progress) (t a : String)
    (target m : FieldMapping) (view : Option String) (e e' : Added) (p p' : Progress) : Prop where
  entry : AliasEntry env o start t a target m view e e'
  exchanged : Exchanged t a start e e' p p'
  shown : Shown o start p t e
  shown_alias : Shown o start p' a e'

section

variable {α β γ δ : Type} {typeName t a : String} {R : α → β → Prop} {S : γ → δ → Prop}

theorem SameButFor.bind {x : Except Error α} {y : Except Error β} {f : α → Except Error γ}
    {g : β → Except Error δ} (h : SameButFor typeName t a R x y)
    (hf : ∀ a' b', R a' b' → Same S (f a') (g b')) :
    SameButFor typeName t a S (x >>= f) (y >>= g) := by
  cases h with
  | ok h =>
    have hsame := hf _ _ h
    change SameButFor typeName t a S (f _) (g _)
    generalize f _ = r, g _ = r' at hsame
    cases hsame with
    | ok h => exact .ok h
    | error e => exact .error e
  | error e => exact .error e
  | missing => exact .missing
  | unexpected => exact .unexpected

/-- What is compiled first is the same for both. -/
theorem SameButFor.after {S : γ × Sql.Scope → δ × Sql.Scope → Prop} {x : Compiling α}
    {f : α → Compiling γ} {g : α → Compiling δ} {s : Sql.Scope}
    (h : ∀ a' u, x s = .ok (a', u) → SameButFor typeName t a S (f a' u) (g a' u)) :
    SameButFor typeName t a S ((x >>= f) s) ((x >>= g) s) := by
  change SameButFor typeName t a S (Except.bind (x s) fun p => f p.1 p.2)
    (Except.bind (x s) fun p => g p.1 p.2)
  cases hx : x s with
  | error e => exact .error e
  | ok p => exact h p.1 p.2 hx

end

section

variable {env : Environment} {o : Opened} {t a : String} {target m : FieldMapping}
  {view : Option String}

/-- A follow-up does not depend on the name of the field that leads to it. -/
theorem compileMany_field {list : ManyPlan} {name : String} {resolved resolved' : Resolved}
    {relation : Relation} (hr : env.registry.resolve list.parentType list.field = .ok resolved)
    (hr' : env.registry.resolve list.parentType name = .ok resolved')
    (hn : resolved.relation? = some relation) (hn' : resolved'.relation? = some relation)
    (keys : List (List Json)) :
    compileMany env { list with field := name } keys = compileMany env list keys := by
  have hfound : ∀ (r : Resolved) (f : Resolved → Except Error Compiled),
      (Except.mapError Error.schema (.ok r) >>= f) = f r := fun _ _ => rfl
  unfold compileMany
  simp only [hr, hr']
  split
  · rfl
  · refine bind_congr fun parent => ?_
    rw [hfound, hfound, hn, hn']
    rfl

/-- The answer of an alias. -/
def aliased (t : String) (target m : FieldMapping) (view : Option String) : Resolved :=
  { viewed t target view with aliasMapping := some m }

theorem viewed_relation? : (viewed t target view).relation? = target.relation? := rfl

theorem aliased_relation? : (aliased t target m view).relation? = target.relation? := rfl

theorem viewed_transform? : (viewed t target view).transform? = target.transform := by
  unfold Resolved.transform? viewed
  change Transform.andThen? target.transform none = _
  cases target.transform <;> rfl

theorem viewed_json : (viewed t target view).json = target.json := Bool.or_false _

theorem viewed_unaliased (h : ∀ field other, target.source ≠ .aliasOf field other) :
    (viewed t target view).Unaliased := by
  rintro _ field other ⟨⟩
  exact h field other

theorem valueField_viewed : valueField t (viewed t target view) =
    { name := t, kind := .value, json := target.json, transform := target.transform } := by
  unfold valueField
  rw [viewed_json, viewed_transform?]

theorem valueField_aliased : valueField a (aliased t target m view) =
    { name := a
      kind := .value
      json := target.json || m.json
      transform := Transform.andThen? target.transform m.transform } := rfl

/-- What is compiled in the place of an entry. -/
def InPlace (env : Environment) (o : Opened) (p : Progress) (t a : String)
    (target m : FieldMapping) (view : Option String) (r r' : Progress × Sql.Scope) : Prop :=
  r.2 = r'.2 ∧ ∃ e e', AliasEntry env o p t a target m view e e' ∧
    e.many.length = e'.many.length ∧ Exchanged t a p e e' r.1 r'.1

variable {p : Progress} {position : Nat}

theorem answeredEntry_value_alias {s : Sql.Scope} (hn : target.relation? = none)
    (hunaliased : ∀ field other, target.source ≠ .aliasOf field other) :
    SameButFor o.level.typeName t a (InPlace env o p t a target m view)
      (answeredEntry env o p position t (viewed t target view) none s)
      (answeredEntry env o p position a (aliased t target m view) none s) := by
  have hviewed : (viewed t target view).relation? = none := hn
  have haliased : (aliased t target m view).relation? = none := hn
  have hnever : (viewed t target view).Unaliased := viewed_unaliased hunaliased
  rw [answeredEntry_value hviewed hnever, answeredEntry_value haliased hnever]
  refine .ok ⟨rfl, _, _, .value _ s hn rfl, rfl, ?_⟩
  simp only [valueField_viewed, valueField_aliased]
  exact Exchanged.ofOne ((others_pick (.inl rfl)).trans (others_pick (.inr rfl)).symm) _ _ _ _

theorem manyEntry_alias {relation : Relation} (below : List Selection)
    (hn : target.relation? = some relation) (hm : relation.many = true)
    (ht : env.registry.resolve o.level.typeName t = .ok { mapping := some target, field := t })
    (ha : env.registry.resolve o.level.typeName a = .ok (aliased t target m view))
    (s : Sql.Scope) :
    InPlace env o p t a target m view
      (manyEntry o p position t (viewed t target view) relation below, s)
      (manyEntry o p position a (aliased t target m view) relation below, s) := by
  unfold manyEntry
  rw [viewed_transform?]
  refine ⟨rfl, ⟨_, _, [_]⟩, ⟨_, _, [_]⟩, .many relation _ _ hn hm rfl rfl rfl ?_ ?_, rfl,
    .ofAdded rfl⟩
  · rw [List.map_map]
    rfl
  · intro keys
    have hplain : ({ mapping := some target, field := t } : Resolved).relation? =
        some relation := hn
    have haliased : (aliased t target m view).relation? = some relation := hn
    exact compileMany_field ht ha hplain haliased keys

theorem closeSingle_alias {relation : Relation}
    (hn : target.relation? = some relation) (hm : relation.many = false)
    (child : Opened) (q : Progress) (hchild : child.level.typeName = view.getD relation.target)
    (s : Sql.Scope) :
    InPlace env o p t a target m view
      (closeSingle env o.level p t (viewed t target view) child q, s)
      (closeSingle env o.level p a (aliased t target m view) child q, s) := by
  unfold closeSingle
  rw [viewed_transform?]
  exact ⟨rfl, _, _, .single relation _ _ hn hm hchild, rfl, .ofOne rfl _ _ _ _⟩

/-- In its place, an alias adds what its target would. -/
theorem answeredEntry_alias {below : Option (List Selection)} {s : Sql.Scope}
    (hunaliased : ∀ field other, target.source ≠ .aliasOf field other)
    (ht : env.registry.resolve o.level.typeName t = .ok { mapping := some target, field := t })
    (ha : env.registry.resolve o.level.typeName a = .ok (aliased t target m view)) :
    SameButFor o.level.typeName t a (InPlace env o p t a target m view)
      (answeredEntry env o p position t (viewed t target view) below s)
      (answeredEntry env o p position a (aliased t target m view) below s) := by
  cases below with
  | none =>
    cases hn : target.relation? with
    | none => exact answeredEntry_value_alias hn hunaliased
    | some relation =>
      unfold answeredEntry
      rw [viewed_relation?, aliased_relation?, hn]
      exact .missing
  | some below =>
    unfold answeredEntry
    rw [viewed_relation?, aliased_relation?]
    cases hn : target.relation? with
    | none => exact .unexpected
    | some relation =>
      by_cases hm : relation.many = true
      · simp only [hm, if_true]
        exact .ok (manyEntry_alias below hn hm ht ha s)
      · simp only [hm]
        rw [Bool.not_eq_true] at hm
        refine SameButFor.after fun child u hchild => ?_
        refine SameButFor.after fun q v _ => ?_
        exact .ok (closeSingle_alias hn hm child q (openSingle_typeName hchild) v)

/-- What an entry adds under its own name is shown, unless a list before it has that label for a
key. -/
theorem shown_of_exchanged {start p : Progress} {e : Added} {name : String}
    {before : List Selection} {s u : Sql.Scope} (hstart : o.progress.select = [])
    (hbefore : entries env o o.progress 0 before s = .ok (start, u))
    (hnames : ∀ field ∈ before, field.name ≠ name)
    (h : ∃ rest, p.select = (start.select.addAll e.items).addAll rest) :
    Shown o start p name e := by
  intro expression hitems hkeys
  obtain ⟨rest, hselect⟩ := h
  have hnone : o.progress.select.lookup name = none := by
    rw [hstart]
    rfl
  have hfree := (entries_claims hbefore).2 hnone hnames hkeys
  unfold closeLevel
  simp only
  rw [lookup_addAll, lookup_addAll, hselect, lookup_addAll, lookup_addAll, hfree, hitems,
    List.lookup_cons, beq_self_eq_true]
  rfl

/-- An alias is compiled as its target would be in its place, at every level of a request.  The
level `o` was opened, as the root, a related object and a follow-up all are, and its fields are
compiled with the alias `a` and with its target `t`, which is answered as the alias views it; an
alias without a view views it as it is. -/
theorem alias_as_target {draft : Schema.Draft} (hbuild : draft.build = .ok env.registry)
    {level : Level} {filter : Option TypeFilter} {q : Query} {s₀ s : Sql.Scope}
    (hopened : openLevel env level filter q s₀ = .ok (o, s))
    (halias : o.mapping.fields.get? a = some m) (hsource : m.source = .aliasOf t view)
    (hlists : env.registry.lists o.level.typeName t = true)
    (hlists' : env.registry.lists o.level.typeName a = true)
    {before after : List Selection} (below : Option (List Selection))
    (hothers : ∀ field ∈ before ++ after, field.name ≠ t ∧ field.name ≠ a) :
    ∃ target, o.mapping.fields.get? t = some target ∧
      (target.relation? = none → view = none) ∧
      (view = none → entriesAnswered env o before t (viewed t target view) below after =
        entries env o o.progress 0 (before ++ selected t below :: after)) ∧
      SameButFor o.level.typeName t a
        (fun r r' => r.2 = r'.2 ∧ ∃ start u e e',
          entries env o o.progress 0 before s = .ok (start, u) ∧
          AsTarget env o start t a target m view e e' r.1 r'.1)
        (entriesAnswered env o before t (viewed t target view) below after s)
        (entries env o o.progress 0 (before ++ selected a below :: after) s) := by
  obtain ⟨-, mapping, q₁, s₁, q₂, hmapping, -, -, rfl⟩ := openLevel_ok hopened
  obtain ⟨target, htarget, hunaliased, hview⟩ :=
    Schema.Draft.alias_target hbuild hmapping halias hsource
  have ht := Schema.Registry.resolve_mapped hmapping htarget hunaliased hlists
  have ha := Schema.Registry.resolve_alias hmapping halias hsource htarget hlists'
  refine ⟨target, htarget, hview, ?_, ?_⟩
  · rintro rfl
    exact (entries_selected before after ht).symm
  · rw [entries_selected before after ha]
    refine SameButFor.after fun start u hstart => ?_
    refine (answeredEntry_alias hunaliased ht ha).bind ?_
    rintro ⟨p, v⟩ ⟨p', v'⟩ ⟨hv, e, e', hentry, hlength, hexchanged⟩
    have hnever : ∀ typeName name resolved, env.registry.resolve typeName name = .ok resolved →
        resolved.Unaliased := fun _ _ _ hr => Schema.Draft.resolve_unaliased hbuild hr
    have hafter : ∀ field ∈ after, field.name ≠ t ∧ field.name ≠ a :=
      fun field hf => hothers field (List.mem_append_right _ hf)
    refine (entries_exchanged hnever hlength hafter hexchanged v v' fun _ => hv).mono ?_
    rintro r r' ⟨hr, hscope⟩
    refine ⟨hscope trivial, start, u, e, e', hstart, hentry, hr, ?_, ?_⟩
    · refine shown_of_exchanged rfl hstart (fun field hf => ?_) ?_
      · exact (hothers field (List.mem_append_left _ hf)).1
      · obtain ⟨rest, hselect, -⟩ := hr.select
        exact ⟨rest, hselect⟩
    · refine shown_of_exchanged rfl hstart (fun field hf => ?_) ?_
      · exact (hothers field (List.mem_append_left _ hf)).2
      · obtain ⟨rest, -, hselect⟩ := hr.select
        exact ⟨rest, hselect⟩

end

namespace Receipt

/-- When a post was seen is when it was read. -/
def seenAt : FieldMapping := { source := .aliasOf "readAt" none }

/-- Posts with a filter or without one. -/
def post (filter : Option TypeFilter) : Schema.TypeMapping :=
  { filter, fields := [("readAt", .plain), ("seenAt", seenAt)] }

/-- When a post was read is on its receipt. -/
def receipt : TypeFilter :=
  .script [.leftJoin "Receipt" "r" "r.postId = \x7balias\x7d.id", .addSelectAs "r.readAt" "readAt"]

def draft (filter : Option TypeFilter) : Schema.Draft := { types := [("Post", post filter)] }

def environment (filter : Option TypeFilter) : Environment :=
  { registry := ⟨[("Post", post filter)], none⟩, settings := {}, caller := {} }

def level : Level :=
  { typeName := "Post"
    tableAlias := "post_1"
    depth := 1
    nested := false
    extraRequired := []
    origin := [] }

/-- The level of the posts, where they have no filter. -/
def opened : Opened := ⟨level, post none, {}, ⟨[], [], [], []⟩⟩

/-- The expression that a field is selected by, if it is compiled on its own. -/
def expression? (filter : Option TypeFilter) (field : String) : Option String :=
  (compileLevel (environment filter) level none ({} : Query) [.scalar field] {}).toOption.bind
    fun r => r.1.2.1.lookup field

theorem build_draft (filter : Option TypeFilter) :
    (draft filter).build = .ok (environment filter).registry := by
  refine Schema.Draft.build_of_checked ?_
  rintro entry htype field hfield
  cases List.mem_singleton.1 htype
  rcases List.mem_cons.1 hfield with rfl | h
  · rfl
  · rw [List.mem_singleton.1 h]
    rfl

end Receipt

/-- The alias of a column is the column, as its target is. -/
theorem alias_as_target_seenAt :
    (∃ p p' start e e',
      entries (Receipt.environment none) Receipt.opened Receipt.opened.progress 0
        [.scalar "readAt"] {} = .ok p ∧
      entries (Receipt.environment none) Receipt.opened Receipt.opened.progress 0
        [.scalar "seenAt"] {} = .ok p' ∧
      AsTarget (Receipt.environment none) Receipt.opened start "readAt" "seenAt" .plain
        Receipt.seenAt none e e' p.1 p'.1) ∧
    Receipt.expression? none "readAt" = some "post_1.\"readAt\"" ∧
      Receipt.expression? none "seenAt" = some "post_1.\"readAt\"" := by
  refine ⟨?_, by decide +kernel, by decide +kernel⟩
  have hopened : openLevel (Receipt.environment none) Receipt.level none {} {} =
      .ok (Receipt.opened, {}) := rfl
  have hothers : ∀ field ∈ ([] : List Selection) ++ [],
      field.name ≠ "readAt" ∧ field.name ≠ "seenAt" :=
    fun field hf => absurd hf List.not_mem_nil
  obtain ⟨target, htarget, -, hviewed, hsame⟩ :=
    alias_as_target (Receipt.build_draft none) hopened (a := "seenAt") rfl rfl rfl rfl none hothers
  cases htarget
  have ht : ∃ p, entries (Receipt.environment none) Receipt.opened Receipt.opened.progress 0
      [.scalar "readAt"] {} = .ok p := ⟨_, rfl⟩
  obtain ⟨p, hp⟩ := ht
  have ha : ∃ p, entries (Receipt.environment none) Receipt.opened Receipt.opened.progress 0
      [.scalar "seenAt"] {} = .ok p := ⟨_, rfl⟩
  obtain ⟨p', hp'⟩ := ha
  rw [hviewed rfl] at hsame
  change SameButFor _ _ _ _ (entries _ _ _ _ [.scalar "readAt"] _)
    (entries _ _ _ _ [.scalar "seenAt"] _) at hsame
  rw [hp, hp'] at hsame
  cases hsame with
  | ok h =>
    obtain ⟨-, start, u, e, e', -, h⟩ := h
    exact ⟨p, p', start, e, e', hp, hp', h⟩

/-- The alias of a column is not what a filter adds under the name of the column. -/
theorem alias_not_labelled :
    (Receipt.draft (some Receipt.receipt)).build =
        .ok (Receipt.environment (some Receipt.receipt)).registry ∧
      Receipt.expression? (some Receipt.receipt) "readAt" = some "r.readAt" ∧
      Receipt.expression? (some Receipt.receipt) "seenAt" = some "post_1.\"readAt\"" :=
  ⟨Receipt.build_draft _, by decide +kernel, by decide +kernel⟩

end Plan

end ObjectGraph
