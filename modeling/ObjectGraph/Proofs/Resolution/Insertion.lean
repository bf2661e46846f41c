import ObjectGraph.Proofs.Resolution.Ledger

/-! # Adding rows keeps the ledger

A row of a place of the request is added with the related objects that are packed into it
(`insert_runs`), the rows of a follow-up one after another (`addChildren_runs`).  Adding fails only
where some object cannot be unpacked, so not where the objects are known to be `Sufficient`. -/

namespace ObjectGraph

namespace Resolution

open ObjectGraph.Graph (Group Link Node NodeId Runs pushed_node)
open Plan (Environment Compiled NodePlan ManyPlan FieldPlan PlannedFor Occurs)

variable {env : Environment} {world : World} {C : Closing} {root : NodePlan}
  {Q : NodePlan → Row → Prop} {selections : List Selection} {round : Nat} {todo : List Group}
  {g : Graph} {sources : List Row}

/-- The graph has grown, and its ledger with it. -/
def Grown (env : Environment) (C : Closing) (root : NodePlan) (Q : NodePlan → Row → Prop)
    (round : Nat) (todo : List Group) (g : Graph) (sources : List Row) (g' : Graph)
    (sources' : List Row) : Prop :=
  Ledger env C root Q round todo g' sources' ∧ Extends g sources g' sources'

/-- The links of the first fields of a new node. -/
def NewLinks (graph : Graph) (sources : List Row) (typeName : String)
    (fields : List (FieldPlan NodePlan)) (row : Row) (links : List Link) : Prop :=
  ∀ (i : Nat) (field : FieldPlan NodePlan), fields[i]? = some field →
    ∃ link packed, links[i]? = some link ∧ (unpack typeName fields row).2[i]? = some packed ∧
      Linked graph sources field packed link ∧ ∀ j, field.kind = .many j → link = .pending

/-- What the related objects that are packed into a row have to be. -/
def PackedFields (env : Environment) (root : NodePlan) (Q : NodePlan → Row → Prop) (round : Nat)
    (typeName : String) (fields : List (FieldPlan NodePlan)) (row : Row) : Prop :=
  ∀ (i : Nat) (field : FieldPlan NodePlan) (child : NodePlan), fields[i]? = some field →
    field.kind = .single child → Occurs env root round child ∧
      (∀ related, (unpack typeName fields row).2[i]? = some (some (some related)) →
        Q child related) ∧
      ((unpack typeName fields row).2[i]? = some none → ¬Sufficient env Q)

theorem NewLinks.cons {g' : Graph} {sources' : List Row} {typeName : String}
    {field : FieldPlan NodePlan} {fields : List (FieldPlan NodePlan)} {row row' : Row}
    {packed : Option (Option Row)} {link : Link} {links : List Link}
    (hunpack : unpack typeName (field :: fields) row =
      ((unpack typeName fields row').1, packed :: (unpack typeName fields row').2))
    (hlink : Linked g' sources' field packed link)
    (hpending : ∀ j, field.kind = .many j → link = .pending)
    (h : NewLinks g' sources' typeName fields row' links) :
    NewLinks g' sources' typeName (field :: fields) row (link :: links) := by
  intro i field' hf
  rw [hunpack]
  cases i with
  | zero =>
    cases hf
    exact ⟨link, packed, rfl, rfl, hlink, hpending⟩
  | succ i => exact h i field' hf

theorem PackedFields.tail {typeName : String} {field : FieldPlan NodePlan}
    {fields : List (FieldPlan NodePlan)} {row row' : Row} {packed : Option (Option Row)}
    (hunpack : unpack typeName (field :: fields) row =
      ((unpack typeName fields row').1, packed :: (unpack typeName fields row').2))
    (h : PackedFields env root Q round typeName (field :: fields) row) :
    PackedFields env root Q round typeName fields row' := by
  intro i field' child hf hk
  have := h (i + 1) field' child hf hk
  rw [hunpack] at this
  exact this

/-- What is packed for a relation to a single object is added, if its node can be. -/
theorem insertSingle_runs {typeName name : String} {child : NodePlan} {row : Row} {json : Bool}
    {transform : Option Transform} (h : Ledger env C root Q round todo g sources)
    (hfault : ∀ e, Graph.relatedObject typeName name ((row.get? name).getD .null) = .error e →
      ¬Sufficient env Q)
    (hinsert : ∀ related,
      Graph.relatedObject typeName name ((row.get? name).getD .null) = .ok (some related) →
        Runs (Graph.insert child related) g (fun id g' => ∃ sources',
          Grown env C root Q round todo g sources g' sources' ∧ Holds g' sources' id child related)
          (fun e => ¬Sufficient env Q ∧ ¬e.IsGap)) :
    Runs (Graph.insertField typeName ⟨name, .single child, json, transform⟩ row) g
      (fun p g₁ => ∃ sources₁ packed, Grown env C root Q round todo g sources g₁ sources₁ ∧
        (Graph.relatedObject typeName name ((row.get? name).getD .null)).toOption = packed ∧
        p.1 = row.erase name ∧
        Linked g₁ sources₁ ⟨name, .single child, json, transform⟩ packed p.2)
      (fun e => ¬Sufficient env Q ∧ ¬e.IsGap) := by
  have hrelated : Runs (liftM (Graph.relatedObject typeName name ((row.get? name).getD .null))) g
      (fun related g₁ => g₁ = g ∧
        Graph.relatedObject typeName name ((row.get? name).getD .null) = .ok related)
      (fun e => ¬Sufficient env Q ∧ ¬e.IsGap) :=
    Runs.lift (fun related hr => ⟨rfl, hr⟩)
      fun e he => ⟨hfault e he, Graph.not_isGap_relatedObject he⟩
  rw [Graph.insertField, Graph.insertKind]
  refine hrelated.bind ?_
  rintro (_ | related) _ ⟨rfl, hr⟩
  · exact Runs.pure ⟨sources, some none, ⟨h, Extends.refl⟩, by rw [hr]; rfl, rfl,
      .inl ⟨rfl, rfl⟩⟩
  · refine (hinsert related hr).bind ?_
    rintro id g₁ ⟨sources₁, hg, hh⟩
    exact Runs.pure ⟨sources₁, some (some related), hg, by rw [hr]; rfl, rfl,
      .inr ⟨related, id, rfl, rfl, hh⟩⟩

mutual

/-- Adding the node of a row. -/
theorem insert_runs (hroot : PlannedFor env selections root) (horigin : root.origin = [])
    (hinherited : Inherited env world Q) {g : Graph} {sources : List Row} :
    (plan : NodePlan) → {source : Row} → Ledger env C root Q round todo g sources →
    Occurs env root round plan → Q plan source →
    Runs (Graph.insert plan source) g (fun id g' => ∃ sources',
      Grown env C root Q round todo g sources g' sources' ∧ Holds g' sources' id plan source)
      (fun e => ¬Sufficient env Q ∧ ¬e.IsGap)
  | ⟨origin, typeName, fields, many⟩, source, h, hoccurs, hq => by
    rw [Graph.insert]
    have hpacked : PackedFields env root Q round typeName fields source := by
      intro i field child hf hk
      refine ⟨.single hoccurs hf hk, ?_, ?_⟩
      · intro related hr
        exact hinherited.single hq hf hk hr
      · intro hr hs
        exact hs.single hq hf hk hr
    refine (insertFields_runs hroot horigin hinherited fields h hpacked).bind ?_
    rintro ⟨row, links⟩ g₁ ⟨sources₁, ⟨h₁, he₁⟩, hrow, hlinks⟩
    have hplaced : Placed env root Q round g₁ sources₁
        ⟨⟨origin, typeName, fields, many⟩, row, links⟩ source := by
      refine ⟨⟨round, Nat.le_refl _, hoccurs⟩, hq, hrow, ?_⟩
      intro i field hf
      obtain ⟨link, packed, hl, hp, hlinked, -⟩ := hlinks i field hf
      exact ⟨link, packed, hl, hp, hlinked⟩
    have hledger := h₁.push hroot horigin hplaced hoccurs (by
      rintro id i j link ⟨hn, ⟨field, hf, hk⟩, hl⟩ hid
      rw [pushed_node, if_pos hid] at hn
      cases hn
      obtain ⟨link', _, hl', -, -, hpending⟩ := hlinks i field hf
      rw [hl] at hl'
      cases hl'
      exact hpending j hk)
    refine ⟨_, ⟨hledger, he₁.trans extends_pushed⟩, ⟨⟨⟨_, row, links⟩, ?_, rfl⟩, ?_⟩⟩
    · exact pushed_node.trans (if_pos rfl)
    · rw [getElem?_snoc, if_pos h₁.sized.symm]

/-- Adding what is packed into a row. -/
theorem insertFields_runs (hroot : PlannedFor env selections root) (horigin : root.origin = [])
    (hinherited : Inherited env world Q) {g : Graph} {sources : List Row} {typeName : String} :
    (fields : List (FieldPlan NodePlan)) → {row : Row} →
    Ledger env C root Q round todo g sources →
    PackedFields env root Q round typeName fields row →
    Runs (Graph.insertFields typeName fields row) g (fun p g' => ∃ sources',
      Grown env C root Q round todo g sources g' sources' ∧
        p.1 = (unpack typeName fields row).1 ∧ NewLinks g' sources' typeName fields row p.2)
      (fun e => ¬Sufficient env Q ∧ ¬e.IsGap)
  | [], row, h, _ => by
    rw [Graph.insertFields]
    refine Runs.pure ⟨sources, ⟨h, Extends.refl⟩, rfl, ?_⟩
    intro i field hf
    simp at hf
  | ⟨name, .value, json, transform⟩ :: fields, row, h, hpacked => by
    rw [Graph.insertFields, Graph.insertField, Graph.insertKind]
    refine (insertFields_runs hroot horigin hinherited fields h (hpacked.tail rfl)).bind ?_
    rintro ⟨row', links⟩ g' ⟨sources', hg, hrow, hlinks⟩
    exact Runs.pure ⟨sources', hg, hrow, hlinks.cons rfl rfl (fun _ hk => nomatch hk)⟩
  | ⟨name, .many j, json, transform⟩ :: fields, row, h, hpacked => by
    rw [Graph.insertFields, Graph.insertField, Graph.insertKind]
    refine (insertFields_runs hroot horigin hinherited fields h (hpacked.tail rfl)).bind ?_
    rintro ⟨row', links⟩ g' ⟨sources', hg, hrow, hlinks⟩
    exact Runs.pure ⟨sources', hg, hrow, hlinks.cons rfl trivial (fun _ _ => rfl)⟩
  | ⟨name, .single child, json, transform⟩ :: fields, row, h, hpacked => by
    rw [Graph.insertFields]
    obtain ⟨hoccurs, hq, hfault⟩ := hpacked 0 _ child rfl rfl
    have htail : PackedFields env root Q round typeName fields (row.erase name) :=
      hpacked.tail rfl
    refine (insertSingle_runs h ?_ ?_).bind ?_
    · intro e he
      refine hfault ?_
      simp only [unpack, he]
      rfl
    · intro related hr
      have hq' : Q child related := hq related (by simp only [unpack, hr]; rfl)
      exact insert_runs hroot horigin hinherited child h hoccurs hq'
    rintro ⟨row₁, link⟩ g₁ ⟨sources₁, packed, ⟨h₁, he₁⟩, rfl, rfl, hlink⟩
    refine (insertFields_runs hroot horigin hinherited fields h₁ htail).bind ?_
    rintro ⟨row', links⟩ g' ⟨sources', ⟨h', he'⟩, hrow, hlinks⟩
    exact Runs.pure ⟨sources', ⟨h', he₁.trans he'⟩, hrow,
      hlinks.cons rfl (hlink.mono he') (fun _ hk => nomatch hk)⟩

end

/-! ### Rows one after another -/

section

variable (hroot : PlannedFor env selections root) (horigin : root.origin = [])
  (hinherited : Inherited env world Q) {plan : NodePlan} {rows : List Row}

include hroot horigin hinherited

theorem addRows_runs (h : Ledger env C root Q round todo g sources)
    (hoccurs : Occurs env root round plan) (hq : ∀ row ∈ rows, Q plan row) :
    Runs (Graph.addRows plan rows) g (fun ids g' => ∃ sources',
      Grown env C root Q round todo g sources g' sources' ∧
        List.Forall₂ (fun id row => Holds g' sources' id plan row) ids rows)
      (fun e => ¬Sufficient env Q ∧ ¬e.IsGap) := by
  induction rows generalizing g sources with
  | nil => exact Runs.pure ⟨sources, ⟨h, Extends.refl⟩, .nil⟩
  | cons row rows ih =>
    rw [Graph.addRows, List.mapM_cons]
    refine (insert_runs hroot horigin hinherited plan h hoccurs (hq row List.mem_cons_self)).bind ?_
    rintro id g₁ ⟨sources₁, ⟨h₁, he₁⟩, hid⟩
    refine (ih h₁ fun row hr => hq row (List.mem_cons_of_mem _ hr)).bind ?_
    rintro ids g' ⟨sources', ⟨h', he'⟩, hids⟩
    exact Runs.pure ⟨sources', ⟨h', he₁.trans he'⟩, .cons (hid.mono he') hids⟩

theorem addChildren_runs {m : ManyPlan} {labels : List String}
    (h : Ledger env C root Q round todo g sources) (hoccurs : Occurs env root round plan)
    (hq : ∀ row ∈ rows, Q plan row) :
    Runs (Graph.addChildren m plan labels rows) g (fun children g' => ∃ sources',
      Grown env C root Q round todo g sources g' sources' ∧
        List.Forall₂ (fun child row => Graph.rowKey? row labels = some child.1 ∧
          Holds g' sources' child.2 plan row) children rows)
      (fun e => (Sufficient env Q → ∃ row ∈ rows, Graph.rowKey? row labels = none) ∧
        ¬e.IsGap) := by
  induction rows generalizing g sources with
  | nil => exact Runs.pure ⟨sources, ⟨h, Extends.refl⟩, .nil⟩
  | cons row rows ih =>
    unfold Graph.addChildren
    cases hkey : Graph.rowKey? row labels with
    | none => exact Runs.throw ⟨fun _ => ⟨row, List.mem_cons_self, hkey⟩, id⟩
    | some key =>
      have hinsert := insert_runs hroot horigin hinherited plan h hoccurs
        (hq row List.mem_cons_self)
      refine (hinsert.mono (fun _ _ h => h) ?_).bind ?_
      · rintro e ⟨hs, hgap⟩
        exact ⟨fun hs' => absurd hs' hs, hgap⟩
      · rintro id g₁ ⟨sources₁, ⟨h₁, he₁⟩, hid⟩
        have hrest := ih h₁ fun row hr => hq row (List.mem_cons_of_mem _ hr)
        refine (hrest.mono (fun _ _ h => h) ?_).bind ?_
        · rintro e ⟨hs, hgap⟩
          refine ⟨fun hs' => ?_, hgap⟩
          obtain ⟨row', hr, hnone⟩ := hs hs'
          exact ⟨row', List.mem_cons_of_mem _ hr, hnone⟩
        · rintro children g' ⟨sources', ⟨h', he'⟩, hchildren⟩
          exact Runs.pure ⟨sources', ⟨h', he₁.trans he'⟩, .cons ⟨hkey, hid.mono he'⟩ hchildren⟩

end

end Resolution

end ObjectGraph
