import ObjectGraph.Proofs.Resolution.Repeats
import ObjectGraph.Proofs.Resolution.VeiledRounds
import ObjectGraph.Proofs.Schema.Built
import ObjectGraph.Proofs.Transform.Redaction

/-! # Values that are withheld from anonymous callers

A veil hides labels at places of a request from an anonymous caller (`Withheld`): scalar fields that
are no documents and whose transforms begin with `nullIfNotLoggedIn`, as long as no key of a list
and no cursor is read from them.  Two storages may answer with rows that differ behind the veil
(`VeiledStorage`).  A node is finished with the same output for both (`finishNode_veiled`): what is
hidden is redacted before anything is made of it, and no built-in transform of another field tells
an anonymous caller anything of its siblings (`Builtin.apply_anonymous`). -/

namespace ObjectGraph

/-! ### Cursors -/

namespace Paging

/-- The cursor of an object is the same whatever its values under some labels are. -/
def Ignores (p : Paging) (hidden : String → Prop) : Prop :=
  ∀ o o', Graph.AgreeBut hidden o o' → p.cursor o = p.cursor o'

/-- The cursor of an object is read from the cursor columns alone. -/
def ReadsColumns (p : Paging) : Prop :=
  ∀ o o' : Object, (∀ column ∈ p.cursorColumns, o.get? column = o'.get? column) →
    p.cursor o = p.cursor o'

theorem ReadsColumns.ignores {p : Paging} {hidden : String → Prop} (h : p.ReadsColumns)
    (hcolumns : ∀ column ∈ p.cursorColumns, ¬hidden column) : p.Ignores hidden :=
  fun _ _ hagree => h _ _ fun column hc => hagree column (hcolumns column hc)

theorem readsColumns_withTimeCursor (p : Paging) (column : String) :
    (p.withTimeCursor column).ReadsColumns := by
  intro o o' h
  change Cursor.byTime column o = Cursor.byTime column o'
  unfold Cursor.byTime
  rw [h column (List.mem_singleton_self _)]

theorem readsColumns_ofLimit (limit : Nat) : (Paging.ofLimit limit).ReadsColumns :=
  readsColumns_withTimeCursor (Paging.ofLimit limit) "createdAt"

end Paging

/-! ### Transforms for an anonymous caller -/

/-- An anonymous caller owns nothing, so no built-in transform shows it anything of the object. -/
theorem Builtin.apply_anonymous {caller : Caller} (h : caller.user = none) (b : Builtin)
    (value : Json) (parent parent' : Object) :
    b.apply value caller parent = b.apply value caller parent' := by
  have howner : ∀ (object : Object) (column : String), caller.isOwner object column = false := by
    intro object column
    unfold Caller.isOwner
    rw [h]
  cases b with
  | nullIfNotSameUser column => simp only [Builtin.apply, Builtin.applyPure?, howner]
  | _ => rfl

theorem Builtin.applyAll_anonymous {caller : Caller} (h : caller.user = none) (bs : List Builtin)
    (value : Json) (parent parent' : Object) :
    Builtin.applyAll caller parent bs value = Builtin.applyAll caller parent' bs value := by
  induction bs generalizing value with
  | nil => rfl
  | cons b bs ih =>
    rw [Builtin.applyAll, Builtin.applyAll, Builtin.apply_anonymous h b value parent parent']
    exact bind_congr ih

namespace Schema

/-- All transforms of a registry are built in. -/
def Registry.BuiltIn (r : Registry) : Prop :=
  ∀ typeName mapping field m, r.types.get? typeName = some mapping →
    mapping.fields.get? field = some m → ∃ bs, Transform.chain? m.transform = some bs

theorem Registry.BuiltIn.resolve {r : Registry} (h : r.BuiltIn) {typeName field : String}
    {resolved : Resolved} (hr : r.resolve typeName field = .ok resolved) :
    ∃ bs, Transform.chain? resolved.transform? = some bs := by
  obtain ⟨mapping, hl, hanswer⟩ := Registry.resolve_ok hr
  have ht := Registry.lookup_ok.1 hl
  cases hanswer with
  | unmapped _ => exact ⟨[], rfl⟩
  | mapped hf _ =>
    obtain ⟨bs, hbs⟩ := h _ _ _ _ ht hf
    exact ⟨bs ++ [], Transform.chain?_resolved hbs rfl⟩
  | aliased hf _ htarget =>
    obtain ⟨bs, hbs⟩ := h _ _ _ _ ht hf
    obtain ⟨cs, hcs⟩ := h _ _ _ _ ht htarget
    exact ⟨cs ++ bs, Transform.chain?_resolved hcs hbs⟩

end Schema

namespace Resolution

open ObjectGraph.Graph (AgreeBut Node NodeId Veil VeiledRow)
open Outcome (Same)
open Plan (Environment Compiled FieldPlan NodePlan Occurs PlannedFor)
open Session (InStep)

variable {env : Environment} {root : NodePlan} {veil : Veil} {storage storage' : Storage}

/-! ### What is behind a veil -/

/-- The values behind a veil are redacted for an anonymous caller, and nothing else is read from
them. -/
structure Withheld (env : Environment) (root : NodePlan) (veil : Veil) : Prop where
  /-- A veiled label is that of a scalar field that is no document; its chain of transforms begins
  with the redactor. -/
  redacted : ∀ round plan label, Occurs env root round plan → veil plan.origin label →
    ∃ resolved t rest, env.registry.resolve plan.typeName label = .ok resolved ∧
      resolved.relation? = none ∧ resolved.json = false ∧ resolved.transform? = some t ∧
      t.builtins? = some (.nullIfNotLoggedIn :: rest)
  keys : KeysUnveiled env root veil
  cursors : ∀ m paging, Plan.Listed env root m → m.paging = some paging →
    paging.Ignores (veil m.origin)

/-- Two storages answer the statements of a request with rows that differ only behind a veil. -/
structure VeiledStorage (env : Environment) (top : Compiled) (veil : Veil)
    (storage storage' : Storage) : Prop where
  rows : ∀ log, Same (List.Forall₂ (VeiledRow veil top.plan))
    (storage.answer log top.statement) (storage'.answer log top.statement)
  lists : ListsVeiled env top.plan veil storage storage'
  lookups : ∀ log table column value, storage.answer log (lookupStatement table column value) =
    storage'.answer log (lookupStatement table column value)

/-- What a level tells of a value that is hidden: nothing, as its fields are planned. -/
structure Discreet (hidden : String → Prop) (plan : NodePlan) : Prop where
  redacted : ∀ field ∈ plan.fields, hidden field.name → field.json = false ∧
    ∃ t rest, field.transform = some t ∧ t.builtins? = some (.nullIfNotLoggedIn :: rest)
  builtins : ∀ field ∈ plan.fields, ∀ t, field.transform = some t → ∃ bs, t.builtins? = some bs

/-- A field is planned as the registry resolves its name. -/
theorem PlannedFor.resolved {selections : List Selection} {plan : NodePlan}
    (h : PlannedFor env selections plan) {field : FieldPlan NodePlan} (hf : field ∈ plan.fields) :
    ∃ resolved, env.registry.resolve plan.typeName field.name = .ok resolved ∧
      (resolved.relation? = none → field.json = resolved.json) ∧
      field.transform = resolved.transform? := by
  obtain ⟨mapping, depth, hp⟩ := h
  obtain ⟨i, hi⟩ := List.getElem?_of_mem hf
  obtain ⟨selection, -, hfield⟩ := hp.field_at hi
  cases hfield with
  | value hr _ => exact ⟨_, hr, fun _ => rfl, rfl⟩
  | many hr hn _ _ =>
    refine ⟨_, hr, fun hnone => ?_, rfl⟩
    cases hn.symm.trans hnone
  | single hr hn _ _ _ =>
    refine ⟨_, hr, fun hnone => ?_, rfl⟩
    cases hn.symm.trans hnone

theorem Withheld.discreet {selections : List Selection} (h : Withheld env root veil)
    (hroot : PlannedFor env selections root) (hbuiltin : env.registry.BuiltIn) {round : Nat}
    {plan : NodePlan} (ho : Occurs env root round plan) : Discreet (veil plan.origin) plan := by
  obtain ⟨below, hplan, -⟩ := ho.plannedFor hroot
  constructor
  · intro field hf hhidden
    obtain ⟨resolved, t, rest, hr, hn, hjson, ht, hchain⟩ := h.redacted round plan _ ho hhidden
    obtain ⟨resolved', hr', hjson', ht'⟩ := PlannedFor.resolved hplan hf
    cases hr.symm.trans hr'
    exact ⟨(hjson' hn).trans hjson, t, rest, ht'.trans ht, hchain⟩
  · intro field hf t ht
    obtain ⟨resolved, hr, -, ht'⟩ := PlannedFor.resolved hplan hf
    obtain ⟨bs, hbs⟩ := hbuiltin.resolve hr
    rw [← ht', ht] at hbs
    exact ⟨bs, hbs⟩

/-! ### Values put in turn -/

/-- Values that are the same on both sides are put into two objects: where a value is sure to be put
the objects agree afterwards, and elsewhere if they agreed before. -/
theorem putEach_inStep {α : Type} {name : α → String}
    {value value' : α → Session Fault (Option Json)} (sure : α → Prop) {xs : List α}
    {o o' : Object}
    (hvalue : ∀ x ∈ xs, InStep storage storage' (fun v v' => v = v' ∧ (sure x → v ≠ none))
      (value x) (value' x)) :
    InStep storage storage' (fun r r' => ∀ label,
        (o.get? label = o'.get? label ∨ ∃ x ∈ xs, name x = label ∧ sure x) →
        r.get? label = r'.get? label)
      (putEach name value xs o) (putEach name value' xs o') := by
  induction xs generalizing o o' with
  | nil =>
    refine InStep.pure fun label h => h.resolve_right ?_
    rintro ⟨x, hx, -⟩
    exact absurd hx List.not_mem_nil
  | cons x xs ih =>
    have hrest := fun (o o' : Object) =>
      @ih o o' fun x hx => hvalue x (List.mem_cons_of_mem _ hx)
    rw [putEach, putEach]
    refine (hvalue x List.mem_cons_self).bind ?_
    rintro v _ ⟨rfl, hsure⟩
    cases v with
    | none =>
      refine (hrest o o').mono fun r r' hr label h => hr label ?_
      rcases h with h | ⟨y, hy, hname, hs⟩
      · exact .inl h
      · rcases List.mem_cons.1 hy with rfl | hy
        · exact absurd rfl (hsure hs)
        · exact .inr ⟨y, hy, hname, hs⟩
    | some v =>
      refine (hrest (o.insert (name x) v) (o'.insert (name x) v)).mono
        fun r r' hr label h => hr label ?_
      rw [Dictionary.get?_insert, Dictionary.get?_insert]
      by_cases hl : label = name x
      · rw [if_pos hl, if_pos hl]
        exact .inl rfl
      · rw [if_neg hl, if_neg hl]
        rcases h with h | ⟨y, hy, hname, hs⟩
        · exact .inl h
        · rcases List.mem_cons.1 hy with rfl | hy
          · exact absurd hname.symm hl
          · exact .inr ⟨y, hy, hname, hs⟩

/-- Documents are parsed alike, as none of them is hidden. -/
theorem withParsed_veiled {hidden : String → Prop} (typeName : String)
    {fields : List (FieldPlan NodePlan)}
    (hfields : ∀ field ∈ fields, hidden field.name → field.json = false) {o o' : Object}
    (h : AgreeBut hidden o o') :
    Same (AgreeBut hidden) (Graph.withParsed typeName fields o)
      (Graph.withParsed typeName fields o') := by
  induction fields generalizing o o' with
  | nil => exact .ok h
  | cons field fields ih =>
    have hrest := fun {o o' : Object} (h : AgreeBut hidden o o') =>
      ih (fun f hf => hfields f (List.mem_cons_of_mem _ hf)) h
    unfold Graph.withParsed
    cases hjson : field.json with
    | false => exact hrest h
    | true =>
      have hvisible : ¬hidden field.name := by
        intro hh
        rw [hfields field List.mem_cons_self hh] at hjson
        cases hjson
      rw [h field.name hvisible]
      simp only [if_true]
      split
      · split
        · exact hrest (h.insert _ _)
        · exact .error _
      · exact hrest h

section

variable (hlookup : ∀ log table column value,
  storage.answer log (lookupStatement table column value) =
    storage'.answer log (lookupStatement table column value))

include hlookup

theorem builtin_inStep (b : Builtin) (value : Json) (caller : Caller) (parent : Object) :
    InStep storage storage' Eq (b.apply value caller parent) (b.apply value caller parent) := by
  have hfetch : ∀ table column, InStep storage storage' Eq
      (Session.findOneBy table column value) (Session.findOneBy table column value) := by
    intro table column
    refine (InStep.fetch fun log => ?_).bind_eq fun _ => InStep.pure rfl
    rw [hlookup]
    exact .refl _
  unfold Builtin.apply
  split
  · unfold Builtin.lookUp
    split
    · exact InStep.pure rfl
    · exact (hfetch _ _).mapError.bind_eq fun _ => InStep.pure rfl
  · split
    · exact InStep.ofExcept (.refl _)
    · exact InStep.pure rfl

theorem applyAll_inStep (bs : List Builtin) (value : Json) (caller : Caller) (parent : Object) :
    InStep storage storage' Eq (Builtin.applyAll caller parent bs value)
      (Builtin.applyAll caller parent bs value) := by
  induction bs generalizing value with
  | nil => exact InStep.pure rfl
  | cons b bs ih => exact (builtin_inStep hlookup b value caller parent).bind_eq ih

/-- The transformed value of a field is the same for objects that differ in hidden values alone. -/
theorem transformedField_veiled {caller : Caller} (hcaller : caller.user = none)
    {hidden : String → Prop} {plan : NodePlan} (hplan : Discreet hidden plan)
    {field : FieldPlan NodePlan} (hf : field ∈ plan.fields) {o o' : Object}
    (h : AgreeBut hidden o o') :
    InStep storage storage' (fun v v' => v = v' ∧ (field.transform ≠ none → v ≠ none))
      (transformedField caller plan.typeName o field)
      (transformedField caller plan.typeName o' field) := by
  unfold transformedField
  cases ht : field.transform with
  | none => exact InStep.pure ⟨rfl, fun hne => absurd rfl hne⟩
  | some t =>
    have hvalue : InStep storage storage' Eq
        (t.apply ((o.get? field.name).getD .null) caller o)
        (t.apply ((o'.get? field.name).getD .null) caller o') := by
      by_cases hhidden : hidden field.name
      · obtain ⟨-, t', rest, ht', hchain⟩ := hplan.redacted field hf hhidden
        cases ht.symm.trans ht'
        have hchain : t.builtins? = some ([] ++ Builtin.nullIfNotLoggedIn :: rest) := hchain
        have hwithheld : ∀ object : Object,
            Builtin.nullIfNotLoggedIn.Withholds caller object := by
          intro object
          change caller.user.isSome = false
          rw [hcaller]
          rfl
        rw [Transform.apply_withheld hchain (hwithheld o),
          Transform.apply_withheld hchain (hwithheld o'),
          Builtin.applyAll_anonymous hcaller rest .null o' o]
        exact applyAll_inStep hlookup rest .null caller o
      · obtain ⟨bs, hchain⟩ := hplan.builtins field hf t ht
        rw [h field.name hhidden, Transform.apply_eq_applyAll hchain,
          Transform.apply_eq_applyAll hchain,
          Builtin.applyAll_anonymous hcaller bs _ o' o]
        exact applyAll_inStep hlookup bs _ caller o
    refine hvalue.mapError.bind_eq fun v => InStep.pure ⟨rfl, fun _ => nofun⟩

/-- Nodes that differ in hidden values alone are finished with the same output. -/
theorem finishNode_veiled {caller : Caller} (hcaller : caller.user = none)
    {hidden : String → Prop} {node node' : Node} (hplan : Discreet hidden node.plan)
    (heq : node.plan = node'.plan) (hlinks : node.links = node'.links)
    (hrow : AgreeBut hidden node.row node'.row) {finish finish' : NodeId → Session Fault Finished}
    (hrelated : ∀ entry ∈ node.plan.fields.zip node.links, InStep storage storage' Eq
      (Graph.linkValue finish node.plan entry.1 entry.2)
      (Graph.linkValue finish' node.plan entry.1 entry.2)) :
    InStep storage storage'
      (fun x x' => x.output = x'.output ∧ x.row = node.row ∧ x'.row = node'.row)
      (node.finish caller finish) (node'.finish caller finish') := by
  rw [finish_eq, finish_eq, ← heq, ← hlinks]
  refine (putEach_inStep (fun _ => False) fun entry he =>
    (hrelated entry he).mono fun v v' hv => ⟨hv, fun hf => hf.elim⟩).bind ?_
  intro full full' hfull
  have hfull : AgreeBut hidden full full' := fun label hl => hfull label (.inl (hrow label hl))
  refine (InStep.ofExcept (withParsed_veiled node.plan.typeName
    (fun field hf hh => (hplan.redacted field hf hh).1) hfull)).bind ?_
  intro parsed parsed' hparsed
  refine (putEach_inStep (fun field => field.transform ≠ none) fun field hf =>
    transformedField_veiled hlookup hcaller hplan hf hparsed).bind ?_
  intro last last' hlast
  refine InStep.pure ⟨?_, rfl, rfl⟩
  unfold Graph.output
  refine congrArg Dictionary.ofList (List.map_congr_left fun field hf => ?_)
  rw [hlast field.name]
  by_cases hhidden : hidden field.name
  · obtain ⟨-, t, -, ht, -⟩ := hplan.redacted field hf hhidden
    exact .inr ⟨field, hf, rfl, by rw [ht]; exact nofun⟩
  · exact .inl (hparsed field.name hhidden)

end

end Resolution

end ObjectGraph
