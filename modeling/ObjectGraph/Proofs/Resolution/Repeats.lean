import ObjectGraph.Proofs.Graph.Mirrors
import ObjectGraph.Proofs.Lookup
import ObjectGraph.Proofs.Resolution.Finish

/-! # Finishing nodes that stand for each other

To finish a node, values are put under the names of its fields, field by field: related objects,
then transformed values, then what is shown (`putEach`).  A field that was dropped puts a value that
stands under its name already, since no field of the name comes between it and the one that it
repeats (`putEach_alike`).  So a node and its counterpart finish alike (`NodeTwin.finish_alike`). -/

namespace ObjectGraph

namespace Resolution

open ObjectGraph.Graph (Link LinkTwin Mirrors Node NodeId NodeTwin)
open Plan (Environment FieldPlan FieldTwin FieldsTwin LastOf NodePlan PlannedFor)
open Session (Alike)

/-! ### Values put in turn -/

section

variable {α β : Type} (name : α → String) (value : α → Session Fault (Option Json))

/-- Put the values of some items into an object, each under the name of its item. -/
def putEach : List α → Object → Session Fault Object
  | [], object => pure object
  | x :: xs, object => do
    match ← value x with
    | none => putEach xs object
    | some v => putEach xs (object.insert (name x) v)

/-- Items of which some are dropped.  A dropped item stands for the last one of its name among those
that are kept before it. -/
inductive Drops (name' : β → String) (S : α → β → Prop) (all : List β) :
    (taken : Nat) → List α → List β → Prop
  | nil {taken : Nat} : Drops name' S all taken [] []
  | keep {taken : Nat} {x : α} {y : β} {xs : List α} {ys : List β} :
      S x y → Drops name' S all (taken + 1) xs ys →
      Drops name' S all taken (x :: xs) (y :: ys)
  | again {taken i : Nat} {x : α} {y : β} {xs : List α} {ys : List β} :
      LastOf all taken (fun z => name' z = name x) i y → S x y → Drops name' S all taken xs ys →
      Drops name' S all taken (x :: xs) ys

/-- The values of the first so many items are in an object, the last one of each name. -/
def PutIn (storage : Storage) (all : List α) (taken : Nat) (object : Object) : Prop :=
  ∀ (i : Nat) (x : α), i < taken → all[i]? = some x →
    ∃ v, (∀ log, (value x storage log).1 = .ok v) ∧
      ((∀ (k : Nat) (z : α), i < k → k < taken → all[k]? = some z → name z ≠ name x) →
        ∀ w, v = some w → object.get? (name x) = some w)

end

section

variable {α β : Type} {name : α → String} {value : α → Session Fault (Option Json)}
  {name' : β → String} {value' : β → Session Fault (Option Json)} {storage storage' : Storage}
  {S : α → β → Prop} {all ys : List β} {xs : List α} {taken : Nat} {object : Object}

theorem putEach_map {γ : Type} (f : γ → α) (zs : List γ) (object : Object) :
    putEach name value (zs.map f) object =
      putEach (fun z => name (f z)) (fun z => value (f z)) zs object := by
  induction zs generalizing object with
  | nil => rfl
  | cons z zs ih =>
    rw [List.map_cons, putEach, putEach]
    refine bind_congr fun v => ?_
    cases v with
    | none => exact ih object
    | some v => exact ih _

theorem PutIn.zero : PutIn name' value' storage' all 0 object :=
  fun _ _ hlt => absurd hlt (Nat.not_lt_zero _)

theorem PutIn.skip (h : PutIn name' value' storage' all taken object) {y : β}
    (hy : all[taken]? = some y) (hv : ∀ log, (value' y storage' log).1 = .ok none) :
    PutIn name' value' storage' all (taken + 1) object := by
  intro i z hi hz
  rcases Nat.lt_succ_iff_lt_or_eq.1 hi with hlt | rfl
  · obtain ⟨v, hv, hlast⟩ := h i z hlt hz
    exact ⟨v, hv, fun hnone => hlast fun k x hik hk => hnone k x hik (Nat.lt_succ_of_lt hk)⟩
  · cases hy.symm.trans hz
    exact ⟨none, hv, fun _ _ hw => nomatch hw⟩

theorem PutIn.put (h : PutIn name' value' storage' all taken object) {y : β} {w : Json}
    (hy : all[taken]? = some y) (hv : ∀ log, (value' y storage' log).1 = .ok (some w)) :
    PutIn name' value' storage' all (taken + 1) (object.insert (name' y) w) := by
  intro i z hi hz
  rcases Nat.lt_succ_iff_lt_or_eq.1 hi with hlt | rfl
  · obtain ⟨v, hv, hlast⟩ := h i z hlt hz
    refine ⟨v, hv, fun hnone w' hw' => ?_⟩
    have hother := hnone taken y hlt (Nat.lt_succ_self _) hy
    rw [Dictionary.get?_insert, if_neg hother.symm]
    exact hlast (fun k x hik hk => hnone k x hik (Nat.lt_succ_of_lt hk)) w' hw'
  · cases hy.symm.trans hz
    refine ⟨some w, hv, fun _ w' hw' => ?_⟩
    cases hw'
    rw [Dictionary.get?_insert, if_pos rfl]

/-- Dropped items change nothing. -/
theorem putEach_alike (h : Drops name name' S all taken xs ys) (hall : all.drop taken = ys)
    (hS : ∀ x ∈ xs, ∀ y ∈ all, S x y →
      name x = name' y ∧ Alike storage storage' Eq (value x) (value' y))
    (hput : PutIn name' value' storage' all taken object) :
    Alike storage storage' Eq (putEach name value xs object) (putEach name' value' ys object) := by
  induction h generalizing object with
  | nil => exact Alike.pure rfl
  | @keep taken x y xs ys hxy _ ih =>
    obtain ⟨hy, hall⟩ := Plan.drop_cons hall
    obtain ⟨hname, halike⟩ := hS x List.mem_cons_self y (List.mem_of_getElem? hy) hxy
    have hrest := fun (object : Object)
        (hput : PutIn name' value' storage' all (taken + 1) object) =>
      ih hall (fun x hx => hS x (List.mem_cons_of_mem _ hx)) hput
    unfold putEach
    refine halike.settled.bind ?_
    rintro v _ ⟨rfl, hv⟩
    cases v with
    | none => exact hrest _ (hput.skip hy hv)
    | some w =>
      simp only [hname]
      exact hrest _ (hput.put hy hv)
  | @again taken i x y xs ys hlast hxy _ ih =>
    obtain ⟨hname, halike⟩ := hS x List.mem_cons_self y (List.mem_of_getElem? hlast.at_i) hxy
    have hrest := ih hall (fun x hx => hS x (List.mem_cons_of_mem _ hx)) hput
    obtain ⟨v, hv, hin⟩ := hput i y hlast.lt hlast.at_i
    have hx : ∀ log, (value x storage log).1 = .ok v := fun log => (halike log []).eq.trans (hv [])
    rw [putEach]
    refine Alike.bind_left hx ?_
    cases v with
    | none => exact hrest
    | some w =>
      -- the value stands there already
      have hstands : object.get? (name x) = some w := by
        rw [hname]
        exact hin (fun k z hik hk hz => hname ▸ hlast.last k z hik hk hz) w rfl
      simp only [Dictionary.insert_self hstands]
      exact hrest

end

/-! ### The steps of finishing a node -/

section

variable {finish : NodeId → Session Fault Finished} {plan : NodePlan} {caller : Caller}
  {typeName : String}

/-- The transformed value of a field. -/
def transformedField (caller : Caller) (typeName : String) (object : Object)
    (field : FieldPlan NodePlan) : Session Fault (Option Json) :=
  match field.transform with
  | none => pure none
  | some transform => do
    let value ← Session.mapError (.transform typeName field.name)
      (transform.apply ((object.get? field.name).getD .null) caller object)
    pure (some value)

theorem withRelated_eq (entries : List (FieldPlan NodePlan × Link)) (object : Object) :
    Graph.withRelated finish plan entries object =
      putEach (fun entry => entry.1.name)
        (fun entry => Graph.linkValue finish plan entry.1 entry.2) entries object := by
  induction entries generalizing object with
  | nil => rfl
  | cons entry entries ih =>
    rw [Graph.withRelated, putEach]
    refine bind_congr fun v => ?_
    cases v with
    | none => exact ih object
    | some v => exact ih _

theorem transformed_eq {γ : Type} (object : Object) (fields : List (FieldPlan NodePlan))
    (base : Object) (k : Object → Session Fault γ) :
    (Graph.transformed caller typeName object fields >>= fun values =>
        k (values.foldl (fun object (name, value) => object.insert name value) base)) =
      putEach FieldPlan.name (transformedField caller typeName object) fields base >>= k := by
  induction fields generalizing base with
  | nil => rfl
  | cons field fields ih =>
    rw [Graph.transformed, putEach, transformedField]
    cases field.transform with
    | none =>
      simp only [pure_bind]
      exact ih base
    | some transform =>
      simp only [bind_assoc, pure_bind, List.foldl_cons]
      exact bind_congr fun value => ih _

theorem output_eq {fields : List (FieldPlan NodePlan)} (object base : Object) :
    putEach FieldPlan.name
        (fun field => pure (some ((object.get? field.name).getD .null))) fields base =
      (pure ((fields.map fun field => (field.name, (object.get? field.name).getD .null)).foldl
        (fun d entry => d.insert entry.1 entry.2) base) : Session Fault Object) := by
  induction fields generalizing base with
  | nil => rfl
  | cons field fields ih =>
    rw [putEach, pure_bind]
    exact ih _

end

/-- Finishing a node puts values into its row twice. -/
theorem finish_eq (node : Node) (caller : Caller) (finish : NodeId → Session Fault Finished) :
    node.finish caller finish =
      putEach (fun entry => entry.1.name)
          (fun entry => Graph.linkValue finish node.plan entry.1 entry.2)
          (node.plan.fields.zip node.links) node.row >>= fun object =>
        Session.ofExcept (Graph.withParsed node.plan.typeName node.plan.fields object) >>=
          fun object =>
            putEach FieldPlan.name (transformedField caller node.plan.typeName object)
                node.plan.fields object >>= fun full =>
              pure ⟨node.row, full, Graph.output node.plan.fields full⟩ := by
  rw [← withRelated_eq]
  refine bind_congr fun object => bind_congr fun object => ?_
  let finished (full : Object) : Session Fault Finished :=
    pure ⟨node.row, full, Graph.output node.plan.fields full⟩
  exact transformed_eq object node.plan.fields object finished

/-! ### Fields that were dropped -/

variable {env : Environment} {repeatable : Schema.Resolved → Prop} {R : NodeId → NodeId → Prop}
  {storage storage' : Storage}

section

variable {plan plan' : NodePlan} {taken a : Nat} {slots : List Nat}
  {fields fields' : List (FieldPlan NodePlan)} {links links' : List Link}

/-- A field with its link, and those that they stand for. -/
def EntryTwin (env : Environment) (repeatable : Schema.Resolved → Prop) (R : NodeId → NodeId → Prop)
    (plan plan' : NodePlan) (entry entry' : FieldPlan NodePlan × Link) : Prop :=
  FieldTwin env repeatable plan plan' entry.1 entry'.1 ∧ LinkTwin R entry.2 entry'.2

/-- Stored documents are never dropped. -/
theorem withParsed_twin (h : FieldsTwin env repeatable plan plan' taken slots fields fields')
    (typeName : String) (object : Object) :
    Graph.withParsed typeName fields object = Graph.withParsed typeName fields' object := by
  induction h generalizing object with
  | nil => rfl
  | keep hf _ ih =>
    unfold Graph.withParsed
    rw [hf.name, hf.json]
    split
    · split
      · split
        · exact ih _
        · rfl
      · exact ih _
    · exact ih _
  | again _ _ hjson _ _ ih =>
    rw [Graph.withParsed, hjson]
    exact ih object

theorem drop_of_get {α : Type} {xs : List α} {x : α} {i : Nat} (h : xs[i]? = some x) :
    xs.drop i = x :: xs.drop (i + 1) := by
  obtain ⟨hlt, rfl⟩ := List.getElem?_eq_some_iff.1 h
  exact List.drop_eq_getElem_cons hlt

/-- The fields of a plan drop to those of its twin, links included. -/
theorem drops_of_remaining
    (h : Graph.Remaining env repeatable plan plan' a taken slots fields fields')
    (hlinks : ∀ i i', Plan.Stands env repeatable plan plan' i i' →
      ∃ link link', links[i]? = some link ∧ links'[i']? = some link' ∧ LinkTwin R link link') :
    Drops (fun entry => entry.1.name) (fun entry => entry.1.name)
      (EntryTwin env repeatable R plan plan') (plan'.fields.zip links') taken
      (fields.zip (links.drop a)) (fields'.zip (links'.drop taken)) := by
  obtain ⟨htwin, hslots, hfields, hfields'⟩ := h
  induction htwin generalizing a with
  | nil => exact .nil
  | keep hf _ ih =>
    obtain ⟨hslot, hslots⟩ := Plan.drop_cons hslots
    obtain ⟨-, hfields⟩ := Plan.drop_cons hfields
    obtain ⟨-, hfields'⟩ := Plan.drop_cons hfields'
    obtain ⟨link, link', hl, hl', ht⟩ := hlinks _ _ hslot
    rw [drop_of_get hl, drop_of_get hl', List.zip_cons_cons, List.zip_cons_cons]
    exact .keep ⟨hf, ht⟩ (ih hslots hfields hfields')
  | @again taken i _ field field' _ _ hlast hf _ _ _ ih =>
    obtain ⟨hslot, hslots⟩ := Plan.drop_cons hslots
    obtain ⟨-, hfields⟩ := Plan.drop_cons hfields
    obtain ⟨link, link', hl, hl', ht⟩ := hlinks _ _ hslot
    rw [drop_of_get hl, List.zip_cons_cons]
    refine .again (y := (field', link')) ⟨hlast.lt, ?_, hlast.holds, ?_⟩ ⟨hf, ht⟩
      (ih hslots hfields hfields')
    · rw [List.getElem?_zip_eq_some]
      exact ⟨hlast.at_i, hl'⟩
    · intro k entry hik hk hentry
      rw [List.getElem?_zip_eq_some] at hentry
      exact hlast.last k _ hik hk hentry.1

end

/-! ### A node -/

theorem transformedField_alike {plan plan' : NodePlan} {field field' : FieldPlan NodePlan}
    (hlookup : LooksUpAlike storage storage')
    (hf : FieldTwin env repeatable plan plan' field field') (caller : Caller) (typeName : String)
    (object : Object) :
    Alike storage storage' Eq (transformedField caller typeName object field)
      (transformedField caller typeName object field') := by
  unfold transformedField
  rw [hf.transform, hf.name]
  cases field'.transform with
  | none => exact Alike.pure rfl
  | some transform =>
    exact (transform_alike hlookup transform _ caller object).mapError.bind_eq
      fun _ => Alike.pure rfl

/-- A node and its counterpart finish alike, where their links lead to the same values. -/
theorem NodeTwin.finish_alike {node node' : Node} {caller : Caller}
    {finish finish' : NodeId → Session Fault Finished} (h : NodeTwin env repeatable R node node')
    (hlookup : LooksUpAlike storage storage')
    (hvalues : ∀ entry ∈ node.plan.fields.zip node.links,
      ∀ entry' ∈ node'.plan.fields.zip node'.links,
      EntryTwin env repeatable R node.plan node'.plan entry entry' →
      Alike storage storage' Eq (Graph.linkValue finish node.plan entry.1 entry.2)
        (Graph.linkValue finish' node'.plan entry'.1 entry'.2)) :
    Alike storage storage' Eq (node.finish caller finish) (node'.finish caller finish') := by
  have hdrops := drops_of_remaining (Graph.Twin.remaining h.plan) h.links
  rw [List.drop_zero, List.drop_zero] at hdrops
  have hfields : (node.plan.fields.zip node.links).map Prod.fst = node.plan.fields := by
    refine List.map_fst_zip (Nat.le_of_not_lt fun hlt => ?_)
    obtain ⟨i', hs⟩ := h.plan.exists_stands (List.getElem?_eq_getElem hlt)
    obtain ⟨link, -, hl, -⟩ := h.links _ _ hs
    exact absurd (List.getElem?_eq_some_iff.1 hl).1 (Nat.lt_irrefl _)
  have hfields' : (node'.plan.fields.zip node'.links).map Prod.fst = node'.plan.fields := by
    refine List.map_fst_zip (Nat.le_of_not_lt fun hlt => ?_)
    obtain ⟨i, hs⟩ := h.plan.exists_stands_right (List.getElem?_eq_getElem hlt)
    obtain ⟨-, link', -, hl', -⟩ := h.links _ _ hs
    exact absurd (List.getElem?_eq_some_iff.1 hl').1 (Nat.lt_irrefl _)
  -- the values of an entry that depend on its field alone
  have hput : ∀ (value : FieldPlan NodePlan → Session Fault (Option Json))
      (value' : FieldPlan NodePlan → Session Fault (Option Json)) (base : Object),
      (∀ field field', FieldTwin env repeatable node.plan node'.plan field field' →
        Alike storage storage' Eq (value field) (value' field')) →
      Alike storage storage' Eq (putEach FieldPlan.name value node.plan.fields base)
        (putEach FieldPlan.name value' node'.plan.fields base) := by
    intro value value' base hvalue
    rw [← hfields, ← hfields', putEach_map, putEach_map]
    exact putEach_alike hdrops rfl
      (fun entry _ entry' _ he => ⟨he.1.name, hvalue _ _ he.1⟩) PutIn.zero
  have houtput : ∀ object, Graph.output node.plan.fields object =
      Graph.output node'.plan.fields object := by
    intro object
    have halike := hput (fun field => pure (some ((object.get? field.name).getD .null)))
      (fun field => pure (some ((object.get? field.name).getD .null))) []
      fun field field' hf => by rw [hf.name]; exact Alike.pure rfl
    rw [output_eq, output_eq] at halike
    cases halike [] [] with
    | ok heq => exact heq
  rw [finish_eq, finish_eq, h.row, h.plan.1]
  refine (putEach_alike hdrops rfl (fun entry he entry' he' htwin =>
    ⟨htwin.1.name, hvalues entry he entry' he' htwin⟩) PutIn.zero).bind_eq fun object => ?_
  rw [withParsed_twin h.plan.fieldsTwin]
  refine (Alike.ofExcept (.refl _)).bind_eq fun object => ?_
  refine (hput _ _ object fun field field' hf =>
    transformedField_alike hlookup hf caller _ object).bind_eq fun full => ?_
  rw [houtput]
  exact Alike.pure rfl

end Resolution

end ObjectGraph
