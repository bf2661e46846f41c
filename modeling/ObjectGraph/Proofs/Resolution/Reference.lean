import ObjectGraph.Proofs.Plan.Places
import ObjectGraph.Resolution

/-! # Resolving every object on its own

The reference for answering: `resolve` answers one object, and for that the objects related to
it, each list by the key of the object itself.  It issues no statements and keeps no graph; what a
storage holds is a `World`, a fixed list of rows for every place and key.  `Serves` says when a
storage gives what is in a world: a follow-up for some keys may give the rows of different keys
in any mixture, those of one key in their order.

A page of an object that has no key is empty.  What size it is reported with is left open
(`blank`), since no statement is issued for it; only `hasNextPage` can tell. -/

namespace ObjectGraph

namespace Resolution

open Plan (Environment Compiled NodePlan ManyPlan FieldPlan PlannedFor)

/-- What is stored: the related rows of a key, for every place of a request, and the answers to
the statements of transforms. -/
structure World where
  children : (place : List Nat) → (key : String) → List Row
  lookup : Sql.Statement → Except StorageError (List Row)

/-- A storage for transforms. -/
def World.storage (world : World) : Storage := .ofFunction .sqlite world.lookup

/-! ### One object -/

/-- A row without the related objects that are packed into it, and for every field what is packed
there; `none` if it cannot be unpacked. -/
def unpack (typeName : String) : List (FieldPlan NodePlan) → Row → Row × List (Option (Option Row))
  | [], row => (row, [])
  | field :: fields, row =>
    match field.kind with
    | .single _ =>
      let packed := Graph.relatedObject typeName field.name ((row.get? field.name).getD .null)
      let rest := unpack typeName fields (row.erase field.name)
      (rest.1, packed.toOption :: rest.2)
    | _ =>
      let rest := unpack typeName fields row
      (rest.1, some none :: rest.2)

/-- The values of the key of a row with their text. -/
def key? (row : Row) (labels : List String) : Option (List Json × String) := do
  let values ← Graph.keyValues? row labels
  let key ← Graph.compositeKey? values
  pure (values, key)

/-- A paging over pages of a size, if one is known. -/
def sized (size : Option Nat) (paging : Option Paging) : Option Paging :=
  match size with
  | some size => paging.map fun p => p.capped size
  | none => paging

/-- Put the values of fields into a row. -/
def put : List (FieldPlan NodePlan × Option Json) → Object → Object
  | [], object => object
  | (_, none) :: rest, object => put rest object
  | (field, some value) :: rest, object => put rest (object.insert field.name value)

section

variable (env : Environment) (world : World) (blank : List Nat → Option Nat)

/-- The list of an object: the rows of its key, each resolved. -/
def related (resolve : NodePlan → Row → Option Finished) (m : ManyPlan) (row : Row) :
    Option Json :=
  match key? row m.keyLabels with
  | none => some (Connection.ofPaging (sized (blank m.origin) m.paging) [])
  | some (values, key) => do
    let compiled ← (Plan.compileMany env m [values]).toOption
    let children ← (world.children m.origin key).mapM (resolve compiled.plan)
    some (Connection.ofPaging (sized compiled.pageSize m.paging) children)

/-- What a field leads to, given what is packed there. -/
def relatedValue (resolve : NodePlan → Row → Option Finished) (plan : NodePlan) (row : Row) :
    FieldPlan NodePlan × Option (Option Row) → Option (Option Json)
  | (field, packed) =>
    match field.kind with
    | .value => some none
    | .single child =>
      match packed with
      | none => none
      | some none => some (some .null)
      | some (some row) => (resolve child row).map fun finished => some (.obj finished.output)
    | .many index =>
      (plan.many[index]?).bind fun m => (related env world blank resolve m row).map some

/-- Resolve an object, given how to resolve those related to it. -/
def resolveWith (resolve : NodePlan → Row → Option Finished) (plan : NodePlan) (source : Row) :
    Option Finished := do
  let (row, packed) := unpack plan.typeName plan.fields source
  let values ← (plan.fields.zip packed).mapM (relatedValue env world blank resolve plan row)
  let object ←
    (Graph.withParsed plan.typeName plan.fields (put (plan.fields.zip values) row)).toOption
  let transformed ←
    ((Graph.transformed env.caller plan.typeName object plan.fields).outcome
      world.storage).1.toOption
  let full := transformed.foldl (fun object (name, value) => object.insert name value) object
  some ⟨row, full, Graph.output plan.fields full⟩

/-- Resolve an object with at most so many levels, its own included. -/
def resolve : (levels : Nat) → NodePlan → Row → Option Finished
  | 0 => fun _ _ => none
  | levels + 1 => fun plan row => resolveWith env world blank (resolve levels) plan row

/-- The answer to a request whose root statement gives some rows, with at most so many levels. -/
def reference (levels : Nat) (request : Request) (filter : Option Schema.TypeFilter)
    (rows : List Row) : Option (List Object) := do
  let root ← (Plan.compileRoot env request filter).toOption
  let finished ← rows.mapM (resolve env world blank levels root.plan)
  some (finished.map Finished.output)

end

/-! ### Storages -/

/-- Keys that a follow-up can be asked for: those of some parents, each once. -/
structure KeysOf (m : ManyPlan) (keys : List (List Json)) : Prop where
  nonempty : keys ≠ []
  distinct : (keys.map Graph.compositeKey?).Nodup
  of_row : ∀ values ∈ keys, ∃ row key, key? row m.keyLabels = some (values, key)

/-- Rows with labels that tell the key are those that a world has for some keys, in any mixture. -/
structure Delivers (world : World) (m : ManyPlan) (labels : List String) (keys : List (List Json))
    (rows : List Row) : Prop where
  keyed : ∀ row ∈ rows, ∃ values ∈ keys, ∃ key,
    Graph.compositeKey? values = some key ∧ Graph.rowKey? row labels = some key
  exact : ∀ values ∈ keys, ∀ key, Graph.compositeKey? values = some key →
    rows.filter (fun row => Graph.rowKey? row labels == some key) = world.children m.origin key

/-- A storage has some rows for the root statement of a request, and gives what is in a world for
its follow-ups and for look-ups. -/
structure Serves (env : Environment) (request : Request) (filter : Option Schema.TypeFilter)
    (storage : Storage) (world : World) (rows : List Row) : Prop where
  root : ∀ root, Plan.compileRoot env request filter = .ok root →
    storage.answer [] root.statement = .ok rows
  followUp : ∀ root, Plan.compileRoot env request filter = .ok root →
    ∀ m, Plan.Listed env root.plan m → ∀ keys, KeysOf m keys →
    ∀ compiled, Plan.compileMany env m keys = .ok compiled → ∀ log, ∃ fetched,
      storage.answer log compiled.statement = .ok fetched ∧
        Delivers world m compiled.partitionLabels keys fetched
  lookup : ∀ log table column value,
    storage.answer log (lookupStatement table column value) =
      world.lookup (lookupStatement table column value)

/-- The follow-ups of a request are accepted for all keys or for none: what is refused is refused
for the schema or the request. -/
def Accepted (env : Environment) (request : Request) (filter : Option Schema.TypeFilter) : Prop :=
  ∀ root, Plan.compileRoot env request filter = .ok root → ∀ m, Plan.Listed env root.plan m →
    ∀ keys keys', KeysOf m keys → KeysOf m keys' →
      (∃ compiled, Plan.compileMany env m keys = .ok compiled) →
      ∃ compiled, Plan.compileMany env m keys' = .ok compiled

/-! ### The number of levels -/

variable {env : Environment} {world : World} {blank : List Nat → Option Nat}

section

variable {resolve resolve' : NodePlan → Row → Option Finished} {plan : NodePlan} {row : Row}
  {field : FieldPlan NodePlan} {packed : Option (Option Row)}

theorem relatedValue_value (hk : field.kind = .value) :
    relatedValue env world blank resolve plan row (field, packed) = some none := by
  simp only [relatedValue, hk]

theorem relatedValue_single {child : NodePlan} (hk : field.kind = .single child) :
    relatedValue env world blank resolve plan row (field, packed) =
      packed.bind fun packed => match packed with
        | none => some (some .null)
        | some row => (resolve child row).map fun finished => some (.obj finished.output) := by
  simp only [relatedValue, hk]
  rcases packed with _ | _ | row <;> rfl

theorem relatedValue_many {j : Nat} {m : ManyPlan} (hk : field.kind = .many j)
    (hm : plan.many[j]? = some m) :
    relatedValue env world blank resolve plan row (field, packed) =
      (related env world blank resolve m row).map some := by
  simp only [relatedValue, hk, hm, Option.bind_some]

theorem related_none {m : ManyPlan} (hkey : key? row m.keyLabels = none) :
    related env world blank resolve m row =
      some (Connection.ofPaging (sized (blank m.origin) m.paging) []) := by
  simp only [related, hkey]

theorem related_some {m : ManyPlan} {values : List Json} {key : String} {compiled : Compiled}
    (hkey : key? row m.keyLabels = some (values, key))
    (hc : Plan.compileMany env m [values] = .ok compiled) :
    related env world blank resolve m row =
      ((world.children m.origin key).mapM (resolve compiled.plan)).map
        (Connection.ofPaging (sized compiled.pageSize m.paging)) := by
  simp only [related, hkey, hc]
  exact Option.map_eq_bind.symm

theorem related_refused {m : ManyPlan} {values : List Json} {key : String} {e : Plan.Error}
    (hkey : key? row m.keyLabels = some (values, key))
    (hc : Plan.compileMany env m [values] = .error e) :
    related env world blank resolve m row = none := by
  simp only [related, hkey, hc]
  rfl

theorem related_congr {m : ManyPlan}
    (h : ∀ keys compiled, Plan.compileMany env m keys = .ok compiled →
      resolve compiled.plan = resolve' compiled.plan) :
    related env world blank resolve m row = related env world blank resolve' m row := by
  cases hkey : key? row m.keyLabels with
  | none => rw [related_none hkey, related_none hkey]
  | some key =>
    cases hc : Plan.compileMany env m [key.1] with
    | error e => rw [related_refused hkey hc, related_refused hkey hc]
    | ok compiled => rw [related_some hkey hc, related_some hkey hc, h _ _ hc]

end

/-- Once there are as many levels as the request has, more of them change nothing. -/
theorem resolve_succ {selections : List Selection} {plan : NodePlan} {levels : Nat} {row : Row}
    (h : PlannedFor env selections plan) (hl : Selection.depthOf selections < levels) :
    resolve env world blank (levels + 1) plan row = resolve env world blank levels plan row := by
  induction levels generalizing selections plan row with
  | zero => omega
  | succ levels ih =>
    change resolveWith env world blank _ plan row = resolveWith env world blank _ plan row
    unfold resolveWith
    have hvalues : ∀ entry ∈ plan.fields.zip (unpack plan.typeName plan.fields row).2,
        relatedValue env world blank (resolve env world blank (levels + 1)) plan
            (unpack plan.typeName plan.fields row).1 entry =
          relatedValue env world blank (resolve env world blank levels) plan
            (unpack plan.typeName plan.fields row).1 entry := by
      rintro ⟨field, packed⟩ hmem
      obtain ⟨i, hi⟩ := List.getElem?_of_mem (List.of_mem_zip hmem).1
      cases hk : field.kind with
      | value => rw [relatedValue_value hk, relatedValue_value hk]
      | single child =>
        obtain ⟨-, below, hb, hd⟩ := h.single_at hi hk
        have hchild : resolve env world blank (levels + 1) child =
            resolve env world blank levels child :=
          funext fun row => ih hb (by omega)
        rw [relatedValue_single hk, relatedValue_single hk, hchild]
      | many j =>
        obtain ⟨m, hm, -, hd⟩ := h.many_at hi hk
        rw [relatedValue_many hk hm, relatedValue_many hk hm, related_congr]
        intro keys compiled hc
        exact funext fun row => ih (Plan.compileMany_plannedFor hc).1 (by omega)
    simp only
    rw [Outcome.mapM_congr hvalues]

/-- The answer is the same for all numbers of levels that the request fits in. -/
theorem reference_levels {request : Request} {filter : Option Schema.TypeFilter} {rows : List Row}
    {levels : Nat} (hl : request.depth ≤ levels) :
    reference env world blank levels request filter rows =
      reference env world blank request.depth request filter rows := by
  unfold reference
  cases hcompile : Plan.compileRoot env request filter with
  | error e => rfl
  | ok root =>
    have hroot := (Plan.compileRoot_plannedFor hcompile).1
    have hresolve : resolve env world blank levels root.plan =
        resolve env world blank request.depth root.plan := by
      induction hl with
      | refl => rfl
      | @step levels hl ih =>
        have hle : 1 + Selection.depthOf request.fields ≤ levels := hl
        rw [← ih]
        exact funext fun row => resolve_succ hroot (by omega)
    change (rows.mapM (resolve env world blank levels root.plan) >>= _) = _
    rw [hresolve]
    rfl

end Resolution

end ObjectGraph
