import ObjectGraph.Graph.Answer
import ObjectGraph.Graph.Growth
import ObjectGraph.Plan.FollowUp
import ObjectGraph.Plan.Root

/-! # Answering requests

`answer` plans the root statement, fetches its rows, and then goes on in rounds: a round plans a
statement for every group that waits for a list, issues all of them, and attaches what they
fetched, which lets the groups of the next level wait.  When no group waits the roots are
finished.  Every round is one level deeper than the one before, so the depth of the request
bounds the rounds. -/

namespace ObjectGraph

namespace Resolution

open ObjectGraph.Graph (Group Growing)
open Plan (Environment Compiled)

/-- A group with the statement that fetches its list. -/
structure Planned where
  group : Group
  compiled : Compiled

/-- A group with the rows of its list. -/
structure Fetched where
  planned : Planned
  rows : List Row

/-- Change the graph of a session. -/
def growing {α : Type} (change : Growing α) (graph : Graph) : Session Fault (α × Graph) :=
  Session.ofExcept ((change.on graph).1.map fun x => (x, (change.on graph).2))

/-- Plan the statements of groups, in order.  A group without a parent that has a key needs none:
its lists are empty. -/
def planGroups (env : Environment) : List Group → Graph → Except Fault (List Planned × Graph)
  | [], graph => pure ([], graph)
  | group :: groups, graph =>
    match group.relation?, graph.parentKeys group with
    | none, _ | _, [] => planGroups env groups (graph.attachNone group)
    | some relation, keys => do
      let compiled ← (Plan.compileMany env relation keys).mapError .plan
      let (planned, graph) ← planGroups env groups graph
      pure (⟨group, compiled⟩ :: planned, graph)

/-- Issue the statement of a group. -/
def fetchGroup (planned : Planned) : Session Fault Fetched := do
  let rows ← Session.mapError .storage (Session.fetch planned.compiled.statement)
  pure ⟨planned, rows⟩

/-- Attach the rows of groups, in order. -/
def attachAll : List Fetched → Growing Unit
  | [] => pure ()
  | ⟨⟨group, compiled⟩, rows⟩ :: rest => do
    Graph.attach group compiled.plan compiled.partitionLabels compiled.pageSize rows
    attachAll rest

/-- Fetch the lists that are waited for. -/
def round (env : Environment) (graph : Graph) : Session Fault Graph := do
  let (groups, graph) := graph.takeWaiting
  let (planned, graph) ← Session.ofExcept (planGroups env groups graph)
  let fetched ← planned.mapM fetchGroup
  let (_, graph) ← growing (attachAll fetched) graph
  pure graph

/-- Go on in rounds, at most so many, while a group waits. -/
def rounds (env : Environment) : Nat → Graph → Session Fault Graph
  | 0, graph => pure graph
  | bound + 1, graph =>
    if graph.waiting.isEmpty then pure graph
    else do rounds env bound (← round env graph)

/-- The settings of a storage where nothing else is said: those of its dialect. -/
def settingsOf (storage : Storage) : Plan.Settings := { dialect := storage.dialect }

/-- The root statement of a request. -/
def statement (env : Environment) (request : Request) : Except Fault Sql.Statement :=
  ((Plan.compileRoot env request none).map Compiled.statement).mapError .plan

/-- Answer a request, with a filter of the caller on the root type. -/
def answer (env : Environment) (request : Request) (filter : Option Schema.TypeFilter) :
    Session Fault (List Object) := do
  let root ← Session.ofExcept ((Plan.compileRoot env request filter).mapError .plan)
  let rows ← Session.mapError .storage (Session.fetch root.statement)
  let (roots, graph) ← growing (Graph.addRows root.plan rows) {}
  let graph ← rounds env request.depth graph
  let finished ← roots.mapM (graph.finish env.caller)
  pure (finished.map Finished.output)

end Resolution

end ObjectGraph
