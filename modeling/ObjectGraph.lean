import ObjectGraph.Catalog.Writer
import ObjectGraph.Main
import ObjectGraph.Request.Writer
import ObjectGraph.Storage.Cell
import ObjectGraph.Proofs.Resolution.Batching
import ObjectGraph.Proofs.Plan.Columns
import ObjectGraph.Proofs.Plan.Filters
import ObjectGraph.Proofs.Sql.Composition
import ObjectGraph.Proofs.Graph.Nodes
import ObjectGraph.Proofs.Resolution.Loop
import ObjectGraph.Proofs.Resolution.Shape
import ObjectGraph.Proofs.Resolution.Termination
import ObjectGraph.Proofs.Resolution.Statements
import ObjectGraph.Proofs.Resolution.Compilations
import ObjectGraph.Proofs.Plan.Thinning
import ObjectGraph.Proofs.Plan.Twins
import ObjectGraph.Proofs.Graph.Queues
import ObjectGraph.Proofs.Graph.Counterparts
import ObjectGraph.Proofs.Graph.Mirrors
import ObjectGraph.Proofs.Resolution.Lockstep
import ObjectGraph.Proofs.Resolution.Tandem
import ObjectGraph.Proofs.Resolution.Repeats
import ObjectGraph.Proofs.Resolution.Thinned
import ObjectGraph.Proofs.Transform.Redaction
import ObjectGraph.Proofs.Resolution.Noninterference
import ObjectGraph.Proofs.Plan.Abreast
import ObjectGraph.Proofs.Plan.Dropping
import ObjectGraph.Proofs.Plan.SameStatements
import ObjectGraph.Proofs.Plan.Aliases
import ObjectGraph.Proofs.Plan.Quoting
import ObjectGraph.Proofs.Graph.Histories
import ObjectGraph.Proofs.Resolution.Pages
import ObjectGraph.Proofs.Resolution.Validity
import ObjectGraph.Proofs.Plan.RequestFaults
import ObjectGraph.Proofs.Plan.Labels
import ObjectGraph.Proofs.Plan.Scoping
import ObjectGraph.Proofs.Resolution.Reordering
import ObjectGraph.Proofs.Graph.Frames
import ObjectGraph.Proofs.Plan.PageSizes
import ObjectGraph.Proofs.Plan.ParentKeys
import ObjectGraph.Proofs.Plan.ExposedKinds
import ObjectGraph.Proofs.Plan.StoredKeys
import ObjectGraph.Proofs.Sql.Formulas
import ObjectGraph.Proofs.Sql.Templates
import ObjectGraph.Proofs.Schema.Violations
import ObjectGraph.Proofs.Resolution.Depths
import ObjectGraph.Proofs.Plan.Orderings
import ObjectGraph.Proofs.Resolution.FieldOrder
import ObjectGraph.Proofs.Paging.CursorOrder
import ObjectGraph.Proofs.Transform.Dates
import ObjectGraph.Proofs.Graph.Acyclicity
import ObjectGraph.Proofs.Plan.MintedAliases
import ObjectGraph.Proofs.Request.RoundTrip
