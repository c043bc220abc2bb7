import TripleQuery.Config.Store
import TripleQuery.Ownership.Sharing
import TripleQuery.Resolution
import TripleQuery.Sample
import TripleQuery.Source.Views
import TripleQuery.Proofs.Graph.Operations
import TripleQuery.Proofs.Layer.Lists
import TripleQuery.Proofs.Layer.Order
import TripleQuery.Proofs.Layer.Repetition
import TripleQuery.Proofs.Layer.Subjects
import TripleQuery.Proofs.Ownership.Recorded
import TripleQuery.Proofs.Resolution.Completeness
import TripleQuery.Proofs.Resolution.Loading
import TripleQuery.Proofs.Resolution.Soundness
import TripleQuery.Proofs.Resolution.Validation
import TripleQuery.Proofs.Source.Tree
import TripleQuery.Proofs.Graph.Component
import TripleQuery.Proofs.Closure.Least
import TripleQuery.Proofs.Ownership.Runs
import TripleQuery.Proofs.Path.Merging
import TripleQuery.Proofs.Graph.Registry
import TripleQuery.Proofs.Ownership.Descent
import TripleQuery.Proofs.Closure.Distance
import TripleQuery.Proofs.Graph.Edits
import TripleQuery.Proofs.Config.Query
