import LayeredPlanning.Canonical.ContentHash
import LayeredPlanning.Canonical.Json
import LayeredPlanning.Canonical.JsonReader
import LayeredPlanning.Canonical.JsonText
import LayeredPlanning.Canonical.Sha256
import LayeredPlanning.Decimal.Reading
import LayeredPlanning.Decimal.Shortest
import LayeredPlanning.Domain.Action
import LayeredPlanning.Domain.Cost
import LayeredPlanning.Domain.Direction
import LayeredPlanning.Domain.State
import LayeredPlanning.Domain.StateSet
import LayeredPlanning.Domain.Task
import LayeredPlanning.Domain.Transition
import LayeredPlanning.Domain.TransitionTable
import LayeredPlanning.Layers.ClosedLayers
import LayeredPlanning.Layers.LayerSearch
import LayeredPlanning.Layers.LayerView
import LayeredPlanning.Layers.Meeting
import LayeredPlanning.Order.SortedMap
import LayeredPlanning.Order.Strict
import LayeredPlanning.Plans.Plan
import LayeredPlanning.Plans.PlanDatabase
import LayeredPlanning.Plans.PlanStore
import LayeredPlanning.Plans.ScriptedStore
import LayeredPlanning.Plans.Selection
import LayeredPlanning.Proofs.Canonical.Hashes
import LayeredPlanning.Proofs.Canonical.Members
import LayeredPlanning.Proofs.Canonical.Renderings
import LayeredPlanning.Proofs.Canonical.Scalars
import LayeredPlanning.Proofs.Canonical.Values
import LayeredPlanning.Proofs.Domain.Edges
import LayeredPlanning.Proofs.Layers.Calls
import LayeredPlanning.Proofs.Layers.Closing
import LayeredPlanning.Proofs.Layers.Costs
import LayeredPlanning.Proofs.Layers.Frontiers
import LayeredPlanning.Proofs.Layers.Meetings
import LayeredPlanning.Proofs.Layers.Reached
import LayeredPlanning.Proofs.Layers.Recording
import LayeredPlanning.Proofs.Layers.Sublayers
import LayeredPlanning.Proofs.Layers.Termination
import LayeredPlanning.Proofs.Paths.Basic
import LayeredPlanning.Proofs.Paths.LevelSimple
import LayeredPlanning.Proofs.Plans.Calls
import LayeredPlanning.Proofs.Plans.Database
import LayeredPlanning.Proofs.Plans.Duplicates
import LayeredPlanning.Proofs.Plans.Encoding
import LayeredPlanning.Proofs.Plans.Fingerprints
import LayeredPlanning.Proofs.Plans.Genuine
import LayeredPlanning.Proofs.Plans.Labels
import LayeredPlanning.Proofs.Reconstruction.Bookkeeping
import LayeredPlanning.Proofs.Reconstruction.Courses
import LayeredPlanning.Proofs.Reconstruction.DeadEnds
import LayeredPlanning.Proofs.Reconstruction.Decisions
import LayeredPlanning.Proofs.Reconstruction.Exactness
import LayeredPlanning.Proofs.Reconstruction.Failures
import LayeredPlanning.Proofs.Reconstruction.Histories
import LayeredPlanning.Proofs.Reconstruction.Justification
import LayeredPlanning.Proofs.Reconstruction.Parts
import LayeredPlanning.Proofs.Reconstruction.Preorder
import LayeredPlanning.Proofs.Reconstruction.Queue
import LayeredPlanning.Proofs.Reconstruction.Quota
import LayeredPlanning.Proofs.Reconstruction.Registry
import LayeredPlanning.Proofs.Reconstruction.Soundness
import LayeredPlanning.Proofs.Reconstruction.Splitting
import LayeredPlanning.Proofs.Reconstruction.Submissions
import LayeredPlanning.Proofs.Reconstruction.Termination
import LayeredPlanning.Proofs.Reconstruction.Tracks
import LayeredPlanning.Proofs.Reconstruction.Watermark
import LayeredPlanning.Proofs.Reconstruction.Witness
import LayeredPlanning.Proofs.Run.Bounds
import LayeredPlanning.Proofs.Run.BruteForce
import LayeredPlanning.Proofs.Run.Completeness
import LayeredPlanning.Proofs.Run.Consistency
import LayeredPlanning.Proofs.Run.Decided
import LayeredPlanning.Proofs.Run.Genuineness
import LayeredPlanning.Proofs.Run.Invariant
import LayeredPlanning.Proofs.Run.Meetings
import LayeredPlanning.Proofs.Run.NoSolution
import LayeredPlanning.Proofs.Run.Opening
import LayeredPlanning.Proofs.Run.Optimality
import LayeredPlanning.Proofs.Run.Outcome
import LayeredPlanning.Proofs.Run.Quality
import LayeredPlanning.Proofs.Run.Quota
import LayeredPlanning.Proofs.Run.Report
import LayeredPlanning.Proofs.Run.Termination
import LayeredPlanning.Proofs.Run.Turns
import LayeredPlanning.Proofs.Run.UpperBound
import LayeredPlanning.Proofs.Samples.Keys
import LayeredPlanning.Proofs.Samples.Walks
import LayeredPlanning.Reconstruction.Branch
import LayeredPlanning.Reconstruction.Cut
import LayeredPlanning.Reconstruction.CutRegistry
import LayeredPlanning.Reconstruction.Error
import LayeredPlanning.Reconstruction.Report
import LayeredPlanning.Reconstruction.Walk
import LayeredPlanning.Run.Basic
import LayeredPlanning.Run.Policy
import LayeredPlanning.Samples.EdgeWorld
import LayeredPlanning.Samples.ScrambledKeys
import LayeredPlanning.Samples.Worlds
