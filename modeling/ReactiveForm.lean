import ReactiveForm.CommandLine.Memory
import ReactiveForm.Main
import ReactiveForm.Proofs.Aggregates
import ReactiveForm.Proofs.DependencyOrder
import ReactiveForm.Proofs.SeriesEdits
import ReactiveForm.Proofs.Influence
import ReactiveForm.Proofs.SeriesList
import ReactiveForm.Proofs.Blueprints
import ReactiveForm.Proofs.Verdicts
import ReactiveForm.Proofs.Persistence
import ReactiveForm.Proofs.Reappearance
import ReactiveForm.Proofs.EntryOrder
import ReactiveForm.Proofs.Telling
import ReactiveForm.Proofs.Regularity
import ReactiveForm.Proofs.Replay
import ReactiveForm.Proofs.Isolation
import ReactiveForm.Proofs.Agreement
import ReactiveForm.Proofs.Disturbance
import ReactiveForm.Proofs.Making
import ReactiveForm.Proofs.Awaiting
import ReactiveForm.Proofs.Atomicity
import ReactiveForm.Proofs.Reopening
import ReactiveForm.Proofs.Recounting
import ReactiveForm.Proofs.Framing
import ReactiveForm.Proofs.Restoring
import ReactiveForm.Proofs.Spelling
import ReactiveForm.Proofs.Remarks
import ReactiveForm.Proofs.Storing
import ReactiveForm.Proofs.Paths
import ReactiveForm.Proofs.Characters
import ReactiveForm.Proofs.Numerals
import ReactiveForm.Proofs.Documents
import ReactiveForm.Proofs.ExpressionDocuments
import ReactiveForm.Proofs.RuleDocuments
import ReactiveForm.Proofs.Contents
import ReactiveForm.Proofs.Relevance
import ReactiveForm.Proofs.Typing
import ReactiveForm.Proofs.Refreshing
import ReactiveForm.Proofs.Footprint
import ReactiveForm.Proofs.Visiting
import ReactiveForm.Proofs.DeclaredTargets
import ReactiveForm.Proofs.InsertionOrder
import ReactiveForm.Proofs.WrittenIntegers
import ReactiveForm.Proofs.CanonicalText
import ReactiveForm.Proofs.Indexes
import ReactiveForm.Proofs.Undoing
import ReactiveForm.Proofs.Sections
import ReactiveForm.Proofs.Summaries
import ReactiveForm.Proofs.Patterns
import ReactiveForm.Proofs.Anchoring
