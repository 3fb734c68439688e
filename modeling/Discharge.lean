import Discharge.Text
import Discharge.Text.Part
import Discharge.Text.Classes
import Discharge.Text.Quoted
import Discharge.Text.Base64
import Discharge.Term
import Discharge.Term.Printer
import Discharge.Term.Parts
import Discharge.Term.Substitution
import Discharge.Term.Normal
import Discharge.Decimal.Shortest
import Discharge.Decimal.Word
import Discharge.Decimal.Numeral
import Discharge.Formula.Token
import Discharge.Formula.Tree
import Discharge.Formula.Grammar
import Discharge.Formula.Reading
import Discharge.Error
import Discharge.Congruence.Vocabulary
import Discharge.Congruence.Fact
import Discharge.Congruence.Model
import Discharge.Congruence.Matching
import Discharge.Condition
import Discharge.Result
import Discharge.Library
import Discharge.Search.Rule
import Discharge.Search.Obligation
import Discharge.Search.Offers
import Discharge.Search.Ranking
import Discharge.Text.Banner
import Discharge.Search.Trace
import Discharge.Search.Attempt
import Discharge.Search.Prover
import Discharge.ProofText.Summary
import Discharge.ProofText.Stable
import Discharge.Digest.Sha256
import Discharge.Time.Duration
import Discharge.Time.Calendar
import Discharge.Time.Stamp
import Discharge.Files.Path
import Discharge.Report.Style
import Discharge.ProofText.File
import Discharge.ProofText.Diff
import Discharge.Report.Totals
import Discharge.Report.Text
import Discharge.Report.Json
import Discharge.Cache.Fingerprint
import Discharge.Cache.Store
import Discharge.Progress
import Discharge.Files.Module
import Discharge.Document.Cursor
import Discharge.Document.Written
import Discharge.Document.Token
import Discharge.Document.Scanner
import Discharge.Document.Node
import Discharge.Document.Scalar
import Discharge.Document.Filler
import Discharge.Document.Field
import Discharge.Files.Tree
import Discharge.Library.Source
import Discharge.Library.Closure
import Discharge.Library.Loading
import Discharge.Search.Listing
import Discharge.Settings
import Discharge.Engine
import Discharge.Engine.Batch
import Discharge.Engine.Output
import Discharge.Engine.Watching
import Discharge.Command
import Discharge.Main
import Discharge.Proofs.Congruence.Classes
import Discharge.Proofs.Congruence.Forest
import Discharge.Proofs.Congruence.Calls
import Discharge.Proofs.Congruence.Keys
import Discharge.Proofs.Congruence.Connectives
import Discharge.Proofs.Congruence.Filing
import Discharge.Proofs.Congruence.Growth
import Discharge.Proofs.Congruence.Uniting
import Discharge.Proofs.Congruence.Placing
import Discharge.Proofs.Congruence.Inputs
import Discharge.Proofs.Congruence.Representation
import Discharge.Proofs.Congruence.Saturation
import Discharge.Proofs.Congruence.Interpretation
import Discharge.Proofs.Congruence.Soundness
import Discharge.Proofs.Term.Plain
import Discharge.Proofs.Term.Meaning
import Discharge.Proofs.Congruence.Names
import Discharge.Proofs.Congruence.Satisfaction
import Discharge.Proofs.Congruence.Simplification
import Discharge.Proofs.Congruence.Matching
import Discharge.Proofs.Congruence.Lookup
import Discharge.Proofs.Congruence.Completeness
import Discharge.Proofs.Congruence.Applications
import Discharge.Proofs.Congruence.TwoValued
import Discharge.Proofs.Search.Patterns
import Discharge.Proofs.Search.Rules
import Discharge.Proofs.Search.Obligations
import Discharge.Proofs.Search.Derivations
import Discharge.Proofs.Search.Soundness
import Discharge.Proofs.Search.Verdicts
import Discharge.Proofs.Search.Candidates
import Discharge.Proofs.Congruence.Bindings
import Discharge.Proofs.Congruence.Operands
import Discharge.Proofs.Congruence.Knowledge
import Discharge.Proofs.Congruence.Patterns
import Discharge.Proofs.Congruence.Exactness
import Discharge.Proofs.Congruence.Conservation
import Discharge.Proofs.Congruence.Persistence
import Discharge.Proofs.Congruence.OrderIndependence
import Discharge.Proofs.Term.Writing
import Discharge.Proofs.Congruence.Telling
import Discharge.Proofs.Congruence.Checked
import Discharge.Proofs.Congruence.CheckedMatching
import Discharge.Proofs.Congruence.Widening
import Discharge.Proofs.Congruence.Instantiation
import Discharge.Proofs.Search.Goals
import Discharge.Proofs.Search.Checked
import Discharge.Proofs.Search.Instances
import Discharge.Proofs.Search.Intactness
import Discharge.Proofs.Search.Backward
import Discharge.Proofs.Search.GoalSearch
import Discharge.Proofs.Search.Offers
import Discharge.Proofs.Search.Exhaustion
import Discharge.Proofs.Search.Saturation
import Discharge.Proofs.Search.Interleaving
import Discharge.Proofs.Search.Isolation
import Discharge.Proofs.Search.Independence
import Discharge.Proofs.Search.Determinacy
import Discharge.Proofs.Cache.KeyText
import Discharge.Proofs.Formula.Names
import Discharge.Proofs.Search.Agreement
import Discharge.Proofs.Search.CheckedRuns
import Discharge.Proofs.Engine.History
import Discharge.Proofs.Engine.Reporting
import Discharge.Proofs.Engine.Batches
import Discharge.Proofs.Engine.Transparency
import Discharge.Proofs.Files.Places
import Discharge.Proofs.Term.Normalization
import Discharge.Proofs.Congruence.Joins
import Discharge.Proofs.Search.Dealing
import Discharge.Proofs.Congruence.Shortening
import Discharge.Proofs.Congruence.CanonicalForms
import Discharge.Proofs.Library.Declarations
import Discharge.Proofs.Library.Collection
import Discharge.Proofs.Term.Unambiguity
import Discharge.Proofs.Library.Closure
import Discharge.Proofs.Library.Completion
import Discharge.Proofs.Library.Outcome
import Discharge.Proofs.Search.Handling
import Discharge.Proofs.Search.Monotonicity
import Discharge.Proofs.Search.Ledger
import Discharge.Proofs.Search.Bookkeeping
import Discharge.Proofs.Congruence.Recognition
import Discharge.Proofs.Congruence.Counting
import Discharge.Proofs.Search.Crew
import Discharge.Proofs.Search.Undecided
import Discharge.Proofs.Search.Budget
import Discharge.Proofs.ProofText.Retelling
