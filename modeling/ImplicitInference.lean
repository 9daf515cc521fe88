import ImplicitInference.Number.Numeral
import ImplicitInference.Number.Layout
import ImplicitInference.Text.Quoted
import ImplicitInference.Table
import ImplicitInference.Json.Reader
import ImplicitInference.Json.Writer
import ImplicitInference.Json.Decode
import ImplicitInference.Names
import ImplicitInference.Value.Implicits
import ImplicitInference.Value.Document
import ImplicitInference.Node.Document
import ImplicitInference.Constraint.Document
import ImplicitInference.Diagnostic.Document
import ImplicitInference.Options
import ImplicitInference.Checked
import ImplicitInference.CommandLine.Report
import ImplicitInference.Main
import ImplicitInference.Proofs.Agreement
import ImplicitInference.Proofs.Implicits
import ImplicitInference.Proofs.Substitution
import ImplicitInference.Proofs.Interpretation
import ImplicitInference.Proofs.Joining
import ImplicitInference.Proofs.Recursion
import ImplicitInference.Proofs.Unification
import ImplicitInference.Proofs.Signature
import ImplicitInference.Proofs.Satisfaction
import ImplicitInference.Proofs.Reading
import ImplicitInference.Proofs.Table
import ImplicitInference.Proofs.Course
import ImplicitInference.Proofs.Reduction
import ImplicitInference.Proofs.Expansion
import ImplicitInference.Proofs.Unfolding
import ImplicitInference.Proofs.Equations
import ImplicitInference.Proofs.Termination
import ImplicitInference.Proofs.Solution
import ImplicitInference.Proofs.Shaping
import ImplicitInference.Proofs.Naming
import ImplicitInference.Proofs.Numbering
import ImplicitInference.Proofs.Typing
import ImplicitInference.Proofs.Resolution
import ImplicitInference.Proofs.Accounting
import ImplicitInference.Proofs.Record
import ImplicitInference.Proofs.Sources
import ImplicitInference.Proofs.Limit
import ImplicitInference.Proofs.Repetition
import ImplicitInference.Proofs.Rigidity
import ImplicitInference.Proofs.Matching
import ImplicitInference.Proofs.Checking
import ImplicitInference.Proofs.Choice
import ImplicitInference.Proofs.References
import ImplicitInference.Proofs.Branches
import ImplicitInference.Proofs.Erasure
import ImplicitInference.Proofs.Completion
import ImplicitInference.Proofs.Consumption
import ImplicitInference.Proofs.Duals
import ImplicitInference.Proofs.Constituents
import ImplicitInference.Proofs.Renaming
import ImplicitInference.Proofs.Correspondence
import ImplicitInference.Proofs.Equivariance
import ImplicitInference.Proofs.Freshness
import ImplicitInference.Proofs.Lexical
import ImplicitInference.Proofs.Symmetry
import ImplicitInference.Proofs.Drafting
import ImplicitInference.Proofs.RoundTrip
import ImplicitInference.Proofs.Cycles
import ImplicitInference.Proofs.Noting
import ImplicitInference.Proofs.Interruption
import ImplicitInference.Proofs.Entailment
