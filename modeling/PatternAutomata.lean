import PatternAutomata.SortedSet
import PatternAutomata.Error
import PatternAutomata.Graph.Edge
import PatternAutomata.Graph.Basic
import PatternAutomata.Graph.WellFormed
import PatternAutomata.Graph.Path
import PatternAutomata.Graph.Closure
import PatternAutomata.Graph.Run
import PatternAutomata.Graph.Change
import PatternAutomata.Text.Escape
import PatternAutomata.Graph.Listing
import PatternAutomata.Drawing
import PatternAutomata.Graph.Dot
import PatternAutomata.Builder
import PatternAutomata.Pattern.Operator
import PatternAutomata.Pattern.Token
import PatternAutomata.Pattern.Tree
import PatternAutomata.Pattern.Grammar
import PatternAutomata.Pattern.Reading
import PatternAutomata.Pattern.Compilation
import PatternAutomata.Pattern.Parse
import PatternAutomata.Determinize
import PatternAutomata.Partition
import PatternAutomata.Minimize
import PatternAutomata.Conversion
import PatternAutomata.Session.Command
import PatternAutomata.Session
import PatternAutomata.Proofs.Outcome
import PatternAutomata.Proofs.SortedSet
import PatternAutomata.Proofs.Graph.Closure
import PatternAutomata.Proofs.Graph.Run
import PatternAutomata.Proofs.Graph.Walk
import PatternAutomata.Proofs.Graph.Enclosed
import PatternAutomata.Proofs.Graph.Trim
import PatternAutomata.Proofs.Graph.Basic
import PatternAutomata.Proofs.Graph.Deterministic
import PatternAutomata.Proofs.Graph.Future
import PatternAutomata.Proofs.Builder
import PatternAutomata.Proofs.Builder.Language
import PatternAutomata.Proofs.Builder.Trim
import PatternAutomata.Proofs.Pattern.Tree
import PatternAutomata.Proofs.Pattern.Reading
import PatternAutomata.Proofs.Pattern.Compilation
import PatternAutomata.Proofs.Pattern.Token
import PatternAutomata.Proofs.Pattern.Taken
import PatternAutomata.Proofs.Pattern.Derived
import PatternAutomata.Proofs.Pattern.Balance
import PatternAutomata.Proofs.Pattern.Parsed
import PatternAutomata.Proofs.Pattern.Language
import PatternAutomata.Proofs.Pattern.Trim
import PatternAutomata.Proofs.Pattern.Faults
import PatternAutomata.Proofs.Determinize
import PatternAutomata.Proofs.Determinize.Lockstep
import PatternAutomata.Proofs.Determinize.Reached
import PatternAutomata.Proofs.Partition
import PatternAutomata.Proofs.Minimize
import PatternAutomata.Proofs.Minimize.Coarsest
import PatternAutomata.Proofs.Minimize.Reduced
import PatternAutomata.Proofs.Minimize.Canonical
import PatternAutomata.Proofs.Session
import PatternAutomata.Proofs.Builder.Acceptance
import PatternAutomata.Proofs.Conversion
import PatternAutomata.Proofs.Conversion.Canonical
import PatternAutomata.Graph.Table
import PatternAutomata.Builder.Operation
import PatternAutomata.Steps
import PatternAutomata.Builder.Assembly
import PatternAutomata.Builder.History
import PatternAutomata.Proofs.Steps
import PatternAutomata.Proofs.Builder.Assembly
import PatternAutomata.Proofs.Builder.History
import PatternAutomata.Pattern.Stacked
import PatternAutomata.Proofs.Pattern.Stacked
import PatternAutomata.Proofs.Determinize.Subsets
import PatternAutomata.Pattern.Nesting
import PatternAutomata.Proofs.Pattern.Nesting
import PatternAutomata.Proofs.Pattern.Failing
import PatternAutomata.Proofs.Pattern.Applied
import PatternAutomata.Proofs.Pattern.Positions
import PatternAutomata.Pattern.Blame
import PatternAutomata.Proofs.Pattern.Blame
import PatternAutomata.Graph.Renaming
import PatternAutomata.Proofs.Graph.Renaming
import PatternAutomata.Proofs.Minimize.Quotient
import PatternAutomata.Proofs.Determinize.Renaming
import PatternAutomata.Proofs.Graph.Merge
import PatternAutomata.Proofs.Builder.Refusal
import PatternAutomata.Proofs.Pattern.Viable
import PatternAutomata.Proofs.Pattern.Count
import PatternAutomata.Proofs.Builder.Shape
import PatternAutomata.Proofs.Pattern.Shape
import PatternAutomata.Graph.Edit
import PatternAutomata.Graph.Tabled
import PatternAutomata.Proofs.Graph.Edit
import PatternAutomata.Proofs.Graph.Made
import PatternAutomata.Pattern.Verbatim
import PatternAutomata.Proofs.Pattern.Verbatim
import PatternAutomata.Graph.Spread
import PatternAutomata.Proofs.Graph.Spread
import PatternAutomata.Conversion.Checked
import PatternAutomata.Proofs.Partition.Groups
import PatternAutomata.Proofs.Determinize.Checked
import PatternAutomata.Proofs.Minimize.Checked
import PatternAutomata.Conversion.Rounds
import PatternAutomata.Proofs.Conversion.Rounds
import PatternAutomata.Pattern.Spelling
import PatternAutomata.Proofs.Pattern.Spelling
import PatternAutomata.Text.Reader
import PatternAutomata.Proofs.Text.Escape
import PatternAutomata.Proofs.Text.Reader
import PatternAutomata.Graph.Contents
import PatternAutomata.Graph.Listed
import PatternAutomata.Proofs.Graph.Listed
import PatternAutomata.Graph.Drawn
import PatternAutomata.Proofs.Drawing
import PatternAutomata.Proofs.Graph.Drawn
import PatternAutomata.Pattern.InOrder
import PatternAutomata.Proofs.Pattern.Logged
import PatternAutomata.Proofs.Pattern.InOrder
