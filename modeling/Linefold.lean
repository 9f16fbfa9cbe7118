import Linefold.Main
import Linefold.Proofs.Grammar.Expectation
import Linefold.Proofs.Outcome
import Linefold.Proofs.Grammar.Derivative
import Linefold.Proofs.Grammar.Recognition
import Linefold.Proofs.Grammar.Acceptance
import Linefold.Proofs.Interning
import Linefold.Proofs.Shape
import Linefold.Proofs.Operands.Ready
import Linefold.Proofs.Operands.Offer
import Linefold.Proofs.Operands.Run
import Linefold.Proofs.Operands.Texts
import Linefold.Proofs.Folding.Frames
import Linefold.Proofs.Folding.Layout
import Linefold.Proofs.Folding.Binding
import Linefold.Proofs.Folding.Reductions
import Linefold.Proofs.Folding.Steps
import Linefold.Proofs.Folding.Soundness
import Linefold.Proofs.Twins.Alike
import Linefold.Proofs.Twins.Words
import Linefold.Proofs.Twins.Agree
import Linefold.Proofs.Twins.Parsing
import Linefold.Proofs.Twins.Patterns
import Linefold.Proofs.Twins.Tasks
import Linefold.Proofs.Twins.Folding
import Linefold.Proofs.Twins.Sessions
import Linefold.Proofs.Twins.Restoring
import Linefold.Proofs.Arithmetic.Computed
import Linefold.Proofs.Arithmetic.Values
import Linefold.Proofs.Arithmetic.Folding
import Linefold.Proofs.Evaluation.Evaluator
import Linefold.Proofs.Evaluation.Computes
import Linefold.Proofs.Evaluation.Scopes
import Linefold.Proofs.Evaluation.Functions
import Linefold.Proofs.Evaluation.Clauses
import Linefold.Proofs.Evaluation.Agreement
import Linefold.Proofs.Scoping.Free
import Linefold.Proofs.Scoping.Mirrors
import Linefold.Proofs.Scoping.Calls
import Linefold.Proofs.Wholeness.Whole
import Linefold.Proofs.Wholeness.Parsing
import Linefold.Proofs.Wholeness.Binding
import Linefold.Proofs.Wholeness.Folding
import Linefold.Proofs.Wholeness.Hosts
import Linefold.Proofs.Tables.Numbers
import Linefold.Proofs.Tables.Fields
import Linefold.Proofs.Tables.RoundTrip
import Linefold.Proofs.Respacing.InStep
import Linefold.Proofs.Respacing.Parsing
import Linefold.Proofs.Respacing.Folding
import Linefold.Proofs.Respacing.Texts
import Linefold.Proofs.Folding.Limited
import Linefold.Proofs.Closedness.Names
import Linefold.Proofs.Closedness.Levels
import Linefold.Proofs.Closedness.Laid
import Linefold.Proofs.Closedness.Parsing
import Linefold.Proofs.Closedness.Scopes
import Linefold.Proofs.Closedness.Closing
import Linefold.Proofs.Closedness.Run
import Linefold.Proofs.Closedness.Binding
import Linefold.Proofs.Closedness.Folding
import Linefold.Proofs.Closedness.Texts
import Linefold.Proofs.Renaming.Alpha
import Linefold.Proofs.Renaming.Evaluation
import Linefold.Proofs.Renaming.Applications
import Linefold.Proofs.Evaluation.Depth
import Linefold.Proofs.Evaluation.Folders
import Linefold.Proofs.Repetition.Folding
import Linefold.Proofs.Repetition.Sessions
import Linefold.Proofs.Places.Drafts
import Linefold.Proofs.Interaction.Rollback
import Linefold.Proofs.Interaction.Values
import Linefold.Proofs.Staging.Patterns
import Linefold.Proofs.Staging.Values
import Linefold.Proofs.Staging.Expressions
import Linefold.Proofs.Staging.Runs
import Linefold.Proofs.Staging.Binding
import Linefold.Proofs.Staging.Calls
import Linefold.Proofs.Staging.Applications
import Linefold.Proofs.Late.Resolution
import Linefold.Proofs.Late.Frames
import Linefold.Proofs.Late.Scopes
import Linefold.Proofs.Late.Stages
import Linefold.Proofs.Late.Runs
import Linefold.Proofs.Late.Residuals
import Linefold.Proofs.Isolation.Steps
import Linefold.Proofs.Isolation.Runs
import Linefold.Proofs.Isolation.Currying
import Linefold.Proofs.Selection.Choices
import Linefold.Proofs.Selection.Parts
import Linefold.Proofs.Selection.Values
import Linefold.Proofs.Selection.Follows
import Linefold.Proofs.Selection.Cases
import Linefold.Proofs.Selection.Groups
import Linefold.Proofs.Turns.Turn
import Linefold.Proofs.Turns.Acts
import Linefold.Proofs.Turns.Steps
import Linefold.Proofs.Turns.Scopes
import Linefold.Proofs.Naming.Texts
import Linefold.Proofs.Turns.Reading
import Linefold.Proofs.Chains.Parsing
import Linefold.Proofs.Tables.Unfolding
import Linefold.Proofs.Scanning.Tiling
import Linefold.Proofs.Scanning.Joining
import Linefold.Proofs.Turns.Floor
import Linefold.Proofs.Headers.Words
import Linefold.Proofs.Headers.Scopes
import Linefold.Proofs.Headers.Closing
import Linefold.Proofs.Headers.Recorded
import Linefold.Proofs.Scanning.Cursor
import Linefold.Proofs.Folding.Stacks
import Linefold.Proofs.Scoping.Nesting
import Linefold.Proofs.Trees.Texts
