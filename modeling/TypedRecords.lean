import TypedRecords.Foreign.Call
import TypedRecords.Main
import TypedRecords.Proofs.Eval.Simulation
import TypedRecords.Proofs.Outcome
import TypedRecords.Proofs.Resolve.Filled
import TypedRecords.Proofs.Resolve.Visit
import TypedRecords.Proofs.Resolve.Solution
import TypedRecords.Proofs.Draft.Items
import TypedRecords.Proofs.Inherit.Lineage
import TypedRecords.Proofs.Inherit.Linear
import TypedRecords.Proofs.Run.Invariant
import TypedRecords.Proofs.Superclass.Closed
import TypedRecords.Proofs.Superclass.Exact
import TypedRecords.Proofs.Value.Conforms
import TypedRecords.Proofs.Eval.Ensures
import TypedRecords.Proofs.Typing.Written
import TypedRecords.Proofs.Typing.Bound
import TypedRecords.Proofs.Typing.WellTyped
import TypedRecords.Proofs.Reference.Placed
import TypedRecords.Proofs.Reference.Resolved
import TypedRecords.Proofs.Typing.ClassTyped
import TypedRecords.Proofs.Resolve.Built
import TypedRecords.Proofs.Unset.Follows
import TypedRecords.Proofs.Unset.Evaluate
import TypedRecords.Proofs.Unset.Inherit
import TypedRecords.Proofs.Unset.Finish
import TypedRecords.Proofs.Unset.ClassRecord
import TypedRecords.Proofs.Include.Splice
import TypedRecords.Proofs.Scope.Moved
import TypedRecords.Proofs.Reading.RoundTrip
import TypedRecords.Proofs.Reading.WholeWords
import TypedRecords.Proofs.Reading.Numbers
import TypedRecords.Proofs.Run.Kept
import TypedRecords.Proofs.Run.Extended
import TypedRecords.Proofs.Together.Run
import TypedRecords.Proofs.Rename.Parameters
import TypedRecords.Proofs.Exchange.Defs
import TypedRecords.Proofs.Foreign.Outstanding
import TypedRecords.Proofs.Inherit.Shape
import TypedRecords.Proofs.Superclass.Shape
import TypedRecords.Proofs.Run.DefaultInstance
import TypedRecords.Proofs.Place.Errors
import TypedRecords.Proofs.Foreign.ParsedOnce
import TypedRecords.Proofs.Value.Projection
import TypedRecords.Proofs.Value.Word
import TypedRecords.Proofs.Eval.Environment
import TypedRecords.Proofs.Include.Conservative
import TypedRecords.Proofs.Inherit.SpelledOut
import TypedRecords.Proofs.Superclass.CommonType
import TypedRecords.Proofs.Typing.BitWidth
import TypedRecords.Proofs.Cursor.Items
import TypedRecords.Proofs.Cursor.Fields
import TypedRecords.Proofs.Foreign.Getters
import TypedRecords.Proofs.Settings.KeyByKey
import TypedRecords.Proofs.CommandLine
import TypedRecords.Proofs.RuleFile.File
