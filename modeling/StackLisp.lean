import StackLisp.Main
import StackLisp.Proofs.Actions.Compiler
import StackLisp.Proofs.Actions.Congruence
import StackLisp.Proofs.Actions.Machine
import StackLisp.Proofs.Actions.Steady
import StackLisp.Proofs.Actions.Watched
import StackLisp.Proofs.Arithmetic
import StackLisp.Proofs.Audit
import StackLisp.Proofs.Balance
import StackLisp.Proofs.Binding
import StackLisp.Proofs.ConstantDepth
import StackLisp.Proofs.Constants
import StackLisp.Proofs.Definition
import StackLisp.Proofs.Disassembly
import StackLisp.Proofs.DynamicScope
import StackLisp.Proofs.Endless
import StackLisp.Proofs.Equality
import StackLisp.Proofs.ExitWalk
import StackLisp.Proofs.LexicalScope
import StackLisp.Proofs.Outcome
import StackLisp.Proofs.RestParameters
import StackLisp.Proofs.Safety.Access
import StackLisp.Proofs.Safety.Builtin
import StackLisp.Proofs.Safety.Call
import StackLisp.Proofs.Safety.Code
import StackLisp.Proofs.Safety.Emit
import StackLisp.Proofs.Safety.Evaluation
import StackLisp.Proofs.Safety.Exit
import StackLisp.Proofs.Safety.Form
import StackLisp.Proofs.Safety.Growth
import StackLisp.Proofs.Safety.History
import StackLisp.Proofs.Safety.Lambda
import StackLisp.Proofs.Safety.Memory
import StackLisp.Proofs.Safety.Nesting
import StackLisp.Proofs.Safety.Noted
import StackLisp.Proofs.Safety.Operator
import StackLisp.Proofs.Safety.Reading
import StackLisp.Proofs.Safety.Separation
import StackLisp.Proofs.Safety.Session
import StackLisp.Proofs.Safety.Snapshot
import StackLisp.Proofs.Safety.Sound
import StackLisp.Proofs.Safety.Step
import StackLisp.Proofs.Safety.Target
import StackLisp.Proofs.Safety.Trail
import StackLisp.Proofs.Safety.Unwind
import StackLisp.Proofs.Safety.Watch
import StackLisp.Proofs.StackDiscipline
import StackLisp.Proofs.StepLimit
import StackLisp.Proofs.Streams.CallSites
import StackLisp.Proofs.Streams.Unchanged
import StackLisp.Proofs.TailCall
import StackLisp.Proofs.Text.FormByForm
import StackLisp.Proofs.Text.Layout
import StackLisp.Proofs.Text.Name
import StackLisp.Proofs.Text.RoundTrip
import StackLisp.Proofs.Text.Substitution
import StackLisp.Proofs.Text.Unmarked
