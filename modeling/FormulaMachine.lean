import FormulaMachine.Main
import FormulaMachine.Proofs.Cell.Lifecycle
import FormulaMachine.Proofs.Code.Assembly
import FormulaMachine.Proofs.Compilation.Layout
import FormulaMachine.Proofs.Discovery.FirstUses
import FormulaMachine.Proofs.Execution.Targets
import FormulaMachine.Proofs.Inlining.Formulas
import FormulaMachine.Proofs.Kinds.StackUse
import FormulaMachine.Proofs.Literals
import FormulaMachine.Proofs.Number.Remainder
import FormulaMachine.Proofs.Parsing.Depth
import FormulaMachine.Proofs.Parsing.Faults
import FormulaMachine.Proofs.Session.Names
import FormulaMachine.Proofs.Text.Underline
