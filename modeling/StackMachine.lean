import StackMachine.Emitter
import StackMachine.Proofs.Absence
import StackMachine.Proofs.Bookkeeping
import StackMachine.Proofs.Client
import StackMachine.Proofs.Composition
import StackMachine.Proofs.Expression
import StackMachine.Proofs.Failure
import StackMachine.Proofs.Folding
import StackMachine.Proofs.LockStep
import StackMachine.Proofs.PrefixFree
import StackMachine.Proofs.Quotient
import StackMachine.Proofs.Refusal
import StackMachine.Proofs.Reordering
import StackMachine.Proofs.Residue
import StackMachine.Proofs.Resolution
import StackMachine.Proofs.TableHistory
import StackMachine.Proofs.TraceDepth
import StackMachine.Proofs.ValueText
