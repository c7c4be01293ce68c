import StackMachine.Main
import StackMachine.Proofs.Assembler.Refusals
import StackMachine.Proofs.Assembler.Scoping
import StackMachine.Proofs.Assembly.Patching
import StackMachine.Proofs.Command.Loading
import StackMachine.Proofs.Diagnostic.Classes
import StackMachine.Proofs.Diagnostic.Colour
import StackMachine.Proofs.Instruction.Disassembled
import StackMachine.Proofs.Listing.ErrorPlaces
import StackMachine.Proofs.Listing.LineTable
import StackMachine.Proofs.Listing.WrittenText
import StackMachine.Proofs.Machine.ControlFlow
import StackMachine.Proofs.Machine.Failure
import StackMachine.Proofs.Machine.Hashes
import StackMachine.Proofs.Machine.Origins
import StackMachine.Proofs.Machine.Reuse
import StackMachine.Proofs.Machine.Scopes
import StackMachine.Proofs.Machine.StackEffect
import StackMachine.Proofs.Machine.Trace
import StackMachine.Proofs.Value.InsertionOrder
import StackMachine.Proofs.Value.Nesting
import StackMachine.Proofs.Value.OwnEntries
import StackMachine.Proofs.Value.Prototypes
import StackMachine.Proofs.Value.Readability
import StackMachine.Proofs.Value.Visibility
import StackMachine.Proofs.Variables.LockStep
