import Codewright.Main
import Codewright.Proofs.Activations
import Codewright.Proofs.Bytecode.Balance
import Codewright.Proofs.Bytecode.FoldedSize
import Codewright.Proofs.Bytecode.Order
import Codewright.Proofs.Bytecode.RoundTrip
import Codewright.Proofs.Bytecode.SlotPlaces
import Codewright.Proofs.Bytecode.Truncation
import Codewright.Proofs.ExactCounts
import Codewright.Proofs.ExactIntervals
import Codewright.Proofs.FoldedForm
import Codewright.Proofs.IntegerConstants
import Codewright.Proofs.InternalFaults
import Codewright.Proofs.Native.ImageReading
import Codewright.Proofs.Native.RegisterPlaces
import Codewright.Proofs.RegisterSharing
import Codewright.Proofs.SettledUses
import Codewright.Proofs.SureReturns
import Codewright.Proofs.Surface.Nesting
import Codewright.Proofs.Surface.WrittenIntegers
import Codewright.Proofs.Underlines
import Codewright.Proofs.Visibility
