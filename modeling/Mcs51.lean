import Mcs51.Autorun
import Mcs51.Main
import Mcs51.Proofs.FailedStep
import Mcs51.Proofs.BoundedRun
import Mcs51.Proofs.BufferWrite
import Mcs51.Proofs.Transmission
import Mcs51.Proofs.SerialLine
import Mcs51.Proofs.Spelling
import Mcs51.Proofs.Jump
import Mcs51.Proofs.Nesting
import Mcs51.Proofs.TimerFlag
import Mcs51.Proofs.Parity
import Mcs51.Proofs.Staleness
import Mcs51.Proofs.Loading
import Mcs51.Proofs.RoundTrip
import Mcs51.Proofs.Renewal
import Mcs51.Proofs.Accounting
import Mcs51.Proofs.ProgramCounter
import Mcs51.Proofs.ClockedRun
import Mcs51.Proofs.SingleCycles
import Mcs51.Proofs.Arbitration
import Mcs51.Proofs.BitInstructions
import Mcs51.Proofs.CarryChain
import Mcs51.Proofs.BitSpace
import Mcs51.Proofs.ComplementedBit
import Mcs51.Proofs.DelayLoop
import Mcs51.Proofs.ConstantLine
import Mcs51.Proofs.Numeral
import Mcs51.Proofs.SpacedTokens
import Mcs51.Proofs.StackOrder
import Mcs51.Proofs.TransmissionStart
import Mcs51.Proofs.RaisedLine
import Mcs51.Proofs.Reloading
import Mcs51.Proofs.RegisterBanks
import Mcs51.Proofs.Slices
import Mcs51.Proofs.WellFormedLine
