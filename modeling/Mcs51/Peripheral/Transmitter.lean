import Mcs51.Memory
import Mcs51.Sfr

/-!
# The serial transmitter

Writing the serial buffer starts a transmission that takes a number of machine cycles, set by timer
1 if it runs. When the time is over the buffer is sent, whatever it holds by then, and the flag for
it is set. Only one transmission is under way at a time, and writing the buffer again starts over.
A transmission can end and another begin in the same step; then the flag is clear afterwards.
-/

namespace Mcs51

/-- What the transmitter is doing. -/
inductive Transmitter
  | idle
  | sending (remaining : Nat)
  deriving DecidableEq, Repr

namespace Transmitter

/-- The cycles of a transmission while timer 1 stands still. -/
def defaultDuration : Nat := 120

/-- The cycles of a transmission: twelve for each count that timer 1 has to make before it
overflows. -/
def duration (m : Memory) : Nat :=
  if m.read Sfr.tcon &&& Sfr.tr1 != 0 then max 12 ((256 - (m.read Sfr.th1).toNat) * 12)
  else defaultDuration

/-- The cycles that are left of a transmission, if one is under way. -/
def remaining? : Transmitter → Option Nat
  | .idle => none
  | .sending remaining => some remaining

/-- The transmitter and memory after some cycles, and the byte that was sent in them. -/
structure Ticked where
  transmitter : Transmitter
  mem : Memory
  sent : Option Byte
  deriving DecidableEq

/-- Lets some cycles go by. A transmission that ends sends what the buffer holds, and sets the flag.
-/
def advance (cycles : Nat) (m : Memory) : Transmitter → Ticked
  | .idle => ⟨.idle, m, none⟩
  | .sending remaining =>
    if remaining ≤ cycles then
      ⟨.idle, m.modify Sfr.scon (· ||| Sfr.ti), some (m.read Sfr.sbuf)⟩
    else ⟨.sending (remaining - cycles), m, none⟩

/-- Starts a transmission, in place of one that is under way, and clears the flag. -/
def restart (ticked : Ticked) : Ticked :=
  ⟨.sending (duration ticked.mem), ticked.mem.modify Sfr.scon (· &&& ~~~Sfr.ti), ticked.sent⟩

/-- Lets the cycles of an instruction go by, and then starts a transmission if the instruction
wrote the serial buffer. -/
def tick (t : Transmitter) (m : Memory) (cycles : Nat) (bufferWritten : Bool) : Ticked :=
  if bufferWritten then restart (t.advance cycles m) else t.advance cycles m

end Transmitter
end Mcs51
