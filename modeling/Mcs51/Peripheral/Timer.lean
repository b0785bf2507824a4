import Mcs51.Memory
import Mcs51.Sfr

/-!
# Timers

Each of the two timers is a pair of bytes that counts machine cycles while its run bit is set. Two
bits of the mode register say how:

* mode 0: 13 bits, five of them in the upper byte;
* mode 1: 16 bits;
* mode 2: the lower byte counts, and the upper byte is what it goes on from when it overflows;
* mode 3: both bytes of timer 0 count on their own, the upper one as if it were timer 1; timer 1
  itself stands still.

An overflow sets the flag of the timer and nothing ever clears it here. Timer 0 is advanced before
timer 1.
-/

namespace Mcs51

/-- One of the two timers. -/
inductive Timer
  | t0
  | t1
  deriving DecidableEq, Repr

namespace Timer

/-! ## 1. Where a timer lives -/

/-- The bit of the control register that lets a timer count. -/
def runBit : Timer → Byte
  | .t0 => Sfr.tr0
  | .t1 => Sfr.tr1

/-- The bit of the control register that tells an overflow. -/
def overflowFlag : Timer → Byte
  | .t0 => Sfr.tf0
  | .t1 => Sfr.tf1

/-- The address of the lower byte. -/
def low : Timer → Byte
  | .t0 => Sfr.tl0
  | .t1 => Sfr.tl1

/-- The address of the upper byte. -/
def high : Timer → Byte
  | .t0 => Sfr.th0
  | .t1 => Sfr.th1

/-- The mode of a timer: the two lowest bits of its half of the mode register. -/
def mode (tmod : Byte) : Timer → Fin 4
  | .t0 => (tmod.extractLsb' 0 2).toFin
  | .t1 => (tmod.extractLsb' 4 2).toFin

/-- Whether a timer counts. -/
def running (m : Memory) (t : Timer) : Bool := m.read Sfr.tcon &&& t.runBit != 0

/-- The memory with the overflow flag of a timer set if it overflowed. -/
def flagOverflow (t : Timer) (overflowed : Bool) (m : Memory) : Memory :=
  if overflowed then m.modify Sfr.tcon (· ||| t.overflowFlag) else m

/-! ## 2. Counting -/

/-- The bytes of a timer after counting, and whether it overflowed. -/
structure Counted where
  high : Byte
  low : Byte
  overflowed : Bool
  deriving DecidableEq

/-- Counts in thirteen bits. The three upper bits of the upper byte are lost. -/
def count13 (cycles : Nat) (high low : Byte) : Counted :=
  let value := 256 * (high.toNat % 32) + low.toNat + cycles
  ⟨BitVec.ofNat 8 (value / 256 % 32), BitVec.ofNat 8 value, 0x1FFF < value⟩

/-- Counts in sixteen bits. -/
def count16 (cycles : Nat) (high low : Byte) : Counted :=
  let value := 256 * high.toNat + low.toNat + cycles
  ⟨BitVec.ofNat 8 (value / 256), BitVec.ofNat 8 value, 0xFFFF < value⟩

/-- Counts in one byte. The flag says whether it overflows. -/
def countByte (cycles : Nat) (value : Byte) : Byte × Bool :=
  (BitVec.ofNat 8 (value.toNat + cycles), 0xFF < value.toNat + cycles)

/-- One count in a byte that goes on from `reload`. -/
def reloadOnce (reload value : Byte) : Byte := if value = 0xFF then reload else value + 1

/-- Counts in one byte that goes on from `reload`. The flag says whether it has overflowed yet. -/
def countReload (reload : Byte) : Nat → Byte → Bool → Byte × Bool
  | 0, value, overflowed => (value, overflowed)
  | cycles + 1, value, overflowed =>
    countReload reload cycles (reloadOnce reload value) (overflowed || value == 0xFF)

/-- The memory with both bytes of a timer as they were counted. -/
def store (t : Timer) (counted : Counted) (m : Memory) : Memory :=
  t.flagOverflow counted.overflowed ((m.write t.high counted.high).write t.low counted.low)

/-- The memory with a single byte as it was counted. -/
def storeByte (t : Timer) (addr : Byte) (counted : Byte × Bool) (m : Memory) : Memory :=
  t.flagOverflow counted.2 (m.write addr counted.1)

/-! ## 3. Timers -/

/-- The upper byte of timer 0 counting on its own, under the run bit and the flag of timer 1. -/
def tickSplitHigh (cycles : Nat) (m : Memory) : Memory :=
  if running m .t1 then storeByte .t1 Sfr.th0 (countByte cycles (m.read Sfr.th0)) m else m

/-- The lower byte of timer 0 counting on its own. -/
def tickSplitLow (cycles : Nat) (m : Memory) : Memory :=
  if running m .t0 then storeByte .t0 Sfr.tl0 (countByte cycles (m.read Sfr.tl0)) m else m

/-- A timer advanced in one of the modes in which both of its bytes belong together. -/
def tickPaired (t : Timer) (mode : Fin 4) (cycles : Nat) (m : Memory) : Memory :=
  let high := m.read t.high
  let low := m.read t.low
  match mode with
  | 0 => t.store (count13 cycles high low) m
  | 1 => t.store (count16 cycles high low) m
  | _ => t.storeByte t.low (countReload high cycles low false) m

/-- One timer advanced by some cycles, in the mode that it is in. -/
def tickOne (t : Timer) (cycles : Nat) (m : Memory) : Memory :=
  match t, t.mode (m.read Sfr.tmod) with
  | .t0, 3 => tickSplitLow cycles (tickSplitHigh cycles m)
  | .t1, 3 => m
  | t, mode => if running m t then tickPaired t mode cycles m else m

/-- Both timers advanced by some cycles. -/
def tick (cycles : Nat) (m : Memory) : Memory := tickOne .t1 cycles (tickOne .t0 cycles m)

end Timer
end Mcs51
