import Mcs51.KeyStream
import Mcs51.Memory.Registers
import Mcs51.Peripheral.Transmitter

/-!
# Machines

Everything that running a program changes: memory, the program counter, the count of machine
cycles, the transmitter, and whether an interrupt routine is running. A machine is made whole by a
load or a reset. Only RAM depends on how it is filled then: the special function registers are zero
but for the pin latches, which start high, and the stack pointer.

RAM can be filled at random. Where random bytes come from is outside of this library, so whatever
makes a machine is given the bytes that would be drawn, and is a function of them. One fill takes
the bytes as they are drawn and the others do without them (`RamFill.ram_eq_iff`).
-/

namespace Mcs51

/-! ## 1. Memory at the start -/

/-- The bytes of RAM, from address zero up. -/
abbrev Ram := Vector Byte 128

/-- The same byte everywhere. -/
def Ram.filled (value : Byte) : Ram := Vector.replicate 128 value

/-- How RAM is filled when a machine is made. -/
inductive RamFill
  /-- With bytes drawn at random, which are others each time. -/
  | unseeded
  /-- With bytes that look random, and are the same each time for a seed. -/
  | seeded (seed : UInt64)
  | known (value : Byte)
  deriving DecidableEq, Repr

namespace RamFill

/-- The bytes that RAM is filled with, when `drawn` are the bytes that are drawn. -/
def ram (fill : RamFill) (drawn : Ram) : Ram :=
  match fill with
  | .unseeded => drawn
  | .seeded seed =>
    let bytes := (KeyStream.bytes seed 8).toArray
    Vector.ofFn fun i => bytes.getD i.val 0
  | .known value => .filled value

end RamFill

namespace Memory

/-- The lower half of a memory. -/
def ram (m : Memory) : Ram := Vector.ofFn fun i => m.read (BitVec.ofNat 8 i.val)

/-- The memory with RAM filled and every special function register zero. -/
def ofRam (fill : RamFill) (drawn : Ram := .filled 0) : Memory :=
  let bytes := fill.ram drawn
  ofFn fun addr => if h : addr.toNat < 128 then bytes[addr.toNat] else 0

/-- The memory of a machine that is made. -/
def initial (fill : RamFill) (drawn : Ram := .filled 0) : Memory :=
  (((((ofRam fill drawn).write Sfr.p0 0xFF).write Sfr.p1 0xFF).write Sfr.p2 0xFF).write
    Sfr.p3 0xFF).write Sfr.sp 0x07

end Memory

/-! ## 2. Machines -/

/-- The state of the chip. -/
structure Machine where
  mem : Memory
  /-- The program counter: an index into the lines of the program. -/
  pc : Nat
  cycles : Nat
  transmitter : Transmitter
  inInterrupt : Bool
  deriving DecidableEq

/-- The machine that a load or a reset makes: at the entry of the program, with no cycle counted. -/
def Machine.initial (fill : RamFill) (entry : Nat) (drawn : Ram := .filled 0) : Machine :=
  ⟨Memory.initial fill drawn, entry, 0, .idle, false⟩

end Mcs51
