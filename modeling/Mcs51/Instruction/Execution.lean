import Mcs51.Instruction.Effect
import Mcs51.Instruction.Flow
import Mcs51.Interrupt
import Mcs51.Peripheral.Timer

/-!
# Executing an instruction

`execute` puts the two halves of an instruction together: its effect on memory and the line that
comes next. It fails only if the next line cannot be found, and then there is no new machine at
all. `step` adds what happens around an instruction, always in the same order: parity follows the
accumulator, the cycles are counted, the timers and then the transmitter advance by them, and an
interrupt that is due is entered.

How long an instruction takes depends on its mnemonic and on the kinds of its operands, and never
on the state of the machine: a branch takes the same time whether it is taken or not. Every
instruction takes one to four cycles. A word without a meaning takes one.
-/

namespace Mcs51

/-! ## 1. Machine cycles -/

namespace Cost

/-- A move takes one cycle between the accumulator and a register, or from a value to either. -/
def move : Option Operand → Option Operand → Nat
  | some .acc, some (.immediate _) | some .acc, some (.register _) => 1
  | some (.register _), some (.immediate _) | some (.register _), some .acc => 1
  | _, _ => 2

/-- Arithmetic takes one cycle with a value or a register. -/
def arithmetic : Option Operand → Nat
  | some (.immediate _) | some (.register _) => 1
  | _ => 2

/-- Counting down takes one cycle in a register. -/
def countDown : Option Operand → Nat
  | some (.register _) => 1
  | _ => 2

/-- Logic takes two cycles from a value to a byte by address, and on the carry flag. -/
def logic : Option Operand → Option Operand → Nat
  | some (.direct _), some (.immediate _) => 2
  | some op, _ => if op.isCarry then 2 else 1
  | none, _ => 1

/-- The machine cycles of an instruction. -/
def of (mnemonic : Mnemonic) (ops : List Operand) : Nat :=
  let dst := ops[0]?
  let src := ops[1]?
  match mnemonic with
  | .sjmp | .ljmp | .ajmp | .jmp | .acall | .lcall | .call | .ret | .reti | .push | .pop => 2
  | .jc | .jnc | .jz | .jnz | .jb | .jnb | .jbc | .cjne => 2
  | .mov => move dst src
  | .add | .addc | .subb => arithmetic src
  | .djnz => countDown dst
  | .mul | .div => 4
  | .anl | .orl | .xrl => logic dst src
  | _ => 1

end Cost

/-! ## 2. The instruction -/

/-- A machine after an instruction, before anything around it. -/
structure Executed where
  machine : Machine
  parityDone : Bool
  bufferWritten : Bool
  deriving DecidableEq

/-- A machine after a whole step, and the byte that was sent in it. -/
structure Stepped where
  machine : Machine
  sent : Option Byte
  deriving DecidableEq

namespace Machine

/-- An instruction by itself: its effect on memory, and the line after it. The mark of a running
routine goes with a `RETI`. -/
def execute (m : Machine) (symbols : Symbols) (mnemonic : Mnemonic) (ops : List Operand) :
    Except RunError Executed := do
  let next ← Flow.next symbols m.mem mnemonic ops m.pc
  let effect := Effect.of symbols m.mem mnemonic ops m.pc
  let machine : Machine :=
    { m with
      mem := effect.mem
      pc := next
      inInterrupt := m.inInterrupt && mnemonic ≠ .reti }
  return ⟨machine, effect.parityDone, effect.bufferWritten⟩

/-! ## 3. What happens around it -/

/-- The parity flag brought up to date where the accumulator changed from what it was before and
the instruction has not seen to it. -/
def followAcc (before : Byte) (done : Executed) : Machine :=
  if !done.parityDone && done.machine.mem.acc ≠ before then
    { done.machine with mem := done.machine.mem.refreshParity }
  else done.machine

/-- The peripherals go on by the cycles of an instruction: the timers first, then the transmitter.
-/
def advance (m : Machine) (cycles : Nat) (bufferWritten : Bool) : Stepped :=
  let ticked := m.transmitter.tick (Timer.tick cycles m.mem) cycles bufferWritten
  ⟨{ m with
     mem := ticked.mem
     cycles := m.cycles + cycles
     transmitter := ticked.transmitter }, ticked.sent⟩

/-- An instruction with all that happens around it. `vectorLine` gives the line of a vector. -/
def step (m : Machine) (symbols : Symbols) (vectorLine : Word → Nat) (mnemonic : Mnemonic)
    (ops : List Operand) : Except RunError Stepped := do
  let done ← m.execute symbols mnemonic ops
  let advanced := (followAcc m.mem.acc done).advance (Cost.of mnemonic ops) done.bufferWritten
  return ⟨advanced.machine.takeInterrupt vectorLine, advanced.sent⟩

end Machine
end Mcs51
