import Mcs51.Mnemonic
import Mcs51.Operand.Access

/-!
# What an instruction does to memory

An instruction does two things that do not depend on each other: it changes memory, and it says
which line comes next. This file is the first half and `Mcs51.Instruction.Flow` the second. Both
start from the memory before the instruction. An effect never fails.

Besides the memory, an effect tells the rest of the step whether the parity flag is already up to
date and whether the serial buffer was written. Parity is brought up to date by every write to
the operand `A`; the accumulator written by its address is seen to later. The serial buffer counts
as written when it is the byte that an instruction's operand names, not when a bit of it changes
or the stack runs over it.
-/

namespace Mcs51

/-- Memory as an instruction leaves it, and what the rest of the step has to know. -/
structure Effect where
  mem : Memory
  parityDone : Bool
  bufferWritten : Bool
  deriving DecidableEq

namespace Effect

/-! ## 1. Writing -/

/-- A memory of which nothing else is to be said. -/
def ofMemory (m : Memory) : Effect := ⟨m, false, false⟩

/-- An effect with a further change to its memory. -/
def onMemory (e : Effect) (f : Memory → Memory) : Effect := { e with mem := f e.mem }

/-- The accumulator written by its name, which brings parity up to date. -/
def setAcc (e : Effect) (value : Byte) : Effect :=
  ⟨(e.mem.setAcc value).refreshParity, true, e.bufferWritten⟩

/-- A byte written to an address. -/
def write (e : Effect) (addr value : Byte) : Effect :=
  ⟨e.mem.write addr value, e.parityDone, e.bufferWritten || addr == Sfr.sbuf⟩

/-- A byte written to an operand. A bit takes the lowest bit of the byte, and what names no place
takes nothing. -/
def setByte (symbols : Symbols) (e : Effect) (op : Option Operand) (value : Byte) :
    Effect :=
  match op with
  | some .acc => e.setAcc value
  | some (.bit b) => e.onMemory (Operand.setBit symbols (some (.bit b)) (value.getLsbD 0))
  | some op =>
    match op.byteAddr? symbols e.mem with
    | some addr => e.write addr value
    | none => e
  | none => e

/-! ## 2. Families of instructions -/

section
variable (symbols : Symbols) (m : Memory)

/-- A move. A bit on either side makes it a move of one bit, and the data pointer takes sixteen
bits. -/
def move (dst src : Option Operand) : Effect :=
  match dst, src with
  | some .dptr, _ => ofMemory (m.setDptr (Operand.getWord symbols src))
  | some (.bit _), _ => ofMemory (Operand.setBit symbols dst (Operand.getBit symbols m src) m)
  | _, some (.bit _) => ofMemory (Operand.setBit symbols dst (Operand.getBit symbols m src) m)
  | _, _ => (ofMemory m).setByte symbols dst (Operand.getByte symbols m src)

/-- The three flags of an addition or subtraction. -/
def setAluFlags (out : Alu.Output) : Memory :=
  ((m.setFlag Psw.cyMask out.carry).setFlag Psw.acMask out.halfCarry).setFlag Psw.ovMask
    out.overflow

/-- An addition or subtraction: its flags, and its byte into the accumulator. -/
def arithmetic (out : Alu.Output) : Effect := (ofMemory (setAluFlags m out)).setAcc out.value

/-- A step up or down by one. The data pointer steps as one word. -/
def count (dst : Option Operand) (byteStep : Byte → Byte) (wordStep : Word → Word) : Effect :=
  match dst with
  | some .dptr => ofMemory (m.setDptr (wordStep m.dptr))
  | _ => (ofMemory m).setByte symbols dst (byteStep (Operand.getByte symbols m dst))

/-- The flags of a multiplication or division: no carry, and overflow as given. -/
def productFlags (overflow : Bool) (m : Memory) : Memory :=
  (m.setFlag Psw.cyMask false).setFlag Psw.ovMask overflow

/-- The product of the accumulator and `B`: its upper byte into `B`, its lower byte into the
accumulator. It overflows when the upper byte is needed. -/
def multiply : Effect :=
  let product : Word := BitVec.ofNat 16 (m.acc.toNat * m.b.toNat)
  ((ofMemory (m.setB (highByte product))).setAcc (lowByte product)).onMemory
    (productFlags (highByte product != 0))

/-- The quotient of the accumulator and `B` into the accumulator and the remainder into `B`.
Division by zero leaves both as they are and overflows. -/
def divide : Effect :=
  if m.b = 0 then (ofMemory m).onMemory (productFlags true)
  else
    (((ofMemory m).setAcc (m.acc / m.b)).onMemory fun m' => m'.setB (m.acc % m.b)).onMemory
      (productFlags false)

/-- A logical operation: on the carry flag and a bit if the destination is the carry flag, on two
bytes otherwise. A complemented bit is complemented here. -/
def logic (dst src : Option Operand) (onBit : Bool → Bool → Bool) (onByte : Byte → Byte → Byte) :
    Effect :=
  if dst = some (.bit (.named Sfr.carryBit)) then
    let bit :=
      match src with
      | some (.notBit _) => !Operand.getBit symbols m src
      | _ => Operand.getBit symbols m src
    ofMemory (m.setCarry (onBit m.carry bit))
  else
    (ofMemory m).setByte symbols dst
      (onByte (Operand.getByte symbols m dst) (Operand.getByte symbols m src))

/-- A zero written to the accumulator or to a bit. -/
def clear (dst : Option Operand) : Effect :=
  match dst with
  | some .acc => (ofMemory m).setAcc 0
  | _ => ofMemory (Operand.setBit symbols dst false m)

/-- The bit of an operand inverted. -/
def invertBit (dst : Option Operand) : Effect :=
  ofMemory (Operand.setBit symbols dst (!Operand.getBit symbols m dst) m)

/-- The complement of the accumulator, of a bit, or of a byte. An expression is a bit address if it
starts with a digit; a symbol or a special function register is a byte. -/
def complement (dst : Option Operand) : Effect :=
  match dst with
  | some .acc => (ofMemory m).setAcc (~~~m.acc)
  | some (.bit _) => invertBit symbols m dst
  | some (.direct (.expr text)) =>
    if text.toList.head?.any Char.isDigit then invertBit symbols m dst
    else (ofMemory m).setByte symbols dst (~~~Operand.getByte symbols m dst)
  | _ => (ofMemory m).setByte symbols dst (~~~Operand.getByte symbols m dst)

/-- A rotation through the carry flag: the accumulator and the flag together are nine bits. -/
def rotateThroughCarry (value : Byte) (out : Bool) : Effect :=
  (ofMemory (m.setCarry out)).setAcc value

/-- The accumulator and the byte of an operand, each in the place of the other. -/
def exchange (op : Option Operand) : Effect :=
  ((ofMemory m).setByte symbols op m.acc).setAcc (Operand.getByte symbols m op)

/-- A bit cleared if it was set. -/
def clearIfSet (op : Option Operand) : Effect :=
  if Operand.getBit symbols m op then ofMemory (Operand.setBit symbols op false m)
  else ofMemory m

/-! ## 3. Every instruction -/

/-- The effect of an instruction at the line `pc`. A mnemonic without an effect leaves memory as it
is. -/
def of (mnemonic : Mnemonic) (ops : List Operand) (pc : Nat) : Effect :=
  let dst := ops[0]?
  let src := ops[1]?
  match mnemonic with
  | .mov => move symbols m dst src
  | .add => arithmetic m (Alu.add m.acc (Operand.getByte symbols m src) false)
  | .addc => arithmetic m (Alu.add m.acc (Operand.getByte symbols m src) m.carry)
  | .subb => arithmetic m (Alu.subtract m.acc (Operand.getByte symbols m src) m.carry)
  | .inc => count symbols m dst (· + 1) (· + 1)
  | .dec => count symbols m dst (· - 1) (· - 1)
  | .mul => multiply m
  | .div => divide m
  | .anl => logic symbols m dst src and (· &&& ·)
  | .orl => logic symbols m dst src or (· ||| ·)
  | .xrl => logic symbols m dst src xor (· ^^^ ·)
  | .clr => clear symbols m dst
  | .setb => ofMemory (Operand.setBit symbols dst true m)
  | .cpl => complement symbols m dst
  | .rl => (ofMemory m).setAcc (m.acc.rotateLeft 1)
  | .rr => (ofMemory m).setAcc (m.acc.rotateRight 1)
  | .swap => (ofMemory m).setAcc (m.acc.rotateLeft 4)
  | .rlc => rotateThroughCarry m (m.acc <<< 1 ||| if m.carry then 0x01 else 0) (m.acc.getLsbD 7)
  | .rrc => rotateThroughCarry m (m.acc >>> 1 ||| if m.carry then 0x80 else 0) (m.acc.getLsbD 0)
  | .xch => exchange symbols m src
  | .jbc => clearIfSet symbols m dst
  | .cjne =>
    ofMemory (m.setCarry (Operand.getByte symbols m dst < Operand.getByte symbols m src))
  | .djnz => (ofMemory m).setByte symbols dst (Operand.getByte symbols m dst - 1)
  | .acall | .lcall | .call => ofMemory (m.pushWord (BitVec.ofNat 16 pc + 1))
  | .ret | .reti => ofMemory m.popWord
  | .push => ofMemory (m.push (Operand.getByte symbols m dst))
  | .pop => (ofMemory m.pop).setByte symbols dst m.top
  | .sjmp | .ljmp | .ajmp | .jmp | .jc | .jnc | .jz | .jnz | .jb | .jnb | .nop
  | .org | .equ | .endOfSource | .db | .other _ => ofMemory m

end

end Effect
end Mcs51
