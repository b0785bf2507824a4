import Mcs51.Proofs.Frame

/-!
# Which instructions write the serial buffer

The effect of an instruction reports whether it wrote the serial buffer, and the report is made by
the one place that writes a byte by its address. This file says what the report means without
looking at the effect: `byteDestination` is the operand that an instruction writes as a byte, and
the report is made exactly when that operand is the buffer (`bufferWritten_iff`). Bits of the buffer
and pushes that run over it are not reported.
-/

namespace Mcs51
namespace Effect

/-- The operand that a move writes as a byte: none if either side is a bit. -/
def moveDestination (dst src : Option Operand) : Option Operand :=
  match src with
  | some (.bit _) => none
  | _ => dst

/-- The operand that a complement writes as a byte: none if it is a bit by its number. -/
def complementDestination (dst : Option Operand) : Option Operand :=
  match dst with
  | some (.direct (.expr text)) => if text.toList.head?.any Char.isDigit then none else dst
  | _ => dst

/-- The operand that an instruction writes as a byte, if it has one. -/
def byteDestination (mnemonic : Mnemonic) (ops : List Operand) : Option Operand :=
  match mnemonic with
  | .mov => moveDestination ops[0]? ops[1]?
  | .cpl => complementDestination ops[0]?
  | .inc | .dec | .anl | .orl | .xrl | .djnz | .pop => ops[0]?
  | .xch => ops[1]?
  | _ => none

theorem moveDestination_eq_dst {dst src : Option Operand} (h : ∀ b, src ≠ some (.bit b)) :
    moveDestination dst src = dst := by
  unfold moveDestination
  split
  · next b => exact absurd rfl (h b)
  · rfl

theorem complementDestination_eq_dst {dst : Option Operand}
    (h : ∀ text, dst ≠ some (.direct (.expr text))) : complementDestination dst = dst := by
  unfold complementDestination
  split
  · next text => exact absurd rfl (h text)
  · rfl

/-- Whether an operand is the serial buffer as a byte. -/
def isBuffer (symbols : Symbols) (m : Memory) (op : Option Operand) : Bool :=
  op.bind (Operand.byteAddr? symbols m) == some Sfr.sbuf

/-! ## 1. One byte -/

variable (symbols : Symbols) (m : Memory)

theorem setByte_bufferWritten (e : Effect) (op : Option Operand) (value : Byte) :
    (e.setByte symbols op value).bufferWritten =
      (e.bufferWritten || isBuffer symbols e.mem op) := by
  cases op with
  | none => simp [setByte, isBuffer]
  | some op =>
    cases op with
    | acc =>
      have hacc : (some Sfr.acc == some Sfr.sbuf) = false := by decide
      simp only [setByte, setAcc, isBuffer, Operand.byteAddr?, Option.bind_some, hacc,
        Bool.or_false]
    | bit b => simp [setByte, onMemory, isBuffer, Operand.byteAddr?]
    | ab | dptr | immediate | notBit => simp [setByte, isBuffer, Operand.byteAddr?]
    | register r => simp [setByte, write, isBuffer, Operand.byteAddr?]
    | indirect r => simp [setByte, write, isBuffer, Operand.byteAddr?]
    | direct d =>
      simp only [setByte, isBuffer, Operand.byteAddr?, Option.bind_some]
      cases d.addr? symbols with
      | none => simp
      | some addr => simp [write]

theorem setByte_ofMemory_bufferWritten (op : Option Operand) (value : Byte) :
    ((ofMemory m).setByte symbols op value).bufferWritten = isBuffer symbols m op := by
  rw [setByte_bufferWritten]
  rfl

/-- The stack pointer is neither a register nor what selects their bank, so taking a byte off the
stack leaves every operand where it was. -/
theorem byteAddr?_pop (op : Operand) : op.byteAddr? symbols m.pop = op.byteAddr? symbols m := by
  have hreg : ∀ r, m.pop.registerAddr r = m.registerAddr r := fun r => by
    unfold Memory.registerAddr Memory.psw
    rw [m.read_pop_of_ne (by decide)]
  cases op with
  | register r => simp only [Operand.byteAddr?, hreg]
  | indirect r =>
    have hne : Sfr.sp ≠ m.registerAddr r := (m.registerAddr_ne r (by decide)).symm
    simp only [Operand.byteAddr?, Memory.register, hreg, m.read_pop_of_ne hne]
  | acc | ab | dptr | immediate | bit | notBit | direct => rfl

theorem isBuffer_pop (op : Option Operand) : isBuffer symbols m.pop op = isBuffer symbols m op := by
  cases op with
  | none => rfl
  | some op => simp only [isBuffer, Option.bind_some, byteAddr?_pop]

/-! ## 2. One instruction -/

theorem move_bufferWritten (dst src : Option Operand) :
    (move symbols m dst src).bufferWritten = isBuffer symbols m (moveDestination dst src) := by
  unfold move
  split
  · unfold moveDestination
    split <;> rfl
  · unfold moveDestination
    split <;> rfl
  · rfl
  · rename_i hbit
    rw [setByte_ofMemory_bufferWritten, moveDestination_eq_dst hbit]

theorem count_bufferWritten (dst : Option Operand) (byteStep : Byte → Byte)
    (wordStep : Word → Word) :
    (count symbols m dst byteStep wordStep).bufferWritten = isBuffer symbols m dst := by
  unfold count
  split
  · rfl
  · exact setByte_ofMemory_bufferWritten symbols m _ _

theorem logic_bufferWritten (dst src : Option Operand) (onBit : Bool → Bool → Bool)
    (onByte : Byte → Byte → Byte) :
    (logic symbols m dst src onBit onByte).bufferWritten = isBuffer symbols m dst := by
  unfold logic
  split
  · rename_i hdst
    rw [hdst]
    rfl
  · exact setByte_ofMemory_bufferWritten symbols m _ _

theorem complement_bufferWritten (dst : Option Operand) :
    (complement symbols m dst).bufferWritten = isBuffer symbols m (complementDestination dst) := by
  unfold complement
  split
  · exact setByte_ofMemory_bufferWritten symbols m (some .acc) _
  · rfl
  · rename_i text
    by_cases hbit : text.toList.head?.any Char.isDigit
    · simp only [complementDestination, hbit, if_true]
      rfl
    · simp only [complementDestination, hbit, Bool.false_eq_true, if_false]
      exact setByte_ofMemory_bufferWritten symbols m _ _
  · rename_i hexpr
    rw [setByte_ofMemory_bufferWritten, complementDestination_eq_dst hexpr]

/-- **What the report means.** An instruction reports the buffer written exactly when the buffer is
    the operand that it writes as a byte. -/
theorem of_bufferWritten (mnemonic : Mnemonic) (ops : List Operand) (pc : Nat) :
    (of symbols m mnemonic ops pc).bufferWritten =
      isBuffer symbols m (byteDestination mnemonic ops) := by
  cases mnemonic <;> simp only [of, byteDestination]
  case mov => exact move_bufferWritten symbols m _ _
  case inc | dec => exact count_bufferWritten symbols m _ _ _
  case anl | orl | xrl => exact logic_bufferWritten symbols m _ _ _ _
  case cpl => exact complement_bufferWritten symbols m _
  case djnz => exact setByte_ofMemory_bufferWritten symbols m _ _
  case xch => exact setByte_ofMemory_bufferWritten symbols m _ _
  case pop => rw [setByte_bufferWritten, ofMemory, isBuffer_pop, Bool.false_or]
  case div =>
    unfold divide
    split <;> rfl
  case clr =>
    unfold clear
    split <;> rfl
  case jbc =>
    unfold clearIfSet
    split <;> rfl
  -- What is left writes memory without an operand, or only the accumulator, or nothing.
  all_goals rfl

end Effect
end Mcs51
