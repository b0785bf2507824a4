import Mcs51.Memory.Registers
import Mcs51.Symbols

/-!
# What an operand names in memory

An operand names a byte (`byteAddr?`), a bit (`bitPlace?`), both or neither, and reading it follows
from that: a byte operand is read at its address, a bit operand as zero or one, a value as itself,
and whatever names nothing as zero. A direct expression is a byte address only if its number fits
in a byte. As a bit it is a bit address, while a special function register by its bare name is no
bit.

The complement of a bit names the same place as the bit. Only reading it as a byte complements;
`getBit` gives the bit as it is stored.

An instruction may lack operands, so readers take an optional one, and nothing reads as zero.
-/

namespace Mcs51

/-- The address that a direct operand gives, if its number is that of a byte. -/
def ByteRef.addr? (symbols : Symbols) : ByteRef → Option Byte
  | .sfr addr => some addr
  | .expr text =>
    let value := symbols.resolve text
    if 0 ≤ value ∧ value ≤ 255 then some (BitVec.ofInt 8 value) else none

/-- The place of a bit, if its byte has an address. -/
def BitRef.place? (symbols : Symbols) : BitRef → Option BitPlace
  | .named addr => some (BitPlace.ofBitAddr addr)
  | .field base bit => (base.addr? symbols).map fun byte => ⟨byte, bit⟩

namespace Operand

/-! ## 1. Places -/

/-- The address of the byte that an operand names. -/
def byteAddr? (symbols : Symbols) (m : Memory) : Operand → Option Byte
  | .acc => some Sfr.acc
  | .register r => some (m.registerAddr r)
  | .indirect r => some (m.register r)
  | .direct d => d.addr? symbols
  | _ => none

/-- The place of the bit that an operand names. A number or symbol is a bit address here. -/
def bitPlace? (symbols : Symbols) : Operand → Option BitPlace
  | .bit b => b.place? symbols
  | .notBit b => b.place? symbols
  | .direct (.expr text) => ((ByteRef.expr text).addr? symbols).map BitPlace.ofBitAddr
  | _ => none

/-! ## 2. Reading -/

/-- The bit that an operand names; no bit reads as clear. -/
def getBit (symbols : Symbols) (m : Memory) (op : Option Operand) : Bool :=
  match op.bind (bitPlace? symbols) with
  | some loc => m.bit loc
  | none => false

/-- The byte that an operand stands for. -/
def byteValue (symbols : Symbols) (m : Memory) : Operand → Byte
  | .immediate text => BitVec.ofInt 8 (symbols.resolve text)
  | .bit b => if getBit symbols m (some (.bit b)) then 1 else 0
  | .notBit b => if getBit symbols m (some (.notBit b)) then 0 else 1
  | op =>
    match op.byteAddr? symbols m with
    | some addr => m.read addr
    | none => 0

/-- The byte that an operand stands for; no operand reads as zero. -/
def getByte (symbols : Symbols) (m : Memory) (op : Option Operand) : Byte :=
  match op with
  | some op => op.byteValue symbols m
  | none => 0

/-- The number that an operand names as sixteen bits; no operand counts as zero. -/
def getWord (symbols : Symbols) (op : Option Operand) : Word :=
  match op with
  | some op => BitVec.ofInt 16 (symbols.valueOf op)
  | none => 0

/-! ## 3. Writing bits -/

/-- The memory with the bit of an operand set or cleared; where there is no bit nothing
changes. -/
def setBit (symbols : Symbols) (op : Option Operand) (on : Bool) (m : Memory) : Memory :=
  match op.bind (bitPlace? symbols) with
  | some loc => m.setBit loc on
  | none => m

end Operand
end Mcs51
