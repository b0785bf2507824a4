import Mcs51.Byte

/-!
# Internal memory

The 256 bytes that an instruction can reach. The lower half is RAM and the upper half holds the
special function registers; both are read and written the same way. A memory is its bytes
(`Memory.ext`), and the two lemmas on `write` say all there is to a write.

A single bit is a place in a byte. Bit addresses number the bits that instructions can name: the
first half runs through the sixteen bytes from `20H` on, and the second through the special function
registers whose address is a multiple of eight.
-/

namespace Mcs51

/-- The bytes of internal memory. -/
structure Memory where
  /-- One byte for each address. -/
  cells : Vector Byte 256
  deriving DecidableEq

namespace Memory

/-! ## 1. Reading and writing -/

/-- The memory that holds the given byte at each address. -/
def ofFn (f : Byte → Byte) : Memory := ⟨Vector.ofFn fun i => f (BitVec.ofFin i)⟩

/-- The memory that holds zero everywhere. -/
def zero : Memory := ofFn fun _ => 0

/-- The byte at an address. -/
def read (m : Memory) (addr : Byte) : Byte := m.cells[addr.toFin]

/-- The memory with the byte at an address replaced. -/
def write (m : Memory) (addr value : Byte) : Memory :=
  ⟨m.cells.set addr.toNat value addr.isLt⟩

/-- The memory with the byte at an address changed by a function of it. -/
def modify (m : Memory) (addr : Byte) (f : Byte → Byte) : Memory :=
  m.write addr (f (m.read addr))

/-- Two memories with the same bytes are the same. -/
@[ext] theorem ext {m m' : Memory} (h : ∀ addr, m.read addr = m'.read addr) : m = m' := by
  cases m with
  | mk cells =>
    cases m' with
    | mk cells' =>
      have : cells = cells' := by
        apply Vector.ext
        intro i hi
        exact h (BitVec.ofFin ⟨i, hi⟩)
      rw [this]

@[simp] theorem read_ofFn (f : Byte → Byte) (addr : Byte) : (ofFn f).read addr = f addr := by
  simp [read, ofFn]

@[simp] theorem read_zero (addr : Byte) : zero.read addr = 0 := by simp [zero]

/-- A write shows at its own address and nowhere else. -/
theorem read_write (m : Memory) (addr other value : Byte) :
    (m.write addr value).read other = if addr = other then value else m.read other := by
  simp only [read, write, Fin.getElem_fin, Vector.getElem_set, BitVec.val_toFin]
  by_cases h : addr = other
  · simp [h]
  · have : addr.toNat ≠ other.toNat := fun e => h (BitVec.eq_of_toNat_eq e)
    simp [h, this]

@[simp] theorem read_write_self (m : Memory) (addr value : Byte) :
    (m.write addr value).read addr = value := by
  simp [read_write]

theorem read_write_of_ne (m : Memory) {addr other : Byte} (value : Byte) (h : addr ≠ other) :
    (m.write addr value).read other = m.read other := by
  simp [read_write, h]

/-- Writing back what is there changes nothing. -/
@[simp] theorem write_read (m : Memory) (addr : Byte) : m.write addr (m.read addr) = m := by
  ext1 other
  by_cases h : addr = other
  · subst h; simp
  · simp [read_write, h]

/-- Writes to two addresses do not depend on their order. -/
theorem write_comm (m : Memory) {addr addr' : Byte} (value value' : Byte) (h : addr ≠ addr') :
    (m.write addr value).write addr' value' = (m.write addr' value').write addr value := by
  ext1 other
  simp only [read_write]
  by_cases ha : addr = other
  · have ha' : addr' ≠ other := fun e => h (ha.trans e.symm)
    simp [ha, ha']
  · simp [ha]

/-- Of two writes to one address the second counts. -/
@[simp] theorem write_write (m : Memory) (addr value value' : Byte) :
    (m.write addr value).write addr value' = m.write addr value' := by
  ext1 other
  simp only [read_write]
  split <;> rfl

/-! ## 2. Listing -/

/-- Every address with its byte, in ascending order. -/
def toList (m : Memory) : List (Byte × Byte) :=
  (List.range 256).map fun n => (BitVec.ofNat 8 n, m.read (BitVec.ofNat 8 n))

/-- The bytes that are not zero, in decimal: the address, a colon, and the value. -/
def render (m : Memory) : String :=
  let shown := (m.toList.filter fun cell => cell.2 ≠ 0).map fun cell =>
    Nat.repr cell.1.toNat ++ ": " ++ Nat.repr cell.2.toNat
  "\x7b" ++ ", ".intercalate shown ++ "\x7d"

end Memory

/-! ## 3. Single bits -/

/-- A byte and a place in it. -/
structure BitPlace where
  byte : Byte
  /-- The place in it, counted from the lowest bit. -/
  bit : Fin 8
  deriving DecidableEq, Repr

namespace BitPlace

/-- The bit that a bit address names. -/
def ofBitAddr (addr : Byte) : BitPlace :=
  ⟨if addr < 0x80 then 0x20 + addr / 8 else addr &&& 0xF8, place addr.toNat⟩

/-- The place in a byte that a number gives: only its three lowest bits count. -/
def ofByte (byte : Byte) (index : Nat) : BitPlace := ⟨byte, place index⟩

/-- The byte in which only this place is one. -/
def mask (loc : BitPlace) : Byte := 1 <<< loc.bit.val

end BitPlace

namespace Memory

/-- Whether a bit is one. -/
def bit (m : Memory) (loc : BitPlace) : Bool := m.read loc.byte &&& loc.mask != 0

/-- The memory with a bit set or cleared. -/
def setBit (m : Memory) (loc : BitPlace) (on : Bool) : Memory :=
  m.modify loc.byte fun b => if on then b ||| loc.mask else b &&& ~~~loc.mask

/-- The memory with a bit inverted. -/
def toggleBit (m : Memory) (loc : BitPlace) : Memory :=
  m.modify loc.byte fun b => b ^^^ loc.mask

end Memory
end Mcs51
