/-!
# Bytes and words

The chip's data is eight bits wide and its addresses are sixteen. Both are bit vectors, so
arithmetic wraps and single bits can be named. This file adds what the rest of the library asks
of them: the two halves of a word, the places and the parity of a byte, the two operations that set
flags, and hexadecimal.
-/

namespace Mcs51

/-- Eight bits: a cell of memory, or the address of one. -/
abbrev Byte := BitVec 8

/-- Sixteen bits: the data pointer, or an address in code. -/
abbrev Word := BitVec 16

/-! ## 1. Halves of a word -/

/-- The upper half of a word. -/
def highByte (w : Word) : Byte := BitVec.ofNat 8 (w.toNat / 256)

/-- The lower half of a word. -/
def lowByte (w : Word) : Byte := BitVec.ofNat 8 w.toNat

/-- The word with the given halves. -/
def wordOf (high low : Byte) : Word := BitVec.ofNat 16 (256 * high.toNat + low.toNat)

@[simp] theorem highByte_wordOf (high low : Byte) : highByte (wordOf high low) = high := by
  apply BitVec.eq_of_toNat_eq
  simp only [highByte, wordOf, BitVec.toNat_ofNat]
  omega

@[simp] theorem lowByte_wordOf (high low : Byte) : lowByte (wordOf high low) = low := by
  apply BitVec.eq_of_toNat_eq
  simp only [lowByte, wordOf, BitVec.toNat_ofNat]
  omega

/-- A word is its two halves. -/
@[simp] theorem wordOf_halves (w : Word) : wordOf (highByte w) (lowByte w) = w := by
  apply BitVec.eq_of_toNat_eq
  simp only [highByte, lowByte, wordOf, BitVec.toNat_ofNat]
  omega

/-! ## 2. Bits of a byte -/

/-- The place in a byte that a number gives: only its three lowest bits count. -/
def place (n : Nat) : Fin 8 := ⟨n % 8, Nat.mod_lt n (by decide)⟩

/-- Whether a byte has an odd number of one bits. -/
def parity (b : Byte) : Bool :=
  (List.range 8).foldl (fun odd i => odd ^^ b.getLsbD i) false

/-! ## 3. Addition and subtraction

Both take a carry in and give a byte, the carry (or borrow) out of the whole byte and out of its
lower half, and signed overflow. They are stated in numbers, so what a flag means is what its line
says. -/

namespace Alu

/-- What an addition or a subtraction gives. -/
structure Output where
  value : Byte
  /-- Carry, or borrow, out of the byte. -/
  carry : Bool
  /-- Carry, or borrow, out of the lower half of the byte. -/
  halfCarry : Bool
  overflow : Bool
  deriving DecidableEq, Repr

/-- The number in the lower half of a byte. -/
def lowHalf (x : Byte) : Nat := x.toNat % 16

/-- `a + v`, and one more with a carry. Signed overflow is a result whose sign is that of neither
operand, where both have the same. -/
def add (a v : Byte) (carry : Bool) : Output :=
  let value : Byte := BitVec.ofNat 8 (a.toNat + v.toNat + carry.toNat)
  { value
    carry := 0xFF < a.toNat + v.toNat + carry.toNat
    halfCarry := 0xF < lowHalf a + lowHalf v + carry.toNat
    overflow := a.msb == v.msb && a.msb != value.msb }

/-- `a - v`, and one less with a borrow. Signed overflow is a result that has not the sign of `a`,
where `v` has not either. -/
def subtract (a v : Byte) (borrow : Bool) : Output :=
  let value : Byte := BitVec.ofInt 8 ((a.toNat : Int) - v.toNat - borrow.toNat)
  { value
    carry := a.toNat < v.toNat + borrow.toNat
    halfCarry := lowHalf a < lowHalf v + borrow.toNat
    overflow := a.msb != v.msb && a.msb != value.msb }

end Alu

/-! ## 4. Hexadecimal -/

/-- The hexadecimal digit of a number below sixteen, in upper case. -/
def hexDigit (n : Nat) : Char :=
  if n < 10 then Char.ofNat (48 + n) else Char.ofNat (55 + n)

/-- A byte as two hexadecimal digits. -/
def hexByte (b : Byte) : String :=
  String.ofList [hexDigit (b.toNat / 16), hexDigit (b.toNat % 16)]

/-- A word as four hexadecimal digits. -/
def hexWord (w : Word) : String := hexByte (highByte w) ++ hexByte (lowByte w)

end Mcs51
