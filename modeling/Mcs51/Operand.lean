import Mcs51.Sfr

/-!
# Operands

What an instruction works on, as a line of source names it: a register, a byte by address, a bit,
or a value. Expressions keep the text they were written with, because what they stand for is known
only beside a symbol table; `Mcs51.Symbols` resolves them.

`render` writes an operand back. It is canonical for what has a name (a special function register
or a named bit is shown by its name, in upper case, however it was written) and keeps the text of
the rest.
-/

namespace Mcs51

/-! ## 1. Registers -/

/-- A register of the selected bank, by its number. -/
abbrev Register := Fin 8

namespace Register

/-- The register with the given name, in any letter case. -/
def ofName? (name : String) : Option Register :=
  match name.toList with
  | [r, n] =>
    if (r = 'R' ∨ r = 'r') ∧ '0' ≤ n ∧ n ≤ '7' then some (place (n.toNat - 48)) else none
  | _ => none

/-- The register with the given number, if there is one. -/
def ofNat? (n : Nat) : Option Register := if h : n < 8 then some ⟨n, h⟩ else none

/-- A register by its name. -/
def render (r : Register) : String := String.ofList ['R', Char.ofNat (48 + r.val)]

end Register

/-! ## 2. Bytes and bits by address -/

/-- A byte named by its address. -/
inductive ByteRef
  | sfr (addr : Byte)
  /-- A number or a symbol, by its text. -/
  | expr (text : String)
  deriving DecidableEq, Repr

/-- A byte by the name of its register, or by its address, or as it was written. -/
def ByteRef.render : ByteRef → String
  | .sfr addr => (Sfr.name? addr).getD (hexByte addr ++ "H")
  | .expr text => text

/-- A bit. -/
inductive BitRef
  | named (addr : Byte)
  | field (base : ByteRef) (bit : Fin 8)
  deriving DecidableEq, Repr

/-- A bit by its name, or as a place in a byte. -/
def BitRef.render : BitRef → String
  | .named addr => (Sfr.bitName? addr).getD (hexByte addr ++ "H")
  | .field base bit => base.render ++ "." ++ String.ofList [Char.ofNat (48 + bit.val)]

/-! ## 3. Operands -/

/-- An operand of an instruction. -/
inductive Operand
  | acc
  | ab
  | dptr
  | register (r : Register)
  | indirect (r : Register)
  /-- A value, by its text without the marker. -/
  | immediate (text : String)
  | bit (b : BitRef)
  | notBit (b : BitRef)
  /-- A byte by address, or the label a jump goes to. -/
  | direct (d : ByteRef)
  deriving DecidableEq, Repr

namespace Operand

/-- Whether an operand is the accumulator by its name. -/
def isAcc : Operand → Bool
  | .acc => true
  | _ => false

/-- Whether an operand is the carry flag. -/
def isCarry (op : Operand) : Bool := op = .bit (.named Sfr.carryBit)

/-- An operand as it is written. -/
def render : Operand → String
  | .acc => "A"
  | .ab => "AB"
  | .dptr => "DPTR"
  | .register r => r.render
  | .indirect r => "@" ++ r.render
  | .immediate text => "#" ++ text
  | .bit b => b.render
  | .notBit b => "/" ++ b.render
  | .direct d => d.render

end Operand
end Mcs51
