import Mcs51.Machine

/-!
# Breakpoints

A breakpoint is a condition on a machine: the line it is at, or a byte (the accumulator, a register
of the selected bank, or any byte by address) compared with a value.
-/

namespace Mcs51

/-! ## 1. Comparisons -/

/-- A comparison of a byte with a fixed value. -/
inductive Comparison
  | never
  | lt (value : Byte)
  | eq (value : Byte)
  | le (value : Byte)
  | gt (value : Byte)
  | ne (value : Byte)
  | ge (value : Byte)
  | always
  deriving DecidableEq, Repr

namespace Comparison

/-- Whether a byte compares so. -/
def holds : Comparison → Byte → Bool
  | .never, _ => false
  | .lt value, x => x < value
  | .eq value, x => x = value
  | .le value, x => x ≤ value
  | .gt value, x => value < x
  | .ne value, x => x ≠ value
  | .ge value, x => value ≤ x
  | .always, _ => true

/-- A comparison as it is written, with its value in hexadecimal. -/
def render : Comparison → String
  | .never => "never"
  | .lt value => "< " ++ hexByte value ++ "H"
  | .eq value => "== " ++ hexByte value ++ "H"
  | .le value => "<= " ++ hexByte value ++ "H"
  | .gt value => "> " ++ hexByte value ++ "H"
  | .ne value => "!= " ++ hexByte value ++ "H"
  | .ge value => ">= " ++ hexByte value ++ "H"
  | .always => "always"

end Comparison

/-! ## 2. Breakpoints -/

/-- A condition at which a run stops. -/
inductive Breakpoint
  | line (index : Nat)
  | acc (cmp : Comparison)
  | register (r : Register) (cmp : Comparison)
  | mem (addr : Byte) (cmp : Comparison)
  deriving DecidableEq, Repr

namespace Breakpoint

/-- Whether a machine meets a breakpoint. A register is that of the bank selected then. -/
def isMet (m : Machine) : Breakpoint → Bool
  | .line index => index = m.pc
  | .acc cmp => cmp.holds m.mem.acc
  | .register r cmp => cmp.holds (m.mem.register r)
  | .mem addr cmp => cmp.holds (m.mem.read addr)

/-- A breakpoint as it is written. Lines count from one. -/
def render : Breakpoint → String
  | .line index => "line " ++ Nat.repr (index + 1)
  | .acc cmp => "A " ++ cmp.render
  | .register r cmp => r.render ++ " " ++ cmp.render
  | .mem addr cmp => "mem[" ++ hexByte addr ++ "H] " ++ cmp.render

def describe (bp : Breakpoint) : String := "Breakpoint(" ++ bp.render ++ ")"

end Breakpoint
end Mcs51
