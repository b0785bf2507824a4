import Mcs51.Mnemonic
import Mcs51.Operand.Access
import Mcs51.Errors

/-!
# Which line comes next

The other half of an instruction: the line after it, read off the memory before it. Most
instructions go on to the following line. Jumps, calls and taken branches go to a target, which
is a name: the dollar sign is the line itself, and any other name has to be a code label, spelled
as the operand is shown. That is the only way an instruction can fail. A branch that is not taken
never looks at its target.
-/

namespace Mcs51
namespace Flow

/-- The name that a target operand gives; an absent one gives the empty name. -/
def targetName (op : Option Operand) : String := (op.map Operand.render).getD ""

/-- The line that a target operand names. A constant names none. -/
def target (symbols : Symbols) (pc : Nat) (op : Option Operand) : Except RunError Nat :=
  let name := targetName op
  if name = "$" then .ok pc
  else
    match symbols.lineOf? name with
    | some line => .ok line
    | none => .error (.unresolvedLabel name)

/-- Where an instruction goes: on to the following line, to a target, or to a given line. -/
inductive Exit
  | following
  | target (op : Option Operand)
  | line (index : Nat)
  deriving DecidableEq

/-- To a target if a condition holds, and on otherwise. -/
def branch (taken : Bool) (op : Option Operand) : Exit := if taken then .target op else .following

/-- Where an instruction goes, told from the memory before it. -/
def exit (symbols : Symbols) (m : Memory) (mnemonic : Mnemonic) (ops : List Operand) : Exit :=
  let dst := ops[0]?
  let src := ops[1]?
  match mnemonic with
  | .sjmp | .ljmp | .ajmp | .jmp | .acall | .lcall | .call => .target dst
  | .jc => branch m.carry dst
  | .jnc => branch (!m.carry) dst
  | .jz => branch (m.acc = 0) dst
  | .jnz => branch (m.acc ≠ 0) dst
  | .jb | .jbc => branch (Operand.getBit symbols m dst) src
  | .jnb => branch (!Operand.getBit symbols m dst) src
  | .cjne => branch (Operand.getByte symbols m dst ≠ Operand.getByte symbols m src) ops[2]?
  | .djnz => branch (Operand.getByte symbols m dst ≠ 1) src
  | .ret | .reti => .line m.topWord.toNat
  | _ => .following

/-- The line that an exit leads to from the line `pc`. -/
def Exit.resolve (symbols : Symbols) (pc : Nat) : Exit → Except RunError Nat
  | .following => .ok (pc + 1)
  | .target op => Flow.target symbols pc op
  | .line index => .ok index

/-- The line after an instruction at the line `pc`. -/
def next (symbols : Symbols) (m : Memory) (mnemonic : Mnemonic) (ops : List Operand)
    (pc : Nat) : Except RunError Nat :=
  (exit symbols m mnemonic ops).resolve symbols pc

end Flow
end Mcs51
