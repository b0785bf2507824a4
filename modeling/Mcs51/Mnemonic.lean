import Mcs51.Text

/-!
# Mnemonics

The words that open an instruction or a directive. They are read in any letter case. A word that
the table does not hold is kept, in upper case: it is not an error, and running it does nothing.

A directive is for the reader of the source and is never executed; stepping onto one only moves
past it. An unknown word counts as an instruction.
-/

namespace Mcs51

/-- An instruction or directive word. -/
inductive Mnemonic
  | org | equ | endOfSource | db
  | mov | add | addc | subb | inc | dec | mul | div | anl | orl | xrl
  | clr | setb | cpl | rl | rlc | rr | rrc | swap | xch
  | sjmp | ljmp | ajmp | jmp | jc | jnc | jz | jnz | jb | jnb | jbc | cjne | djnz
  | acall | lcall | call | ret | reti | push | pop | nop
  | other (name : String)
  deriving DecidableEq, Repr

namespace Mnemonic

/-- The words with a meaning. -/
def table : List (String × Mnemonic) :=
  [("ORG", .org), ("EQU", .equ), ("END", .endOfSource), ("DB", .db),
   ("MOV", .mov), ("ADD", .add), ("ADDC", .addc), ("SUBB", .subb), ("INC", .inc), ("DEC", .dec),
   ("MUL", .mul), ("DIV", .div), ("ANL", .anl), ("ORL", .orl), ("XRL", .xrl),
   ("CLR", .clr), ("SETB", .setb), ("CPL", .cpl), ("RL", .rl), ("RLC", .rlc), ("RR", .rr),
   ("RRC", .rrc), ("SWAP", .swap), ("XCH", .xch),
   ("SJMP", .sjmp), ("LJMP", .ljmp), ("AJMP", .ajmp), ("JMP", .jmp), ("JC", .jc), ("JNC", .jnc),
   ("JZ", .jz), ("JNZ", .jnz), ("JB", .jb), ("JNB", .jnb), ("JBC", .jbc), ("CJNE", .cjne),
   ("DJNZ", .djnz),
   ("ACALL", .acall), ("LCALL", .lcall), ("CALL", .call), ("RET", .ret), ("RETI", .reti),
   ("PUSH", .push), ("POP", .pop), ("NOP", .nop)]

/-- What a word stands for, in any letter case. -/
def ofWord (word : String) : Mnemonic :=
  let raised := Text.upperString word
  ((table.find? fun entry => entry.1 == raised).map (·.2)).getD (.other raised)

/-- A mnemonic as it is written, in upper case. -/
def render : Mnemonic → String
  | .other name => name
  | m => ((table.find? fun entry => entry.2 == m).map (·.1)).getD ""

/-- Whether the word has a meaning. -/
def isKnown : Mnemonic → Bool
  | .other _ => false
  | _ => true

/-- Whether this is a directive, which is never executed. -/
def isDirective : Mnemonic → Bool
  | .org | .equ | .endOfSource | .db => true
  | _ => false

end Mnemonic
end Mcs51
