import Mcs51.Byte

/-!
# Errors

There are two times at which a program can fail. Its source is refused for one of three reasons, and
always at a line; lines count from zero here and from one in messages. And a program that loads can
still fail when it runs: a jump may go to a name that labels no line, the source may have changed
under it, and a bit outside the special function registers cannot be driven.

An error says what is wrong, in `message`, and what to do about it, in `help`.
-/

namespace Mcs51

/-! ## 1. Errors in source -/

/-- Why a line is refused. -/
inductive LineError
  | unrecognizedSymbol
  | expectedMnemonic
  /-- An operand is indirect, but not through one of the two registers that can hold an address. -/
  | unsupportedIndirect (operand : String)
  deriving DecidableEq, Repr

namespace LineError

/-- What is wrong with the line, without its number. -/
def message : LineError → String
  | .unrecognizedSymbol => "unrecognized symbol"
  | .expectedMnemonic => "expected a mnemonic"
  | .unsupportedIndirect operand => "unsupported indirect operand " ++ operand

/-- What would be accepted there. -/
def help : LineError → String
  | .unrecognizedSymbol => "this char does not occur in any token in 8051 assembly"
  | .expectedMnemonic => "a line is `[LABEL:] MNEMONIC [OPERAND, ...]` or `NAME EQU VALUE`"
  | .unsupportedIndirect _ => "only @R0 and @R1 can be used for indirect addressing"

end LineError

/-- Why source is refused, and where. -/
structure LoadError where
  cause : LineError
  /-- The line, counted from zero. -/
  line : Nat
  deriving DecidableEq, Repr

namespace LoadError

/-- The number of the line, counted from one, and what is wrong with it. -/
def message (e : LoadError) : String :=
  "line " ++ Nat.repr (e.line + 1) ++ ": " ++ e.cause.message

def help (e : LoadError) : String := e.cause.help

end LoadError

/-! ## 2. Errors while running -/

/-- Why running, or driving a pin, fails. -/
inductive RunError
  | unresolvedLabel (name : String)
  | staleProgram
  | notAnSfr (addr : Byte)
  deriving DecidableEq, Repr

namespace RunError

/-- What stopped the run. -/
def message : RunError → String
  | .unresolvedLabel name => "unresolved label " ++ name
  | .staleProgram => "source was modified since the program was loaded"
  | .notAnSfr addr => hexByte addr ++ "H is not a special function register"

/-- What the user can do about it. -/
def help : RunError → String
  | .unresolvedLabel _ => "define the label, or check its spelling (labels are case-sensitive)"
  | .staleProgram => "reload the program to apply source changes"
  | .notAnSfr _ => "special function registers are at 80H-FFH"

end RunError
end Mcs51
