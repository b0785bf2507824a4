import Mcs51.Literal
import Mcs51.Operand
import Mcs51.Table

/-!
# Symbols and values

A source defines names: constants, which have a value, and code labels, which have a line. Both
share one table, and letter case counts. Whatever text stands for a number is resolved against
that table first and read as a literal only then; a text that is neither counts as zero, so
resolving never fails.
-/

namespace Mcs51

/-- What a name stands for. -/
inductive Symbol
  /-- A number, which is no place to jump to. -/
  | const (value : Int)
  | code (line : Nat)
  deriving DecidableEq, Repr

/-- The number that a symbol stands for: a label counts as the index of its line. -/
def Symbol.value : Symbol → Int
  | .const value => value
  | .code line => line

/-- The names of a program. -/
abbrev Symbols := Table String Symbol

namespace Symbols

/-- The number that a name stands for. -/
def value? (symbols : Symbols) (name : String) : Option Int :=
  (symbols.get? name).map Symbol.value

/-- The line of a code label. A constant has none. -/
def lineOf? (symbols : Symbols) (name : String) : Option Nat :=
  match symbols.get? name with
  | some (.code line) => some line
  | _ => none

/-- A text without blanks around it, and without the marker of a value. -/
def bareText (text : String) : List Char :=
  match Text.trim text.toList with
  | '#' :: rest => Text.trim rest
  | trimmed => trimmed

/-- The number that a text stands for: the value of a symbol, or else of a literal, or else zero. -/
def resolve (symbols : Symbols) (text : String) : Int :=
  let bare := bareText text
  match symbols.value? (String.ofList bare) with
  | some value => value
  | none =>
    match Literal.read bare with
    | .ok value => value
    | .error _ => 0

/-- The number that an operand names. Only values, expressions and special function registers
name one; everything else counts as zero. -/
def valueOf (symbols : Symbols) : Operand → Int
  | .immediate text => symbols.resolve text
  | .direct (.expr text) => symbols.resolve text
  | .direct (.sfr addr) => addr.toNat
  | _ => 0

end Symbols
end Mcs51
