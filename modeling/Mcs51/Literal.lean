import Mcs51.Text

/-!
# Numeric literals

A literal is hexadecimal with the suffix `H`, binary with the suffix `B`, decimal with no suffix,
or one character between single quotes. `H` is looked for first, so `0BH` is hexadecimal. A minus
sign may stand in front, with blanks after it.

Values are 64-bit signed integers, and digits are read from the left. Of a bad digit and a value
out of range the one that comes first is reported; a digit is judged before the value that it
would give. The digits themselves may carry one sign of their own. A leading minus is applied
to the value already read, so the least value of the range cannot be written with it, unless the
digits have the minus instead.
-/

namespace Mcs51

/-- Why a text is not a literal. -/
inductive LiteralError
  | empty
  | invalidHex
  | invalidBin
  /-- A digit is not decimal, or a quoted text is not one character long. -/
  | invalidDec
  | doesNotFit
  deriving DecidableEq, Repr

namespace LiteralError

def message : LiteralError → String
  | .empty => "empty numeric literal"
  | .invalidHex => "invalid hex literal"
  | .invalidBin => "invalid binary literal"
  | .invalidDec => "invalid decimal literal"
  | .doesNotFit => "numeric literal is too large"

def help : LiteralError → String
  | .empty => "there should be digits here"
  | .invalidHex => "a hex literal consists of 0-9, A-F and ends with 'H' (e.g., 0FFH)"
  | .invalidBin => "a binary literal consists of 0 and 1 and ends with 'B' (e.g., 1010B)"
  | .invalidDec => "a decimal literal only consists of digits 0-9"
  | .doesNotFit => "literals must be within [-9223372036854775808, 9223372036854775807]"

end LiteralError

namespace Literal

/-! ## 1. Digits -/

/-- The greatest value. -/
abbrev greatest : Nat := 9223372036854775807

/-- The value of a digit in the given base. Letters are digits in upper case only. -/
def digitValue? (base : Nat) (c : Char) : Option Nat :=
  let value :=
    if '0' ≤ c ∧ c ≤ '9' then c.toNat - 48
    else if 'A' ≤ c ∧ c ≤ 'Z' then c.toNat - 55
    else base
  if value < base then some value else none

/-- Reads digits on to a value, as long as the value stays within a limit. A character that is
no digit is reported as `bad`. -/
def readDigits (base limit : Nat) (bad : LiteralError) :
    Nat → List Char → Except LiteralError Nat
  | value, [] => .ok value
  | value, c :: rest =>
    match digitValue? base c with
    | none => .error bad
    | some digit =>
      if value * base + digit ≤ limit then readDigits base limit bad (value * base + digit) rest
      else .error .doesNotFit

/-- Reads digits behind at most one sign. -/
def readSigned (base : Nat) (bad : LiteralError) : List Char → Except LiteralError Int
  | [] => .error .empty
  | ['+'] => .error bad
  | ['-'] => .error bad
  | '+' :: digits => (readDigits base greatest bad 0 digits).map fun n => (n : Int)
  | '-' :: digits => (readDigits base (greatest + 1) bad 0 digits).map fun n => -(n : Int)
  | digits => (readDigits base greatest bad 0 digits).map fun n => (n : Int)

/-! ## 2. Literals -/

/-- A text without a last character, if that is how it ends. -/
def dropSuffix? (last : Char) (text : List Char) : Option (List Char) :=
  if text.getLast? = some last then some text.dropLast else none

/-- A number in the base that its last letter tells: sixteen for `H`, two for `B`, and ten
otherwise. -/
def readBased (text : List Char) : Except LiteralError Int :=
  let raised := Text.upper text
  match dropSuffix? 'H' raised with
  | some digits => readSigned 16 .invalidHex digits
  | none =>
    match dropSuffix? 'B' raised with
    | some digits => readSigned 2 .invalidBin digits
    | none => readSigned 10 .invalidDec raised

/-- What stands between two single quotes at the ends of a text. -/
def quoted? : List Char → Option (List Char)
  | '\'' :: rest => dropSuffix? '\'' rest
  | _ => none

/-- The value with the other sign, if the range holds it. -/
def negate (value : Int) : Except LiteralError Int :=
  if -value ≤ greatest then .ok (-value) else .error .doesNotFit

/-- A literal without blanks around it: a character between quotes, or a number. Blanks may follow a
minus sign. -/
def readTrimmed (text : List Char) : Except LiteralError Int :=
  match quoted? text with
  | some [c] => .ok c.toNat
  | some _ => .error .invalidDec
  | none =>
    match text with
    | '-' :: rest => readBased (Text.trimStart rest) >>= negate
    | _ => readBased text

/-- The value of a literal, with or without blanks around it. -/
def read (text : List Char) : Except LiteralError Int := readTrimmed (Text.trim text)

def parse (text : String) : Except LiteralError Int := read text.toList

end Literal
end Mcs51
