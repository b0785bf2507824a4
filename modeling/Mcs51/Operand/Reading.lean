import Mcs51.Literal
import Mcs51.Errors
import Mcs51.Operand
import Mcs51.Token

/-!
# Reading an operand

An operand is read from its tokens and from the text that they span. The tokens decide its kind
and the text is kept where a kind keeps text. Characters that make no token are allowed in a
value and in an expression: such a text stands for no number and counts as zero when it is used.

Cuts are by byte offset (`Mcs51.Text`) and a cut that does not fall between two characters
is a failure of its own, `outsideText`. The lexer's offsets never lead to one.
-/

namespace Mcs51

/-- Why reading stopped. -/
inductive ReadFailure
  | refused (cause : LineError)
  /-- A cut fell outside the text or inside a character. -/
  | outsideText
  deriving DecidableEq, Repr

namespace ReadFailure

/-- The text of a cut, which is a failure if there is none. -/
def require : Option (List Char) → Except ReadFailure (List Char)
  | some text => .ok text
  | none => .error .outsideText

end ReadFailure

namespace Operand

/-! ## 1. Words -/

/-- The byte that a word names: a special function register, or else an expression. -/
def directOf (name : String) : ByteRef :=
  match Sfr.address? name with
  | some addr => .sfr addr
  | none => .expr name

/-- The operand that a word by itself is, in any letter case. -/
def ofWord (name : String) : Operand :=
  match Register.ofName? name with
  | some r => .register r
  | none =>
    let raised := Text.upperString name
    if raised = "A" then .acc
    else if raised = "AB" then .ab
    else if raised = "DPTR" then .dptr
    else
      match Sfr.bitAddress? name with
      | some addr => .bit (.named addr)
      | none => .direct (directOf name)

/-- The place in a byte that a number gives: its three lowest bits, and zero if it is no number. -/
def bitIndex (digits : String) : Fin 8 :=
  match Literal.parse digits with
  | .ok n => place (BitVec.ofInt 8 n).toNat
  | .error _ => place 0

/-- The bit of a byte that digits give the place of. -/
def fieldOf (base : ByteRef) (digits : String) : Operand := .bit (.field base (bitIndex digits))

/-! ## 2. Operands -/

/-- A register that can hold an address: the first two. -/
def pointer? (name : String) : Option Register :=
  match Register.ofName? name with
  | some r => if r.val < 2 then some r else none
  | none => none

/-- An indirect operand through anything but the first two registers is refused. -/
def refuseIndirect (text : List Char) : Except ReadFailure Operand :=
  .error (.refused (.unsupportedIndirect (String.ofList text)))

/-- The complement of an operand, written as `text`. A number names a bit here; what is neither a
bit nor a number is kept as an expression with its mark. -/
def complement (text : List Char) : Operand → Operand
  | .bit b => .notBit b
  | .direct (.expr e) =>
    match Literal.parse e with
    | .ok n => .notBit (.named (BitVec.ofInt 8 n))
    | .error _ => .direct (.expr (String.ofList text))
  | _ => .direct (.expr (String.ofList text))

/-- The operand that tokens make, which span `text`. -/
def ofTokens : List Token → List Char → Except ReadFailure Operand
  | .hash :: _, text => do
    let value ← ReadFailure.require (Text.dropBytes? 1 text)
    return .immediate (String.ofList (Text.trim value))
  | [.atSign, .ident name], text =>
    match pointer? name with
    | some r => .ok (.indirect r)
    | none => refuseIndirect text
  | .atSign :: _, text => refuseIndirect text
  | .slash :: tokens, text => do
    let rest ← ReadFailure.require (Text.dropBytes? 1 text)
    let inner ← ofTokens tokens (Text.trimStart rest)
    return complement text inner
  | [.ident name], _ => .ok (ofWord name)
  | [.ident base, .dot, .numeric digits], _ => .ok (fieldOf (directOf base) digits)
  | [.numeric base, .dot, .numeric digits], _ => .ok (fieldOf (.expr base) digits)
  | _, text => .ok (.direct (.expr (String.ofList text)))

/-- The operand of a text that holds characters which make no token. -/
def ofRawText : List Char → Except ReadFailure Operand
  | '#' :: value => .ok (.immediate (String.ofList (Text.trim value)))
  | '@' :: rest => refuseIndirect ('@' :: rest)
  | text => .ok (.direct (.expr (String.ofList text)))

/-- The operand that lexemes make, which span `text`. -/
def ofLexemes (lexemes : List Lexeme) (text : List Char) : Except ReadFailure Operand :=
  match lexemes.mapM (·.token) with
  | some tokens => ofTokens tokens text
  | none => ofRawText text

end Operand
end Mcs51
