import Mcs51.Mnemonic
import Mcs51.Operand.Reading
import Mcs51.Text

/-!
# Lines

A line of source that holds anything: a label, a mnemonic with its operands, or both. A constant
definition is a line too; its label is the name of the constant, and its one operand is the value.

A line is read from its text up to the first semicolon, without the blanks around it; nothing left
means that there is no line. What is left is an optional label with its colon, a mnemonic, and
operands between commas. A constant is defined by a name, the word `EQU` and a value, and the value
is all the text behind that word.

Characters that make no token are refused in the label (anywhere before the first colon) and in
the place of the mnemonic. The order of the tests matters where a line has two faults: first the
label, then the constant, then the mnemonic, then the operands from left to right.
-/

namespace Mcs51

/-! ## 1. Lines -/

/-- One line of source. -/
structure Line where
  label : Option String
  mnemonic : Option Mnemonic
  operands : List Operand
  /-- Which line of the source this is, counted from zero. -/
  number : Nat
  deriving DecidableEq, Repr

namespace Line

/-- Whether a line has an instruction, which a directive is not. -/
def isExecutable (line : Line) : Bool :=
  match line.mnemonic with
  | some m => !m.isDirective
  | none => false

/-- Operands as they are written: a comma between any two. -/
def renderOperands (ops : List Operand) : String :=
  ", ".intercalate (ops.map Operand.render)

/-- The instruction of a line as it is written: the word and then the operands. -/
def instruction (line : Line) : String :=
  let word := (line.mnemonic.map Mnemonic.render).getD ""
  match line.operands with
  | [] => word
  | ops => word ++ " " ++ renderOperands ops

/-- A line as it is written. -/
def render (line : Line) : String :=
  match line.label with
  | some label => label ++ ": " ++ line.instruction
  | none => line.instruction

/-- The text of a source with the given lines. Each one is ended by a line feed, and a line that
holds nothing is empty. -/
def renderAll (lines : List (Option Line)) : String :=
  String.join (lines.map fun line => (line.map render).getD "" ++ "\n")

/-! ## 2. The parts of a text -/

/-- The text of a line that counts: what stands before the first semicolon. -/
def code (text : List Char) : List Char := Text.trim (text.takeWhile (· ≠ ';'))

/-- Whether characters that make no token stand before the first colon. -/
def brokenLabel (lexemes : List Lexeme) : Bool :=
  lexemes.any (fun l => l.token = some .colon) &&
    (lexemes.takeWhile fun l => l.token ≠ some .colon).any (fun l => l.token = none)

/-- The name and the rest of the lexemes of a constant definition: a name, then `EQU` in any
letter case. The number is the byte offset behind that word. -/
def constant? : List Lexeme → Option (String × Nat)
  | ⟨some (.ident name), _, _⟩ :: ⟨some (.ident word), _, stop⟩ :: _ =>
    if Text.upperString word = "EQU" then some (name, stop) else none
  | _ => none

/-- The label of a line, if it has one, and the lexemes behind it. -/
def splitLabel : List Lexeme → Option String × List Lexeme
  | ⟨some (.ident name), _, _⟩ :: ⟨some .colon, _, _⟩ :: rest => (some name, rest)
  | lexemes => (none, lexemes)

/-- The mnemonic of what stands behind the label, and the lexemes of the operands. -/
def splitMnemonic : List Lexeme → Except LineError (Option Mnemonic × List Lexeme)
  | [] => .ok (none, [])
  | ⟨some (.ident word), _, _⟩ :: rest => .ok (some (Mnemonic.ofWord word), rest)
  | ⟨none, _, _⟩ :: _ => .error .unrecognizedSymbol
  | _ => .error .expectedMnemonic

/-- The lexemes of each operand: the groups between commas that hold anything. -/
def operandGroups (lexemes : List Lexeme) : List (List Lexeme) :=
  (lexemes.splitOnP fun l => l.token = some .comma).filter (· ≠ [])

/-- The text that a group of lexemes spans, from its first to its last. -/
def groupText (code : List Char) (group : List Lexeme) : Except ReadFailure (List Char) :=
  let start := (group.head?.map (·.start)).getD 0
  let stop := (group.getLast?.map (·.stop)).getD 0
  ReadFailure.require (Text.slice? start stop code)

/-- The operand of one group. -/
def readOperand (code : List Char) (group : List Lexeme) : Except ReadFailure Operand := do
  let text ← groupText code group
  Operand.ofLexemes group text

/-! ## 3. Reading a line -/

/-- The definition of a constant, whose value is the text behind the word `EQU`. -/
def readConstant (code : List Char) (name : String) (stop number : Nat) :
    Except ReadFailure Line := do
  let value ← ReadFailure.require (Text.dropBytes? stop code)
  return ⟨some name, some .equ, [.immediate (String.ofList (Text.trim value))], number⟩

/-- A line that defines no constant: a label, a mnemonic and operands, each of which may be missing.
-/
def readInstruction (code : List Char) (lexemes : List Lexeme) (number : Nat) :
    Except ReadFailure Line := do
  let (label, rest) := splitLabel lexemes
  let (mnemonic, rest) ← (splitMnemonic rest).mapError .refused
  let operands ← (operandGroups rest).mapM (readOperand code)
  return ⟨label, mnemonic, operands, number⟩

/-- The line that the lexemes of a text make. -/
def ofLexemes (code : List Char) (lexemes : List Lexeme) (number : Nat) :
    Except ReadFailure Line :=
  if brokenLabel lexemes then .error (.refused .unrecognizedSymbol)
  else
    match constant? lexemes with
    | some (name, stop) => readConstant code name stop number
    | none => readInstruction code lexemes number

/-- The line that a text holds, if it holds one. -/
def read (text : List Char) (number : Nat) : Except ReadFailure (Option Line) :=
  let code := code text
  if code = [] then .ok none else (ofLexemes code (Token.lex code) number).map some

/-- The line that a text holds, if it holds one, or why it is refused. Reading never fails for
any reason other than a refusal, so the last case is there for totality alone. -/
def parse (text : List Char) (number : Nat) : Except LoadError (Option Line) :=
  match read text number with
  | .ok line => .ok line
  | .error (.refused cause) => .error ⟨cause, number⟩
  | .error .outsideText => .ok none

/-! ## 4. Sources -/

/-- Every line of a source, in order, or the first refusal. -/
def parseAll (source : List Char) : Except LoadError (List (Option Line)) :=
  (Text.lines source).zipIdx.mapM fun (text, number) => parse text number

end Line
end Mcs51
