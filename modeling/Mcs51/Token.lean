import Mcs51.Text

/-!
# Tokens

The units of a line. Three kinds carry their text: a number (anything that starts with a digit,
valid or not), a word, and a quoted text with its quotes. The others are single marks.

A `Lexeme` is a token where it stands. Characters that start no token still give a lexeme, one
with no token in it, because whether they matter is for the reader of the line to say.
-/

namespace Mcs51

/-- A unit of a line of source. -/
inductive Token
  /-- A digit and what follows it of letters, digits and underscores. -/
  | numeric (text : String)
  | ident (text : String)
  /-- A text between quotes, with the quotes. -/
  | quoted (text : String)
  | hash
  | atSign
  | dot
  | dollar
  | minus
  | slash
  | colon
  | comma
  deriving DecidableEq, Repr

/-- A token, or characters that make none, at its place in a line. -/
structure Lexeme where
  token : Option Token
  /-- The byte offset of the first character. -/
  start : Nat
  /-- The byte offset behind the last character. -/
  stop : Nat
  deriving DecidableEq, Repr

namespace Token

/-- A token as it is written. -/
def render : Token → String
  | .numeric text => text
  | .ident text => text
  | .quoted text => text
  | .hash => "#"
  | .atSign => "@"
  | .dot => "."
  | .dollar => "$"
  | .minus => "-"
  | .slash => "/"
  | .colon => ":"
  | .comma => ","

/-! ## 1. Characters -/

/-- Whether a character separates tokens and is none itself. -/
def isGap (c : Char) : Bool := c = ' ' || c = '\t' || c = '\r' || c = '\n'

/-- Whether a character starts a number. -/
def startsNumeric (c : Char) : Bool := '0' ≤ c && c ≤ '9'

/-- Whether a character goes on with a number. -/
def inNumeric (c : Char) : Bool :=
  startsNumeric c || ('A' ≤ c && c ≤ 'Z') || ('a' ≤ c && c ≤ 'z') || c = '_'

/-- Whether a character goes on with a word. -/
def inIdent (c : Char) : Bool := inNumeric c || c = '?'

/-- Whether a character starts a word. -/
def startsIdent (c : Char) : Bool := inIdent c && !startsNumeric c

/-- Whether a character opens a quoted text; the same one closes it. -/
def isQuote (c : Char) : Bool := c = '\'' || c = '"'

/-- Whether a character goes on with a text that `quote` opened. -/
def inQuoted (quote c : Char) : Bool := c ≠ quote && c ≠ '\n'

/-- The token of a single mark. -/
def ofMark? : Char → Option Token
  | '#' => some .hash
  | '@' => some .atSign
  | '.' => some .dot
  | '$' => some .dollar
  | '-' => some .minus
  | '/' => some .slash
  | ':' => some .colon
  | ',' => some .comma
  | _ => none

/-! ## 2. The first token of a text -/

/-- The token that a character starts, and the characters behind it that belong to the token. The
longest possible token is taken. A quoted text that is not closed on its line is no token, and
takes in the rest of the line. -/
def scan (c : Char) (rest : List Char) : Option Token × List Char :=
  if startsNumeric c then
    let tail := rest.takeWhile inNumeric
    (some (.numeric (String.ofList (c :: tail))), tail)
  else if startsIdent c then
    let tail := rest.takeWhile inIdent
    (some (.ident (String.ofList (c :: tail))), tail)
  else if isQuote c then
    let body := rest.takeWhile (inQuoted c)
    if (rest.drop body.length).head? = some c then
      let tail := body ++ [c]
      (some (.quoted (String.ofList (c :: tail))), tail)
    else (none, body)
  else (ofMark? c, [])

/-! ## 3. All tokens of a text -/

/-- The lexemes of a text that starts at a byte offset. -/
def lexFrom (start : Nat) : List Char → List Lexeme
  | [] => []
  | c :: rest =>
    if isGap c then lexFrom (start + c.utf8Size) rest
    else
      let found := scan c rest
      let stop := start + Text.byteLength (c :: found.2)
      ⟨found.1, start, stop⟩ :: lexFrom stop (rest.drop found.2.length)
termination_by text => text.length
decreasing_by
  · simp
  · simp only [List.length_drop, List.length_cons]
    omega

/-- The lexemes of a line, in order. -/
def lex (line : List Char) : List Lexeme := lexFrom 0 line

end Token
end Mcs51
