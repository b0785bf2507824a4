/-!
# Texts

A text is a list of characters. Three things are asked of one. Some differences do not count: the
blanks around it, and the case of its letters. Blanks are the characters of Unicode's `White_Space`
property; case is that of the twenty-six Latin letters alone, so no other character changes when
letters are raised.

A text is taken apart, into lines and into slices. A line ends at a line feed, and a carriage return
directly before that line feed belongs to the ending; one anywhere else is an ordinary character.
The text after the last line feed is a line only if there is any. Slices go by byte offset into the
UTF-8 form, and a cut is made only between two characters: an offset inside a character, or past the
end of the text, has no cut and the answer is `none`.

And a text that may hold control characters is shown with them escaped: five have a short name
behind a backslash, quotes get a backslash of their own, and the rest are written by code point in
braces. Every other character stands for itself.
-/

namespace Mcs51.Text

/-! ## 1. Blanks -/

/-- The code points of Unicode's `White_Space` property, as ranges with both ends in them. -/
def blankRanges : List (Nat × Nat) :=
  [(0x09, 0x0D), (0x20, 0x20), (0x85, 0x85), (0xA0, 0xA0), (0x1680, 0x1680), (0x2000, 0x200A),
   (0x2028, 0x2029), (0x202F, 0x202F), (0x205F, 0x205F), (0x3000, 0x3000)]

/-- Whether a character is white space. -/
def isBlank (c : Char) : Bool :=
  blankRanges.any fun range => range.1 ≤ c.toNat && c.toNat ≤ range.2

/-- A text without the blanks it starts with. -/
def trimStart (text : List Char) : List Char := text.dropWhile isBlank

/-- A text without the blanks it ends with. -/
def trimEnd (text : List Char) : List Char := (text.reverse.dropWhile isBlank).reverse

/-- A text without the blanks around it. -/
def trim (text : List Char) : List Char := trimEnd (trimStart text)

/-! ## 2. Letter case -/

/-- A text with its Latin letters raised. -/
def upper (text : List Char) : List Char := text.map Char.toUpper

def upperString (s : String) : String := String.ofList (upper s.toList)

/-! ## 3. Lines -/

/-- A line without the carriage return that belongs to its ending, if there is one. -/
def dropReturn (line : List Char) : List Char :=
  if line.getLast? = some '\r' then line.dropLast else line

/-- The lines of a text, without their endings: every piece before the last line feed, and the
piece after it unless that is empty. -/
def lines (text : List Char) : List (List Char) :=
  let pieces := text.splitOn '\n'
  pieces.dropLast.map dropReturn ++ pieces.getLast?.toList.filter (· ≠ [])

/-! ## 4. Slices by byte offset -/

/-- The number of bytes of a text in UTF-8. -/
def byteLength : List Char → Nat
  | [] => 0
  | c :: text => c.utf8Size + byteLength text

@[simp] theorem byteLength_nil : byteLength [] = 0 := rfl

@[simp] theorem byteLength_cons (c : Char) (text : List Char) :
    byteLength (c :: text) = c.utf8Size + byteLength text := rfl

@[simp] theorem byteLength_append (front back : List Char) :
    byteLength (front ++ back) = byteLength front + byteLength back := by
  induction front with
  | nil => simp
  | cons c front ih => simp [ih, Nat.add_assoc]

/-- What is left of a text after its first `count` bytes. -/
def dropBytes? (count : Nat) : List Char → Option (List Char)
  | [] => if count = 0 then some [] else none
  | c :: text =>
    if count = 0 then some (c :: text)
    else if c.utf8Size ≤ count then dropBytes? (count - c.utf8Size) text
    else none

/-- The first `count` bytes of a text. -/
def takeBytes? (count : Nat) : List Char → Option (List Char)
  | [] => if count = 0 then some [] else none
  | c :: text =>
    if count = 0 then some []
    else if c.utf8Size ≤ count then (takeBytes? (count - c.utf8Size) text).map (c :: ·)
    else none

/-- The part of a text between two byte offsets. -/
def slice? (start stop : Nat) (text : List Char) : Option (List Char) :=
  if start ≤ stop then (dropBytes? start text).bind (takeBytes? (stop - start)) else none

@[simp] theorem dropBytes?_append (front back : List Char) :
    dropBytes? (byteLength front) (front ++ back) = some back := by
  induction front with
  | nil => cases back <;> simp [dropBytes?]
  | cons c front ih =>
    have := c.utf8Size_pos
    simp [dropBytes?, ih, show c.utf8Size ≠ 0 by omega]

@[simp] theorem takeBytes?_append (front back : List Char) :
    takeBytes? (byteLength front) (front ++ back) = some front := by
  induction front with
  | nil => cases back <;> simp [takeBytes?]
  | cons c front ih =>
    have := c.utf8Size_pos
    simp [takeBytes?, ih, show c.utf8Size ≠ 0 by omega]

/-- The slice between the ends of a middle part is that part. -/
theorem slice?_append (front middle back : List Char) :
    slice? (byteLength front) (byteLength front + byteLength middle) (front ++ (middle ++ back)) =
      some middle := by
  simp [slice?]

/-! ## 5. Escapes -/

/-- The digits of a number in base sixteen, in lower case and without leading zeros. -/
def hexDigits (n : Nat) : List Char := Nat.toDigits 16 n

/-- A character by its code point, in braces. -/
def codePointEscape (c : Char) : List Char :=
  ['\\', 'u', '\x7b'] ++ hexDigits c.toNat ++ ['\x7d']

/-- Whether a character is shown by its code point: a control character, a blank that is not the
plain space, a soft hyphen, or a mark that combines with the character before it. -/
def isHidden (c : Char) : Bool :=
  c.toNat ≤ 0x1F || (0x7F ≤ c.toNat && c.toNat ≤ 0x9F) || (isBlank c && c ≠ ' ') ||
    c.toNat = 0xAD || (0x300 ≤ c.toNat && c.toNat ≤ 0x36F)

/-- One character with its escape, if it has one. -/
def escapeChar (c : Char) : List Char :=
  if c = '\x00' then ['\\', '0']
  else if c = '\t' then ['\\', 't']
  else if c = '\r' then ['\\', 'r']
  else if c = '\n' then ['\\', 'n']
  else if c = '\'' || c = '"' || c = '\\' then ['\\', c]
  else if isHidden c then codePointEscape c
  else [c]

/-- A text with each of its characters escaped that has an escape. -/
def escape (text : List Char) : List Char := text.flatMap escapeChar

/-- A character between single quotes; a double quote needs no escape there. -/
def quoteChar (c : Char) : String :=
  String.ofList (['\''] ++ (if c = '"' then [c] else escapeChar c) ++ ['\''])

end Mcs51.Text
