import Mcs51.Line
import Mcs51.Symbols

/-!
# Programs

There is no binary form. A program is the lines of its source, and the program counter is an index
into them, so a line that holds nothing still has its place. Loading goes over the lines once and
notes three things: the symbols, the line of each `ORG` address, and the entry.

A symbol is defined by the last line that has it as a label. The value of a constant is resolved
against the symbols of earlier lines; the address of an `ORG` also sees the label of its own line.
The entry is the first line with a mnemonic other than `ORG`.
-/

namespace Mcs51

/-! ## 1. What loading notes -/

/-- What is known of a program after some of its lines. -/
structure Layout where
  symbols : Symbols
  /-- For each address, the last `ORG` line that gave it. -/
  origins : Table Word Nat
  entry : Option Nat
  deriving DecidableEq, Repr

namespace Layout

/-- Nothing is known before the first line. -/
def start : Layout := ⟨∅, ∅, none⟩

/-- The value of the first operand, or zero if there is none. -/
def firstValue (symbols : Symbols) (line : Line) : Int :=
  match line.operands with
  | op :: _ => symbols.valueOf op
  | [] => 0

/-- What the label of a line stands for. -/
def symbolOf (symbols : Symbols) (index : Nat) (line : Line) : Symbol :=
  if line.mnemonic = some .equ then .const (firstValue symbols line) else .code index

/-- The symbols once a line is known. -/
def define (symbols : Symbols) (index : Nat) (line : Line) : Symbols :=
  match line.label with
  | some name => symbols.insert name (symbolOf symbols index line)
  | none => symbols

/-- What is known once the line at `index` is. -/
def addLine (layout : Layout) (index : Nat) (line : Line) : Layout :=
  let symbols := define layout.symbols index line
  match line.mnemonic with
  | none => { layout with symbols }
  | some .org =>
    { layout with
      symbols
      origins := layout.origins.insert (BitVec.ofInt 16 (firstValue symbols line)) index }
  | some _ => { layout with symbols, entry := some (layout.entry.getD index) }

/-- What is known once the entry of the program at `index` is; an empty one adds nothing. -/
def addEntry (layout : Layout) : Option Line × Nat → Layout
  | (some line, index) => layout.addLine index line
  | (none, _) => layout

/-- What is known of a program after all of its lines. -/
def ofLines (lines : List (Option Line)) : Layout := lines.zipIdx.foldl addEntry start

end Layout

/-! ## 2. Programs -/

/-- A loaded program. -/
structure Program where
  /-- The lines of the source; a line that holds nothing is `none`. -/
  lines : Array (Option Line)
  symbols : Symbols
  entry : Nat
  /-- The line of each `ORG` address. -/
  origins : Table Word Nat
  deriving DecidableEq, Repr

namespace Program

/-- The program of a simulator with nothing loaded. -/
def empty : Program := ⟨#[], ∅, 0, ∅⟩

/-- The program that lines make. -/
def ofLines (lines : List (Option Line)) : Program :=
  let layout := Layout.ofLines lines
  ⟨lines.toArray, layout.symbols, layout.entry.getD 0, layout.origins⟩

/-- The program of a source, or the first error in it. -/
def ofSource (source : String) : Except LoadError Program :=
  (Line.parseAll source.toList).map ofLines

/-- The number of lines, those that hold nothing included. -/
def size (p : Program) : Nat := p.lines.size

/-- The line at an index, if it holds anything. -/
def line? (p : Program) (index : Nat) : Option Line := p.lines[index]?.join

/-- The last `ORG` line with the given address. -/
def orgLine? (p : Program) (addr : Word) : Option Nat := p.origins.get? addr

/-- The instruction at an index: its mnemonic and its line. Lines that hold nothing, bare labels
and directives have none. -/
def instruction? (p : Program) (index : Nat) : Option (Mnemonic × Line) :=
  match p.line? index with
  | some line =>
    match line.mnemonic with
    | some m => if m.isDirective then none else some (m, line)
    | none => none
  | none => none

/-- The symbols in ascending order of their names. -/
def sortedSymbols (symbols : Symbols) : List (String × Symbol) :=
  symbols.toSortedList fun x y => x < y

/-- The `ORG` addresses in ascending order, each with its line. -/
def sortedOrigins (p : Program) : List (Word × Nat) :=
  p.origins.toSortedList fun x y => x < y

/-- The indices of the lines that are executed. -/
def executableLines (p : Program) : List Nat :=
  (List.range p.size).filter fun index => (p.instruction? index).isSome

end Program
end Mcs51
