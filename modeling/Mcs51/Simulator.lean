import Mcs51.Breakpoint
import Mcs51.Instruction.Execution
import Mcs51.Program

/-!
# The simulator

A program, the machine that runs it, and a record of what has happened: the instructions that were
executed and the bytes that went over the serial line. This file holds the state and everything
that changes it other than running, which is `Mcs51.Simulator.Run`.

Source and program are kept apart. A program may be loaded from source, and then the source is
kept with it; the source may be edited, and then the program is stale until it is loaded again. A
load that fails changes nothing. Flags and breakpoints belong to the user and outlive a load.

Each load and each reset makes a machine, and so each is given the bytes that it draws in case RAM
is filled at random.
-/

namespace Mcs51

/-! ## 1. Parts -/

/-- What the user can set. -/
structure Flags where
  /-- How RAM is filled, from the next load or reset on. -/
  ramFill : RamFill := .known 0
  /-- An interrupt vector goes to the `ORG` line with its address, where the program has one. -/
  vectorsFollowOrg : Bool := false
  deriving DecidableEq, Repr

/-- What a simulator is doing. -/
inductive Status
  | idle
  | running
  | halted
  | faulted (error : RunError)
  deriving DecidableEq, Repr

/-- An instruction that was executed. -/
structure TraceEntry where
  pc : Nat
  number : Nat
  text : String
  acc : Byte
  registers : List Byte
  deriving DecidableEq, Repr

namespace TraceEntry

/-- A text with blanks before it, up to a width. -/
def padStart (width : Nat) (text : String) : String :=
  String.ofList (text.toList.leftpad width ' ')

/-- A text with blanks behind it, up to a width. -/
def padEnd (width : Nat) (text : String) : String :=
  String.ofList (text.toList.rightpad width ' ')

/-- Bytes in hexadecimal, with a blank between any two. -/
def hexBytes (bytes : List Byte) : String := " ".intercalate (bytes.map hexByte)

/-- A row of the listing: the number of the line, counted from one, the instruction, the accumulator
and the registers. -/
def render (e : TraceEntry) : String :=
  padStart 5 (Nat.repr (e.number + 1)) ++ "  " ++ padEnd 28 e.text ++ " A=" ++ hexByte e.acc ++
    "  R0-R7=" ++ hexBytes e.registers

end TraceEntry

/-- A byte on the serial line. -/
inductive SerialEvent
  | sent (byte : Byte)
  | received (byte : Byte)
  deriving DecidableEq, Repr

/-! ## 2. The simulator -/

/-- A program being run. -/
structure Simulator where
  program : Program
  machine : Machine
  /-- The instructions executed since the last load or reset, the last one first. -/
  trace : List TraceEntry
  /-- What went over the serial line since then, the last byte first. -/
  history : List SerialEvent
  status : Status
  hitBreakpoint : Bool
  /-- The steps since then, as a 64-bit count. -/
  steps : UInt64
  /-- The source, if the program came from one. -/
  source : Option String
  /-- Whether the source was edited after the program was loaded. -/
  stale : Bool
  flags : Flags
  /-- Where runs stop; each condition is there once. -/
  breakpoints : List Breakpoint
  deriving DecidableEq

namespace Simulator

/-- A simulator with nothing loaded. -/
def new (flags : Flags) (drawn : Ram := .filled 0) : Simulator where
  program := .empty
  machine := .initial flags.ramFill 0 drawn
  trace := []
  history := []
  status := .idle
  hitBreakpoint := false
  steps := 0
  source := none
  stale := false
  flags := flags
  breakpoints := []

/-! ## 3. Loading -/

/-- Makes the machine anew, at the entry of the program, and forgets what happened. The source, and
whether it is stale, stay. RAM is as after the load unless it is filled at random. -/
def reset (s : Simulator) (drawn : Ram := .filled 0) : Simulator :=
  { s with
    machine := .initial s.flags.ramFill s.program.entry drawn
    trace := []
    history := []
    status := .idle
    hitBreakpoint := false
    steps := 0 }

/-- Loads a program that has no source. -/
def load (s : Simulator) (program : Program) (drawn : Ram := .filled 0) : Simulator :=
  { s with program, source := none, stale := false }.reset drawn

/-- Loads a program from its source, if it has one. -/
def loadText (s : Simulator) (source : String) (drawn : Ram := .filled 0) :
    Except LoadError Simulator :=
  (Program.ofSource source).map fun program => { s.load program drawn with source := some source }

/-- Replaces the source. The program stays, but is stale. -/
def edit (s : Simulator) (source : String) : Simulator :=
  { s with source := some source, stale := true }

/-- Loads the source again. Without a source this is a reset. -/
def reload (s : Simulator) (drawn : Ram := .filled 0) : Except LoadError Simulator :=
  match s.source with
  | some source => s.loadText source drawn
  | none => .ok ({ s with stale := false }.reset drawn)

variable {s t : Simulator} {source : String} {drawn : Ram}

theorem loadText_of_ok {program : Program} (h : Program.ofSource source = .ok program)
    (s : Simulator) (drawn : Ram) :
    s.loadText source drawn =
      .ok ({ s with program, source := some source, stale := false }.reset drawn) := by
  simp only [loadText, h, Except.map, load, reset]

/-- A source that is loaded makes a program, and the machine is reset. -/
theorem of_loadText (h : s.loadText source drawn = .ok t) : ∃ program,
    Program.ofSource source = .ok program ∧
      t = { s with program, source := some source, stale := false }.reset drawn := by
  cases hp : Program.ofSource source with
  | error e =>
    simp only [loadText, hp, Except.map] at h
    cases h
  | ok program =>
    rw [loadText_of_ok hp] at h
    exact ⟨program, rfl, (Except.ok.inj h).symm⟩

/-- A reload is a reset if there is no source, and a load of the source if there is one. -/
theorem of_reload (h : s.reload drawn = .ok t) :
    s.source = none ∧ t = { s with stale := false }.reset drawn ∨
      ∃ source, s.source = some source ∧ s.loadText source drawn = .ok t := by
  unfold reload at h
  split at h
  · next source hs => exact .inr ⟨source, hs, h⟩
  · next hs => exact .inl ⟨hs, (Except.ok.inj h).symm⟩

/-! ## 4. Looking at it -/

/-- What went over the serial line, the first byte first. -/
def events (s : Simulator) : List SerialEvent := s.history.reverse

/-- The bytes that were sent, as the text they make. -/
def output (s : Simulator) : String :=
  String.ofList <| s.events.filterMap fun
    | .sent byte => some (Char.ofNat byte.toNat)
    | .received _ => none

/-- Whether the program was found to be over. -/
def isHalted (s : Simulator) : Bool := s.status = .halted

/-- Whether any breakpoint is met where the machine is. -/
def meetsBreakpoint (s : Simulator) : Bool := s.breakpoints.any (Breakpoint.isMet s.machine)

/-! ## 5. Breakpoints -/

/-- Adds a breakpoint, and says whether it was new. -/
def addBreakpoint (s : Simulator) (bp : Breakpoint) : Bool × Simulator :=
  if bp ∈ s.breakpoints then (false, s)
  else (true, { s with breakpoints := bp :: s.breakpoints })

/-- Removes a breakpoint, and says whether it was there. -/
def removeBreakpoint (s : Simulator) (bp : Breakpoint) : Bool × Simulator :=
  if bp ∈ s.breakpoints then (true, { s with breakpoints := s.breakpoints.filter (· ≠ bp) })
  else (false, s)

/-! ## 6. Driving it from outside -/

/-- Inverts a bit of a special function register, as a signal on a pin would. Only the three lowest
bits of its place count. Parity follows the accumulator. -/
def togglePin (s : Simulator) (addr : Byte) (index : Nat) : Except RunError Simulator :=
  if addr < Sfr.firstAddress then .error (.notAnSfr addr)
  else
    let toggled := s.machine.mem.toggleBit (BitPlace.ofByte addr index)
    let mem := if addr = Sfr.acc then toggled.refreshParity else toggled
    .ok { s with machine := { s.machine with mem } }

/-- A byte comes in on the serial line: it is put into the buffer and its flag is raised. -/
def receive (s : Simulator) (byte : Byte) : Simulator :=
  let mem := (s.machine.mem.write Sfr.sbuf byte).modify Sfr.scon (· ||| Sfr.ri)
  { s with
    machine := { s.machine with mem }
    history := .received byte :: s.history }

end Simulator
end Mcs51
