import Mcs51.Simulator

/-!
# Steps and runs

A step is at one line. A stale program is not stepped at all, and behind the last line the program
is over. A line without an instruction is only passed; an instruction is executed with all that
happens around it and is recorded. A step that fails leaves nothing behind but a status: what it
would have changed is dropped with the machine it was computing.

A run takes steps until one of these: a condition given by the caller no longer holds, the program
is over, a step fails, or a breakpoint is met. The condition is looked at before a step and the
breakpoints after it, so a run that starts at a breakpoint goes on from there. The status is set
once, at the end.

A run need not end, so the number of its steps is bounded here. `runFor` is a run with a bound that
the caller wants. For one without, `run?` gives no answer when the bound was too low; a higher bound
then gets further, and an answer stays the same under any higher bound.
-/

namespace Mcs51
namespace Simulator

/-! ## 1. One step -/

/-- What comes of a step. -/
inductive Attempt
  | completed (s : Simulator)
  | halted
  | failed (error : RunError)
  deriving DecidableEq

/-- The line that an interrupt vector goes to: the `ORG` line with its address, if vectors follow
those and there is one, or else the line with that number. -/
def vectorLine (s : Simulator) (vector : Word) : Nat :=
  if s.flags.vectorsFollowOrg then (s.program.orgLine? vector).getD vector.toNat
  else vector.toNat

/-- What is recorded of an instruction, when `m` is the machine after its step. -/
def traceEntry (pc : Nat) (line : Line) (m : Machine) : TraceEntry :=
  ⟨pc, line.number, line.instruction, m.mem.acc, m.mem.registers⟩

/-- A line without an instruction is passed: it counts as a step and takes no time. -/
def pass (s : Simulator) : Simulator :=
  { s with
    machine := { s.machine with pc := s.machine.pc + 1 }
    steps := s.steps + 1 }

/-- The simulator that takes over what a step computed: the machine, the record of the instruction,
and the byte that was sent. -/
def commit (s : Simulator) (line : Line) (stepped : Stepped) : Simulator :=
  { s with
    machine := stepped.machine
    trace := traceEntry s.machine.pc line stepped.machine :: s.trace
    history := (stepped.sent.map SerialEvent.sent).toList ++ s.history
    steps := s.steps + 1 }

/-- What comes of a step at the line where the machine is. -/
def attempt (s : Simulator) : Attempt :=
  if s.stale then .failed .staleProgram
  else if s.program.size ≤ s.machine.pc then .halted
  else
    match s.program.instruction? s.machine.pc with
    | none => .completed s.pass
    | some (mnemonic, line) =>
      match s.machine.step s.program.symbols s.vectorLine mnemonic line.operands with
      | .ok stepped => .completed (s.commit line stepped)
      | .error e => .failed e

/-! ## 2. The status -/

/-- A simulator that has come through a step or a run: idle, unless a run loop drives it. -/
def settle (s : Simulator) : Simulator :=
  if s.status = .running then s else { s with status := .idle }

/-- A simulator whose program is over. -/
def halt (s : Simulator) : Simulator := { s with status := .halted }

/-- A simulator after a step that failed. A stale program is no fault of the machine. -/
def fault (s : Simulator) (error : RunError) : Simulator :=
  if error = .staleProgram then s else { s with status := .faulted error }

/-- One step. That the program is over is not a failure. -/
def step (s : Simulator) : Except RunError Unit × Simulator :=
  match s.attempt with
  | .completed t => (.ok (), t.settle)
  | .halted => (.ok (), s.halt)
  | .failed e => (.error e, s.fault e)

/-! ## 3. Runs -/

/-- Where a run came to its end. -/
inductive RunEnd
  | unwanted
  | exhausted
  | breakpoint
  | halted
  | failed (error : RunError)
  deriving DecidableEq

/-- Takes at most `bound` steps while a condition holds. -/
def advance (goOn : Simulator → Bool) : Nat → Simulator → Simulator × RunEnd
  | 0, s => (s, if goOn s then .exhausted else .unwanted)
  | bound + 1, s =>
    if goOn s then
      match s.attempt with
      | .completed t => if t.meetsBreakpoint then (t, .breakpoint) else advance goOn bound t
      | .halted => (s, .halted)
      | .failed e => (s, .failed e)
    else (s, .unwanted)

/-- What a run gives, with the status that its end leaves. -/
def finish : Simulator × RunEnd → Except RunError Unit × Simulator
  | (s, .unwanted) => (.ok (), s.settle)
  | (s, .exhausted) => (.ok (), s.settle)
  | (s, .breakpoint) => (.ok (), { s with hitBreakpoint := true }.settle)
  | (s, .halted) => (.ok (), s.halt)
  | (s, .failed e) => (.error e, s.fault e)

/-- A simulator at the start of a run: how the last one ended is forgotten. -/
def begin (s : Simulator) : Simulator := { s with hitBreakpoint := false }

/-- Whether the count of steps has moved by less than a limit since it was `start`. The count wraps
around, and so does the difference. -/
def isWithin (start : UInt64) (limit : Nat) (s : Simulator) : Bool :=
  (s.steps - start).toNat < limit

/-- A run of at most `limit` steps, which are told by the count of steps. -/
def runFor (s : Simulator) (limit : Nat) : Except RunError Unit × Simulator :=
  finish (advance (isWithin s.steps limit) limit s.begin)

/-- A run while a condition holds, if it ends within `bound` steps. -/
def runWhile? (s : Simulator) (goOn : Simulator → Bool) (bound : Nat) :
    Option (Except RunError Unit × Simulator) :=
  let ended := advance goOn bound s.begin
  if ended.2 = .exhausted then none else some (finish ended)

/-- A run, if it ends within `bound` steps. -/
def run? (s : Simulator) (bound : Nat) : Option (Except RunError Unit × Simulator) :=
  s.runWhile? (fun _ => true) bound

end Simulator
end Mcs51
