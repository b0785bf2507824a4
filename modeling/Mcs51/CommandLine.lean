import Mcs51.Simulator.Run
import Mcs51.Text

/-!
# The command line

The program loads a file, runs it for a number of steps, and prints what came of it: the bytes that
were sent, the registers, and where the program stopped. Everything but reading the file and
printing is here, as a function from the arguments and the content of the file to a report.

What goes wrong before the run leaves nothing but an error. What goes wrong in the run comes after
the report of how far it got.
-/

namespace Mcs51
namespace CommandLine

/-! ## 1. Options -/

/-- What the arguments ask for. -/
structure Options where
  path : Option String := none
  steps : Option Nat := none
  trace : Bool := false
  seed : Option UInt64 := none
  orgVectors : Bool := false
  /-- A character that comes in on the serial line before the run. -/
  rx : Option Char := none
  deriving DecidableEq, Repr

/-- The number of steps when none is asked for. -/
def defaultSteps : Nat := 10000

/-- The first number that 64 bits cannot hold. -/
def countLimit : Nat := 18446744073709551616

/-- A decimal number that fits in 64 bits, with a plus sign before it or none. -/
def readCount? (text : List Char) : Option Nat :=
  let digits :=
    match text with
    | '+' :: rest => rest
    | _ => text
  if digits ≠ [] ∧ digits.all Char.isDigit then
    let value := digits.foldl (fun n c => 10 * n + (c.toNat - 48)) 0
    if value < countLimit then some value else none
  else none

/-- A text of a single character. -/
def readChar? : List Char → Option Char
  | [c] => some c
  | _ => none

/-- Options that take a value. -/
inductive Setting
  | steps | seed | rx
  deriving DecidableEq

/-- The options with a value set. An option is set at most once, and its value has to be one. -/
def Options.set? (o : Options) (setting : Setting) (value : List Char) : Option Options :=
  match setting with
  | .steps =>
    if o.steps.isSome then none
    else (readCount? value).map fun n => { o with steps := some n }
  | .seed =>
    if o.seed.isSome then none
    else (readCount? value).map fun n => { o with seed := some (UInt64.ofNat n) }
  | .rx =>
    if o.rx.isSome then none
    else (readChar? value).map fun c => { o with rx := some c }

/-- The options with a switch turned on, at most once. -/
def Options.turnOnTrace? (o : Options) : Option Options :=
  if o.trace then none else some { o with trace := true }

/-- The options with the other switch turned on, at most once. -/
def Options.turnOnVectors? (o : Options) : Option Options :=
  if o.orgVectors then none else some { o with orgVectors := true }

/-- The options with a file to run; there is only one. -/
def Options.setPath? (o : Options) (path : List Char) : Option Options :=
  if o.path.isSome then none else some { o with path := some (String.ofList path) }

/-- The setting with the given long name. -/
def settingOf? (name : List Char) : Option Setting :=
  if name = "steps".toList then some .steps
  else if name = "seed".toList then some .seed
  else if name = "rx".toList then some .rx
  else none

/-- Whether an argument can be the value of the option before it: it does not look like an option
itself. -/
def isValue : List Char → Bool
  | '-' :: _ :: _ => false
  | _ => true

/-- What an argument leaves to be read: nothing, or the value of a setting. -/
abbrev Expect := Option Setting

/-- An argument with two dashes, which are not part of `text`. A value follows an equals sign or is
the next argument. -/
def readLong? (o : Options) (text : List Char) : Option (Options × Expect) :=
  let name := text.takeWhile (· ≠ '=')
  match text.drop name.length, settingOf? name with
  | '=' :: value, some setting => (o.set? setting value).map (·, none)
  | [], some setting => some (o, some setting)
  | [], none =>
    if name = "trace".toList then o.turnOnTrace?.map (·, none)
    else if name = "org-vectors".toList then o.turnOnVectors?.map (·, none)
    else none
  | _, _ => none

/-- An argument with one dash: switches, and the number of steps behind them as the last. -/
def readShort? (o : Options) : List Char → Option (Options × Expect)
  | [] => some (o, none)
  | 't' :: rest => o.turnOnTrace?.bind fun o => readShort? o rest
  | ['s'] => some (o, some .steps)
  | 's' :: '=' :: value => (o.set? .steps value).map (·, none)
  | 's' :: value => (o.set? .steps value).map (·, none)
  | _ => none

/-- Any argument: an option if it starts with a dash and goes on, and the file otherwise. -/
def readArgument? (o : Options) : List Char → Option (Options × Expect)
  | '-' :: '-' :: text => readLong? o text
  | '-' :: c :: text => readShort? o (c :: text)
  | path => (o.setPath? path).map (·, none)

/-- All arguments from the left, where the first one may be the value of a setting. After two
dashes by themselves only a file can follow. -/
def readAll? : Options → Expect → List (List Char) → Option Options
  | o, none, [] => some o
  | _, some _, [] => none
  | o, some setting, arg :: args =>
    if isValue arg then (o.set? setting arg).bind fun o => readAll? o none args else none
  | o, none, ['-', '-'] :: args => args.foldlM Options.setPath? o
  | o, none, arg :: args =>
    (readArgument? o arg).bind fun (o, expect) => readAll? o expect args

/-- The options of a list of arguments, if they make sense and name a file. -/
def parse? (args : List String) : Option Options :=
  (readAll? {} none (args.map String.toList)).filter fun o => o.path.isSome

/-! ## 2. Reports -/

/-- What the program prints and its exit code. -/
structure Report where
  output : List String
  errors : List String
  exitCode : UInt8
  deriving DecidableEq

namespace Report

/-- A report of nothing but an error. -/
def failure (errors : List String) : Report := ⟨[], errors, 1⟩

/-- A report to which an error is added. -/
def fail (r : Report) (errors : List String) : Report := { r with errors, exitCode := 1 }

end Report

/-- An error as it is printed, with the help for it. -/
def errorLines (message help : String) : List String := ["Error: " ++ message, "help: " ++ help]

/-- What the system says of a file that is not there. -/
def missingFile : String := "No such file or directory (os error 2)"

/-- The error for a file that cannot be read. -/
def unreadable (path cause : String) : List String :=
  ["Error: could not read " ++ path, "", "Caused by:", "    " ++ cause]

/-- Why the run stopped, in words. -/
def statusText : Status → String
  | .halted => "halted"
  | .faulted _ => "faulted"
  | .idle | .running => "step limit reached"

/-- What is printed after a run: the bytes that were sent, the registers, and where it stopped. -/
def summary (s : Simulator) : List String :=
  let m := s.machine.mem
  ["serial: " ++ String.ofList (Text.escape s.output.toList),
   "A=" ++ hexByte m.acc ++ " B=" ++ hexByte m.b ++ " PSW=" ++ hexByte m.psw.bits ++
     " SP=" ++ hexByte m.sp ++ " DPTR=" ++ hexWord m.dptr,
   "R0-R7=" ++ TraceEntry.hexBytes m.registers ++ " (bank " ++ Nat.repr m.psw.bank.toNat ++ ")",
   statusText s.status ++ " at line " ++ Nat.repr (s.machine.pc + 1) ++ " after " ++
     Nat.repr s.steps.toNat ++ " steps (" ++ Nat.repr s.machine.cycles ++ " cycles)"]

/-- The executed instructions, the first one first. -/
def listing (s : Simulator) : List String := s.trace.reverse.map TraceEntry.render

/-! ## 3. The program -/

/-- The simulator that options ask for, with nothing loaded. RAM is seeded or zero, so nothing that
is drawn at random matters here. -/
def simulatorOf (o : Options) : Simulator :=
  .new ⟨(o.seed.map RamFill.seeded).getD (.known 0), o.orgVectors⟩

/-- The run of a loaded program and the report of it. -/
def report (o : Options) (s : Simulator) : Report :=
  let (result, ended) := s.runFor (o.steps.getD defaultSteps)
  let done : Report := ⟨(if o.trace then listing ended else []) ++ summary ended, [], 0⟩
  match result with
  | .ok () => done
  | .error e => done.fail (errorLines e.message e.help)

/-- The character that comes in before the run, and then the run. -/
def receiveAndReport (o : Options) (s : Simulator) : Report :=
  match o.rx with
  | none => report o s
  | some c =>
    if c.toNat < 256 then report o (s.receive (BitVec.ofNat 8 c.toNat))
    else
      .failure ["Error: cannot receive " ++ Text.quoteChar c ++
        " on the serial port (not a single byte)"]

/-- The report for options and the content of the file they name. -/
def run (o : Options) (content : Except String String) : Report :=
  match content with
  | .error cause => .failure (unreadable (o.path.getD "") cause)
  | .ok source =>
    match (simulatorOf o).loadText source with
    | .error e => .failure (errorLines e.message e.help)
    | .ok s => receiveAndReport o s

end CommandLine
end Mcs51
