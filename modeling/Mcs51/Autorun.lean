import Mcs51.Simulator.Run

/-!
# Running in the background

A simulator can be driven by a clock, one step at each tick, while its owner steps, edits and looks
at it in between. Steps never overlap, so what happens is a sequence of whole steps and edits in
some order, and this file says what each of them does.

The clock stops by itself when the program is over, when a step fails and when a breakpoint is
met. The simulator counts as running from the start of the clock until it stops, however it
stops, unless the owner's own steps have ended the program or failed.
-/

namespace Mcs51

/-- The clock of a simulator that is driven in the background. -/
inductive Clock
  | off
  | ticking
  | spent
  deriving DecidableEq, Repr

/-- A simulator that can be driven in the background. -/
structure Autorun where
  sim : Simulator
  clock : Clock
  deriving DecidableEq

namespace Autorun

/-- No clock drives the simulator yet. -/
def new (sim : Simulator) : Autorun := ⟨sim, .off⟩

/-- Whether the clock ticks. -/
def isRunning (a : Autorun) : Bool := a.clock = .ticking

/-- A simulator that no clock drives any more: it counts as running no longer. -/
def release (s : Simulator) : Simulator :=
  if s.status = .running then { s with status := .idle } else s

/-- Starts the clock, and says whether it did: one that ticks is left alone. -/
def start (a : Autorun) : Bool × Autorun :=
  if a.isRunning then (false, a)
  else (true, ⟨{ a.sim with status := .running }, .ticking⟩)

/-- Stops the clock, if there is one. -/
def stop (a : Autorun) : Autorun :=
  if a.clock = .off then a else ⟨release a.sim, .off⟩

/-- Whether the clock goes on after a step: not when it failed, when the program is over, or at a
breakpoint. -/
def goesOn (result : Except RunError Unit × Simulator) : Bool :=
  match result.1 with
  | .ok () => !result.2.isHalted && !result.2.meetsBreakpoint
  | .error _ => false

/-- One tick of the clock: a step, after which the clock may stop. -/
def tick (a : Autorun) : Autorun :=
  if a.isRunning then
    let result := a.sim.step
    if goesOn result then ⟨result.2, .ticking⟩ else ⟨release result.2, .spent⟩
  else a

/-- A step that the owner takes. -/
def step (a : Autorun) : Except RunError Unit × Autorun :=
  let result := a.sim.step
  (result.1, { a with sim := result.2 })

/-- A change that the owner makes to the simulator. -/
def change (a : Autorun) (f : Simulator → Simulator) : Autorun := { a with sim := f a.sim }

end Autorun
end Mcs51
