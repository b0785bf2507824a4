import Mcs51.Proofs.Attempt

/-!
# The next step

A step either executes an instruction or leaves the machine alone but for its counter. `executes?`
is the instruction with the machine right after it, `advanced` is the machine when the cycles of the
instruction have gone by and no interrupt has been looked for yet, and `interrupt?` is the interrupt
that is then taken. The lemmas give the machine after a step from these, so what is proved of a step
need not take `step` apart.
-/

namespace Mcs51
namespace Simulator

/-- An instruction that is executed, and the machine right after it. -/
structure Execution where
  mnemonic : Mnemonic
  line : Line
  done : Executed

section
variable (s : Simulator)

/-- What the next step executes, if it executes anything. -/
def executes? : Option Execution :=
  if s.stale then none
  else
    match s.program.instruction? s.machine.pc with
    | none => none
    | some (mnemonic, line) =>
      match s.machine.execute s.program.symbols mnemonic line.operands with
      | .ok done => some ⟨mnemonic, line, done⟩
      | .error _ => none

/-- The machine before an interrupt is taken, and the byte that was sent by then. -/
def advanced (e : Execution) : Stepped :=
  (Machine.followAcc s.machine.mem.acc e.done).advance (Cost.of e.mnemonic e.line.operands)
    e.done.bufferWritten

/-- The interrupt that the next step goes into, if it goes into one. -/
def interrupt? : Option Interrupt :=
  s.executes?.bind fun e => (s.advanced e).machine.dueInterrupt

end

variable {s : Simulator} {e : Execution} {i : Interrupt}

theorem executes?_eq_some_iff :
    s.executes? = some e ↔
      s.stale = false ∧ s.program.instruction? s.machine.pc = some (e.mnemonic, e.line) ∧
        s.machine.execute s.program.symbols e.mnemonic e.line.operands = .ok e.done := by
  unfold executes?
  cases s.stale with
  | true => simp
  | false =>
    cases hi : s.program.instruction? s.machine.pc with
    | none => simp
    | some found =>
      obtain ⟨mnemonic, line⟩ := found
      simp only [Bool.false_eq_true, if_false, Option.some.injEq, Prod.mk.injEq, true_and]
      cases hx : s.machine.execute s.program.symbols mnemonic line.operands with
      | ok done =>
        simp only [Option.some.injEq]
        constructor
        · rintro rfl
          exact ⟨⟨rfl, rfl⟩, hx⟩
        · rintro ⟨⟨rfl, rfl⟩, h⟩
          rw [hx] at h
          cases h
          rfl
      | error err =>
        simp only [reduceCtorEq, false_iff, not_and]
        rintro ⟨rfl, rfl⟩ h
        rw [hx] at h
        exact nomatch h

/-- An attempt in which the machine gets through its instruction. -/
theorem attempt_of_executes?_eq_some (h : s.executes? = some e) :
    s.attempt = .completed (s.commit e.line
      ⟨(s.advanced e).machine.takeInterrupt s.vectorLine, (s.advanced e).sent⟩) := by
  obtain ⟨fresh, hi, hd⟩ := executes?_eq_some_iff.mp h
  have hin : s.machine.pc < s.program.size := Program.lt_size_of_instruction? hi
  have hstep : s.machine.step s.program.symbols s.vectorLine e.mnemonic e.line.operands =
      .ok ⟨(s.advanced e).machine.takeInterrupt s.vectorLine, (s.advanced e).sent⟩ :=
    Machine.step_ok_iff.mpr ⟨e.done, hd, rfl⟩
  exact (Attempted.executed fresh hin hi hstep).eq

/-- What an attempt executes is what the next step was said to execute. -/
theorem exists_executes?_eq_some {mnemonic : Mnemonic} {line : Line} {stepped : Stepped}
    (fresh : s.stale = false)
    (instruction : s.program.instruction? s.machine.pc = some (mnemonic, line))
    (step : s.machine.step s.program.symbols s.vectorLine mnemonic line.operands = .ok stepped) :
    ∃ done, s.executes? = some ⟨mnemonic, line, done⟩ := by
  obtain ⟨done, hd, _⟩ := Machine.step_ok_iff.mp step
  exact ⟨done, executes?_eq_some_iff.mpr ⟨fresh, instruction, hd⟩⟩

/-- A step that executes nothing leaves the records alone, and the machine but for its counter,
which goes on over a line without an instruction. -/
theorem idle_step (h : s.executes? = none) :
    (s.step.2.machine = s.machine ∨
      s.machine.pc < s.program.size ∧
        s.step.2.machine = { s.machine with pc := s.machine.pc + 1 }) ∧
      s.step.2.history = s.history ∧ s.step.2.trace = s.trace := by
  unfold step
  generalize ha : s.attempt = a
  cases attempted_of_eq ha with
  | halted => exact ⟨.inl rfl, rfl, rfl⟩
  | passed fresh inside =>
    dsimp only
    rw [settle_frame]
    exact ⟨.inr ⟨inside, rfl⟩, rfl, rfl⟩
  | stale | lost =>
    dsimp only
    rw [fault_frame]
    exact ⟨.inl rfl, rfl, rfl⟩
  | executed fresh inside instruction step =>
    obtain ⟨done, hx⟩ := exists_executes?_eq_some fresh instruction step
    exact nomatch h.symm.trans hx

theorem step_of_executes?_eq_none (h : s.executes? = none) :
    (∃ pc, s.step.2.machine = { s.machine with pc }) ∧ s.step.2.history = s.history := by
  obtain ⟨hmachine, hhistory, _⟩ := idle_step h
  rcases hmachine with hsame | ⟨_, hpassed⟩
  · exact ⟨⟨_, hsame⟩, hhistory⟩
  · exact ⟨⟨_, hpassed⟩, hhistory⟩

/-- A step that executes an instruction goes through all that happens around it. -/
theorem step_of_executes?_eq_some (h : s.executes? = some e) :
    s.step.2.machine = (s.advanced e).machine.takeInterrupt s.vectorLine ∧
      s.step.2.history = ((s.advanced e).sent.map SerialEvent.sent).toList ++ s.history := by
  simp only [step, attempt_of_executes?_eq_some h]
  rw [settle_frame]
  exact ⟨rfl, rfl⟩

theorem interrupt?_of_executes? (h : s.executes? = some e) :
    s.interrupt? = (s.advanced e).machine.dueInterrupt := by
  rw [interrupt?, h]
  rfl

/-- A step that goes into an interrupt, taken apart: the instruction, the interrupt that is due
then, and the machine that goes into it. -/
theorem exists_of_interrupt? (h : s.interrupt? = some i) :
    ∃ e, s.executes? = some e ∧ (s.advanced e).machine.dueInterrupt = some i ∧
      s.step.2.machine = (s.advanced e).machine.enter i (s.vectorLine i.vector) := by
  obtain ⟨e, he, hdue⟩ := Option.bind_eq_some_iff.mp h
  refine ⟨e, he, hdue, ?_⟩
  rw [(step_of_executes?_eq_some he).1]
  exact Machine.takeInterrupt_of_due hdue s.vectorLine

end Simulator
end Mcs51
