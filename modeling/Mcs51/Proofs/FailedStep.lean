import Mcs51.Proofs.Attempt

/-!
# A step that fails leaves nothing behind

Two ways a step can fail: its program is stale, or the line it is at jumps to a target that leads
nowhere. The second is said by the rules of `Flow.Jumps`, so it is a condition on the mnemonic, the
memory before the step and the symbols, and not on the course of the step.

`step_fails_iff_and_keeps_all_but_status` puts the two together with what is left of the simulator,
which is all of it but the status. Instructions that write before they look up their target
(`DJNZ`, `JBC`, `CJNE`) are no exception.
-/

namespace Mcs51
namespace Simulator

/-- The line that a simulator is at goes to the line that an operand names. -/
def JumpsTo (s : Simulator) (target : Option Operand) : Prop :=
  s.machine.pc < s.program.size ∧
    ∃ line mnemonic, s.program.line? s.machine.pc = some line ∧ line.mnemonic = some mnemonic ∧
      Flow.Jumps s.program.symbols s.machine.mem line.operands mnemonic target

/-- **When an attempt fails, and with which error.** -/
theorem attempt_failed_iff {s : Simulator} {e : RunError} :
    s.attempt = .failed e ↔
      (s.stale = true ∧ e = .staleProgram) ∨
        (s.stale = false ∧ ∃ target, s.JumpsTo target ∧ Flow.Nowhere s.program.symbols target ∧
          e = .unresolvedLabel (Flow.targetName target)) := by
  constructor
  · intro h
    cases attempted_of_eq h with
    | stale edited => exact .inl ⟨edited, rfl⟩
    | lost fresh inside instruction step =>
      obtain ⟨hl, hm, _⟩ := Program.instruction?_eq_some_iff.mp instruction
      obtain ⟨target, hj, hn, he⟩ := Flow.next_error_iff.mp (Machine.step_error_iff.mp step)
      exact .inr ⟨fresh, target, ⟨inside, _, _, hl, hm, hj⟩, hn, he⟩
  · rintro (⟨edited, rfl⟩ | ⟨fresh, target, ⟨inside, line, mnemonic, hl, hm, hj⟩, hn, he⟩)
    · exact (Attempted.stale edited).eq
    · have hi := Program.instruction?_eq_some_iff.mpr ⟨hl, hm, hj.not_directive⟩
      have hx : s.machine.step s.program.symbols s.vectorLine mnemonic line.operands = .error e :=
        Machine.step_error_iff.mpr (Flow.next_error_iff.mpr ⟨target, hj, hn, he⟩)
      exact (Attempted.lost fresh inside hi hx).eq

theorem step_error_iff {s : Simulator} {e : RunError} :
    s.step.1 = .error e ↔ s.attempt = .failed e := by
  unfold step
  cases s.attempt <;> simp

/-- **A step fails on a stale program and on a jump that leads nowhere, and nowhere else; a step
that fails, or finds the program over, changes nothing but the status.** -/
theorem step_fails_iff_and_keeps_all_but_status (s : Simulator) :
    ((∃ e, s.step.1 = .error e) ↔
      s.stale = true ∨ ∃ target, s.JumpsTo target ∧ Flow.Nowhere s.program.symbols target) ∧
    (∀ e, s.step.1 = .error e →
      s.step.2 = { s with status := if s.stale then s.status else .faulted e }) ∧
    (s.stale = false → s.program.size ≤ s.machine.pc →
      s.step = (.ok (), { s with status := .halted })) := by
  refine ⟨⟨?_, ?_⟩, ?_, ?_⟩
  · rintro ⟨e, h⟩
    rcases attempt_failed_iff.mp (step_error_iff.mp h) with ⟨edited, _⟩ | ⟨_, target, hj, hn, _⟩
    · exact .inl edited
    · exact .inr ⟨target, hj, hn⟩
  · intro h
    cases hs : s.stale with
    | true => exact ⟨_, step_error_iff.mpr (attempt_failed_iff.mpr (.inl ⟨hs, rfl⟩))⟩
    | false =>
      rw [hs] at h
      rcases h with h | ⟨target, hj, hn⟩
      · exact nomatch h
      · exact ⟨_, step_error_iff.mpr (attempt_failed_iff.mpr (.inr ⟨hs, target, hj, hn, rfl⟩))⟩
  · intro e h
    have ha := step_error_iff.mp h
    have h2 : s.step.2 = s.fault e := by simp only [step, ha]
    rw [h2]
    rcases attempt_failed_iff.mp ha with ⟨edited, rfl⟩ | ⟨fresh, _, _, _, rfl⟩
    · rw [if_pos edited]
      rfl
    · simp [fault, fresh]
  · intro fresh past
    simp only [step, (Attempted.halted fresh past).eq, halt]

/-- A loop that counts `R0` down from zero and jumps to a name that no line has. -/
def lostLoop : Simulator :=
  (new {}).load (.ofLines [some ⟨none, some .djnz, [.register 0, .direct (.expr "AGAIN")], 0⟩])

/-- `DJNZ` would have written `R0` before it looked for its label. -/
theorem lostLoop_step_keeps_machine :
    lostLoop.step.1 = .error (.unresolvedLabel "AGAIN") ∧
      lostLoop.step.2 = { lostLoop with status := .faulted (.unresolvedLabel "AGAIN") } := by
  have h : lostLoop.step.1 = .error (.unresolvedLabel "AGAIN") :=
    step_error_iff.mpr (by decide +kernel)
  exact ⟨h, (step_fails_iff_and_keeps_all_but_status lostLoop).2.1 _ h⟩

end Simulator
end Mcs51
