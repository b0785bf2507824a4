import Mcs51.Proofs.Target
import Mcs51.Simulator.Run

/-!
# What an attempt can come to

Every fact about running starts with a case distinction over one step, and this file makes it once.
`Attempted` lists the five ways an attempt can go, each with all that is known there, and
`attempted` says there is no sixth. What an instruction does is taken apart the same way by
`Machine.step_ok_iff` and `Machine.step_error_iff`, so that nothing else has to unfold the steps.

Two facts are drawn from it at once. A completed step changes the machine, the two records and the
count of steps, and nothing else (`completed_frame`); and an attempt neither reads nor writes the
status and the mark of the last run (`attempt_label`).
-/

namespace Mcs51

/-! ## 1. Instructions -/

namespace Program

variable {p : Program} {index : Nat} {mnemonic : Mnemonic} {line : Line}

/-- A line whose mnemonic is no directive is executed. -/
theorem instruction?_eq_some_iff :
    p.instruction? index = some (mnemonic, line) ↔
      p.line? index = some line ∧ line.mnemonic = some mnemonic ∧
        mnemonic.isDirective = false := by
  unfold instruction?
  constructor
  · intro h
    cases hl : p.line? index with
    | none =>
      rw [hl] at h
      exact nomatch h
    | some found =>
      rw [hl] at h
      dsimp only at h
      cases hm : found.mnemonic with
      | none =>
        rw [hm] at h
        exact nomatch h
      | some word =>
        rw [hm] at h
        cases hd : word.isDirective with
        | true => simp [hd] at h
        | false =>
          simp only [hd, Bool.false_eq_true, ↓reduceIte, Option.some.injEq, Prod.mk.injEq] at h
          obtain ⟨rfl, rfl⟩ := h
          exact ⟨rfl, hm, hd⟩
  · rintro ⟨hl, hm, hd⟩
    simp [hl, hm, hd]

theorem lt_size_of_instruction? (h : p.instruction? index = some (mnemonic, line)) :
    index < p.size := by
  have hl : p.lines[index]?.join = some line := (instruction?_eq_some_iff.mp h).1
  exact (Array.getElem?_eq_some_iff.mp (Option.join_eq_some_iff.mp hl)).1

end Program

namespace Machine

variable {m : Machine} {symbols : Symbols} {mnemonic : Mnemonic} {ops : List Operand}

/-- An instruction fails exactly when its next line cannot be found. -/
theorem execute_error_iff {e : RunError} :
    m.execute symbols mnemonic ops = .error e ↔
      Flow.next symbols m.mem mnemonic ops m.pc = .error e := by
  simp only [execute, bind, Except.bind, pure, Except.pure]
  cases Flow.next symbols m.mem mnemonic ops m.pc with
  | error e' => simp
  | ok next => simp

theorem execute_ok_iff {done : Executed} :
    m.execute symbols mnemonic ops = .ok done ↔
      ∃ next, Flow.next symbols m.mem mnemonic ops m.pc = .ok next ∧
        done = ⟨{ m with
            mem := (Effect.of symbols m.mem mnemonic ops m.pc).mem
            pc := next
            inInterrupt := m.inInterrupt && mnemonic ≠ .reti },
          (Effect.of symbols m.mem mnemonic ops m.pc).parityDone,
          (Effect.of symbols m.mem mnemonic ops m.pc).bufferWritten⟩ := by
  simp only [execute, bind, Except.bind, pure, Except.pure]
  cases Flow.next symbols m.mem mnemonic ops m.pc with
  | error e => simp
  | ok next =>
    constructor
    · intro h
      exact ⟨next, rfl, (Except.ok.inj h).symm⟩
    · rintro ⟨next', hn, rfl⟩
      cases hn
      rfl

/-- What happens around an instruction cannot fail. -/
theorem step_error_iff {vectorLine : Word → Nat} {e : RunError} :
    m.step symbols vectorLine mnemonic ops = .error e ↔
      Flow.next symbols m.mem mnemonic ops m.pc = .error e := by
  rw [← execute_error_iff]
  simp only [step, bind, Except.bind, pure, Except.pure]
  cases m.execute symbols mnemonic ops with
  | error e' => simp
  | ok done => simp

theorem step_ok_iff {vectorLine : Word → Nat} {stepped : Stepped} :
    m.step symbols vectorLine mnemonic ops = .ok stepped ↔
      ∃ done, m.execute symbols mnemonic ops = .ok done ∧
        stepped =
          let advanced := (followAcc m.mem.acc done).advance (Cost.of mnemonic ops)
            done.bufferWritten
          ⟨advanced.machine.takeInterrupt vectorLine, advanced.sent⟩ := by
  simp only [step, bind, Except.bind, pure, Except.pure]
  cases m.execute symbols mnemonic ops with
  | error e => simp
  | ok done =>
    constructor
    · intro h
      exact ⟨done, rfl, (Except.ok.inj h).symm⟩
    · rintro ⟨done', hd, rfl⟩
      cases hd
      rfl

end Machine

namespace Simulator

/-! ## 2. The ways an attempt can go -/

/-- What an attempt on a simulator can come to, and when. -/
inductive Attempted (s : Simulator) : Attempt → Prop
  /-- The source was edited. -/
  | stale (edited : s.stale = true) : Attempted s (.failed .staleProgram)
  /-- The program is over. -/
  | halted (fresh : s.stale = false) (past : s.program.size ≤ s.machine.pc) : Attempted s .halted
  /-- The line has no instruction. -/
  | passed (fresh : s.stale = false) (inside : s.machine.pc < s.program.size)
      (none : s.program.instruction? s.machine.pc = none) : Attempted s (.completed s.pass)
  /-- The instruction on the line was executed. -/
  | executed {mnemonic : Mnemonic} {line : Line} {stepped : Stepped} (fresh : s.stale = false)
      (inside : s.machine.pc < s.program.size)
      (instruction : s.program.instruction? s.machine.pc = some (mnemonic, line))
      (step : s.machine.step s.program.symbols s.vectorLine mnemonic line.operands =
        .ok stepped) : Attempted s (.completed (s.commit line stepped))
  /-- The instruction on the line goes to a name that leads nowhere. -/
  | lost {mnemonic : Mnemonic} {line : Line} {e : RunError} (fresh : s.stale = false)
      (inside : s.machine.pc < s.program.size)
      (instruction : s.program.instruction? s.machine.pc = some (mnemonic, line))
      (step : s.machine.step s.program.symbols s.vectorLine mnemonic line.operands =
        .error e) : Attempted s (.failed e)

theorem Attempted.eq {s : Simulator} {a : Attempt} (h : s.Attempted a) : s.attempt = a := by
  unfold attempt
  cases h with
  | stale edited => simp [edited]
  | halted fresh past => simp [fresh, past]
  | passed fresh inside none => simp [fresh, Nat.not_le.mpr inside, none]
  | executed fresh inside instruction step =>
    simp [fresh, Nat.not_le.mpr inside, instruction, step]
  | lost fresh inside instruction step =>
    simp [fresh, Nat.not_le.mpr inside, instruction, step]

theorem attempted (s : Simulator) : s.Attempted s.attempt := by
  suffices h : ∃ a, s.Attempted a by
    obtain ⟨a, ha⟩ := h
    rw [ha.eq]
    exact ha
  cases hs : s.stale with
  | true => exact ⟨_, .stale hs⟩
  | false =>
    by_cases hpc : s.program.size ≤ s.machine.pc
    · exact ⟨_, .halted hs hpc⟩
    · have hin : s.machine.pc < s.program.size := Nat.lt_of_not_le hpc
      cases hi : s.program.instruction? s.machine.pc with
      | none => exact ⟨_, .passed hs hin hi⟩
      | some found =>
        obtain ⟨mnemonic, line⟩ := found
        cases hm : s.machine.step s.program.symbols s.vectorLine mnemonic line.operands with
        | ok stepped => exact ⟨_, .executed hs hin hi hm⟩
        | error e => exact ⟨_, .lost hs hin hi hm⟩

/-- The same with the attempt named, for a case distinction on what it came to. -/
theorem attempted_of_eq {s : Simulator} {a : Attempt} (h : s.attempt = a) : s.Attempted a :=
  h ▸ s.attempted

/-! ## 3. What a completed step leaves alone -/

/-- **The frame of a step.** Program, source, flags, breakpoints and status are those before. -/
theorem completed_frame {s t : Simulator} (h : s.attempt = .completed t) :
    t = { s with
      machine := t.machine
      trace := t.trace
      history := t.history
      steps := s.steps + 1 } := by
  cases attempted_of_eq h with
  | passed => rfl
  | executed => rfl

theorem completed_stale {s t : Simulator} (h : s.attempt = .completed t) : t.stale = false := by
  have hs : t.stale = s.stale := by rw [completed_frame h]
  rw [hs]
  cases attempted_of_eq h with
  | passed fresh => exact fresh
  | executed fresh => exact fresh

theorem completed_steps {s t : Simulator} (h : s.attempt = .completed t) :
    t.steps = s.steps + 1 := by
  rw [completed_frame h]

/-- Only an edited source makes a program stale, and then no step gets further. -/
theorem failed_staleProgram {s : Simulator} (h : s.attempt = .failed .staleProgram) :
    s.stale = true := by
  cases attempted_of_eq h with
  | stale hs => exact hs
  | lost _ _ _ hm =>
    obtain ⟨op, _, _, he⟩ := Flow.next_error_iff.mp (Machine.step_error_iff.mp hm)
    exact nomatch he

/-- What is done to a simulator at the end of a step or a run touches its status alone. -/
theorem settle_frame (s : Simulator) : s.settle = { s with status := s.settle.status } := by
  unfold settle
  split <;> rfl

theorem fault_frame (s : Simulator) (e : RunError) :
    s.fault e = { s with status := (s.fault e).status } := by
  unfold fault
  split <;> rfl

/-! ## 4. The status is not looked at -/

/-- A simulator with another status and another mark of its last run. -/
def label (s : Simulator) (status : Status) (hit : Bool) : Simulator :=
  { s with status, hitBreakpoint := hit }

/-- An attempt with the simulator it led to changed. -/
def Attempt.map (f : Simulator → Simulator) : Attempt → Attempt
  | .completed s => .completed (f s)
  | .halted => .halted
  | .failed e => .failed e

theorem attempt_label (s : Simulator) (status : Status) (hit : Bool) :
    (s.label status hit).attempt = s.attempt.map (·.label status hit) := by
  refine Attempted.eq ?_
  generalize ha : s.attempt = a
  cases attempted_of_eq ha with
  | stale edited => exact .stale edited
  | halted fresh past => exact .halted fresh past
  | passed fresh inside none => exact .passed fresh inside none
  | executed fresh inside instruction step => exact .executed fresh inside instruction step
  | lost fresh inside instruction step => exact .lost fresh inside instruction step

end Simulator
end Mcs51
