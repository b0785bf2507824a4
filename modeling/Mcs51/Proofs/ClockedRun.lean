import Mcs51.Proofs.Interleaving

/-!
# A clock runs a program as a run does

A clock and a run are two loops, written apart. The clock counts as running all the time, takes its
steps with their returns and status, and asks after each one whether to go on. A run looks at
breakpoints inside its loop, sees the status of no step, and sets it once, at its end. Left alone
the two come to the same.

The fact behind it is an equation for any number of ticks: a clock that has ticked `n` times is
where a run within `n` steps is, still on its way or at its end (`iterate_tick`). It goes by the
number of ticks and takes off the first one, as `advance` does. A run that does not start as running
differs in its label alone (`advance_label`), and the end of either sets that anew (`reach_label`).
-/

namespace Mcs51

namespace Simulator

variable {s : Simulator} {n : Nat} {r : Except RunError Unit × Simulator}

/-! ## 1. When a run returns -/

/-- A run returns after so many steps: they are enough, no fewer are, and more change nothing. A
step that fails or that finds the program over counts. -/
def ReturnsAfter (s : Simulator) (n : Nat) (r : Except RunError Unit × Simulator) : Prop :=
  ∀ bound, s.run? bound = if n ≤ bound then some r else none

theorem run?_of_exhausted (h : (advance (fun _ => true) n s.begin).2 = .exhausted) :
    s.run? n = none := by
  simp only [run?, runWhile?, h, if_true]

theorem run?_of_not_exhausted (h : (advance (fun _ => true) n s.begin).2 ≠ .exhausted) :
    s.run? n = some (finish (advance (fun _ => true) n s.begin)) := by
  simp only [run?, runWhile?, h, if_false]

/-- A run returns after the first number of steps that does not exhaust it. -/
theorem returnsAfter_iff :
    s.ReturnsAfter n r ↔
      ((advance (fun _ => true) n s.begin).2 ≠ .exhausted ∧
        ∀ k < n, (advance (fun _ => true) k s.begin).2 = .exhausted) ∧
      r = finish (advance (fun _ => true) n s.begin) := by
  constructor
  · intro h
    have hreturn : s.run? n = some r := by rw [h n, if_pos (Nat.le_refl n)]
    have hends : (advance (fun _ => true) n s.begin).2 ≠ .exhausted := by
      intro hex
      rw [run?_of_exhausted hex] at hreturn
      exact nomatch hreturn
    refine ⟨⟨hends, ?_⟩, ?_⟩
    · intro k hk
      by_contra hex
      have hk' := h k
      rw [run?_of_not_exhausted hex, if_neg (Nat.not_le.mpr hk)] at hk'
      exact nomatch hk'
    · rw [run?_of_not_exhausted hends] at hreturn
      exact (Option.some.inj hreturn).symm
  · rintro ⟨⟨hends, hearlier⟩, rfl⟩ bound
    by_cases hle : n ≤ bound
    · rw [if_pos hle, ← advance_of_le hle hends, run?_of_not_exhausted]
      rw [advance_of_le hle hends]
      exact hends
    · rw [if_neg hle]
      exact run?_of_exhausted (hearlier bound (Nat.lt_of_not_le hle))

/-- A run without a condition has three ways to end, and at a breakpoint one is met. -/
theorem advance_end (n : Nat) (s : Simulator) :
    let ended := advance (fun _ => true) n s
    ended.2 ≠ .unwanted ∧ (ended.2 = .breakpoint → ended.1.meetsBreakpoint = true) := by
  induction n generalizing s with
  | zero => simp [advance]
  | succ n ih =>
    simp only [advance, if_true]
    cases s.attempt with
    | completed t =>
      cases hb : t.meetsBreakpoint with
      | true => simp [hb]
      | false => simpa [hb] using ih t
    | halted | failed _ => simp

/-- How a run that has come to its end is left: the program is over, a step failed, or it is idle at
a breakpoint. -/
def LeftAt (r : Except RunError Unit × Simulator) : Prop :=
  r.1 = .ok () ∧ r.2.status = .halted ∨ (∃ e, r.1 = .error e ∧ r.2.status = .faulted e) ∨
    r.1 = .ok () ∧ r.2.status = .idle ∧ r.2.meetsBreakpoint = true

theorem leftAt_finish {ended : Simulator × RunEnd} (hstatus : ended.1.status ≠ .running)
    (hstale : ended.2 ≠ .failed .staleProgram) (hends : ended.2 ≠ .exhausted)
    (h : ended.2 ≠ .unwanted ∧ (ended.2 = .breakpoint → ended.1.meetsBreakpoint = true)) :
    LeftAt (finish ended) := by
  obtain ⟨s, ended⟩ := ended
  cases ended with
  | unwanted => exact absurd rfl h.1
  | exhausted => exact absurd rfl hends
  | halted => exact .inl ⟨rfl, rfl⟩
  | failed e =>
    have he : e ≠ .staleProgram := fun heq => hstale (heq ▸ rfl)
    right
    left
    refine ⟨e, rfl, ?_⟩
    show (s.fault e).status = .faulted e
    rw [fault, if_neg he]
  | breakpoint =>
    right
    right
    refine ⟨rfl, ?_, ?_⟩
    · show (settle { s with hitBreakpoint := true }).status = .idle
      rw [settle, if_neg hstatus]
    · exact (settle_meetsBreakpoint { s with hitBreakpoint := true }).trans (h.2 rfl)

/-- A simulator that counts as running is settled as it is. -/
theorem settle_of_running (h : s.status = .running) : s.settle = s := by
  rw [settle, if_pos h]

end Simulator

namespace Autorun

open Simulator (advance finish Ends RunEnd)

variable {a : Autorun} {s : Simulator} {n : Nat}

/-! ## 2. So many ticks -/

/-- A clock stops by itself with the tick of that number. -/
def EndsAfter (a : Autorun) (n : Nat) : Prop :=
  (tick^[n] a).clock = .spent ∧ ∀ k < n, (tick^[k] a).clock = .ticking

instance (a : Autorun) (n : Nat) : Decidable (a.EndsAfter n) :=
  inferInstanceAs (Decidable ((tick^[n] a).clock = .spent ∧ ∀ k < n, (tick^[k] a).clock = .ticking))

/-- A clock that has come as far as a run without a condition. One that has come to its end is left
as the run leaves it, but it does not set the mark, and it counts as running no longer. -/
def reach : Simulator × RunEnd → Autorun
  | (s, .exhausted) => ⟨s, .ticking⟩
  | (s, ended) =>
    ⟨release { (finish (s, ended)).2 with hitBreakpoint := s.hitBreakpoint }, .spent⟩

theorem reach_clock (ended : Simulator × RunEnd) :
    (reach ended).clock = if ended.2 = .exhausted then .ticking else .spent := by
  obtain ⟨s, ended⟩ := ended
  cases ended <;> rfl

/-- A tick that ends the clock is where a run ends, within however many steps. -/
theorem tick_eq_reach (hs : s.status = .running) (hends : Ends s.step) (n : Nat) :
    tick ⟨s, .ticking⟩ = reach (advance (fun _ => true) (n + 1) s) := by
  rw [tick_of_ticking rfl, if_pos hends]
  simp only [advance, if_true, Simulator.step] at hends ⊢
  cases ha : s.attempt with
  | completed t =>
    have ht : t.status = .running := by rw [Simulator.completed_frame ha, hs]
    have hmarked : { t with hitBreakpoint := true }.settle = { t with hitBreakpoint := true } :=
      Simulator.settle_of_running ht
    rw [ha] at hends
    have hb : t.meetsBreakpoint = true := Simulator.ends_completed_iff.mp hends
    simp only [hb, if_true, reach, finish, hmarked, Simulator.settle_of_running ht]
  | halted => simp [reach, finish, Simulator.halt]
  | failed e =>
    have hhit : (s.fault e).hitBreakpoint = s.hitBreakpoint := by rw [Simulator.fault_frame]
    simp [reach, finish, ← hhit]

/-- **A clock that has ticked `n` times is where a run within `n` steps is.** -/
theorem iterate_tick (n : Nat) {s : Simulator} (hs : s.status = .running) :
    tick^[n] ⟨s, .ticking⟩ = reach (advance (fun _ => true) n s) := by
  induction n generalizing s with
  | zero => rfl
  | succ n ih =>
    rw [Function.iterate_succ_apply]
    by_cases hends : Ends s.step
    · -- The clock is spent with this tick, and the others change nothing.
      rw [← tick_eq_reach hs hends n]
      refine Function.iterate_fixed (tick_of_not_ticking ?_) n
      rw [tick_of_ticking rfl, if_pos hends]
      exact nofun
    · obtain ⟨t, ha, _, hrest⟩ := Simulator.completed_of_not_ends hends
      have ht : t.status = .running := by rw [Simulator.completed_frame ha, hs]
      have hstep : s.step.2 = t := by
        rw [Simulator.step_completed ha, Simulator.settle_of_running ht]
      rw [tick_of_ticking rfl, if_neg hends, hrest, hstep]
      exact ih ht

theorem endsAfter_iff (hs : s.status = .running) :
    EndsAfter ⟨s, .ticking⟩ n ↔
      (advance (fun _ => true) n s).2 ≠ .exhausted ∧
        ∀ k < n, (advance (fun _ => true) k s).2 = .exhausted := by
  simp only [EndsAfter, iterate_tick _ hs, reach_clock]
  simp

/-! ## 3. The same end -/

/-- Where a clock comes to its end, a run from a simulator with another label leaves the same, but
    for the mark. A program that is stale is the exception, since then a run keeps the status. -/
theorem reach_label {s : Simulator} {ended : RunEnd} {status : Status} {hit other : Bool}
    (hstatus : status ≠ .running) (hends : ended ≠ .exhausted)
    (hstale : ended ≠ .failed .staleProgram) :
    (reach (s.label .running hit, ended)).sim =
      { (finish (s.label status other, ended)).2 with hitBreakpoint := hit } := by
  cases ended with
  | exhausted => exact absurd rfl hends
  | failed e =>
    have he : e ≠ .staleProgram := fun h => hstale (h ▸ rfl)
    simp [reach, finish, Simulator.fault, Simulator.label, release, he]
  | halted => simp [reach, finish, Simulator.halt, Simulator.label, release]
  | unwanted | breakpoint =>
    simp [reach, finish, Simulator.settle, Simulator.label, release, hstatus]

/-! ## 4. The theorem -/

/-- **A clock runs a program as a run does**, if nobody else touches the simulator, and if the
    program is not stale and does not run already. The clock stops by itself with the tick of some
    number exactly if a run returns after so many steps. Then the two have left the same simulator:
    halted, or with the error that the run returns, or idle at a breakpoint. The mark of the last
    run is what only the run sets. -/
theorem clock_runs_as_run (a : Autorun) (hclock : a.clock ≠ .ticking) (hstale : a.sim.stale = false)
    (hidle : a.sim.status ≠ .running) :
    (∀ n, a.start.2.EndsAfter n ↔ ∃ r, a.sim.ReturnsAfter n r) ∧
    ∀ n r, a.sim.ReturnsAfter n r →
      (tick^[n] a.start.2).sim = { r.2 with hitBreakpoint := a.sim.hitBreakpoint } ∧
        Simulator.LeftAt r := by
  have hstart : a.start.2 = ⟨a.sim.label .running a.sim.hitBreakpoint, .ticking⟩ := by
    rw [start_of_not_ticking hclock]
    rfl
  have hbegin : a.sim.begin = a.sim.label a.sim.status false := rfl
  -- Both go where the run of the simulator itself goes, each under its label.
  have hlabel : ∀ status hit k, advance (fun _ => true) k (a.sim.label status hit) =
      ((advance (fun _ => true) k a.sim).1.label status hit, (advance (fun _ => true) k a.sim).2) :=
    fun status hit k => Simulator.advance_label (fun _ => rfl) k a.sim
  constructor
  · intro n
    rw [hstart, endsAfter_iff rfl]
    simp only [Simulator.returnsAfter_iff, hbegin, hlabel, exists_eq_right]
  · intro n r hr
    obtain ⟨⟨hends, _⟩, rfl⟩ := Simulator.returnsAfter_iff.mp hr
    have hfresh : (advance (fun _ => true) n a.sim).2 ≠ .failed .staleProgram := by
      intro hfailed
      rw [Simulator.stale_of_advance hfailed] at hstale
      exact nomatch hstale
    rw [hbegin, hlabel] at hends ⊢
    rw [hstart, iterate_tick n rfl, hlabel]
    exact ⟨reach_label hidle hends hfresh,
      Simulator.leftAt_finish hidle hfresh hends (Simulator.advance_end n a.sim)⟩

/-- Two empty lines, in which nothing stops a run before the end. -/
def unattended : Autorun := new ((Simulator.new {}).load (.ofLines [none, none]))

/-- The third step is the one that finds the program over. -/
theorem unattended_clock_runs_as_run :
    unattended.clock ≠ .ticking ∧ unattended.sim.stale = false ∧ unattended.sim.status ≠ .running ∧
      ∃ r, unattended.sim.ReturnsAfter 3 r ∧
        (tick^[3] unattended.start.2).sim =
          { r.2 with hitBreakpoint := unattended.sim.hitBreakpoint } := by
  have hclock : unattended.clock ≠ .ticking := nofun
  have hidle : unattended.sim.status ≠ .running := nofun
  have hends : unattended.start.2.EndsAfter 3 := by decide +kernel
  obtain ⟨hreturns, hsame⟩ := clock_runs_as_run unattended hclock rfl hidle
  obtain ⟨r, hr⟩ := (hreturns 3).mp hends
  exact ⟨hclock, rfl, hidle, r, hr, (hsame 3 r hr).1⟩

end Autorun
end Mcs51
