import Mcs51.Autorun
import Mcs51.Proofs.BoundedRun
import Mcs51.Proofs.Renewal

/-!
# A clock and its owner take turns

A clock drives a simulator while its owner starts and stops it, takes steps of its own, and edits.
All of this happens in some order, one whole event at a time, and an order is a list of events. This
file says what holds after every such list.

One fact carries the rest: if the simulator counts as running then the clock ticks. The other way
round fails, since a step of the owner can end the program or fail while the clock goes on, and the
next tick then finds that out. Every event keeps the fact for a reason of its own: steps and edits
never make a simulator running, whatever ends a clock takes the status back, and only a start sets
it (`Autorun.Honest.perform`).

The second theme is that nothing happens by halves. `turns` lists the steps and inputs that a list
of events comes to, and on a simulator without a clock these have the same outcome, but for the
status.
-/

namespace Mcs51

/-- Whether an input says what the status is to be. A clock may do that, and its owner may not. -/
def Input.setsStatus : Input → Bool
  | .configure _ _ _ _ => true
  | _ => false

namespace Autorun

/-! ## 1. Events -/

/-- What can happen to a simulator with a clock, while it ticks or while it does not. -/
inductive Event
  | start
  | stop
  | tick
  /-- The owner takes a step. -/
  | step
  /-- The owner edits the simulator, in any way that is not below. -/
  | edit (x : Input) (h : x.setsStatus = false)
  /-- The owner sets what the user can set; the status is not among it. -/
  | configure (flags : Flags) (breakpoints : List Breakpoint) (steps : UInt64)

def perform (a : Autorun) : Event → Autorun
  | .start => a.start.2
  | .stop => a.stop
  | .tick => a.tick
  | .step => a.step.2
  | .edit x _ => a.change (·.accept x)
  | .configure flags breakpoints steps => a.change fun s => { s with flags, breakpoints, steps }

def performAll (a : Autorun) (events : List Event) : Autorun := events.foldl perform a

/-- The step or input that an event comes to, if to any: a tick comes to a step while the clock
ticks, and to nothing once it does not. -/
def turn (a : Autorun) : Event → List Action
  | .start => []
  | .stop => []
  | .tick => if a.isRunning then [.step] else []
  | .step => [.step]
  | .edit x _ => [.input x]
  | .configure flags breakpoints steps =>
    [.input (.configure flags breakpoints steps a.sim.status)]

def turns (a : Autorun) : List Event → List Action
  | [] => []
  | event :: rest => a.turn event ++ turns (a.perform event) rest

end Autorun

/-! ## 2. The status -/

namespace Simulator

variable {s t : Simulator} {x : Input}

/-- A step does not make a simulator running. -/
theorem step_status (h : s.step.2.status = .running) : s.status = .running := by
  unfold step at h
  cases ha : s.attempt with
  | completed t =>
    rw [ha] at h
    have ht : t.status = s.status := by rw [completed_frame ha]
    rw [← ht]
    by_contra hidle
    simp [settle, hidle] at h
  | halted =>
    rw [ha] at h
    cases h
  | failed e =>
    rw [ha] at h
    by_contra hidle
    dsimp only [fault] at h
    split at h
    · exact hidle h
    · cases h

theorem IsFresh.status (h : s.IsFresh) : s.status = .idle := by
  obtain ⟨drawn, hs⟩ := h
  rw [← hs]
  rfl

/-- Neither does an edit. -/
theorem accept_status (hx : x.setsStatus = false) (h : (s.accept x).status = .running) :
    s.status = .running := by
  cases hrenews : s.renews x with
  | true =>
    rw [(isFresh_of_renews hrenews).status] at h
    exact nomatch h
  | false =>
    -- What is left are the inputs that change bytes or the source, and loads that are refused.
    cases x with
    | configure => exact nomatch hx
    | load | reset => exact nomatch hrenews
    | receive | edit => exact h
    | toggle addr index =>
      simp only [accept, togglePin] at h
      split at h <;> exact h
    | loadText source => rwa [accept_of_refused hrenews] at h
    | reload => rwa [accept_reload_of_refused hrenews] at h

/-- What a step does, but for the status, does not depend on the status. -/
theorem step_bare (s : Simulator) : s.bare.step.2.bare = s.step.2.bare := by
  have hbare : s.bare.attempt = s.attempt.map (·.label .idle false) := s.attempt_label .idle false
  cases ha : s.attempt with
  | completed t =>
    rw [ha] at hbare
    rw [step_bare_of_completed ha, step_bare_of_completed hbare]
    rfl
  | halted | failed e =>
    have hs : ∀ t, s.attempt ≠ .completed t := by simp [ha]
    have hb : ∀ t, s.bare.attempt ≠ .completed t := by simp [hbare, ha, Attempt.map]
    rw [step_bare_of_not_completed hs, step_bare_of_not_completed hb]
    rfl

/-- A load sets what `bare` forgets. -/
theorem loadText_bare (s : Simulator) (source : String) (drawn : Ram) :
    s.bare.loadText source drawn = s.loadText source drawn := by
  simp only [Simulator.loadText, Simulator.load, Simulator.reset, bare, label]

theorem accept_bare (s : Simulator) (x : Input) : (s.bare.accept x).bare = (s.accept x).bare := by
  have hload : ∀ source drawn, ((s.bare.loadText source drawn).toOption.getD s.bare).bare =
      ((s.loadText source drawn).toOption.getD s).bare := by
    intro source drawn
    rw [loadText_bare]
    cases s.loadText source drawn <;> rfl
  cases x with
  | receive | edit | configure => rfl
  | reset | load => simp only [accept, Simulator.load, Simulator.reset, bare, label]
  | toggle addr index =>
    simp only [accept, togglePin, bare, label]
    split <;> rfl
  | loadText source drawn => exact hload source drawn
  | reload drawn =>
    have hsource : s.bare.source = s.source := rfl
    simp only [accept, Simulator.reload, hsource]
    cases s.source with
    | none => simp only [Except.toOption, Option.getD_some, Simulator.reset, bare, label]
    | some source => exact hload source drawn

end Simulator

namespace Autorun

open Simulator (Ends)

variable {a : Autorun}

/-! ## 3. One event -/

theorem isRunning_iff : a.isRunning = true ↔ a.clock = .ticking := decide_eq_true_iff

/-- A clock goes on after a step exactly if a run would. -/
theorem goesOn_iff {r : Except RunError Unit × Simulator} : goesOn r = true ↔ ¬ Ends r := by
  unfold goesOn Ends
  cases r.1 <;> simp [Simulator.isHalted]

theorem tick_of_ticking (h : a.clock = .ticking) :
    a.tick = if Ends a.sim.step then ⟨release a.sim.step.2, .spent⟩
      else ⟨a.sim.step.2, .ticking⟩ := by
  unfold tick
  rw [if_pos (isRunning_iff.mpr h)]
  by_cases hends : Ends a.sim.step
  · have hstop : goesOn a.sim.step = false := by
      rw [← Bool.not_eq_true, goesOn_iff]
      exact not_not_intro hends
    simp [hends, hstop]
  · simp [hends, goesOn_iff.mpr hends]

theorem tick_of_not_ticking (h : a.clock ≠ .ticking) : a.tick = a := by
  unfold tick
  rw [if_neg]
  rwa [isRunning_iff]

theorem start_of_ticking (h : a.clock = .ticking) : a.start = (false, a) := by
  unfold start
  rw [if_pos (isRunning_iff.mpr h)]

theorem start_of_not_ticking (h : a.clock ≠ .ticking) :
    a.start = (true, ⟨{ a.sim with status := .running }, .ticking⟩) := by
  unfold start
  rw [if_neg]
  rwa [isRunning_iff]

theorem release_status (s : Simulator) : (release s).status ≠ .running := by
  unfold release
  split
  · exact nofun
  · next hidle => exact hidle

theorem release_of_not_running {s : Simulator} (h : s.status ≠ .running) : release s = s := by
  unfold release
  rw [if_neg h]

theorem release_bare (s : Simulator) : (release s).bare = s.bare := by
  unfold release
  split <;> rfl

/-- What counts as running has a clock that ticks. -/
def Honest (a : Autorun) : Prop := a.sim.status = .running → a.clock = .ticking

theorem Honest.not_running (h : a.Honest) (hclock : a.clock ≠ .ticking) :
    a.sim.status ≠ .running :=
  fun hrunning => hclock (h hrunning)

theorem stop_of_off (h : a.clock = .off) : a.stop = a := by
  unfold stop
  rw [if_pos h]

theorem stop_of_not_off (h : a.clock ≠ .off) : a.stop = ⟨release a.sim, .off⟩ := by
  unfold stop
  rw [if_neg h]

/-- A clock is started and stopped without a change to anything but the status. -/
theorem start_bare (a : Autorun) : a.start.2.sim.bare = a.sim.bare := by
  by_cases hclock : a.clock = .ticking
  · rw [start_of_ticking hclock]
  · rw [start_of_not_ticking hclock]
    rfl

theorem stop_bare (a : Autorun) : a.stop.sim.bare = a.sim.bare := by
  by_cases hoff : a.clock = .off
  · rw [stop_of_off hoff]
  · rw [stop_of_not_off hoff]
    exact release_bare a.sim

theorem Honest.stop_status (h : a.Honest) : a.stop.sim.status ≠ .running := by
  by_cases hoff : a.clock = .off
  · rw [stop_of_off hoff]
    exact h.not_running (by simp [hoff])
  · rw [stop_of_not_off hoff]
    exact release_status a.sim

/-- **Every event keeps the status honest.** -/
theorem Honest.perform (h : a.Honest) (event : Event) : (a.perform event).Honest := by
  intro hrunning
  cases event with
  | start =>
    show a.start.2.clock = .ticking
    by_cases hclock : a.clock = .ticking
    · rw [start_of_ticking hclock]
      exact hclock
    · rw [start_of_not_ticking hclock]
  | stop => exact absurd hrunning h.stop_status
  | tick =>
    show a.tick.clock = .ticking
    have hrunning : a.tick.sim.status = .running := hrunning
    by_cases hclock : a.clock = .ticking
    · rw [tick_of_ticking hclock] at hrunning ⊢
      split at hrunning
      · exact absurd hrunning (release_status _)
      · next hends => rw [if_neg hends]
    · rw [tick_of_not_ticking hclock] at hrunning
      exact absurd (h hrunning) hclock
  | step => exact h (Simulator.step_status hrunning)
  | edit x hx => exact h (Simulator.accept_status hx hrunning)
  | configure => exact h hrunning

/-- **Every event is the steps and inputs it comes to**, on any simulator that differs in its status
    alone. -/
theorem perform_bare {t : Simulator} (h : a.sim.bare = t.bare) (event : Event) :
    (a.perform event).sim.bare = (t.performAll (a.turn event)).bare := by
  have hstep : a.sim.step.2.bare = t.step.2.bare := by
    rw [← Simulator.step_bare a.sim, h, Simulator.step_bare]
  have haccept : ∀ x, (a.sim.accept x).bare = (t.accept x).bare := by
    intro x
    rw [← Simulator.accept_bare a.sim, h, Simulator.accept_bare]
  cases event with
  | start => exact a.start_bare.trans h
  | stop => exact a.stop_bare.trans h
  | tick =>
    show a.tick.sim.bare = (t.performAll (if a.isRunning then [.step] else [])).bare
    by_cases hclock : a.clock = .ticking
    · rw [if_pos (isRunning_iff.mpr hclock), tick_of_ticking hclock]
      split
      · exact (release_bare _).trans hstep
      · exact hstep
    · rw [if_neg (mt isRunning_iff.mp hclock), tick_of_not_ticking hclock]
      exact h
  | step => exact hstep
  | edit x hx => exact haccept x
  | configure flags breakpoints steps =>
    exact haccept (.configure flags breakpoints steps a.sim.status)

/-! ## 4. Any order of events -/

theorem Honest.performAll (h : a.Honest) (events : List Event) : (a.performAll events).Honest := by
  induction events generalizing a with
  | nil => exact h
  | cons event rest ih => exact ih (h.perform event)

theorem performAll_bare {t : Simulator} (h : a.sim.bare = t.bare) (events : List Event) :
    (a.performAll events).sim.bare = (t.performAll (a.turns events)).bare := by
  induction events generalizing a t with
  | nil => exact h
  | cons event rest ih =>
    have hrest := ih (perform_bare h event)
    rw [turns, Simulator.performAll, List.foldl_append]
    exact hrest

/-- What clock and owner can rely on. -/
structure Orderly (a : Autorun) : Prop where
  running : a.sim.status = .running → a.clock = .ticking
  spent : a.clock = .spent → a.sim.status ≠ .running
  stopped : a.stop.clock = .off ∧ a.stop.sim.status ≠ .running
  /-- Without a clock there is nothing to stop, and a clock that has stopped by itself has left
  nothing to do but to put it away. -/
  notStopped : (a.clock = .off → a.stop = a) ∧ (a.clock ≠ .ticking → a.stop.sim = a.sim)
  refused : a.start.1 = false ↔ a.clock = .ticking
  notStarted : a.start.1 = false → a.start.2 = a
  /-- A tick is one whole step, and the clock is spent if a run would end there. -/
  ticked : a.clock = .ticking → a.tick.sim.bare = a.sim.step.2.bare ∧
    (¬ Ends a.sim.step ∧ a.tick.sim = a.sim.step.2 ∧ a.tick.clock = .ticking ∨
      Ends a.sim.step ∧ a.tick.clock = .spent)
  notTicked : a.clock ≠ .ticking → a.tick = a
  stepped : a.step.1 = a.sim.step.1 ∧ a.step.2.sim = a.sim.step.2 ∧ a.step.2.clock = a.clock

theorem Honest.orderly (h : a.Honest) : a.Orderly where
  running := h
  spent := by
    intro hspent
    exact h.not_running (by simp [hspent])
  stopped := by
    refine ⟨?_, h.stop_status⟩
    by_cases hoff : a.clock = .off
    · rw [stop_of_off hoff]
      exact hoff
    · rw [stop_of_not_off hoff]
  notStopped := by
    refine ⟨stop_of_off, ?_⟩
    intro hclock
    by_cases hoff : a.clock = .off
    · rw [stop_of_off hoff]
    · rw [stop_of_not_off hoff]
      exact release_of_not_running (h.not_running hclock)
  refused := by
    constructor
    · intro hrefused
      by_contra hclock
      rw [start_of_not_ticking hclock] at hrefused
      exact nomatch hrefused
    · intro hclock
      rw [start_of_ticking hclock]
  notStarted := by
    intro hrefused
    by_cases hclock : a.clock = .ticking
    · rw [start_of_ticking hclock]
    · rw [start_of_not_ticking hclock] at hrefused
      exact nomatch hrefused
  ticked := by
    intro hclock
    rw [tick_of_ticking hclock]
    by_cases hends : Ends a.sim.step
    · rw [if_pos hends]
      exact ⟨release_bare _, .inr ⟨hends, rfl⟩⟩
    · rw [if_neg hends]
      exact ⟨rfl, .inl ⟨hends, rfl, rfl⟩⟩
  notTicked := tick_of_not_ticking
  stepped := ⟨rfl, rfl, rfl⟩

/-- **A clock and its owner take turns**, in any order of events on a simulator that does not count
    as running at the start. What counts as running has a clock that ticks; after a stop, and once
    the clock has stopped by itself, nothing counts as running. A start is refused exactly while the
    clock ticks, and then nothing changes; a stop changes nothing where there is no clock. A tick is
    one whole step of the simulator or none at all, and a step of the owner is one. So what comes of
    it all is what the steps and inputs do, one after the other, to the simulator without a clock.
    -/
theorem clock_and_owner_take_turns (sim : Simulator) (events : List Event)
    (h : sim.status ≠ .running) :
    ((new sim).performAll events).Orderly ∧
      ((new sim).performAll events).sim.bare =
        (sim.performAll ((new sim).turns events)).bare := by
  have hnew : (new sim).Honest := fun hrunning => absurd hrunning h
  exact ⟨(hnew.performAll events).orderly, performAll_bare rfl events⟩

/-- Two empty lines, of which the owner passes one and the clock the other. -/
def shared : Simulator := (Simulator.new {}).load (.ofLines [none, none])

def sharedEvents : List Event := [.start, .step, .edit (.receive 0x41) rfl, .tick, .tick, .tick]

def sharedEnd : Autorun := (new shared).performAll sharedEvents

/-- The second tick finds the program over, and the third one finds the clock spent. -/
theorem shared_clock_and_owner_take_turns :
    shared.status ≠ .running ∧ sharedEnd.clock = .spent ∧ sharedEnd.sim.machine.pc = 2 ∧
      sharedEnd.sim.status ≠ .running ∧ sharedEnd.tick = sharedEnd := by
  have hidle : shared.status ≠ .running := nofun
  have hend : sharedEnd.clock = .spent ∧ sharedEnd.sim.machine.pc = 2 := by decide +kernel
  have horderly : sharedEnd.Orderly := (clock_and_owner_take_turns shared sharedEvents hidle).1
  refine ⟨hidle, hend.1, hend.2, horderly.spent hend.1, horderly.notTicked ?_⟩
  rw [hend.1]
  exact nofun

end Autorun
end Mcs51
