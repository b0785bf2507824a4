import Mcs51.Proofs.NextStep
import Mcs51.Simulator.Run

/-!
# The course of a simulator

What is done to a simulator is a list of actions: steps, runs, and inputs from outside, in any
order. A run takes as many steps as it comes to, so a list of actions does not show what happens;
`moments` takes it apart into single steps and inputs, each with the simulator it happens to.

Between two moments a run or a step may settle the status, and nothing else, and no step looks at
it. So a simulator without its status, which is what `bare` gives, goes as it is from the end of one
moment to the beginning of the next (`Chained`). Laws about a whole course are proved along that:
what every moment keeps is kept from the first simulator to the last (`Chained.invariant`). A law
that bears on the machine alone goes by `Linked`, which forgets the rest.

The bytes that a load or a reset draws come from outside like the rest of the input, so a law about
every course is one for whatever is drawn.
-/

namespace Mcs51

/-! ## 1. Actions -/

/-- What reaches a simulator from outside, other than to be run. What makes a machine brings the
bytes that it draws. -/
inductive Input
  | toggle (addr : Byte) (index : Nat)
  | receive (byte : Byte)
  | load (program : Program) (drawn : Ram)
  | loadText (source : String) (drawn : Ram)
  | edit (source : String)
  | reload (drawn : Ram)
  | reset (drawn : Ram)
  /-- The user sets what the user can set, or a clock begins or ceases to drive the simulator. -/
  | configure (flags : Flags) (breakpoints : List Breakpoint) (steps : UInt64) (status : Status)

/-- What is done to a simulator. A run without a bound that ends is one within a bound that is high
enough. -/
inductive Action
  | step
  | run (goOn : Simulator → Bool) (bound : Nat)
  | input (x : Input)

/-- What happens to a simulator: it takes a step, or an input reaches it. -/
inductive Moment
  | step (before : Simulator)
  | input (before : Simulator) (x : Input)

namespace Simulator

/-- The simulator after an input. One that is refused leaves it as it was. -/
def accept (s : Simulator) : Input → Simulator
  | .toggle addr index => (s.togglePin addr index).toOption.getD s
  | .receive byte => s.receive byte
  | .load program drawn => s.load program drawn
  | .loadText source drawn => (s.loadText source drawn).toOption.getD s
  | .edit source => s.edit source
  | .reload drawn => (s.reload drawn).toOption.getD s
  | .reset drawn => s.reset drawn
  | .configure flags breakpoints steps status => { s with flags, breakpoints, steps, status }

/-- Whether an input puts the machine back to its start: a reset, or a load that is not refused. -/
def renews (s : Simulator) : Input → Bool
  | .load _ _ => true
  | .loadText source drawn => (s.loadText source drawn).toOption.isSome
  | .reload drawn => (s.reload drawn).toOption.isSome
  | .reset _ => true
  | _ => false

/-- The simulator after an action. A run that has not come to its end within the bound has taken so
many steps. -/
def perform (s : Simulator) : Action → Simulator
  | .step => s.step.2
  | .run goOn bound => (finish (advance goOn bound s.begin)).2
  | .input x => s.accept x

def performAll (s : Simulator) (actions : List Action) : Simulator := actions.foldl perform s

/-- The steps of a run. The last one is the one that is not completed or leads to a breakpoint, if
there is one. -/
def runMoments (goOn : Simulator → Bool) : Nat → Simulator → List Moment
  | 0, _ => []
  | bound + 1, s =>
    if goOn s then
      .step s ::
        match s.attempt with
        | .completed t => if t.meetsBreakpoint then [] else runMoments goOn bound t
        | .halted => []
        | .failed _ => []
    else []

def momentsOf (s : Simulator) : Action → List Moment
  | .step => [.step s]
  | .run goOn bound => runMoments goOn bound s.begin
  | .input x => [.input s x]

/-- What happens in a course of actions, in order. -/
def moments (s : Simulator) : List Action → List Moment
  | [] => []
  | action :: rest => s.momentsOf action ++ moments (s.perform action) rest

end Simulator

namespace Moment

def before : Moment → Simulator
  | .step s => s
  | .input s _ => s

def after : Moment → Simulator
  | .step s => s.step.2
  | .input s x => s.accept x

/-- The interrupt that is gone into. -/
def interrupt? : Moment → Option Interrupt
  | .step s => s.interrupt?
  | .input _ _ => none

end Moment

/-! ## 3. Without the status -/

namespace Simulator

variable {s t : Simulator}

/-- A simulator without what running leaves on it: its status and the mark of its last run. -/
def bare (s : Simulator) : Simulator := s.label .idle false

theorem settle_bare (s : Simulator) : s.settle.bare = s.bare := by
  rw [settle_frame]
  rfl

theorem fault_bare (s : Simulator) (e : RunError) : (s.fault e).bare = s.bare := by
  rw [fault_frame]
  rfl

/-- How a run is brought to its end does not show without the status. -/
theorem finish_bare (ended : Simulator × RunEnd) : (finish ended).2.bare = ended.1.bare := by
  obtain ⟨s, e⟩ := ended
  cases e with
  | unwanted | exhausted => exact s.settle_bare
  | breakpoint => exact settle_bare _
  | halted => rfl
  | failed e => exact s.fault_bare e

theorem step_bare_of_completed (h : s.attempt = .completed t) : s.step.2.bare = t.bare := by
  simp only [step, h]
  exact t.settle_bare

/-- A step that is not completed leaves all but the status as it was. -/
theorem step_bare_of_not_completed (h : ∀ t, s.attempt ≠ .completed t) :
    s.step.2.bare = s.bare := by
  unfold step
  cases ha : s.attempt with
  | completed t => exact absurd ha (h t)
  | halted => rfl
  | failed e => exact s.fault_bare e

end Simulator

/-! ## 4. From one moment to the next -/

/-- Each moment finds the simulator that the one before it left, but for the status. -/
inductive Chained : Simulator → List Moment → Simulator → Prop
  | nil {s t : Simulator} (h : s.bare = t.bare) : Chained s [] t
  | cons {s t : Simulator} {x : Moment} {rest : List Moment} (h : s.bare = x.before.bare)
      (hrest : Chained x.after rest t) : Chained s (x :: rest) t

namespace Chained

variable {s t u : Simulator} {front back moments : List Moment} {x : Moment}

theorem of_bare (h : s.bare = t.bare) (ht : Chained t moments u) : Chained s moments u := by
  cases ht with
  | nil ht => exact .nil (h.trans ht)
  | cons ht hrest => exact .cons (h.trans ht) hrest

theorem append (h : Chained s front t) (h' : Chained t back u) : Chained s (front ++ back) u := by
  induction h with
  | nil h => exact h'.of_bare h
  | cons h _ ih => exact .cons h (ih h')

theorem exists_of_append (h : Chained s (front ++ back) u) :
    ∃ t, Chained s front t ∧ Chained t back u := by
  induction front generalizing s with
  | nil => exact ⟨s, .nil rfl, h⟩
  | cons x front ih =>
    cases h with
    | cons hx hrest =>
      obtain ⟨t, hfront, hback⟩ := ih hrest
      exact ⟨t, .cons hx hfront, hback⟩

/-- What comes before a moment leads to the simulator that the moment finds, and the moment with
what comes after it goes on from there. -/
theorem split (h : Chained s (front ++ x :: back) t) :
    Chained s front x.before ∧ Chained x.before (x :: back) t := by
  obtain ⟨u, hfront, hback⟩ := h.exists_of_append
  cases hback with
  | cons hx hrest =>
    have happend := hfront.append (.nil hx)
    rw [List.append_nil] at happend
    exact ⟨happend, .cons rfl hrest⟩

/-- **What every moment keeps is kept by a course**, if it is said without the status. -/
theorem invariant {P : Simulator → Prop} (hbare : ∀ s t : Simulator, s.bare = t.bare → P s → P t)
    (h : Chained s moments t) (hkeeps : ∀ x ∈ moments, P x.before → P x.after) (hs : P s) :
    P t ∧ ∀ x ∈ moments, P x.before := by
  induction h with
  | nil hst => exact ⟨hbare _ _ hst hs, List.forall_mem_nil _⟩
  | cons hx _ ih =>
    have hbefore := hbare _ _ hx hs
    have hrest := ih (fun y hy => hkeeps y (List.mem_cons_of_mem _ hy))
      (hkeeps _ List.mem_cons_self hbefore)
    exact ⟨hrest.1, List.forall_mem_cons.mpr ⟨hbefore, hrest.2⟩⟩

end Chained

namespace Simulator

theorem chained_step {s t u : Simulator} {rest : List Moment} (ht : s.step.2.bare = t.bare)
    (h : Chained t rest u) : Chained s (.step s :: rest) u :=
  .cons (x := .step s) rfl (h.of_bare ht)

theorem chained_runMoments (goOn : Simulator → Bool) (bound : Nat) (s : Simulator) :
    Chained s (runMoments goOn bound s) (advance goOn bound s).1 := by
  induction bound generalizing s with
  | zero => exact .nil rfl
  | succ bound ih =>
    -- The moments branch as the run does, and only a step that is completed leads on.
    simp only [runMoments, advance]
    cases goOn s with
    | false => exact .nil rfl
    | true =>
      cases ha : s.attempt with
      | completed t =>
        apply chained_step (step_bare_of_completed ha)
        cases hb : t.meetsBreakpoint with
        | true =>
          simp only [hb, if_true]
          exact .nil rfl
        | false =>
          simp only [hb, if_true, Bool.false_eq_true, if_false]
          exact ih t
      | halted => exact chained_step (step_bare_of_not_completed (by simp [ha])) (.nil rfl)
      | failed e => exact chained_step (step_bare_of_not_completed (by simp [ha])) (.nil rfl)

theorem chained_momentsOf (s : Simulator) (action : Action) :
    Chained s (s.momentsOf action) (s.perform action) := by
  cases action with
  | step => exact .cons (x := .step s) rfl (.nil rfl)
  | input x => exact .cons (x := .input s x) rfl (.nil rfl)
  | run goOn bound =>
    have hbegin : s.bare = s.begin.bare := rfl
    have hrun := (chained_runMoments goOn bound s.begin).of_bare hbegin
    have hend : Chained (advance goOn bound s.begin).1 [] (s.perform (.run goOn bound)) :=
      .nil (finish_bare _).symm
    have happend := hrun.append hend
    rwa [List.append_nil] at happend

/-- **The moments of a course are chained**, from the simulator at its start to the one at its
    end. -/
theorem chained_moments (s : Simulator) (actions : List Action) :
    Chained s (s.moments actions) (s.performAll actions) := by
  induction actions generalizing s with
  | nil => exact .nil rfl
  | cons action rest ih => exact (s.chained_momentsOf action).append (ih _)

theorem exists_step_of_mem_runMoments {goOn : Simulator → Bool} {bound : Nat} {s : Simulator}
    {x : Moment} (hx : x ∈ runMoments goOn bound s) : ∃ t, x = .step t := by
  induction bound generalizing s with
  | zero => exact nomatch hx
  | succ bound ih =>
    simp only [runMoments] at hx
    split at hx
    · rcases List.mem_cons.mp hx with rfl | hx
      · exact ⟨s, rfl⟩
      · split at hx
        · split at hx
          · exact nomatch hx
          · exact ih hx
        · exact nomatch hx
        · exact nomatch hx
    · exact nomatch hx

/-- The inputs among the moments of a course are those of its actions. -/
theorem step_or_input_of_mem_moments {s : Simulator} {actions : List Action} {x : Moment}
    (hx : x ∈ s.moments actions) :
    (∃ t, x = .step t) ∨ ∃ t y, x = .input t y ∧ .input y ∈ actions := by
  induction actions generalizing s with
  | nil => exact nomatch hx
  | cons action rest ih =>
    rcases List.mem_append.mp hx with hfirst | hlater
    · cases action with
      | step => exact .inl ⟨s, List.mem_singleton.mp hfirst⟩
      | run goOn bound => exact .inl (exists_step_of_mem_runMoments hfirst)
      | input y => exact .inr ⟨s, y, List.mem_singleton.mp hfirst, List.mem_cons_self⟩
    · rcases ih hlater with hstep | ⟨t, y, hxy, hy⟩
      · exact .inl hstep
      · exact .inr ⟨t, y, hxy, List.mem_cons_of_mem action hy⟩

end Simulator

/-! ## 5. The machine alone -/

/-- Each moment finds the machine that the one before it left. -/
inductive Linked : Machine → List Moment → Machine → Prop
  | nil (m : Machine) : Linked m [] m
  | cons {x : Moment} {rest : List Moment} {m : Machine} (h : Linked x.after.machine rest m) :
      Linked x.before.machine (x :: rest) m

theorem Linked.exists_of_append {m m' : Machine} {front back : List Moment}
    (h : Linked m (front ++ back) m') :
    ∃ middle, Linked m front middle ∧ Linked middle back m' := by
  induction front generalizing m with
  | nil => exact ⟨m, .nil m, h⟩
  | cons x front ih =>
    cases h with
    | cons h =>
      obtain ⟨middle, hfront, hback⟩ := ih h
      exact ⟨middle, .cons hfront, hback⟩

/-- What comes before a moment leads to the machine that the moment finds. -/
theorem Linked.before {m m' : Machine} {x : Moment} {front back : List Moment}
    (h : Linked m (front ++ x :: back) m') : Linked m front x.before.machine := by
  obtain ⟨middle, hfront, hback⟩ := h.exists_of_append
  cases hback with
  | cons => exact hfront

theorem Simulator.machine_of_bare {s t : Simulator} (h : s.bare = t.bare) :
    s.machine = t.machine := by
  show s.bare.machine = t.bare.machine
  rw [h]

/-- Moments that are chained are linked. -/
theorem Chained.linked {s t : Simulator} {moments : List Moment} (h : Chained s moments t) :
    Linked s.machine moments t.machine := by
  induction h with
  | nil hst =>
    rw [Simulator.machine_of_bare hst]
    exact .nil _
  | cons hx _ ih =>
    rw [Simulator.machine_of_bare hx]
    exact .cons ih

/-- **The moments of a course are linked**, from the machine at its start to the one at its end. -/
theorem Simulator.linked_moments (s : Simulator) (actions : List Action) :
    Linked s.machine (s.moments actions) (s.performAll actions).machine :=
  (s.chained_moments actions).linked

end Mcs51
