import Mcs51.Proofs.Frame
import Mcs51.Proofs.Renewal

/-!
# Interrupts do not nest

Whether an interrupt routine runs is one bit of the machine. It is set where a step goes into an
interrupt, at the end of the step, and it is cleared by the instruction `RETI`, at its beginning,
and by a load or a reset. A program cannot reach it in any other way: it is not in memory.

`Interrupt.Event` are these three, and `Simulator.interruptLog` writes them down for a whole course.
A step may have two, a return and then an interrupt. `Interrupt.Marks` says which logs are possible
between two values of the bit; one moment gives such a log (`Moment.marks`), and so does a course
(`Linked.marks`). What a log says about the bit is then a matter of lists
(`Interrupt.Marks.eq_true_iff`), and `interrupts_do_not_nest` puts the two together.
-/

namespace Mcs51

/-! ## 1. Logs -/

namespace Interrupt

/-- What bears on whether an interrupt routine runs. -/
inductive Event
  /-- The machine was put back to its start, by a load or a reset. -/
  | renewed
  /-- A `RETI` was executed. -/
  | returned
  | taken (i : Interrupt)
  deriving DecidableEq, Repr

/-- An interrupt was taken, and neither a return nor a new start has come since. -/
def UnderWay (log : List Event) : Prop :=
  ∃ earlier i later, log = earlier ++ .taken i :: later ∧ .renewed ∉ later ∧ .returned ∉ later

/-- The logs that lead from one value of the bit to another: an interrupt is only taken while no
routine runs. -/
inductive Marks : Bool → List Event → Bool → Prop
  | nil (b : Bool) : Marks b [] b
  | renewed {a b : Bool} {rest : List Event} (h : Marks false rest b) : Marks a (.renewed :: rest) b
  | returned {a b : Bool} {rest : List Event} (h : Marks false rest b) :
      Marks a (.returned :: rest) b
  | taken {b : Bool} {i : Interrupt} {rest : List Event} (h : Marks true rest b) :
      Marks false (.taken i :: rest) b

variable {a b c : Bool} {log front back : List Event}

theorem Marks.append (h : Marks a front b) (h' : Marks b back c) : Marks a (front ++ back) c := by
  induction h with
  | nil => exact h'
  | renewed _ ih => exact .renewed (ih h')
  | returned _ ih => exact .returned (ih h')
  | taken _ ih => exact .taken (ih h')

theorem Marks.exists_of_append (h : Marks a (front ++ back) c) :
    ∃ b, Marks a front b ∧ Marks b back c := by
  induction front generalizing a with
  | nil => exact ⟨a, .nil a, h⟩
  | cons x front ih =>
    cases h with
    | renewed h =>
      obtain ⟨b, hf, hb⟩ := ih h
      exact ⟨b, .renewed hf, hb⟩
    | returned h =>
      obtain ⟨b, hf, hb⟩ := ih h
      exact ⟨b, .returned hf, hb⟩
    | taken h =>
      obtain ⟨b, hf, hb⟩ := ih h
      exact ⟨b, .taken hf, hb⟩

theorem not_underWay_nil : ¬ UnderWay [] := by
  rintro ⟨earlier, i, later, h, _⟩
  cases earlier <;> exact nomatch h

theorem underWay_cons_iff {x : Event} :
    UnderWay (x :: log) ↔
      UnderWay log ∨ (∃ i, x = .taken i) ∧ .renewed ∉ log ∧ .returned ∉ log := by
  constructor
  · rintro ⟨earlier, i, later, h, hno⟩
    cases earlier with
    | nil =>
      obtain ⟨rfl, rfl⟩ := List.cons.inj h
      exact .inr ⟨⟨i, rfl⟩, hno⟩
    | cons y earlier =>
      obtain ⟨rfl, rfl⟩ := List.cons.inj h
      exact .inl ⟨earlier, i, later, rfl, hno⟩
  · rintro (⟨earlier, i, later, rfl, hno⟩ | ⟨⟨i, rfl⟩, hno⟩)
    · exact ⟨x :: earlier, i, later, rfl, hno⟩
    · exact ⟨[], i, log, rfl, hno⟩

/-- **The bit at the end of a log**: an interrupt is under way, or one was from before and nothing
    has ended it. -/
theorem Marks.eq_true_iff (h : Marks a log b) :
    b = true ↔ UnderWay log ∨ a = true ∧ .renewed ∉ log ∧ .returned ∉ log := by
  induction h with
  | nil => simp [not_underWay_nil]
  | renewed _ ih | returned _ ih =>
    rw [ih, underWay_cons_iff]
    simp
  | taken _ ih =>
    rw [ih, underWay_cons_iff]
    simp

theorem Marks.separated {i j : Interrupt} {earlier between later : List Event}
    (h : Marks a (earlier ++ .taken i :: (between ++ .taken j :: later)) b)
    (hno : .renewed ∉ between) : .returned ∈ between := by
  obtain ⟨_, _, h⟩ := h.exists_of_append
  cases h with
  | taken h =>
    obtain ⟨c, hbetween, h⟩ := h.exists_of_append
    cases h with
    | taken =>
      have hend := mt hbetween.eq_true_iff.mpr Bool.false_ne_true
      apply Decidable.byContradiction
      intro hreturn
      exact hend (.inr ⟨rfl, hno, hreturn⟩)

end Interrupt

/-! ## 2. The log of a course -/

open Interrupt (Event Marks UnderWay)

namespace Simulator

/-- What bears on the bit in a step: first the instruction, if it is a return, and in the end an
interrupt, if one is due. -/
def stepEvents (s : Simulator) : List Event :=
  match s.executes? with
  | none => []
  | some e => (if e.mnemonic = .reti then [.returned] else []) ++ (s.interrupt?.map .taken).toList

end Simulator

def Moment.events : Moment → List Event
  | .step s => s.stepEvents
  | .input s x => if s.renews x then [.renewed] else []

def Simulator.interruptLog (s : Simulator) (actions : List Action) : List Event :=
  (s.moments actions).flatMap Moment.events

/-! ## 3. One moment -/

namespace Simulator

variable {s : Simulator} {e : Execution}

theorem advanced_inInterrupt (h : s.executes? = some e) :
    (s.advanced e).machine.inInterrupt =
      (s.machine.inInterrupt && decide (e.mnemonic ≠ .reti)) := by
  obtain ⟨_, _, hd⟩ := executes?_eq_some_iff.mp h
  obtain ⟨_, _, hdone⟩ := Machine.execute_ok_iff.mp hd
  show (Machine.followAcc _ _).inInterrupt = _
  rw [Machine.followAcc_inInterrupt, hdone]

theorem marks_step (s : Simulator) :
    Marks s.machine.inInterrupt s.stepEvents s.step.2.machine.inInterrupt := by
  unfold stepEvents
  cases h : s.executes? with
  | none =>
    obtain ⟨⟨pc, hm⟩, _⟩ := step_of_executes?_eq_none h
    rw [hm]
    exact .nil _
  | some e =>
    -- The instruction comes first and can only clear the bit; the interrupt finds it as it left it.
    have hadv := advanced_inInterrupt h
    have hinstruction : Marks s.machine.inInterrupt
        (if e.mnemonic = .reti then [.returned] else [])
        (s.advanced e).machine.inInterrupt := by
      by_cases hr : e.mnemonic = .reti
      · rw [hadv, if_pos hr]
        simp only [hr, ne_eq, not_true_eq_false, decide_false, Bool.and_false]
        exact .returned (.nil _)
      · rw [hadv, if_neg hr]
        simp only [hr, ne_eq, not_false_eq_true, decide_true, Bool.and_true]
        exact .nil _
    refine hinstruction.append ?_
    rw [(step_of_executes?_eq_some h).1, interrupt?_of_executes? h]
    cases hdue : (s.advanced e).machine.dueInterrupt with
    | none =>
      rw [Machine.takeInterrupt_of_none hdue]
      exact .nil _
    | some i =>
      rw [Machine.takeInterrupt_of_due hdue, Machine.inInterrupt_of_due hdue]
      exact .taken (.nil _)

/-- Of the inputs only those that renew the machine reach the bit. -/
theorem accept_inInterrupt (s : Simulator) (x : Input) :
    (s.accept x).machine.inInterrupt = (s.machine.inInterrupt && !s.renews x) := by
  cases hx : s.renews x with
  | true =>
    obtain ⟨drawn, hreset⟩ := isFresh_of_renews hx
    rw [← hreset]
    exact (Bool.and_false _).symm
  | false =>
    rw [(accept_undisturbed hx).inInterrupt]
    exact (Bool.and_true _).symm

end Simulator

theorem Moment.marks (x : Moment) :
    Marks x.before.machine.inInterrupt x.events x.after.machine.inInterrupt := by
  cases x with
  | step s => exact s.marks_step
  | input s x =>
    show Marks s.machine.inInterrupt (if s.renews x then [.renewed] else [])
      (s.accept x).machine.inInterrupt
    rw [s.accept_inInterrupt]
    cases s.renews x with
    | true =>
      simp only [if_true, Bool.not_true, Bool.and_false]
      exact .renewed (.nil _)
    | false =>
      simp only [Bool.false_eq_true, if_false, Bool.not_false, Bool.and_true]
      exact .nil _

/-! ## 4. A whole course -/

theorem Linked.marks {m m' : Machine} {moments : List Moment} (h : Linked m moments m') :
    Marks m.inInterrupt (moments.flatMap Moment.events) m'.inInterrupt := by
  induction h with
  | nil m => exact .nil _
  | cons _ ih =>
    rw [List.flatMap_cons]
    exact (Moment.marks _).append ih

theorem Linked.inInterrupt_iff {start : Flags} {drawn : Ram} {m : Machine} {moments : List Moment}
    (h : Linked (Simulator.new start drawn).machine moments m) :
    m.inInterrupt = true ↔ UnderWay (moments.flatMap Moment.events) := by
  have hmarks : Marks false (moments.flatMap Moment.events) m.inInterrupt := h.marks
  simpa using hmarks.eq_true_iff

namespace Simulator

/-- **Interrupts do not nest.** Whatever is done to a simulator from the beginning on, a routine
    runs exactly when an interrupt was taken and neither a `RETI` nor a load or reset has come
    since. That holds in the end and before every moment on the way, in the middle of a run too. So
    of two interrupts that no load or reset separates, the second comes behind a `RETI`. -/
theorem interrupts_do_not_nest (flags : Flags) (drawn : Ram) (actions : List Action) :
    (((new flags drawn).performAll actions).machine.inInterrupt = true ↔
      UnderWay ((new flags drawn).interruptLog actions)) ∧
    (∀ earlier x later, (new flags drawn).moments actions = earlier ++ x :: later →
      (x.before.machine.inInterrupt = true ↔ UnderWay (earlier.flatMap Moment.events))) ∧
    ∀ earlier i between j later,
      (new flags drawn).interruptLog actions =
        earlier ++ .taken i :: (between ++ .taken j :: later) →
      .renewed ∉ between → .returned ∈ between := by
  have hlinked := (new flags drawn).linked_moments actions
  refine ⟨?_, ?_, ?_⟩
  · exact hlinked.inInterrupt_iff
  · intro earlier x later hmoments
    rw [hmoments] at hlinked
    exact hlinked.before.inInterrupt_iff
  · intro earlier i between j later hlog hno
    have hmarks := hlinked.marks
    rw [interruptLog] at hlog
    rw [hlog] at hmarks
    exact hmarks.separated hno

/-- A return and the next interrupt in one step: both external lines ask, and the routine of the
first one is a single `RETI`. -/
example :
    let clear : Memory := ⟨.replicate 256 0⟩
    let asking := (clear.write Sfr.ie 0x85).write Sfr.tcon 0x0A
    let program := Program.ofLines
      [some ⟨none, some .nop, [], 0⟩, none, none, some ⟨none, some .reti, [], 3⟩]
    let s : Simulator := { new {} with program, machine := ⟨asking, 0, 0, .idle, false⟩ }
    s.interruptLog [.step, .step] = [.taken .ext0, .returned, .taken .ext1] := by
  decide +kernel

end Simulator
end Mcs51
