import Mcs51.Proofs.Staleness

/-!
# Inputs that put the machine back to its start

A load that is not refused and a reset put the machine back to its start and forget what was
recorded; `renews` says which inputs do. Two lemmas are all that laws over a course need of inputs:
one that renews leaves a simulator as a reset leaves it (`isFresh_of_renews`), and any other one
leaves the program and what running has counted as they were (`accept_undisturbed`).
-/

namespace Mcs51

/-- Whether a moment puts the machine back to its start. -/
def Moment.renews : Moment → Bool
  | .step _ => false
  | .input s x => s.renews x

namespace Simulator

variable {s t : Simulator} {x : Input}

/-- **What puts the machine back to its start** leaves a simulator as a reset does. -/
theorem isFresh_of_renews (h : s.renews x = true) : (s.accept x).IsFresh := by
  cases x with
  | toggle | receive | edit | configure => exact nomatch h
  | load program drawn => exact isFresh_reset _ drawn
  | reset drawn => exact s.isFresh_reset drawn
  | loadText source drawn =>
    have h : (s.loadText source drawn).toOption.isSome = true := h
    show ((s.loadText source drawn).toOption.getD s).IsFresh
    cases ht : s.loadText source drawn with
    | error e => simp [ht, Except.toOption] at h
    | ok t => exact isFresh_loadText ht
  | reload drawn =>
    have h : (s.reload drawn).toOption.isSome = true := h
    show ((s.reload drawn).toOption.getD s).IsFresh
    cases ht : s.reload drawn with
    | error e => simp [ht, Except.toOption] at h
    | ok t => exact isFresh_reload ht

/-- A load that is refused leaves the simulator as it was, and so does a reload. -/
theorem accept_of_refused {source : String} {drawn : Ram}
    (h : s.renews (.loadText source drawn) = false) : s.accept (.loadText source drawn) = s := by
  have hrefused : (s.loadText source drawn).toOption = none :=
    Option.isNone_iff_eq_none.mp (Option.isSome_eq_false_iff.mp h)
  simp only [accept, hrefused, Option.getD_none]

theorem accept_reload_of_refused {drawn : Ram} (h : s.renews (.reload drawn) = false) :
    s.accept (.reload drawn) = s := by
  have hrefused : (s.reload drawn).toOption = none :=
    Option.isNone_iff_eq_none.mp (Option.isSome_eq_false_iff.mp h)
  simp only [accept, hrefused, Option.getD_none]

/-- The program and what running has recorded are the same, and of the machine the count of cycles,
the line and whether an interrupt routine runs. -/
structure Undisturbed (s t : Simulator) : Prop where
  program : t.program = s.program
  trace : t.trace = s.trace
  cycles : t.machine.cycles = s.machine.cycles
  pc : t.machine.pc = s.machine.pc
  inInterrupt : t.machine.inInterrupt = s.machine.inInterrupt

theorem Undisturbed.refl (s : Simulator) : Undisturbed s s := ⟨rfl, rfl, rfl, rfl, rfl⟩

/-- **Any other input** reaches bytes of memory and what is around the machine, and no more. -/
theorem accept_undisturbed (h : s.renews x = false) : Undisturbed s (s.accept x) := by
  cases x with
  | load | reset => exact nomatch h
  | receive | edit | configure => exact ⟨rfl, rfl, rfl, rfl, rfl⟩
  | toggle addr index =>
    simp only [accept, togglePin]
    split <;> exact ⟨rfl, rfl, rfl, rfl, rfl⟩
  | loadText source =>
    rw [accept_of_refused h]
    exact .refl s
  | reload =>
    rw [accept_reload_of_refused h]
    exact .refl s

end Simulator

theorem Moment.isFresh_of_renews {x : Moment} (h : x.renews = true) : x.after.IsFresh := by
  cases x with
  | step s => exact nomatch h
  | input s x => exact Simulator.isFresh_of_renews h

end Mcs51
