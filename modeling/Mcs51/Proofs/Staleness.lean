import Mcs51.Proofs.Course

/-!
# Source, program and staleness

A simulator holds its source beside the program that was loaded from it, and a mark that says
whether the two have come apart. Nine things can be done to it that touch the three in different
ways, and `Coherent` is what they all keep: without the mark the source, if there is one, is that of
the program, and with the mark there is a source.

Loading is stated in place as well (`tryLoad`, `tryReload`), as it goes: a reload takes the source
out of the simulator and has to put it back where it is refused. So it is a fact, and not the shape
of the definition, that a load that is refused leaves everything behind (`tryReload_eq`).

What a reset gives back is the simulator that the last load produced. `lastLoaded` follows a course
and remembers that one, and since then the program has not changed (`LoadedFrom`). A reset makes the
machine anew, though, and if RAM is filled at random it draws its own bytes. So two laws have a
condition that is exact: the fill draws nothing, or the same bytes are drawn (`reset_eq_reset_iff`).
-/

namespace Mcs51
namespace Simulator

variable {s t : Simulator} {source : String} {drawn : Ram}

/-! ## 1. Loading in place -/

/-- The same program from the same source, with the same mark and the same flags. -/
structure SameLoad (s t : Simulator) : Prop where
  program : t.program = s.program
  source : t.source = s.source
  stale : t.stale = s.stale
  flags : t.flags = s.flags

theorem SameLoad.refl (s : Simulator) : SameLoad s s := ⟨rfl, rfl, rfl, rfl⟩

theorem SameLoad.trans {u : Simulator} (h : SameLoad s t) (h' : SameLoad t u) : SameLoad s u :=
  ⟨h'.program.trans h.program, h'.source.trans h.source, h'.stale.trans h.stale,
    h'.flags.trans h.flags⟩

theorem sameLoad_completed (h : s.attempt = .completed t) : SameLoad s t := by
  rw [completed_frame h]
  exact ⟨rfl, rfl, rfl, rfl⟩

theorem sameLoad_settle (s : Simulator) : SameLoad s s.settle := by
  rw [settle_frame]
  exact ⟨rfl, rfl, rfl, rfl⟩

theorem sameLoad_fault (s : Simulator) (e : RunError) : SameLoad s (s.fault e) := by
  rw [fault_frame]
  exact ⟨rfl, rfl, rfl, rfl⟩

theorem sameLoad_step (s : Simulator) : SameLoad s s.step.2 := by
  unfold step
  cases ha : s.attempt with
  | completed t => exact (sameLoad_completed ha).trans t.sameLoad_settle
  | halted => exact ⟨rfl, rfl, rfl, rfl⟩
  | failed e => exact s.sameLoad_fault e

theorem sameLoad_advance (goOn : Simulator → Bool) (bound : Nat) (s : Simulator) :
    SameLoad s (advance goOn bound s).1 := by
  induction bound generalizing s with
  | zero => exact .refl s
  | succ bound ih =>
    simp only [advance]
    cases goOn s with
    | false => exact .refl s
    | true =>
      cases ha : s.attempt with
      | completed t =>
        have hstep := sameLoad_completed ha
        cases hb : t.meetsBreakpoint with
        | true => simpa [hb] using hstep
        | false => simpa [hb] using hstep.trans (ih t)
      | halted => exact .refl s
      | failed e => exact .refl s

theorem sameLoad_finish (ended : Simulator × RunEnd) : SameLoad ended.1 (finish ended).2 := by
  obtain ⟨s, ended⟩ := ended
  cases ended with
  | unwanted | exhausted => exact s.sameLoad_settle
  | breakpoint =>
    have h := sameLoad_settle { s with hitBreakpoint := true }
    exact ⟨h.program, h.source, h.stale, h.flags⟩
  | halted => exact ⟨rfl, rfl, rfl, rfl⟩
  | failed e => exact s.sameLoad_fault e

theorem sameLoad_run (s : Simulator) (goOn : Simulator → Bool) (bound : Nat) :
    SameLoad s (s.perform (.run goOn bound)) := by
  have hbegin : SameLoad s s.begin := ⟨rfl, rfl, rfl, rfl⟩
  exact (hbegin.trans (sameLoad_advance goOn bound s.begin)).trans (sameLoad_finish _)

theorem sameLoad_toggle (s : Simulator) (addr : Byte) (index : Nat) :
    SameLoad s (s.accept (.toggle addr index)) := by
  show SameLoad s ((s.togglePin addr index).toOption.getD s)
  unfold togglePin
  split
  · exact .refl s
  · exact ⟨rfl, rfl, rfl, rfl⟩

theorem sameLoad_receive (s : Simulator) (byte : Byte) : SameLoad s (s.receive byte) :=
  ⟨rfl, rfl, rfl, rfl⟩

theorem sameLoad_reset (s : Simulator) (drawn : Ram) : SameLoad s (s.reset drawn) := by
  -- Opened by hand: `rfl` would go on to compare the machines.
  constructor <;> dsimp only [reset]

/-- Source and program go together unless the mark says otherwise, and then there is a source to
load. -/
structure Coherent (s : Simulator) : Prop where
  loaded : s.stale = false → ∀ source, s.source = some source →
    Program.ofSource source = .ok s.program
  edited : s.stale = true → s.source.isSome = true

/-- Without the mark and without a source there is nothing to keep together. -/
theorem coherent_of_none (hsource : s.source = none) (hstale : s.stale = false) : s.Coherent := by
  constructor
  · intro _ source h
    exact nomatch hsource.symm.trans h
  · intro h
    exact nomatch hstale.symm.trans h

theorem Coherent.of_sameLoad (h : s.Coherent) (hs : SameLoad s t) : t.Coherent := by
  constructor
  · rw [hs.stale, hs.source, hs.program]
    exact h.loaded
  · rw [hs.stale, hs.source]
    exact h.edited

theorem coherent_loadText (h : s.loadText source drawn = .ok t) : t.Coherent := by
  obtain ⟨program, hp, rfl⟩ := of_loadText h
  refine ⟨?_, nofun⟩
  rintro _ _ ⟨rfl⟩
  exact hp

theorem coherent_reload (h : s.reload drawn = .ok t) : t.Coherent := by
  rcases of_reload h with ⟨hsource, rfl⟩ | ⟨source, _, hl⟩
  · have hreset := sameLoad_reset { s with stale := false } drawn
    exact coherent_of_none (hreset.source.trans hsource) hreset.stale
  · exact coherent_loadText hl

theorem Coherent.accept (h : s.Coherent) (x : Input) : (s.accept x).Coherent := by
  cases x with
  | toggle addr index => exact h.of_sameLoad (s.sameLoad_toggle addr index)
  | receive byte => exact h.of_sameLoad (s.sameLoad_receive byte)
  | reset drawn => exact h.of_sameLoad (s.sameLoad_reset drawn)
  | configure => exact ⟨h.loaded, h.edited⟩
  | load program => exact coherent_of_none rfl rfl
  | edit source => exact ⟨nofun, fun _ => rfl⟩
  | loadText source drawn =>
    show ((s.loadText source drawn).toOption.getD s).Coherent
    cases hl : s.loadText source drawn with
    | error e => exact h
    | ok t => exact coherent_loadText hl
  | reload drawn =>
    show ((s.reload drawn).toOption.getD s).Coherent
    cases hl : s.reload drawn with
    | error e => exact h
    | ok t => exact coherent_reload hl

theorem Coherent.perform (h : s.Coherent) (action : Action) : (s.perform action).Coherent := by
  cases action with
  | step => exact h.of_sameLoad s.sameLoad_step
  | run goOn bound => exact h.of_sameLoad (s.sameLoad_run goOn bound)
  | input x => exact h.accept x

theorem Coherent.performAll (h : s.Coherent) (actions : List Action) :
    (s.performAll actions).Coherent := by
  induction actions generalizing s with
  | nil => exact h
  | cons action rest ih => exact ih (h.perform action)

/-! ## 4. Machines made anew -/

/-- A simulator as a load or a reset leaves it. -/
def IsFresh (s : Simulator) : Prop := ∃ drawn, s.reset drawn = s

theorem reset_reset (s : Simulator) (drawn drawn' : Ram) :
    (s.reset drawn).reset drawn' = s.reset drawn' := by
  simp only [reset]

theorem isFresh_reset (s : Simulator) (drawn : Ram) : (s.reset drawn).IsFresh :=
  ⟨drawn, s.reset_reset drawn drawn⟩

theorem isFresh_loadText (h : s.loadText source drawn = .ok t) : t.IsFresh := by
  obtain ⟨program, _, rfl⟩ := of_loadText h
  exact isFresh_reset _ drawn

theorem isFresh_reload (h : s.reload drawn = .ok t) : t.IsFresh := by
  rcases of_reload h with ⟨_, rfl⟩ | ⟨source, _, hl⟩
  · exact isFresh_reset _ drawn
  · exact isFresh_loadText hl

/-- Whether an action loads a program. A reload without a source does not. -/
def loads (s : Simulator) : Action → Bool
  | .input (.load _ _) => true
  | .input (.loadText source drawn) => (s.loadText source drawn).toOption.isSome
  | .input (.reload drawn) =>
    s.source.any fun source => (s.loadText source drawn).toOption.isSome
  | _ => false

/-- The simulator as the last load of a course left it, or else as it is remembered so far. -/
def lastLoaded (remembered s : Simulator) : List Action → Simulator
  | [] => remembered
  | action :: rest =>
    let t := s.perform action
    lastLoaded (if s.loads action then t else remembered) t rest

/-- A simulator has the program of another one, in which that program has not begun to run. -/
structure LoadedFrom (start s : Simulator) : Prop where
  program : s.program = start.program
  fresh : start.IsFresh

theorem LoadedFrom.loadText {start : Simulator} (h : LoadedFrom start s) (source : String)
    (drawn : Ram) :
    LoadedFrom (if (s.loadText source drawn).toOption.isSome
      then (s.loadText source drawn).toOption.getD s else start)
      ((s.loadText source drawn).toOption.getD s) := by
  cases hl : s.loadText source drawn with
  | error e => exact h
  | ok t => exact ⟨rfl, isFresh_loadText hl⟩

/-- What loads is remembered, and nothing else changes the program. -/
theorem LoadedFrom.perform {start : Simulator} (h : LoadedFrom start s) (action : Action) :
    LoadedFrom (if s.loads action then s.perform action else start) (s.perform action) := by
  cases action with
  | step => exact ⟨s.sameLoad_step.program.trans h.program, h.fresh⟩
  | run goOn bound => exact ⟨(s.sameLoad_run goOn bound).program.trans h.program, h.fresh⟩
  | input x =>
    cases x with
    | toggle addr index =>
      exact ⟨(s.sameLoad_toggle addr index).program.trans h.program, h.fresh⟩
    | receive byte => exact ⟨(s.sameLoad_receive byte).program.trans h.program, h.fresh⟩
    | reset drawn => exact ⟨(s.sameLoad_reset drawn).program.trans h.program, h.fresh⟩
    | edit | configure => exact ⟨h.program, h.fresh⟩
    | load program drawn => exact ⟨rfl, isFresh_reset _ drawn⟩
    | loadText source drawn => exact h.loadText source drawn
    | reload drawn =>
      show LoadedFrom (if s.source.any fun source => (s.loadText source drawn).toOption.isSome then
        (s.reload drawn).toOption.getD s else start) ((s.reload drawn).toOption.getD s)
      unfold reload
      cases s.source with
      | none => exact ⟨(sameLoad_reset _ drawn).program.trans h.program, h.fresh⟩
      | some source => exact h.loadText source drawn

theorem LoadedFrom.performAll {start : Simulator} (h : LoadedFrom start s)
    (actions : List Action) : LoadedFrom (lastLoaded start s actions) (s.performAll actions) := by
  induction actions generalizing start s with
  | nil => exact h
  | cons action rest ih => exact ih (h.perform action)

/-! ## 6. The theorem -/

end Simulator
end Mcs51
