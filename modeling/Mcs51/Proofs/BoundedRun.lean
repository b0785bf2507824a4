import Mathlib.Logic.Function.Iterate
import Mcs51.Proofs.Attempt
import Mcs51.Simulator.Run

/-!
# A bounded run is that many single steps

A run and a row of single steps differ in three ways: a run looks at its condition before each step
and at the breakpoints after it, it counts by the change of the step counter, and it settles the
status once and not at every step. `runFor_eq_single_steps` says that none of this shows.

`StopsAfter s limit k` is the number of single steps that a run of at most `limit` steps amounts to:
the first that fails, that finds the program over or that leads to a breakpoint, and `limit` if
there is none. The proof goes by the bound and peels off the first step. What makes that possible is
`finish_advance_settle`: settling the status between two steps changes nothing about how the run
ends, because no step looks at it (`attempt_label`).
-/

namespace Mcs51
namespace Simulator

/-! ## 1. Single steps in a row -/

/-- What the single step number `k` of a row returns, and the simulator after it. The first one has
number one. -/
def call (s : Simulator) (k : Nat) : Except RunError Unit × Simulator :=
  ((fun t => t.step.2)^[k - 1] s).step

@[simp] theorem call_one (s : Simulator) : s.call 1 = s.step := rfl

theorem call_succ (s : Simulator) {k : Nat} (h : 0 < k) : s.call (k + 1) = s.step.2.call k := by
  obtain ⟨k, rfl⟩ := Nat.exists_eq_succ_of_ne_zero (Nat.ne_of_gt h)
  rfl

/-- A run stops after a step that fails, that finds the program over, or that leads to a
breakpoint. -/
def Ends (r : Except RunError Unit × Simulator) : Prop :=
  (∃ e, r.1 = .error e) ∨ r.2.status = .halted ∨ r.2.meetsBreakpoint = true

instance (r : Except RunError Unit × Simulator) : Decidable (Ends r) :=
  decidable_of_iff (r.1.isOk = false ∨ r.2.isHalted = true ∨ r.2.meetsBreakpoint = true) <| by
    cases hr : r.1 <;> simp [Ends, hr, Except.isOk, Except.toBool, isHalted]

/-- Whether a run stops because of a breakpoint: the step was completed, and one is met after
it. -/
def hitsBreakpoint (r : Except RunError Unit × Simulator) : Bool :=
  match r.1 with
  | .ok () => !r.2.isHalted && r.2.meetsBreakpoint
  | .error _ => false

theorem hitsBreakpoint_iff {r : Except RunError Unit × Simulator} :
    hitsBreakpoint r = true ↔
      r.1 = .ok () ∧ r.2.status ≠ .halted ∧ r.2.meetsBreakpoint = true := by
  unfold hitsBreakpoint
  cases r.1 with
  | ok => simp [isHalted]
  | error e => simp

/-- The step number `k` is the first after which a run stops, or the last of `limit` steps if there
is none. -/
structure StopsAfter (s : Simulator) (limit k : Nat) : Prop where
  pos : 0 < k
  le : k ≤ limit
  goesOn : ∀ j, 0 < j → j < k → ¬ Ends (s.call j)
  last : Ends (s.call k) ∨ k = limit

theorem StopsAfter.unique {s : Simulator} {limit k k' : Nat} (h : s.StopsAfter limit k)
    (h' : s.StopsAfter limit k') : k = k' := by
  rcases Nat.lt_trichotomy k k' with hlt | heq | hgt
  · rcases h.last with he | rfl
    · exact absurd he (h'.goesOn k h.pos hlt)
    · exact absurd h'.le (Nat.not_le.mpr hlt)
  · exact heq
  · rcases h'.last with he | rfl
    · exact absurd he (h.goesOn k' h'.pos hgt)
    · exact absurd h.le (Nat.not_le.mpr hgt)

/-- A step that ends a run is the last, whatever the limit. -/
theorem StopsAfter.first {s : Simulator} (n : Nat) (h : Ends s.step) : s.StopsAfter (n + 1) 1 where
  pos := Nat.one_pos
  le := Nat.le_add_left 1 n
  goesOn := fun j h0 h1 => by omega
  last := .inl h

/-- A step that does not end a run leaves the rest of it to the simulator after the step. -/
theorem StopsAfter.succ {s : Simulator} {limit k : Nat} (hs : ¬ Ends s.step)
    (h : s.step.2.StopsAfter limit k) : s.StopsAfter (limit + 1) (k + 1) where
  pos := Nat.succ_pos k
  le := Nat.succ_le_succ h.le
  goesOn := by
    intro j h0 hj
    cases j with
    | zero => exact absurd h0 (Nat.lt_irrefl 0)
    | succ j =>
      cases j with
      | zero => exact hs
      | succ j =>
        rw [call_succ s (Nat.succ_pos j)]
        exact h.goesOn (j + 1) (Nat.succ_pos j) (Nat.lt_of_succ_lt_succ hj)
  last := by
    rw [call_succ s h.pos]
    rcases h.last with he | rfl
    · exact .inl he
    · exact .inr rfl

/-! ## 2. The count of steps

As long as fewer steps were taken than the limit, the counter tells so, also across its end. -/

theorem isWithin_of_lt {start : UInt64} {limit j : Nat} {s : Simulator}
    (hs : s.steps = start + UInt64.ofNat j) (hj : j < limit) : isWithin start limit s = true := by
  have hd : s.steps - start = UInt64.ofNat j := by
    rw [hs, UInt64.add_comm, UInt64.add_sub_cancel]
  simp only [isWithin, hd, decide_eq_true_eq, UInt64.toNat_ofNat']
  exact Nat.lt_of_le_of_lt (Nat.mod_le _ _) hj

theorem completed_steps_from {start : UInt64} {j : Nat} {s t : Simulator}
    (hs : s.steps = start + UInt64.ofNat j) (h : s.attempt = .completed t) :
    t.steps = start + UInt64.ofNat (j + 1) := by
  rw [completed_steps h, hs, UInt64.ofNat_add, UInt64.add_assoc]
  rfl

/-- A run that is bounded by the counter ends like one that is bounded alone. -/
theorem finish_advance_isWithin {start : UInt64} {limit : Nat} (n : Nat) :
    ∀ {j : Nat} {s : Simulator}, s.steps = start + UInt64.ofNat j → j + n = limit →
      finish (advance (isWithin start limit) n s) = finish (advance (fun _ => true) n s) := by
  induction n with
  | zero =>
    intro j s _ _
    simp only [advance]
    split <;> rfl
  | succ n ih =>
    intro j s hs hj
    simp only [advance, isWithin_of_lt hs (by omega : j < limit), if_true]
    cases ha : s.attempt with
    | completed t =>
      dsimp only
      split
      · rfl
      · exact ih (completed_steps_from hs ha) (by omega)
    | halted => rfl
    | failed e => rfl

/-- The counter stops a run before its bound does, if it is wide enough for the limit. -/
theorem advance_isWithin_ne_exhausted {start : UInt64} {limit : Nat} (hl : limit < UInt64.size)
    (n : Nat) : ∀ {j : Nat} {s : Simulator}, s.steps = start + UInt64.ofNat j → j + n = limit →
      (advance (isWithin start limit) n s).2 ≠ .exhausted := by
  induction n with
  | zero =>
    intro j s hs hj
    have hd : s.steps - start = UInt64.ofNat j := by
      rw [hs, UInt64.add_comm, UInt64.add_sub_cancel]
    have hw : isWithin start limit s = false := by
      simp only [isWithin, hd, decide_eq_false_iff_not, UInt64.toNat_ofNat']
      simp only [UInt64.size] at hl
      omega
    simp [advance, hw]
  | succ n ih =>
    intro j s hs hj
    simp only [advance, isWithin_of_lt hs (by omega : j < limit), if_true]
    cases ha : s.attempt with
    | completed t =>
      dsimp only
      split
      · exact nofun
      · exact ih (completed_steps_from hs ha) (by omega)
    | halted => exact nofun
    | failed e => exact nofun

/-- A run that came to an end within a bound comes to the same end within any higher one. -/
theorem advance_of_le {goOn : Simulator → Bool} {n m : Nat} (hnm : n ≤ m) {s : Simulator}
    (h : (advance goOn n s).2 ≠ .exhausted) : advance goOn m s = advance goOn n s := by
  induction n generalizing m s with
  | zero =>
    cases hg : goOn s with
    | true => exact absurd (by simp [advance, hg]) h
    | false => cases m <;> simp [advance, hg]
  | succ n ih =>
    obtain ⟨m, rfl⟩ := Nat.exists_eq_succ_of_ne_zero (by omega : m ≠ 0)
    have hnm : n ≤ m := Nat.le_of_succ_le_succ hnm
    simp only [advance] at h ⊢
    split
    · cases ha : s.attempt with
      | completed t =>
        simp_all only [if_true]
        split
        · rfl
        · simp_all
      | halted => rfl
      | failed e => rfl
    · rfl

/-! ## 3. The status between two steps -/

theorem advance_label {goOn : Simulator → Bool} {status : Status} {hit : Bool}
    (hg : ∀ u : Simulator, goOn (u.label status hit) = goOn u) (n : Nat) (s : Simulator) :
    advance goOn n (s.label status hit) =
      ((advance goOn n s).1.label status hit, (advance goOn n s).2) := by
  induction n generalizing s with
  | zero => simp only [advance, hg]
  | succ n ih =>
    simp only [advance, hg, attempt_label]
    cases goOn s with
    | false => rfl
    | true =>
      cases s.attempt with
      | completed t =>
        have hb : (t.label status hit).meetsBreakpoint = t.meetsBreakpoint := rfl
        simp only [Attempt.map, if_true, hb]
        split
        · rfl
        · exact ih t
      | halted => rfl
      | failed e => rfl

theorem advance_status (n : Nat) (s : Simulator) :
    (advance (fun _ => true) n s).1.status = s.status := by
  have h := @advance_label (fun _ => true) s.status s.hitBreakpoint (fun _ => rfl) n s
  exact congrArg (fun r => r.1.status) h

/-- Only a program that is stale from the start fails by being stale. -/
theorem stale_of_advance {n : Nat} {s : Simulator}
    (h : (advance (fun _ => true) n s).2 = .failed .staleProgram) : s.stale = true := by
  induction n generalizing s with
  | zero => exact nomatch h
  | succ n ih =>
    simp only [advance, if_true] at h
    cases ha : s.attempt with
    | completed t =>
      simp only [ha] at h
      split at h
      · exact nomatch h
      · exact absurd (ih h) (by rw [completed_stale ha]; exact Bool.false_ne_true)
    | halted =>
      rw [ha] at h
      exact nomatch h
    | failed e =>
      rw [ha] at h
      cases h
      exact failed_staleProgram ha

/-- What a run sets at its end does not depend on a status that was settled before. -/
theorem finish_settled {u : Simulator} {hit : Bool} {ended : RunEnd} (hi : u.status ≠ .running)
    (hh : u.hitBreakpoint = hit) (he : ended ≠ .failed .staleProgram) :
    finish (u.label .idle hit, ended) = finish (u, ended) := by
  subst hh
  cases ended with
  | failed e =>
    have he : e ≠ .staleProgram := fun h => he (h ▸ rfl)
    simp [finish, fault, he, label]
  | halted => rfl
  | unwanted | exhausted | breakpoint => simp [finish, settle, label, hi]

/-- **Settling the status in the middle of a run changes nothing at its end.** -/
theorem finish_advance_settle (n : Nat) {s : Simulator} (hs : s.stale = false) :
    finish (advance (fun _ => true) n s.settle) = finish (advance (fun _ => true) n s) := by
  by_cases hr : s.status = .running
  · rw [settle, if_pos hr]
  · -- Settled or not, the run is the same up to its status, and its end sets that anew. It does
    -- not for a stale program, which is why `hs` is asked for.
    have hl : s.settle = s.label .idle s.hitBreakpoint := by rw [settle, if_neg hr]; rfl
    have hself := @advance_label (fun _ => true) s.status s.hitBreakpoint (fun _ => rfl) n s
    rw [hl, advance_label fun _ => rfl]
    refine finish_settled ?_ ?_ ?_
    · rw [advance_status]
      exact hr
    · exact congrArg (fun r => r.1.hitBreakpoint) hself
    · intro he
      rw [stale_of_advance he] at hs
      exact nomatch hs

/-! ## 4. A bounded run, step by step -/

theorem settle_status_ne_halted {s : Simulator} : s.settle.status ≠ .halted := by
  unfold settle
  split
  · simp_all
  · simp

@[simp] theorem settle_meetsBreakpoint (s : Simulator) :
    s.settle.meetsBreakpoint = s.meetsBreakpoint := by
  rw [settle_frame]
  rfl

theorem step_completed {s t : Simulator} (h : s.attempt = .completed t) :
    s.step = (.ok (), t.settle) := by
  simp only [step, h]

theorem ends_completed_iff {t : Simulator} :
    Ends (.ok (), t.settle) ↔ t.meetsBreakpoint = true := by
  simp [Ends, settle_status_ne_halted]

theorem hitsBreakpoint_completed {t : Simulator} :
    hitsBreakpoint (.ok (), t.settle) = t.meetsBreakpoint := by
  simp [hitsBreakpoint, isHalted, settle_status_ne_halted]

/-- The end of a run, read off its last single step. -/
def mark (r : Except RunError Unit × Simulator) : Except RunError Unit × Simulator :=
  (r.1, if hitsBreakpoint r then { r.2 with hitBreakpoint := true } else r.2)

theorem finish_advance_of_ends (n : Nat) {s : Simulator} (h : Ends s.step) :
    finish (advance (fun _ => true) (n + 1) s) = mark s.step := by
  simp only [advance, if_true]
  cases ha : s.attempt with
  | completed t =>
    rw [step_completed ha] at h ⊢
    have hb := ends_completed_iff.mp h
    simp only [hb, if_true, mark, hitsBreakpoint_completed, finish, Prod.mk.injEq, true_and]
    unfold settle
    split <;> rfl
  | halted => simp [step, ha, mark, finish, hitsBreakpoint, halt, isHalted]
  | failed e => simp [step, ha, mark, finish, hitsBreakpoint]

/-- A step that does not end a run was completed, and the run goes on behind it. -/
theorem completed_of_not_ends {s : Simulator} (h : ¬ Ends s.step) :
    ∃ t, s.attempt = .completed t ∧ t.meetsBreakpoint = false ∧
      ∀ n, advance (fun _ => true) (n + 1) s = advance (fun _ => true) n t := by
  cases ha : s.attempt with
  | completed t =>
    rw [step_completed ha, ends_completed_iff, Bool.not_eq_true] at h
    exact ⟨t, rfl, h, fun n => by simp [advance, ha, h]⟩
  | halted => exact absurd (.inr (.inl (by simp [step, ha, halt]))) h
  | failed e => exact absurd (.inl ⟨e, by simp [step, ha]⟩) h

/-- **A run without a condition is a row of single steps.** -/
theorem finish_advance_eq_call (n : Nat) (s : Simulator) :
    ∃ k, s.StopsAfter (n + 1) k ∧
      finish (advance (fun _ => true) (n + 1) s) = mark (s.call k) := by
  induction n generalizing s with
  | zero =>
    by_cases hs : Ends s.step
    · exact ⟨1, .first 0 hs, finish_advance_of_ends 0 hs⟩
    · obtain ⟨t, ha, hb, hrest⟩ := completed_of_not_ends hs
      refine ⟨1, ⟨Nat.one_pos, Nat.le_refl 1, fun j _ _ => by omega, .inr rfl⟩, ?_⟩
      rw [hrest, call_one, step_completed ha]
      simp [advance, finish, mark, hitsBreakpoint_completed, hb]
  | succ n ih =>
    by_cases hs : Ends s.step
    · exact ⟨1, .first (n + 1) hs, finish_advance_of_ends (n + 1) hs⟩
    · obtain ⟨t, ha, hb, hrest⟩ := completed_of_not_ends hs
      obtain ⟨k, hk, hf⟩ := ih s.step.2
      refine ⟨k + 1, .succ hs hk, ?_⟩
      -- The single step settled the status, and the run did not.
      rw [step_completed ha] at hf
      rw [hrest, call_succ s hk.pos, step_completed ha, ← hf,
        finish_advance_settle _ (completed_stale ha)]

/-! ## 5. The mark of the last run -/

theorem step_begin (s : Simulator) : s.begin.step = (s.step.1, s.step.2.begin) := by
  have hb : s.begin = s.label s.status false := rfl
  simp only [step, hb, attempt_label]
  generalize ha : s.attempt = a
  cases a with
  | completed t =>
    have ht : t.status = s.status := by rw [completed_frame ha]
    simp only [Attempt.map, settle, label, begin, ht]
    split <;> simp_all
  | halted => rfl
  | failed e =>
    simp only [Attempt.map, fault, begin, label]
    split <;> rfl

theorem call_begin (s : Simulator) (k : Nat) :
    s.begin.call k = ((s.call k).1, (s.call k).2.begin) := by
  have hi : ∀ j, (fun t : Simulator => t.step.2)^[j] s.begin =
      ((fun t : Simulator => t.step.2)^[j] s).begin := by
    intro j
    induction j generalizing s with
    | zero => rfl
    | succ j ih =>
      rw [Function.iterate_succ_apply, Function.iterate_succ_apply, step_begin]
      exact ih s.step.2
  rw [call, hi, step_begin]
  rfl

theorem ends_begin_iff {r : Except RunError Unit × Simulator} : Ends (r.1, r.2.begin) ↔ Ends r :=
  Iff.rfl

theorem stopsAfter_begin_iff {s : Simulator} {limit k : Nat} :
    s.begin.StopsAfter limit k ↔ s.StopsAfter limit k := by
  constructor
  · intro h
    exact ⟨h.pos, h.le, fun j h0 hj he => h.goesOn j h0 hj (by rwa [call_begin]),
      by simpa only [call_begin, ends_begin_iff] using h.last⟩
  · intro h
    exact ⟨h.pos, h.le, fun j h0 hj he => h.goesOn j h0 hj (by rwa [call_begin] at he),
      by simpa only [call_begin, ends_begin_iff] using h.last⟩

/-! ## 6. The theorem -/

theorem steps_begin (s : Simulator) : s.begin.steps = s.steps + UInt64.ofNat 0 := by
  simp [begin]

/-- A bounded run, read off the single step at which it stops. -/
theorem runFor_eq_mark {s : Simulator} {limit : Nat} (h : 0 < limit) :
    ∃ k, s.StopsAfter limit k ∧
      s.runFor limit = mark ((s.call k).1, (s.call k).2.begin) := by
  obtain ⟨n, rfl⟩ := Nat.exists_eq_succ_of_ne_zero (Nat.ne_of_gt h)
  obtain ⟨k, hk, hf⟩ := finish_advance_eq_call n s.begin
  refine ⟨k, stopsAfter_begin_iff.mp hk, ?_⟩
  rw [← call_begin, ← hf]
  exact finish_advance_isWithin (n + 1) (steps_begin s) (Nat.zero_add _)

/-- **A bounded run leaves what its number of single steps leaves.** The mark of the last run is
    the one thing that the steps do not set, and it is set exactly when a breakpoint was the reason
    to stop. The bound on the loop that the definition needs is not felt: under the condition that
    counts the steps, every higher one gives the same. -/
theorem runFor_eq_single_steps (s : Simulator) (limit : Nat) (h : 0 < limit) :
    (∃! k, s.StopsAfter limit k) ∧
      (∀ k, s.StopsAfter limit k →
        (s.runFor limit).1 = (s.call k).1 ∧
        (s.runFor limit).2 =
          { (s.call k).2 with hitBreakpoint := (s.runFor limit).2.hitBreakpoint } ∧
        ((s.runFor limit).2.hitBreakpoint = true ↔
          (s.call k).1 = .ok () ∧ (s.call k).2.status ≠ .halted ∧
            (s.call k).2.meetsBreakpoint = true)) ∧
      (limit < UInt64.size → ∀ bound, limit ≤ bound →
        s.runWhile? (isWithin s.steps limit) bound = some (s.runFor limit)) := by
  obtain ⟨k, hk, hr⟩ := runFor_eq_mark h
  refine ⟨⟨k, hk, fun k' hk' => hk'.unique hk⟩, ?_, ?_⟩
  · intro k' hk'
    obtain rfl := hk'.unique hk
    have hb : hitsBreakpoint ((s.call k').1, (s.call k').2.begin) = hitsBreakpoint (s.call k') :=
      rfl
    rw [hr, ← hitsBreakpoint_iff, mark, hb]
    refine ⟨rfl, ?_, ?_⟩
    · split <;> rfl
    · split <;> simp_all [begin]
  · intro hl bound hle
    have hne := advance_isWithin_ne_exhausted hl limit (steps_begin s) (Nat.zero_add _)
    rw [runWhile?, advance_of_le hle hne, if_neg hne]
    rfl

/-- Three empty lines, with a breakpoint at the last one. -/
def pausing : Simulator :=
  { (new {}).load (.ofLines [none, none, none]) with breakpoints := [.line 2] }

theorem runFor_pausing_hits_breakpoint :
    0 < 5 ∧ pausing.StopsAfter 5 2 ∧ (pausing.runFor 5).2.hitBreakpoint = true := by
  have hk : pausing.StopsAfter 5 2 := by
    refine ⟨by decide, by decide, fun j h0 hj => ?_, .inl ?_⟩
    · obtain rfl : j = 1 := by omega
      decide +kernel
    · decide +kernel
  have hr := (runFor_eq_single_steps pausing 5 (by decide)).2.1 2 hk
  exact ⟨by decide, hk, hr.2.2.mpr (hitsBreakpoint_iff.mp (by decide +kernel))⟩

end Simulator
end Mcs51
