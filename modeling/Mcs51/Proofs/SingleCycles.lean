import Mathlib.Logic.Function.Iterate
import Mcs51.Proofs.Counting

/-!
# A tick is as many ticks of one cycle

An instruction takes up to four cycles, and the timers are advanced by all of them in one tick. What
they do in one tick is what they would do cycle by cycle (`tick_counts_single_cycles`): ticks add up
(`tick_add`), since counting does and since a tick changes nothing that says how the timers count.
So a run cannot tell where one instruction ends and the next one begins by its timers.

Which cycle overflows can then be asked of a single memory. `AtLimit` says of one that its next
cycle takes a timer past its last count, one rule a mode, and a flag is up after a tick if it was up
before or one of the cycles in between started at a limit (`flag_tick_iff`).
-/

namespace Mcs51
namespace Timer

/-! ## 1. Ticks one after another -/

theorem counted_add (t : Timer) (a b : Nat) (m : Memory) :
    t.counted (a + b) m = (t.counted a m).andThen fun _ _ => t.counted b (tick a m) := by
  have hsecond : t.counted b (tick a m) =
      t.count (t.mode (m.read Sfr.tmod)) (running m) b (t.counted a m).high
        (t.counted a m).low := by
    rw [counted, read_tick_tmod, running_tick, read_tick_high, read_tick_low]
  rw [hsecond]
  exact count_add t _ _ a b _ _

theorem splitOverflow_add (a b : Nat) (m : Memory) :
    splitOverflow (a + b) m = (splitOverflow a m || splitOverflow b (tick a m)) := by
  by_cases h : Timer.t0.mode (m.read Sfr.tmod) = 3
  · have hhigh : (tick a m).read Sfr.th0 = (countAlone (running m .t1) a (m.read Sfr.th0)).1 := by
      have hread := read_tick_high .t0 a m
      rw [counted, h] at hread
      exact hread
    simp only [splitOverflow, read_tick_tmod, running_tick, hhigh, h, decide_true, Bool.true_and,
      countAlone_add]
  · simp only [splitOverflow, read_tick_tmod, h, decide_false, Bool.false_and, Bool.or_false]

theorem raised_add (t : Timer) (a b : Nat) (m : Memory) :
    t.raised (a + b) m = (t.raised a m || t.raised b (tick a m)) := by
  cases t with
  | t0 =>
    simp only [raised, counted_add]
    rfl
  | t1 =>
    simp only [raised, counted_add, splitOverflow_add, Counted.andThen]
    ac_rfl

theorem mem_written_cases {addr : Byte} (h : addr ∈ written) :
    addr = Sfr.tcon ∨ ∃ t : Timer, addr = t.high ∨ addr = t.low := by
  simp only [written, List.mem_cons, List.not_mem_nil, or_false] at h
  rcases h with rfl | rfl | rfl | rfl | rfl
  · exact .inl rfl
  · exact .inr ⟨.t0, .inr rfl⟩
  · exact .inr ⟨.t0, .inl rfl⟩
  · exact .inr ⟨.t1, .inr rfl⟩
  · exact .inr ⟨.t1, .inl rfl⟩

/-- **Ticks add up.** -/
theorem tick_add (a b : Nat) (m : Memory) : tick (a + b) m = tick b (tick a m) := by
  ext1 addr
  by_cases h : addr ∈ written
  · rcases mem_written_cases h with rfl | ⟨t, rfl | rfl⟩
    · rw [read_tick_tcon, read_tick_tcon, read_tick_tcon, BitVec.or_assoc, flagBits_or, raised_add,
        raised_add]
    · rw [read_tick_high, read_tick_high, counted_add]
      rfl
    · rw [read_tick_low, read_tick_low, counted_add]
      rfl
  · have hother : ∀ a ∈ written, a ≠ addr := by
      intro a ha hne
      exact h (hne ▸ ha)
    rw [read_tick _ _ hother, read_tick _ _ hother, read_tick _ _ hother]

/-- A tick without a cycle is not the identity in thirteen bits, so there has to be one. -/
theorem tick_eq_iterate {cycles : Nat} (h : 0 < cycles) (m : Memory) :
    tick cycles m = (tick 1)^[cycles] m := by
  induction h with
  | refl => rfl
  | step h ih => rw [Function.iterate_succ_apply', ← ih, ← tick_add]

/-! ## 2. Which cycle overflows -/

/-- A timer runs and is at its last count, so that the next cycle overflows it. The upper byte of
timer 0 that counts on its own is run and flagged as timer 1 is. -/
inductive AtLimit (m : Memory) : Timer → Prop
  | thirteen {t : Timer} (mode : t.mode (m.read Sfr.tmod) = 0) (runs : running m t = true)
      (high : (m.read t.high).toNat % 32 = 31) (low : m.read t.low = 0xFF) : AtLimit m t
  | sixteen {t : Timer} (mode : t.mode (m.read Sfr.tmod) = 1) (runs : running m t = true)
      (high : m.read t.high = 0xFF) (low : m.read t.low = 0xFF) : AtLimit m t
  | reloads {t : Timer} (mode : t.mode (m.read Sfr.tmod) = 2) (runs : running m t = true)
      (low : m.read t.low = 0xFF) : AtLimit m t
  | lower (mode : Timer.t0.mode (m.read Sfr.tmod) = 3) (runs : running m .t0 = true)
      (low : m.read Sfr.tl0 = 0xFF) : AtLimit m .t0
  | upper (mode : Timer.t0.mode (m.read Sfr.tmod) = 3) (runs : running m .t1 = true)
      (high : m.read Sfr.th0 = 0xFF) : AtLimit m .t1

theorem count13_one_iff {high low : Byte} :
    (count13 1 high low).overflowed = true ↔ high.toNat % 32 = 31 ∧ low = 0xFF := by
  simp only [count13, decide_eq_true_eq]
  bv_omega

theorem count16_one_iff {high low : Byte} :
    (count16 1 high low).overflowed = true ↔ high = 0xFF ∧ low = 0xFF := by
  simp only [count16, decide_eq_true_eq]
  bv_omega

theorem countByte_one_iff {value : Byte} : (countByte 1 value).2 = true ↔ value = 0xFF := by
  simp only [countByte, decide_eq_true_eq]
  bv_omega

theorem countReload_one_iff {reload value : Byte} :
    (countReload reload 1 value false).2 = true ↔ value = 0xFF := by
  simp [countReload]

section
variable {m : Memory} {t : Timer}

theorem counted_overflowed (h : t.mode (m.read Sfr.tmod) ≠ 3) (cycles : Nat) :
    (t.counted cycles m).overflowed =
      (running m t && (countPaired (t.mode (m.read Sfr.tmod)) cycles (m.read t.high)
        (m.read t.low)).overflowed) := by
  rw [counted, count_of_ne h]
  cases running m t <;> rfl

theorem counted_overflowed_split (h : Timer.t0.mode (m.read Sfr.tmod) = 3) :
    (Timer.t0.counted 1 m).overflowed = true ↔ running m .t0 = true ∧ m.read Sfr.tl0 = 0xFF := by
  rw [counted, h]
  cases hrun : running m .t0 with
  | true => simp [count, countAlone, hrun, countByte_one_iff, low]
  | false => simp [count, countAlone, hrun]

theorem splitOverflow_one_iff :
    splitOverflow 1 m = true ↔
      Timer.t0.mode (m.read Sfr.tmod) = 3 ∧ running m .t1 = true ∧ m.read Sfr.th0 = 0xFF := by
  cases hrun : running m .t1 with
  | true => simp [splitOverflow, countAlone, hrun, countByte_one_iff]
  | false => simp [splitOverflow, countAlone, hrun]

theorem atLimit_of_counted (h : (t.counted 1 m).overflowed = true) : AtLimit m t := by
  by_cases hsplit : t.mode (m.read Sfr.tmod) = 3
  · cases t with
    | t0 =>
      obtain ⟨hrun, hlow⟩ := (counted_overflowed_split hsplit).mp h
      exact .lower hsplit hrun hlow
    | t1 =>
      rw [counted, hsplit] at h
      cases h
  · rw [counted_overflowed hsplit, Bool.and_eq_true] at h
    obtain ⟨hrun, h⟩ := h
    have hmodes : ∀ mode : Fin 4, mode = 0 ∨ mode = 1 ∨ mode = 2 ∨ mode = 3 := by decide
    rcases hmodes (t.mode (m.read Sfr.tmod)) with hmode | hmode | hmode | hmode
    · rw [hmode] at h
      obtain ⟨hhigh, hlow⟩ := count13_one_iff.mp h
      exact .thirteen hmode hrun hhigh hlow
    · rw [hmode] at h
      obtain ⟨hhigh, hlow⟩ := count16_one_iff.mp h
      exact .sixteen hmode hrun hhigh hlow
    · rw [hmode] at h
      have hlow : (countReload (m.read t.high) 1 (m.read t.low) false).2 = true := h
      exact .reloads hmode hrun (countReload_one_iff.mp hlow)
    · exact absurd hmode hsplit

theorem raised_of_counted {cycles : Nat} (h : (t.counted cycles m).overflowed = true) :
    t.raised cycles m = true := by
  cases t with
  | t0 => exact h
  | t1 => simp [raised, h]

theorem raised_one_of_countPaired (h : t.mode (m.read Sfr.tmod) ≠ 3) (hrun : running m t = true)
    (hcount : (countPaired (t.mode (m.read Sfr.tmod)) 1 (m.read t.high) (m.read t.low)).overflowed =
      true) : t.raised 1 m = true := by
  apply raised_of_counted
  rw [counted_overflowed h, hrun, hcount]
  rfl

/-- **One cycle raises a flag exactly at a limit.** -/
theorem raised_one_iff : t.raised 1 m = true ↔ AtLimit m t := by
  constructor
  · intro h
    cases t with
    | t0 => exact atLimit_of_counted h
    | t1 =>
      rcases Bool.or_eq_true_iff.mp h with hsplit | hcounted
      · obtain ⟨hmode, hrun, hhigh⟩ := splitOverflow_one_iff.mp hsplit
        exact .upper hmode hrun hhigh
      · exact atLimit_of_counted hcounted
  · intro h
    cases h with
    | thirteen hmode hrun hhigh hlow =>
      apply raised_one_of_countPaired _ hrun <;> rw [hmode]
      · exact count13_one_iff.mpr ⟨hhigh, hlow⟩
      · decide
    | sixteen hmode hrun hhigh hlow =>
      apply raised_one_of_countPaired _ hrun <;> rw [hmode]
      · exact count16_one_iff.mpr ⟨hhigh, hlow⟩
      · decide
    | reloads hmode hrun hlow =>
      apply raised_one_of_countPaired _ hrun <;> rw [hmode]
      · show (countReload (m.read t.high) 1 (m.read t.low) false).2 = true
        exact countReload_one_iff.mpr hlow
      · decide
    | lower hmode hrun hlow =>
      exact raised_of_counted ((counted_overflowed_split hmode).mpr ⟨hrun, hlow⟩)
    | upper hmode hrun hhigh =>
      rw [raised, splitOverflow_one_iff.mpr ⟨hmode, hrun, hhigh⟩]
      rfl

theorem flag_tick_iff {cycles : Nat} (h : 0 < cycles) :
    t.flag (tick cycles m) = true ↔
      t.flag m = true ∨ ∃ i < cycles, AtLimit ((tick 1)^[i] m) t := by
  induction h with
  | refl => simp [flag_tick, raised_one_iff]
  | @step cycles h ih =>
    have hlast : t.flag (tick (cycles + 1) m) = true ↔
        t.flag (tick cycles m) = true ∨ AtLimit ((tick 1)^[cycles] m) t := by
      rw [tick_add, flag_tick, Bool.or_eq_true, raised_one_iff, tick_eq_iterate h]
    rw [hlast, ih]
    simp only [Nat.lt_succ_iff_lt_or_eq, or_and_right, exists_or, exists_eq_left, or_assoc]

end

/-- Of the timer control byte only the two flags change. -/
theorem read_tick_tcon_rest (cycles : Nat) (m : Memory) :
    (tick cycles m).read Sfr.tcon &&& ~~~(Sfr.tf0 ||| Sfr.tf1) =
      m.read Sfr.tcon &&& ~~~(Sfr.tf0 ||| Sfr.tf1) := by
  have hbits : ∀ first second, flagBits first second &&& ~~~(Sfr.tf0 ||| Sfr.tf1) = 0#8 := by
    decide
  rw [read_tick_tcon, BitVec.and_or_distrib_right, hbits, BitVec.or_zero]

/-! ## 3. The two together -/

/-- **A tick counts single cycles.** A tick of one cycle or more is as many ticks of one cycle, in
    every mode and from every memory, so ticks can be joined and split. A flag is up after it if it
    was before or one of the cycles overflowed; none is lowered. Nothing else changes but the bytes
    that the timers count in. -/
theorem tick_counts_single_cycles (m : Memory) (cycles : Nat) (h : 0 < cycles) :
    tick cycles m = (tick 1)^[cycles] m ∧
    (∀ a b, tick b (tick a m) = tick (a + b) m) ∧
    (∀ t : Timer, t.flag (tick cycles m) = true ↔
      t.flag m = true ∨ ∃ i < cycles, AtLimit ((tick 1)^[i] m) t) ∧
    (∀ t : Timer, t.flag m = true → t.flag (tick cycles m) = true) ∧
    (tick cycles m).read Sfr.tcon &&& ~~~(Sfr.tf0 ||| Sfr.tf1) =
      m.read Sfr.tcon &&& ~~~(Sfr.tf0 ||| Sfr.tf1) ∧
    ∀ addr, addr ∉ [Sfr.tcon, Sfr.tl0, Sfr.th0, Sfr.tl1, Sfr.th1] →
      (tick cycles m).read addr = m.read addr := by
  refine ⟨tick_eq_iterate h m, ?_, ?_, ?_, read_tick_tcon_rest cycles m, ?_⟩
  · intro a b
    exact (tick_add a b m).symm
  · intro t
    exact flag_tick_iff h
  · intro t ht
    exact flag_tick_of_flag cycles ht
  · intro addr haddr
    apply read_tick
    intro a ha hne
    exact haddr (hne ▸ ha)

/-- Timer 0 is split, and its upper byte runs with timer 1, which reloads. Both are two cycles from
their end. -/
def shared : Memory :=
  ((((Memory.zero.write Sfr.tmod 0x23).write Sfr.tcon Sfr.tr1).write Sfr.th0 0xFE).write Sfr.th1
    0xF0).write Sfr.tl1 0xFE

theorem read_shared (addr : Byte) :
    shared.read addr =
      if addr = Sfr.tl1 then 0xFE
      else if addr = Sfr.th1 then 0xF0
      else if addr = Sfr.th0 then 0xFE
      else if addr = Sfr.tcon then Sfr.tr1
      else if addr = Sfr.tmod then 0x23
      else 0 := by
  simp only [shared, Memory.read_write, Memory.read_zero, eq_comm (b := addr)]

/-- The second of three cycles raises the flag, and the third goes on from where each of the two
    bytes starts again. -/
theorem shared_tick_single_cycles :
    0 < 3 ∧ tick 3 shared = (tick 1)^[3] shared ∧ Timer.t1.flag (tick 3 shared) = true ∧
      (tick 3 shared).read Sfr.th0 = 1 ∧ (tick 3 shared).read Sfr.tl1 = 0xF1 := by
  have hpos : 0 < 3 := by decide
  obtain ⟨hcycles, _, hflag, _⟩ := tick_counts_single_cycles shared 3 hpos
  have hmode : Timer.t0.mode (shared.read Sfr.tmod) = 3 := by
    rw [read_shared]
    rfl
  have hruns : running shared .t1 = true := by
    rw [running, read_shared]
    rfl
  have hhigh : ∀ cycles, (tick cycles shared).read Sfr.th0 = (countByte cycles 0xFE).1 := by
    intro cycles
    have hread : (tick cycles shared).read Sfr.th0 = (Timer.t0.counted cycles shared).high :=
      read_tick_high .t0 cycles shared
    rw [hread, counted, hmode]
    simp only [count, countAlone, hruns, high, read_shared]
    rfl
  have hlow : (tick 3 shared).read Sfr.tl1 = 0xF1 := by
    have hread : (tick 3 shared).read Sfr.tl1 = (Timer.t1.counted 3 shared).low :=
      read_tick_low .t1 3 shared
    have hreloads : Timer.t1.mode (shared.read Sfr.tmod) = 2 := by
      rw [read_shared]
      rfl
    rw [hread, counted, hreloads, count_of_ne (by decide), hruns]
    simp only [high, low, read_shared]
    decide
  have hlimit : AtLimit ((tick 1)^[1] shared) .t1 := by
    rw [Function.iterate_one]
    apply AtLimit.upper
    · rw [read_tick_tmod, hmode]
    · rw [running_tick, hruns]
    · exact hhigh 1
  have hup : Timer.t1.flag (tick 3 shared) = true :=
    (hflag .t1).mpr (.inr ⟨1, by decide, hlimit⟩)
  exact ⟨hpos, hcycles, hup, hhigh 3, hlow⟩

/-- Without a cycle the upper three bits of thirteen are lost all the same. -/
example : (count13 0 0xFF 0).high = 0x1F := by decide

end Timer
end Mcs51
