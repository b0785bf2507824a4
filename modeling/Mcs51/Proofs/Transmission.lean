import Mathlib.Algebra.BigOperators.Intervals
import Mathlib.Data.Nat.Count
import Mcs51.Peripheral.Transmitter

/-!
# When a transmission ends

A transmitter is ticked again and again, each time with a memory, a number of cycles and the word
whether the serial buffer was written. Nothing is asked of these three: the memory of one tick need
not come from that of the tick before. `transmission_timing` says what comes out of any such
sequence, from an idle transmitter on.

The invariant is `before_eq_sending_iff`. A transmission under way before a tick was started by the
latest write before that tick, and the cycles since then and the cycles still to go add up to the
duration that was read off the memory of that write. When a byte is sent, how many are sent and how
long it can take are all consequences of it.
-/

namespace Mcs51
namespace Transmitter

/-! ## 1. One tick -/

theorem duration_modify_scon (m : Memory) (f : Byte → Byte) :
    duration (m.modify Sfr.scon f) = duration m := by
  have hr : ∀ addr, Sfr.scon ≠ addr → (m.modify Sfr.scon f).read addr = m.read addr :=
    fun addr h => m.read_write_of_ne _ h
  simp only [duration, hr Sfr.tcon (by decide), hr Sfr.th1 (by decide)]

theorem duration_pos (m : Memory) : 0 < duration m := by
  unfold duration
  split
  · omega
  · decide

/-- The longest transmission is that of the slowest timer. -/
theorem duration_le (m : Memory) : duration m ≤ 3072 := by
  unfold duration
  split
  · omega
  · decide

theorem duration_advance (t : Transmitter) (cycles : Nat) (m : Memory) :
    duration (t.advance cycles m).mem = duration m := by
  cases t with
  | idle => rfl
  | sending remaining =>
    simp only [advance]
    split
    · exact duration_modify_scon m _
    · rfl

theorem tick_sent (t : Transmitter) (m : Memory) (cycles : Nat) (written : Bool) :
    (t.tick m cycles written).sent = (t.advance cycles m).sent := by
  cases written <;> rfl

/-- A byte is sent when the cycles that are left have gone by, and it is the one in the buffer. -/
theorem tick_sent_eq_some_iff {t : Transmitter} {m : Memory} {cycles : Nat} {written : Bool}
    {byte : Byte} :
    (t.tick m cycles written).sent = some byte ↔
      (∃ remaining, t = .sending remaining ∧ remaining ≤ cycles) ∧ m.read Sfr.sbuf = byte := by
  rw [tick_sent]
  cases t with
  | idle => simp [advance]
  | sending remaining =>
    simp only [advance, sending.injEq, exists_eq_left']
    split <;> simp_all

/-- A write starts a transmission, whatever was under way. -/
theorem tick_written (t : Transmitter) (m : Memory) (cycles : Nat) :
    (t.tick m cycles true).transmitter = .sending (duration m) := by
  simp only [tick, restart, if_true, duration_advance]

/-- Without a write a transmission only goes on. -/
theorem tick_not_written_iff {t : Transmitter} {m : Memory} {cycles remaining : Nat} :
    (t.tick m cycles false).transmitter = .sending remaining ↔
      t = .sending (remaining + cycles) ∧ 0 < remaining := by
  cases t with
  | idle => simp [tick, advance]
  | sending left =>
    simp only [tick, advance, Bool.false_eq_true, if_false, sending.injEq]
    split
    · simp only [reduceCtorEq, false_iff, not_and]
      omega
    · simp only [sending.injEq]
      omega

/-! ## 2. Sequences of ticks -/

/-- What a tick is given. -/
structure Tick where
  /-- The memory. -/
  mem : Memory
  /-- The cycles that go by. -/
  cycles : Nat
  /-- The serial buffer was written. -/
  written : Bool

section
variable (ticks : Nat → Tick)

/-- The transmitter before the tick number `n`; it is idle before the first one. -/
def before : Nat → Transmitter
  | 0 => .idle
  | n + 1 => ((before n).tick (ticks n).mem (ticks n).cycles (ticks n).written).transmitter

/-- What comes of the tick number `n`. -/
def outcome (n : Nat) : Ticked :=
  (before ticks n).tick (ticks n).mem (ticks n).cycles (ticks n).written

/-- Whether a byte is sent in a tick. -/
def sends (n : Nat) : Bool := (outcome ticks n).sent.isSome

/-- Whether a tick writes the buffer while a transmission is under way that does not end in it. -/
def overrides (n : Nat) : Bool := (ticks n).written && before ticks n ≠ .idle && !sends ticks n

/-- The cycles of the ticks after `i` and before `j`. -/
def elapsed (i j : Nat) : Nat := ∑ l ∈ Finset.Ico (i + 1) j, (ticks l).cycles

/-- The tick `i` is the latest one before `j` that writes the buffer. -/
structure LastWrite (i j : Nat) : Prop where
  lt : i < j
  written : (ticks i).written = true
  latest : ∀ l, i < l → l < j → (ticks l).written = false

end

variable {ticks : Nat → Tick}

theorem elapsed_self (i : Nat) : elapsed ticks i (i + 1) = 0 := by
  simp [elapsed]

theorem elapsed_succ {i j : Nat} (h : i < j) :
    elapsed ticks i (j + 1) = elapsed ticks i j + (ticks j).cycles :=
  Finset.sum_Ico_succ_top h _

theorem LastWrite.unique {i i' j : Nat} (h : LastWrite ticks i j) (h' : LastWrite ticks i' j) :
    i = i' := by
  rcases Nat.lt_trichotomy i i' with hlt | heq | hgt
  · exact absurd h'.written (by simp [h.latest i' hlt h'.lt])
  · exact heq
  · exact absurd h.written (by simp [h'.latest i hgt h.lt])

theorem lastWrite_succ_of_written {i j : Nat} (hw : (ticks j).written = true) :
    LastWrite ticks i (j + 1) ↔ i = j := by
  constructor
  · intro h
    rcases Nat.lt_succ_iff_lt_or_eq.mp h.lt with hlt | heq
    · exact absurd hw (by simp [h.latest j hlt (Nat.lt_succ_self j)])
    · exact heq
  · rintro rfl
    exact ⟨Nat.lt_succ_self i, hw, fun l h1 h2 => by omega⟩

theorem lastWrite_succ_of_not_written {i j : Nat} (hw : (ticks j).written = false) :
    LastWrite ticks i (j + 1) ↔ LastWrite ticks i j := by
  constructor
  · intro h
    have hne : i ≠ j := by
      rintro rfl
      exact absurd h.written (by simp [hw])
    exact ⟨by have := h.lt; omega, h.written, fun l h1 h2 => h.latest l h1 (by omega)⟩
  · intro h
    refine ⟨Nat.lt_succ_of_lt h.lt, h.written, fun l h1 h2 => ?_⟩
    rcases Nat.lt_succ_iff_lt_or_eq.mp h2 with hlt | rfl
    · exact h.latest l h1 hlt
    · exact hw

/-! ## 3. The invariant -/

/-- **What is left of a transmission** is what its duration has over the cycles since its write. -/
theorem before_eq_sending_iff {n remaining : Nat} :
    before ticks n = .sending remaining ↔
      ∃ i, LastWrite ticks i n ∧ 0 < remaining ∧
        elapsed ticks i n + remaining = duration (ticks i).mem := by
  induction n generalizing remaining with
  | zero =>
    constructor
    · intro h
      exact nomatch h
    · rintro ⟨i, h, _⟩
      exact absurd h.lt (Nat.not_lt_zero i)
  | succ n ih =>
    cases hw : (ticks n).written with
    | true =>
      -- The tick makes itself the latest write, with no cycles gone by yet.
      simp only [before, hw, tick_written, lastWrite_succ_of_written hw, exists_eq_left,
        elapsed_self, Nat.zero_add, sending.injEq]
      constructor
      · rintro rfl
        exact ⟨duration_pos _, rfl⟩
      · rintro ⟨_, h⟩
        exact h.symm
    | false =>
      -- The latest write stays, and cycles move from those to go to those gone by.
      simp only [before, hw, tick_not_written_iff, ih, lastWrite_succ_of_not_written hw]
      constructor
      · rintro ⟨⟨i, hi, _, hd⟩, hr⟩
        refine ⟨i, hi, hr, ?_⟩
        rw [elapsed_succ hi.lt]
        omega
      · rintro ⟨i, hi, hr, hd⟩
        rw [elapsed_succ hi.lt] at hd
        exact ⟨⟨i, hi, by omega, by omega⟩, hr⟩

/-- The byte of a tick is that of the latest write whose duration the tick fills. -/
theorem sent_eq_some_iff {j : Nat} {byte : Byte} :
    (outcome ticks j).sent = some byte ↔
      (∃ i, LastWrite ticks i j ∧ duration (ticks i).mem ≤ elapsed ticks i (j + 1) ∧
        elapsed ticks i j < duration (ticks i).mem) ∧ (ticks j).mem.read Sfr.sbuf = byte := by
  rw [outcome, tick_sent_eq_some_iff]
  refine and_congr_left fun _ => ⟨?_, ?_⟩
  · rintro ⟨remaining, hb, hle⟩
    obtain ⟨i, hi, hr, hd⟩ := before_eq_sending_iff.mp hb
    refine ⟨i, hi, ?_, ?_⟩
    · rw [elapsed_succ hi.lt]
      omega
    · omega
  · rintro ⟨i, hi, hle, hlt⟩
    rw [elapsed_succ hi.lt] at hle
    refine ⟨duration (ticks i).mem - elapsed ticks i j,
      before_eq_sending_iff.mpr ⟨i, hi, ?_, ?_⟩, ?_⟩
    · omega
    · omega
    · omega

theorem sends_iff {j : Nat} :
    sends ticks j = true ↔
      ∃ i, LastWrite ticks i j ∧ duration (ticks i).mem ≤ elapsed ticks i (j + 1) ∧
        elapsed ticks i j < duration (ticks i).mem := by
  simp only [sends, Option.isSome_iff_exists, sent_eq_some_iff]
  exact ⟨fun ⟨_, h, _⟩ => h, fun h => ⟨_, h, rfl⟩⟩

/-! ## 4. How many bytes are sent -/

/-- The transmissions that are under way before a tick: one or none. -/
def underWay (ticks : Nat → Tick) (n : Nat) : Nat := if before ticks n = .idle then 0 else 1

/-- One tick loses no transmission: those begun and those under way are those sent, those overridden
and those under way after it. -/
theorem written_add_underWay (n : Nat) :
    (if (ticks n).written then 1 else 0) + underWay ticks n =
      (if sends ticks n then 1 else 0) + (if overrides ticks n then 1 else 0) +
        underWay ticks (n + 1) := by
  have hn : before ticks (n + 1) = (outcome ticks n).transmitter := rfl
  simp only [underWay, overrides, sends, hn, outcome, tick_sent]
  cases hb : before ticks n with
  | idle => cases (ticks n).written <;> simp [advance, tick, restart]
  | sending remaining =>
    by_cases hle : remaining ≤ (ticks n).cycles
    · cases (ticks n).written <;> simp [advance, tick, restart, hle]
    · cases (ticks n).written <;> simp [advance, tick, restart, hle]

theorem count_written (n : Nat) :
    Nat.count (fun i => (ticks i).written) n =
      Nat.count (fun i => sends ticks i) n + Nat.count (fun i => overrides ticks i) n +
        underWay ticks n := by
  induction n with
  | zero => rfl
  | succ n ih =>
    have hstep := @written_add_underWay ticks n
    simp only [Nat.count_succ]
    omega

/-! ## 5. The theorem -/

/-- The memory of a tick in which a byte was sent: the flag for it is set, and lowered again if the
tick also starts a transmission. -/
theorem mem_of_sends {j : Nat} (h : sends ticks j = true) :
    (outcome ticks j).mem =
      let flagged := (ticks j).mem.modify Sfr.scon (· ||| Sfr.ti)
      if (ticks j).written then flagged.modify Sfr.scon (· &&& ~~~Sfr.ti) else flagged := by
  obtain ⟨byte, hs⟩ := Option.isSome_iff_exists.mp h
  obtain ⟨⟨remaining, hb, hle⟩, _⟩ := tick_sent_eq_some_iff.mp hs
  simp only [outcome, hb, tick, advance, hle, if_true, restart]
  split <;> rfl

/-- **Timing and conservation of transmissions**, over any sequence of ticks. A byte is sent in the
    tick that fills the duration of the latest write before it; it is what the buffer holds in that
    tick. Every write ends in exactly one of three ways: its byte is sent, a later write overrides
    it, or it is still under way. A transmission under way has 1 to 3072 cycles to go. -/
theorem transmission_timing (ticks : Nat → Tick) :
    (∀ j, sends ticks j = true ↔
      ∃ i, LastWrite ticks i j ∧ duration (ticks i).mem ≤ elapsed ticks i (j + 1) ∧
        elapsed ticks i j < duration (ticks i).mem) ∧
    (∀ j, sends ticks j = true →
      (outcome ticks j).sent = some ((ticks j).mem.read Sfr.sbuf) ∧
      (outcome ticks j).mem =
        let flagged := (ticks j).mem.modify Sfr.scon (· ||| Sfr.ti)
        if (ticks j).written then flagged.modify Sfr.scon (· &&& ~~~Sfr.ti) else flagged) ∧
    (∀ n, Nat.count (fun i => (ticks i).written) n =
      Nat.count (fun i => sends ticks i) n + Nat.count (fun i => overrides ticks i) n +
        if before ticks n = .idle then 0 else 1) ∧
    (∀ n remaining, before ticks n = .sending remaining → 1 ≤ remaining ∧ remaining ≤ 3072) := by
  refine ⟨fun j => sends_iff, fun j h => ⟨?_, mem_of_sends h⟩, count_written, ?_⟩
  · exact sent_eq_some_iff.mpr ⟨sends_iff.mp h, rfl⟩
  · intro n remaining h
    obtain ⟨i, _, hr, hd⟩ := before_eq_sending_iff.mp h
    have := duration_le (ticks i).mem
    omega

/-- A write in the first of many ticks of sixty cycles. -/
def sixties (n : Nat) : Tick := ⟨.zero, 60, n == 0⟩

/-- The third tick brings the cycles since the write to the hundred and twenty that it takes. -/
theorem sixties_sends_in_third :
    sends sixties 2 = true ∧ (outcome sixties 2).sent = some 0 := by
  have h : sends sixties 2 = true := by decide +kernel
  refine ⟨h, ?_⟩
  rw [((transmission_timing sixties).2.1 2 h).1]
  simp [sixties]

end Transmitter
end Mcs51
