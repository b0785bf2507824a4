import Mcs51.Proofs.TimerFlag

/-!
# What the timers count to

A tick of the timers runs through memory: timer 0 first, in split mode its upper byte before its
lower one, and then timer 1. In split mode the upper byte borrows the run bit and the flag of timer
1, so the order could matter. It does not: **every byte after a tick is a function of the memory
before it** (`tick_eq`), and of the timer control byte only the flags differ, in bits that no timer
looks at (`read_tick_tcon`, `running_tick`).

`Timer.count` is what one timer counts to, from its mode, what runs, and its two bytes. It adds up
over the cycles in every mode (`count_add`), the loop of the reloading mode included, and an
overflow on the way is kept. No cycles at all are a case of their own only for the thirteen bits,
which lose the rest of their upper byte even then; adding up holds there as well.
-/

namespace Mcs51
namespace Timer

/-! ## 1. Counting on -/

/-- Counting on from where counting has come to. An overflow on the way is not forgotten. -/
def Counted.andThen (first : Counted) (count : Byte → Byte → Counted) : Counted :=
  let second := count first.high first.low
  ⟨second.high, second.low, first.overflowed || second.overflowed⟩

section
variable (a b : Nat) (high low value : Byte)

theorem count13_add : count13 (a + b) high low = (count13 a high low).andThen (count13 b) := by
  simp only [count13, Counted.andThen, Counted.mk.injEq]
  refine ⟨?_, ?_, ?_⟩
  · apply BitVec.eq_of_toNat_eq
    simp only [BitVec.toNat_ofNat]
    omega
  · apply BitVec.eq_of_toNat_eq
    simp only [BitVec.toNat_ofNat]
    omega
  · apply Bool.eq_iff_iff.mpr
    simp only [Bool.or_eq_true, decide_eq_true_eq, BitVec.toNat_ofNat]
    omega

theorem count16_add : count16 (a + b) high low = (count16 a high low).andThen (count16 b) := by
  simp only [count16, Counted.andThen, Counted.mk.injEq]
  refine ⟨?_, ?_, ?_⟩
  · apply BitVec.eq_of_toNat_eq
    simp only [BitVec.toNat_ofNat]
    omega
  · apply BitVec.eq_of_toNat_eq
    simp only [BitVec.toNat_ofNat]
    omega
  · apply Bool.eq_iff_iff.mpr
    simp only [Bool.or_eq_true, decide_eq_true_eq, BitVec.toNat_ofNat]
    omega

theorem countByte_add :
    countByte (a + b) value =
      ((countByte b (countByte a value).1).1,
        (countByte a value).2 || (countByte b (countByte a value).1).2) := by
  simp only [countByte, Prod.mk.injEq]
  constructor
  · apply BitVec.eq_of_toNat_eq
    simp only [BitVec.toNat_ofNat]
    omega
  · apply Bool.eq_iff_iff.mpr
    simp only [Bool.or_eq_true, decide_eq_true_eq, BitVec.toNat_ofNat]
    omega

theorem countReload_add (reload value : Byte) (overflowed : Bool) :
    countReload reload (a + b) value overflowed =
      countReload reload b (countReload reload a value overflowed).1
        (countReload reload a value overflowed).2 := by
  induction a generalizing value overflowed with
  | zero => simp [countReload]
  | succ a ih =>
    rw [Nat.succ_add]
    exact ih _ _

/-- The loop only carries along whether it has overflowed before. -/
theorem countReload_overflowed (reload : Byte) (cycles : Nat) (value : Byte) (overflowed : Bool) :
    countReload reload cycles value overflowed =
      ((countReload reload cycles value false).1,
        overflowed || (countReload reload cycles value false).2) := by
  induction cycles generalizing value overflowed with
  | zero => simp [countReload]
  | succ cycles ih =>
    simp only [countReload]
    rw [ih _ (overflowed || _), ih _ (false || _)]
    simp [Bool.or_assoc]

/-- Counting in a mode in which both bytes belong together. Reloading leaves the upper one alone. -/
def countPaired (mode : Fin 4) (cycles : Nat) (high low : Byte) : Counted :=
  match mode with
  | 0 => count13 cycles high low
  | 1 => count16 cycles high low
  | _ =>
    let counted := countReload high cycles low false
    ⟨high, counted.1, counted.2⟩

theorem countPaired_add (mode : Fin 4) :
    countPaired mode (a + b) high low =
      (countPaired mode a high low).andThen (countPaired mode b) := by
  unfold countPaired
  split
  · exact count13_add a b high low
  · exact count16_add a b high low
  · simp only [Counted.andThen, Counted.mk.injEq, true_and]
    rw [countReload_add, countReload_overflowed]
    exact ⟨rfl, rfl⟩

/-- One byte counting on its own, while it is on. -/
def countAlone (on : Bool) (cycles : Nat) (value : Byte) : Byte × Bool :=
  if on then countByte cycles value else (value, false)

theorem countAlone_add (on : Bool) :
    countAlone on (a + b) value =
      ((countAlone on b (countAlone on a value).1).1,
        (countAlone on a value).2 || (countAlone on b (countAlone on a value).1).2) := by
  cases on with
  | true => exact countByte_add a b value
  | false => rfl

end

/-- What a timer counts to in its mode. In split mode both bytes of timer 0 count on their own, and
only the overflow of the lower one is its own. -/
def count (t : Timer) (mode : Fin 4) (runs : Timer → Bool) (cycles : Nat) (high low : Byte) :
    Counted :=
  match t, mode with
  | .t0, 3 =>
    let lower := countAlone (runs .t0) cycles low
    ⟨(countAlone (runs .t1) cycles high).1, lower.1, lower.2⟩
  | .t1, 3 => ⟨high, low, false⟩
  | t, mode => if runs t then countPaired mode cycles high low else ⟨high, low, false⟩

theorem count_of_ne {mode : Fin 4} (h : mode ≠ 3) (t : Timer) (runs : Timer → Bool) (cycles : Nat)
    (high low : Byte) :
    t.count mode runs cycles high low =
      if runs t then countPaired mode cycles high low else ⟨high, low, false⟩ := by
  unfold count
  split
  · contradiction
  · contradiction
  · rfl

/-- **Counting adds up**, in every mode. -/
theorem count_add (t : Timer) (mode : Fin 4) (runs : Timer → Bool) (a b : Nat) (high low : Byte) :
    t.count mode runs (a + b) high low =
      (t.count mode runs a high low).andThen (t.count mode runs b) := by
  unfold count
  split
  · simp only [Counted.andThen, countAlone_add]
  · rfl
  · cases runs _ with
    | true => exact countPaired_add a b high low _
    | false => rfl

/-! ## 2. The flags -/

/-- The flags of the two timers, as bits of the timer control byte. -/
def flagBits (first second : Bool) : Byte :=
  (if first then Sfr.tf0 else 0) ||| (if second then Sfr.tf1 else 0)

theorem flagBits_or (a b c d : Bool) :
    flagBits a b ||| flagBits c d = flagBits (a || c) (b || d) := by
  cases a <;> cases b <;> cases c <;> cases d <;> rfl

variable {m m' : Memory} {t : Timer}

/-- Raising flags starts and stops no timer. -/
theorem running_of_flagBits {first second : Bool}
    (h : m'.read Sfr.tcon = m.read Sfr.tcon ||| flagBits first second) :
    running m' = running m := by
  funext t
  have hbits : flagBits first second &&& t.runBit = 0#8 := by
    cases t <;> cases first <;> cases second <;> rfl
  unfold running
  rw [h, BitVec.and_or_distrib_right, hbits, BitVec.or_zero]

theorem read_flagOverflow_tcon (t : Timer) (overflowed : Bool) (m : Memory) :
    (t.flagOverflow overflowed m).read Sfr.tcon =
      m.read Sfr.tcon ||| if overflowed then t.overflowFlag else 0 := by
  cases overflowed with
  | true => exact m.read_write_self _ _
  | false => exact BitVec.or_zero.symm

theorem flagOverflow_write (t : Timer) (overflowed : Bool) (m : Memory) {addr : Byte}
    (value : Byte) (h : addr ≠ Sfr.tcon) :
    t.flagOverflow overflowed (m.write addr value) =
      (t.flagOverflow overflowed m).write addr value := by
  cases overflowed with
  | false => rfl
  | true =>
    show (m.write addr value).write Sfr.tcon ((m.write addr value).read Sfr.tcon ||| _) = _
    rw [m.read_write_of_ne _ h, m.write_comm _ _ h]
    rfl

/-! ## 3. Storing what was counted -/

theorem high_ne_low (t : Timer) : t.high ≠ t.low := by cases t <;> decide

section
variable (t : Timer) (counted : Counted) (m : Memory)

theorem read_store_high : (t.store counted m).read t.high = counted.high := by
  rw [store, read_flagOverflow_of_ne _ _ _ t.high_ne_tcon.symm,
    Memory.read_write_of_ne _ _ t.high_ne_low.symm, Memory.read_write_self]

theorem read_store_low : (t.store counted m).read t.low = counted.low := by
  rw [store, read_flagOverflow_of_ne _ _ _ t.low_ne_tcon.symm, Memory.read_write_self]

theorem read_store_tcon :
    (t.store counted m).read Sfr.tcon =
      m.read Sfr.tcon ||| if counted.overflowed then t.overflowFlag else 0 := by
  rw [store, read_flagOverflow_tcon, Memory.read_write_of_ne _ _ t.low_ne_tcon,
    Memory.read_write_of_ne _ _ t.high_ne_tcon]

/-- What is stored of timer 0 does not reach the bytes of timer 1. -/
theorem read_t0_store :
    (Timer.t0.store counted m).read Timer.t1.high = m.read Timer.t1.high ∧
      (Timer.t0.store counted m).read Timer.t1.low = m.read Timer.t1.low :=
  ⟨read_store_of_ne _ _ _ (by decide) (by decide) (by decide),
    read_store_of_ne _ _ _ (by decide) (by decide) (by decide)⟩

theorem read_t1_store :
    (Timer.t1.store counted m).read Timer.t0.high = m.read Timer.t0.high ∧
      (Timer.t1.store counted m).read Timer.t0.low = m.read Timer.t0.low :=
  ⟨read_store_of_ne _ _ _ (by decide) (by decide) (by decide),
    read_store_of_ne _ _ _ (by decide) (by decide) (by decide)⟩

/-- Storing what is there changes nothing. -/
theorem store_read : t.store ⟨m.read t.high, m.read t.low, false⟩ m = m := by
  show (m.write t.high (m.read t.high)).write t.low (m.read t.low) = m
  rw [Memory.write_read, Memory.write_read]

end

/-! ## 4. One timer -/

/-- What a timer counts to from a memory. -/
def counted (t : Timer) (cycles : Nat) (m : Memory) : Counted :=
  t.count (t.mode (m.read Sfr.tmod)) (running m) cycles (m.read t.high) (m.read t.low)

/-- The upper byte of timer 0 overflows while it counts on its own, for the flag of timer 1. -/
def splitOverflow (cycles : Nat) (m : Memory) : Bool :=
  Timer.t0.mode (m.read Sfr.tmod) = 3 && (countAlone (running m .t1) cycles (m.read Sfr.th0)).2

theorem counted_congr {cycles : Nat} (hmode : m'.read Sfr.tmod = m.read Sfr.tmod)
    (hrun : running m' = running m) (hhigh : m'.read t.high = m.read t.high)
    (hlow : m'.read t.low = m.read t.low) : t.counted cycles m' = t.counted cycles m := by
  unfold counted
  rw [hmode, hrun, hhigh, hlow]

theorem tickPaired_eq (t : Timer) (mode : Fin 4) (cycles : Nat) (m : Memory) :
    t.tickPaired mode cycles m =
      t.store (countPaired mode cycles (m.read t.high) (m.read t.low)) m := by
  unfold tickPaired countPaired
  split
  · rfl
  · rfl
  · simp only [store, storeByte, Memory.write_read]

theorem tickSplitHigh_eq (cycles : Nat) (m : Memory) :
    tickSplitHigh cycles m =
      storeByte .t1 Sfr.th0 (countAlone (running m .t1) cycles (m.read Sfr.th0)) m := by
  unfold tickSplitHigh countAlone
  split
  · rfl
  · exact (m.write_read Sfr.th0).symm

theorem tickSplitLow_eq (cycles : Nat) (m : Memory) :
    tickSplitLow cycles m =
      storeByte .t0 Sfr.tl0 (countAlone (running m .t0) cycles (m.read Sfr.tl0)) m := by
  unfold tickSplitLow countAlone
  split
  · rfl
  · exact (m.write_read Sfr.tl0).symm

theorem tickOne_of_ne (h : t.mode (m.read Sfr.tmod) ≠ 3) (cycles : Nat) :
    t.tickOne cycles m = t.store (t.counted cycles m) m := by
  have htick : t.tickOne cycles m =
      if running m t then t.tickPaired (t.mode (m.read Sfr.tmod)) cycles m else m := by
    unfold tickOne
    split
    · contradiction
    · contradiction
    · rfl
  rw [htick, counted, count_of_ne h]
  split
  · exact tickPaired_eq t _ cycles m
  · exact (store_read t m).symm

/-- In split mode the upper byte counts first, and the lower one does not notice. -/
theorem tickOne_split (h : Timer.t0.mode (m.read Sfr.tmod) = 3) (cycles : Nat) :
    Timer.t0.tickOne cycles m =
      Timer.t0.store (Timer.t0.counted cycles m)
        (Timer.t1.flagOverflow (splitOverflow cycles m) m) := by
  have hsplit : splitOverflow cycles m =
      (countAlone (running m .t1) cycles (m.read Sfr.th0)).2 := by
    rw [splitOverflow, decide_eq_true h, Bool.true_and]
  have hupper : tickSplitHigh cycles m =
      (Timer.t1.flagOverflow (splitOverflow cycles m) m).write Sfr.th0
        (countAlone (running m .t1) cycles (m.read Sfr.th0)).1 := by
    rw [tickSplitHigh_eq, hsplit]
    exact flagOverflow_write .t1 _ m _ (by decide)
  have hlow : (tickSplitHigh cycles m).read Sfr.tl0 = m.read Sfr.tl0 := by
    rw [tickSplitHigh_eq]
    exact read_storeByte_of_ne .t1 _ m (by decide) (by decide)
  have hrun : running (tickSplitHigh cycles m) = running m := by
    have htcon : (tickSplitHigh cycles m).read Sfr.tcon =
        m.read Sfr.tcon ||| flagBits false (splitOverflow cycles m) := by
      rw [hupper, Memory.read_write_of_ne _ _ (by decide), read_flagOverflow_tcon, flagBits]
      simp [overflowFlag]
    exact running_of_flagBits htcon
  have htick : Timer.t0.tickOne cycles m = tickSplitLow cycles (tickSplitHigh cycles m) := by
    simp only [tickOne, h]
  rw [htick, tickSplitLow_eq, hlow, hrun, hupper, counted, h]
  rfl

theorem tickOne_t0_eq (cycles : Nat) (m : Memory) :
    Timer.t0.tickOne cycles m =
      Timer.t0.store (Timer.t0.counted cycles m)
        (Timer.t1.flagOverflow (splitOverflow cycles m) m) := by
  by_cases h : Timer.t0.mode (m.read Sfr.tmod) = 3
  · exact tickOne_split h cycles
  · have hsplit : splitOverflow cycles m = false := by
      rw [splitOverflow, decide_eq_false h, Bool.false_and]
    rw [hsplit]
    exact tickOne_of_ne h cycles

theorem tickOne_t1_eq (cycles : Nat) (m : Memory) :
    Timer.t1.tickOne cycles m = Timer.t1.store (Timer.t1.counted cycles m) m := by
  by_cases h : Timer.t1.mode (m.read Sfr.tmod) = 3
  · simp only [tickOne, counted, count, h]
    exact (store_read .t1 m).symm
  · exact tickOne_of_ne h cycles

theorem read_tickOne_t0_tcon (cycles : Nat) (m : Memory) :
    (Timer.t0.tickOne cycles m).read Sfr.tcon =
      m.read Sfr.tcon |||
        flagBits (Timer.t0.counted cycles m).overflowed (splitOverflow cycles m) := by
  rw [tickOne_t0_eq, read_store_tcon, read_flagOverflow_tcon, BitVec.or_assoc, flagBits]
  exact congrArg _ (BitVec.or_comm _ _)

/-! ## 5. A tick -/

/-- **A tick in closed form**: each timer stores what it counts to from the memory before the tick,
    whatever the other one stores. -/
theorem tick_eq (cycles : Nat) (m : Memory) :
    tick cycles m =
      Timer.t1.store (Timer.t1.counted cycles m)
        (Timer.t0.store (Timer.t0.counted cycles m)
          (Timer.t1.flagOverflow (splitOverflow cycles m) m)) := by
  have hrun := running_of_flagBits (read_tickOne_t0_tcon cycles m)
  have hmode : (Timer.t0.tickOne cycles m).read Sfr.tmod = m.read Sfr.tmod :=
    read_tickOne .t0 cycles m (by decide)
  have hother := read_t0_store (Timer.t0.counted cycles m)
    (Timer.t1.flagOverflow (splitOverflow cycles m) m)
  rw [← tickOne_t0_eq] at hother
  have hcounted : Timer.t1.counted cycles (Timer.t0.tickOne cycles m) =
      Timer.t1.counted cycles m := by
    apply counted_congr hmode hrun
    · rw [hother.1]
      exact read_flagOverflow_of_ne .t1 _ m (by decide)
    · rw [hother.2]
      exact read_flagOverflow_of_ne .t1 _ m (by decide)
  rw [tick, tickOne_t1_eq, hcounted, tickOne_t0_eq]

/-- Whether some cycles raise the flag of a timer. -/
def raised (t : Timer) (cycles : Nat) (m : Memory) : Bool :=
  match t with
  | .t0 => (Timer.t0.counted cycles m).overflowed
  | .t1 => splitOverflow cycles m || (Timer.t1.counted cycles m).overflowed

section
variable (t : Timer) (cycles : Nat) (m : Memory)

theorem read_tick_high : (tick cycles m).read t.high = (t.counted cycles m).high := by
  rw [tick_eq]
  cases t with
  | t0 => rw [(read_t1_store _ _).1, read_store_high]
  | t1 => exact read_store_high .t1 _ _

theorem read_tick_low : (tick cycles m).read t.low = (t.counted cycles m).low := by
  rw [tick_eq]
  cases t with
  | t0 => rw [(read_t1_store _ _).2, read_store_low]
  | t1 => exact read_store_low .t1 _ _

theorem read_tick_tcon :
    (tick cycles m).read Sfr.tcon =
      m.read Sfr.tcon ||| flagBits (raised .t0 cycles m) (raised .t1 cycles m) := by
  have hlast : ∀ b : Bool, (if b then Timer.t1.overflowFlag else 0) = flagBits false b := by decide
  rw [tick_eq, read_store_tcon, ← tickOne_t0_eq, read_tickOne_t0_tcon, BitVec.or_assoc, hlast,
    flagBits_or, Bool.or_false]
  rfl

theorem read_tick_tmod : (tick cycles m).read Sfr.tmod = m.read Sfr.tmod :=
  read_tick cycles m (by decide)

theorem running_tick : running (tick cycles m) = running m :=
  running_of_flagBits (read_tick_tcon cycles m)

/-- A flag after some cycles is up if it was up before or they raise it. -/
theorem flag_tick : t.flag (tick cycles m) = (t.flag m || t.raised cycles m) := by
  have hbits : flagBits (Timer.t0.raised cycles m) (Timer.t1.raised cycles m) &&& t.overflowFlag =
      if t.raised cycles m then t.overflowFlag else 0 := by
    cases t <;> cases Timer.t0.raised cycles m <;> cases Timer.t1.raised cycles m <;> rfl
  have hflag : t.overflowFlag ≠ 0#8 := by cases t <;> decide
  unfold flag
  rw [read_tick_tcon, BitVec.and_or_distrib_right, hbits]
  cases t.raised cycles m with
  | true => simp [hflag]
  | false => simp

end

end Timer
end Mcs51
