import Mcs51.Proofs.Counting

/-!
# The reloading mode in closed form

In the reloading mode a timer counts in its lower byte alone, and an overflow lets it go on from the
upper one. So it does not count modulo a fixed number. The first round goes from the lower byte to
the end, wherever that byte stands; every later round begins at the reload value and is as long as
that leaves room for, from 256 cycles down to a single one.

The loop is taken apart at the overflows. Up to the first one it is an addition
(`countReload_of_lt`), a round comes out at the reload value (`countReload_round`), and so do any
number of them (`countReload_rounds`). What is left is less than a round, and counting adds up
(`countReload_add`).
-/

namespace Mcs51
namespace Timer

/-! ## 1. The loop -/

/-- How many cycles bring a byte to its overflow. -/
def round (value : Byte) : Nat := 256 - value.toNat

variable {cycles : Nat} {reload value : Byte}

theorem round_pos (value : Byte) : 0 < round value := by
  have hlt := value.isLt
  unfold round
  omega

/-- Before the first overflow the byte is counted up. -/
theorem countReload_of_lt (h : cycles < round value) (reload : Byte) (overflowed : Bool) :
    countReload reload cycles value overflowed =
      (BitVec.ofNat 8 (value.toNat + cycles), overflowed) := by
  unfold round at h
  induction cycles generalizing value with
  | zero => simp [countReload]
  | succ cycles ih =>
    have hlt : value.toNat < 255 := by omega
    have hnot : value ≠ 0xFF := by
      rintro rfl
      exact absurd hlt (by decide)
    have hnext : (value + 1).toNat = value.toNat + 1 := by bv_omega
    rw [countReload, reloadOnce, if_neg hnot, beq_false_of_ne hnot, Bool.or_false,
      ih (by omega), hnext, Nat.add_assoc, Nat.add_comm 1]

/-- A round ends at the reload value, and its last cycle is the overflow. -/
theorem countReload_round (reload value : Byte) (overflowed : Bool) :
    countReload reload (round value) value overflowed = (reload, true) := by
  have hlt := value.isLt
  have hround : round value = 255 - value.toNat + 1 := by
    unfold round
    omega
  have hfull : value.toNat + (255 - value.toNat) = 255 := by omega
  have hbefore : countReload reload (255 - value.toNat) value overflowed = (0xFF, overflowed) := by
    rw [countReload_of_lt (by omega), hfull]
    rfl
  rw [hround, countReload_add, hbefore]
  simp [countReload, reloadOnce]

theorem countReload_rounds (reload : Byte) (rounds : Nat) :
    countReload reload (rounds * round reload) reload true = (reload, true) := by
  induction rounds with
  | zero => rw [Nat.zero_mul, countReload]
  | succ rounds ih => rw [Nat.succ_mul, countReload_add, ih, countReload_round]

/-- Behind the first overflow only the cycles since the last one count. -/
theorem countReload_of_le (h : round value ≤ cycles) (reload : Byte) (overflowed : Bool) :
    countReload reload cycles value overflowed =
      (BitVec.ofNat 8 (reload.toNat + (cycles - round value) % round reload), true) := by
  let rest := cycles - round value
  have hsplit : cycles =
      round value + (rest / round reload * round reload + rest % round reload) := by
    rw [Nat.div_add_mod']
    omega
  have hrest : rest % round reload < round reload := Nat.mod_lt _ (round_pos reload)
  calc countReload reload cycles value overflowed
      = countReload reload (rest / round reload * round reload + rest % round reload) reload
          true := by
        rw [hsplit, countReload_add, countReload_round]
    _ = countReload reload (rest % round reload) reload true := by
        rw [countReload_add, countReload_rounds]
    _ = _ := countReload_of_lt hrest reload true

/-! ## 2. Timers -/

variable {t : Timer} {m : Memory}

theorem counted_of_reloading (hmode : t.mode (m.read Sfr.tmod) = 2) (hruns : running m t = true)
    (cycles : Nat) :
    t.counted cycles m =
      let counted := countReload (m.read t.high) cycles (m.read t.low) false
      ⟨m.read t.high, counted.1, counted.2⟩ := by
  rw [counted, hmode, count_of_ne (by decide), if_pos hruns]
  rfl

/-- **Reloading in closed form.** A running timer in the reloading mode keeps its upper byte. As
    long as the cycles do not bring the lower one to its end they are added to it, and the flag
    stays as it was. Otherwise the flag is up, and the lower byte is ahead of the reload value by
    what is left of the cycles behind the first overflow and behind all whole rounds after it.
    Nothing else changes but the lower byte and the flag. -/
theorem reloading_in_closed_form (t : Timer) (cycles : Nat) (m : Memory)
    (hmode : t.mode (m.read Sfr.tmod) = 2) (hruns : running m t = true) :
    let before := (m.read t.low).toNat
    let reload := (m.read t.high).toNat
    let after := t.tickOne cycles m
    after.read t.high = m.read t.high ∧
    (cycles < 256 - before →
      (after.read t.low).toNat = before + cycles ∧ t.flag after = t.flag m) ∧
    (256 - before ≤ cycles →
      (after.read t.low).toNat = reload + (cycles - (256 - before)) % (256 - reload) ∧
        t.flag after = true) ∧
    after.read Sfr.tcon &&& ~~~t.overflowFlag = m.read Sfr.tcon &&& ~~~t.overflowFlag ∧
    ∀ addr, addr ≠ t.low → addr ≠ Sfr.tcon → after.read addr = m.read addr := by
  intro before reload after
  have hnot : t.mode (m.read Sfr.tmod) ≠ 3 := by
    rw [hmode]
    decide
  have hafter : after = t.store (t.counted cycles m) m := tickOne_of_ne hnot cycles
  have hcounted := counted_of_reloading hmode hruns cycles
  have hlt_reload : reload < 256 := (m.read t.high).isLt
  refine ⟨?_, ?_, ?_, ?_, ?_⟩
  · rw [hafter, read_store_high, hcounted]
  · intro hlt
    have hcount : countReload (m.read t.high) cycles (m.read t.low) false =
        (BitVec.ofNat 8 (before + cycles), false) := countReload_of_lt hlt _ false
    rw [hcount] at hcounted
    constructor
    · rw [hafter, read_store_low, hcounted, BitVec.toNat_ofNat]
      exact Nat.mod_eq_of_lt (by omega)
    · apply flag_eq_of_read
      rw [hafter, read_store_tcon, hcounted]
      exact BitVec.or_zero
  · intro hle
    have hcount : countReload (m.read t.high) cycles (m.read t.low) false =
        (BitVec.ofNat 8 (reload + (cycles - (256 - before)) % (256 - reload)), true) :=
      countReload_of_le hle _ false
    rw [hcount] at hcounted
    constructor
    · have hrest := Nat.mod_lt (cycles - (256 - before)) (Nat.sub_pos_of_lt hlt_reload)
      rw [hafter, read_store_low, hcounted, BitVec.toNat_ofNat]
      exact Nat.mod_eq_of_lt (by omega)
    · have hup : t.overflowFlag ≠ 0#8 := by cases t <;> decide
      rw [flag, hafter, read_store_tcon, hcounted, if_pos rfl, BitVec.and_or_distrib_right,
        BitVec.and_self, bne_iff_ne]
      intro hzero
      exact hup (BitVec.or_eq_zero_iff.mp hzero).2
  · have hflag : ∀ overflowed : Bool,
        (if overflowed then t.overflowFlag else 0) &&& ~~~t.overflowFlag = 0#8 := by
      cases t <;> decide
    rw [hafter, read_store_tcon, BitVec.and_or_distrib_right, hflag, BitVec.or_zero]
  · intro addr hlow htcon
    by_cases hhigh : t.high = addr
    · rw [← hhigh, hafter, read_store_high, hcounted]
    · rw [hafter]
      exact read_store_of_ne t _ m htcon.symm hhigh hlow.symm

/-- Timer 1 goes on from 253 and so overflows with every third cycle. -/
def threes : Memory :=
  (((Memory.zero.write Sfr.tmod 0x20).write Sfr.tcon Sfr.tr1).write Sfr.th1 0xFD).write Sfr.tl1 0x10

theorem read_threes (addr : Byte) :
    threes.read addr =
      if addr = Sfr.tl1 then 0x10
      else if addr = Sfr.th1 then 0xFD
      else if addr = Sfr.tcon then Sfr.tr1
      else if addr = Sfr.tmod then 0x20
      else 0 := by
  simp only [threes, Memory.read_write, Memory.read_zero, eq_comm (b := addr)]

/-- The lower byte starts below the reload value, and so the first round is the longest: it takes
    240 of a thousand cycles, and of the other 760 one is left behind 253 rounds. -/
theorem threes_in_closed_form :
    (Timer.t1.tickOne 239 threes).read Sfr.tl1 = 0xFF ∧
    Timer.t1.flag (Timer.t1.tickOne 239 threes) = false ∧
    (Timer.t1.tickOne 1000 threes).read Sfr.tl1 = 0xFE ∧
    Timer.t1.flag (Timer.t1.tickOne 1000 threes) = true := by
  have hmode : Timer.t1.mode (threes.read Sfr.tmod) = 2 := by
    rw [read_threes]
    rfl
  have hruns : running threes .t1 = true := by
    rw [running, read_threes]
    rfl
  have hlow : threes.read Timer.t1.low = 0x10 := read_threes Sfr.tl1
  have hhigh : threes.read Timer.t1.high = 0xFD := read_threes Sfr.th1
  have hflag : Timer.t1.flag threes = false := by
    rw [flag, read_threes]
    rfl
  obtain ⟨-, hfew, -⟩ := reloading_in_closed_form .t1 239 threes hmode hruns
  obtain ⟨-, -, hmany, -⟩ := reloading_in_closed_form .t1 1000 threes hmode hruns
  rw [hlow] at hfew hmany
  rw [hhigh] at hmany
  obtain ⟨hread, hsame⟩ := hfew (by decide)
  obtain ⟨hread', hup⟩ := hmany (by decide)
  exact ⟨BitVec.eq_of_toNat_eq hread, hsame.trans hflag, BitVec.eq_of_toNat_eq hread', hup⟩

/-- With the greatest reload value every cycle overflows. -/
example : round 0xFF = 1 ∧ countReload 0xFF 5 0xFF false = (0xFF, true) := by decide

end Timer
end Mcs51
