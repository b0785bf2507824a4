import Mcs51.Instruction.Execution

/-!
# What the surroundings of an instruction leave alone

Around an instruction a step sets the parity flag, counts the timers, lets the transmitter go on and
may take an interrupt. Each writes a few bytes that are known beforehand, and the lemmas here say
for every other address that it holds what it held. `Timer.written` are the bytes that the timers
share.
-/

namespace Mcs51

/-! ## 1. Memory -/

namespace Memory

theorem read_modify_of_ne (m : Memory) {addr other : Byte} (f : Byte → Byte) (h : addr ≠ other) :
    (m.modify addr f).read other = m.read other :=
  m.read_write_of_ne _ h

theorem read_setFlag_of_ne (m : Memory) (mask : Byte) (on : Bool) {addr : Byte}
    (h : Sfr.psw ≠ addr) : (m.setFlag mask on).read addr = m.read addr :=
  m.read_write_of_ne _ h

theorem read_refreshParity_of_ne (m : Memory) {addr : Byte} (h : Sfr.psw ≠ addr) :
    m.refreshParity.read addr = m.read addr :=
  m.read_setFlag_of_ne _ _ h

theorem read_pop_of_ne (m : Memory) {addr : Byte} (h : Sfr.sp ≠ addr) :
    m.pop.read addr = m.read addr :=
  m.read_write_of_ne _ h

theorem read_push_of_ne (m : Memory) (value : Byte) {addr : Byte} (hsp : Sfr.sp ≠ addr)
    (h : m.sp + 1 ≠ addr) : (m.push value).read addr = m.read addr := by
  rw [push, read_write_of_ne _ _ h]
  exact m.read_write_of_ne _ hsp

theorem sp_push (m : Memory) (value : Byte) (h : m.sp + 1 ≠ Sfr.sp) :
    (m.push value).sp = m.sp + 1 := by
  rw [push, sp, read_write_of_ne _ _ h]
  exact m.read_write_self Sfr.sp _

/-- Where the two bytes of a pushed word go, unless the first of them lands on the stack pointer. -/
def wordSlots (m : Memory) : List Byte := [m.sp + 1, m.sp + 1 + 1]

/-- **The frame of the stack**: a pushed word is in its slots, as long as the stack pointer is not
one of them. -/
theorem read_pushWord_of_ne (m : Memory) (w : Word) {addr : Byte} (hstack : Sfr.sp ∉ m.wordSlots)
    (hsp : Sfr.sp ≠ addr) (h : addr ∉ m.wordSlots) : (m.pushWord w).read addr = m.read addr := by
  simp only [wordSlots, List.mem_cons, List.not_mem_nil, or_false, not_or] at hstack h
  have hmoved : (m.push (highByte w)).sp = m.sp + 1 := m.sp_push _ (Ne.symm hstack.1)
  rw [pushWord, read_push_of_ne _ _ hsp (hmoved ▸ Ne.symm h.2),
    m.read_push_of_ne _ hsp (Ne.symm h.1)]

/-- The four banks take up the first thirty-two bytes. -/
theorem registerAddr_lt (m : Memory) (r : Register) : (m.registerAddr r).toNat < 32 := by
  have hmask : (m.psw.bits &&& Psw.bankMask).toNat ≤ 24 := by
    rw [BitVec.toNat_and]
    exact Nat.and_le_right
  have hbank : m.psw.bank.toNat = (m.psw.bits &&& Psw.bankMask).toNat / 8 := by
    rw [Psw.bank, BitVec.toNat_ushiftRight, Nat.shiftRight_eq_div_pow]
  have h8 : (8 : Byte).toNat = 8 := rfl
  have hr := r.isLt
  simp only [registerAddr, BitVec.toNat_add, BitVec.toNat_mul, BitVec.toNat_ofNat, h8, hbank]
  omega

theorem registerAddr_ne (m : Memory) (r : Register) {addr : Byte} (h : 32 ≤ addr.toNat) :
    m.registerAddr r ≠ addr := by
  rintro rfl
  exact Nat.not_lt.mpr h (m.registerAddr_lt r)

end Memory

/-! ## 2. Timers -/

namespace Timer

/-- The bytes that the timers count in, and the one with their flags. -/
def written : List Byte := [Sfr.tcon, Sfr.tl0, Sfr.th0, Sfr.tl1, Sfr.th1]

section
variable {addr : Byte}

theorem read_flagOverflow_of_ne (t : Timer) (overflowed : Bool) (m : Memory)
    (h : Sfr.tcon ≠ addr) : (t.flagOverflow overflowed m).read addr = m.read addr := by
  unfold flagOverflow
  split
  · exact m.read_modify_of_ne _ h
  · rfl

theorem read_storeByte_of_ne (t : Timer) {place : Byte} (counted : Byte × Bool) (m : Memory)
    (h : Sfr.tcon ≠ addr) (hp : place ≠ addr) :
    (t.storeByte place counted m).read addr = m.read addr := by
  rw [storeByte, read_flagOverflow_of_ne _ _ _ h, m.read_write_of_ne _ hp]

theorem read_store_of_ne (t : Timer) (counted : Counted) (m : Memory) (h : Sfr.tcon ≠ addr)
    (hh : t.high ≠ addr) (hl : t.low ≠ addr) : (t.store counted m).read addr = m.read addr := by
  rw [store, read_flagOverflow_of_ne _ _ _ h, Memory.read_write_of_ne _ _ hl,
    m.read_write_of_ne _ hh]

theorem low_mem_written (t : Timer) : t.low ∈ written := by cases t <;> decide

theorem high_mem_written (t : Timer) : t.high ∈ written := by cases t <;> decide

theorem read_tickOne (t : Timer) (cycles : Nat) (m : Memory) (h : ∀ a ∈ written, a ≠ addr) :
    (t.tickOne cycles m).read addr = m.read addr := by
  have hc : Sfr.tcon ≠ addr := h _ (by decide)
  have hl := h _ t.low_mem_written
  have hh := h _ t.high_mem_written
  have hs : (tickSplitLow cycles (tickSplitHigh cycles m)).read addr = m.read addr := by
    have hhigh : (tickSplitHigh cycles m).read addr = m.read addr := by
      unfold tickSplitHigh
      split
      · exact read_storeByte_of_ne _ _ _ hc (h _ (by decide))
      · rfl
    unfold tickSplitLow
    split
    · rw [read_storeByte_of_ne _ _ _ hc (h _ (by decide)), hhigh]
    · exact hhigh
  have hpaired : ∀ mode, (t.tickPaired mode cycles m).read addr = m.read addr := by
    intro mode
    unfold tickPaired
    split
    · exact read_store_of_ne _ _ _ hc hh hl
    · exact read_store_of_ne _ _ _ hc hh hl
    · exact read_storeByte_of_ne _ _ _ hc hl
  unfold tickOne
  split
  · exact hs
  · rfl
  · split
    · exact hpaired _
    · rfl

/-- **The frame of the timers.** -/
theorem read_tick (cycles : Nat) (m : Memory) (h : ∀ a ∈ written, a ≠ addr) :
    (tick cycles m).read addr = m.read addr := by
  rw [tick, read_tickOne _ _ _ h, read_tickOne _ _ _ h]

end

end Timer

/-! ## 3. The transmitter -/

/-- **The frame of the transmitter**: it writes the serial control byte alone. -/
theorem Transmitter.read_tick_of_ne (t : Transmitter) (m : Memory) (cycles : Nat) (written : Bool)
    {addr : Byte} (h : Sfr.scon ≠ addr) :
    (t.tick m cycles written).mem.read addr = m.read addr := by
  have hadvance : (t.advance cycles m).mem.read addr = m.read addr := by
    cases t with
    | idle => rfl
    | sending remaining =>
      simp only [advance]
      split
      · exact m.read_modify_of_ne _ h
      · rfl
  unfold tick
  split
  · exact (Memory.read_modify_of_ne _ _ h).trans hadvance
  · exact hadvance

/-! ## 4. Machines -/

/-- The flag that an interrupt lowers is a bit of the timer control byte. -/
theorem Interrupt.read_lowerFlag_of_ne (i : Interrupt) (m : Memory) {addr : Byte}
    (h : Sfr.tcon ≠ addr) : (i.lowerFlag m).read addr = m.read addr := by
  unfold lowerFlag
  split
  · rfl
  · have hflag : i.flagAddr = Sfr.tcon := by
      cases i with
      | serial => contradiction
      | _ => rfl
    rw [hflag]
    exact m.read_modify_of_ne _ h

namespace Machine

/-- **The frame of the peripherals**: the timers write their own bytes, and the transmitter writes
the serial control byte. -/
theorem advance_read_of_ne (m : Machine) (cycles : Nat) (written : Bool) {addr : Byte}
    (htimer : ∀ a ∈ Timer.written, a ≠ addr) (hscon : Sfr.scon ≠ addr) :
    (m.advance cycles written).machine.mem.read addr = m.mem.read addr :=
  (Transmitter.read_tick_of_ne _ _ _ _ hscon).trans (Timer.read_tick cycles m.mem htimer)

/-- **The frame of an interrupt.** -/
theorem enter_read_of_ne (m : Machine) (i : Interrupt) (line : Nat) {addr : Byte}
    (hstack : Sfr.sp ∉ m.mem.wordSlots) (hsp : Sfr.sp ≠ addr) (htcon : Sfr.tcon ≠ addr)
    (h : addr ∉ m.mem.wordSlots) : (m.enter i line).mem.read addr = m.mem.read addr :=
  (i.read_lowerFlag_of_ne _ htcon).trans (m.mem.read_pushWord_of_ne _ hstack hsp h)

theorem followAcc_read_of_ne (acc : Byte) (done : Executed) {addr : Byte} (h : Sfr.psw ≠ addr) :
    (followAcc acc done).mem.read addr = done.machine.mem.read addr := by
  unfold followAcc
  split
  · exact Memory.read_refreshParity_of_ne _ h
  · rfl

theorem followAcc_transmitter (acc : Byte) (done : Executed) :
    (followAcc acc done).transmitter = done.machine.transmitter := by
  unfold followAcc
  split <;> rfl

theorem followAcc_cycles (acc : Byte) (done : Executed) :
    (followAcc acc done).cycles = done.machine.cycles := by
  unfold followAcc
  split <;> rfl

theorem followAcc_inInterrupt (acc : Byte) (done : Executed) :
    (followAcc acc done).inInterrupt = done.machine.inInterrupt := by
  unfold followAcc
  split <;> rfl

theorem takeInterrupt_transmitter (m : Machine) (vectorLine : Word → Nat) :
    (m.takeInterrupt vectorLine).transmitter = m.transmitter := by
  unfold takeInterrupt
  split <;> rfl

theorem takeInterrupt_cycles (m : Machine) (vectorLine : Word → Nat) :
    (m.takeInterrupt vectorLine).cycles = m.cycles := by
  unfold takeInterrupt
  split <;> rfl

end Machine
end Mcs51
