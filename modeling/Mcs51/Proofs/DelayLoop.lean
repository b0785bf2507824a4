import Mcs51.Proofs.Arbitration
import Mcs51.Proofs.BoundedRun
import Mcs51.Proofs.NextStep
import Mcs51.Proofs.SingleCycles

/-!
# Delay loops

The shortest way to wait is a `DJNZ` on a register that jumps to itself. A turn of it counts the
register down and lets one cycle go by, and neither notices the other: the registers lie below
everything that a peripheral reads or writes (`Machine.advance_counting`). The cycles of the turns
add up, for the timers in every mode and for a transmission that ends on the way
(`Machine.advance_add`). So after any number of turns the machine is the one that has let as many
cycles go by at once, with the register counted down (`Delays.call`), and the main result reads the
end of the loop off it.

`Delays` is what one turn needs. Every turn but the last keeps it, and the last does not need to.
-/

namespace Mcs51

variable {addr value : Byte}

/-! ## 1. A byte that no peripheral looks at -/

namespace Memory

variable (m : Memory)

theorem modify_write {other : Byte} (f : Byte → Byte) (h : addr ≠ other) :
    (m.write addr value).modify other f = (m.modify other f).write addr value := by
  rw [modify, modify, m.read_write_of_ne value h, m.write_comm value _ h]

theorem registerAddr_congr {m' : Memory} (h : m'.read Sfr.psw = m.read Sfr.psw) (r : Register) :
    m'.registerAddr r = m.registerAddr r := by
  unfold registerAddr psw
  rw [h]

end Memory

namespace Timer

/-- The bytes that a tick reads or writes. -/
def inspected : List Byte := Sfr.tmod :: written

theorem store_write (t : Timer) (counted : Counted) (m : Memory)
    (h : ∀ a ∈ written, a ≠ addr) :
    t.store counted (m.write addr value) = (t.store counted m).write addr value := by
  have hhigh : addr ≠ t.high := (h _ t.high_mem_written).symm
  have hlow : addr ≠ t.low := (h _ t.low_mem_written).symm
  have htcon : addr ≠ Sfr.tcon := (h _ List.mem_cons_self).symm
  unfold store
  rw [m.write_comm value _ hhigh, Memory.write_comm _ value _ hlow,
    flagOverflow_write _ _ _ _ htcon]

/-- Another byte goes through a tick as it is. -/
theorem tick_write (cycles : Nat) (m : Memory) (h : ∀ a ∈ inspected, a ≠ addr) :
    tick cycles (m.write addr value) = (tick cycles m).write addr value := by
  have hwritten : ∀ a ∈ written, a ≠ addr := fun a ha => h a (.tail _ ha)
  have hread : ∀ a ∈ inspected, (m.write addr value).read a = m.read a := by
    intro a ha
    exact m.read_write_of_ne value (h a ha).symm
  have hmode : (m.write addr value).read Sfr.tmod = m.read Sfr.tmod := hread _ List.mem_cons_self
  have hrun : running (m.write addr value) = running m := by
    funext t
    unfold running
    rw [hread _ (.tail _ List.mem_cons_self)]
  have hcounted (t : Timer) : t.counted cycles (m.write addr value) = t.counted cycles m :=
    counted_congr hmode hrun (hread _ (.tail _ t.high_mem_written))
      (hread _ (.tail _ t.low_mem_written))
  have hsplit : splitOverflow cycles (m.write addr value) = splitOverflow cycles m := by
    unfold splitOverflow
    rw [hmode, hrun, hread Sfr.th0 (.tail _ Timer.t0.high_mem_written)]
  have htcon : addr ≠ Sfr.tcon := (hwritten _ List.mem_cons_self).symm
  rw [tick_eq, tick_eq, hcounted, hcounted, hsplit, flagOverflow_write _ _ _ _ htcon,
    store_write _ _ _ hwritten, store_write _ _ _ hwritten]

theorem tick_modify (cycles : Nat) (m : Memory) (f : Byte → Byte)
    (h : ∀ a ∈ inspected, a ≠ addr) :
    tick cycles (m.modify addr f) = (tick cycles m).modify addr f := by
  have hread : (tick cycles m).read addr = m.read addr :=
    read_tick cycles m fun a ha => h a (.tail _ ha)
  rw [Memory.modify, Memory.modify, hread, tick_write cycles m h]

theorem read_tick_sbuf (cycles : Nat) (m : Memory) :
    (tick cycles m).read Sfr.sbuf = m.read Sfr.sbuf :=
  read_tick cycles m (by simp [written])

end Timer

/-! ## 2. Cycles without a write of the buffer -/

/-- Whether a transmission that is under way ends within some cycles. -/
def Transmitter.endsWithin (t : Transmitter) (cycles : Nat) : Bool := t.remaining?.any (· ≤ cycles)

namespace Machine

variable (m : Machine) {cycles remaining : Nat}

theorem advance_of_idle (cycles : Nat) (ht : m.transmitter = .idle) :
    m.advance cycles false =
      ⟨{ m with
          mem := Timer.tick cycles m.mem
          cycles := m.cycles + cycles
          transmitter := .idle }, none⟩ := by
  unfold advance Transmitter.tick
  rw [ht]
  rfl

theorem advance_of_le (ht : m.transmitter = .sending remaining) (h : remaining ≤ cycles) :
    m.advance cycles false =
      ⟨{ m with
          mem := (Timer.tick cycles m.mem).modify Sfr.scon (· ||| Sfr.ti)
          cycles := m.cycles + cycles
          transmitter := .idle }, some (m.mem.read Sfr.sbuf)⟩ := by
  unfold advance Transmitter.tick Transmitter.advance
  simp only [ht, Bool.false_eq_true, if_false, if_pos h, Timer.read_tick_sbuf]

theorem advance_of_lt (ht : m.transmitter = .sending remaining) (h : cycles < remaining) :
    m.advance cycles false =
      ⟨{ m with
          mem := Timer.tick cycles m.mem
          cycles := m.cycles + cycles
          transmitter := .sending (remaining - cycles) }, none⟩ := by
  unfold advance Transmitter.tick Transmitter.advance
  simp only [ht, Bool.false_eq_true, if_false, if_neg (Nat.not_le.mpr h)]

/-- **Cycles add up**, and a transmission ends once. -/
theorem advance_add (a b : Nat) :
    (m.advance (a + b) false).machine = ((m.advance a false).machine.advance b false).machine ∧
      (m.advance (a + b) false).sent.toList =
        ((m.advance a false).machine.advance b false).sent.toList ++
          (m.advance a false).sent.toList := by
  have hscon : ∀ a ∈ Timer.inspected, a ≠ Sfr.scon := by
    simp [Timer.inspected, Timer.written]
  cases ht : m.transmitter with
  | idle =>
    rw [advance_of_idle m _ ht, advance_of_idle m _ ht, advance_of_idle _ _ rfl, Timer.tick_add,
      Nat.add_assoc]
    exact ⟨rfl, rfl⟩
  | sending remaining =>
    rcases Nat.lt_or_ge a remaining with hlt | hle
    · rw [advance_of_lt m ht hlt]
      rcases Nat.lt_or_ge (a + b) remaining with hlater | hends
      · rw [advance_of_lt m ht hlater, advance_of_lt _ rfl (Nat.lt_sub_of_add_lt (by omega)),
          Timer.tick_add, Nat.add_assoc, Nat.sub_sub]
        exact ⟨rfl, rfl⟩
      · rw [advance_of_le m ht hends, advance_of_le _ rfl (Nat.sub_le_iff_le_add'.mpr hends),
          Timer.tick_add, Nat.add_assoc, Timer.read_tick_sbuf]
        exact ⟨rfl, rfl⟩
    · rw [advance_of_le m ht hle, advance_of_le m ht (Nat.le_add_right_of_le hle),
        advance_of_idle _ _ rfl, Timer.tick_modify _ _ _ hscon, Timer.tick_add, Nat.add_assoc]
      exact ⟨rfl, rfl⟩

/-- Memory when some cycles have gone by, with the flag raised if a transmission ended in them. -/
def waited (cycles : Nat) (ended : Bool) : Memory :=
  if ended then (Timer.tick cycles m.mem).modify Sfr.scon (· ||| Sfr.ti)
  else Timer.tick cycles m.mem

/-- What cycles without a write of the buffer come to. -/
theorem advance_waited (cycles : Nat) :
    (m.advance cycles false).machine.mem = m.waited cycles (m.transmitter.endsWithin cycles) ∧
      (m.advance cycles false).sent =
        if m.transmitter.endsWithin cycles then some (m.mem.read Sfr.sbuf) else none := by
  cases ht : m.transmitter with
  | idle =>
    rw [m.advance_of_idle cycles ht]
    exact ⟨rfl, rfl⟩
  | sending remaining =>
    rcases Nat.lt_or_ge cycles remaining with hlt | hle
    · have hends : (Transmitter.sending remaining).endsWithin cycles = false :=
        decide_eq_false (Nat.not_le.mpr hlt)
      rw [m.advance_of_lt ht hlt, hends]
      exact ⟨rfl, rfl⟩
    · have hends : (Transmitter.sending remaining).endsWithin cycles = true := decide_eq_true hle
      rw [m.advance_of_le ht hle, hends]
      exact ⟨rfl, rfl⟩

/-! ## 3. A register beside the cycles -/

/-- A machine with one byte and its line changed. -/
def counting (addr value : Byte) (pc : Nat) : Machine :=
  { m with mem := m.mem.write addr value, pc }

variable (pc : Nat)

theorem counting_counting (value' : Byte) (pc' : Nat) :
    (m.counting addr value pc).counting addr value' pc' = m.counting addr value' pc' := by
  unfold counting
  rw [Memory.write_write]

/-- **Cycles go by beside the registers.** -/
theorem advance_counting (cycles : Nat) (h : addr.toNat < 32) :
    (m.counting addr value pc).advance cycles false =
      ⟨(m.advance cycles false).machine.counting addr value pc, (m.advance cycles false).sent⟩ := by
  have hne : ∀ other : Byte, 32 ≤ other.toNat → addr ≠ other := by
    rintro _ hother rfl
    exact Nat.not_lt.mpr hother h
  have hall : ∀ a ∈ Timer.inspected, 32 ≤ a.toNat := by
    simp [Timer.inspected, Timer.written]
  have htick : Timer.tick cycles (m.mem.write addr value) =
      (Timer.tick cycles m.mem).write addr value :=
    Timer.tick_write cycles m.mem fun a ha => (hne a (hall a ha)).symm
  have hsbuf : (m.mem.write addr value).read Sfr.sbuf = m.mem.read Sfr.sbuf :=
    m.mem.read_write_of_ne value (hne _ (by decide))
  cases ht : m.transmitter with
  | idle =>
    rw [advance_of_idle m _ ht, advance_of_idle (m.counting addr value pc) _ ht]
    unfold counting
    rw [htick]
  | sending remaining =>
    rcases Nat.lt_or_ge cycles remaining with hlt | hle
    · rw [advance_of_lt m ht hlt, advance_of_lt (m.counting addr value pc) ht hlt]
      unfold counting
      rw [htick]
    · rw [advance_of_le m ht hle, advance_of_le (m.counting addr value pc) ht hle]
      unfold counting
      rw [htick, hsbuf, Memory.modify_write _ _ (hne _ (by decide))]

theorem followAcc_of_acc_eq {acc : Byte} {done : Executed} (h : done.machine.mem.acc = acc) :
    followAcc acc done = done.machine := by
  unfold followAcc
  rw [h]
  simp

end Machine

/-! ## 4. One turn -/

/-- Counting a register down writes that register and nothing else. -/
theorem Effect.of_djnz_register (symbols : Symbols) (m : Memory) (r : Register) (target : Operand)
    (pc : Nat) :
    Effect.of symbols m .djnz [.register r, target] pc =
      ⟨m.setRegister r (m.register r - 1), false, false⟩ := by
  have hbuffer : (m.registerAddr r == Sfr.sbuf) = false :=
    beq_eq_false_iff_ne.mpr (m.registerAddr_ne r (by decide))
  have heffect : Effect.of symbols m .djnz [.register r, target] pc =
      ⟨m.setRegister r (m.register r - 1), false, m.registerAddr r == Sfr.sbuf⟩ := rfl
  rw [heffect, hbuffer]

namespace Simulator

/-- The next line counts a register down and goes back to itself until the register is zero, and no
interrupt comes between. -/
structure Delays (s : Simulator) (r : Register) (target : Operand) : Prop where
  fresh : s.stale = false
  reads : ∃ line, s.program.line? s.machine.pc = some line ∧ line.mnemonic = some .djnz ∧
    line.operands = [.register r, target]
  back : Flow.target s.program.symbols s.machine.pc (some target) = .ok s.machine.pc
  quiet : s.machine.mem.read Sfr.ie &&& Sfr.ea = 0

/-- How often a register is counted down until it is zero. -/
def turns (count : Byte) : Nat := if count = 0 then 256 else count.toNat

variable {s : Simulator} {r : Register} {target : Operand}

theorem turns_pos (count : Byte) : 0 < turns count := by
  unfold turns
  split <;> bv_omega

theorem turns_eq_one_iff (count : Byte) : turns count = 1 ↔ count = 1 := by
  unfold turns
  split <;> bv_omega

theorem turns_sub_one {count : Byte} (h : count ≠ 1) : turns (count - 1) + 1 = turns count := by
  unfold turns
  split <;> split <;> bv_omega

theorem sub_turns (count : Byte) : count - BitVec.ofNat 8 (turns count) = 0 := by
  unfold turns
  split <;> bv_omega

/-- The machine after some turns. -/
def counted (s : Simulator) (r : Register) (j : Nat) : Machine :=
  (s.machine.advance j false).machine.counting (s.machine.mem.registerAddr r)
    (s.machine.mem.register r - BitVec.ofNat 8 j)
    (if j = turns (s.machine.mem.register r) then s.machine.pc + 1 else s.machine.pc)

/-- What a run of cycles adds to the record of the serial line. -/
def sentIn (s : Simulator) (j : Nat) : List SerialEvent :=
  (s.machine.advance j false).sent.toList.map SerialEvent.sent

/-- Neither the register nor what the peripherals write is above the serial control byte. -/
theorem read_counted (s : Simulator) (r : Register) (j : Nat) {addr : Byte}
    (h : Sfr.scon.toNat < addr.toNat) :
    (s.counted r j).mem.read addr = s.machine.mem.read addr := by
  have hne : ∀ a : Byte, a.toNat ≤ Sfr.scon.toNat → a ≠ addr := by
    rintro a ha rfl
    exact Nat.not_lt.mpr ha h
  have htimer : ∀ a ∈ Timer.written, a.toNat ≤ Sfr.scon.toNat := by
    simp [Timer.written]
  have hregister : (s.machine.mem.registerAddr r).toNat ≤ Sfr.scon.toNat :=
    Nat.le_trans (Nat.le_of_lt (s.machine.mem.registerAddr_lt r)) (by decide)
  exact (Memory.read_write_of_ne _ _ (hne _ hregister)).trans
    (s.machine.advance_read_of_ne j false (fun a ha => hne a (htimer a ha))
      (hne _ (Nat.le_refl _)))

theorem Delays.next_eq (h : s.Delays r target) :
    Flow.next s.program.symbols s.machine.mem .djnz [.register r, target] s.machine.pc =
      .ok (if turns (s.machine.mem.register r) = 1 then s.machine.pc + 1 else s.machine.pc) := by
  have hexit : Flow.exit s.program.symbols s.machine.mem .djnz [.register r, target] =
      Flow.branch (s.machine.mem.register r ≠ 1) (some target) := rfl
  unfold Flow.next
  rw [hexit]
  by_cases hlast : s.machine.mem.register r = 1
  · rw [if_pos ((turns_eq_one_iff _).mpr hlast), hlast]
    rfl
  · rw [if_neg (mt (turns_eq_one_iff _).mp hlast), decide_eq_true hlast]
    exact h.back

/-- What a turn executes: the count goes down by one, and one cycle is taken. -/
theorem Delays.executes (h : s.Delays r target) : ∃ e, s.executes? = some e ∧
    s.advanced e = ⟨s.counted r 1, (s.machine.advance 1 false).sent⟩ := by
  obtain ⟨line, hline, hmnemonic, hops⟩ := h.reads
  have hinstruction : s.program.instruction? s.machine.pc = some (.djnz, line) :=
    Program.instruction?_eq_some_iff.mpr ⟨hline, hmnemonic, rfl⟩
  have hnext := h.next_eq
  generalize hpc : (if turns (s.machine.mem.register r) = 1 then _ else _) = pc at hnext
  have hdone : s.machine.execute s.program.symbols .djnz line.operands =
      .ok ⟨s.machine.counting (s.machine.mem.registerAddr r) (s.machine.mem.register r - 1) pc,
        false, false⟩ := by
    refine Machine.execute_ok_iff.mpr ⟨pc, hops ▸ hnext, ?_⟩
    rw [hops, Effect.of_djnz_register]
    simp only [Machine.counting, Memory.setRegister, ne_eq, reduceCtorEq, not_false_eq_true,
      decide_true, Bool.and_true]
  refine ⟨⟨.djnz, line, _⟩, executes?_eq_some_iff.mpr ⟨h.fresh, hinstruction, hdone⟩, ?_⟩
  have hacc : (s.machine.mem.write (s.machine.mem.registerAddr r)
      (s.machine.mem.register r - 1)).acc = s.machine.mem.acc :=
    s.machine.mem.read_write_of_ne _ (s.machine.mem.registerAddr_ne r (by decide))
  have hcost : Cost.of .djnz line.operands = 1 := by
    rw [hops]
    rfl
  have hone : (1 = turns (s.machine.mem.register r)) ↔ turns (s.machine.mem.register r) = 1 :=
    eq_comm
  unfold advanced counted
  rw [Machine.followAcc_of_acc_eq hacc, hcost,
    Machine.advance_counting _ _ _ (s.machine.mem.registerAddr_lt r), if_congr hone rfl rfl, hpc]
  rfl

/-- **One turn.** -/
theorem Delays.step (h : s.Delays r target) :
    s.step.1 = .ok () ∧ s.step.2.machine = s.counted r 1 ∧
      s.step.2.history = s.sentIn 1 ++ s.history ∧ s.step.2.program = s.program ∧
      s.step.2.stale = false := by
  obtain ⟨e, he, hadvanced⟩ := h.executes
  have hie : (s.counted r 1).mem.read Sfr.ie = s.machine.mem.read Sfr.ie :=
    s.read_counted r 1 (by decide)
  have hdue : (s.counted r 1).dueInterrupt = none := by
    refine Machine.dueInterrupt_eq_none (.inr (Interrupt.choose_eq_none_iff.mpr (.inl ?_)))
    rw [hie]
    exact h.quiet
  obtain ⟨hmachine, hhistory⟩ := step_of_executes?_eq_some he
  have hstep : s.step = (.ok (), (s.commit e.line
      ⟨(s.advanced e).machine.takeInterrupt s.vectorLine, (s.advanced e).sent⟩).settle) := by
    unfold Simulator.step
    rw [attempt_of_executes?_eq_some he]
  refine ⟨?_, ?_, ?_, ?_, ?_⟩
  · rw [hstep]
  · rw [hmachine, hadvanced]
    exact Machine.takeInterrupt_of_none hdue _
  · rw [hhistory, hadvanced, sentIn, Option.toList_map]
  · rw [hstep, settle_frame]
    rfl
  · rw [hstep, settle_frame]
    exact h.fresh

/-! ## 5. Turns in a row -/

theorem Delays.register_step (h : s.Delays r target) :
    s.step.2.machine.mem.registerAddr r = s.machine.mem.registerAddr r ∧
      s.step.2.machine.mem.register r = s.machine.mem.register r - 1 := by
  obtain ⟨_, hmachine, _⟩ := h.step
  have hpsw : (s.counted r 1).mem.read Sfr.psw = s.machine.mem.read Sfr.psw :=
    s.read_counted r 1 (by decide)
  have haddr := s.machine.mem.registerAddr_congr hpsw r
  rw [hmachine]
  refine ⟨haddr, ?_⟩
  rw [Memory.register, haddr]
  exact Memory.read_write_self _ _ _

/-- A turn that is not the last leads to the next one. -/
theorem Delays.again (h : s.Delays r target) (hcount : s.machine.mem.register r ≠ 1) :
    s.step.2.Delays r target ∧ s.step.2.machine.pc = s.machine.pc := by
  obtain ⟨_, hmachine, _, hprogram, hstale⟩ := h.step
  have hpc : s.step.2.machine.pc = s.machine.pc := by
    rw [hmachine]
    exact if_neg fun hone => hcount ((turns_eq_one_iff _).mp hone.symm)
  refine ⟨⟨hstale, ?_, ?_, ?_⟩, hpc⟩
  · rw [hprogram, hpc]
    exact h.reads
  · rw [hprogram, hpc]
    exact h.back
  · rw [hmachine, s.read_counted r 1 (by decide)]
    exact h.quiet

/-- Further turns behind one turn are as many and one from the start. -/
theorem Delays.counted_succ (h : s.Delays r target) (hcount : s.machine.mem.register r ≠ 1)
    (j : Nat) :
    s.step.2.counted r j = s.counted r (j + 1) ∧
      s.step.2.sentIn j ++ s.sentIn 1 = s.sentIn (j + 1) := by
  obtain ⟨_, hmachine, _⟩ := h.step
  obtain ⟨haddr, hregister⟩ := h.register_step
  obtain ⟨_, hpc⟩ := h.again hcount
  have hlt := s.machine.mem.registerAddr_lt r
  obtain ⟨hadd, hsent⟩ := s.machine.advance_add 1 j
  have hlast : (j = turns (s.machine.mem.register r - 1)) ↔
      j + 1 = turns (s.machine.mem.register r) := by
    rw [← turns_sub_one hcount, Nat.add_right_cancel_iff]
  have hvalue : s.machine.mem.register r - 1 - BitVec.ofNat 8 j =
      s.machine.mem.register r - BitVec.ofNat 8 (j + 1) := by
    bv_omega
  constructor
  · unfold counted
    rw [haddr, hregister, hpc, hmachine, if_congr hlast rfl rfl, hvalue, counted,
      Machine.advance_counting _ _ _ hlt, Machine.counting_counting, Nat.add_comm j 1, hadd]
  · unfold sentIn
    rw [hmachine, counted, Machine.advance_counting _ _ _ hlt, Nat.add_comm j 1, hsent,
      List.map_append]

/-- **After any number of turns** as many cycles have gone by at once, beside the register. -/
theorem Delays.call (h : s.Delays r target) {j : Nat} (hpos : 0 < j)
    (hj : j ≤ turns (s.machine.mem.register r)) :
    (s.call j).1 = .ok () ∧ (s.call j).2.machine = s.counted r j ∧
      (s.call j).2.history = s.sentIn j ++ s.history := by
  induction hpos generalizing s with
  | refl =>
    obtain ⟨hok, hmachine, hhistory, _⟩ := h.step
    exact ⟨hok, hmachine, hhistory⟩
  | @step j hpos ih =>
    have hcount : s.machine.mem.register r ≠ 1 := by
      intro hone
      rw [(turns_eq_one_iff _).mpr hone] at hj
      exact absurd (Nat.le_of_succ_le_succ hj) (Nat.not_le.mpr hpos)
    obtain ⟨hnext, _⟩ := h.again hcount
    have hleft : j ≤ turns (s.step.2.machine.mem.register r) := by
      rw [h.register_step.2]
      rw [← turns_sub_one hcount] at hj
      exact Nat.le_of_succ_le_succ hj
    obtain ⟨hok, hmachine, hhistory⟩ := ih hnext hleft
    obtain ⟨hsame, hsent⟩ := h.counted_succ hcount j
    obtain ⟨_, _, hfirst, _⟩ := h.step
    rw [call_succ s hpos]
    refine ⟨hok, hmachine.trans hsame, ?_⟩
    rw [hhistory, hfirst, ← List.append_assoc, hsent]

/-! ## 6. The whole loop -/

/-- **A delay loop takes exactly its count.** Its steps all succeed and stay on the line, and the
last one leaves it. By then as many cycles have gone by, the register is zero, and all else in
memory is what the timers and the transmitter make of it in that many cycles. A byte has been sent
just if its transmission had no more than these to go. -/
theorem delay_loop_takes_its_count (h : s.Delays r target) :
    let k := turns (s.machine.mem.register r)
    let ended := s.machine.transmitter.endsWithin k
    (∀ j, 0 < j → j ≤ k → (s.call j).1 = .ok () ∧
      (s.call j).2.machine.pc = if j < k then s.machine.pc else s.machine.pc + 1) ∧
    (s.call k).2.machine.cycles = s.machine.cycles + k ∧
    (s.call k).2.machine.mem.register r = 0 ∧
    (s.call k).2.history =
      (if ended then [.sent (s.machine.mem.read Sfr.sbuf)] else []) ++ s.history ∧
    ∀ addr, addr ≠ s.machine.mem.registerAddr r →
      (s.call k).2.machine.mem.read addr = (s.machine.waited k ended).read addr := by
  intro k ended
  have hpos : 0 < k := turns_pos _
  obtain ⟨_, hmachine, hhistory⟩ := h.call hpos (Nat.le_refl k)
  obtain ⟨hmem, hsent⟩ := s.machine.advance_waited k
  have hpsw : (s.counted r k).mem.read Sfr.psw = s.machine.mem.read Sfr.psw :=
    s.read_counted r k (by decide)
  refine ⟨?_, ?_, ?_, ?_, ?_⟩
  · intro j hj hle
    obtain ⟨hok, hturn, _⟩ := h.call hj hle
    refine ⟨hok, ?_⟩
    rw [hturn]
    change (if j = k then s.machine.pc + 1 else s.machine.pc) = _
    rcases Nat.lt_or_eq_of_le hle with hlt | rfl
    · rw [if_neg (Nat.ne_of_lt hlt), if_pos hlt]
    · rw [if_pos rfl, if_neg (Nat.lt_irrefl _)]
  · rw [hmachine]
    rfl
  · rw [hmachine, Memory.register, s.machine.mem.registerAddr_congr hpsw]
    exact (Memory.read_write_self _ _ _).trans (sub_turns _)
  · rw [hhistory, sentIn, hsent]
    change _ = (if s.machine.transmitter.endsWithin k then _ else _) ++ s.history
    cases s.machine.transmitter.endsWithin k with
    | false => rfl
    | true => rfl
  · intro addr haddr
    rw [hmachine, ← hmem]
    exact Memory.read_write_of_ne _ _ haddr.symm

/-- Counts register 0 down from zero while a byte goes out. -/
def delaying : Simulator where
  __ := (Simulator.new {}).load
    (.ofLines [some ⟨some "WAIT", some .djnz, [.register (place 0), .direct (.expr "WAIT")], 0⟩])
  machine := ⟨Memory.zero, 0, 0, .sending 120, false⟩

theorem delaying_takes_256 :
    delaying.Delays 0 (.direct (.expr "WAIT")) ∧ (delaying.call 256).2.machine.pc = 1 ∧
      (delaying.call 256).2.machine.cycles = 256 ∧
      (delaying.call 256).2.history = [.sent 0] := by
  have hzero (addr : Byte) : delaying.machine.mem.read addr = 0 := Memory.read_zero addr
  have hback : Flow.target delaying.program.symbols 0 (some (.direct (.expr "WAIT"))) = .ok 0 := by
    decide
  have hquiet : delaying.machine.mem.read Sfr.ie &&& Sfr.ea = 0 := by
    rw [hzero]
    rfl
  have h : delaying.Delays 0 (.direct (.expr "WAIT")) := ⟨rfl, ⟨_, rfl, rfl, rfl⟩, hback, hquiet⟩
  have hk : turns (delaying.machine.mem.register 0) = 256 := by
    rw [Memory.register, hzero]
    rfl
  obtain ⟨hsteps, hcycles, _, hhistory, _⟩ := delay_loop_takes_its_count h
  rw [hk] at hsteps hcycles hhistory
  rw [hzero] at hhistory
  exact ⟨h, (hsteps 256 (by decide) (by decide)).2, hcycles.trans (Nat.zero_add 256), hhistory⟩

end Simulator
end Mcs51
