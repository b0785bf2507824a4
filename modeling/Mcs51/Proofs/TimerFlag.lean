import Mcs51.Proofs.Course
import Mcs51.Proofs.Frame

/-!
# No timer interrupt is lost

A timer asks for its interrupt through its overflow flag. The flag is raised by the timers as they
count (by the second half of timer 0 too, when that counts on its own) and is lowered when the
interrupt is taken. If nothing else reaches the flag, then each interrupt of the timer goes with one
raising of the flag, and the flag tells whether one is still to come: that is the balance of
`timer_interrupts_balance`.

The flag is a bit of an ordinary byte, so a program can reach it, an input can, and so can the two
bytes that taking an interrupt pushes. `KeepsFlag` says of one moment that none of these changes it.
It asks for values and not for causes. The balance is shown of one step (`step_balance`) and carried
over a course by `Linked`; where the flag is raised while it is already up nothing is counted, which
is why raising is told by the flag before and after the timers (`Simulator.raises`).
-/

namespace Mcs51

namespace Timer

/-! ## 1. The flag -/

/-- The interrupt that a timer asks for. -/
def interrupt : Timer → Interrupt
  | .t0 => .timer0
  | .t1 => .timer1

/-- Whether the overflow flag of a timer is up. -/
def flag (t : Timer) (m : Memory) : Bool := m.read Sfr.tcon &&& t.overflowFlag != 0

variable {t : Timer} {m : Memory}

theorem flag_eq_of_read {m' : Memory} (h : m.read Sfr.tcon = m'.read Sfr.tcon) :
    t.flag m = t.flag m' := by
  unfold flag
  rw [h]

theorem flag_write_of_ne {addr : Byte} (value : Byte) (h : addr ≠ Sfr.tcon) :
    t.flag (m.write addr value) = t.flag m :=
  flag_eq_of_read (m.read_write_of_ne value h)

theorem flag_modify_tcon (f : Byte → Byte) :
    t.flag (m.modify Sfr.tcon f) = (f (m.read Sfr.tcon) &&& t.overflowFlag != 0) := by
  unfold flag Memory.modify
  rw [Memory.read_write_self]

theorem flag_flagOverflow_of_flag (t' : Timer) (overflowed : Bool) (h : t.flag m = true) :
    t.flag (t'.flagOverflow overflowed m) = true := by
  unfold flagOverflow
  split
  · rw [flag_modify_tcon, bne_iff_ne, BitVec.and_or_distrib_right]
    intro h0
    exact bne_iff_ne.mp h (BitVec.or_eq_zero_iff.mp h0).1
  · exact h

/-! ## 2. Counting -/

theorem high_ne_tcon (t : Timer) : t.high ≠ Sfr.tcon := by cases t <;> decide

theorem low_ne_tcon (t : Timer) : t.low ≠ Sfr.tcon := by cases t <;> decide

theorem flag_storeByte_of_flag (t' : Timer) {addr : Byte} (counted : Byte × Bool)
    (ha : addr ≠ Sfr.tcon) (h : t.flag m = true) : t.flag (t'.storeByte addr counted m) = true :=
  flag_flagOverflow_of_flag t' counted.2 ((flag_write_of_ne counted.1 ha).trans h)

theorem flag_store_of_flag (t' : Timer) (counted : Counted) (h : t.flag m = true) :
    t.flag (t'.store counted m) = true := by
  refine flag_flagOverflow_of_flag t' counted.overflowed ?_
  rw [flag_write_of_ne _ t'.low_ne_tcon, flag_write_of_ne _ t'.high_ne_tcon]
  exact h

theorem flag_tickPaired_of_flag (t' : Timer) (mode : Fin 4) (cycles : Nat) (h : t.flag m = true) :
    t.flag (t'.tickPaired mode cycles m) = true := by
  unfold tickPaired
  split
  · exact flag_store_of_flag t' _ h
  · exact flag_store_of_flag t' _ h
  · exact flag_storeByte_of_flag t' _ t'.low_ne_tcon h

theorem flag_tickSplitHigh_of_flag (cycles : Nat) (h : t.flag m = true) :
    t.flag (tickSplitHigh cycles m) = true := by
  unfold tickSplitHigh
  split
  · exact flag_storeByte_of_flag .t1 _ (by decide) h
  · exact h

theorem flag_tickSplitLow_of_flag (cycles : Nat) (h : t.flag m = true) :
    t.flag (tickSplitLow cycles m) = true := by
  unfold tickSplitLow
  split
  · exact flag_storeByte_of_flag .t0 _ (by decide) h
  · exact h

theorem flag_tickOne_of_flag (t' : Timer) (cycles : Nat) (h : t.flag m = true) :
    t.flag (t'.tickOne cycles m) = true := by
  -- Split or paired, timer 0 may set the flag of timer 1, so both are shown for any flag.
  have hsplit := flag_tickSplitLow_of_flag cycles (flag_tickSplitHigh_of_flag cycles h)
  have hpaired := fun mode => flag_tickPaired_of_flag t' mode cycles h
  unfold tickOne
  split
  · exact hsplit
  · exact h
  · split
    · exact hpaired _
    · exact h

theorem flag_tick_of_flag (cycles : Nat) (h : t.flag m = true) : t.flag (tick cycles m) = true :=
  flag_tickOne_of_flag .t1 cycles (flag_tickOne_of_flag .t0 cycles h)

/-! ## 3. Taking an interrupt -/

variable {i : Interrupt}

theorem flag_lowerFlag_self : t.flag (t.interrupt.lowerFlag m) = false := by
  have hlower : t.interrupt.lowerFlag m = m.modify Sfr.tcon (· &&& ~~~t.overflowFlag) := by
    cases t <;> rfl
  have hmask : ~~~t.overflowFlag &&& t.overflowFlag = 0#8 := by cases t <;> decide
  rw [hlower, flag_modify_tcon, BitVec.and_assoc, hmask, BitVec.and_zero]
  rfl

/-- The flags that the interrupts lower are different bits. -/
theorem flag_lowerFlag_of_ne (h : i ≠ t.interrupt) : t.flag (i.lowerFlag m) = t.flag m := by
  unfold Interrupt.lowerFlag
  split
  · rfl
  · rename_i hserial
    have haddr : i.flagAddr = Sfr.tcon := by
      cases i with
      | serial => exact absurd rfl hserial
      | _ => rfl
    have hmask : ~~~i.flagMask &&& t.overflowFlag = t.overflowFlag := by
      revert h hserial
      cases i <;> cases t <;> decide
    rw [haddr, flag_modify_tcon, BitVec.and_assoc, hmask]
    rfl

/-- A push keeps the flag unless it goes onto the byte of the flag, or moves the stack there by
writing the stack pointer. -/
theorem flag_pushWord (w : Word) (hsp : m.sp + 1 ≠ Sfr.sp) (hfirst : m.sp + 1 ≠ Sfr.tcon)
    (hsecond : m.sp + 1 + 1 ≠ Sfr.tcon) : t.flag (m.pushWord w) = t.flag m := by
  have hpush : ∀ (m : Memory) (value : Byte), m.sp + 1 ≠ Sfr.tcon →
      t.flag (m.push value) = t.flag m := by
    intro m value h
    unfold Memory.push
    rw [flag_write_of_ne _ h]
    exact flag_write_of_ne _ (by decide)
  have hmoved : (m.push (highByte w)).sp = m.sp + 1 := by
    unfold Memory.push
    rw [Memory.sp, Memory.read_write_of_ne _ _ hsp]
    exact m.read_write_self _ _
  unfold Memory.pushWord
  rw [hpush _ _ (hmoved ▸ hsecond), hpush _ _ hfirst]

end Timer

theorem Interrupt.asks_timer {t : Timer} {m : Memory} (h : asks m t.interrupt = true) :
    m.read Sfr.ie &&& t.interrupt.enableBit ≠ 0 ∧ t.flag m = true := by
  simp only [asks, Bool.and_eq_true, bne_iff_ne] at h
  refine ⟨h.1, ?_⟩
  cases t <;> exact bne_iff_ne.mpr h.2

namespace Machine

theorem flag_followAcc (t : Timer) (acc : Byte) (done : Executed) :
    t.flag (followAcc acc done).mem = t.flag done.machine.mem :=
  Timer.flag_eq_of_read (followAcc_read_of_ne _ _ (by decide))

/-- The transmitter does not reach the flag, so the timers alone do. -/
theorem flag_advance (t : Timer) (m : Machine) (cycles : Nat) (written : Bool) :
    t.flag (m.advance cycles written).machine.mem = t.flag (Timer.tick cycles m.mem) :=
  Timer.flag_eq_of_read (Transmitter.read_tick_of_ne _ _ _ _ (by decide))

end Machine

/-! ## 4. One moment -/

namespace Simulator

/-- Whether the timers raise a flag in the next step. -/
def raises (t : Timer) (s : Simulator) : Bool :=
  match s.executes? with
  | none => false
  | some e =>
    let m := (Machine.followAcc s.machine.mem.acc e.done).mem
    !t.flag m && t.flag (Timer.tick (Cost.of e.mnemonic e.line.operands) m)

/-- The instruction of the next step leaves a flag as it was, and so does the push when an interrupt
is taken. -/
def KeepsFlag (t : Timer) (s : Simulator) : Prop :=
  ∀ e ∈ s.executes?, t.flag e.done.machine.mem = t.flag s.machine.mem ∧
    ((s.advanced e).machine.dueInterrupt.isSome = true →
      t.flag ((s.advanced e).machine.mem.pushWord (BitVec.ofNat 16 (s.advanced e).machine.pc)) =
        t.flag (s.advanced e).machine.mem)

instance (t : Timer) (s : Simulator) : Decidable (s.KeepsFlag t) :=
  inferInstanceAs (Decidable (∀ e ∈ s.executes?, _))

variable {s : Simulator} {e : Execution} {t : Timer} {i : Interrupt}

/-- It is enough for the push that the return address goes neither onto the byte of the flag nor
onto the stack pointer. -/
theorem keepsFlag_of_stack (hinstruction : ∀ e ∈ s.executes?,
      t.flag e.done.machine.mem = t.flag s.machine.mem)
    (hstack : ∀ e ∈ s.executes?,
      let sp := (s.advanced e).machine.mem.sp
      sp + 1 ≠ Sfr.sp ∧ sp + 1 ≠ Sfr.tcon ∧ sp + 1 + 1 ≠ Sfr.tcon) : s.KeepsFlag t := by
  intro e he
  obtain ⟨hsp, hfirst, hsecond⟩ := hstack e he
  exact ⟨hinstruction e he, fun _ => Timer.flag_pushWord _ hsp hfirst hsecond⟩

theorem KeepsFlag.flag_followAcc (hk : s.KeepsFlag t) (h : s.executes? = some e) :
    t.flag (Machine.followAcc s.machine.mem.acc e.done).mem = t.flag s.machine.mem :=
  (Machine.flag_followAcc t _ _).trans (hk e h).1

/-- Before an interrupt is looked for, a flag is up if it was before the step or was raised by now,
and not both. -/
theorem KeepsFlag.toNat_flag_advanced (hk : s.KeepsFlag t) (h : s.executes? = some e) :
    (t.flag (s.advanced e).machine.mem).toNat =
      (t.flag s.machine.mem).toNat + (s.raises t).toNat := by
  have hbefore := hk.flag_followAcc h
  have htick : t.flag (s.advanced e).machine.mem = t.flag (Timer.tick _ _) :=
    Machine.flag_advance t _ _ _
  rw [htick, raises, h]
  dsimp only
  rw [hbefore]
  cases hf : t.flag s.machine.mem with
  | true =>
    rw [Timer.flag_tick_of_flag _ (hbefore.trans hf)]
    rfl
  | false => exact (Nat.zero_add _).symm

/-- Just before the interrupt of a timer is taken, it is enabled and its flag is up. -/
theorem of_timer_interrupt (h : (s.advanced e).machine.dueInterrupt = some t.interrupt) :
    (s.advanced e).machine.mem.read Sfr.ie &&& Sfr.ea ≠ 0 ∧
      (s.advanced e).machine.mem.read Sfr.ie &&& t.interrupt.enableBit ≠ 0 ∧
      t.flag (s.advanced e).machine.mem = true := by
  obtain ⟨hea, hasks⟩ := Machine.of_dueInterrupt h
  exact ⟨hea, Interrupt.asks_timer hasks⟩

theorem KeepsFlag.flag_enter_of_ne (hk : s.KeepsFlag t) (h : s.executes? = some e)
    (hdue : (s.advanced e).machine.dueInterrupt = some i) (hi : i ≠ t.interrupt) (line : Nat) :
    t.flag ((s.advanced e).machine.enter i line).mem = t.flag (s.advanced e).machine.mem :=
  (Timer.flag_lowerFlag_of_ne hi).trans ((hk e h).2 (by rw [hdue]; rfl))

/-- **The balance of one step.** -/
theorem KeepsFlag.step_balance (hk : s.KeepsFlag t) :
    (decide (s.interrupt? = some t.interrupt)).toNat + (t.flag s.step.2.machine.mem).toNat =
      (t.flag s.machine.mem).toNat + (s.raises t).toNat := by
  cases h : s.executes? with
  | none =>
    obtain ⟨⟨pc, hm⟩, _⟩ := step_of_executes?_eq_none h
    simp [hm, interrupt?, raises, h]
  | some e =>
    -- Instruction and timers are accounted for, so what is left is which interrupt is taken.
    rw [← hk.toNat_flag_advanced h, (step_of_executes?_eq_some h).1, interrupt?_of_executes? h]
    cases hdue : (s.advanced e).machine.dueInterrupt with
    | none =>
      rw [Machine.takeInterrupt_of_none hdue]
      exact Nat.zero_add _
    | some i =>
      rw [Machine.takeInterrupt_of_due hdue]
      by_cases hi : i = t.interrupt
      · subst hi
        have hafter : t.flag ((s.advanced e).machine.enter t.interrupt
            (s.vectorLine t.interrupt.vector)).mem = false := Timer.flag_lowerFlag_self
        rw [hafter, (of_timer_interrupt hdue).2.2, decide_eq_true rfl]
        rfl
      · have hne : some i ≠ some t.interrupt := fun he => hi (Option.some.inj he)
        rw [hk.flag_enter_of_ne h hdue hi, decide_eq_false hne]
        exact Nat.zero_add _

end Simulator

/-! ## 5. A whole course -/

namespace Moment

variable {t : Timer}

def raises (t : Timer) : Moment → Bool
  | .step s => s.raises t
  | .input _ _ => false

/-- Neither the instruction nor a push of its interrupt changes the flag, and neither does an input.
-/
def KeepsFlag (t : Timer) : Moment → Prop
  | .step s => s.KeepsFlag t
  | .input s x => t.flag (s.accept x).machine.mem = t.flag s.machine.mem

instance (x : Moment) : Decidable (x.KeepsFlag t) :=
  match x with
  | .step s => inferInstanceAs (Decidable (s.KeepsFlag t))
  | .input _ _ => inferInstanceAs (Decidable (_ = _))

theorem KeepsFlag.balance {x : Moment} (hk : x.KeepsFlag t) :
    (decide (x.interrupt? = some t.interrupt)).toNat + (t.flag x.after.machine.mem).toNat =
      (t.flag x.before.machine.mem).toNat + (x.raises t).toNat := by
  cases x with
  | step s => exact Simulator.KeepsFlag.step_balance hk
  | input s x =>
    have hk : t.flag (s.accept x).machine.mem = t.flag s.machine.mem := hk
    simp [interrupt?, raises, after, before, hk]

end Moment

theorem Linked.balance {t : Timer} {m m' : Machine} {moments : List Moment}
    (h : Linked m moments m') (hk : ∀ x ∈ moments, x.KeepsFlag t) :
    moments.countP (fun x => x.interrupt? = some t.interrupt) + (t.flag m'.mem).toNat =
      (t.flag m.mem).toNat + moments.countP (Moment.raises t) := by
  induction h with
  | nil m => simp
  | @cons x rest m _ ih =>
    have hx := (hk x List.mem_cons_self).balance
    have hrest := ih fun y hy => hk y (List.mem_cons_of_mem x hy)
    have hbool : ∀ b : Bool, (if b = true then 1 else 0) = b.toNat := by decide
    rw [List.countP_cons, List.countP_cons, hbool, hbool]
    omega

namespace Simulator

/-- **No timer interrupt is lost, doubled or made up.** Over a course in which only the timers and
    the interrupt itself reach the flag, the interrupts of the timer and a flag that is still up
    make as many as the times it was raised and a flag that was up before. Each of them is taken
    with the interrupt enabled and the flag up. No other interrupt lowers the flag: in such a course
    it leaves it as it was, and in any other it reaches it by its push alone. No counting lowers the
    flag, of the timers or of the transmitter. -/
theorem timer_interrupts_balance (t : Timer) (s : Simulator) (actions : List Action)
    (hk : ∀ x ∈ s.moments actions, x.KeepsFlag t) :
    (s.moments actions).countP (fun x => x.interrupt? = some t.interrupt) +
        (t.flag (s.performAll actions).machine.mem).toNat =
      (t.flag s.machine.mem).toNat + (s.moments actions).countP (Moment.raises t) ∧
    (∀ u : Simulator, u.interrupt? = some t.interrupt →
      ∃ e, u.executes? = some e ∧
        (u.advanced e).machine.mem.read Sfr.ie &&& Sfr.ea ≠ 0 ∧
        (u.advanced e).machine.mem.read Sfr.ie &&& t.interrupt.enableBit ≠ 0 ∧
        t.flag (u.advanced e).machine.mem = true) ∧
    (∀ u i, Moment.step u ∈ s.moments actions → u.interrupt? = some i → i ≠ t.interrupt →
      ∃ e, u.executes? = some e ∧
        t.flag u.step.2.machine.mem = t.flag (u.advanced e).machine.mem) ∧
    (∀ (m : Machine) (i : Interrupt) (line : Nat), i ≠ t.interrupt →
      t.flag (m.enter i line).mem = t.flag (m.mem.pushWord (BitVec.ofNat 16 m.pc))) ∧
    ∀ (m : Machine) (cycles : Nat) (written : Bool), t.flag m.mem = true →
      t.flag (m.advance cycles written).machine.mem = true := by
  refine ⟨(s.linked_moments actions).balance hk, ?_, ?_, ?_, ?_⟩
  · intro u hu
    obtain ⟨e, he, hdue, _⟩ := exists_of_interrupt? hu
    exact ⟨e, he, of_timer_interrupt hdue⟩
  · intro u i hmem hu hi
    obtain ⟨e, he, hdue, hm⟩ := exists_of_interrupt? hu
    have hku : u.KeepsFlag t := hk _ hmem
    refine ⟨e, he, ?_⟩
    rw [hm]
    exact hku.flag_enter_of_ne he hdue hi _
  · intro m i line hi
    exact Timer.flag_lowerFlag_of_ne hi
  · intro m cycles written hm
    rw [Machine.flag_advance]
    exact Timer.flag_tick_of_flag cycles hm

/-- Timer 0 is about to overflow while interrupts are not enabled, and the second line enables
them. -/
def waiting : Simulator :=
  let program := Program.ofLines
    [some ⟨none, some .nop, [], 0⟩,
     some ⟨none, some .mov, [.direct (.sfr Sfr.ie), .immediate "82H"], 1⟩]
  let clear : Memory := ⟨.replicate 256 0⟩
  let mem := ((clear.write Sfr.tmod 2).write Sfr.tl0 0xFF).write Sfr.tcon Sfr.tr0
  { new {} with program, machine := ⟨mem, 0, 0, .idle, false⟩ }

/-- The first step raises the flag, and the second one takes the interrupt. -/
theorem timer_interrupts_balance_waiting :
    (∀ x ∈ waiting.moments [.step, .step], x.KeepsFlag .t0) ∧
    (waiting.moments [.step, .step]).countP (Moment.raises .t0) = 1 ∧
    (waiting.moments [.step, .step]).countP
      (fun x => x.interrupt? = some Timer.t0.interrupt) = 1 := by
  have hk : ∀ x ∈ waiting.moments [.step, .step], x.KeepsFlag .t0 := by decide +kernel
  have hraised : (waiting.moments [.step, .step]).countP (Moment.raises .t0) = 1 := by
    decide +kernel
  have hstart : Timer.flag .t0 waiting.machine.mem = false := by decide +kernel
  have hfinal : Timer.flag .t0 (waiting.performAll [.step, .step]).machine.mem = false := by
    decide +kernel
  have hbalance := (timer_interrupts_balance .t0 waiting [.step, .step] hk).1
  rw [hraised, hstart, hfinal, Bool.toNat_false, Nat.add_zero, Nat.zero_add] at hbalance
  exact ⟨hk, hraised, hbalance⟩

end Simulator
end Mcs51
