import Mcs51.Proofs.Footprint
import Mcs51.Proofs.Transmission

/-!
# What starts a transmission

The serial buffer is a byte of memory, and a byte of memory is changed in more ways than one. An
instruction has the buffer as the byte that it writes, or a bit of it as the bit that it writes, or
it pushes something and the stack happens to be there (`ChangesBuffer`). By the footprint of an
instruction there is no fourth way. Only the first one is reported, and only what is reported starts
a transmission. The other two change the buffer under a transmission that goes on, or under none.

An interrupt comes last in a step and pushes a line. What the transmitter left in memory is still
there after it unless the push runs over it (`Spares`). Pushes are followed byte by byte here, since
the first byte of a word can move the stack pointer and take the second one elsewhere.
-/

namespace Mcs51

/-! ## 1. Where a word lands -/

namespace Memory

/-- Where the two bytes of a pushed word go. If the first one lands on the stack pointer, it decides
where the second one goes. -/
def landings (m : Memory) (w : Word) : List Byte := [m.sp + 1, (m.push (highByte w)).sp + 1]

theorem read_pushWord_of_not_mem_landings (m : Memory) (w : Word) {addr : Byte}
    (hsp : Sfr.sp ≠ addr) (h : addr ∉ m.landings w) : (m.pushWord w).read addr = m.read addr := by
  simp only [landings, List.mem_cons, List.not_mem_nil, or_false, not_or] at h
  rw [pushWord, read_push_of_ne _ _ hsp (Ne.symm h.2), m.read_push_of_ne _ hsp (Ne.symm h.1)]

end Memory

/-! ## 2. The ways to change the buffer -/

/-- The buffer has no bit address: its own address is no multiple of eight. -/
theorem BitPlace.ofBitAddr_byte_ne_sbuf : ∀ addr : Byte, (ofBitAddr addr).byte ≠ Sfr.sbuf := by
  decide

/-- A bit of the buffer is written as one. -/
theorem BitRef.exists_field_of_place? {symbols : Symbols} {b : BitRef} {place : BitPlace}
    (h : b.place? symbols = some place) (hbyte : place.byte = Sfr.sbuf) :
    ∃ base, b = .field base place.bit ∧ base.addr? symbols = some Sfr.sbuf := by
  cases b with
  | named addr =>
    obtain rfl := Option.some.inj h
    exact absurd hbyte (BitPlace.ofBitAddr_byte_ne_sbuf addr)
  | field base bit =>
    obtain ⟨byte, haddr, rfl⟩ := Option.map_eq_some_iff.mp h
    exact ⟨base, rfl, haddr.trans (congrArg some hbyte)⟩

namespace Effect

/-- Whether an instruction writes a bit, under a mark or not. -/
def WritesBit (mnemonic : Mnemonic) (ops : List Operand) (b : BitRef) : Prop :=
  byteDestination mnemonic ops = some (.bit b) ∨ bitDestination mnemonic ops = some (.bit b) ∨
    bitDestination mnemonic ops = some (.notBit b)

/-- Where the bytes go that an instruction pushes, wherever the stack pointer is. -/
def landings (m : Memory) (pc : Nat) : Mnemonic → List Byte
  | .push => [m.sp + 1]
  | .acall | .lcall | .call => m.landings (BitVec.ofNat 16 pc + 1)
  | _ => []

/-- The ways in which an instruction can change the serial buffer. -/
inductive ChangesBuffer (symbols : Symbols) (m : Memory) (mnemonic : Mnemonic) (ops : List Operand)
    (pc : Nat) : Prop
  | byte (h : isBuffer symbols m (byteDestination mnemonic ops) = true)
  | bit {base : ByteRef} {bit : Fin 8} (h : WritesBit mnemonic ops (.field base bit))
      (haddr : base.addr? symbols = some Sfr.sbuf)
  | push (h : Sfr.sbuf ∈ landings m pc mnemonic)

variable {symbols : Symbols} {m : Memory} {mnemonic : Mnemonic} {ops : List Operand} {pc : Nat}

theorem ChangesBuffer.of_place {b : BitRef} {place : BitPlace} (h : WritesBit mnemonic ops b)
    (hplace : b.place? symbols = some place) (hbyte : place.byte = Sfr.sbuf) :
    ChangesBuffer symbols m mnemonic ops pc := by
  obtain ⟨base, rfl, haddr⟩ := BitRef.exists_field_of_place? hplace hbyte
  exact .bit h haddr

theorem ChangesBuffer.of_reaches {place : BitPlace} (h : Reaches symbols m mnemonic ops place)
    (hbyte : place.byte = Sfr.sbuf) : ChangesBuffer symbols m mnemonic ops pc := by
  cases h with
  | byte hop haddr =>
    refine .byte ?_
    rw [isBuffer, hop, Option.bind_some, haddr, hbyte]
    decide
  | lowest hop hplace => exact .of_place (.inl hop) hplace hbyte
  | @bit op _ hop hplace =>
    cases op with
    | bit b => exact .of_place (.inr (.inl hop)) hplace hbyte
    | notBit b => exact .of_place (.inr (.inr hop)) hplace hbyte
    | direct d =>
      cases d with
      | sfr addr => cases hplace
      | expr text =>
        obtain ⟨addr, -, rfl⟩ := Option.map_eq_some_iff.mp hplace
        exact absurd hbyte (BitPlace.ofBitAddr_byte_ne_sbuf addr)
    | _ => cases hplace

theorem landings_of_not_mem_calls (h : mnemonic ∉ calls) :
    landings m pc mnemonic = pushedTo m mnemonic := by
  cases mnemonic <;> first | rfl | exact absurd (by decide) h

theorem of_calls (symbols : Symbols) (m : Memory) (ops : List Operand) (pc : Nat)
    (h : mnemonic ∈ calls) :
    (of symbols m mnemonic ops pc).mem = m.pushWord (BitVec.ofNat 16 pc + 1) ∧
      landings m pc mnemonic = m.landings (BitVec.ofNat 16 pc + 1) := by
  simp only [calls, List.mem_cons, List.not_mem_nil, or_false] at h
  rcases h with rfl | rfl | rfl <;> exact ⟨rfl, rfl⟩

/-- **There is no fourth way.** -/
theorem changesBuffer_of_read_ne
    (h : (of symbols m mnemonic ops pc).mem.read Sfr.sbuf ≠ m.read Sfr.sbuf) :
    ChangesBuffer symbols m mnemonic ops pc := by
  by_cases hcall : mnemonic ∈ calls
  · obtain ⟨hmem, hlandings⟩ := of_calls symbols m ops pc hcall
    refine .push ?_
    by_contra hnot
    rw [hlandings] at hnot
    rw [hmem] at h
    exact h (m.read_pushWord_of_not_mem_landings _ (by decide) hnot)
  · have hchanges := of_changesIn symbols m mnemonic ops pc fun hmem => absurd hmem hcall
    obtain ⟨bit, htouch⟩ := hchanges.exists_of_read_ne h
    generalize hplace : (⟨Sfr.sbuf, bit⟩ : BitPlace) = place at htouch
    have hbyte : place.byte = Sfr.sbuf := congrArg BitPlace.byte hplace.symm
    -- All other registers that an instruction touches have addresses of their own.
    cases htouch with
    | destination hreach => exact .of_reaches hreach hbyte
    | slot hslot => exact .push (landings_of_not_mem_calls hcall ▸ hbyte ▸ hslot)
    | pointer _ _ hpointer =>
      rw [hbyte] at hpointer
      exact absurd hpointer (by decide)
    | acc => exact absurd hbyte (by decide : Sfr.acc ≠ Sfr.sbuf)
    | parity | carry | halfCarry | overflow => exact absurd hbyte (by decide : Sfr.psw ≠ Sfr.sbuf)
    | b => exact absurd hbyte (by decide : Sfr.b ≠ Sfr.sbuf)
    | stackPointer => exact absurd hbyte (by decide : Sfr.sp ≠ Sfr.sbuf)

end Effect

/-! ## 3. Around the instruction -/

theorem Interrupt.not_flagMask_and_tr1 (i : Interrupt) (h : i ≠ .serial) :
    ~~~i.flagMask &&& Sfr.tr1 = Sfr.tr1 := by
  cases i with
  | serial => exact absurd rfl h
  | _ => rfl

namespace Machine

/-- The machine of a step when the timers and the transmitter are through with an instruction, and
an interrupt may come. -/
def beforeInterrupt (m : Machine) (mnemonic : Mnemonic) (ops : List Operand) (done : Executed) :
    Machine :=
  ((followAcc m.mem.acc done).advance (Cost.of mnemonic ops) done.bufferWritten).machine

/-- An interrupt that is due does not push its line over a byte. -/
def Spares (m : Machine) (addr : Byte) : Prop :=
  m.dueInterrupt ≠ none → addr ∉ m.mem.landings (BitVec.ofNat 16 m.pc)

variable {m : Machine} {symbols : Symbols} {mnemonic : Mnemonic} {ops : List Operand}
  {done : Executed}

theorem Spares.of_not_due {addr : Byte} (h : m.dueInterrupt = none) : m.Spares addr :=
  fun hdue => absurd h hdue

/-- The memory behind an interrupt, away from the stack. -/
theorem Spares.read_takeInterrupt {addr : Byte} (h : m.Spares addr) (hsp : Sfr.sp ≠ addr)
    (vectorLine : Word → Nat) :
    (m.takeInterrupt vectorLine).mem.read addr =
      (m.dueInterrupt.elim m.mem (·.lowerFlag m.mem)).read addr := by
  cases hdue : m.dueInterrupt with
  | none => rw [takeInterrupt_of_none hdue, Option.elim_none]
  | some i =>
    have hpushed := m.mem.read_pushWord_of_not_mem_landings _ hsp (h (by simp [hdue]))
    rw [takeInterrupt_of_due hdue, Option.elim_some, i.read_lowerFlag]
    show (i.lowerFlag (m.mem.pushWord _)).read addr = _
    rw [i.read_lowerFlag, hpushed]

theorem Spares.read_takeInterrupt_of_ne {addr : Byte} (h : m.Spares addr) (hsp : Sfr.sp ≠ addr)
    (htcon : Sfr.tcon ≠ addr) (vectorLine : Word → Nat) :
    (m.takeInterrupt vectorLine).mem.read addr = m.mem.read addr := by
  rw [h.read_takeInterrupt hsp]
  cases m.dueInterrupt with
  | none => rfl
  | some i => exact i.read_lowerFlag_of_ne m.mem htcon

/-- An interrupt lowers the flag of its source, and the bit that runs a timer is no such flag. -/
theorem Spares.duration_takeInterrupt (htcon : m.Spares Sfr.tcon) (hth1 : m.Spares Sfr.th1)
    (vectorLine : Word → Nat) :
    Transmitter.duration (m.takeInterrupt vectorLine).mem = Transmitter.duration m.mem := by
  unfold Transmitter.duration
  rw [htcon.read_takeInterrupt (by decide), hth1.read_takeInterrupt_of_ne (by decide) (by decide)]
  cases m.dueInterrupt with
  | none => rfl
  | some i =>
    rw [Option.elim_some, i.read_lowerFlag]
    split
    · next hi => rw [BitVec.and_assoc, i.not_flagMask_and_tr1 hi.1]
    · rfl

/-- The transmitter begins anew with the duration that the timers give, and lowers its flag. -/
theorem beforeInterrupt_of_written (m : Machine) (mnemonic : Mnemonic) (ops : List Operand)
    (h : done.bufferWritten = true) :
    (m.beforeInterrupt mnemonic ops done).transmitter =
        .sending (Transmitter.duration (m.beforeInterrupt mnemonic ops done).mem) ∧
      (m.beforeInterrupt mnemonic ops done).mem.read Sfr.scon &&& Sfr.ti = 0 := by
  rw [beforeInterrupt, h]
  constructor
  · refine (Transmitter.tick_written _ _ _).trans (congrArg Transmitter.sending ?_)
    refine Eq.trans ?_ (Transmitter.duration_modify_scon _ _).symm
    exact (Transmitter.duration_advance _ _ _).symm
  · refine (congrArg (· &&& Sfr.ti) (Memory.read_write_self _ Sfr.scon _)).trans ?_
    rw [BitVec.and_assoc]
    exact BitVec.and_zero

theorem beforeInterrupt_of_not_written (h : done.bufferWritten = false) {remaining : Nat} :
    (m.beforeInterrupt mnemonic ops done).transmitter = .sending remaining ↔
      done.machine.transmitter = .sending (remaining + Cost.of mnemonic ops) ∧ 0 < remaining := by
  rw [beforeInterrupt, h, ← followAcc_transmitter m.mem.acc done]
  exact Transmitter.tick_not_written_iff

/-- Without a report an idle transmitter stays idle. -/
theorem exists_step_idle (hdone : m.execute symbols mnemonic ops = .ok done)
    (hwritten : done.bufferWritten = false) (hidle : m.transmitter = .idle)
    (vectorLine : Word → Nat) : ∃ stepped,
      m.step symbols vectorLine mnemonic ops = .ok stepped ∧
        stepped.machine.transmitter = .idle := by
  obtain ⟨next, -, hexecuted⟩ := execute_ok_iff.mp hdone
  have htransmitter : (followAcc m.mem.acc done).transmitter = .idle := by
    rw [followAcc_transmitter, hexecuted]
    exact hidle
  refine ⟨_, step_ok_iff.mpr ⟨done, hdone, rfl⟩, ?_⟩
  rw [takeInterrupt_transmitter, hwritten, advance, htransmitter]
  rfl

/-- **What starts a transmission.** An instruction that changes the serial buffer has it as the byte
    that it writes, has a bit of it as the bit that it writes, or pushes over it. If the buffer is
    the byte that it writes, a transmission starts whether the byte changes or not, for as long as
    the timers say behind the instruction, and its flag is clear. In all other cases none starts,
    even where the buffer changes: one that is under way goes on. An interrupt at the end of the
    step makes no difference unless its line is pushed over a register in question. -/
theorem step_starts_transmission {vectorLine : Word → Nat} {stepped : Stepped}
    (h : m.step symbols vectorLine mnemonic ops = .ok stepped) :
    ∃ done, m.execute symbols mnemonic ops = .ok done ∧
      let before := m.beforeInterrupt mnemonic ops done
      stepped.machine = before.takeInterrupt vectorLine ∧
      (done.machine.mem.read Sfr.sbuf ≠ m.mem.read Sfr.sbuf →
        Effect.ChangesBuffer symbols m.mem mnemonic ops m.pc) ∧
      (Effect.isBuffer symbols m.mem (Effect.byteDestination mnemonic ops) = true →
        stepped.machine.transmitter = .sending (Transmitter.duration before.mem) ∧
        (before.Spares Sfr.tcon → before.Spares Sfr.th1 →
          Transmitter.duration stepped.machine.mem = Transmitter.duration before.mem) ∧
        (before.Spares Sfr.scon → stepped.machine.mem.read Sfr.scon &&& Sfr.ti = 0)) ∧
      (Effect.isBuffer symbols m.mem (Effect.byteDestination mnemonic ops) = false →
        ∀ remaining, stepped.machine.transmitter = .sending remaining ↔
          m.transmitter = .sending (remaining + Cost.of mnemonic ops) ∧ 0 < remaining) := by
  obtain ⟨done, hdone, hstepped⟩ := step_ok_iff.mp h
  obtain ⟨next, -, hexecuted⟩ := execute_ok_iff.mp hdone
  have hmachine :
      stepped.machine = (m.beforeInterrupt mnemonic ops done).takeInterrupt vectorLine := by
    rw [hstepped, beforeInterrupt]
  have hmem : done.machine.mem = (Effect.of symbols m.mem mnemonic ops m.pc).mem := by
    rw [hexecuted]
  have htransmitter : done.machine.transmitter = m.transmitter := by rw [hexecuted]
  have hwritten : done.bufferWritten =
      Effect.isBuffer symbols m.mem (Effect.byteDestination mnemonic ops) := by
    rw [hexecuted, ← Effect.of_bufferWritten symbols m.mem mnemonic ops m.pc]
  refine ⟨done, hdone, hmachine, ?_, ?_, ?_⟩
  · rw [hmem]
    exact Effect.changesBuffer_of_read_ne
  · intro hbuffer
    obtain ⟨hstarts, hclear⟩ :=
      m.beforeInterrupt_of_written mnemonic ops (hwritten.trans hbuffer)
    rw [hmachine]
    refine ⟨(takeInterrupt_transmitter _ _).trans hstarts, ?_, ?_⟩
    · intro htcon hth1
      exact htcon.duration_takeInterrupt hth1 vectorLine
    · intro hscon
      rw [hscon.read_takeInterrupt_of_ne (by decide) (by decide)]
      exact hclear
  · intro hbuffer remaining
    rw [hmachine, takeInterrupt_transmitter, ← htransmitter]
    exact beforeInterrupt_of_not_written (hwritten.trans hbuffer)

/-- The move to the buffer starts a transmission of the default duration. To set a bit of it starts
none. -/
theorem blank_starts_transmission :
    (∃ stepped, blank.step ∅ BitVec.toNat .mov [.direct (.sfr Sfr.sbuf), .immediate "65"] =
        .ok stepped ∧
      stepped.machine.transmitter = .sending 120 ∧
      stepped.machine.mem.read Sfr.scon &&& Sfr.ti = 0) ∧
    ∃ stepped, blank.step ∅ BitVec.toNat .setb [.bit (.field (.sfr Sfr.sbuf) 0)] = .ok stepped ∧
      ∀ remaining, stepped.machine.transmitter ≠ .sending remaining := by
  constructor
  · obtain ⟨done, hdone, -, -, hstarts, -⟩ := step_starts_transmission
      (rfl : blank.step ∅ BitVec.toNat .mov [.direct (.sfr Sfr.sbuf), .immediate "65"] = .ok _)
    obtain ⟨hsending, -, hclear⟩ := hstarts (by decide)
    obtain rfl := Except.ok.inj hdone
    refine ⟨_, rfl, hsending.trans ?_, hclear (.of_not_due ?_)⟩
    · decide +kernel
    · decide +kernel
  · obtain ⟨-, -, -, -, -, hgoes⟩ := step_starts_transmission
      (rfl : blank.step ∅ BitVec.toNat .setb [.bit (.field (.sfr Sfr.sbuf) 0)] = .ok _)
    refine ⟨_, rfl, ?_⟩
    intro remaining hsending
    exact nomatch ((hgoes (by decide) remaining).mp hsending).1

/-- The next byte that is pushed lands on the serial buffer. -/
def underBuffer : Machine := ⟨Memory.zero.setSp 0x98, 0, 0, .idle, false⟩

/-- A bit that is set and a byte that is pushed change the buffer, and nothing is sent. -/
theorem buffer_changes_unnoticed :
    (∃ done stepped, blank.execute ∅ .setb [.bit (.field (.sfr Sfr.sbuf) 0)] = .ok done ∧
      blank.step ∅ BitVec.toNat .setb [.bit (.field (.sfr Sfr.sbuf) 0)] = .ok stepped ∧
      done.machine.mem.read Sfr.sbuf ≠ blank.mem.read Sfr.sbuf ∧
      stepped.machine.transmitter = .idle) ∧
    ∃ done stepped, underBuffer.execute ∅ .push [.direct (.sfr Sfr.sp)] = .ok done ∧
      underBuffer.step ∅ BitVec.toNat .push [.direct (.sfr Sfr.sp)] = .ok stepped ∧
      done.machine.mem.read Sfr.sbuf ≠ underBuffer.mem.read Sfr.sbuf ∧
      stepped.machine.transmitter = .idle := by
  constructor
  · have hafter : (blank.mem.setBit ⟨Sfr.sbuf, 0⟩ true).read Sfr.sbuf =
        blank.mem.read Sfr.sbuf ||| 1 := Memory.read_write_self _ Sfr.sbuf _
    have hdone : blank.execute ∅ .setb [.bit (.field (.sfr Sfr.sbuf) 0)] =
        .ok ⟨{ blank with mem := blank.mem.setBit ⟨Sfr.sbuf, 0⟩ true, pc := 1 },
          false, false⟩ := rfl
    obtain ⟨stepped, hstep, hidle⟩ := exists_step_idle hdone rfl rfl BitVec.toNat
    refine ⟨_, stepped, hdone, hstep, ?_, hidle⟩
    rw [hafter, show blank.mem.read Sfr.sbuf = 0 from Memory.read_zero Sfr.sbuf]
    decide
  · have hdone : underBuffer.execute ∅ .push [.direct (.sfr Sfr.sp)] =
        .ok ⟨{ underBuffer with mem := underBuffer.mem.push underBuffer.mem.sp, pc := 1 },
          false, false⟩ := rfl
    obtain ⟨stepped, hstep, hidle⟩ := exists_step_idle hdone rfl rfl BitVec.toNat
    refine ⟨_, stepped, hdone, hstep, ?_, hidle⟩
    have hsp : underBuffer.mem.sp = 0x98 := Memory.zero.read_write_self Sfr.sp 0x98
    have hbefore : underBuffer.mem.read Sfr.sbuf = 0 :=
      (Memory.zero.read_write_of_ne 0x98 (by decide)).trans (Memory.read_zero Sfr.sbuf)
    have hafter : (underBuffer.mem.push 0x98).read Sfr.sbuf = 0x98 := by
      rw [Memory.push, hsp]
      exact Memory.read_write_self _ Sfr.sbuf 0x98
    show (underBuffer.mem.push underBuffer.mem.sp).read Sfr.sbuf ≠ _
    rw [hbefore, hsp, hafter]
    decide

end Machine
end Mcs51
