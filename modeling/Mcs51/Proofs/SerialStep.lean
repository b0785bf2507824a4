import Mcs51.Proofs.BufferWrite
import Mcs51.Proofs.NextStep
import Mcs51.Proofs.Transmission

/-!
# A step on the serial line

What one step does to the transmitter and to the serial buffer. The transmitter is ticked with what
the instruction makes of memory and with its cycles (`step_ticks`), and the tick counts as a write
exactly when the instruction has the buffer as its byte destination (`tick_written`).

Nothing says that only such instructions reach the buffer: its bits can be written one by one, and
the stack can run over it. `KeepsBuffer` is the condition that a step does neither. It asks for
values and not for causes, so a write of the byte that was there anyway is no harm. Under it the
buffer after the step, and the byte that the step sends, are known (`KeepsBuffer.step`,
`KeepsBuffer.sent`).
-/

namespace Mcs51
namespace Simulator

/-! ## 1. What a step sends and writes -/

section
variable (s : Simulator)

/-- The byte that the next step sends, if it sends one. -/
def sent? : Option Byte := s.executes?.bind fun e => (s.advanced e).sent

/-- The byte that the instruction of the next step writes to the serial buffer, if the buffer is
the operand that it writes as a byte. -/
def wrote? : Option Byte :=
  s.executes?.bind fun e =>
    if Effect.isBuffer s.program.symbols s.machine.mem
        (Effect.byteDestination e.mnemonic e.line.operands) then
      some (e.done.machine.mem.read Sfr.sbuf)
    else none

/-- The next step leaves the buffer to such instructions: any other one leaves it as it was, and
after the instruction nothing else in the step changes it. -/
def KeepsBuffer : Prop :=
  ∀ e ∈ s.executes?,
    (s.wrote? = none → e.done.machine.mem.read Sfr.sbuf = s.machine.mem.read Sfr.sbuf) ∧
      s.step.2.machine.mem.read Sfr.sbuf = e.done.machine.mem.read Sfr.sbuf

instance : Decidable s.KeepsBuffer :=
  inferInstanceAs (Decidable (∀ e ∈ s.executes?,
    (s.wrote? = none → e.done.machine.mem.read Sfr.sbuf = s.machine.mem.read Sfr.sbuf) ∧
      s.step.2.machine.mem.read Sfr.sbuf = e.done.machine.mem.read Sfr.sbuf))

/-- What the transmitter is ticked with in the next step. Where nothing is executed no cycles go
by. -/
def tick : Transmitter.Tick :=
  match s.executes? with
  | some e =>
    { mem := Timer.tick (Cost.of e.mnemonic e.line.operands)
        (Machine.followAcc s.machine.mem.acc e.done).mem
      cycles := Cost.of e.mnemonic e.line.operands
      written := e.done.bufferWritten }
  | none => ⟨s.machine.mem, 0, false⟩

/-- The bytes that were sent, the first one first. -/
def sentBytes : List Byte :=
  s.events.filterMap fun
    | .sent byte => some byte
    | .received _ => none

end

variable {s : Simulator} {e : Execution}

/-! ## 2. The transmitter and the buffer in a step -/

theorem tick_of_executes?_eq_some (h : s.executes? = some e) :
    s.tick =
      { mem := Timer.tick (Cost.of e.mnemonic e.line.operands)
          (Machine.followAcc s.machine.mem.acc e.done).mem
        cycles := Cost.of e.mnemonic e.line.operands
        written := e.done.bufferWritten } := by
  rw [tick, h]

theorem tick_of_executes?_eq_none (h : s.executes? = none) :
    s.tick = ⟨s.machine.mem, 0, false⟩ := by
  rw [tick, h]

/-- A tick counts as a write exactly when the instruction has the buffer as its byte destination. -/
theorem tick_written (s : Simulator) : s.tick.written = s.wrote?.isSome := by
  cases h : s.executes? with
  | none => simp [tick_of_executes?_eq_none h, wrote?, h]
  | some e =>
    obtain ⟨_, _, hd⟩ := executes?_eq_some_iff.mp h
    obtain ⟨_, _, hdone⟩ := Machine.execute_ok_iff.mp hd
    simp only [tick_of_executes?_eq_some h, wrote?, h, Option.bind_some,
      ← Effect.of_bufferWritten _ _ _ _ s.machine.pc]
    rw [hdone]
    dsimp only
    split <;> simp_all

/-- In a tick the buffer holds what it held right after the instruction. -/
theorem tick_mem_read_sbuf (h : s.executes? = some e) :
    s.tick.mem.read Sfr.sbuf = e.done.machine.mem.read Sfr.sbuf := by
  rw [tick_of_executes?_eq_some h]
  show (Timer.tick _ _).read Sfr.sbuf = _
  rw [Timer.read_tick _ _ (by decide), Machine.followAcc_read_of_ne _ _ (by decide)]

theorem step_cycles (s : Simulator) :
    s.step.2.machine.cycles = s.machine.cycles + s.tick.cycles := by
  cases h : s.executes? with
  | none =>
    obtain ⟨⟨pc, hm⟩, _⟩ := step_of_executes?_eq_none h
    rw [hm, tick_of_executes?_eq_none h]
    rfl
  | some e =>
    rw [(step_of_executes?_eq_some h).1, Machine.takeInterrupt_cycles, tick_of_executes?_eq_some h]
    show (Machine.followAcc _ _).cycles + _ = _
    obtain ⟨_, _, hd⟩ := executes?_eq_some_iff.mp h
    obtain ⟨_, _, hdone⟩ := Machine.execute_ok_iff.mp hd
    rw [Machine.followAcc_cycles, hdone]

/-- A transmission with cycles to go is not changed by a tick of no cycles. -/
theorem transmitter_tick_zero {t : Transmitter} (ht : ∀ r, t = .sending r → 0 < r) (m : Memory) :
    t.tick m 0 false = ⟨t, m, none⟩ := by
  cases t with
  | idle => rfl
  | sending r =>
    have hr := ht r rfl
    simp only [Transmitter.tick, Transmitter.advance, Bool.false_eq_true, if_false, Nat.sub_zero]
    rw [if_neg (Nat.not_le.mpr hr)]

/-- **A step ticks the transmitter**, sends what the tick sends, and records it. -/
theorem step_ticks (ht : ∀ r, s.machine.transmitter = .sending r → 0 < r) :
    let ticked := s.machine.transmitter.tick s.tick.mem s.tick.cycles s.tick.written
    s.step.2.machine.transmitter = ticked.transmitter ∧ s.sent? = ticked.sent ∧
      s.step.2.history = (ticked.sent.map SerialEvent.sent).toList ++ s.history := by
  cases h : s.executes? with
  | none =>
    obtain ⟨⟨pc, hm⟩, hh⟩ := step_of_executes?_eq_none h
    simp [tick_of_executes?_eq_none h, transmitter_tick_zero ht, hm, hh, sent?, h]
  | some e =>
    obtain ⟨hm, hh⟩ := step_of_executes?_eq_some h
    obtain ⟨_, _, hd⟩ := executes?_eq_some_iff.mp h
    obtain ⟨_, _, hdone⟩ := Machine.execute_ok_iff.mp hd
    have htr : (Machine.followAcc s.machine.mem.acc e.done).transmitter =
        s.machine.transmitter := by
      rw [Machine.followAcc_transmitter, hdone]
    simp [hm, hh, sent?, h, Machine.takeInterrupt_transmitter, tick_of_executes?_eq_some h,
      advanced, Machine.advance, htr]

/-- Right after the instruction the buffer holds what was put there in this step, or else what it
held before the step. -/
theorem KeepsBuffer.instruction (hk : s.KeepsBuffer) (h : s.executes? = some e) :
    e.done.machine.mem.read Sfr.sbuf = s.wrote?.getD (s.machine.mem.read Sfr.sbuf) := by
  cases hw : s.wrote? with
  | none => exact (hk e h).1 hw
  | some byte =>
    simp only [wrote?, h, Option.bind_some, Option.ite_none_right_eq_some, Option.some.injEq] at hw
    exact hw.2

theorem KeepsBuffer.step (hk : s.KeepsBuffer) :
    s.step.2.machine.mem.read Sfr.sbuf = s.wrote?.getD (s.machine.mem.read Sfr.sbuf) := by
  cases h : s.executes? with
  | none =>
    obtain ⟨⟨pc, hm⟩, _⟩ := step_of_executes?_eq_none h
    simp [hm, wrote?, h]
  | some e => rw [(hk e h).2, hk.instruction h]

/-- The byte that a step sends is the one put into the buffer in this step, or else the one that
was there before. -/
theorem KeepsBuffer.sent (hk : s.KeepsBuffer) {byte : Byte} (hs : s.sent? = some byte) :
    byte = s.wrote?.getD (s.machine.mem.read Sfr.sbuf) := by
  cases h : s.executes? with
  | none => simp [sent?, h] at hs
  | some e =>
    rw [← hk.instruction h, ← tick_mem_read_sbuf h, tick_of_executes?_eq_some h]
    simp only [sent?, h, Option.bind_some, advanced, Machine.advance] at hs
    exact (Transmitter.tick_sent_eq_some_iff.mp hs).2.symm

end Simulator
end Mcs51
