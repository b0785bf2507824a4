import Mcs51.Proofs.SerialStep

/-!
# What goes out on the serial line

A transmission does not keep the byte that it was started with: when its time is over it sends what
the buffer holds by then. So a byte that comes in from outside meanwhile goes out again in its
place, and so does one that the program writes in the very step in which the transmission ends.
`overrun_sends_received_byte` is a short program for the first.

`sends_what_was_last_put` is what holds instead, over every session: a program that was just loaded,
stepped with receptions in between. The transmitter of a session is the one of
`Mcs51.Proofs.Transmission` under the ticks that its steps give (`before_tick`), and what its buffer
holds is known from what was put there (`buffer_state`). Both are inductions over the session, and
together they give the bytes that go out.
-/

namespace Mcs51

/-- What happens to a simulator: it is stepped, or a byte comes in from outside. -/
inductive Stimulus
  | step
  | receive (byte : Byte)
  deriving DecidableEq

/-- The simulator after a stimulus. A step that fails counts as one. -/
def Simulator.after (s : Simulator) : Stimulus → Simulator
  | .step => s.step.2
  | .receive byte => s.receive byte

/-- A program was just loaded into the simulator, from source or without one. -/
def Simulator.IsLoaded (s : Simulator) : Prop :=
  ∃ (old : Simulator) (drawn : Ram), (∃ program, s = old.load program drawn) ∨
    ∃ source, old.loadText source drawn = .ok s

/-- A simulator that was just loaded, and what happens to it from then on. -/
structure Session where
  start : Simulator
  stimulus : Nat → Stimulus
  loaded : start.IsLoaded

theorem Simulator.IsLoaded.fresh {s : Simulator} (h : s.IsLoaded) :
    s.history = [] ∧ s.machine.transmitter = .idle := by
  obtain ⟨old, drawn, ⟨program, rfl⟩ | ⟨source, hs⟩⟩ := h
  · exact ⟨rfl, rfl⟩
  · obtain ⟨program, _, rfl⟩ := of_loadText hs
    exact ⟨rfl, rfl⟩

namespace Session

open scoped List
open Transmitter (LastWrite before outcome elapsed)

section
variable (d : Session)

/-! ## 1. Sessions -/

/-- The simulator before the stimulus number `n`. -/
def state : Nat → Simulator
  | 0 => d.start
  | n + 1 => (state n).after (d.stimulus n)

/-- The byte that the instruction of a stimulus writes to the buffer, as its byte destination. -/
def wrote? (n : Nat) : Option Byte :=
  match d.stimulus n with
  | .step => (d.state n).wrote?
  | .receive _ => none

/-- The byte that a stimulus puts into the buffer: such an instruction, or a reception. -/
def put? (n : Nat) : Option Byte :=
  match d.stimulus n with
  | .step => (d.state n).wrote?
  | .receive byte => some byte

/-- The byte that is sent in a stimulus. -/
def sent? (n : Nat) : Option Byte :=
  match d.stimulus n with
  | .step => (d.state n).sent?
  | .receive _ => none

/-- The byte that the first `n` stimuli put last. -/
def lastPut : Nat → Option Byte
  | 0 => none
  | n + 1 => (d.put? n).or (lastPut n)

/-- The transmission that the write `i` starts ends in the stimulus `j`: no write comes between them
to start it over, and `j` brings the machine cycles since the write to the number it takes. -/
structure Delivers (i j : Nat) : Prop where
  lt : i < j
  wrote : (d.wrote? i).isSome = true
  latest : ∀ l, i < l → l < j → d.wrote? l = none
  ends : ∃ cycles, (d.state (i + 1)).machine.transmitter = .sending cycles ∧
    (d.state j).machine.cycles < (d.state (i + 1)).machine.cycles + cycles ∧
    (d.state (i + 1)).machine.cycles + cycles ≤ (d.state (j + 1)).machine.cycles

/-- What the transmitter is ticked with. In a reception no cycles go by. -/
def tick (n : Nat) : Transmitter.Tick :=
  match d.stimulus n with
  | .step => (d.state n).tick
  | .receive _ => ⟨(d.state n).machine.mem, 0, false⟩

end

variable {d : Session}

/-! ## 2. The transmitter of a session -/

theorem tick_written (n : Nat) : (d.tick n).written = (d.wrote? n).isSome := by
  unfold tick wrote?
  cases d.stimulus n with
  | step => exact Simulator.tick_written _
  | receive byte => rfl

/-- **The transmitter of a session** is the one under its ticks. -/
theorem before_tick (n : Nat) : before d.tick n = (d.state n).machine.transmitter := by
  induction n with
  | zero => exact d.loaded.fresh.2.symm
  | succ n ih =>
    -- A reception is a tick of no cycles, which would end a transmission with none to go.
    have ht : ∀ r, (d.state n).machine.transmitter = .sending r → 0 < r := by
      intro r hr
      obtain ⟨_, _, hpos, _⟩ := Transmitter.before_eq_sending_iff.mp (ih.trans hr)
      exact hpos
    simp only [before, ih, state, tick]
    cases d.stimulus n with
    | step => exact (Simulator.step_ticks ht).1.symm
    | receive byte =>
      dsimp only
      rw [Simulator.transmitter_tick_zero ht]
      rfl

theorem sending_pos {n r : Nat} (h : (d.state n).machine.transmitter = .sending r) : 0 < r := by
  obtain ⟨_, _, hpos, _⟩ := Transmitter.before_eq_sending_iff.mp ((before_tick n).trans h)
  exact hpos

theorem sent?_eq_outcome (n : Nat) : d.sent? n = (outcome d.tick n).sent := by
  simp only [outcome, before_tick, tick, sent?]
  cases d.stimulus n with
  | step => exact (Simulator.step_ticks fun _ => sending_pos).2.1
  | receive byte =>
    dsimp only
    rw [Simulator.transmitter_tick_zero fun _ => sending_pos]

theorem cycles_succ (n : Nat) :
    (d.state (n + 1)).machine.cycles = (d.state n).machine.cycles + (d.tick n).cycles := by
  simp only [state, tick]
  cases d.stimulus n with
  | step => exact Simulator.step_cycles _
  | receive byte => rfl

/-- The machine counts the cycles of its ticks. -/
theorem cycles_add_elapsed {i j : Nat} (h : i < j) :
    (d.state (i + 1)).machine.cycles + elapsed d.tick i j = (d.state j).machine.cycles := by
  induction j, h using Nat.le_induction with
  | base => rw [Transmitter.elapsed_self, Nat.add_zero]
  | succ j hij ih => rw [Transmitter.elapsed_succ hij, cycles_succ j, ← ih, Nat.add_assoc]

theorem lastWrite_iff {i j : Nat} :
    LastWrite d.tick i j ↔
      i < j ∧ (d.wrote? i).isSome = true ∧ ∀ l, i < l → l < j → d.wrote? l = none := by
  constructor
  · intro h
    refine ⟨h.lt, tick_written i ▸ h.written, fun l hi hj => ?_⟩
    have hl := h.latest l hi hj
    rw [tick_written] at hl
    exact Option.not_isSome_iff_eq_none.mp (by simp [hl])
  · rintro ⟨hlt, hw, hl⟩
    exact ⟨hlt, (tick_written i).trans hw, fun l hi hj => by rw [tick_written, hl l hi hj]; rfl⟩

theorem transmitter_of_wrote? {i : Nat} (h : (d.wrote? i).isSome = true) :
    (d.state (i + 1)).machine.transmitter = .sending (Transmitter.duration (d.tick i).mem) := by
  rw [← before_tick, before, tick_written, h]
  exact Transmitter.tick_written _ _ _

/-- What sends a byte is the end of the transmission of one write. -/
theorem sent?_isSome_iff {j : Nat} : (d.sent? j).isSome = true ↔ ∃ i, d.Delivers i j := by
  have hs : (d.sent? j).isSome = Transmitter.sends d.tick j := by
    rw [sent?_eq_outcome, Transmitter.sends]
  rw [hs, Transmitter.sends_iff]
  constructor
  · rintro ⟨i, hi, hle, hlt⟩
    obtain ⟨hij, hw, hl⟩ := lastWrite_iff.mp hi
    have hbefore : _ = (d.state j).machine.cycles := cycles_add_elapsed hij
    have hafter : _ = (d.state (j + 1)).machine.cycles :=
      cycles_add_elapsed (Nat.lt_succ_of_lt hij)
    exact ⟨i, hij, hw, hl, _, transmitter_of_wrote? hw, by omega, by omega⟩
  · rintro ⟨i, hij, hw, hl, cycles, hc, hlt, hle⟩
    have hbefore : _ = (d.state j).machine.cycles := cycles_add_elapsed hij
    have hafter : _ = (d.state (j + 1)).machine.cycles :=
      cycles_add_elapsed (Nat.lt_succ_of_lt hij)
    rw [transmitter_of_wrote? hw] at hc
    cases hc
    exact ⟨i, lastWrite_iff.mpr ⟨hij, hw, hl⟩, by omega, by omega⟩

theorem Delivers.lastWrite {i j : Nat} (h : d.Delivers i j) : LastWrite d.tick i j :=
  lastWrite_iff.mpr ⟨h.lt, h.wrote, h.latest⟩

theorem cycles_mono {i j : Nat} (h : i ≤ j) :
    (d.state i).machine.cycles ≤ (d.state j).machine.cycles := by
  induction j, h using Nat.le_induction with
  | base => exact Nat.le_refl _
  | succ j _ ih =>
    rw [cycles_succ]
    exact Nat.le_add_right_of_le ih

/-- No write is sent twice: once the cycles of its transmission are over they stay so. -/
theorem Delivers.unique_end {i j k : Nat} (hj : d.Delivers i j) (hk : d.Delivers i k) : j = k := by
  obtain ⟨cycles, hc, hjlt, hjle⟩ := hj.ends
  obtain ⟨cycles', hc', hklt, hkle⟩ := hk.ends
  rw [hc] at hc'
  cases hc'
  rcases Nat.lt_trichotomy j k with h | h | h
  · have hm : (d.state (j + 1)).machine.cycles ≤ (d.state k).machine.cycles := cycles_mono h
    omega
  · exact h
  · have hm : (d.state (k + 1)).machine.cycles ≤ (d.state j).machine.cycles := cycles_mono h
    omega

/-! ## 3. The record -/

theorem sentBytes_succ (n : Nat) :
    (d.state (n + 1)).sentBytes = (d.state n).sentBytes ++ (d.sent? n).toList := by
  simp only [state, sent?]
  cases d.stimulus n with
  | step =>
    obtain ⟨_, hs, hh⟩ := Simulator.step_ticks (s := d.state n) fun _ => sending_pos
    simp only [Simulator.after, Simulator.sentBytes, Simulator.events, hh, ← hs,
      List.reverse_append, List.filterMap_append]
    cases (d.state n).sent? <;> rfl
  | receive byte =>
    simp [Simulator.after, Simulator.receive, Simulator.sentBytes, Simulator.events]

theorem filterMap_range_succ (f : Nat → Option Byte) (n : Nat) :
    (List.range (n + 1)).filterMap f = (List.range n).filterMap f ++ (f n).toList := by
  rw [List.range_succ, List.filterMap_append]
  cases h : f n <;> simp [h]

theorem sentBytes_state (n : Nat) :
    (d.state n).sentBytes = (List.range n).filterMap d.sent? := by
  induction n with
  | zero =>
    show d.start.sentBytes = []
    simp [Simulator.sentBytes, Simulator.events, d.loaded.fresh.1]
  | succ n ih => rw [sentBytes_succ, ih, filterMap_range_succ]

/-! ## 4. The buffer of a session -/

/-- The first `n` stimuli leave the buffer to instructions that have it as their byte destination,
and to receptions. -/
def KeepsBuffer (d : Session) (n : Nat) : Prop :=
  ∀ k < n, d.stimulus k = .step → (d.state k).KeepsBuffer

instance (d : Session) (n : Nat) : Decidable (d.KeepsBuffer n) :=
  inferInstanceAs (Decidable (∀ k < n, d.stimulus k = .step → (d.state k).KeepsBuffer))

theorem buffer_succ {n k : Nat} (hd : d.KeepsBuffer n) (hk : k < n) :
    (d.state (k + 1)).machine.mem.read Sfr.sbuf =
      (d.put? k).getD ((d.state k).machine.mem.read Sfr.sbuf) := by
  have hkeep := hd k hk
  simp only [state, put?]
  cases hs : d.stimulus k with
  | step => exact (hkeep hs).step
  | receive byte =>
    show (((d.state k).machine.mem.write Sfr.sbuf byte).modify Sfr.scon _).read Sfr.sbuf = byte
    rw [Memory.read_modify_of_ne _ _ (by decide), Memory.read_write_self]

/-- **What the buffer holds** is what was put there last. -/
theorem buffer_state {n k : Nat} (hd : d.KeepsBuffer n) (hk : k ≤ n) :
    (d.state k).machine.mem.read Sfr.sbuf =
      (d.lastPut k).getD (d.start.machine.mem.read Sfr.sbuf) := by
  induction k with
  | zero => rfl
  | succ k ih =>
    rw [buffer_succ hd hk, ih (Nat.le_of_succ_le hk), lastPut]
    cases d.put? k <;> rfl

theorem put?_of_wrote? {k : Nat} {byte : Byte} (h : d.wrote? k = some byte) :
    d.put? k = some byte := by
  unfold wrote? at h
  unfold put?
  cases hs : d.stimulus k with
  | step => simpa only [hs] using h
  | receive _ =>
    rw [hs] at h
    exact nomatch h

/-- What was put last stays so until something else is put. -/
theorem lastPut_of_put? {i n : Nat} {byte : Byte} (hi : i < n) (hput : d.put? i = some byte)
    (hl : ∀ l, i < l → l < n → d.put? l = none) : d.lastPut n = some byte := by
  induction n, hi using Nat.le_induction with
  | base => simp [lastPut, hput]
  | succ n hin ih =>
    rw [lastPut, hl n hin (Nat.lt_succ_self n), Option.none_or]
    exact ih fun l h1 h2 => hl l h1 (Nat.lt_succ_of_lt h2)

theorem lastPut_isSome {i n : Nat} (hi : i < n) (hput : (d.put? i).isSome = true) :
    (d.lastPut n).isSome = true := by
  induction n, hi using Nat.le_induction with
  | base => simp [lastPut, hput]
  | succ n _ ih => simp [lastPut, ih]

/-- A byte that is sent is the one that was put last, in the same step or before it. -/
theorem lastPut_of_sent? {n j : Nat} {byte : Byte} (hd : d.KeepsBuffer n) (hj : j < n)
    (hs : d.sent? j = some byte) : d.lastPut (j + 1) = some byte := by
  obtain ⟨i, hi⟩ := sent?_isSome_iff.mp (Option.isSome_of_eq_some hs)
  obtain ⟨written, hw⟩ := Option.isSome_iff_exists.mp hi.wrote
  -- The write that started the transmission put a byte, so the buffer at `start` is out of play.
  have hbefore : (d.lastPut j).isSome = true :=
    lastPut_isSome hi.lt (Option.isSome_of_eq_some (put?_of_wrote? hw))
  obtain ⟨held, hheld⟩ := Option.isSome_iff_exists.mp hbefore
  have hbuf := buffer_state hd (Nat.le_of_lt hj)
  rw [hheld, Option.getD_some] at hbuf
  have hkeep := hd j hj
  unfold sent? at hs
  simp only [lastPut, put?, hheld]
  cases hst : d.stimulus j with
  | step =>
    rw [hst] at hs
    rw [(hkeep hst).sent hs, hbuf]
    cases (d.state j).wrote? <;> rfl
  | receive _ =>
    rw [hst] at hs
    exact nomatch hs

/-! ## 5. What goes out -/

theorem filterMap_range_mono (f : Nat → Option Byte) {m n : Nat} (h : m ≤ n) :
    (List.range m).filterMap f <+ (List.range n).filterMap f :=
  (List.range_sublist.mpr h).filterMap f

/-- If every transmission sends the byte of its write, the bytes sent by then are among those
    written, and those sent while a transmission is still to end among those written before it. -/
theorem sent_sublist_wrote {n : Nat}
    (h : ∀ i j, j < n → d.Delivers i j → d.sent? j = d.wrote? i) :
    (List.range n).filterMap d.sent? <+ (List.range n).filterMap d.wrote? ∧
      ∀ i, LastWrite d.tick i n → (∀ j < n, ¬ d.Delivers i j) →
        (List.range n).filterMap d.sent? <+ (List.range i).filterMap d.wrote? := by
  induction n with
  | zero => exact ⟨List.Sublist.refl _, fun i hi => absurd hi.lt (Nat.not_lt_zero i)⟩
  | succ n ih =>
    obtain ⟨hall, hpending⟩ := ih fun i j hj => h i j (Nat.lt_succ_of_lt hj)
    have hsent : (List.range (n + 1)).filterMap d.sent? <+ (List.range n).filterMap d.wrote? := by
      rw [filterMap_range_succ]
      cases hs : d.sent? n with
      | none => simpa using hall
      | some byte =>
        -- The byte of the write `i` goes behind what was sent before, and the second part of the
        -- induction puts all of that in front of `i`.
        obtain ⟨i, hi⟩ := sent?_isSome_iff.mp (Option.isSome_of_eq_some hs)
        have hw : d.wrote? i = some byte := (h i n (Nat.lt_succ_self n) hi).symm.trans hs
        have hbefore := hpending i hi.lastWrite fun j hj hij =>
          absurd (hij.unique_end hi) (Nat.ne_of_lt hj)
        have hupto := filterMap_range_mono d.wrote? (Nat.succ_le_of_lt hi.lt)
        rw [Nat.succ_eq_add_one, filterMap_range_succ, hw] at hupto
        exact (hbefore.append (List.Sublist.refl _)).trans hupto
    refine ⟨hsent.trans (filterMap_range_mono _ (Nat.le_succ n)), fun i hi hnone => ?_⟩
    cases hw : (d.tick n).written with
    | true =>
      obtain rfl := (Transmitter.lastWrite_succ_of_written hw).mp hi
      exact hsent
    | false =>
      -- Only the transmission of `i` could have ended here, and it has not.
      have hi' := (Transmitter.lastWrite_succ_of_not_written hw).mp hi
      have hs : d.sent? n = none := by
        by_contra hne
        obtain ⟨k, hk⟩ := sent?_isSome_iff.mp (Option.isSome_iff_ne_none.mpr hne)
        obtain rfl := hk.lastWrite.unique hi'
        exact hnone n (Nat.lt_succ_self n) hk
      rw [filterMap_range_succ, hs, Option.toList_none, List.append_nil]
      exact hpending i hi' fun j hj => hnone j (Nat.lt_succ_of_lt hj)

/-- **What goes out is what was put last**, over every session in which the buffer is put by
    instructions that have it as their byte destination and by receptions. A byte goes out exactly
    where the transmission of one write ends; it is the byte put last by then, and the byte of that
    write if nothing was put since; and no write is sent twice. So where each transmission sends the
    byte of its write, the bytes that go out are among those written, in their order. -/
theorem sends_what_was_last_put (d : Session) (n : Nat) (hd : d.KeepsBuffer n) :
    (d.state n).sentBytes = (List.range n).filterMap d.sent? ∧
    (∀ j < n, ∀ byte, d.sent? j = some byte ↔
      (∃! i, d.Delivers i j) ∧ d.lastPut (j + 1) = some byte) ∧
    (∀ i j, j < n → d.Delivers i j → (∀ l, i < l → l ≤ j → d.put? l = none) →
      d.sent? j = d.wrote? i) ∧
    (∀ i j k, d.Delivers i j → d.Delivers i k → j = k) ∧
    ((∀ i j, j < n → d.Delivers i j → d.sent? j = d.wrote? i) →
      (d.state n).sentBytes <+ (List.range n).filterMap d.wrote?) := by
  refine ⟨sentBytes_state n, ?_, ?_, fun _ _ _ => Delivers.unique_end, ?_⟩
  · intro j hj byte
    constructor
    · intro hs
      obtain ⟨i, hi⟩ := sent?_isSome_iff.mp (Option.isSome_of_eq_some hs)
      exact ⟨⟨i, hi, fun k hk => hk.lastWrite.unique hi.lastWrite⟩, lastPut_of_sent? hd hj hs⟩
    · rintro ⟨⟨i, hi, _⟩, hput⟩
      obtain ⟨sent, hs⟩ := Option.isSome_iff_exists.mp (sent?_isSome_iff.mpr ⟨i, hi⟩)
      rw [hs, ← lastPut_of_sent? hd hj hs, hput]
  · intro i j hj hi hnone
    obtain ⟨byte, hw⟩ := Option.isSome_iff_exists.mp hi.wrote
    obtain ⟨sent, hs⟩ := Option.isSome_iff_exists.mp (sent?_isSome_iff.mpr ⟨i, hi⟩)
    rw [hs, hw, ← lastPut_of_sent? hd hj hs]
    exact lastPut_of_put? (Nat.lt_succ_of_lt hi.lt) (put?_of_wrote? hw) fun l hl hlj =>
      hnone l hl (Nat.le_of_lt_succ hlj)
  · intro h
    rw [sentBytes_state]
    exact (sent_sublist_wrote h).1

/-- Sends the byte after the one in the buffer, in the twelve cycles that the fastest timer gives.
-/
def sendNext : Program :=
  .ofLines [
    some ⟨none, some .cpl, [.direct (.sfr Sfr.tmod)], 0⟩,
    some ⟨none, some .cpl, [.direct (.sfr Sfr.th1)], 1⟩,
    some ⟨none, some .setb, [.bit (.named 0x8E)], 2⟩,
    some ⟨none, some .inc, [.direct (.sfr Sfr.sbuf)], 3⟩,
    some ⟨none, some .mul, [.ab], 4⟩,
    some ⟨none, some .mul, [.ab], 5⟩,
    some ⟨none, some .mul, [.ab], 6⟩]

/-- A byte comes in before the program writes. -/
def early : Session where
  start := (Simulator.new {}).load sendNext
  stimulus n := if n = 0 then .receive 0x40 else .step
  loaded := ⟨_, _, .inl ⟨_, rfl⟩⟩

theorem early_sends_what_it_wrote :
    early.KeepsBuffer 8 ∧ (early.state 8).sentBytes = [0x41] ∧
      (early.state 8).sentBytes <+ (List.range 8).filterMap early.wrote? := by
  obtain ⟨hkeep, hsent, hwrote, hput⟩ :
      early.KeepsBuffer 8 ∧ (early.state 8).sentBytes = [0x41] ∧
        (∀ i < 8, (early.wrote? i).isSome = true → i = 4) ∧
          ∀ l < 8, 4 < l → early.put? l = none := by
    decide +kernel
  obtain ⟨_, _, hundisturbed, _, hsublist⟩ := sends_what_was_last_put early 8 hkeep
  refine ⟨hkeep, hsent, hsublist fun i j hj hi => ?_⟩
  obtain rfl := hwrote i (Nat.lt_trans hi.lt hj) hi.wrote
  exact hundisturbed 4 j hj hi fun l hl hlj => hput l (Nat.lt_of_le_of_lt hlj hj) hl

/-- A byte comes in while the transmission of `01H` is under way, four cycles before its end. -/
def overrun : Session where
  start := (Simulator.new {}).load sendNext
  stimulus n := if n = 6 then .receive 0x78 else .step
  loaded := ⟨_, _, .inl ⟨_, rfl⟩⟩

/-- The byte that came in goes out, and no instruction wrote it. -/
theorem overrun_sends_received_byte :
    overrun.KeepsBuffer 8 ∧ (List.range 8).filterMap overrun.wrote? = [0x01] ∧
      (overrun.state 8).sentBytes = [0x78] ∧
      ¬ (overrun.state 8).sentBytes <+ (List.range 8).filterMap overrun.wrote? := by
  obtain ⟨hkeep, hwrote, hsent⟩ :
      overrun.KeepsBuffer 8 ∧ (List.range 8).filterMap overrun.wrote? = [0x01] ∧
        (overrun.state 8).sentBytes = [0x78] := by
    decide +kernel
  refine ⟨hkeep, hwrote, hsent, ?_⟩
  rw [hwrote, hsent]
  decide

end Session
end Mcs51
