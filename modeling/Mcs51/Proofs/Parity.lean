import Mathlib.Algebra.Ring.Parity
import Mathlib.Data.Finset.Card
import Mathlib.Data.Fintype.Basic
import Mcs51.Proofs.NextStep
import Mcs51.Proofs.Spelling

/-!
# Parity follows the accumulator

The parity flag of the status word is brought up to date in two places. A write to the operand `A`
does it at once and says so (`Effect.parityDone`); an accumulator that has changed in any other way
is seen to after the instruction. What could go wrong is in between: an instruction that says it has
seen to parity could still write the accumulator or the status word behind that.

`Effect.Fits` is that none does, and it holds of every instruction (`Effect.of_fits`). Which
instructions say so is told without looking at the effect by `Effect.of_parityDone`: those that
compute into the accumulator, and those that have `A` as the byte they write. Nothing that happens
around an instruction reaches the accumulator or the status word, other than the bytes that an
interrupt pushes.
-/

namespace Mcs51

/-! ## 1. The flag -/

/-- The places at which a byte has a one. -/
def oneBits (b : Byte) : Finset (Fin 8) := {i | b.getLsbD i.val = true}

/-- Parity tells an odd number of one bits from an even one. -/
theorem parity_eq_true_iff (b : Byte) : parity b = true ↔ Odd (oneBits b).card := by
  revert b
  decide +kernel

namespace Psw

theorem p_eq_getLsbD (psw : Psw) : psw.p = psw.bits.getLsbD 0 := by
  have h : ∀ b : Byte, (b &&& pMask == pMask) = b.getLsbD 0 := by decide +kernel
  exact h psw.bits

theorem p_setFlag_p (psw : Psw) (on : Bool) : (psw.setFlag pMask on).p = on := by
  rw [p_eq_getLsbD, setFlag]
  cases on <;> simp

theorem p_setFlag_of_not {mask : Byte} (h : mask.getLsbD 0 = false) (psw : Psw) (on : Bool) :
    (psw.setFlag mask on).p = psw.p := by
  rw [p_eq_getLsbD, p_eq_getLsbD, setFlag]
  cases on with
  | true => rw [if_pos rfl, BitVec.getLsbD_or, h, Bool.or_false]
  | false =>
    rw [if_neg Bool.false_ne_true, BitVec.getLsbD_and, BitVec.getLsbD_not, h]
    simp

end Psw

namespace Memory

/-- The parity flag is that of the accumulator: the lowest bit of the status word is one just if the
accumulator has an odd number of ones. -/
def ParityFits (m : Memory) : Prop :=
  (m.read Sfr.psw).getLsbD 0 = true ↔ Odd (oneBits (m.read Sfr.acc)).card

variable {m m' : Memory}

theorem parityFits_iff : m.ParityFits ↔ m.psw.p = parity m.acc := by
  have hp : m.psw.p = (m.read Sfr.psw).getLsbD 0 := m.psw.p_eq_getLsbD
  rw [ParityFits, ← parity_eq_true_iff, hp]
  exact Bool.eq_iff_iff.symm

theorem refreshParity_fits (m : Memory) : m.refreshParity.ParityFits := by
  rw [parityFits_iff, refreshParity, setFlag, psw_setPsw, acc_setPsw, Psw.p_setFlag_p]

theorem ParityFits.of_read (h : m.ParityFits) (hacc : m'.read Sfr.acc = m.read Sfr.acc)
    (hpsw : m'.read Sfr.psw = m.read Sfr.psw) : m'.ParityFits := by
  rw [ParityFits, hacc, hpsw]
  exact h

theorem ParityFits.setFlag (h : m.ParityFits) {mask : Byte} (hmask : mask.getLsbD 0 = false)
    (on : Bool) : (m.setFlag mask on).ParityFits := by
  rw [parityFits_iff] at h ⊢
  rw [Memory.setFlag, psw_setPsw, acc_setPsw, Psw.p_setFlag_of_not hmask]
  exact h

theorem ParityFits.setB (h : m.ParityFits) (value : Byte) : (m.setB value).ParityFits :=
  h.of_read (m.read_write_of_ne value (by decide)) (m.read_write_of_ne value (by decide))

end Memory

/-! ## 2. What an instruction says of parity -/

namespace Effect

/-- Whether an instruction computes into the accumulator, whatever its operands are; clearing and
complementing do so if the accumulator is what they are given. A division by zero computes
nothing. -/
def computesAcc (m : Memory) (mnemonic : Mnemonic) (ops : List Operand) : Bool :=
  match mnemonic with
  | .add | .addc | .subb | .mul | .rl | .rlc | .rr | .rrc | .swap | .xch => true
  | .div => m.b ≠ 0
  | .clr | .cpl => ops[0]? = some .acc
  | _ => false

/-- Whether an instruction writes the accumulator by name, or computes into it. -/
def writesAcc (m : Memory) (mnemonic : Mnemonic) (ops : List Operand) : Bool :=
  computesAcc m mnemonic ops || byteDestination mnemonic ops == some .acc

/-- An effect that says it has seen to parity has. -/
def Fits (e : Effect) : Prop := e.parityDone = true → e.mem.ParityFits

variable (symbols : Symbols) (m : Memory)

theorem setByte_parityDone (e : Effect) (op : Option Operand) (value : Byte) :
    (e.setByte symbols op value).parityDone = (e.parityDone || op == some .acc) := by
  cases op with
  | none => simp [setByte]
  | some op =>
    cases op with
    | acc => simp [setByte, setAcc]
    | bit b => simp [setByte, onMemory]
    | ab | dptr | immediate | notBit => simp [setByte, Operand.byteAddr?]
    | register | indirect => simp [setByte, Operand.byteAddr?, write]
    | direct d =>
      simp only [setByte, Operand.byteAddr?]
      cases d.addr? symbols with
      | none => simp
      | some addr => simp [write]

theorem setByte_ofMemory_parityDone (op : Option Operand) (value : Byte) :
    ((ofMemory m).setByte symbols op value).parityDone = (op == some .acc) :=
  setByte_parityDone symbols (ofMemory m) op value

theorem move_parityDone (dst src : Option Operand) :
    (move symbols m dst src).parityDone = (moveDestination dst src == some .acc) := by
  unfold move
  split
  · unfold moveDestination
    split <;> rfl
  · unfold moveDestination
    split <;> rfl
  · rfl
  · rename_i hbit
    rw [setByte_ofMemory_parityDone, moveDestination_eq_dst hbit]

theorem count_parityDone (dst : Option Operand) (byteStep : Byte → Byte)
    (wordStep : Word → Word) :
    (count symbols m dst byteStep wordStep).parityDone = (dst == some .acc) := by
  unfold count
  split
  · rfl
  · exact setByte_ofMemory_parityDone symbols m _ _

theorem logic_parityDone (dst src : Option Operand) (onBit : Bool → Bool → Bool)
    (onByte : Byte → Byte → Byte) :
    (logic symbols m dst src onBit onByte).parityDone = (dst == some .acc) := by
  unfold logic
  split
  · rename_i hdst
    rw [hdst]
    rfl
  · exact setByte_ofMemory_parityDone symbols m _ _

theorem complement_parityDone (dst : Option Operand) :
    (complement symbols m dst).parityDone = (dst == some .acc) := by
  unfold complement
  split
  · rfl
  · rfl
  · split
    · rfl
    · exact setByte_ofMemory_parityDone symbols m _ _
  · exact setByte_ofMemory_parityDone symbols m _ _

theorem complementDestination_eq_acc (dst : Option Operand) :
    (complementDestination dst == some .acc) = (dst == some .acc) := by
  unfold complementDestination
  split
  · split <;> rfl
  · rfl

/-- **Which instructions say that they have seen to parity.** -/
theorem of_parityDone (mnemonic : Mnemonic) (ops : List Operand) (pc : Nat) :
    (of symbols m mnemonic ops pc).parityDone = writesAcc m mnemonic ops := by
  unfold writesAcc
  cases mnemonic <;> simp only [of, byteDestination, computesAcc, Bool.false_or, Bool.true_or]
  case mov => exact move_parityDone symbols m _ _
  case inc | dec => exact count_parityDone symbols m _ _ _
  case anl | orl | xrl => exact logic_parityDone symbols m _ _ _ _
  case djnz => exact setByte_ofMemory_parityDone symbols m _ _
  case pop => exact setByte_parityDone symbols _ _ _
  case cpl =>
    rw [complement_parityDone, complementDestination_eq_acc]
    simp
  case clr =>
    unfold clear
    split
    · rename_i hdst
      simp [hdst, setAcc]
    · rename_i hdst
      have hdst : ops[0]? ≠ some .acc := hdst
      simp [hdst, ofMemory]
  case div =>
    unfold divide
    split
    · rename_i hb
      simp [hb, ofMemory, onMemory]
    · rename_i hb
      have hb : m.b ≠ 0#8 := hb
      simp [hb, onMemory, setAcc]
  case jbc =>
    unfold clearIfSet
    split <;> rfl
  -- What is left computes into the accumulator always, or never writes it by its name.
  all_goals rfl

/-! ## 3. Nothing is written behind that -/

variable {m}

theorem setAcc_fits (e : Effect) (value : Byte) : (e.setAcc value).mem.ParityFits :=
  Memory.refreshParity_fits _

theorem fits_of_not_parityDone {e : Effect} (h : e.parityDone = false) : e.Fits := by
  intro hdone
  rw [h] at hdone
  exact nomatch hdone

/-- Of the operands `A` alone sees to parity, and nothing comes after it. -/
theorem setByte_fits {e : Effect} (h : e.parityDone = false) (op : Option Operand) (value : Byte) :
    (e.setByte symbols op value).Fits := by
  intro hdone
  rw [setByte_parityDone, h, Bool.false_or, beq_iff_eq] at hdone
  subst hdone
  exact setAcc_fits e value

theorem productFlags_fits (h : m.ParityFits) (overflow : Bool) :
    (productFlags overflow m).ParityFits :=
  (h.setFlag rfl false).setFlag rfl overflow

/-- **An instruction that says it has seen to parity has.** -/
theorem of_fits (mnemonic : Mnemonic) (ops : List Operand) (pc : Nat) :
    (of symbols m mnemonic ops pc).Fits := by
  cases mnemonic <;> simp only [of]
  case mov =>
    unfold move
    split
    · exact fits_of_not_parityDone rfl
    · exact fits_of_not_parityDone rfl
    · exact fits_of_not_parityDone rfl
    · exact setByte_fits symbols rfl _ _
  case inc | dec =>
    unfold count
    split
    · exact fits_of_not_parityDone rfl
    · exact setByte_fits symbols rfl _ _
  case anl | orl | xrl =>
    unfold logic
    split
    · exact fits_of_not_parityDone rfl
    · exact setByte_fits symbols rfl _ _
  case cpl =>
    unfold complement
    split
    · exact fun _ => setAcc_fits _ _
    · exact fits_of_not_parityDone rfl
    · split
      · exact fits_of_not_parityDone rfl
      · exact setByte_fits symbols rfl _ _
    · exact setByte_fits symbols rfl _ _
  case clr =>
    unfold clear
    split
    · exact fun _ => setAcc_fits _ _
    · exact fits_of_not_parityDone rfl
  case jbc =>
    unfold clearIfSet
    split <;> exact fits_of_not_parityDone rfl
  case djnz | pop => exact setByte_fits symbols rfl _ _
  case mul => exact fun _ => productFlags_fits (setAcc_fits _ _) _
  case div =>
    unfold divide
    split
    · exact fits_of_not_parityDone rfl
    · exact fun _ => productFlags_fits ((setAcc_fits _ _).setB _) _
  case add | addc | subb | rl | rr | swap | rlc | rrc | xch => exact fun _ => setAcc_fits _ _
  all_goals exact fits_of_not_parityDone rfl

/-! ## 4. A whole step -/

theorem settled_acc (before : Byte) (e : Effect) : (e.settled before).acc = e.mem.acc := by
  unfold settled
  split
  · exact Memory.acc_setPsw _ _
  · rfl

theorem Fits.settled {e : Effect} (h : e.Fits) {before : Byte}
    (hacc : e.parityDone = true ∨ e.mem.acc ≠ before) : (e.settled before).ParityFits := by
  unfold Effect.settled
  cases hdone : e.parityDone with
  | true => exact h hdone
  | false =>
    have hne : e.mem.acc ≠ before := hacc.resolve_left (by simp [hdone])
    simp only [Bool.not_false, Bool.true_and, hne, ne_eq, not_false_eq_true, decide_true, if_true]
    exact Memory.refreshParity_fits _

end Effect

namespace Simulator

variable {s : Simulator} {e : Execution}

/-- The instruction of a step writes the accumulator by name, or computes into it. -/
def Execution.writesAcc (e : Execution) (m : Memory) : Bool :=
  Effect.writesAcc m e.mnemonic e.line.operands

/-- The machine after the instruction, with parity seen to, as the effect has it. -/
theorem followAcc_mem (h : s.executes? = some e) :
    (Machine.followAcc s.machine.mem.acc e.done).mem =
      (Effect.of s.program.symbols s.machine.mem e.mnemonic e.line.operands s.machine.pc).settled
        s.machine.mem.acc := by
  obtain ⟨_, _, hdone⟩ := executes?_eq_some_iff.mp h
  obtain ⟨next, _, hdone⟩ := Machine.execute_ok_iff.mp hdone
  rw [hdone]
  exact congrArg Machine.mem (Machine.followAcc_eq _ { s.machine with
    pc := next, inInterrupt := s.machine.inInterrupt && e.mnemonic ≠ .reti } _)

/-- Neither the peripherals nor an interrupt that pushes elsewhere reach the accumulator and the
    status word. -/
theorem step_read_of_stack (h : s.executes? = some e)
    (hstack : s.interrupt?.isSome = true →
      ∀ slot ∈ (s.advanced e).machine.mem.wordSlots, slot ∉ [Sfr.acc, Sfr.psw, Sfr.sp])
    {addr : Byte} (haddr : addr ∈ [Sfr.acc, Sfr.psw]) :
    s.step.2.machine.mem.read addr =
      (Machine.followAcc s.machine.mem.acc e.done).mem.read addr := by
  have htimer : ∀ a ∈ Timer.written, a ≠ addr := by
    revert haddr addr
    decide
  have hother : Sfr.scon ≠ addr ∧ Sfr.sp ≠ addr ∧ Sfr.tcon ≠ addr := by
    revert haddr addr
    decide
  obtain ⟨hscon, hsp, htcon⟩ := hother
  have hadvanced : (s.advanced e).machine.mem.read addr = _ :=
    Machine.advance_read_of_ne _ _ _ htimer hscon
  rw [← hadvanced, (step_of_executes?_eq_some h).1]
  cases hdue : (s.advanced e).machine.dueInterrupt with
  | none => rw [Machine.takeInterrupt_of_none hdue]
  | some i =>
    have hslots := hstack (by rw [interrupt?_of_executes? h, hdue]; rfl)
    rw [Machine.takeInterrupt_of_due hdue]
    refine Machine.enter_read_of_ne _ i _ ?_ hsp htcon ?_
    · intro hmem
      exact hslots _ hmem (by decide)
    · intro hmem
      exact hslots _ hmem (List.mem_append_left [Sfr.sp] haddr)

/-- **Parity follows the accumulator.** After a step that executes an instruction, and takes no
    interrupt or one that pushes on none of the accumulator, the status word and the stack pointer,
    the parity flag is that of the accumulator if the accumulator has changed or the instruction
    writes it: by `A`, or because it computes into it. That is, the lowest bit of the status word is
    one just if the accumulator has an odd number of ones. Toggling a bit of the accumulator from
    outside keeps the flag up as well. -/
theorem parity_follows_acc (s : Simulator) :
    (∀ e, s.executes? = some e →
      (s.interrupt?.isSome = true →
        ∀ slot ∈ (s.advanced e).machine.mem.wordSlots, slot ∉ [Sfr.acc, Sfr.psw, Sfr.sp]) →
      s.step.2.machine.mem.acc ≠ s.machine.mem.acc ∨ e.writesAcc s.machine.mem = true →
      s.step.2.machine.mem.ParityFits) ∧
    ∀ index, ∃ t, s.togglePin Sfr.acc index = .ok t ∧ t.machine.mem.ParityFits := by
  constructor
  · intro e h hstack hwrites
    have hacc : s.step.2.machine.mem.acc = _ := step_read_of_stack h hstack (by decide)
    have hpsw : s.step.2.machine.mem.read Sfr.psw = _ := step_read_of_stack h hstack (by decide)
    have hmem := followAcc_mem h
    refine Memory.ParityFits.of_read ?_ hacc hpsw
    rw [hmem]
    -- Either the effect says that it has seen to parity, or the accumulator differs.
    refine (Effect.of_fits _ _ _ _).settled ?_
    rcases hwrites with hchanged | hwrites
    · refine .inr ?_
      rw [hacc] at hchanged
      change (Machine.followAcc s.machine.mem.acc e.done).mem.acc ≠ _ at hchanged
      rwa [hmem, Effect.settled_acc] at hchanged
    · refine .inl ?_
      rw [Effect.of_parityDone]
      exact hwrites
  · intro index
    exact ⟨_, rfl, Memory.refreshParity_fits _⟩

/-- The stack is about to grow onto the accumulator, and timer 0 asks for its interrupt. -/
def pushing : Simulator :=
  let program := Program.ofLines [some ⟨none, some .push, [.direct (.expr "30H")], 0⟩]
  let clear : Memory := ⟨.replicate 256 0⟩
  let mem := (((clear.write Sfr.sp 0xDF).write 0x30 7).write Sfr.ie 0x82).write Sfr.tcon Sfr.tf0
  { new {} with program, machine := ⟨mem, 0, 0, .idle, false⟩ }

/-- The push is on the accumulator, and the interrupt pushes behind it. Seven has three ones, which
the flag says are an odd number. -/
theorem pushing_step_parity :
    pushing.interrupt? = some .timer0 ∧ pushing.step.2.machine.mem.read Sfr.acc = 7 ∧
      (oneBits 7).card = 3 ∧ (pushing.step.2.machine.mem.read Sfr.psw).getLsbD 0 = true := by
  have hsome : pushing.executes?.isSome = true := by decide +kernel
  have hslots : ∀ slot ∈ (pushing.advanced (pushing.executes?.get hsome)).machine.mem.wordSlots,
      slot ∉ [Sfr.acc, Sfr.psw, Sfr.sp] := by
    revert hsome
    decide +kernel
  have hbefore : pushing.machine.mem.acc = 0 := by decide +kernel
  have hafter : pushing.step.2.machine.mem.read Sfr.acc = 7 := by decide +kernel
  have hones : (oneBits 7).card = 3 := by decide
  have hchanged : pushing.step.2.machine.mem.acc ≠ pushing.machine.mem.acc := by
    rw [hbefore, Memory.acc, hafter]
    decide
  have hfits := (parity_follows_acc pushing).1 _ (Option.some_get hsome).symm (fun _ => hslots)
    (.inl hchanged)
  rw [Memory.ParityFits, hafter, hones] at hfits
  exact ⟨by decide +kernel, hafter, hones, hfits.mpr (by decide)⟩

end Simulator
end Mcs51
