import Mcs51.Proofs.Footprint

/-!
# The flag table

Which instruction sets which bit of the status word, and to what. The first half is the footprint
of the instruction, cut down to one byte: a bit of the status word that is neither the operand
written nor under the stack can only be a flag, and `Effect.SetsFlag` says of each flag which
instructions have it. No instruction has the user flag, the two bits that select the bank, or the
bit without a meaning.

The second half is what the flags say of the operands, for the instructions whose flags are not
those of an addition: `CJNE` compares, the rotations through the carry flag hand over a bit, and
`MUL` and `DIV` report a result that does not fit. There the status word is read after several
writes, so a flag is read as the bit that it is, past the writes of all others.
-/

namespace Mcs51

/-! ## 1. Flags as bits of memory -/

namespace Memory

variable (m : Memory)

theorem flag_psw (bit : Fin 8) :
    m.psw.flag (BitPlace.mask ⟨Sfr.psw, bit⟩) = m.bit ⟨Sfr.psw, bit⟩ := by
  have hmask := BitPlace.mask_ne_zero ⟨Sfr.psw, bit⟩
  rw [BitPlace.mask_eq] at hmask
  rw [bit_eq_getLsbD, Psw.flag, psw, BitPlace.mask_eq, BitVec.and_twoPow]
  cases (m.read Sfr.psw).getLsbD bit.val with
  | true => simp
  | false => simpa using hmask.symm

theorem cy_psw : m.psw.cy = m.bit ⟨Sfr.psw, 7⟩ := by
  rw [← flag_psw, ← Psw.cyMask_eq, Psw.cy]

theorem ac_psw : m.psw.ac = m.bit ⟨Sfr.psw, 6⟩ := by
  rw [← flag_psw, ← Psw.acMask_eq, Psw.ac]

theorem ov_psw : m.psw.ov = m.bit ⟨Sfr.psw, 2⟩ := by
  rw [← flag_psw, ← Psw.ovMask_eq, Psw.ov]

theorem p_psw : m.psw.p = m.bit ⟨Sfr.psw, 0⟩ := by
  rw [← flag_psw, ← Psw.pMask_eq, Psw.p]

/-- The two bits that select the bank are all that the bank depends on. -/
theorem bank_psw :
    m.psw.bank = (if m.bit ⟨Sfr.psw, 4⟩ then 2 else 0) + if m.bit ⟨Sfr.psw, 3⟩ then 1 else 0 := by
  have h : ∀ b : Byte, (b &&& Psw.bankMask) >>> 3 =
      (if b.getLsbD 4 then 2 else 0) + if b.getLsbD 3 then 1 else 0 := by decide +kernel
  rw [bit_eq_getLsbD, bit_eq_getLsbD]
  exact h _

theorem cy_setCarry (on : Bool) : (m.setCarry on).psw.cy = on := by
  rw [cy_psw, setCarry, bit_setFlag Psw.cyMask_eq, if_pos rfl]

end Memory

namespace Effect

variable {symbols : Symbols} {m : Memory} {mnemonic : Mnemonic} {ops : List Operand}

/-! ## 2. Which flags an instruction has -/

/-- The instruction sets the flag at a place of the status word. -/
def SetsFlag (m : Memory) (mnemonic : Mnemonic) (ops : List Operand) (bit : Fin 8) : Prop :=
  match bit with
  | 7 => mnemonic ∈ setsCarry
  | 6 => mnemonic ∈ setsHalfCarry
  | 2 => mnemonic ∈ setsOverflow
  | 0 => writesAcc m mnemonic ops = true
  | _ => False

/-- A bit of the status word that an instruction touches is a flag that it sets, if it is not where
the operand or the stack goes. -/
theorem setsFlag_of_touches {place : BitPlace} (h : Touches symbols m mnemonic ops place)
    (hpsw : place.byte = Sfr.psw) (hdst : ¬ Reaches symbols m mnemonic ops place)
    (hslots : Sfr.psw ∉ pushedTo m mnemonic) : SetsFlag m mnemonic ops place.bit := by
  cases h with
  | destination hreach => exact absurd hreach hdst
  | parity hw => exact hw
  | carry hmem | halfCarry hmem | overflow hmem => exact hmem
  | slot hslot => exact absurd (hpsw ▸ hslot) hslots
  | pointer _ _ hplace =>
    rw [hpsw] at hplace
    exact absurd hplace (by decide)
  -- The accumulator, `B` and the stack pointer are other bytes.
  | acc | b | stackPointer => exact nomatch hpsw

/-! ## 3. What the flags say -/

theorem cy_setAcc (e : Effect) (value : Byte) : (e.setAcc value).mem.psw.cy = e.mem.psw.cy := by
  have hparity : (e.mem.setAcc value).refreshParity.psw.cy = (e.mem.setAcc value).psw.cy := by
    rw [Memory.cy_psw, Memory.refreshParity, Memory.bit_setFlag Psw.pMask_eq,
      if_neg (by decide), ← Memory.cy_psw]
  exact hparity.trans (congrArg Psw.cy (e.mem.psw_setAcc value))

theorem productFlags_psw (overflow : Bool) (m' : Memory) :
    (productFlags overflow m').psw.cy = false ∧ (productFlags overflow m').psw.ov = overflow := by
  constructor
  · rw [Memory.cy_psw, productFlags, Memory.bit_setFlag Psw.ovMask_eq, if_neg (by decide),
      ← Memory.cy_psw]
    exact m'.cy_setCarry false
  · rw [Memory.ov_psw, productFlags, Memory.bit_setFlag Psw.ovMask_eq, if_pos rfl]

theorem cy_rotateThroughCarry (value : Byte) (out : Bool) :
    (rotateThroughCarry m value out).mem.psw.cy = out := by
  rw [rotateThroughCarry, cy_setAcc]
  exact m.cy_setCarry out

theorem highByte_bne_zero (w : Word) : (highByte w != 0) = decide (0xFF < w.toNat) := by
  have hw := w.isLt
  have hhigh : (highByte w).toNat = w.toNat / 256 := by
    rw [highByte, BitVec.toNat_ofNat]
    omega
  rw [Bool.eq_iff_iff, bne_iff_ne, decide_eq_true_iff, ne_eq, ← BitVec.toNat_inj, hhigh]
  change ¬ w.toNat / 256 = 0 ↔ 0xFF < w.toNat
  omega

/-- A product overflows when it does not fit in one byte. -/
theorem multiply_psw :
    (multiply m).mem.psw.cy = false ∧
      (multiply m).mem.psw.ov = decide (0xFF < m.acc.toNat * m.b.toNat) := by
  have hproduct : (BitVec.ofNat 16 (m.acc.toNat * m.b.toNat)).toNat = m.acc.toNat * m.b.toNat := by
    have hle : m.acc.toNat * m.b.toNat ≤ 255 * 255 := by
      have hacc := m.acc.isLt
      have hb := m.b.isLt
      exact Nat.mul_le_mul (by omega) (by omega)
    rw [BitVec.toNat_ofNat]
    omega
  rw [← hproduct, ← highByte_bne_zero]
  exact productFlags_psw _ _

theorem divide_psw : (divide m).mem.psw.cy = false ∧ (divide m).mem.psw.ov = decide (m.b = 0) := by
  unfold divide
  split
  · next hb =>
    rw [decide_eq_true hb]
    exact productFlags_psw true m
  · next hb =>
    rw [decide_eq_false hb]
    exact productFlags_psw false _

end Effect

/-! ## 4. Executions -/

/-- What an instruction makes of the status word: each flag is changed only by the instructions that
have it, the other bits by none, and some flags are what their instruction says. -/
structure FlagTable (symbols : Symbols) (m : Memory) (mnemonic : Mnemonic) (ops : List Operand)
    (psw : Psw) : Prop where
  cy : psw.cy ≠ m.psw.cy → mnemonic ∈ Effect.setsCarry
  ac : psw.ac ≠ m.psw.ac → mnemonic ∈ Effect.setsHalfCarry
  ov : psw.ov ≠ m.psw.ov → mnemonic ∈ Effect.setsOverflow
  p : psw.p ≠ m.psw.p → Effect.writesAcc m mnemonic ops = true
  /-- The user flag, the two bits that select the bank, and the bit without a meaning. -/
  rest : ∀ i ∈ [5, 4, 3, 1], psw.bits.getLsbD i = m.psw.bits.getLsbD i
  bank : psw.bank = m.psw.bank
  compare : mnemonic = .cjne →
    psw.cy = decide (Operand.getByte symbols m ops[0]? < Operand.getByte symbols m ops[1]?)
  rotateLeft : mnemonic = .rlc → psw.cy = m.acc.getLsbD 7
  rotateRight : mnemonic = .rrc → psw.cy = m.acc.getLsbD 0
  multiply : mnemonic = .mul →
    psw.cy = false ∧ psw.ov = decide (0xFF < m.acc.toNat * m.b.toNat)
  divide : mnemonic = .div → psw.cy = false ∧ psw.ov = decide (m.b = 0)

namespace Machine

/-- **The flag table.** An execution whose operand is not in the status word, and which pushes
    nothing onto it, changes only the flags of its instruction. -/
theorem execute_follows_flag_table {m : Machine} {symbols : Symbols} {mnemonic : Mnemonic}
    {ops : List Operand} {done : Executed} (hdone : m.execute symbols mnemonic ops = .ok done)
    (hstack : mnemonic ∈ Effect.calls → m.mem.sp ≠ 0x80)
    (hdst : ∀ place, Effect.Reaches symbols m.mem mnemonic ops place → place.byte ≠ Sfr.psw)
    (hslots : Sfr.psw ∉ Effect.pushedTo m.mem mnemonic) :
    FlagTable symbols m.mem mnemonic ops done.machine.mem.psw := by
  obtain ⟨next, -, rfl⟩ := execute_ok_iff.mp hdone
  have hchanges := Effect.of_changesIn symbols m.mem mnemonic ops m.pc hstack
  generalize hafter : (Effect.of symbols m.mem mnemonic ops m.pc).mem = after at hchanges
  have hflag : ∀ i : Fin 8, after.bit ⟨Sfr.psw, i⟩ ≠ m.mem.bit ⟨Sfr.psw, i⟩ →
      Effect.SetsFlag m.mem mnemonic ops i := by
    intro i hne
    exact Effect.setsFlag_of_touches (hchanges.mem_of_bit_ne hne) rfl (fun h => hdst _ h rfl) hslots
  have hkept : ∀ i : Fin 8, ¬ Effect.SetsFlag m.mem mnemonic ops i →
      after.bit ⟨Sfr.psw, i⟩ = m.mem.bit ⟨Sfr.psw, i⟩ := fun i => not_imp_comm.mp (hflag i)
  constructor
  case cy =>
    rw [Memory.cy_psw, Memory.cy_psw]
    exact hflag 7
  case ac =>
    rw [Memory.ac_psw, Memory.ac_psw]
    exact hflag 6
  case ov =>
    rw [Memory.ov_psw, Memory.ov_psw]
    exact hflag 2
  case p =>
    rw [Memory.p_psw, Memory.p_psw]
    exact hflag 0
  case bank => rw [Memory.bank_psw, Memory.bank_psw, hkept 4 id, hkept 3 id]
  case rest =>
    have hbits : ∀ i : Fin 8, ¬ Effect.SetsFlag m.mem mnemonic ops i →
        after.psw.bits.getLsbD i.val = m.mem.psw.bits.getLsbD i.val := by
      intro i hi
      have hbit := hkept i hi
      rwa [Memory.bit_eq_getLsbD, Memory.bit_eq_getLsbD] at hbit
    simp only [List.forall_mem_cons, List.not_mem_nil, false_implies, implies_true, and_true]
    exact ⟨hbits 5 id, hbits 4 id, hbits 3 id, hbits 1 id⟩
  all_goals
    rintro rfl
    subst hafter
  case compare => exact Memory.cy_setCarry _ _
  case rotateLeft | rotateRight => exact Effect.cy_rotateThroughCarry _ _
  case multiply => exact Effect.multiply_psw
  case divide => exact Effect.divide_psw

/-- All bits of the status word are set, and the stack ends two bytes below it. -/
def flagged : Machine :=
  ⟨(((Memory.zero.setSp 0xCE).write Sfr.psw 0xFF).setAcc 0x10).setB 0x10, 0, 0, .idle, false⟩

theorem read_flagged (addr : Byte) :
    flagged.mem.read addr =
      if addr = Sfr.b then 0x10
      else if addr = Sfr.acc then 0x10
      else if addr = Sfr.psw then 0xFF
      else if addr = Sfr.sp then 0xCE
      else 0 := by
  simp only [flagged, Memory.setB, Memory.setAcc, Memory.setSp, Memory.read_write,
    Memory.read_zero, eq_comm (b := addr)]

/-- A push next to the status word leaves it alone. A product of 100H gives up the carry flag, keeps
the overflow flag and stays in the bank. -/
theorem flagged_follows_flag_table :
    (∃ done, flagged.execute ∅ .push [.acc] = .ok done ∧
      done.machine.mem.psw.cy = true ∧ done.machine.mem.psw.bank = 3) ∧
    ∃ done, flagged.execute ∅ .mul [.ab] = .ok done ∧
      done.machine.mem.psw.cy = false ∧ done.machine.mem.psw.ov = true ∧
        done.machine.mem.psw.bank = 3 := by
  have hsp : flagged.mem.sp = 0xCE := read_flagged Sfr.sp
  have hpsw : flagged.mem.psw = ⟨0xFF⟩ := congrArg Psw.mk (read_flagged Sfr.psw)
  have hcy : flagged.mem.psw.cy = true := hpsw ▸ rfl
  have hbank : flagged.mem.psw.bank = 3 := hpsw ▸ rfl
  have hacc : flagged.mem.acc = 0x10 := read_flagged Sfr.acc
  have hb : flagged.mem.b = 0x10 := read_flagged Sfr.b
  have hproduct : decide (0xFF < flagged.mem.acc.toNat * flagged.mem.b.toNat) = true := by
    rw [hacc, hb]
    rfl
  constructor
  · have htable := execute_follows_flag_table
      (rfl : flagged.execute ∅ .push [.acc] = .ok _) (by decide)
      (fun place h => absurd h (Effect.not_reaches rfl rfl place))
      (by rw [Effect.pushedTo, hsp]; decide)
    refine ⟨_, rfl, ?_, htable.bank.trans hbank⟩
    rw [← hcy]
    exact not_imp_comm.mp htable.cy (by decide)
  · have htable := execute_follows_flag_table
      (rfl : flagged.execute ∅ .mul [.ab] = .ok _) (by decide)
      (fun place h => absurd h (Effect.not_reaches rfl rfl place)) (by decide)
    obtain ⟨hcarry, hoverflow⟩ := htable.multiply rfl
    exact ⟨_, rfl, hcarry, hoverflow.trans hproduct, htable.bank.trans hbank⟩

end Machine
end Mcs51
