import Mcs51.Proofs.BitInstructions
import Mcs51.Proofs.Parity
import Mcs51.Proofs.ReturnAddress

/-!
# The footprint of an instruction

An instruction changes memory in few places, and which ones can be told from its operands and from
the memory before it. `Effect.Touches` says so bit by bit, with one rule for each reason: the
destination operand, the accumulator with the parity flag, the other flags, `B`, the data pointer,
and the stack. `Effect.of_changesIn` says that nothing else changes.

Bits, and not bytes, because the flags share a byte with the two bits that select the register bank.
Whoever cares about bytes can forget the places, and whoever cares about flags has all that there is
to know (`Mcs51.Proofs.FlagTable`).

The proof is a calculus of changes. `Memory.ChangesIn` is kept by every write within the set, and it
composes, so an effect is taken apart into the writes that it is made of. The set is always that of
the memory before the instruction. Only `POP` and the calls write to a place that is found later:
the operand of `POP` is where it was (`byteAddr?_pop`), and the second slot of a call is where it
should be unless the first one is the stack pointer.
-/

namespace Mcs51

/-! ## 1. Changes within a set of bits -/

namespace Psw

theorem cyMask_eq : cyMask = BitPlace.mask ⟨Sfr.psw, 7⟩ := by decide

theorem acMask_eq : acMask = BitPlace.mask ⟨Sfr.psw, 6⟩ := by decide

theorem ovMask_eq : ovMask = BitPlace.mask ⟨Sfr.psw, 2⟩ := by decide

theorem pMask_eq : pMask = BitPlace.mask ⟨Sfr.psw, 0⟩ := by decide

end Psw

namespace Memory

variable {S : BitPlace → Prop} {m m' m'' : Memory}

/-- To set a flag is to set its bit of the status word. -/
theorem bit_setFlag {bit : Fin 8} {mask : Byte} (hmask : mask = BitPlace.mask ⟨Sfr.psw, bit⟩)
    (m : Memory) (on : Bool) (place : BitPlace) :
    (m.setFlag mask on).bit place = if place = ⟨Sfr.psw, bit⟩ then on else m.bit place := by
  subst hmask
  exact m.bit_setBit ⟨Sfr.psw, bit⟩ place on

/-- Every bit outside a set is the same in two memories. -/
def ChangesIn (S : BitPlace → Prop) (m m' : Memory) : Prop :=
  ∀ place, ¬ S place → m'.bit place = m.bit place

theorem bit_of_read_eq {place : BitPlace} (h : m'.read place.byte = m.read place.byte) :
    m'.bit place = m.bit place := by
  rw [bit, bit, h]

/-- A byte is its bits. -/
theorem read_eq_of_bits {addr : Byte} (h : ∀ bit, m'.bit ⟨addr, bit⟩ = m.bit ⟨addr, bit⟩) :
    m'.read addr = m.read addr := by
  apply BitVec.eq_of_getLsbD_eq
  intro i hi
  have hbit := h ⟨i, hi⟩
  rwa [bit_eq_getLsbD, bit_eq_getLsbD] at hbit

namespace ChangesIn

theorem refl (S : BitPlace → Prop) (m : Memory) : m.ChangesIn S m := fun _ _ => rfl

theorem trans (h : m.ChangesIn S m') (h' : m'.ChangesIn S m'') : m.ChangesIn S m'' :=
  fun place hplace => (h' place hplace).trans (h place hplace)

theorem mem_of_bit_ne (h : m.ChangesIn S m') {place : BitPlace}
    (hne : m'.bit place ≠ m.bit place) : S place := by
  by_contra hplace
  exact hne (h place hplace)

theorem exists_of_read_ne (h : m.ChangesIn S m') {addr : Byte}
    (hne : m'.read addr ≠ m.read addr) : ∃ bit, S ⟨addr, bit⟩ := by
  by_contra hnone
  rw [not_exists] at hnone
  exact hne (read_eq_of_bits fun bit => h _ (hnone bit))

theorem eq_of_empty (h : m.ChangesIn S m') (hempty : ∀ place, ¬ S place) : m' = m := by
  ext1 addr
  exact read_eq_of_bits fun bit => h _ (hempty _)

theorem write {addr : Byte} (hS : ∀ bit, S ⟨addr, bit⟩) (m : Memory) (value : Byte) :
    m.ChangesIn S (m.write addr value) := by
  intro place hplace
  apply bit_of_read_eq
  apply read_write_of_ne
  rintro rfl
  exact hplace (hS place.bit)

theorem setBit {loc : BitPlace} (hS : S loc) (m : Memory) (on : Bool) :
    m.ChangesIn S (m.setBit loc on) := by
  intro place hplace
  rw [bit_setBit, if_neg]
  rintro rfl
  exact hplace hS

theorem setFlag {bit : Fin 8} {mask : Byte} (hmask : mask = BitPlace.mask ⟨Sfr.psw, bit⟩)
    (hS : S ⟨Sfr.psw, bit⟩) (m : Memory) (on : Bool) : m.ChangesIn S (m.setFlag mask on) := by
  subst hmask
  exact setBit hS m on

theorem refreshParity (hS : S ⟨Sfr.psw, 0⟩) (m : Memory) : m.ChangesIn S m.refreshParity :=
  setFlag Psw.pMask_eq hS m _

theorem setDptr (hS : ∀ place : BitPlace, place.byte ∈ [Sfr.dph, Sfr.dpl] → S place) (m : Memory)
    (value : Word) : m.ChangesIn S (m.setDptr value) := by
  have hhigh : ∀ bit, S ⟨Sfr.dph, bit⟩ := fun bit => hS _ List.mem_cons_self
  have hlow : ∀ bit, S ⟨Sfr.dpl, bit⟩ := fun bit => hS _ (List.mem_cons_of_mem _ List.mem_cons_self)
  exact (write hhigh m _).trans (write hlow _ _)

theorem pop (hS : ∀ bit, S ⟨Sfr.sp, bit⟩) (m : Memory) : m.ChangesIn S m.pop := write hS m _

theorem push (hsp : ∀ bit, S ⟨Sfr.sp, bit⟩) (hslot : ∀ bit, S ⟨m.sp + 1, bit⟩) (value : Byte) :
    m.ChangesIn S (m.push value) :=
  (write hsp m _).trans (write hslot _ _)

theorem pushWord (hsp : ∀ bit, S ⟨Sfr.sp, bit⟩)
    (hslots : ∀ place : BitPlace, place.byte ∈ m.wordSlots → S place) (hfirst : m.sp + 1 ≠ Sfr.sp)
    (w : Word) : m.ChangesIn S (m.pushWord w) := by
  have hmoved : (m.push (highByte w)).sp = m.sp + 1 := m.sp_push _ hfirst
  have hhigh : ∀ bit, S ⟨m.sp + 1, bit⟩ := fun bit => hslots _ (mem_wordSlots.mpr (.inl rfl))
  have hlow : ∀ bit, S ⟨(m.push (highByte w)).sp + 1, bit⟩ := by
    intro bit
    rw [hmoved]
    exact hslots _ (mem_wordSlots.mpr (.inr rfl))
  exact (push hsp hhigh _).trans (push hsp hlow _)

end ChangesIn

end Memory

namespace Effect

/-! ## 2. What an instruction touches -/

theorem moveDestination_cases (dst src : Option Operand) :
    moveDestination dst src = none ∨ moveDestination dst src = dst := by
  unfold moveDestination
  split
  · exact .inl rfl
  · exact .inr rfl

/-- The operand that an instruction writes as a bit even if it is not written like one: in a move
from a bit, in the bit instructions, and in the complement of an expression that is a number. -/
def bitDestination (mnemonic : Mnemonic) (ops : List Operand) : Option Operand :=
  match mnemonic with
  | .clr | .setb | .jbc => ops[0]?
  | .mov | .cpl => if byteDestination mnemonic ops = none then ops[0]? else none
  | _ => none

/-- The instructions that give the carry flag a value of their own. -/
def setsCarry : List Mnemonic := [.add, .addc, .subb, .mul, .div, .rlc, .rrc, .cjne]

def setsHalfCarry : List Mnemonic := [.add, .addc, .subb]

def setsOverflow : List Mnemonic := [.add, .addc, .subb, .mul, .div]

/-- The instructions that store one operand and do nothing else to memory, flags of `A` apart. -/
def storing : List Mnemonic :=
  [.mov, .inc, .dec, .anl, .orl, .xrl, .clr, .setb, .cpl, .jbc, .djnz]

/-- The instructions that leave memory alone: jumps, directives, `NOP`, and words without a
meaning. -/
def idle : Mnemonic → Bool
  | .sjmp | .ljmp | .ajmp | .jmp | .jc | .jnc | .jz | .jnz | .jb | .jnb => true
  | .nop | .org | .equ | .endOfSource | .db | .other _ => true
  | _ => false

/-- Where the bytes go that an instruction pushes. -/
def pushedTo (m : Memory) : Mnemonic → List Byte
  | .push => [m.sp + 1]
  | .acall | .lcall | .call => m.wordSlots
  | _ => []

/-- The bits that the destination operand of an instruction stands for in a memory: all bits of the
byte that it addresses, or the bit that it is. -/
inductive Reaches (symbols : Symbols) (m : Memory) (mnemonic : Mnemonic) (ops : List Operand) :
    BitPlace → Prop
  | byte {op : Operand} {place : BitPlace} (hop : byteDestination mnemonic ops = some op)
      (haddr : op.byteAddr? symbols m = some place.byte) : Reaches symbols m mnemonic ops place
  | lowest {b : BitRef} {place : BitPlace} (hop : byteDestination mnemonic ops = some (.bit b))
      (hplace : b.place? symbols = some place) : Reaches symbols m mnemonic ops place
  | bit {op : Operand} {place : BitPlace} (hop : bitDestination mnemonic ops = some op)
      (hplace : op.bitPlace? symbols = some place) : Reaches symbols m mnemonic ops place

/-- The bits that an instruction can change, with the reason for each. -/
inductive Touches (symbols : Symbols) (m : Memory) (mnemonic : Mnemonic) (ops : List Operand) :
    BitPlace → Prop
  | destination {place : BitPlace} (h : Reaches symbols m mnemonic ops place) :
      Touches symbols m mnemonic ops place
  | acc (h : writesAcc m mnemonic ops = true) (bit : Fin 8) :
      Touches symbols m mnemonic ops ⟨Sfr.acc, bit⟩
  | parity (h : writesAcc m mnemonic ops = true) : Touches symbols m mnemonic ops ⟨Sfr.psw, 0⟩
  | carry (h : mnemonic ∈ setsCarry) : Touches symbols m mnemonic ops ⟨Sfr.psw, 7⟩
  | halfCarry (h : mnemonic ∈ setsHalfCarry) : Touches symbols m mnemonic ops ⟨Sfr.psw, 6⟩
  | overflow (h : mnemonic ∈ setsOverflow) : Touches symbols m mnemonic ops ⟨Sfr.psw, 2⟩
  | b (h : mnemonic ∈ [.mul, .div]) (bit : Fin 8) : Touches symbols m mnemonic ops ⟨Sfr.b, bit⟩
  | pointer {place : BitPlace} (h : mnemonic ∈ [.mov, .inc, .dec]) (hdst : ops[0]? = some .dptr)
      (hplace : place.byte ∈ [Sfr.dph, Sfr.dpl]) : Touches symbols m mnemonic ops place
  | stackPointer (h : mnemonic ∈ [.push, .pop, .ret, .reti, .acall, .lcall, .call]) (bit : Fin 8) :
      Touches symbols m mnemonic ops ⟨Sfr.sp, bit⟩
  | slot {place : BitPlace} (h : place.byte ∈ pushedTo m mnemonic) :
      Touches symbols m mnemonic ops place

/-! ## 3. Families of instructions -/

section
variable {S : BitPlace → Prop} {symbols : Symbols} {m : Memory} {mnemonic : Mnemonic}
  {ops : List Operand}

open Memory (ChangesIn)

theorem setAcc_changesIn (hacc : ∀ bit, S ⟨Sfr.acc, bit⟩) (hparity : S ⟨Sfr.psw, 0⟩) (e : Effect)
    (value : Byte) : e.mem.ChangesIn S (e.setAcc value).mem :=
  (ChangesIn.write hacc e.mem value).trans (.refreshParity hparity _)

theorem setBit_changesIn {op : Option Operand}
    (h : ∀ x place, op = some x → x.bitPlace? symbols = some place → S place) (m : Memory)
    (on : Bool) : m.ChangesIn S (Operand.setBit symbols op on m) := by
  unfold Operand.setBit
  split
  · next loc hloc =>
    obtain ⟨x, hx, hplace⟩ := Option.bind_eq_some_iff.mp hloc
    exact .setBit (h x loc hx hplace) m on
  · exact .refl S m

/-- A byte written to an operand: to a byte, or to the bit that the operand is. -/
theorem setByte_changesIn {op : Option Operand} (e : Effect)
    (hbyte : ∀ x place, op = some x → x.byteAddr? symbols e.mem = some place.byte → S place)
    (hbit : ∀ b place, op = some (.bit b) → b.place? symbols = some place → S place)
    (hparity : op = some .acc → S ⟨Sfr.psw, 0⟩) (value : Byte) :
    e.mem.ChangesIn S (e.setByte symbols op value).mem := by
  unfold setByte
  split
  · exact setAcc_changesIn (fun bit => hbyte .acc ⟨_, bit⟩ rfl rfl) (hparity rfl) e value
  · next b =>
    refine setBit_changesIn ?_ e.mem _
    rintro x place ⟨rfl⟩ hplace
    exact hbit b place rfl hplace
  · next x _ _ =>
    split
    · next addr haddr => exact .write (fun bit => hbyte x ⟨addr, bit⟩ rfl haddr) e.mem value
    · exact .refl S e.mem
  · exact .refl S e.mem

/-- The operand that an instruction writes as a byte, written by it. -/
theorem setByte_touches {op : Option Operand} (hop : byteDestination mnemonic ops = op) (e : Effect)
    (haddr : ∀ x : Operand, x.byteAddr? symbols e.mem = x.byteAddr? symbols m) (value : Byte) :
    e.mem.ChangesIn (Touches symbols m mnemonic ops) (e.setByte symbols op value).mem := by
  subst hop
  refine setByte_changesIn e ?_ ?_ ?_ value
  · intro x place hx hplace
    rw [haddr] at hplace
    exact .destination (.byte hx hplace)
  · intro b place hb hplace
    exact .destination (.lowest hb hplace)
  · intro hacc
    refine .parity ?_
    rw [writesAcc, hacc]
    simp

theorem setBit_touches {op : Option Operand} (hop : bitDestination mnemonic ops = op) (on : Bool) :
    m.ChangesIn (Touches symbols m mnemonic ops) (Operand.setBit symbols op on m) := by
  subst hop
  refine setBit_changesIn ?_ m on
  intro x place hx hplace
  exact .destination (.bit hx hplace)

theorem setAcc_touches (h : writesAcc m mnemonic ops = true) (e : Effect) (value : Byte) :
    e.mem.ChangesIn (Touches symbols m mnemonic ops) (e.setAcc value).mem :=
  setAcc_changesIn (Touches.acc h) (.parity h) e value

theorem setCarry_touches (h : mnemonic ∈ setsCarry) (m' : Memory) (on : Bool) :
    m'.ChangesIn (Touches symbols m mnemonic ops) (m'.setCarry on) :=
  .setFlag Psw.cyMask_eq (.carry h) m' on

theorem setOverflow_touches (h : mnemonic ∈ setsOverflow) (m' : Memory) (on : Bool) :
    m'.ChangesIn (Touches symbols m mnemonic ops) (m'.setFlag Psw.ovMask on) :=
  .setFlag Psw.ovMask_eq (.overflow h) m' on

/-- Additions and subtractions set all three flags and compute into the accumulator. -/
theorem arithmetic_touches (h : mnemonic ∈ setsHalfCarry) (out : Alu.Output) :
    m.ChangesIn (Touches symbols m mnemonic ops) (arithmetic m out).mem := by
  have hcarry : mnemonic ∈ setsCarry := (by decide : setsHalfCarry ⊆ setsCarry) h
  have hoverflow : mnemonic ∈ setsOverflow := (by decide : setsHalfCarry ⊆ setsOverflow) h
  have hacc : writesAcc m mnemonic ops = true := by
    simp only [setsHalfCarry, List.mem_cons, List.not_mem_nil, or_false] at h
    rcases h with rfl | rfl | rfl <;> rfl
  -- The writes in order, the last one first.
  refine .trans ?_ (setAcc_touches hacc (ofMemory (setAluFlags m out)) out.value)
  refine .trans ?_ (setOverflow_touches hoverflow _ out.overflow)
  refine .trans ?_ (.setFlag Psw.acMask_eq (.halfCarry h) _ out.halfCarry)
  exact setCarry_touches hcarry m out.carry

theorem productFlags_touches (hcarry : mnemonic ∈ setsCarry) (hoverflow : mnemonic ∈ setsOverflow)
    (overflow : Bool) (m' : Memory) :
    m'.ChangesIn (Touches symbols m mnemonic ops) (productFlags overflow m') :=
  (setCarry_touches hcarry m' false).trans (setOverflow_touches hoverflow _ _)

theorem multiply_touches : m.ChangesIn (Touches symbols m .mul ops) (multiply m).mem := by
  refine .trans ?_ (productFlags_touches (by decide) (by decide) _ _)
  refine .trans ?_ (setAcc_touches rfl (ofMemory (m.setB _)) _)
  exact .write (.b (by decide)) m _

theorem divide_touches : m.ChangesIn (Touches symbols m .div ops) (divide m).mem := by
  unfold divide
  split
  · exact productFlags_touches (by decide) (by decide) true m
  · next hb =>
    have hacc : writesAcc m .div ops = true := by
      have hb : m.b ≠ 0#8 := hb
      simp [writesAcc, computesAcc, hb]
    refine .trans ?_ (productFlags_touches (by decide) (by decide) false _)
    refine .trans ?_ (.write (.b (by decide)) _ (m.acc % m.b))
    exact setAcc_touches hacc (ofMemory m) _

theorem rotateThroughCarry_touches (hcarry : mnemonic ∈ setsCarry)
    (hacc : writesAcc m mnemonic ops = true) (value : Byte) (out : Bool) :
    m.ChangesIn (Touches symbols m mnemonic ops) (rotateThroughCarry m value out).mem :=
  (setCarry_touches hcarry m out).trans (setAcc_touches hacc _ value)

/-- A bit that a move or a complement writes: the operand is none of its bytes, or is a bit itself.
-/
theorem setBit_touches_of_sorted (h : mnemonic ∈ [.mov, .cpl])
    (hdst : byteDestination mnemonic ops = none ∨
      byteDestination mnemonic ops = ops[0]? ∧ ∃ b, ops[0]? = some (.bit b)) (on : Bool) :
    m.ChangesIn (Touches symbols m mnemonic ops) (Operand.setBit symbols ops[0]? on m) := by
  refine setBit_changesIn ?_ m on
  intro x place hx hplace
  rcases hdst with hnone | ⟨hdst, b, hb⟩
  · have hbit : bitDestination mnemonic ops = some x := by
      simp only [List.mem_cons, List.not_mem_nil, or_false] at h
      rcases h with rfl | rfl <;> exact (if_pos hnone).trans hx
    exact .destination (.bit hbit hplace)
  · obtain rfl := Option.some.inj (hb.symm.trans hx)
    exact .destination (.lowest (hdst.trans hb) hplace)

theorem move_touches :
    m.ChangesIn (Touches symbols m .mov ops) (move symbols m ops[0]? ops[1]?).mem := by
  have hdst : byteDestination .mov ops = moveDestination ops[0]? ops[1]? := rfl
  unfold move
  split
  · next hptr => exact .setDptr (fun place hplace => .pointer (by decide) hptr hplace) m _
  · next b hb =>
    refine setBit_touches_of_sorted (by decide) ?_ _
    exact (moveDestination_cases ops[0]? ops[1]?).imp_right fun h => ⟨h, b, hb⟩
  · next hsrc _ _ =>
    refine setBit_touches_of_sorted (by decide) (.inl ?_) _
    rw [hdst, hsrc]
    rfl
  · next hsrc =>
    rw [moveDestination_eq_dst hsrc] at hdst
    exact setByte_touches hdst (ofMemory m) (fun _ => rfl) _

theorem count_touches (h : mnemonic ∈ [.inc, .dec]) (byteStep : Byte → Byte)
    (wordStep : Word → Word) :
    m.ChangesIn (Touches symbols m mnemonic ops)
      (count symbols m ops[0]? byteStep wordStep).mem := by
  have hdst : byteDestination mnemonic ops = ops[0]? := by
    simp only [List.mem_cons, List.not_mem_nil, or_false] at h
    rcases h with rfl | rfl <;> rfl
  unfold count
  split
  · next hdptr =>
    exact .setDptr (fun place hplace => .pointer (List.mem_cons_of_mem _ h) hdptr hplace) m _
  · exact setByte_touches hdst (ofMemory m) (fun _ => rfl) _

/-- Logic on the carry flag has it as its destination. -/
theorem logic_touches (hdst : byteDestination mnemonic ops = ops[0]?)
    (onBit : Bool → Bool → Bool) (onByte : Byte → Byte → Byte) :
    m.ChangesIn (Touches symbols m mnemonic ops)
      (logic symbols m ops[0]? ops[1]? onBit onByte).mem := by
  unfold logic
  split
  · next hcarry =>
    have hplace : (BitRef.named Sfr.carryBit).place? symbols = some ⟨Sfr.psw, 7⟩ := by
      rw [BitRef.place?]
      decide
    exact .setFlag Psw.cyMask_eq (.destination (.lowest (hdst.trans hcarry) hplace)) m _
  · exact setByte_touches hdst (ofMemory m) (fun _ => rfl) _

theorem complement_touches :
    m.ChangesIn (Touches symbols m .cpl ops) (complement symbols m ops[0]?).mem := by
  have hdst : byteDestination .cpl ops = complementDestination ops[0]? := rfl
  unfold complement
  split
  · next hacc =>
    have hacc : writesAcc m .cpl ops = true := by simp [writesAcc, computesAcc, hacc]
    exact setAcc_touches hacc (ofMemory m) _
  · next b hb =>
    rw [complementDestination_eq_dst (by simp [hb])] at hdst
    exact setBit_touches_of_sorted (by decide) (.inr ⟨hdst, _, hb⟩) _
  · next text htext =>
    split
    · next hdigit =>
      refine setBit_touches_of_sorted (by decide) (.inl ?_) _
      rw [hdst, htext, complementDestination, if_pos hdigit]
    · next hdigit =>
      have hwhole : complementDestination ops[0]? = ops[0]? := by
        rw [htext, complementDestination, if_neg hdigit]
      exact setByte_touches (hdst.trans hwhole) (ofMemory m) (fun _ => rfl) _
  · next hexpr =>
    rw [complementDestination_eq_dst hexpr] at hdst
    exact setByte_touches hdst (ofMemory m) (fun _ => rfl) _

theorem clear_touches :
    m.ChangesIn (Touches symbols m .clr ops) (clear symbols m ops[0]?).mem := by
  unfold clear
  split
  · next hdst =>
    have hacc : writesAcc m .clr ops = true := by simp [writesAcc, computesAcc, hdst]
    exact setAcc_touches hacc (ofMemory m) 0
  · exact setBit_touches rfl false

theorem clearIfSet_touches :
    m.ChangesIn (Touches symbols m .jbc ops) (clearIfSet symbols m ops[0]?).mem := by
  unfold clearIfSet
  split
  · exact setBit_touches rfl false
  · exact .refl _ m

theorem exchange_touches :
    m.ChangesIn (Touches symbols m .xch ops) (exchange symbols m ops[1]?).mem := by
  refine .trans ?_ (setAcc_touches rfl _ _)
  exact setByte_touches rfl (ofMemory m) (fun _ => rfl) _

theorem pop_touches (value : Byte) :
    m.ChangesIn (Touches symbols m .pop ops)
      ((ofMemory m.pop).setByte symbols ops[0]? value).mem := by
  refine .trans (.pop (.stackPointer (by decide)) m) ?_
  exact setByte_touches rfl (ofMemory m.pop) (byteAddr?_pop symbols m) value

theorem popWord_touches (h : mnemonic ∈ Flow.returns) :
    m.ChangesIn (Touches symbols m mnemonic ops) m.popWord := by
  have hsp : ∀ bit, Touches symbols m mnemonic ops ⟨Sfr.sp, bit⟩ := by
    refine .stackPointer ?_
    exact (by decide : Flow.returns ⊆ [.push, .pop, .ret, .reti, .acall, .lcall, .call]) h
  exact (ChangesIn.pop hsp m).trans (.pop hsp m.pop)

theorem pushWord_touches (h : mnemonic ∈ calls) (hfirst : m.sp + 1 ≠ Sfr.sp) (w : Word) :
    m.ChangesIn (Touches symbols m mnemonic ops) (m.pushWord w) := by
  have hslots : pushedTo m mnemonic = m.wordSlots := by
    simp only [calls, List.mem_cons, List.not_mem_nil, or_false] at h
    rcases h with rfl | rfl | rfl <;> rfl
  refine .pushWord (.stackPointer ?_) (fun place hplace => .slot (hslots ▸ hplace)) hfirst w
  exact (by decide : calls ⊆ [.push, .pop, .ret, .reti, .acall, .lcall, .call]) h

/-! ## 4. Every instruction -/

/-- **Nothing else changes.** -/
theorem of_changesIn (symbols : Symbols) (m : Memory) (mnemonic : Mnemonic) (ops : List Operand)
    (pc : Nat) (hstack : mnemonic ∈ calls → m.sp ≠ 0x80) :
    m.ChangesIn (Touches symbols m mnemonic ops) (of symbols m mnemonic ops pc).mem := by
  cases mnemonic <;> simp only [of]
  case mov => exact move_touches
  case add | addc | subb => exact arithmetic_touches (by decide) _
  case inc | dec => exact count_touches (by decide) _ _
  case mul => exact multiply_touches
  case div => exact divide_touches
  case anl | orl | xrl => exact logic_touches rfl _ _
  case clr => exact clear_touches
  case setb => exact setBit_touches rfl true
  case cpl => exact complement_touches
  case rl | rr | swap => exact setAcc_touches rfl (ofMemory m) _
  case rlc | rrc => exact rotateThroughCarry_touches (by decide) rfl _ _
  case xch => exact exchange_touches
  case jbc => exact clearIfSet_touches
  case cjne => exact setCarry_touches (by decide) m _
  case djnz => exact setByte_touches rfl (ofMemory m) (fun _ => rfl) _
  case acall | lcall | call =>
    have hfirst : m.sp + 1 ≠ Sfr.sp := by
      have hsp := hstack (by decide)
      bv_omega
    exact pushWord_touches (by decide) hfirst _
  case ret | reti => exact popWord_touches (by decide)
  case push =>
    exact .push (.stackPointer (by decide)) (fun bit => .slot (List.mem_singleton.mpr rfl)) _
  case pop => exact pop_touches m.top
  all_goals exact .refl _ m

/-- An instruction without a destination operand reaches nothing. -/
theorem not_reaches (hbyte : byteDestination mnemonic ops = none)
    (hbit : bitDestination mnemonic ops = none) (place : BitPlace) :
    ¬ Reaches symbols m mnemonic ops place := by
  intro h
  cases h with
  | byte hop | lowest hop =>
    rw [hbyte] at hop
    exact nomatch hop
  | bit hop =>
    rw [hbit] at hop
    exact nomatch hop

/-- A call touches the stack and nothing else. -/
theorem byte_of_call_touches {place : BitPlace} (h : mnemonic ∈ calls)
    (htouch : Touches symbols m mnemonic ops place) :
    place.byte = Sfr.sp ∨ place.byte ∈ m.wordSlots := by
  simp only [calls, List.mem_cons, List.not_mem_nil, or_false] at h
  rcases h with rfl | rfl | rfl <;> cases htouch with
  | destination hreach => exact absurd hreach (not_reaches rfl rfl place)
  | stackPointer => exact .inl rfl
  | slot hslot => exact .inr hslot
  | _ => contradiction

theorem of_idle (h : idle mnemonic = true) (symbols : Symbols) (m : Memory) (ops : List Operand)
    (pc : Nat) : (of symbols m mnemonic ops pc).mem = m := by
  cases mnemonic <;> first | rfl | exact nomatch h

theorem computesAcc_of_storing (h : mnemonic ∈ storing) (hdst : ops[0]? ≠ some .acc) :
    computesAcc m mnemonic ops = false := by
  simp only [storing, List.mem_cons, List.not_mem_nil, or_false] at h
  rcases h with rfl | rfl | rfl | rfl | rfl | rfl | rfl | rfl | rfl | rfl | rfl <;>
    simp [computesAcc, hdst]

/-- An instruction that stores one operand touches nothing where that operand is no place. -/
theorem not_touches_of_storing (h : mnemonic ∈ storing) (hacc : ops[0]? ≠ some .acc)
    (hdptr : ops[0]? ≠ some .dptr) (hnone : ∀ place, ¬ Reaches symbols m mnemonic ops place)
    (place : BitPlace) : ¬ Touches symbols m mnemonic ops place := by
  have hwrites : writesAcc m mnemonic ops = false := by
    rw [writesAcc, computesAcc_of_storing h hacc, Bool.false_or, beq_eq_false_iff_ne]
    intro hdst
    exact hnone ⟨Sfr.acc, 0⟩ (.byte hdst rfl)
  have hother : mnemonic ∉ setsCarry ++ setsHalfCarry ++ setsOverflow ∧ mnemonic ∉ [.mul, .div] ∧
      mnemonic ∉ [.push, .pop, .ret, .reti, .acall, .lcall, .call] ∧ pushedTo m mnemonic = [] := by
    simp only [storing, List.mem_cons, List.not_mem_nil, or_false] at h
    rcases h with rfl | rfl | rfl | rfl | rfl | rfl | rfl | rfl | rfl | rfl | rfl <;>
      simp [setsCarry, setsHalfCarry, setsOverflow, pushedTo]
  simp only [List.mem_append, not_or] at hother
  obtain ⟨⟨⟨hcarry, hhalf⟩, hoverflow⟩, hb, hstack, hslots⟩ := hother
  intro htouch
  cases htouch with
  | destination hreach => exact hnone place hreach
  | acc hw | parity hw => simp [hwrites] at hw
  | carry hmem => exact hcarry hmem
  | halfCarry hmem => exact hhalf hmem
  | overflow hmem => exact hoverflow hmem
  | b hmem => exact hb hmem
  | pointer _ hdst => exact hdptr hdst
  | stackPointer hmem => exact hstack hmem
  | slot hmem => simp [hslots] at hmem

end

end Effect

/-! ## 5. Executions -/

namespace Machine

/-- **The footprint of an instruction.** Every bit that an execution changes is one that the
    instruction touches, and so every byte that it changes has such a bit. Jumps, directives, `NOP`
    and words without a meaning change nothing, and neither does an instruction that stores an
    operand which is no place. The cycles and the transmitter are never touched, and the mark of a
    running interrupt routine by `RETI` alone. -/
theorem execute_changes_footprint {m : Machine} {symbols : Symbols} {mnemonic : Mnemonic}
    {ops : List Operand} {done : Executed} (hdone : m.execute symbols mnemonic ops = .ok done)
    (hstack : mnemonic ∈ Effect.calls → m.mem.sp ≠ 0x80) :
    (∀ place, done.machine.mem.bit place ≠ m.mem.bit place →
      Effect.Touches symbols m.mem mnemonic ops place) ∧
    (∀ addr, done.machine.mem.read addr ≠ m.mem.read addr →
      ∃ bit, Effect.Touches symbols m.mem mnemonic ops ⟨addr, bit⟩) ∧
    (Effect.idle mnemonic = true → done.machine.mem = m.mem) ∧
    (mnemonic ∈ Effect.storing → ops[0]? ≠ some .acc → ops[0]? ≠ some .dptr →
      (∀ place, ¬ Effect.Reaches symbols m.mem mnemonic ops place) → done.machine.mem = m.mem) ∧
    done.machine.cycles = m.cycles ∧ done.machine.transmitter = m.transmitter ∧
    (mnemonic ≠ .reti → done.machine.inInterrupt = m.inInterrupt) := by
  obtain ⟨next, -, rfl⟩ := execute_ok_iff.mp hdone
  have hchanges := Effect.of_changesIn symbols m.mem mnemonic ops m.pc hstack
  refine ⟨fun place hne => hchanges.mem_of_bit_ne hne,
    fun addr hne => hchanges.exists_of_read_ne hne,
    fun hidle => Effect.of_idle hidle symbols m.mem ops m.pc, ?_, rfl, rfl, ?_⟩
  · intro hstoring hacc hdptr hnone
    exact hchanges.eq_of_empty (Effect.not_touches_of_storing hstoring hacc hdptr hnone)
  · intro hreti
    simp [hreti]

/-- The stack is below its own pointer. -/
def belowPointer : Machine := ⟨Memory.zero.setSp 0x7F, 0, 0, .idle, false⟩

/-- A call writes the lower byte of its return address over the stack pointer, which is one of the
two slots, and leaves all other bytes alone. -/
theorem belowPointer_call_footprint :
    ∃ done, belowPointer.execute ∅ .lcall [.direct (.expr "$")] = .ok done ∧
      done.machine.mem.sp = 1 ∧
      ∀ addr, done.machine.mem.read addr ≠ belowPointer.mem.read addr → addr ∈ [0x80, 0x81] := by
  have hsp : belowPointer.mem.sp = 0x7F := Memory.zero.read_write_self Sfr.sp 0x7F
  have hslots : belowPointer.mem.wordSlots = [0x80, 0x81] := by
    rw [Memory.wordSlots, hsp]
    rfl
  obtain ⟨-, hbytes, -⟩ := execute_changes_footprint
    (rfl : belowPointer.execute ∅ .lcall [.direct (.expr "$")] = .ok _)
    (by rw [hsp]; decide)
  refine ⟨_, rfl, ?_, ?_⟩
  · have hmoved : (belowPointer.mem.push (highByte 1)).sp = 0x80 :=
      (belowPointer.mem.sp_push _ (by rw [hsp]; decide)).trans (by rw [hsp]; rfl)
    change ((belowPointer.mem.push (highByte 1)).push (lowByte 1)).sp = 1
    rw [Memory.push, hmoved]
    exact Memory.read_write_self _ Sfr.sp 1
  · intro addr hne
    obtain ⟨bit, htouch⟩ := hbytes addr hne
    have hbyte : addr = Sfr.sp ∨ addr ∈ belowPointer.mem.wordSlots :=
      Effect.byte_of_call_touches (by decide) htouch
    rw [hslots] at hbyte
    rcases hbyte with rfl | hslot
    · decide
    · exact hslot

end Machine
end Mcs51
