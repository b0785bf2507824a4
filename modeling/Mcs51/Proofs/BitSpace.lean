import Mcs51.Proofs.ComplementedBit

/-!
# Bit space

A bit can be written in four ways: by its name, as a bit of a byte that has a name or a number, and
by a number of its own. They are looked up on three paths, and each of them ends at a place in
memory (`Operand.SpellsBit`). So memory is also a map from places to bits, and `SETB`, `CLR` and a
move from the carry flag are updates of that map at one place (`BitOp.perform`). Memory agrees with
the map step by step (`Machine.executeAll_bitOps`), although every step reads a whole byte and
writes it back.

Everything about sequences is then read off the map. A place has what was last written to it, and
what it had at first if nothing was. How a bit was written in the source is forgotten by then, so no
instruction on bits can tell two spellings of one place apart (`BitUse.execute_congr`). The
complement is no such instruction, because it sorts operands by how they are written
(`Operand.Whole`).

This is about instructions alone. A whole step has other bytes to change: parity follows the
accumulator, even if a single bit of it was written, and the timers count on.
-/

namespace Mcs51

/-! ## 1. Bit numbers -/

namespace BitPlace

/-- The place of the carry flag. -/
abbrev carry : BitPlace := ofBitAddr Sfr.carryBit

theorem toNat_and_mask (n : Byte) : (n &&& 0xF8).toNat = n.toNat - n.toNat % 8 := by
  revert n
  decide +kernel

/-- The lower numbers run through the sixteen bytes from `20H` on, and the upper ones through every
eighth byte from `80H` on. -/
theorem toNat_ofBitAddr_byte (n : Byte) :
    (ofBitAddr n).byte.toNat =
      if n.toNat < 0x80 then 0x20 + n.toNat / 8 else n.toNat - n.toNat % 8 := by
  have hlt := n.isLt
  by_cases h : n.toNat < 0x80
  · have hlower : n < 0x80 := h
    have hbyte : (ofBitAddr n).byte = 0x20 + n / 8 := if_pos hlower
    rw [if_pos h, hbyte, BitVec.toNat_add, BitVec.toNat_udiv]
    show (0x20 + n.toNat / 8) % 256 = 0x20 + n.toNat / 8
    omega
  · have hupper : ¬ n < 0x80 := h
    have hbyte : (ofBitAddr n).byte = n &&& 0xF8 := if_neg hupper
    rw [if_neg h, hbyte, toNat_and_mask]

/-- No two bit numbers have one place. -/
theorem ofBitAddr_injective : Function.Injective ofBitAddr := by
  intro n n' h
  have hbit : n.toNat % 8 = n'.toNat % 8 := congrArg (fun place => place.bit.val) h
  have hbyte := congrArg (fun place => place.byte.toNat) h
  simp only [toNat_ofBitAddr_byte] at hbyte
  apply BitVec.eq_of_toNat_eq
  -- Numbers of different halves cannot meet: the bytes of the lower one end at `2FH`.
  split at hbyte <;> split at hbyte <;> omega

end BitPlace

/-! ## 2. How a bit is written -/

namespace Operand

open Token (lex)

variable {symbols : Symbols} {e : String} {n : Nat} {x : List Char} {place : BitPlace}

/-- A text is a number from 0 to 255, and no symbol has it for a name. -/
structure IsByteNumber (symbols : Symbols) (e : String) (n : Nat) : Prop where
  value : Literal.parse e = .ok (n : Int)
  lt : n < 256
  free : symbols.get? (String.ofList (Text.trim e.toList)) = none

theorem IsByteNumber.addr?_eq (h : IsByteNumber symbols e n) :
    (ByteRef.expr e).addr? symbols = some (BitVec.ofNat 8 n) := by
  have hlt := h.lt
  have hrange : 0 ≤ (n : Int) ∧ (n : Int) ≤ 255 := by omega
  rw [ByteRef.addr?, Symbols.resolve_of_literal h.value h.free]
  exact (if_pos hrange).trans (congrArg some (BitVec.ofInt_natCast 8 n))

/-- A number behind a dot counts by its three lowest bits. -/
theorem bitIndex_of_literal {digits : String} {i : Nat}
    (h : Literal.parse digits = .ok (i : Int)) : bitIndex digits = Mcs51.place i := by
  apply Fin.ext
  simp only [bitIndex, h]
  rw [BitVec.ofInt_natCast, BitVec.toNat_ofNat]
  show i % 256 % 8 = i % 8
  omega

/-- The ways to write a bit, and the place that each of them stands for. In front of a dot the name
may be that of a register or of a symbol, and counts as what it stands for at the time. -/
inductive SpellsBit (symbols : Symbols) (x : List Char) : BitPlace → Prop
  | named {w : String} {addr : Byte} (hx : (lex x).map (·.token) = [some (.ident w)])
    (haddr : Sfr.bitAddress? w = some addr) : SpellsBit symbols x (.ofBitAddr addr)
  | field {name digits : String} {addr : Byte} {i : Nat}
    (hx : (lex x).map (·.token) = [some (.ident name), some .dot, some (.numeric digits)])
    (haddr : (directOf name).addr? symbols = some addr)
    (hindex : Literal.parse digits = .ok (i : Int)) : SpellsBit symbols x ⟨addr, Mcs51.place i⟩
  | numberedField {number digits : String} {n i : Nat}
    (hx : (lex x).map (·.token) = [some (.numeric number), some .dot, some (.numeric digits)])
    (hnumber : IsByteNumber symbols number n) (hindex : Literal.parse digits = .ok (i : Int)) :
    SpellsBit symbols x ⟨BitVec.ofNat 8 n, Mcs51.place i⟩
  /-- However the number is written, also with characters that make no token. -/
  | number {e : String} {n : Nat} (hx : ofLexemes (lex x) x = .ok (.direct (.expr e)))
    (hnumber : IsByteNumber symbols e n) : SpellsBit symbols x (.ofBitAddr (BitVec.ofNat 8 n))

theorem ofLexemes_of_tokens (ts : List Token) (h : (lex x).map (·.token) = ts.map some) :
    ofLexemes (lex x) x = ofTokens ts x := by
  rw [ofLexemes_eq, h, readTokens_map_some]

/-- A bit that is written in one of these ways is read as an operand with its place. -/
theorem SpellsBit.exists_reading (h : SpellsBit symbols x place) :
    ∃ op, ofLexemes (lex x) x = .ok op ∧ op.Addressed ∧ op.bitPlace? symbols = some place := by
  cases h with
  | @named w addr hx haddr =>
    have hword : ofTokens [.ident w] x = .ok (.bit (.named addr)) :=
      congrArg Except.ok (ofWord_of_bitAddress? haddr)
    exact ⟨_, (ofLexemes_of_tokens [.ident w] hx).trans hword, .bit _, rfl⟩
  | field hx haddr hindex =>
    refine ⟨_, ofLexemes_of_tokens [.ident _, .dot, .numeric _] hx, .bit _, ?_⟩
    rw [← bitIndex_of_literal hindex]
    exact congrArg (Option.map _) haddr
  | numberedField hx hnumber hindex =>
    refine ⟨_, ofLexemes_of_tokens [.numeric _, .dot, .numeric _] hx, .bit _, ?_⟩
    rw [← bitIndex_of_literal hindex]
    exact congrArg (Option.map _) hnumber.addr?_eq
  | number hx hnumber =>
    refine ⟨_, hx, .direct _, ?_⟩
    exact congrArg (Option.map _) hnumber.addr?_eq

end Operand

/-- A bit as it is written, with its place and the operand that it is read as. -/
structure BitOperand (symbols : Symbols) where
  text : List Char
  place : BitPlace
  operand : Operand
  spells : Operand.SpellsBit symbols text place
  reads : Operand.ofLexemes (Token.lex text) text = .ok operand

namespace BitOperand

variable {symbols : Symbols} (x : BitOperand symbols)

/-- There is one for every way to write a bit. -/
theorem exists_of_spells {text : List Char} {place : BitPlace}
    (h : Operand.SpellsBit symbols text place) :
    ∃ x : BitOperand symbols, x.text = text ∧ x.place = place := by
  obtain ⟨op, hreads, -, -⟩ := h.exists_reading
  exact ⟨⟨text, place, op, h, hreads⟩, rfl, rfl⟩

theorem addressed_and_place : x.operand.Addressed ∧ x.operand.bitPlace? symbols = some x.place := by
  obtain ⟨op, hreads, haddressed, hplace⟩ := x.spells.exists_reading
  obtain rfl : op = x.operand := Except.ok.inj (hreads.symm.trans x.reads)
  exact ⟨haddressed, hplace⟩

theorem addressed : x.operand.Addressed := x.addressed_and_place.1

theorem bitPlace?_eq : x.operand.bitPlace? symbols = some x.place := x.addressed_and_place.2

end BitOperand

/-! ## 3. Instructions on a bit -/

/-- A mnemonic with its operands. -/
structure Instruction where
  mnemonic : Mnemonic
  operands : List Operand
  deriving DecidableEq, Repr

namespace Instruction

def execute (i : Instruction) (symbols : Symbols) (m : Machine) : Except RunError Executed :=
  m.execute symbols i.mnemonic i.operands

/-- The machine after some instructions, and nothing around them. -/
def executeAll (symbols : Symbols) (m : Machine) : List Instruction → Except RunError Machine
  | [] => .ok m
  | i :: rest => do
    let done ← i.execute symbols m
    executeAll symbols done.machine rest

def cost (i : Instruction) : Nat := Cost.of i.mnemonic i.operands

end Instruction

/-- What can be written to a bit. -/
inductive BitWrite
  | set
  | clear
  /-- The carry flag, by a move. -/
  | carry
  deriving DecidableEq, Repr

namespace BitWrite

def value (carry : Bool) : BitWrite → Bool
  | .set => true
  | .clear => false
  | .carry => carry

def instruction (x : Operand) : BitWrite → Instruction
  | .set => ⟨.setb, [x]⟩
  | .clear => ⟨.clr, [x]⟩
  | .carry => ⟨.mov, [x, .carry]⟩

end BitWrite

/-- What can be done with a bit: it can be written, moved to the carry flag, combined with it, and
tested by a jump. -/
inductive BitUse
  | write (w : BitWrite)
  | load
  | conjoin
  | disjoin
  | differ
  | jumpIfSet (target : Operand)
  | jumpIfClear (target : Operand)
  /-- A jump that clears the bit where it is taken. -/
  | jumpAndClear (target : Operand)
  deriving DecidableEq, Repr

def BitUse.instruction (x : Operand) : BitUse → Instruction
  | .write w => w.instruction x
  | .load => ⟨.mov, [.carry, x]⟩
  | .conjoin => ⟨.anl, [.carry, x]⟩
  | .disjoin => ⟨.orl, [.carry, x]⟩
  | .differ => ⟨.xrl, [.carry, x]⟩
  | .jumpIfSet target => ⟨.jb, [x, target]⟩
  | .jumpIfClear target => ⟨.jnb, [x, target]⟩
  | .jumpAndClear target => ⟨.jbc, [x, target]⟩

/-! ## 4. The map from places to bits -/

/-- A write to a bit. -/
structure BitOp (symbols : Symbols) where
  write : BitWrite
  target : BitOperand symbols

namespace BitOp

variable {symbols : Symbols} {bits : BitPlace → Bool} {op : BitOp symbols}
  {ops front back : List (BitOp symbols)} {place : BitPlace}

def instruction (op : BitOp symbols) : Instruction := op.write.instruction op.target.operand

def perform (bits : BitPlace → Bool) (op : BitOp symbols) : BitPlace → Bool :=
  Function.update bits op.target.place (op.write.value (bits .carry))

def performAll (bits : BitPlace → Bool) (ops : List (BitOp symbols)) : BitPlace → Bool :=
  ops.foldl perform bits

/-- Nothing is written to a place. -/
def Spares (place : BitPlace) (ops : List (BitOp symbols)) : Prop :=
  ∀ op ∈ ops, op.target.place ≠ place

instance : Decidable (Spares place ops) :=
  inferInstanceAs (Decidable (∀ op ∈ ops, op.target.place ≠ place))

theorem performAll_of_spares (h : Spares place ops) : performAll bits ops place = bits place := by
  induction ops generalizing bits with
  | nil => rfl
  | cons op ops ih =>
    obtain ⟨hop, hops⟩ := List.forall_mem_cons.mp h
    have hrest : performAll (perform bits op) ops place = perform bits op place := ih hops
    exact hrest.trans (Function.update_of_ne hop.symm _ _)

/-- A place has what was last written to it. -/
theorem performAll_of_last (h : Spares op.target.place back) :
    performAll bits (front ++ op :: back) op.target.place =
      op.write.value (performAll bits front .carry) := by
  have hsplit : performAll bits (front ++ op :: back) =
      performAll (perform (performAll bits front) op) back := List.foldl_append
  rw [hsplit, performAll_of_spares h]
  exact Function.update_self _ _ _

end BitOp

namespace Memory

theorem bit_carry (m : Memory) : m.bit .carry = m.carry := m.cy_psw.symm

/-- To write a bit is to update the map. -/
theorem bit_setBit_eq_update (m : Memory) (loc : BitPlace) (on : Bool) :
    (m.setBit loc on).bit = Function.update m.bit loc on := by
  funext place
  rw [m.bit_setBit, Function.update_apply]

end Memory

/-! ## 5. What an instruction does with a bit -/

namespace Operand

variable {symbols : Symbols} {x : Operand} {place : BitPlace}

theorem getBit_of_place (h : x.bitPlace? symbols = some place) (m : Memory) :
    getBit symbols m (some x) = m.bit place := by
  rw [getBit_some, h]
  rfl

theorem setBit_of_place (h : x.bitPlace? symbols = some place) (m : Memory) (on : Bool) :
    setBit symbols (some x) on m = m.setBit place on := by
  rw [setBit, Option.bind_some, h]

theorem getBit_carry (symbols : Symbols) (m : Memory) : getBit symbols m (some .carry) = m.carry :=
  (getBit_of_place rfl m).trans m.bit_carry

end Operand

namespace Effect

variable {x : Operand}

theorem move_carry (hx : x.Addressed) (symbols : Symbols) (m : Memory) :
    move symbols m (some x) (some .carry) =
      ofMemory (Operand.setBit symbols (some x) m.carry m) := by
  rw [← Operand.getBit_carry symbols m]
  cases hx <;> rfl

theorem logic_carry_addressed (hx : x.Addressed) (symbols : Symbols) (m : Memory)
    (onBit : Bool → Bool → Bool) (onByte : Byte → Byte → Byte) :
    logic symbols m (some .carry) (some x) onBit onByte =
      ofMemory (m.setCarry (onBit m.carry (Operand.getBit symbols m (some x)))) := by
  cases hx <;> exact if_pos rfl

end Effect

namespace Instruction

/-- An instruction depends on its operands by its exit and its effect. -/
theorem execute_congr {symbols : Symbols} {m : Machine} {mnemonic : Mnemonic}
    {ops ops' : List Operand}
    (hexit : Flow.exit symbols m.mem mnemonic ops = Flow.exit symbols m.mem mnemonic ops')
    (heffect : Effect.of symbols m.mem mnemonic ops m.pc =
      Effect.of symbols m.mem mnemonic ops' m.pc) :
    execute ⟨mnemonic, ops⟩ symbols m = execute ⟨mnemonic, ops'⟩ symbols m := by
  simp only [execute, Machine.execute, Flow.next, hexit, heffect]

end Instruction

section
variable {symbols : Symbols} {x y : Operand} {place : BitPlace}

/-- A write to a bit goes by its place alone. -/
theorem BitWrite.execute_instruction (w : BitWrite) (hx : x.Addressed)
    (hplace : x.bitPlace? symbols = some place) (m : Machine) :
    (w.instruction x).execute symbols m =
      .ok ⟨{ m with mem := m.mem.setBit place (w.value m.mem.carry), pc := m.pc + 1 },
        false, false⟩ := by
  rw [← Operand.setBit_of_place hplace]
  cases w with
  | set => exact m.execute_following symbols .setb [x] rfl rfl nofun
  | clear =>
    have heffect := Effect.clear_of_addressed hx symbols m.mem
    exact m.execute_following symbols .clr [x] rfl heffect nofun
  | carry =>
    have heffect := Effect.move_carry hx symbols m.mem
    exact m.execute_following symbols .mov [x, .carry] rfl heffect nofun

/-- So does every instruction on a bit. -/
theorem BitUse.execute_congr (use : BitUse) (hx : x.Addressed) (hy : y.Addressed)
    (hxplace : x.bitPlace? symbols = some place) (hyplace : y.bitPlace? symbols = some place)
    (m : Machine) :
    (use.instruction x).execute symbols m = (use.instruction y).execute symbols m := by
  have hget : Operand.getBit symbols m.mem (some x) = Operand.getBit symbols m.mem (some y) := by
    rw [Operand.getBit_of_place hxplace, Operand.getBit_of_place hyplace]
  have hlogic : ∀ onBit onByte,
      Effect.logic symbols m.mem (some .carry) (some x) onBit onByte =
        Effect.logic symbols m.mem (some .carry) (some y) onBit onByte := by
    intro onBit onByte
    rw [Effect.logic_carry_addressed hx, Effect.logic_carry_addressed hy, hget]
  have hclear : Effect.clearIfSet symbols m.mem (some x) =
      Effect.clearIfSet symbols m.mem (some y) := by
    rw [Effect.clearIfSet, Effect.clearIfSet, hget, Operand.setBit_of_place hxplace,
      Operand.setBit_of_place hyplace]
  -- All but the writes and `JBC` only look at the bit, so what they do is a function of it.
  cases use with
  | write w =>
    exact (w.execute_instruction hx hxplace m).trans (w.execute_instruction hy hyplace m).symm
  | load =>
    refine Instruction.execute_congr rfl ?_
    exact congrArg (fun on => Effect.ofMemory (Operand.setBit symbols (some .carry) on m.mem)) hget
  | conjoin => exact Instruction.execute_congr rfl (hlogic and (· &&& ·))
  | disjoin => exact Instruction.execute_congr rfl (hlogic or (· ||| ·))
  | differ => exact Instruction.execute_congr rfl (hlogic xor (· ^^^ ·))
  | jumpIfSet target =>
    refine Instruction.execute_congr ?_ rfl
    exact congrArg (Flow.branch · (some target)) hget
  | jumpIfClear target =>
    refine Instruction.execute_congr ?_ rfl
    exact congrArg (fun on => Flow.branch (!on) (some target)) hget
  | jumpAndClear target =>
    refine Instruction.execute_congr ?_ hclear
    exact congrArg (Flow.branch · (some target)) hget

theorem BitUse.cost_congr (use : BitUse) (hx : x.Addressed) (hy : y.Addressed) :
    (use.instruction x).cost = (use.instruction y).cost := by
  cases use with
  | write w => cases w <;> cases hx <;> cases hy <;> rfl
  | load | conjoin | disjoin | differ | jumpIfSet | jumpIfClear | jumpAndClear => rfl

end

/-! ## 6. Sequences -/

namespace Machine

variable {m : Machine} {symbols : Symbols} {x : Operand} {place : BitPlace}

/-- **Memory agrees with the map.** -/
theorem executeAll_bitOps (m : Machine) (ops : List (BitOp symbols)) :
    ∃ after, Instruction.executeAll symbols m (ops.map BitOp.instruction) = .ok after ∧
      after = { m with mem := after.mem, pc := m.pc + ops.length } ∧
      after.mem.bit = BitOp.performAll m.mem.bit ops := by
  -- For every machine, because a move writes the carry flag that the operations before it leave.
  induction ops generalizing m with
  | nil => exact ⟨m, rfl, rfl, rfl⟩
  | cons op ops ih =>
    have hop := op.write.execute_instruction op.target.addressed op.target.bitPlace?_eq m
    obtain ⟨after, hrest, hmachine, hbits⟩ := ih
      { m with mem := m.mem.setBit op.target.place (op.write.value m.mem.carry), pc := m.pc + 1 }
    refine ⟨after, ?_, ?_, ?_⟩
    · rw [List.map_cons, Instruction.executeAll]
      show ((op.write.instruction op.target.operand).execute symbols m >>= _) = _
      rw [hop]
      exact hrest
    · have hpc : m.pc + 1 + ops.length = m.pc + (op :: ops).length := by
        rw [List.length_cons]
        omega
      exact hmachine.trans (congrArg (fun pc => { m with mem := after.mem, pc := pc }) hpc)
    · rw [hbits, Memory.bit_setBit_eq_update, ← Memory.bit_carry]
      rfl

/-- A bit is found to be set or clear, by its place, by a move to the carry flag, and by a test. -/
structure Reads (m : Machine) (symbols : Symbols) (x : Operand) (value : Bool) : Prop where
  bit : Operand.getBit symbols m.mem (some x) = value
  load : m.LoadsCarry symbols .mov [.carry, x] value
  test : ∀ rest, m.execute symbols .jb (x :: rest) =
    (if value then Flow.target symbols m.pc rest[0]? else .ok (m.pc + 1)).map
      fun line => ⟨{ m with pc := line }, false, false⟩

theorem reads_of_place (m : Machine) (h : x.bitPlace? symbols = some place) :
    m.Reads symbols x (m.mem.bit place) where
  bit := Operand.getBit_of_place h m.mem
  load := by
    have hload := loadsCarry_mov m symbols x
    rwa [h] at hload
  test rest := by
    have hjump : m.execute symbols .jb (x :: rest) = _ := execute_jb
    rwa [h] at hjump

/-- **Bits hold what was written to them.** Any sequence of writes to bits, each written in one of
    the four ways, goes through, and changes nothing but memory and the line that comes next. Bit by
    bit memory follows the map: a place has what was last written to it, however it is written when
    it is read, and it has what it had where nothing was written to it. What a move from the carry
    flag writes is the flag at that point of the sequence.

    A bit number stands for its place among the sixteen bytes from `20H` on or among every eighth
    byte from `80H` on, and no two numbers stand for one place. Whatever stands for one place is
    interchangeable: every instruction on a bit does the same with either, and takes as long. -/
theorem bits_hold_what_was_written (m : Machine) (symbols : Symbols) (ops : List (BitOp symbols)) :
    (∃ after, Instruction.executeAll symbols m (ops.map BitOp.instruction) = .ok after ∧
      after = { m with mem := after.mem, pc := m.pc + ops.length } ∧
      after.mem.bit = BitOp.performAll m.mem.bit ops ∧
      (∀ front op back, ops = front ++ op :: back → BitOp.Spares op.target.place back →
        ∃ before, Instruction.executeAll symbols m (front.map BitOp.instruction) = .ok before ∧
          ∀ x : BitOperand symbols, x.place = op.target.place →
            after.Reads symbols x.operand (op.write.value before.mem.carry)) ∧
      (∀ x : BitOperand symbols, BitOp.Spares x.place ops →
        after.Reads symbols x.operand (m.mem.bit x.place)) ∧
      ∀ place, BitOp.Spares place ops → after.mem.bit place = m.mem.bit place) ∧
    (∀ text place, Operand.SpellsBit symbols text place →
      ∃ x : BitOperand symbols, x.text = text ∧ x.place = place) ∧
    (∀ n : Byte, (BitPlace.ofBitAddr n).bit.val = n.toNat % 8 ∧
      (BitPlace.ofBitAddr n).byte.toNat =
        if n.toNat < 0x80 then 0x20 + n.toNat / 8 else n.toNat - n.toNat % 8) ∧
    Function.Injective BitPlace.ofBitAddr ∧
    ∀ x y : BitOperand symbols, x.place = y.place → ∀ use : BitUse,
      (∀ m' : Machine, (use.instruction x.operand).execute symbols m' =
        (use.instruction y.operand).execute symbols m') ∧
      (use.instruction x.operand).cost = (use.instruction y.operand).cost := by
  refine ⟨?_, fun _ _ => BitOperand.exists_of_spells, ?_, BitPlace.ofBitAddr_injective, ?_⟩
  · obtain ⟨after, hdone, hmachine, hbits⟩ := executeAll_bitOps m ops
    have hspared : ∀ place, BitOp.Spares place ops → after.mem.bit place = m.mem.bit place := by
      intro place hplace
      rw [hbits, BitOp.performAll_of_spares hplace]
    refine ⟨after, hdone, hmachine, hbits, ?_, ?_, hspared⟩
    · rintro front op back rfl hback
      obtain ⟨before, hbefore, -, hfront⟩ := executeAll_bitOps m front
      refine ⟨before, hbefore, ?_⟩
      intro x hx
      have hlast : after.mem.bit x.place = op.write.value before.mem.carry := by
        rw [hbits, hx, BitOp.performAll_of_last hback, ← hfront, Memory.bit_carry]
      rw [← hlast]
      exact after.reads_of_place x.bitPlace?_eq
    · intro x hx
      rw [← hspared x.place hx]
      exact after.reads_of_place x.bitPlace?_eq
  · intro n
    exact ⟨rfl, BitPlace.toNat_ofBitAddr_byte n⟩
  · intro x y hplace use
    have hx := x.bitPlace?_eq
    rw [hplace] at hx
    exact ⟨use.execute_congr x.addressed y.addressed hx y.bitPlace?_eq,
      use.cost_congr x.addressed y.addressed⟩

/-- A port has a name of its own. -/
def wired : Symbols := (∅ : Symbols).insert "PORT" (.const 0x90)

/-- The carry flag by its name. -/
def flagByName : BitOperand wired where
  text := "cy".toList
  place := .carry
  operand := .carry
  spells := by
    have hx : (Token.lex "cy".toList).map (·.token) = [some (.ident "cy")] := by decide +kernel
    exact .named hx (by decide : Sfr.bitAddress? "cy" = some Sfr.carryBit)
  reads := by decide +kernel

/-- The carry flag as a bit of the status word. -/
def flagInByte : BitOperand wired where
  text := "PSW.7".toList
  place := .carry
  operand := .fieldOf (.sfr Sfr.psw) "7"
  spells := by
    have hx : (Token.lex "PSW.7".toList).map (·.token) =
        [some (.ident "PSW"), some .dot, some (.numeric "7")] := by decide +kernel
    have haddr : (Operand.directOf "PSW").addr? wired = some Sfr.psw := by decide
    exact .field (i := 7) hx haddr (by decide)
  reads := by decide +kernel

/-- A pin as a bit of the named port. -/
def pinInPort : BitOperand wired where
  text := "PORT.2".toList
  place := .ofBitAddr 0x92
  operand := .fieldOf (.expr "PORT") "2"
  spells := by
    have hx : (Token.lex "PORT.2".toList).map (·.token) =
        [some (.ident "PORT"), some .dot, some (.numeric "2")] := by decide +kernel
    have haddr : (Operand.directOf "PORT").addr? wired = some Sfr.p1 := by decide
    exact .field (i := 2) hx haddr (by decide)
  reads := by decide +kernel

/-- The same pin by its number. -/
def pinByNumber : BitOperand wired where
  text := "92H".toList
  place := .ofBitAddr 0x92
  operand := .direct (.expr "92H")
  spells := by
    have hx : Operand.ofLexemes (Token.lex "92H".toList) "92H".toList =
        .ok (.direct (.expr "92H")) := by decide +kernel
    exact .number hx (⟨by decide, by decide, by decide⟩ : Operand.IsByteNumber wired "92H" 0x92)
  reads := by decide +kernel

/-- The flag is set by its name and moved to the pin, and then it is cleared as a bit of its byte.
The pin is still set when it is read by its number, the flag is not when it is read by its name, and
a bit that nothing was written to is as it was. -/
theorem wired_bits_hold_what_was_written :
    ∃ after, Instruction.executeAll wired blank
        [⟨.setb, [.carry]⟩, ⟨.mov, [.fieldOf (.expr "PORT") "2", .carry]⟩,
          ⟨.clr, [.fieldOf (.sfr Sfr.psw) "7"]⟩] = .ok after ∧
      after.Reads wired (.direct (.expr "92H")) true ∧
      after.Reads wired .carry false ∧
      after.mem.bit (.ofBitAddr 0) = blank.mem.bit (.ofBitAddr 0) := by
  obtain ⟨⟨after, hdone, -, -, hwritten, -, hspared⟩, -⟩ := blank.bits_hold_what_was_written wired
    [⟨.set, flagByName⟩, ⟨.carry, pinInPort⟩, ⟨.clear, flagInByte⟩]
  refine ⟨after, hdone, ?_, ?_, hspared _ (by decide)⟩
  · obtain ⟨before, hbefore, hpin⟩ :=
      hwritten [⟨.set, flagByName⟩] ⟨.carry, pinInPort⟩ [⟨.clear, flagInByte⟩] rfl (by decide)
    have hcarry : before.mem.carry = true := by
      rw [← Except.ok.inj hbefore, ← Memory.bit_carry]
      exact (blank.mem.bit_setBit .carry .carry true).trans (if_pos rfl)
    have hread := hpin pinByNumber rfl
    rwa [hcarry] at hread
  · obtain ⟨before, -, hflag⟩ :=
      hwritten [⟨.set, flagByName⟩, ⟨.carry, pinInPort⟩] ⟨.clear, flagInByte⟩ [] rfl (by decide)
    exact hflag flagByName rfl

end Machine
end Mcs51
