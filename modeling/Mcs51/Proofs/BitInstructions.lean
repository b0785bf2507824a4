import Mcs51.Proofs.Attempt

/-!
# The bit that an instruction addresses

Setting, clearing and testing find their bit by one function of the operand, `Operand.bitPlace?`,
and where it finds none they do nothing. The complement sorts operands by itself, by how they are
written: an expression that starts with a digit is a bit to it, and any other expression is a byte,
as is a special function register by its bare name (`Operand.Whole`). So it agrees with the others
on everything but these, and on these only where they have no address: otherwise all eight bits of
the byte change, while the others change one bit or none.

Everything is said bit by bit. `Operand.BitChanges` is a change of the addressed bit alone, and a
byte that is complemented is no such change, because one of its bits is not the addressed one.
-/

namespace Mcs51

/-! ## 1. Bits of memory -/

theorem BitPlace.mask_eq (loc : BitPlace) : loc.mask = BitVec.twoPow 8 loc.bit.val :=
  (BitVec.twoPow_eq 8 loc.bit.val).symm

theorem BitPlace.mask_ne_zero (loc : BitPlace) : loc.mask ≠ 0 := by
  intro h
  have hbit := congrArg (fun b => b.getLsbD loc.bit.val) h
  simp [mask_eq] at hbit

namespace Memory

variable (m : Memory)

theorem bit_eq_getLsbD (place : BitPlace) :
    m.bit place = (m.read place.byte).getLsbD place.bit.val := by
  have hmask := place.mask_ne_zero
  rw [place.mask_eq] at hmask
  rw [bit, place.mask_eq, BitVec.and_twoPow]
  cases (m.read place.byte).getLsbD place.bit.val with
  | true => simpa using hmask
  | false => rfl

/-- A bit is set or cleared, and every other bit is as it was. -/
theorem bit_setBit (loc place : BitPlace) (on : Bool) :
    (m.setBit loc on).bit place = if place = loc then on else m.bit place := by
  rw [bit_eq_getLsbD, bit_eq_getLsbD, setBit, modify, read_write]
  by_cases hbyte : loc.byte = place.byte
  · have hmask : loc.mask.getLsbD place.bit.val = decide (place = loc) := by
      cases place
      cases loc
      simp_all [BitPlace.mask_eq, Fin.ext_iff, eq_comm]
    have hlt := place.bit.isLt
    rw [if_pos hbyte, hbyte]
    cases on with
    | true =>
      rw [if_pos rfl, BitVec.getLsbD_or, hmask]
      by_cases h : place = loc <;> simp [h]
    | false =>
      rw [if_neg Bool.false_ne_true, BitVec.getLsbD_and, BitVec.getLsbD_not, hmask]
      by_cases h : place = loc <;> simp [h, hlt]
  · have hplace : place ≠ loc := by
      intro h
      exact hbyte (congrArg BitPlace.byte h).symm
    rw [if_neg hbyte, if_neg hplace]

/-- The complement of a byte changes every bit of it and no other. -/
theorem bit_complement (addr : Byte) (place : BitPlace) :
    (m.write addr (~~~m.read addr)).bit place =
      if place.byte = addr then !m.bit place else m.bit place := by
  have hlt := place.bit.isLt
  rw [bit_eq_getLsbD, bit_eq_getLsbD, read_write]
  by_cases hbyte : place.byte = addr
  · rw [if_pos hbyte.symm, if_pos hbyte, hbyte]
    simp [hlt]
  · rw [if_neg (Ne.symm hbyte), if_neg hbyte]

end Memory

/-! ## 2. The addressed bit -/

namespace Operand

/-- What a bit instruction can be given: a bit, or something that has an address. -/
inductive Addressed : Operand → Prop
  | bit (b : BitRef) : Addressed (.bit b)
  | direct (d : ByteRef) : Addressed (.direct d)

/-- What the complement takes as a whole byte: a special function register by its bare name, and
every expression that does not start with a digit. -/
inductive Whole : Operand → Prop
  | sfr (addr : Byte) : Whole (.direct (.sfr addr))
  | expr (text : String) (h : text.toList.head?.any Char.isDigit = false) :
    Whole (.direct (.expr text))

variable {symbols : Symbols} {x : Operand} {m m' : Memory} {f : Bool → Bool}

/-- The bit that an operand addresses changes by a function, and no other bit changes. Where no bit
is addressed nothing changes at all. -/
structure BitChanges (symbols : Symbols) (x : Operand) (f : Bool → Bool) (m m' : Memory) :
    Prop where
  bits : ∀ place, m'.bit place =
    if x.bitPlace? symbols = some place then f (m.bit place) else m.bit place
  unaddressed : x.bitPlace? symbols = none → m' = m

/-- Every bit of the byte that an operand addresses changes, and no other. -/
structure ByteFlips (symbols : Symbols) (x : Operand) (m m' : Memory) : Prop where
  bits : ∀ place, m'.bit place =
    if x.byteAddr? symbols m = some place.byte then !m.bit place else m.bit place
  unaddressed : x.byteAddr? symbols m = none → m' = m

theorem getBit_some (symbols : Symbols) (m : Memory) (x : Operand) :
    getBit symbols m (some x) = (x.bitPlace? symbols).any m.bit := by
  unfold getBit
  cases h : x.bitPlace? symbols with
  | some loc => simp [h]
  | none => simp [h]

theorem bitChanges_refl (h : x.bitPlace? symbols = none) : x.BitChanges symbols f m m where
  bits place := by rw [h, if_neg nofun]
  unaddressed _ := rfl

/-- Writing the addressed bit, with a value that may depend on what it was. -/
theorem bitChanges_setBit {on : Bool}
    (h : ∀ loc, x.bitPlace? symbols = some loc → on = f (m.bit loc)) :
    x.BitChanges symbols f m (setBit symbols (some x) on m) := by
  unfold setBit
  rw [Option.bind_some]
  cases hx : x.bitPlace? symbols with
  | some loc =>
    constructor
    · intro place
      rw [hx, m.bit_setBit, h loc hx]
      by_cases hplace : place = loc
      · rw [hplace, if_pos rfl, if_pos rfl]
      · have hother : some loc ≠ some place := by
          intro e
          exact hplace (Option.some.inj e).symm
        rw [if_neg hplace, if_neg hother]
    · intro hnone
      cases hx.symm.trans hnone
  | none => exact bitChanges_refl hx

theorem byteFlips_write {addr : Byte} (h : x.byteAddr? symbols m = some addr) :
    x.ByteFlips symbols m (m.write addr (~~~m.read addr)) where
  bits place := by
    simp only [m.bit_complement, h, Option.some.injEq, eq_comm (b := addr)]
  unaddressed hnone := by
    rw [h] at hnone
    exact nomatch hnone

theorem byteFlips_refl (h : x.byteAddr? symbols m = none) : x.ByteFlips symbols m m where
  bits place := by rw [h, if_neg nofun]
  unaddressed _ := rfl

/-- A byte that is complemented is no change of one bit: of its first two bits one at most is
addressed, and the other changes as well. -/
theorem ByteFlips.not_bitChanges {addr : Byte} (h : x.ByteFlips symbols m m')
    (haddr : x.byteAddr? symbols m = some addr) : ¬ x.BitChanges symbols f m m' := by
  intro hbit
  have hother : ∃ i, x.bitPlace? symbols ≠ some ⟨addr, i⟩ := by
    by_cases hzero : x.bitPlace? symbols = some ⟨addr, 0⟩
    · refine ⟨1, ?_⟩
      rw [hzero]
      simp
    · exact ⟨0, hzero⟩
  obtain ⟨i, hi⟩ := hother
  have hflipped := h.bits ⟨addr, i⟩
  have hkept := hbit.bits ⟨addr, i⟩
  rw [if_pos haddr] at hflipped
  rw [if_neg hi, hflipped] at hkept
  cases hb : m.bit ⟨addr, i⟩ <;> rw [hb] at hkept <;> exact nomatch hkept

/-- What has no address as a byte is no bit either. -/
theorem Whole.bitPlace?_eq_none (hx : x.Whole) (h : x.byteAddr? symbols m = none) :
    x.bitPlace? symbols = none := by
  cases hx with
  | sfr addr => rfl
  | expr text _ =>
    have haddr : (ByteRef.expr text).addr? symbols = none := h
    simp [bitPlace?, haddr]

end Operand

/-! ## 3. Clearing and complementing -/

namespace Effect

variable {x : Operand}

theorem clear_of_addressed (hx : x.Addressed) (symbols : Symbols) (m : Memory) :
    clear symbols m (some x) = ofMemory (Operand.setBit symbols (some x) false m) := by
  cases hx <;> rfl

theorem complement_of_not_whole (hx : x.Addressed) (hbit : ¬ x.Whole) (symbols : Symbols)
    (m : Memory) :
    complement symbols m (some x) = invertBit symbols m (some x) := by
  cases hx with
  | bit b => rfl
  | direct d =>
    cases d with
    | sfr addr => exact absurd (.sfr addr) hbit
    | expr text =>
      cases hdigit : text.toList.head?.any Char.isDigit with
      | true => exact if_pos hdigit
      | false => exact absurd (.expr text hdigit) hbit

/-- The complement of a whole byte is written like any other byte: what has no address is left
alone, and the serial buffer counts as written. -/
theorem complement_of_whole (hx : x.Whole) (symbols : Symbols) (m : Memory) :
    complement symbols m (some x) =
      match x.byteAddr? symbols m with
      | some addr => ⟨m.write addr (~~~m.read addr), false, addr == Sfr.sbuf⟩
      | none => ofMemory m := by
  have hbyte : complement symbols m (some x) =
      (ofMemory m).setByte symbols (some x) (~~~Operand.getByte symbols m (some x)) := by
    cases hx with
    | sfr addr => rfl
    | expr text h =>
      exact if_neg (Bool.eq_false_iff.mp h)
  rw [hbyte]
  cases hx <;> simp only [setByte, Operand.getByte, Operand.byteValue, ofMemory] <;>
    split <;> simp_all [write]

end Effect

/-! ## 4. Instructions -/

namespace Machine

variable {m : Machine} {symbols : Symbols} {x : Operand} {rest : List Operand}

/-- An instruction that goes on to the following line. -/
theorem execute_following (m : Machine) (symbols : Symbols) (mnemonic : Mnemonic)
    (ops : List Operand) {e : Effect}
    (hexit : Flow.exit symbols m.mem mnemonic ops = .following)
    (heffect : Effect.of symbols m.mem mnemonic ops m.pc = e) (hreti : mnemonic ≠ .reti) :
    m.execute symbols mnemonic ops =
      .ok ⟨{ m with mem := e.mem, pc := m.pc + 1 }, e.parityDone, e.bufferWritten⟩ := by
  have hnext : Flow.next symbols m.mem mnemonic ops m.pc = .ok (m.pc + 1) := by
    rw [Flow.next, hexit]
    rfl
  apply execute_ok_iff.mpr
  refine ⟨m.pc + 1, hnext, ?_⟩
  simp [heffect, hreti]

theorem execute_setb : ∃ written,
    m.execute symbols .setb (x :: rest) =
      .ok ⟨{ m with mem := written, pc := m.pc + 1 }, false, false⟩ ∧
    x.BitChanges symbols (fun _ => true) m.mem written := by
  refine ⟨_, m.execute_following symbols .setb (x :: rest) rfl rfl nofun, ?_⟩
  apply Operand.bitChanges_setBit
  intro loc _
  rfl

theorem execute_clr (hx : x.Addressed) : ∃ written,
    m.execute symbols .clr (x :: rest) =
      .ok ⟨{ m with mem := written, pc := m.pc + 1 }, false, false⟩ ∧
    x.BitChanges symbols (fun _ => false) m.mem written := by
  have hclear := Effect.clear_of_addressed hx symbols m.mem
  refine ⟨_, m.execute_following symbols .clr (x :: rest) rfl hclear nofun, ?_⟩
  apply Operand.bitChanges_setBit
  intro loc _
  rfl

/-- A test of a bit changes nothing; it goes to its target if a bit is addressed and is set. -/
theorem execute_jb :
    m.execute symbols .jb (x :: rest) =
      (if (x.bitPlace? symbols).any m.mem.bit then Flow.target symbols m.pc rest[0]?
        else .ok (m.pc + 1)).map fun line => ⟨{ m with pc := line }, false, false⟩ := by
  have hnext : Flow.next symbols m.mem .jb (x :: rest) m.pc =
      if (x.bitPlace? symbols).any m.mem.bit then Flow.target symbols m.pc rest[0]?
        else .ok (m.pc + 1) := by
    show (Flow.branch (Operand.getBit symbols m.mem (some x)) rest[0]?).resolve symbols m.pc = _
    rw [Operand.getBit_some]
    cases (x.bitPlace? symbols).any m.mem.bit <;> rfl
  rw [← hnext]
  cases hline : Flow.next symbols m.mem .jb (x :: rest) m.pc with
  | error e => exact execute_error_iff.mpr hline
  | ok line =>
    apply execute_ok_iff.mpr
    refine ⟨line, hline, ?_⟩
    simp [Effect.of, Effect.ofMemory]

theorem execute_cpl_of_not_whole (hx : x.Addressed) (hbit : ¬ x.Whole) : ∃ flipped,
    m.execute symbols .cpl (x :: rest) =
      .ok ⟨{ m with mem := flipped, pc := m.pc + 1 }, false, false⟩ ∧
    x.BitChanges symbols not m.mem flipped := by
  have heffect := Effect.complement_of_not_whole hx hbit symbols m.mem
  refine ⟨_, m.execute_following symbols .cpl (x :: rest) rfl heffect nofun, ?_⟩
  apply Operand.bitChanges_setBit
  intro loc hloc
  rw [Operand.getBit_some, hloc]
  rfl

theorem execute_cpl_of_whole (m : Machine) (symbols : Symbols) (rest : List Operand)
    (hx : x.Whole) : ∃ flipped,
    m.execute symbols .cpl (x :: rest) =
      .ok ⟨{ m with mem := flipped, pc := m.pc + 1 }, false,
        x.byteAddr? symbols m.mem == some Sfr.sbuf⟩ ∧
    x.ByteFlips symbols m.mem flipped := by
  have heffect := Effect.complement_of_whole hx symbols m.mem
  cases haddr : x.byteAddr? symbols m.mem with
  | some addr =>
    rw [haddr] at heffect
    refine ⟨m.mem.write addr (~~~m.mem.read addr), ?_, Operand.byteFlips_write haddr⟩
    rw [m.execute_following symbols .cpl (x :: rest) rfl heffect nofun]
    rfl
  | none =>
    rw [haddr] at heffect
    refine ⟨m.mem, ?_, Operand.byteFlips_refl haddr⟩
    rw [m.execute_following symbols .cpl (x :: rest) rfl heffect nofun]
    rfl

/-- **Which bit the bit instructions change.** Of a bit or a direct operand, setting and clearing
    change the addressed bit alone, and a test asks for that bit; where none is addressed they do
    nothing. The complement inverts the same bit unless it takes the operand as a whole byte. Then
    it inverts all bits of the byte, which is never the change of the addressed bit, unless the
    operand has no address at all. -/
theorem bit_instructions_address (m : Machine) (symbols : Symbols) (x : Operand)
    (rest : List Operand) (hx : x.Addressed) :
    (∃ written, m.execute symbols .setb (x :: rest) =
        .ok ⟨{ m with mem := written, pc := m.pc + 1 }, false, false⟩ ∧
      x.BitChanges symbols (fun _ => true) m.mem written) ∧
    (∃ written, m.execute symbols .clr (x :: rest) =
        .ok ⟨{ m with mem := written, pc := m.pc + 1 }, false, false⟩ ∧
      x.BitChanges symbols (fun _ => false) m.mem written) ∧
    m.execute symbols .jb (x :: rest) =
      (if (x.bitPlace? symbols).any m.mem.bit then Flow.target symbols m.pc rest[0]?
        else .ok (m.pc + 1)).map (fun line => ⟨{ m with pc := line }, false, false⟩) ∧
    (¬ x.Whole → ∃ flipped, m.execute symbols .cpl (x :: rest) =
        .ok ⟨{ m with mem := flipped, pc := m.pc + 1 }, false, false⟩ ∧
      x.BitChanges symbols not m.mem flipped) ∧
    (x.Whole → ∃ flipped, m.execute symbols .cpl (x :: rest) =
        .ok ⟨{ m with mem := flipped, pc := m.pc + 1 }, false,
          x.byteAddr? symbols m.mem == some Sfr.sbuf⟩ ∧
      x.ByteFlips symbols m.mem flipped ∧
      (x.BitChanges symbols not m.mem flipped ↔ x.byteAddr? symbols m.mem = none)) := by
  refine ⟨execute_setb, execute_clr hx, execute_jb, execute_cpl_of_not_whole hx, ?_⟩
  intro hwhole
  obtain ⟨flipped, hdone, hflips⟩ := m.execute_cpl_of_whole symbols rest hwhole
  refine ⟨flipped, hdone, hflips, ?_⟩
  cases haddr : x.byteAddr? symbols m.mem with
  | some addr => exact iff_of_false (hflips.not_bitChanges haddr) nofun
  | none =>
    have hsame : x.BitChanges symbols not m.mem flipped := by
      rw [hflips.unaddressed haddr]
      exact Operand.bitChanges_refl (hwhole.bitPlace?_eq_none haddr)
    exact iff_of_true hsame rfl

def blank : Machine := ⟨Memory.zero, 0, 0, .idle, false⟩

/-- A name for a number that is the number of a bit and the address of a byte. -/
def named : Symbols := (∅ : Symbols).insert "LED" (.const 0x20)

/-- The others change bit 20H, and the complement changes the byte at 20H, where that bit is not. -/
theorem named_is_complemented_whole :
    (Operand.direct (.expr "LED")).bitPlace? named = some ⟨0x24, 0⟩ ∧
    ∃ flipped, blank.execute named .cpl [.direct (.expr "LED")] =
        .ok ⟨{ blank with mem := flipped, pc := 1 }, false, false⟩ ∧
      flipped.bit ⟨0x24, 0⟩ = false ∧ flipped.bit ⟨0x20, 5⟩ = true ∧
      ¬ (Operand.direct (.expr "LED")).BitChanges named not blank.mem flipped := by
  have hx : (Operand.direct (.expr "LED")).Addressed := .direct (.expr "LED")
  have hwhole : (Operand.direct (.expr "LED")).Whole := .expr "LED" rfl
  have haddr : (Operand.direct (.expr "LED")).byteAddr? named blank.mem = some 0x20 := rfl
  obtain ⟨-, -, -, -, hcpl⟩ := bit_instructions_address blank named _ [] hx
  obtain ⟨flipped, hdone, hflips, hbit⟩ := hcpl hwhole
  have hclear : ∀ place, blank.mem.bit place = false := by
    intro place
    simp [blank, Memory.bit_eq_getLsbD]
  refine ⟨rfl, flipped, hdone, ?_, ?_, ?_⟩
  · rw [hflips.bits, haddr, if_neg (by decide), hclear]
  · rw [hflips.bits, haddr, if_pos rfl, hclear]
    rfl
  · rw [hbit, haddr]
    exact nofun

/-- A port by its bare name addresses no bit. Setting and clearing leave it alone, and the
complement inverts it. -/
theorem port_is_complemented :
    (Operand.direct (.sfr Sfr.p1)).bitPlace? ∅ = none ∧
    blank.execute ∅ .setb [.direct (.sfr Sfr.p1)] = .ok ⟨{ blank with pc := 1 }, false, false⟩ ∧
    blank.execute ∅ .clr [.direct (.sfr Sfr.p1)] = .ok ⟨{ blank with pc := 1 }, false, false⟩ ∧
    ∃ flipped, blank.execute ∅ .cpl [.direct (.sfr Sfr.p1)] =
        .ok ⟨{ blank with mem := flipped, pc := 1 }, false, false⟩ ∧
      flipped.read Sfr.p1 = 0xFF ∧ flipped ≠ blank.mem := by
  have hbefore : blank.mem.read Sfr.p1 = 0 := Memory.read_zero Sfr.p1
  have hafter : (blank.mem.write Sfr.p1 (~~~blank.mem.read Sfr.p1)).read Sfr.p1 = 0xFF := by
    rw [Memory.read_write_self, hbefore]
    rfl
  refine ⟨rfl, rfl, rfl, _, rfl, hafter, ?_⟩
  intro hsame
  have hread := congrArg (Memory.read · Sfr.p1) hsame
  exact absurd (hafter.symm.trans (hread.trans hbefore)) (by decide)

end Machine
end Mcs51
