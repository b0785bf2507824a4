import Mcs51.Proofs.BitInstructions
import Mcs51.Proofs.Frame

/-!
# The registers of four banks

A register has no cell of its own. Its address is worked out anew at every access, from two bits of
the status word, and the status word is a byte that programs write whole, bit by bit, and by the
number of a bank. What comes of that are thirty-two cells of which eight can be reached at a time.
`Banks` is that picture: a cell for each bank and register, and the bank that is selected.

Memory agrees with it step by step (`Banks.ofMemory_perform`). One half of the agreement is that no
write to a register lands on the status word, the other that no selection lands on a cell; both hold
because the cells end at `1FH`. Everything about sequences is then read off the picture, where a
cell holds the last value that was written to it (`Banks.cells_of_lastWrite`) and is as it was where
none was (`Banks.cells_of_unwritten`).
-/

namespace Mcs51

/-! ## 1. Cells -/

/-- The number of a register bank. -/
abbrev Bank := Fin 4

/-- The bank with a number, of which only the two lowest bits count. -/
def Bank.ofNat (n : Nat) : Bank := ⟨n % 4, Nat.mod_lt n (by decide)⟩

/-- The cell of a register in a bank. -/
def Bank.cell (bank : Bank) (r : Register) : Byte := BitVec.ofNat 8 (8 * bank.val + r.val)

/-- The bank that a status word selects: its bits 3 and 4 as a number. -/
def Psw.selected (psw : Psw) : Bank := (psw.bits.extractLsb' 3 2).toFin

theorem Bank.cell_toNat (bank : Bank) (r : Register) :
    (bank.cell r).toNat = 8 * bank.val + r.val := by
  have hbank := bank.isLt
  have hr := r.isLt
  rw [cell, BitVec.toNat_ofNat]
  omega

/-- No two registers share a cell, of the same bank or of different ones. -/
theorem Bank.cell_inj {bank bank' : Bank} {r r' : Register} :
    bank.cell r = bank'.cell r' ↔ bank = bank' ∧ r = r' := by
  have hr := r.isLt
  have hr' := r'.isLt
  rw [← BitVec.toNat_inj, cell_toNat, cell_toNat, Fin.ext_iff, Fin.ext_iff]
  omega

theorem Bank.cell_ne_psw (bank : Bank) (r : Register) : Sfr.psw ≠ bank.cell r := by
  have hbank := bank.isLt
  have hr := r.isLt
  have hcell := bank.cell_toNat r
  intro h
  have hpsw : (bank.cell r).toNat = 208 := congrArg BitVec.toNat h.symm
  omega

theorem Psw.bank_toNat (psw : Psw) : psw.bank.toNat = psw.selected.val := by
  have hbits : ∀ b : Byte, ((b &&& bankMask) >>> 3).toNat = (b.extractLsb' 3 2).toNat := by
    decide +kernel
  exact hbits psw.bits

theorem Memory.registerAddr_eq (m : Memory) (r : Register) :
    m.registerAddr r = m.psw.selected.cell r := by
  have hbank := m.psw.bank_toNat
  have hlt := m.psw.selected.isLt
  have hr := r.isLt
  apply BitVec.eq_of_toNat_eq
  rw [Bank.cell_toNat, registerAddr, BitVec.toNat_add, BitVec.toNat_mul, BitVec.toNat_ofNat, hbank]
  show (m.psw.selected.val * 8 % 256 + r.val % 256) % 256 = _
  omega

/-! ## 2. Operations -/

/-- The bits of the status word that select a bank. -/
inductive BankBit
  | rs0
  | rs1
  deriving DecidableEq, Repr

def BankBit.name : BankBit → String
  | .rs0 => "RS0"
  | .rs1 => "RS1"

def BankBit.place : BankBit → BitPlace
  | .rs0 => ⟨Sfr.psw, Mcs51.place 3⟩
  | .rs1 => ⟨Sfr.psw, Mcs51.place 4⟩

/-- What can be done about registers: a bank can be selected, in one of three ways, and a register
of the selected bank can be written or read. -/
inductive BankOp
  /-- By a number, of which the two lowest bits count. -/
  | select (number : Byte)
  /-- By a whole status word. -/
  | assign (psw : Psw)
  /-- By setting or clearing one of the two bits. -/
  | setBit (bit : BankBit) (on : Bool)
  | write (r : Register) (value : Byte)
  | read (r : Register)
  deriving DecidableEq

namespace BankOp

def isSelection : BankOp → Bool
  | .select _ | .assign _ | .setBit _ _ => true
  | .write _ _ | .read _ => false

def perform (m : Memory) : BankOp → Memory
  | .select number => m.setPsw (m.psw.setBank number)
  | .assign psw => m.setPsw psw
  | .setBit bit on => m.setBit bit.place on
  | .write r value => m.setRegister r value
  | .read _ => m

def performAll (m : Memory) (ops : List BankOp) : Memory := ops.foldl perform m

/-- The bank that is selected after an operation. -/
def follow (bank : Bank) : BankOp → Bank
  | .select number => .ofNat number.toNat
  | .assign psw => psw.selected
  | .setBit .rs0 on => .ofNat (2 * (bank.val / 2) + on.toNat)
  | .setBit .rs1 on => .ofNat (2 * on.toNat + bank.val % 2)
  | .write _ _ | .read _ => bank

def followAll (bank : Bank) (ops : List BankOp) : Bank := ops.foldl follow bank

/-- Nothing is written to a register while a bank is selected, where `start` is selected first. -/
def Unwritten (start : Bank) (ops : List BankOp) (bank : Bank) (r : Register) : Prop :=
  ∀ front value back, ops = front ++ .write r value :: back → followAll start front ≠ bank

/-- The last value that is written to a register while a bank is selected. -/
def LastWrite (start : Bank) (ops : List BankOp) (bank : Bank) (r : Register) (value : Byte) :
    Prop :=
  ∃ before after, ops = before ++ .write r value :: after ∧ followAll start before = bank ∧
    Unwritten bank after bank r

variable {start bank : Bank} {op : BankOp} {ops : List BankOp} {r : Register} {value : Byte}

theorem unwritten_nil : Unwritten start [] bank r := by
  intro front value back h
  exact absurd h.symm (List.append_ne_nil_of_right_ne_nil front (List.cons_ne_nil _ _))

theorem unwritten_cons_iff :
    Unwritten start (op :: ops) bank r ↔
      (∀ value, op = .write r value → start ≠ bank) ∧ Unwritten (op.follow start) ops bank r := by
  constructor
  · intro h
    refine ⟨?_, ?_⟩
    · rintro value rfl
      exact h [] value ops rfl
    · rintro front value back rfl
      exact h (op :: front) value back rfl
  · rintro ⟨hop, hops⟩ front value back h
    cases front with
    | nil => exact hop value (List.cons.inj h).1
    | cons op' front =>
      obtain ⟨rfl, rfl⟩ := List.cons.inj h
      exact hops front value back rfl

theorem LastWrite.not_unwritten (h : LastWrite start ops bank r value) :
    ¬ Unwritten start ops bank r := by
  obtain ⟨before, after, rfl, hbank, _⟩ := h
  intro hunwritten
  exact hunwritten before value after rfl hbank

theorem LastWrite.cons (op : BankOp) (h : LastWrite (op.follow start) ops bank r value) :
    LastWrite start (op :: ops) bank r value := by
  obtain ⟨before, after, rfl, hbank, hafter⟩ := h
  exact ⟨op :: before, after, rfl, hbank, hafter⟩

/-- Either nothing is written or there is a last write. -/
theorem unwritten_or_exists_lastWrite (start : Bank) (ops : List BankOp) (bank : Bank)
    (r : Register) : Unwritten start ops bank r ∨ ∃ value, LastWrite start ops bank r value := by
  induction ops generalizing start with
  | nil => exact .inl unwritten_nil
  | cons op ops ih =>
    rcases ih (op.follow start) with hops | ⟨value, hlast⟩
    · by_cases hop : ∃ value, op = .write r value ∧ start = bank
      · obtain ⟨value, rfl, rfl⟩ := hop
        exact .inr ⟨value, [], ops, rfl, rfl, hops⟩
      · refine .inl (unwritten_cons_iff.mpr ⟨?_, hops⟩)
        intro value hwrite hbank
        exact hop ⟨value, hwrite, hbank⟩
    · exact .inr ⟨value, hlast.cons op⟩

end BankOp

/-! ## 3. The picture -/

/-- The registers as thirty-two cells, and the bank that is selected of them. -/
@[ext] structure Banks where
  selected : Bank
  cells : Bank → Register → Byte

namespace Banks

open BankOp (LastWrite Unwritten followAll)

def ofMemory (m : Memory) : Banks := ⟨m.psw.selected, fun bank r => m.read (bank.cell r)⟩

/-- A value written to one cell. -/
def write (banks : Banks) (bank : Bank) (r : Register) (value : Byte) : Banks :=
  { banks with
    cells := fun bank' r' => if bank = bank' ∧ r = r' then value else banks.cells bank' r' }

def perform (banks : Banks) : BankOp → Banks
  | .write r value => banks.write banks.selected r value
  | op => { banks with selected := op.follow banks.selected }

def performAll (banks : Banks) (ops : List BankOp) : Banks := ops.foldl perform banks

theorem selected_setBank (psw : Psw) (number : Byte) :
    (psw.setBank number).selected = .ofNat number.toNat := by
  have hbits : ((psw.bits &&& ~~~Psw.bankMask) ||| ((number &&& 3) <<< 3)).extractLsb' 3 2 =
      number.extractLsb' 0 2 := by
    apply BitVec.eq_of_getLsbD_eq
    intro i hi
    rcases (by omega : i = 0 ∨ i = 1) with rfl | rfl <;> simp
  have hnumber : (number.extractLsb' 0 2).toFin = Bank.ofNat number.toNat := by
    apply Fin.ext
    show (number.extractLsb' 0 2).toNat = number.toNat % 4
    rw [BitVec.extractLsb'_toNat, Nat.shiftRight_zero]
  rw [Psw.selected, Psw.setBank, hbits, hnumber]

/-- A status word that is written leaves the cells alone. -/
theorem ofMemory_setPsw (m : Memory) (psw : Psw) :
    ofMemory (m.setPsw psw) = { ofMemory m with selected := psw.selected } := by
  refine Banks.ext ?_ ?_
  · exact congrArg Psw.selected (m.psw_setPsw psw)
  · funext bank r
    exact m.read_write_of_ne psw.bits (bank.cell_ne_psw r)

theorem ofMemory_setBit (m : Memory) (bit : BankBit) (on : Bool) :
    ofMemory (m.setBit bit.place on) =
      { ofMemory m with selected := (BankOp.setBit bit on).follow m.psw.selected } := by
  have hbits : ∀ (b : Byte) (bit : BankBit) (on : Bool),
      (Psw.mk (if on then b ||| bit.place.mask else b &&& ~~~bit.place.mask)).selected =
        (BankOp.setBit bit on).follow (Psw.mk b).selected := by
    intro b bit on
    revert b
    cases bit <;> cases on <;> decide +kernel
  have hpsw : m.setBit bit.place on = m.setPsw
      ⟨if on then m.psw.bits ||| bit.place.mask else m.psw.bits &&& ~~~bit.place.mask⟩ := by
    cases bit <;> rfl
  rw [hpsw, ofMemory_setPsw, hbits]

theorem ofMemory_setRegister (m : Memory) (r : Register) (value : Byte) :
    ofMemory (m.setRegister r value) = (ofMemory m).write m.psw.selected r value := by
  rw [Memory.setRegister, m.registerAddr_eq]
  refine Banks.ext ?_ ?_
  · exact congrArg (fun bits => (Psw.mk bits).selected)
      (m.read_write_of_ne value (m.psw.selected.cell_ne_psw r).symm)
  · funext bank r'
    show (m.write _ value).read _ = _
    rw [m.read_write]
    simp only [Bank.cell_inj]
    rfl

/-- **Memory agrees with the picture.** -/
theorem ofMemory_perform (m : Memory) (op : BankOp) :
    ofMemory (op.perform m) = (ofMemory m).perform op := by
  cases op with
  | select number =>
    rw [BankOp.perform, ofMemory_setPsw, selected_setBank]
    rfl
  | assign psw => exact ofMemory_setPsw m psw
  | setBit bit on => exact ofMemory_setBit m bit on
  | write r value => exact ofMemory_setRegister m r value
  | read r => rfl

theorem ofMemory_performAll (m : Memory) (ops : List BankOp) :
    ofMemory (BankOp.performAll m ops) = (ofMemory m).performAll ops := by
  induction ops generalizing m with
  | nil => rfl
  | cons op ops ih =>
    show ofMemory (BankOp.performAll (op.perform m) ops) = ((ofMemory m).perform op).performAll ops
    rw [ih, ofMemory_perform]

variable {banks : Banks} {bank : Bank} {op : BankOp} {ops : List BankOp} {r : Register}
  {value : Byte}

theorem selected_perform (banks : Banks) (op : BankOp) :
    (banks.perform op).selected = op.follow banks.selected := by
  cases op <;> rfl

theorem selected_performAll (banks : Banks) (ops : List BankOp) :
    (banks.performAll ops).selected = followAll banks.selected ops := by
  induction ops generalizing banks with
  | nil => rfl
  | cons op ops ih =>
    show ((banks.perform op).performAll ops).selected = followAll (op.follow banks.selected) ops
    rw [ih, selected_perform]

theorem cells_perform (h : ∀ value, op = .write r value → banks.selected ≠ bank) :
    (banks.perform op).cells bank r = banks.cells bank r := by
  cases op with
  | write r' value =>
    refine if_neg ?_
    rintro ⟨hbank, rfl⟩
    exact h value rfl hbank
  | select | assign | setBit | read => rfl

/-- A cell that is not written keeps its value. -/
theorem cells_of_unwritten (h : Unwritten banks.selected ops bank r) :
    (banks.performAll ops).cells bank r = banks.cells bank r := by
  induction ops generalizing banks with
  | nil => rfl
  | cons op ops ih =>
    obtain ⟨hop, hops⟩ := BankOp.unwritten_cons_iff.mp h
    rw [← selected_perform] at hops
    exact (ih hops).trans (cells_perform hop)

/-- A cell that is written has the last value that was written. -/
theorem cells_of_lastWrite (h : LastWrite banks.selected ops bank r value) :
    (banks.performAll ops).cells bank r = value := by
  obtain ⟨before, after, rfl, hbank, hafter⟩ := h
  have hselected : (banks.performAll before).selected = bank := by
    rw [selected_performAll, hbank]
  have hsplit : banks.performAll (before ++ .write r value :: after) =
      ((banks.performAll before).write bank r value).performAll after := by
    rw [performAll, List.foldl_append, ← hselected]
    rfl
  have hlast : Unwritten ((banks.performAll before).write bank r value).selected after bank r := by
    show Unwritten (banks.performAll before).selected after bank r
    rw [hselected]
    exact hafter
  rw [hsplit, cells_of_unwritten hlast]
  exact if_pos ⟨rfl, rfl⟩

end Banks

/-! ## 4. Machines -/

namespace BankOp

variable {m : Memory} {op : BankOp} {addr : Byte}

/-- A write to a register changes one cell of the selected bank. -/
theorem read_perform_write (m : Memory) (r : Register) (value : Byte)
    (h : addr ≠ m.psw.selected.cell r) :
    (perform m (.write r value)).read addr = m.read addr := by
  rw [perform, Memory.setRegister, m.registerAddr_eq]
  exact m.read_write_of_ne value h.symm

/-- A selection changes the status word. -/
theorem read_perform_selection (m : Memory) (hop : op.isSelection = true) (h : addr ≠ Sfr.psw) :
    (perform m op).read addr = m.read addr := by
  cases op with
  | select number => exact m.read_write_of_ne _ h.symm
  | assign psw => exact m.read_write_of_ne _ h.symm
  | setBit bit on => cases bit <;> exact m.read_write_of_ne _ h.symm
  | write | read => exact nomatch hop

end BankOp

namespace Machine

open BankOp (LastWrite follow followAll perform performAll)

/-- `SETB` and `CLR` of a bit that selects a bank do just that. -/
theorem execute_bankBit (m : Machine) (symbols : Symbols) (bit : BankBit) (on : Bool) :
    m.execute symbols (if on then .setb else .clr) [Operand.ofWord bit.name] =
      .ok ⟨{ m with mem := perform m.mem (.setBit bit on), pc := m.pc + 1 }, false, false⟩ := by
  have hplace : (Operand.ofWord bit.name).bitPlace? symbols = some bit.place := by
    cases bit <;> rfl
  have hset : Operand.setBit symbols (some (Operand.ofWord bit.name)) on m.mem =
      perform m.mem (.setBit bit on) := by
    rw [Operand.setBit, Option.bind_some, hplace]
    rfl
  cases on with
  | true =>
    have heffect : Effect.of symbols m.mem .setb [Operand.ofWord bit.name] m.pc =
        Effect.ofMemory (perform m.mem (.setBit bit true)) := congrArg Effect.ofMemory hset
    exact m.execute_following symbols .setb _ rfl heffect nofun
  | false =>
    have heffect : Effect.of symbols m.mem .clr [Operand.ofWord bit.name] m.pc =
        Effect.ofMemory (perform m.mem (.setBit bit false)) := by
      rw [← hset]
      cases bit <;> rfl
    exact m.execute_following symbols .clr _ rfl heffect nofun

/-- **The registers are thirty-two cells.** After any sequence of selections, writes and reads a
    register of the selected bank has the last value that was written to it while the same bank was
    selected, and what its cell held at first if there was none. All eight of the bank are listed
    so. A write to a register changes its cell alone and a selection the status word alone, and no
    two registers have a cell in common. The instructions that set and clear one of the two bits
    are such selections. -/
theorem registers_are_cells (m : Machine) (symbols : Symbols) (ops : List BankOp) :
    let start := m.mem.psw.selected
    let bank := followAll start ops
    let after := performAll m.mem ops
    (∀ r value, LastWrite start ops bank r value → after.register r = value) ∧
    (∀ r, (∀ value, ¬ LastWrite start ops bank r value) →
      after.register r = m.mem.read (bank.cell r)) ∧
    after.psw.bank.toNat = bank.val ∧
    after.registers = (List.finRange 8).map (fun r => after.read (bank.cell r)) ∧
    (∀ r value addr, addr ≠ bank.cell r →
      (perform after (.write r value)).read addr = after.read addr) ∧
    (∀ op, op.isSelection = true → ∀ addr, addr ≠ Sfr.psw →
      (perform after op).read addr = after.read addr) ∧
    (∀ bank bank' : Bank, ∀ r r', bank.cell r = bank'.cell r' ↔ bank = bank' ∧ r = r') ∧
    ∀ (bit : BankBit) on, m.execute symbols (if on then .setb else .clr) [Operand.ofWord bit.name] =
      .ok ⟨{ m with mem := perform m.mem (.setBit bit on), pc := m.pc + 1 }, false, false⟩ := by
  intro start bank after
  have hafter : Banks.ofMemory after = (Banks.ofMemory m.mem).performAll ops :=
    Banks.ofMemory_performAll m.mem ops
  have hselected : after.psw.selected = bank := by
    have hpicture := congrArg Banks.selected hafter
    rwa [Banks.selected_performAll] at hpicture
  have hcell : ∀ r, after.registerAddr r = bank.cell r := by
    intro r
    rw [Memory.registerAddr_eq, hselected]
  have hregister : ∀ r, after.register r =
      ((Banks.ofMemory m.mem).performAll ops).cells bank r := by
    intro r
    rw [Memory.register, hcell, ← hafter]
    rfl
  refine ⟨?_, ?_, ?_, ?_, ?_, ?_, ?_, ?_⟩
  · intro r value hlast
    rw [hregister]
    exact Banks.cells_of_lastWrite hlast
  · intro r hnone
    rw [hregister]
    refine Banks.cells_of_unwritten ?_
    rcases BankOp.unwritten_or_exists_lastWrite start ops bank r with hunwritten | ⟨value, hlast⟩
    · exact hunwritten
    · exact absurd hlast (hnone value)
  · rw [Psw.bank_toNat, hselected]
  · refine List.map_congr_left fun r _ => ?_
    rw [Memory.register, hcell]
  · intro r value addr haddr
    rw [← hselected] at haddr
    exact BankOp.read_perform_write after r value haddr
  · intro op hop addr haddr
    exact BankOp.read_perform_selection after hop haddr
  · intro bank bank' r r'
    exact Bank.cell_inj
  · intro bit on
    exact m.execute_bankBit symbols bit on

/-- `R0` of two banks that are selected by a bit, by a number and by a whole status word. -/
theorem registers_are_cells_of_two_banks :
    let ops : List BankOp := [.write 0 0x11, .setBit .rs0 true, .write 0 0x22, .write 1 0x33]
    (performAll Memory.zero (ops ++ [.select 4])).register 0 = 0x11 ∧
    (performAll Memory.zero (ops ++ [.select 4])).register 1 = 0 ∧
    (performAll Memory.zero (ops ++ [.select 4, .assign ⟨0xEF⟩])).register 0 = 0x22 := by
  intro ops
  let m : Machine := ⟨Memory.zero, 0, 0, .idle, false⟩
  have hstart : m.mem.psw.selected = 0 := by
    show (Psw.mk (Memory.zero.read Sfr.psw)).selected = 0
    rw [Memory.read_zero]
    rfl
  obtain ⟨hlast, hnone, -⟩ := m.registers_are_cells ∅ (ops ++ [.select 4])
  obtain ⟨hlast', -⟩ := m.registers_are_cells ∅ (ops ++ [.select 4, .assign ⟨0xEF⟩])
  have hbank : followAll 0 (ops ++ [.select 4]) = 0 := by decide
  rw [hstart] at hlast hnone hlast'
  rw [hbank] at hlast hnone
  refine ⟨hlast 0 0x11 ?_, (hnone 1 ?_).trans (Memory.read_zero _), hlast' 0 0x22 ?_⟩
  · refine ⟨[], _, rfl, rfl, ?_⟩
    simp [BankOp.unwritten_cons_iff, BankOp.unwritten_nil, follow, Bank.ofNat]
  · intro value hwrite
    refine hwrite.not_unwritten ?_
    simp [ops, BankOp.unwritten_cons_iff, BankOp.unwritten_nil, follow, Bank.ofNat]
  · refine ⟨[.write 0 0x11, .setBit .rs0 true], _, rfl, rfl, ?_⟩
    simp [BankOp.unwritten_cons_iff, BankOp.unwritten_nil]

end Machine
end Mcs51
