import Mcs51.Instruction.Flow

/-!
# Jumps that lead nowhere

`Flow.exit` answers where an instruction goes by running through the mnemonics. This file says the
same as rules: `Jumps` has one for the jumps and calls, which always go to their target, and one for
each conditional branch, with the condition under which it does. `exit_eq_target_iff` is the
agreement, in both directions, and the rules are what is used from there on.

A target leads nowhere (`Nowhere`) if it is neither the line itself nor a code label, and that is
the only way an instruction can fail: `next_error_iff` says so, and which name the error carries.
-/

namespace Mcs51
namespace Flow

/-! ## 1. Which instructions go to a target -/

/-- The jumps and calls: they go to their first operand whatever memory holds. -/
def unconditional : List Mnemonic := [.sjmp, .ljmp, .ajmp, .jmp, .acall, .lcall, .call]

/-- An instruction goes to the line that an operand names, from the memory before it. -/
inductive Jumps (symbols : Symbols) (m : Memory) (ops : List Operand) :
    Mnemonic → Option Operand → Prop
  | always {mnemonic : Mnemonic} (h : mnemonic ∈ unconditional) :
      Jumps symbols m ops mnemonic ops[0]?
  | jc (h : m.carry = true) : Jumps symbols m ops .jc ops[0]?
  | jnc (h : m.carry = false) : Jumps symbols m ops .jnc ops[0]?
  | jz (h : m.acc = 0) : Jumps symbols m ops .jz ops[0]?
  | jnz (h : m.acc ≠ 0) : Jumps symbols m ops .jnz ops[0]?
  | jb (h : Operand.getBit symbols m ops[0]? = true) : Jumps symbols m ops .jb ops[1]?
  | jnb (h : Operand.getBit symbols m ops[0]? = false) : Jumps symbols m ops .jnb ops[1]?
  | jbc (h : Operand.getBit symbols m ops[0]? = true) : Jumps symbols m ops .jbc ops[1]?
  | cjne (h : Operand.getByte symbols m ops[0]? ≠ Operand.getByte symbols m ops[1]?) :
      Jumps symbols m ops .cjne ops[2]?
  | djnz (h : Operand.getByte symbols m ops[0]? - 1 ≠ 0) : Jumps symbols m ops .djnz ops[1]?

theorem branch_eq_target_iff {taken : Bool} {op op' : Option Operand} :
    branch taken op = .target op' ↔ taken = true ∧ op = op' := by
  cases taken <;> simp [branch]

/-- The count that `DJNZ` looks at is the one after counting down. -/
theorem sub_one_ne_zero_iff (x : Byte) : x - 1 ≠ 0 ↔ x ≠ 1 := by
  constructor
  · rintro h rfl
    exact h rfl
  · intro h h0
    exact h (by bv_omega)

variable {symbols : Symbols} {m : Memory} {ops : List Operand} {mnemonic : Mnemonic}

theorem Jumps.exit_eq {op : Option Operand} (h : Jumps symbols m ops mnemonic op) :
    exit symbols m mnemonic ops = .target op := by
  cases h with
  | always hm =>
    simp only [unconditional, List.mem_cons, List.not_mem_nil, or_false] at hm
    rcases hm with rfl | rfl | rfl | rfl | rfl | rfl | rfl <;> rfl
  | jnz h => exact branch_eq_target_iff.mpr ⟨decide_eq_true h, rfl⟩
  | djnz h => exact branch_eq_target_iff.mpr ⟨decide_eq_true ((sub_one_ne_zero_iff _).mp h), rfl⟩
  | _ h => simp [exit, branch, h]

/-- **The rules are exactly the targets of `exit`.** -/
theorem exit_eq_target_iff {op : Option Operand} :
    exit symbols m mnemonic ops = .target op ↔ Jumps symbols m ops mnemonic op := by
  refine ⟨fun h => ?_, Jumps.exit_eq⟩
  cases mnemonic <;> simp only [exit, branch_eq_target_iff, reduceCtorEq, Exit.target.injEq] at h
  case sjmp | ljmp | ajmp | jmp | acall | lcall | call =>
    subst h
    exact .always (by decide)
  case jc => obtain ⟨hc, rfl⟩ := h; exact .jc hc
  case jnc => obtain ⟨hc, rfl⟩ := h; exact .jnc (by simpa using hc)
  case jz => obtain ⟨hz, rfl⟩ := h; exact .jz (of_decide_eq_true hz)
  case jnz => obtain ⟨hz, rfl⟩ := h; exact .jnz (of_decide_eq_true hz)
  case jb => obtain ⟨hb, rfl⟩ := h; exact .jb hb
  case jnb => obtain ⟨hb, rfl⟩ := h; exact .jnb (by simpa using hb)
  case jbc => obtain ⟨hb, rfl⟩ := h; exact .jbc hb
  case cjne => obtain ⟨hx, rfl⟩ := h; exact .cjne (of_decide_eq_true hx)
  case djnz =>
    obtain ⟨hx, rfl⟩ := h
    exact .djnz ((sub_one_ne_zero_iff _).mpr (of_decide_eq_true hx))

/-- A directive is no jump, so whatever jumps is executed. -/
theorem Jumps.not_directive {op : Option Operand} (h : Jumps symbols m ops mnemonic op) :
    mnemonic.isDirective = false := by
  cases h with
  | always hm =>
    simp only [unconditional, List.mem_cons, List.not_mem_nil, or_false] at hm
    rcases hm with rfl | rfl | rfl | rfl | rfl | rfl | rfl <;> rfl
  | _ => rfl

/-! ## 2. Which targets cannot be found -/

/-- A target that is neither the line itself nor a code label. -/
def Nowhere (symbols : Symbols) (op : Option Operand) : Prop :=
  targetName op ≠ "$" ∧ ∀ line, symbols.get? (targetName op) ≠ some (.code line)

theorem lineOf?_eq_none_iff {name : String} :
    symbols.lineOf? name = none ↔ ∀ line, symbols.get? name ≠ some (.code line) := by
  unfold Symbols.lineOf?
  split
  · simp_all
  · simp_all

theorem target_error_iff {pc : Nat} {op : Option Operand} {e : RunError} :
    target symbols pc op = .error e ↔
      Nowhere symbols op ∧ e = .unresolvedLabel (targetName op) := by
  simp only [target, Nowhere, ← lineOf?_eq_none_iff]
  by_cases hd : targetName op = "$"
  · simp [hd]
  · cases hl : symbols.lineOf? (targetName op) with
    | none => simp [hd, eq_comm]
    | some line => simp [hd]

/-- **The only failure of an instruction** is a jump that leads nowhere. -/
theorem next_error_iff {pc : Nat} {e : RunError} :
    next symbols m mnemonic ops pc = .error e ↔
      ∃ op, Jumps symbols m ops mnemonic op ∧ Nowhere symbols op ∧
        e = .unresolvedLabel (targetName op) := by
  simp only [next, ← exit_eq_target_iff]
  simp only [← @target_error_iff symbols pc]
  cases exit symbols m mnemonic ops with
  | following => simp [Exit.resolve]
  | target op => simp [Exit.resolve]
  | line index => simp [Exit.resolve]

end Flow
end Mcs51
