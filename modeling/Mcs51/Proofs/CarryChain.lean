import Mathlib.Tactic.LinearCombination
import Mathlib.Tactic.Zify
import Mcs51.Byte

/-!
# Numbers of many bytes

Additions and subtractions take a carry in so that numbers longer than a byte can be worked on byte
by byte, each with the carry out of the one before. `Alu.chain` is what such a program does, and
this file says that it computes the sum or the difference, that the carry after the last byte is
that of the whole number, and that the overflow of the last byte is the signed overflow of the whole
number.

Addition and subtraction are proved at once. Both are `Digitwise`: they differ only in the sign `σ`
with which the second operand and the carry count, in and out. The induction is on the bytes, for
every carry in, and what it carries is one equation of integers in which the carry between two bytes
cancels. Nothing is taken modulo anything until the end.
-/

namespace Mcs51
namespace Alu

/-! ## 1. Numbers as bytes -/

/-- The number that bytes stand for, the lowest byte first. -/
def number : List Byte → Nat
  | [] => 0
  | b :: bs => b.toNat + 256 * number bs

/-- The number that bytes stand for in two's complement. -/
def signedNumber (bs : List Byte) : Int := Int.bmod (number bs) (256 ^ bs.length)

/-- A number has a two's complement in so many bytes. -/
def fits (n : Nat) (z : Int) : Bool := -(256 ^ n : Int) ≤ 2 * z && 2 * z < (256 ^ n : Int)

theorem number_lt (bs : List Byte) : number bs < 256 ^ bs.length := by
  induction bs with
  | nil => exact Nat.one_pos
  | cons b bs ih =>
    have hb := b.isLt
    rw [number, List.length_cons, Nat.pow_succ]
    omega

theorem signedNumber_eq (bs : List Byte) :
    signedNumber bs =
      if 2 * number bs < 256 ^ bs.length then (number bs : Int)
      else number bs - 256 ^ bs.length := by
  have hlt := number_lt bs
  have hcast : (256 : Int) ^ bs.length = ((256 ^ bs.length : Nat) : Int) := by norm_cast
  have hmod : (number bs : Int) % ((256 ^ bs.length : Nat) : Int) = number bs :=
    Int.emod_eq_of_lt (by omega) (by omega)
  rw [signedNumber, Int.bmod_def, hmod, hcast]
  split <;> split <;> omega

/-- Only the highest byte has a sign. -/
theorem signedNumber_cons (b : Byte) {bs : List Byte} (h : bs ≠ []) :
    signedNumber (b :: bs) = b.toNat + 256 * signedNumber bs := by
  have hb := b.isLt
  obtain ⟨n, hn⟩ := Nat.exists_eq_succ_of_ne_zero (mt List.length_eq_zero_iff.mp h)
  rw [signedNumber_eq, signedNumber_eq, number, List.length_cons, hn]
  push_cast [pow_succ]
  split <;> split <;> omega

theorem signedNumber_singleton (b : Byte) : signedNumber [b] = b.toInt := by
  rw [signedNumber_eq, BitVec.toInt_eq_toNat_cond]
  simp [number]

/-- A byte below a number does not count for whether it fits. -/
theorem fits_succ {n : Nat} (hn : n ≠ 0) (b : Byte) (z : Int) :
    fits (n + 1) (b.toNat + 256 * z) = fits n z := by
  have hb := b.isLt
  obtain ⟨k, rfl⟩ := Nat.exists_eq_succ_of_ne_zero hn
  rw [Bool.eq_iff_iff]
  simp only [fits, pow_succ, Bool.and_eq_true, decide_eq_true_eq]
  omega

/-! ## 2. One byte -/

/-- An operation on bytes that adds the second operand and the carry with a sign, and hands over
with the same sign what does not fit. -/
structure Digitwise (op : Byte → Byte → Bool → Output) (σ : Int) : Prop where
  sum (x y : Byte) (c : Bool) :
    (op x y c).value.toNat + 256 * (σ * (op x y c).carry.toNat) =
      x.toNat + σ * (y.toNat + c.toNat)
  overflow (x y : Byte) (c : Bool) :
    (op x y c).overflow = !fits 1 (x.toInt + σ * (y.toInt + c.toNat))

theorem add_digitwise : Digitwise add 1 where
  sum x y c := by
    have hx := x.isLt
    have hy := y.isLt
    have hc := c.toNat_le
    simp only [add, BitVec.toNat_ofNat]
    by_cases h : 0xFF < x.toNat + y.toNat + c.toNat
    · simp only [h, decide_true, Bool.toNat_true]
      omega
    · simp only [h, decide_false, Bool.toNat_false]
      omega
  overflow x y c := by
    have hx := x.isLt
    have hy := y.isLt
    have hc := c.toNat_le
    rw [Bool.eq_iff_iff]
    simp only [add, fits, BitVec.msb_eq_decide, BitVec.toInt_eq_toNat_cond, BitVec.toNat_ofNat,
      Bool.and_eq_true, beq_iff_eq, bne_iff_ne, decide_eq_decide, ne_eq, Bool.not_eq_true',
      Bool.and_eq_false_iff, decide_eq_false_iff_not]
    split <;> split <;> omega

theorem subtract_digitwise : Digitwise subtract (-1) where
  sum x y c := by
    have hx := x.isLt
    have hy := y.isLt
    have hc := c.toNat_le
    simp only [subtract, BitVec.toNat_ofInt]
    by_cases h : x.toNat < y.toNat + c.toNat
    · simp only [h, decide_true, Bool.toNat_true]
      omega
    · simp only [h, decide_false, Bool.toNat_false]
      omega
  overflow x y c := by
    have hx := x.isLt
    have hy := y.isLt
    have hc := c.toNat_le
    rw [Bool.eq_iff_iff]
    simp only [subtract, fits, BitVec.msb_eq_decide, BitVec.toInt_eq_toNat_cond, BitVec.toNat_ofInt,
      Bool.and_eq_true, bne_iff_ne, decide_eq_decide, ne_eq, Bool.not_eq_true',
      Bool.and_eq_false_iff, decide_eq_false_iff_not]
    split <;> split <;> omega

/-- A subtraction takes back an addition, and borrows what was carried. -/
theorem subtract_add (x y : Byte) (c : Bool) :
    (subtract (add x y c).value y c).value = x ∧
      (subtract (add x y c).value y c).carry = (add x y c).carry := by
  have hadd := add_digitwise.sum x y c
  have hsub := subtract_digitwise.sum (add x y c).value y c
  have hx := x.isLt
  have hvalue := (subtract (add x y c).value y c).value.isLt
  have hborrow : (subtract (add x y c).value y c).carry.toNat = (add x y c).carry.toNat := by omega
  constructor
  · apply BitVec.eq_of_toNat_eq
    omega
  · cases h : (subtract (add x y c).value y c).carry <;> cases h' : (add x y c).carry <;>
      simp_all

/-! ## 3. Many bytes -/

/-- What a chain leaves behind: its bytes, and the flags of the last one. -/
structure Wide where
  bytes : List Byte
  carry : Bool
  overflow : Bool
  deriving DecidableEq

/-- An operation byte by byte, each with the carry out of the one before. Where there are no bytes
the flags are as they were. -/
def chain (op : Byte → Byte → Bool → Output) : List Byte → List Byte → Bool → Bool → Wide
  | x :: xs, y :: ys, carry, _ =>
    let out := op x y carry
    let rest := chain op xs ys out.carry out.overflow
    { rest with bytes := out.value :: rest.bytes }
  | _, _, carry, overflow => ⟨[], carry, overflow⟩

section
variable {op : Byte → Byte → Bool → Output} {σ : Int}

theorem length_chain (op : Byte → Byte → Bool → Output) {xs ys : List Byte}
    (h : xs.length = ys.length) (c v : Bool) : (chain op xs ys c v).bytes.length = xs.length := by
  induction xs generalizing ys c v with
  | nil => rfl
  | cons x xs ih =>
    cases ys with
    | nil => exact nomatch h
    | cons y ys => exact congrArg (· + 1) (ih (Nat.succ.inj h) _ _)

/-- The whole sum, with the last carry as the digit above all bytes. -/
theorem Digitwise.number_chain (hop : Digitwise op σ) {xs ys : List Byte}
    (h : xs.length = ys.length) (c v : Bool) :
    number (chain op xs ys c v).bytes +
        256 ^ xs.length * (σ * (chain op xs ys c v).carry.toNat) =
      number xs + σ * (number ys + c.toNat) := by
  induction xs generalizing ys c v with
  | nil =>
    cases ys with
    | nil => simp [chain, number]
    | cons y ys => exact nomatch h
  | cons x xs ih =>
    cases ys with
    | nil => exact nomatch h
    | cons y ys =>
      have hbyte := hop.sum x y c
      have hrest := ih (Nat.succ.inj h) (op x y c).carry (op x y c).overflow
      simp only [chain, number, List.length_cons, pow_succ, Nat.cast_add, Nat.cast_mul,
        Nat.cast_ofNat]
      linear_combination hbyte + 256 * hrest

theorem Digitwise.overflow_chain (hop : Digitwise op σ) {xs ys : List Byte}
    (h : xs.length = ys.length) (hne : xs ≠ []) (c v : Bool) :
    (chain op xs ys c v).overflow =
      !fits xs.length (signedNumber xs + σ * (signedNumber ys + c.toNat)) := by
  induction xs generalizing ys c v with
  | nil => exact absurd rfl hne
  | cons x xs ih =>
    cases ys with
    | nil => exact nomatch h
    | cons y ys =>
      have hlen := Nat.succ.inj h
      by_cases hlast : xs = []
      · subst hlast
        obtain rfl := List.length_eq_zero_iff.mp hlen.symm
        rw [signedNumber_singleton, signedNumber_singleton]
        exact hop.overflow x y c
      · have hys : ys ≠ [] := by
          rintro rfl
          exact hlast (List.length_eq_zero_iff.mp hlen)
        have hsigned : signedNumber (x :: xs) + σ * (signedNumber (y :: ys) + c.toNat) =
            (op x y c).value.toNat +
              256 * (signedNumber xs + σ * (signedNumber ys + (op x y c).carry.toNat)) := by
          rw [signedNumber_cons x hlast, signedNumber_cons y hys]
          linear_combination -hop.sum x y c
        rw [hsigned, List.length_cons, fits_succ (mt List.length_eq_zero_iff.mp hlast)]
        exact ih hlen hlast _ _

theorem number_chain_lt (op : Byte → Byte → Bool → Output) {xs ys : List Byte}
    (h : xs.length = ys.length) (c v : Bool) :
    number (chain op xs ys c v).bytes < 256 ^ xs.length := by
  have hlt := number_lt (chain op xs ys c v).bytes
  rwa [length_chain op h c v] at hlt

theorem add_chain {xs ys : List Byte} (h : xs.length = ys.length) (c v : Bool) :
    number (chain add xs ys c v).bytes = (number xs + number ys + c.toNat) % 256 ^ xs.length ∧
      (chain add xs ys c v).carry =
        decide (256 ^ xs.length ≤ number xs + number ys + c.toNat) := by
  have hlt := number_chain_lt add h c v
  have htotal : number (chain add xs ys c v).bytes +
      256 ^ xs.length * (chain add xs ys c v).carry.toNat = number xs + number ys + c.toNat := by
    zify
    linear_combination add_digitwise.number_chain h c v
  constructor
  · rw [← htotal, Nat.add_mul_mod_self_left, Nat.mod_eq_of_lt hlt]
  · cases hcarry : (chain add xs ys c v).carry with
    | true =>
      rw [hcarry, Bool.toNat_true, mul_one] at htotal
      exact (decide_eq_true (by omega)).symm
    | false =>
      rw [hcarry, Bool.toNat_false, mul_zero] at htotal
      exact (decide_eq_false (by omega)).symm

theorem subtract_chain {xs ys : List Byte} (h : xs.length = ys.length) (c v : Bool) :
    (number (chain subtract xs ys c v).bytes : Int) =
        ((number xs : Int) - number ys - c.toNat) % (256 ^ xs.length : Nat) ∧
      (chain subtract xs ys c v).carry = decide (number xs < number ys + c.toNat) := by
  have hlt := number_chain_lt subtract h c v
  have htotal : (number (chain subtract xs ys c v).bytes : Int) =
      (number xs : Int) - number ys - c.toNat +
        (256 ^ xs.length : Nat) * (chain subtract xs ys c v).carry.toNat := by
    push_cast
    linear_combination subtract_digitwise.number_chain h c v
  constructor
  · rw [← Int.emod_eq_of_lt (Int.natCast_nonneg _) (Int.ofNat_lt.mpr hlt), htotal,
      Int.add_mul_emod_self_left]
  · cases hborrow : (chain subtract xs ys c v).carry with
    | true =>
      rw [hborrow, Bool.toNat_true, Nat.cast_one, mul_one] at htotal
      exact (decide_eq_true (by omega)).symm
    | false =>
      rw [hborrow, Bool.toNat_false, Nat.cast_zero, mul_zero] at htotal
      exact (decide_eq_false (by omega)).symm

/-- A subtraction of many bytes takes back an addition, byte by byte. -/
theorem subtract_chain_add {xs ys : List Byte} (h : xs.length = ys.length) (c v v' : Bool) :
    (chain subtract (chain add xs ys c v).bytes ys c v').bytes = xs := by
  induction xs generalizing ys c v v' with
  | nil =>
    cases ys with
    | nil => rfl
    | cons y ys => exact nomatch h
  | cons x xs ih =>
    cases ys with
    | nil => exact nomatch h
    | cons y ys =>
      obtain ⟨hvalue, hcarry⟩ := subtract_add x y c
      simp only [chain, hvalue, hcarry]
      rw [ih (Nat.succ.inj h)]

end

/-- **Carry chains are exact.** Of two numbers of equally many bytes, at least one, and a carry in:
    the chain of additions gives the sum without what does not fit, carries if it does not fit, and
    overflows if the signed sum does not fit; the chain of subtractions gives the difference,
    borrows if it is negative, and overflows if the signed difference does not fit; and the chain of
    subtractions takes back the chain of additions. -/
theorem chain_is_exact (xs ys : List Byte) (c v : Bool) (h : xs.length = ys.length)
    (hne : xs ≠ []) :
    let size := 256 ^ xs.length
    let sum := chain add xs ys c v
    let difference := chain subtract xs ys c v
    (sum.bytes.length = xs.length ∧
      number sum.bytes = (number xs + number ys + c.toNat) % size ∧
      sum.carry = decide (size ≤ number xs + number ys + c.toNat) ∧
      sum.overflow = !fits xs.length (signedNumber xs + signedNumber ys + c.toNat)) ∧
    (difference.bytes.length = xs.length ∧
      (number difference.bytes : Int) =
        ((number xs : Int) - number ys - c.toNat) % (size : Nat) ∧
      difference.carry = decide (number xs < number ys + c.toNat) ∧
      difference.overflow = !fits xs.length (signedNumber xs - signedNumber ys - c.toNat)) ∧
    ∀ v', (chain subtract sum.bytes ys c v').bytes = xs := by
  obtain ⟨hsum, hcarry⟩ := add_chain h c v
  obtain ⟨hdifference, hborrow⟩ := subtract_chain h c v
  refine ⟨⟨length_chain add h c v, hsum, hcarry, ?_⟩,
    ⟨length_chain subtract h c v, hdifference, hborrow, ?_⟩, subtract_chain_add h c v⟩
  · rw [add_digitwise.overflow_chain h hne, one_mul, add_assoc]
  · rw [subtract_digitwise.overflow_chain h hne, neg_one_mul, neg_add, ← sub_eq_add_neg,
      ← add_sub_assoc, ← sub_eq_add_neg]

/-- `FFH` and `7FH` are 32767. One more carries into the highest byte, and there it is too much for
the sign. -/
theorem carry_into_sign :
    let sum := chain add [0xFF, 0x7F] [0x01, 0x00] false false
    number sum.bytes = 0x8000 ∧ sum.carry = false ∧ sum.overflow = true ∧
      (chain subtract sum.bytes [0x01, 0x00] false true).bytes = [0xFF, 0x7F] := by
  obtain ⟨⟨-, hnumber, hcarry, hoverflow⟩, -, hback⟩ :=
    chain_is_exact [0xFF, 0x7F] [0x01, 0x00] false false rfl (by decide)
  exact ⟨hnumber.trans (by decide), hcarry.trans (by decide), hoverflow.trans (by decide),
    hback true⟩

end Alu
end Mcs51
