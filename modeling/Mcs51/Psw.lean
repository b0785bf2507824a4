import Mcs51.Byte

/-!
# The program status word

The flags of the last computation, one flag for the program's own use, and the two bits that
select a register bank. From the highest bit down: carry, auxiliary carry (out of bit 3), user
flag, bank (two bits), overflow, a bit without a meaning, and the parity of the accumulator.
-/

namespace Mcs51

/-- The program status word. -/
structure Psw where
  bits : Byte
  deriving DecidableEq

namespace Psw

abbrev cyMask : Byte := 0x80  -- carry
abbrev acMask : Byte := 0x40  -- carry out of bit 3
abbrev f0Mask : Byte := 0x20  -- the flag for the program's own use
abbrev bankMask : Byte := 0x18  -- both bits that select the bank
abbrev ovMask : Byte := 0x04  -- signed overflow
abbrev pMask : Byte := 0x01  -- parity of the accumulator

/-- Whether every bit of a mask is set. -/
def flag (psw : Psw) (mask : Byte) : Bool := psw.bits &&& mask == mask

/-- The word with every bit of a mask set or cleared. -/
def setFlag (psw : Psw) (mask : Byte) (on : Bool) : Psw :=
  ⟨if on then psw.bits ||| mask else psw.bits &&& ~~~mask⟩

def cy (psw : Psw) : Bool := psw.flag cyMask

def ac (psw : Psw) : Bool := psw.flag acMask

def ov (psw : Psw) : Bool := psw.flag ovMask

def p (psw : Psw) : Bool := psw.flag pMask

/-- The selected bank, below four. -/
def bank (psw : Psw) : Byte := (psw.bits &&& bankMask) >>> 3

/-- The word with another bank selected; only the two lowest bits of the number count. -/
def setBank (psw : Psw) (bank : Byte) : Psw :=
  ⟨(psw.bits &&& ~~~bankMask) ||| ((bank &&& 3) <<< 3)⟩

/-- Of two settings of one flag the second counts. -/
theorem setFlag_setFlag (psw : Psw) (mask : Byte) (first second : Bool) :
    (psw.setFlag mask first).setFlag mask second = psw.setFlag mask second := by
  refine congrArg Psw.mk ?_
  apply BitVec.eq_of_getLsbD_eq
  intro i hi
  cases first <;> cases second <;> simp only [setFlag, BitVec.getLsbD_or, BitVec.getLsbD_and,
    BitVec.getLsbD_not, Bool.false_eq_true, if_true, if_false, hi, decide_true, Bool.true_and] <;>
    cases psw.bits.getLsbD i <;> cases mask.getLsbD i <;> rfl

/-- Setting the parity flag to what it is changes nothing. -/
theorem setFlag_p (psw : Psw) : psw.setFlag pMask psw.p = psw := by
  have h : ∀ b : Byte, (if b &&& pMask == pMask then b ||| pMask else b &&& ~~~pMask) = b := by
    decide +kernel
  exact congrArg Psw.mk (h psw.bits)

/-- The flags that are set, each by a letter. -/
def letters (psw : Psw) : List Char :=
  ([(cyMask, 'C'), (acMask, 'A'), (f0Mask, 'F'), (ovMask, 'O'), (pMask, 'P')].filter
    fun entry => psw.flag entry.1).map (·.2)

/-- The word as it is shown. -/
def render (psw : Psw) : String :=
  "Psw \x7b bank: " ++ Nat.repr psw.bank.toNat ++ ", flags: " ++ String.ofList psw.letters ++
    " \x7d"

end Psw
end Mcs51
