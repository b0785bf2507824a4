import Mcs51.Memory
import Mcs51.Operand
import Mcs51.Psw

/-!
# Registers in memory

The accumulator, `B`, the status word, the stack pointer and the data pointer have no cells of
their own: each is the byte, or two bytes, at its address. So a register and the memory at its
address cannot disagree, and everything here is a reading or a writing of memory. The eight
registers of a bank are bytes as well, at an address that the status word selects.

The stack grows upwards: a push moves the pointer and then writes, a pop reads and then moves it
back. The pointer wraps around at the ends of memory.
-/

namespace Mcs51
namespace Memory

/-! ## 1. Single registers -/

def acc (m : Memory) : Byte := m.read Sfr.acc

/-- The memory with the accumulator replaced. Parity is left as it was. -/
def setAcc (m : Memory) (value : Byte) : Memory := m.write Sfr.acc value

def b (m : Memory) : Byte := m.read Sfr.b

def setB (m : Memory) (value : Byte) : Memory := m.write Sfr.b value

def psw (m : Memory) : Psw := ⟨m.read Sfr.psw⟩

def setPsw (m : Memory) (psw : Psw) : Memory := m.write Sfr.psw psw.bits

/-- The memory with flags of the status word set or cleared. -/
def setFlag (m : Memory) (mask : Byte) (on : Bool) : Memory := m.setPsw (m.psw.setFlag mask on)

def sp (m : Memory) : Byte := m.read Sfr.sp

def setSp (m : Memory) (value : Byte) : Memory := m.write Sfr.sp value

/-- The data pointer, whose upper byte has an address of its own. -/
def dptr (m : Memory) : Word := wordOf (m.read Sfr.dph) (m.read Sfr.dpl)

def setDptr (m : Memory) (value : Word) : Memory :=
  (m.write Sfr.dph (highByte value)).write Sfr.dpl (lowByte value)

/-! ## 2. Carry and parity -/

def carry (m : Memory) : Bool := m.psw.cy

def setCarry (m : Memory) (on : Bool) : Memory := m.setFlag Psw.cyMask on

/-- The memory with the parity flag as the accumulator has it. -/
def refreshParity (m : Memory) : Memory := m.setFlag Psw.pMask (parity m.acc)

@[simp] theorem acc_setAcc (m : Memory) (value : Byte) : (m.setAcc value).acc = value :=
  m.read_write_self Sfr.acc value

@[simp] theorem psw_setAcc (m : Memory) (value : Byte) : (m.setAcc value).psw = m.psw :=
  congrArg Psw.mk (m.read_write_of_ne value (by decide))

@[simp] theorem psw_setPsw (m : Memory) (psw : Psw) : (m.setPsw psw).psw = psw :=
  congrArg Psw.mk (m.read_write_self Sfr.psw psw.bits)

@[simp] theorem acc_setPsw (m : Memory) (psw : Psw) : (m.setPsw psw).acc = m.acc :=
  m.read_write_of_ne psw.bits (by decide)

/-- Bringing parity up to date changes nothing where it is. -/
theorem refreshParity_of_p {m : Memory} (h : m.psw.p = parity m.acc) : m.refreshParity = m := by
  unfold refreshParity setFlag
  rw [← h, Psw.setFlag_p]
  exact m.write_read Sfr.psw

/-- Parity that is brought up to date before the accumulator is written again does not show. -/
theorem refreshParity_setAcc_refreshParity (m : Memory) (value : Byte) :
    (m.refreshParity.setAcc value).refreshParity = (m.setAcc value).refreshParity := by
  have hcomm : m.refreshParity.setAcc value =
      (m.setAcc value).setPsw (m.psw.setFlag Psw.pMask (parity m.acc)) :=
    m.write_comm _ _ (by decide)
  rw [hcomm]
  simp only [refreshParity, setFlag, psw_setPsw, acc_setPsw, acc_setAcc, psw_setAcc,
    Psw.setFlag_setFlag]
  exact (m.setAcc value).write_write Sfr.psw _ _

/-! ## 3. Banked registers -/

/-- The address of a register in the selected bank. -/
def registerAddr (m : Memory) (r : Register) : Byte := m.psw.bank * 8 + BitVec.ofNat 8 r.val

/-- The byte of a register of the selected bank. -/
def register (m : Memory) (r : Register) : Byte := m.read (m.registerAddr r)

def setRegister (m : Memory) (r : Register) (value : Byte) : Memory :=
  m.write (m.registerAddr r) value

/-- The registers of the selected bank, in order. -/
def registers (m : Memory) : List Byte := (List.finRange 8).map m.register

/-! ## 4. The stack -/

/-- The memory with a byte pushed: the pointer moves first, and the byte goes where it points then.
-/
def push (m : Memory) (value : Byte) : Memory :=
  (m.setSp (m.sp + 1)).write (m.sp + 1) value

/-- The byte on top of the stack. -/
def top (m : Memory) : Byte := m.read m.sp

/-- The memory with the pointer moved back over the top; the byte stays where it is. -/
def pop (m : Memory) : Memory := m.setSp (m.sp - 1)

/-- The memory with a word pushed, its upper byte first. -/
def pushWord (m : Memory) (w : Word) : Memory := (m.push (highByte w)).push (lowByte w)

/-- The word on top of the stack: its lower byte is on top. -/
def topWord (m : Memory) : Word := wordOf m.pop.top m.top

/-- The memory with the pointer moved back over a word. -/
def popWord (m : Memory) : Memory := m.pop.pop

end Memory
end Mcs51
