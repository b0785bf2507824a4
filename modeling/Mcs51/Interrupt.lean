import Mcs51.Machine

/-!
# Interrupts

Five sources can ask for an interrupt. Each has a flag that is raised when it asks, a bit that
enables it, and a bit in the same place that gives it priority. Of the sources that ask and are
enabled, one with priority is chosen before one without, and among equals the first in a fixed
order. None is chosen unless interrupts are enabled as a whole.

Taking an interrupt pushes the line to come back to, goes to the line of the source's vector, and
lowers the source's flag after the push. The two flags of the serial line are left for the program
to lower. While an interrupt routine runs no other interrupt is due.
-/

namespace Mcs51

/-- A source of interrupts. -/
inductive Interrupt
  | ext0
  | timer0
  | ext1
  | timer1
  | serial
  deriving DecidableEq, Repr

namespace Interrupt

/-- Every source, the first to be chosen among equals first. -/
def inOrder : List Interrupt := [.ext0, .timer0, .ext1, .timer1, .serial]

/-- The address that a source goes to. -/
def vector : Interrupt → Word
  | .ext0 => 0x03
  | .timer0 => 0x0B
  | .ext1 => 0x13
  | .timer1 => 0x1B
  | .serial => 0x23

/-- The bit that enables a source, which is also its priority bit. -/
def enableBit : Interrupt → Byte
  | .ext0 => Sfr.ex0
  | .timer0 => Sfr.et0
  | .ext1 => Sfr.ex1
  | .timer1 => Sfr.et1
  | .serial => Sfr.es

/-- The register that holds the flag of a source. -/
def flagAddr : Interrupt → Byte
  | .serial => Sfr.scon
  | _ => Sfr.tcon

/-- The flag of a source in its register; the serial line has two. -/
def flagMask : Interrupt → Byte
  | .ext0 => Sfr.ie0
  | .timer0 => Sfr.tf0
  | .ext1 => Sfr.ie1
  | .timer1 => Sfr.tf1
  | .serial => Sfr.ri ||| Sfr.ti

/-- Whether a source is enabled and asks. Whether interrupts are enabled as a whole does not
matter here. -/
def asks (m : Memory) (i : Interrupt) : Bool :=
  m.read Sfr.ie &&& i.enableBit != 0 && m.read i.flagAddr &&& i.flagMask != 0

/-- The level of a source: one with priority, and zero without. -/
def level (m : Memory) (i : Interrupt) : Nat :=
  if m.read Sfr.ip &&& i.enableBit != 0 then 1 else 0

/-- The memory with the flag of a source lowered, unless it is for the program to lower. -/
def lowerFlag (i : Interrupt) (m : Memory) : Memory :=
  if i = .serial then m else m.modify i.flagAddr (· &&& ~~~i.flagMask)

/-- The source that is chosen, if any. -/
def choose (m : Memory) : Option Interrupt :=
  if m.read Sfr.ie &&& Sfr.ea = 0 then none
  else
    let asking := inOrder.filter (asks m)
    (asking.find? fun i => level m i = 1).or asking.head?

/-- Whatever is chosen asks, and interrupts are enabled as a whole. -/
theorem of_choose {m : Memory} {i : Interrupt} (h : choose m = some i) :
    m.read Sfr.ie &&& Sfr.ea ≠ 0 ∧ asks m i = true := by
  unfold choose at h
  split at h
  · exact nomatch h
  · rename_i hea
    refine ⟨hea, ?_⟩
    have hmem : i ∈ inOrder.filter (asks m) := by
      rcases Option.or_eq_some_iff.mp h with hfind | ⟨_, hhead⟩
      · exact List.mem_of_find?_eq_some hfind
      · exact List.mem_of_mem_head? hhead
    exact (List.mem_filter.mp hmem).2

end Interrupt

namespace Machine

/-- The interrupt that a machine has to take, if any. -/
def dueInterrupt (m : Machine) : Option Interrupt :=
  if m.inInterrupt then none else Interrupt.choose m.mem

/-- The machine that goes off to the routine of an interrupt, at the given line. -/
def enter (m : Machine) (i : Interrupt) (line : Nat) : Machine :=
  { m with
    mem := i.lowerFlag (m.mem.pushWord (BitVec.ofNat 16 m.pc))
    pc := line
    inInterrupt := true }

/-- The machine after the interrupt that is due, if one is. The line of a vector is given by a
function. -/
def takeInterrupt (m : Machine) (vectorLine : Word → Nat) : Machine :=
  match m.dueInterrupt with
  | some i => m.enter i (vectorLine i.vector)
  | none => m

theorem takeInterrupt_of_due {m : Machine} {i : Interrupt} (h : m.dueInterrupt = some i)
    (vectorLine : Word → Nat) : m.takeInterrupt vectorLine = m.enter i (vectorLine i.vector) := by
  rw [takeInterrupt, h]

theorem takeInterrupt_of_none {m : Machine} (h : m.dueInterrupt = none) (vectorLine : Word → Nat) :
    m.takeInterrupt vectorLine = m := by
  rw [takeInterrupt, h]

theorem of_dueInterrupt {m : Machine} {i : Interrupt} (h : m.dueInterrupt = some i) :
    m.mem.read Sfr.ie &&& Sfr.ea ≠ 0 ∧ i.asks m.mem = true := by
  refine Interrupt.of_choose ?_
  unfold dueInterrupt at h
  split at h
  · exact nomatch h
  · exact h

/-- While a routine runs no interrupt is due. -/
theorem inInterrupt_of_due {m : Machine} {i : Interrupt} (h : m.dueInterrupt = some i) :
    m.inInterrupt = false := by
  unfold dueInterrupt at h
  cases hm : m.inInterrupt with
  | true => simp [hm] at h
  | false => rfl

end Machine
end Mcs51
