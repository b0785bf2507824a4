import Mcs51.Proofs.Attempt
import Mcs51.Proofs.Frame

/-!
# Coming back

A call pushes the line behind it and an interrupt the line it came before; a return takes its line
from the stack. The bytes in between are RAM or special function registers like any others, and the
pointer wraps around, so the line comes back as long as two things hold: the pushed word has its two
slots to itself, which the stack pointer could spoil from inside (`sp_not_mem_wordSlots`) and the
flag that an interrupt lowers could spoil afterwards; and whatever runs in between leaves the
pointer and the slots as it found them (`KeepsFrame`). `HoldsWord` is what both say about the memory
that the return finds, and nothing else about the memory matters.
-/

namespace Mcs51

/-! ## 1. A word on the stack -/

namespace Memory

theorem mem_wordSlots {m : Memory} {addr : Byte} :
    addr ∈ m.wordSlots ↔ addr = m.sp + 1 ∨ addr = m.sp + 1 + 1 := by
  simp [wordSlots]

theorem not_mem_wordSlots {m : Memory} {addr : Byte} :
    addr ∉ m.wordSlots ↔ addr ≠ m.sp + 1 ∧ addr ≠ m.sp + 1 + 1 := by
  rw [mem_wordSlots, not_or]

/-- The stack pointer is in the way of a word only where it points right below itself. -/
theorem sp_not_mem_wordSlots {m : Memory} (h7F : m.sp ≠ 0x7F) (h80 : m.sp ≠ 0x80) :
    Sfr.sp ∉ m.wordSlots := by
  rw [not_mem_wordSlots, Sfr.sp]
  constructor
  · intro h
    exact h80 (by bv_omega)
  · intro h
    exact h7F (by bv_omega)

/-- Three writes make up a push of a word: the pointer, the upper byte, and the lower byte. -/
theorem pushWord_eq {m : Memory} (w : Word) (hstack : Sfr.sp ∉ m.wordSlots) :
    m.pushWord w = ((m.setSp (m.sp + 1 + 1)).write (m.sp + 1) (highByte w)).write (m.sp + 1 + 1)
      (lowByte w) := by
  have hfirst : m.sp + 1 ≠ Sfr.sp := (not_mem_wordSlots.mp hstack).1.symm
  have hmoved : (m.push (highByte w)).setSp (m.sp + 1 + 1) =
      (m.setSp (m.sp + 1 + 1)).write (m.sp + 1) (highByte w) := by
    rw [push, setSp, setSp, write_comm _ _ _ hfirst, write_write]
    rfl
  rw [pushWord, push, sp_push _ _ hfirst, hmoved]

/-- **A pushed word, byte by byte.** -/
theorem read_pushWord {m : Memory} (w : Word) (hstack : Sfr.sp ∉ m.wordSlots) (addr : Byte) :
    (m.pushWord w).read addr =
      if addr = m.sp + 1 + 1 then lowByte w
      else if addr = m.sp + 1 then highByte w
      else if addr = Sfr.sp then m.sp + 1 + 1
      else m.read addr := by
  rw [pushWord_eq w hstack]
  simp only [setSp, read_write, eq_comm (b := addr)]

/-- A word lies on top of the stack, right above where the pointer of another memory is. -/
structure HoldsWord (base : Memory) (w : Word) (m : Memory) : Prop where
  sp : m.sp = base.sp + 1 + 1
  high : m.read (base.sp + 1) = highByte w
  low : m.read (base.sp + 1 + 1) = lowByte w

/-- The stack pointer and both slots are as they were right after the push. -/
structure KeepsFrame (base pushed later : Memory) : Prop where
  sp : later.sp = pushed.sp
  slots : ∀ addr ∈ base.wordSlots, later.read addr = pushed.read addr

variable {base m later : Memory} {w : Word}

theorem holdsWord_pushWord (w : Word) (hstack : Sfr.sp ∉ base.wordSlots) :
    base.HoldsWord w (base.pushWord w) := by
  obtain ⟨hfirst, hsecond⟩ := not_mem_wordSlots.mp hstack
  constructor
  · show (base.pushWord w).read Sfr.sp = base.sp + 1 + 1
    rw [read_pushWord w hstack, if_neg hsecond, if_neg hfirst, if_pos rfl]
  · have hslots : base.sp + 1 ≠ base.sp + 1 + 1 := by bv_omega
    rw [read_pushWord w hstack, if_neg hslots, if_pos rfl]
  · rw [read_pushWord w hstack, if_pos rfl]

/-- The two bytes are the number that was pushed, the upper one first. -/
theorem HoldsWord.toNat_eq (h : base.HoldsWord w m) :
    256 * (m.read (base.sp + 1)).toNat + (m.read (base.sp + 1 + 1)).toNat = w.toNat := by
  rw [h.high, h.low, highByte, lowByte, BitVec.toNat_ofNat, BitVec.toNat_ofNat]
  omega

theorem HoldsWord.keep (h : base.HoldsWord w m) (hkeep : base.KeepsFrame m later) :
    base.HoldsWord w later where
  sp := hkeep.sp.trans h.sp
  high := (hkeep.slots _ (mem_wordSlots.mpr (.inl rfl))).trans h.high
  low := (hkeep.slots _ (mem_wordSlots.mpr (.inr rfl))).trans h.low

/-- The bytes come back in the other order, and the pointer moves before the second one is read. -/
theorem HoldsWord.topWord (h : base.HoldsWord w m) (hstack : Sfr.sp ∉ base.wordSlots) :
    m.topWord = w := by
  have hbelow : m.sp - 1 = base.sp + 1 := by
    rw [h.sp]
    bv_omega
  have hne : Sfr.sp ≠ base.sp + 1 := (not_mem_wordSlots.mp hstack).1
  have hsecond : m.pop.top = highByte w := by
    have hmoved : m.pop.sp = base.sp + 1 := hbelow ▸ m.read_write_self Sfr.sp _
    rw [top, hmoved, m.read_pop_of_ne hne, h.high]
  have hfirst : m.top = lowByte w := by
    rw [top, h.sp, h.low]
  rw [Memory.topWord, hsecond, hfirst, wordOf_halves]

theorem HoldsWord.popWord (h : base.HoldsWord w m) : m.popWord = m.setSp base.sp := by
  have hmoved : m.pop.sp = m.sp - 1 := m.read_write_self Sfr.sp _
  have hback : m.sp - 1 - 1 = base.sp := by
    rw [h.sp]
    bv_omega
  rw [Memory.popWord, pop, hmoved, hback, pop, setSp, setSp, write_write, setSp]

end Memory

/-- **The flag that an interrupt lowers, byte by byte.** -/
theorem Interrupt.read_lowerFlag (i : Interrupt) (m : Memory) (addr : Byte) :
    (i.lowerFlag m).read addr =
      if i ≠ .serial ∧ addr = Sfr.tcon then m.read addr &&& ~~~i.flagMask else m.read addr := by
  by_cases htcon : Sfr.tcon = addr
  · subst htcon
    cases i <;> simp [lowerFlag, flagAddr, Memory.modify]
  · rw [i.read_lowerFlag_of_ne m htcon, if_neg fun h => htcon h.2.symm]

/-- The pushed word is not touched by the flag that is lowered after it. -/
theorem Interrupt.holdsWord_lowerFlag {base m : Memory} {w : Word} (i : Interrupt)
    (h : base.HoldsWord w m) (htcon : Sfr.tcon ∉ base.wordSlots) :
    base.HoldsWord w (i.lowerFlag m) := by
  refine h.keep ⟨i.read_lowerFlag_of_ne m (by decide), ?_⟩
  intro addr hslot
  exact i.read_lowerFlag_of_ne m fun e => htcon (e ▸ hslot)

/-- The returns: they go where the stack says. -/
def Flow.returns : List Mnemonic := [.ret, .reti]

namespace Effect

/-- The calls: they push the line behind them. -/
def calls : List Mnemonic := [.acall, .lcall, .call]

theorem of_call {symbols : Symbols} {m : Memory} {mnemonic : Mnemonic} {ops : List Operand}
    {pc : Nat} (h : mnemonic ∈ calls) :
    (of symbols m mnemonic ops pc).mem = m.pushWord (BitVec.ofNat 16 pc + 1) := by
  simp only [calls, List.mem_cons, List.not_mem_nil, or_false] at h
  rcases h with rfl | rfl | rfl <;> rfl

end Effect

namespace Machine

variable {m gone : Machine}

/-! ## 2. The way back -/

/-- Both returns come back to a line, from every later machine that keeps the frame of the stack,
whatever else it is: they put the pointer back to where it was and change nothing else but the
counter, and the mark of a running routine where they end one. -/
structure ComesBack (m gone : Machine) (line : Nat) : Prop where
  ret : ∀ later : Machine, m.mem.KeepsFrame gone.mem later.mem → ∀ symbols ops,
    later.execute symbols .ret ops =
      .ok ⟨{ later with mem := later.mem.setSp m.mem.sp, pc := line }, false, false⟩
  reti : ∀ later : Machine, m.mem.KeepsFrame gone.mem later.mem → ∀ symbols ops,
    later.execute symbols .reti ops =
      .ok ⟨{ later with mem := later.mem.setSp m.mem.sp, pc := line, inInterrupt := false },
        false, false⟩

theorem execute_ret (m : Machine) (symbols : Symbols) (ops : List Operand) :
    m.execute symbols .ret ops =
      .ok ⟨{ m with mem := m.mem.popWord, pc := m.mem.topWord.toNat }, false, false⟩ := by
  apply execute_ok_iff.mpr
  refine ⟨m.mem.topWord.toNat, rfl, ?_⟩
  simp [Effect.of, Effect.ofMemory]

theorem execute_reti (m : Machine) (symbols : Symbols) (ops : List Operand) :
    m.execute symbols .reti ops =
      .ok ⟨{ m with mem := m.mem.popWord, pc := m.mem.topWord.toNat, inInterrupt := false },
        false, false⟩ := by
  apply execute_ok_iff.mpr
  refine ⟨m.mem.topWord.toNat, rfl, ?_⟩
  simp [Effect.of, Effect.ofMemory]

/-- A return finds the word that was left on the stack for it. -/
theorem comesBack_of_holdsWord {w : Word} (hstack : Sfr.sp ∉ m.mem.wordSlots)
    (hword : m.mem.HoldsWord w gone.mem) : m.ComesBack gone w.toNat := by
  constructor
  · intro later hkeep symbols ops
    have hlater := hword.keep hkeep
    rw [execute_ret, hlater.topWord hstack, hlater.popWord]
  · intro later hkeep symbols ops
    have hlater := hword.keep hkeep
    rw [execute_reti, hlater.topWord hstack, hlater.popWord]

/-! ## 3. The way there -/

/-- The memory outside the stack: neither the pointer nor a slot of the next word. -/
def OffStack (m : Machine) (addr : Byte) : Prop := addr ≠ Sfr.sp ∧ addr ∉ m.mem.wordSlots

/-- A call that is carried out. -/
theorem execute_call {symbols : Symbols} {mnemonic : Mnemonic} {ops : List Operand}
    {done : Executed} (hcall : mnemonic ∈ Effect.calls)
    (h : m.execute symbols mnemonic ops = .ok done) :
    done = ⟨{ m with mem := m.mem.pushWord (BitVec.ofNat 16 m.pc + 1), pc := done.machine.pc },
      false, false⟩ := by
  obtain ⟨next, -, rfl⟩ := execute_ok_iff.mp h
  simp only [Effect.calls, List.mem_cons, List.not_mem_nil, or_false] at hcall
  rcases hcall with rfl | rfl | rfl <;> simp [Effect.of, Effect.ofMemory]

/-- **The memory of an interrupt that is entered, byte by byte**: the flag is lowered next to the
stack, not on it. -/
theorem read_enter {i : Interrupt} (line : Nat) (hstack : Sfr.sp ∉ m.mem.wordSlots)
    (htcon : Sfr.tcon ∉ m.mem.wordSlots) (addr : Byte) :
    (m.enter i line).mem.read addr =
      if addr = m.mem.sp + 1 + 1 then lowByte (BitVec.ofNat 16 m.pc)
      else if addr = m.mem.sp + 1 then highByte (BitVec.ofNat 16 m.pc)
      else if addr = Sfr.sp then m.mem.sp + 1 + 1
      else (i.lowerFlag m.mem).read addr := by
  show (i.lowerFlag (m.mem.pushWord (BitVec.ofNat 16 m.pc))).read addr = _
  by_cases haddr : Sfr.tcon = addr
  · subst haddr
    obtain ⟨hfirst, hsecond⟩ := Memory.not_mem_wordSlots.mp htcon
    rw [if_neg hsecond, if_neg hfirst, if_neg (by decide), i.read_lowerFlag, i.read_lowerFlag,
      m.mem.read_pushWord_of_ne _ hstack (by decide) htcon]
  · rw [i.read_lowerFlag_of_ne _ haddr, i.read_lowerFlag_of_ne _ haddr,
      Memory.read_pushWord _ hstack]

theorem OffStack.read_enter {i : Interrupt} {addr : Byte} (h : m.OffStack addr) (line : Nat)
    (hstack : Sfr.sp ∉ m.mem.wordSlots) (htcon : Sfr.tcon ∉ m.mem.wordSlots) :
    (m.enter i line).mem.read addr = (i.lowerFlag m.mem).read addr := by
  obtain ⟨hfirst, hsecond⟩ := Memory.not_mem_wordSlots.mp h.2
  rw [Machine.read_enter line hstack htcon, if_neg hsecond, if_neg hfirst, if_neg h.1]

/-- The line behind a call has sixteen bits unless the call is in the very last of them. -/
theorem comesBack_of_pushed (hstack : Sfr.sp ∉ m.mem.wordSlots) (hpc : m.pc ≤ 0xFFFE)
    (hmem : gone.mem = m.mem.pushWord (BitVec.ofNat 16 m.pc + 1)) :
    m.ComesBack gone (m.pc + 1) := by
  have hword : m.mem.HoldsWord (BitVec.ofNat 16 m.pc + 1) gone.mem := by
    rw [hmem]
    exact Memory.holdsWord_pushWord _ hstack
  have hline : (BitVec.ofNat 16 m.pc + 1 : Word).toNat = m.pc + 1 := by bv_omega
  rw [← hline]
  exact comesBack_of_holdsWord hstack hword

theorem comesBack_enter (i : Interrupt) (line : Nat) (hstack : Sfr.sp ∉ m.mem.wordSlots)
    (htcon : Sfr.tcon ∉ m.mem.wordSlots) (hpc : m.pc ≤ 0xFFFF) :
    m.ComesBack (m.enter i line) m.pc := by
  have hword : m.mem.HoldsWord (BitVec.ofNat 16 m.pc) (m.enter i line).mem :=
    i.holdsWord_lowerFlag (Memory.holdsWord_pushWord _ hstack) htcon
  have hline : (BitVec.ofNat 16 m.pc : Word).toNat = m.pc := by bv_omega
  have hback := comesBack_of_holdsWord hstack hword
  rw [hline] at hback
  exact hback

/-- **Calls and interrupts come back to where they came from**, wherever the stack is but for the
    two places where it runs over its own pointer. A call comes back to the line behind it, and an
    interrupt that does not push over the timer control byte to the very line it came before; on
    the way there nothing changes but the stack, the counter and, for an interrupt, its flag and
    the mark of a running routine. -/
theorem calls_and_interrupts_come_back (m : Machine) (h7F : m.mem.sp ≠ 0x7F)
    (h80 : m.mem.sp ≠ 0x80) :
    (∀ symbols mnemonic ops done, mnemonic ∈ Effect.calls → m.pc ≤ 0xFFFE →
      m.execute symbols mnemonic ops = .ok done →
      done = ⟨{ m with mem := done.machine.mem, pc := done.machine.pc }, false, false⟩ ∧
      (∀ addr, m.OffStack addr → done.machine.mem.read addr = m.mem.read addr) ∧
      m.ComesBack done.machine (m.pc + 1)) ∧
    ∀ vectorLine i, m.pc ≤ 0xFFFF → Sfr.tcon ∉ m.mem.wordSlots → m.dueInterrupt = some i →
      let gone := m.takeInterrupt vectorLine
      gone = { m with mem := gone.mem, pc := vectorLine i.vector, inInterrupt := true } ∧
      (∀ addr, m.OffStack addr → gone.mem.read addr = (i.lowerFlag m.mem).read addr) ∧
      m.ComesBack gone m.pc := by
  have hstack : Sfr.sp ∉ m.mem.wordSlots := Memory.sp_not_mem_wordSlots h7F h80
  constructor
  · intro symbols mnemonic ops done hcall hpc hdone
    have heq := execute_call hcall hdone
    have hmem : done.machine.mem = m.mem.pushWord (BitVec.ofNat 16 m.pc + 1) :=
      congrArg (fun e => e.machine.mem) heq
    refine ⟨?_, ?_, comesBack_of_pushed hstack hpc hmem⟩
    · rw [hmem]
      exact heq
    · intro addr hoff
      rw [hmem, m.mem.read_pushWord_of_ne _ hstack hoff.1.symm hoff.2]
  · intro vectorLine i hpc htcon hdue gone
    have hgone : gone = m.enter i (vectorLine i.vector) := takeInterrupt_of_due hdue vectorLine
    rw [hgone]
    refine ⟨rfl, ?_, comesBack_enter i _ hstack htcon hpc⟩
    intro addr hoff
    exact hoff.read_enter _ hstack htcon

/-- The upper byte of the next word goes to the last address and the lower one to the first, and
timer 0 asks to be served. -/
def wrapping : Machine :=
  { Machine.initial (.known 0) 5 with
    mem := ((Memory.zero.setSp 0xFE).write Sfr.ie (Sfr.ea ||| Sfr.et0)).write Sfr.tcon Sfr.tf0 }

theorem read_wrapping (addr : Byte) :
    wrapping.mem.read addr =
      if addr = Sfr.tcon then Sfr.tf0
      else if addr = Sfr.ie then Sfr.ea ||| Sfr.et0
      else if addr = Sfr.sp then 0xFE
      else 0 := by
  simp only [wrapping, Memory.setSp, Memory.read_write, Memory.read_zero, eq_comm (b := addr)]

/-- A call of the line itself comes back behind it, and the overflow comes back to it. -/
theorem wrapping_comes_back :
    wrapping.mem.wordSlots = [0xFF, 0x00] ∧
    (∃ done, wrapping.execute ∅ .lcall [.direct (.expr "$")] = .ok done ∧
      wrapping.ComesBack done.machine 6) ∧
    wrapping.dueInterrupt = some .timer0 ∧
    wrapping.ComesBack (wrapping.takeInterrupt BitVec.toNat) 5 := by
  have hsp : wrapping.mem.sp = 0xFE := read_wrapping Sfr.sp
  have hslots : wrapping.mem.wordSlots = [0xFF, 0x00] := by
    rw [Memory.wordSlots, hsp]
    rfl
  have htcon : Sfr.tcon ∉ wrapping.mem.wordSlots := by
    rw [hslots]
    decide
  have hdue : wrapping.dueInterrupt = some .timer0 := by
    have hout : wrapping.inInterrupt = false := rfl
    simp [dueInterrupt, hout, Interrupt.choose, Interrupt.inOrder, Interrupt.asks,
      Interrupt.level, Interrupt.flagAddr, Interrupt.flagMask, Interrupt.enableBit, read_wrapping]
  obtain ⟨hcall, hinterrupt⟩ := calls_and_interrupts_come_back wrapping
    (by rw [hsp]; decide) (by rw [hsp]; decide)
  refine ⟨hslots, ?_, hdue, (hinterrupt BitVec.toNat .timer0 (by decide) htcon hdue).2.2⟩
  refine ⟨_, rfl, ?_⟩
  exact (hcall ∅ .lcall [.direct (.expr "$")] _ (by decide) (by decide) rfl).2.2

end Machine
end Mcs51
