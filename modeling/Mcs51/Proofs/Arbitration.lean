import Mathlib.Data.List.Basic
import Mcs51.Proofs.ReturnAddress

/-!
# Which interrupt is taken

The choice is made by two searches in one fixed order, first among the sources with priority and
then among all. What it comes to is an order on the sources that ask: a higher level goes first, and
among equals the earlier one. `Prevails` says that no other source that asks goes before, which is
true of at most one (`Prevails.unique`); so it is enough to see that whatever is chosen prevails,
and that something is chosen as soon as anything asks.

Taking the interrupt writes the two bytes of the line and one flag. The flags of the other sources
are other bits (`asks_lowerFlag`), so their requests are lost only to a slot of the stack.
-/

namespace Mcs51
namespace Interrupt

/-! ## 1. The choice -/

/-- The place of a source in the fixed order. -/
def rank : Interrupt → Nat
  | .ext0 => 0
  | .timer0 => 1
  | .ext1 => 2
  | .timer1 => 3
  | .serial => 4

theorem rank_inj {i j : Interrupt} (h : i.rank = j.rank) : i = j := by
  cases i <;> cases j <;> first | rfl | exact absurd h (by decide)

/-- A source is before another in the fixed order. -/
def Precedes (i j : Interrupt) : Prop := i.rank < j.rank

instance (i j : Interrupt) : Decidable (i.Precedes j) := inferInstanceAs (Decidable (_ < _))

/-- A source asks, and no other source that asks goes before it: none has a higher level, and none
of the same level is earlier in the order. -/
structure Prevails (m : Memory) (i : Interrupt) : Prop where
  asking : i.asks m = true
  highest : ∀ j : Interrupt, j.asks m = true → j.level m ≤ i.level m
  first : ∀ j : Interrupt, j.asks m = true → j.level m = i.level m → ¬ j.Precedes i

variable {m : Memory} {i j : Interrupt}

theorem mem_inOrder (i : Interrupt) : i ∈ inOrder := by cases i <;> decide

/-- The sources are listed in their order. -/
theorem idxOf_inOrder (i : Interrupt) : inOrder.idxOf i = i.rank := by cases i <;> rfl

theorem eq_of_not_precedes (hij : ¬ i.Precedes j) (hji : ¬ j.Precedes i) : i = j := by
  have hrank : i.rank = j.rank := by
    unfold Precedes at hij hji
    omega
  exact rank_inj hrank

/-- Of two sources that prevail each is at least as high as the other, and neither is earlier. -/
theorem Prevails.unique (hi : Prevails m i) (hj : Prevails m j) : i = j := by
  have hlevel : i.level m = j.level m :=
    Nat.le_antisymm (hj.highest i hi.asking) (hi.highest j hj.asking)
  exact eq_of_not_precedes (hj.first i hi.asking hlevel) (hi.first j hj.asking hlevel.symm)

/-- A search finds the earliest source there is. -/
theorem of_find?_inOrder {p : Interrupt → Bool} (h : inOrder.find? p = some i) :
    p i = true ∧ ∀ j, p j = true → ¬ j.Precedes i := by
  obtain ⟨hi, earlier, later, horder, hearlier⟩ := List.find?_eq_some_iff_append.mp h
  have not_earlier : ∀ j, p j = true → j ∉ earlier := by
    intro j hj hmem
    have hfalse := hearlier j hmem
    rw [hj] at hfalse
    exact nomatch hfalse
  refine ⟨hi, ?_⟩
  intro j hj hprecedes
  rw [Precedes, ← idxOf_inOrder, ← idxOf_inOrder] at hprecedes
  rw [horder, List.idxOf_append_of_notMem (not_earlier i hi),
    List.idxOf_append_of_notMem (not_earlier j hj), List.idxOf_cons_self] at hprecedes
  omega

theorem level_le_one (m : Memory) (i : Interrupt) : i.level m ≤ 1 := by
  unfold level
  split
  · exact Nat.le_refl 1
  · exact Nat.zero_le 1

/-- Both searches go through all sources, the first for those with priority. -/
theorem choose_eq_find? (hea : m.read Sfr.ie &&& Sfr.ea ≠ 0) :
    choose m =
      (inOrder.find? fun i => i.asks m ∧ i.level m = 1).or (inOrder.find? (asks m)) := by
  rw [choose, if_neg hea]
  simp only [List.find?_filter, List.head?_filter, decide_eq_true_eq]

/-- The first source that asks with priority goes before all others: no level is above its own. -/
theorem prevails_of_priority
    (h : (inOrder.find? fun i => i.asks m ∧ i.level m = 1) = some i) : Prevails m i := by
  obtain ⟨hi, hfirst⟩ := of_find?_inOrder h
  simp only [decide_eq_true_eq] at hi hfirst
  obtain ⟨hasks, hone⟩ := hi
  constructor
  · exact hasks
  · intro j _
    rw [hone]
    exact level_le_one m j
  · intro j hj hlevel
    exact hfirst j ⟨hj, hlevel.trans hone⟩

/-- Where no source asks with priority, all that ask are on the lower level and the first one goes
before the others. -/
theorem prevails_of_no_priority
    (hnone : (inOrder.find? fun i => i.asks m ∧ i.level m = 1) = none)
    (h : inOrder.find? (asks m) = some i) : Prevails m i := by
  have hzero : ∀ j, asks m j = true → j.level m = 0 := by
    intro j hj
    have hne : ¬ j.level m = 1 := by simpa [hj] using List.find?_eq_none.mp hnone j (mem_inOrder j)
    have hle := level_le_one m j
    omega
  obtain ⟨hasks, hfirst⟩ := of_find?_inOrder h
  constructor
  · exact hasks
  · intro j hj
    rw [hzero j hj]
    exact Nat.zero_le _
  · intro j hj _
    exact hfirst j hj

theorem prevails_of_choose (h : choose m = some i) : Prevails m i := by
  rw [choose_eq_find? (of_choose h).1] at h
  rcases Option.or_eq_some_iff.mp h with hfound | ⟨hnone, hfound⟩
  · exact prevails_of_priority hfound
  · exact prevails_of_no_priority hnone hfound

/-- Nothing is chosen only if interrupts are disabled as a whole or nothing asks. -/
theorem choose_eq_none_iff :
    choose m = none ↔ m.read Sfr.ie &&& Sfr.ea = 0 ∨ ∀ i, asks m i = false := by
  by_cases hea : m.read Sfr.ie &&& Sfr.ea = 0
  · have hnone : choose m = none := by rw [choose, if_pos hea]
    exact iff_of_true hnone (.inl hea)
  · rw [choose_eq_find? hea, Option.or_eq_none_iff, List.find?_eq_none, List.find?_eq_none]
    constructor
    · intro h
      right
      intro i
      simpa using h.2 i (mem_inOrder i)
    · intro h
      have hnone := h.resolve_left hea
      constructor
      · intro i _
        simp [hnone i]
      · intro i _
        simp [hnone i]

/-- **The choice**: interrupts are enabled as a whole, and the source prevails. -/
theorem choose_eq_some_iff :
    choose m = some i ↔ m.read Sfr.ie &&& Sfr.ea ≠ 0 ∧ Prevails m i := by
  constructor
  · intro h
    exact ⟨(of_choose h).1, prevails_of_choose h⟩
  · intro h
    obtain ⟨hea, hi⟩ := h
    cases hchosen : choose m with
    | some j => rw [(prevails_of_choose hchosen).unique hi]
    | none =>
      have hsilent := (choose_eq_none_iff.mp hchosen).resolve_left hea i
      rw [hi.asking] at hsilent
      exact nomatch hsilent

/-! ## 2. The other requests -/

/-- What a request depends on: the byte that enables it, and its flag. -/
theorem asks_congr {m' : Memory} (hie : m'.read Sfr.ie = m.read Sfr.ie)
    (hflag : m'.read j.flagAddr &&& j.flagMask = m.read j.flagAddr &&& j.flagMask) :
    j.asks m' = j.asks m := by
  rw [asks, asks, hie, hflag]

theorem level_congr {m' : Memory} (hip : m'.read Sfr.ip = m.read Sfr.ip) :
    j.level m' = j.level m := by
  rw [level, level, hip]

/-- The sources have different bits. -/
theorem flag_lowerFlag (m : Memory) (h : j ≠ i) :
    (i.lowerFlag m).read j.flagAddr &&& j.flagMask = m.read j.flagAddr &&& j.flagMask := by
  rw [i.read_lowerFlag]
  split
  · next hlowered =>
    have hmask : ~~~i.flagMask &&& j.flagMask = j.flagMask := by
      cases i <;> cases j <;> first | rfl | exact absurd rfl h | exact absurd hlowered (by decide)
    rw [BitVec.and_assoc, hmask]
  · rfl

end Interrupt

namespace Machine

theorem dueInterrupt_eq_choose {m : Machine} (h : m.inInterrupt = false) :
    m.dueInterrupt = Interrupt.choose m.mem := by
  simp [dueInterrupt, h]

theorem dueInterrupt_eq_none {m : Machine}
    (h : m.inInterrupt = true ∨ Interrupt.choose m.mem = none) : m.dueInterrupt = none := by
  unfold dueInterrupt
  split
  · rfl
  · next hout => exact h.resolve_left hout

variable {m : Machine} {i j : Interrupt}

/-- A request that is not taken stays, unless the stack runs over the byte that enables it or over
the flags of the serial line. -/
theorem asks_enter (line : Nat) (hstack : Sfr.sp ∉ m.mem.wordSlots)
    (htcon : Sfr.tcon ∉ m.mem.wordSlots) (hie : Sfr.ie ∉ m.mem.wordSlots)
    (hscon : Sfr.scon ∉ m.mem.wordSlots) (h : j ≠ i) :
    j.asks (m.enter i line).mem = j.asks m.mem := by
  have hflag : m.OffStack j.flagAddr := by
    cases j with
    | serial => exact ⟨by decide, hscon⟩
    | _ => exact ⟨by decide, htcon⟩
  have henable : m.OffStack Sfr.ie := ⟨by decide, hie⟩
  apply Interrupt.asks_congr
  · rw [henable.read_enter line hstack htcon, i.read_lowerFlag_of_ne _ (by decide)]
  · rw [hflag.read_enter line hstack htcon, Interrupt.flag_lowerFlag _ h]

theorem level_enter (line : Nat) (hstack : Sfr.sp ∉ m.mem.wordSlots)
    (htcon : Sfr.tcon ∉ m.mem.wordSlots) (hip : Sfr.ip ∉ m.mem.wordSlots) :
    j.level (m.enter i line).mem = j.level m.mem := by
  have hoff : m.OffStack Sfr.ip := ⟨by decide, hip⟩
  apply Interrupt.level_congr
  rw [hoff.read_enter line hstack htcon, i.read_lowerFlag_of_ne _ (by decide)]

/-- **Which interrupt is taken, and what that does.** Of the sources that ask the one that prevails
    is chosen, if interrupts are enabled as a whole: the first one, in the order of the first line,
    among those of the highest level. It is taken unless a routine is running, and
    then the machine is at the line of the vector, inside a routine. In memory the stack holds the
    sixteen bits of the line it was at and the flag of the source is lowered, unless the stack runs
    over its own pointer or over that flag; and the other requests are as they were. -/
theorem interrupts_are_arbitrated (m : Machine) (vectorLine : Word → Nat) :
    [.ext0, .timer0, .ext1, .timer1, .serial].Pairwise Interrupt.Precedes ∧
    (∀ i, Interrupt.choose m.mem = some i ↔
      m.mem.read Sfr.ie &&& Sfr.ea ≠ 0 ∧ i.Prevails m.mem) ∧
    (Interrupt.choose m.mem = none ↔
      m.mem.read Sfr.ie &&& Sfr.ea = 0 ∨ ∀ i : Interrupt, i.asks m.mem = false) ∧
    (m.inInterrupt = true ∨ Interrupt.choose m.mem = none → m.takeInterrupt vectorLine = m) ∧
    ∀ i, m.inInterrupt = false → Interrupt.choose m.mem = some i →
      let taken := m.takeInterrupt vectorLine
      let slots := m.mem.wordSlots
      taken = { m with mem := taken.mem, pc := vectorLine i.vector, inInterrupt := true } ∧
      (m.mem.sp ≠ 0x7F → m.mem.sp ≠ 0x80 → Sfr.tcon ∉ slots →
        (∀ addr, taken.mem.read addr =
          if addr = m.mem.sp + 1 + 1 then lowByte (BitVec.ofNat 16 m.pc)
          else if addr = m.mem.sp + 1 then highByte (BitVec.ofNat 16 m.pc)
          else if addr = Sfr.sp then m.mem.sp + 1 + 1
          else if i ≠ .serial ∧ addr = Sfr.tcon then m.mem.read addr &&& ~~~i.flagMask
          else m.mem.read addr) ∧
        (Sfr.ie ∉ slots → Sfr.scon ∉ slots →
          ∀ j : Interrupt, j ≠ i → j.asks taken.mem = j.asks m.mem) ∧
        (Sfr.ip ∉ slots → ∀ j : Interrupt, j.level taken.mem = j.level m.mem)) := by
  refine ⟨by decide, fun i => Interrupt.choose_eq_some_iff, Interrupt.choose_eq_none_iff, ?_, ?_⟩
  · intro h
    exact takeInterrupt_of_none (dueInterrupt_eq_none h) vectorLine
  · intro i hout hchosen taken slots
    have hdue : m.dueInterrupt = some i := (dueInterrupt_eq_choose hout).trans hchosen
    have htaken : taken = m.enter i (vectorLine i.vector) := takeInterrupt_of_due hdue vectorLine
    refine ⟨?_, ?_⟩
    · rw [htaken]
      rfl
    · intro h7F h80 htcon
      have hstack : Sfr.sp ∉ slots := Memory.sp_not_mem_wordSlots h7F h80
      rw [htaken]
      refine ⟨?_, ?_, ?_⟩
      · intro addr
        rw [read_enter _ hstack htcon, i.read_lowerFlag]
      · intro hie hscon j hj
        exact asks_enter _ hstack htcon hie hscon hj
      · intro hip j
        exact level_enter _ hstack htcon hip

/-- Timer 0 and the second external source ask, and the external source has priority. -/
def contended : Machine :=
  { Machine.initial (.known 0) 0x1234 with
    mem := (((Memory.zero.setSp 0x07).write Sfr.ie (Sfr.ea ||| Sfr.et0 ||| Sfr.ex1)).write
      Sfr.tcon (Sfr.tf0 ||| Sfr.ie1)).write Sfr.ip Sfr.ex1 }

theorem read_contended (addr : Byte) :
    contended.mem.read addr =
      if addr = Sfr.ip then Sfr.ex1
      else if addr = Sfr.tcon then Sfr.tf0 ||| Sfr.ie1
      else if addr = Sfr.ie then Sfr.ea ||| Sfr.et0 ||| Sfr.ex1
      else if addr = Sfr.sp then 0x07
      else 0 := by
  simp only [contended, Memory.setSp, Memory.read_write, Memory.read_zero, eq_comm (b := addr)]

/-- The same two sources ask, and neither has priority. -/
def tied : Machine := { contended with mem := contended.mem.write Sfr.ip 0 }

theorem read_tied (addr : Byte) :
    tied.mem.read addr = if addr = Sfr.ip then 0 else contended.mem.read addr := by
  simp only [tied, Memory.read_write, eq_comm (b := addr)]

/-- The external source goes first, its flag alone is lowered, and timer 0 still asks. Without the
priority timer 0 goes first, since it is before the external source in the order. -/
theorem contended_is_arbitrated :
    contended.inInterrupt = false ∧ Interrupt.choose contended.mem = some .ext1 ∧
    Interrupt.Prevails contended.mem .ext1 ∧
    (contended.takeInterrupt BitVec.toNat).pc = 0x13 ∧
    (contended.takeInterrupt BitVec.toNat).mem.read 8 = 0x12 ∧
    (contended.takeInterrupt BitVec.toNat).mem.read 9 = 0x34 ∧
    (contended.takeInterrupt BitVec.toNat).mem.read Sfr.tcon = Sfr.tf0 ∧
    Interrupt.asks (contended.takeInterrupt BitVec.toNat).mem .timer0 = true ∧
    Interrupt.asks tied.mem .ext1 = true ∧
    Interrupt.level tied.mem .timer0 = Interrupt.level tied.mem .ext1 ∧
    Interrupt.choose tied.mem = some .timer0 ∧ Interrupt.Prevails tied.mem .timer0 ∧
    (tied.takeInterrupt BitVec.toNat).pc = 0x0B := by
  obtain ⟨-, hsome, -, -, htake⟩ := interrupts_are_arbitrated contended BitVec.toNat
  obtain ⟨-, hsomeTied, -, -, htakeTied⟩ := interrupts_are_arbitrated tied BitVec.toNat
  have hout : contended.inInterrupt = false := rfl
  have hchosen : Interrupt.choose contended.mem = some .ext1 := by
    simp [Interrupt.choose, Interrupt.inOrder, Interrupt.asks, Interrupt.level,
      Interrupt.flagAddr, Interrupt.flagMask, Interrupt.enableBit, read_contended]
  have hchosenTied : Interrupt.choose tied.mem = some .timer0 := by
    simp [Interrupt.choose, Interrupt.inOrder, Interrupt.asks, Interrupt.level,
      Interrupt.flagAddr, Interrupt.flagMask, Interrupt.enableBit, read_tied, read_contended]
  have hsp : contended.mem.sp = 0x07 := read_contended Sfr.sp
  have hslots : contended.mem.wordSlots = [0x08, 0x09] := by
    rw [Memory.wordSlots, hsp]
    rfl
  obtain ⟨hgone, hmem⟩ := htake .ext1 hout hchosen
  rw [hsp, hslots] at hmem
  obtain ⟨hread, hothers, -⟩ := hmem (by decide) (by decide) (by decide)
  obtain ⟨hgoneTied, -⟩ := htakeTied .timer0 hout hchosenTied
  refine ⟨hout, hchosen, ((hsome .ext1).mp hchosen).2, congrArg Machine.pc hgone, hread 8, hread 9,
    ?_, ?_, ?_, ?_, hchosenTied, ((hsomeTied .timer0).mp hchosenTied).2,
    congrArg Machine.pc hgoneTied⟩
  · rw [hread, read_contended]
    decide
  · rw [hothers (by decide) (by decide) .timer0 (by decide), Interrupt.asks, read_contended,
      read_contended]
    decide
  · rw [Interrupt.asks, read_tied, read_tied, read_contended, read_contended]
    decide
  · rw [Interrupt.level, Interrupt.level, read_tied]
    decide

end Machine
end Mcs51
