import Mcs51.Proofs.Loading
import Mcs51.Proofs.Renewal
import Mcs51.Proofs.ReturnAddress

/-!
# Where the program counter can be

The counter of a machine is a number without a bound, and it is set from five sides: to the line
that follows, to the line it is at, to a label, to what a return takes from the stack, and to the
line of a vector. The first three stay among the lines of the program or come to the one behind the
last, since loading notes no line that is not there (`Program.Built`). The stack and a vector
without an `ORG` line give numbers of sixteen bits, and these may lie far behind the program.

So the counter is at most the number of lines, or 65535 if that is more; and the second half is only
for what a return or an interrupt did. `Within` is both, with the number as a parameter. What is
pushed to come back to has sixteen bits as well, and in a program of at most 65535 lines the bound
says that nothing is cut off there (`PushesWhole`).
-/

namespace Mcs51

/-! ## 1. What a program notes -/

namespace Program

variable {p : Program}

/-- A program that the loader makes of lines, whether these were read from source or not. -/
def Built (p : Program) : Prop := ∃ lines, p = ofLines lines

theorem built_of_ofSource {source : String} (h : ofSource source = .ok p) : p.Built := by
  obtain ⟨lines, _, rfl⟩ := map_ok_iff.mp h
  exact ⟨lines, rfl⟩

/-- Labels and origins are lines of the program, and so is the entry, unless there is no line. -/
theorem Built.notes (h : p.Built) :
    p.entry ≤ p.size ∧ (∀ name i, p.symbols.lineOf? name = some i → i < p.size) ∧
      ∀ addr i, p.orgLine? addr = some i → i < p.size := by
  obtain ⟨lines, rfl⟩ := h
  cases lines with
  | nil =>
    refine ⟨Nat.le_refl 0, ?_, ?_⟩
    · intro name i h
      have h : none = some i := h
      exact nomatch h
    · intro addr i h
      have h : none = some i := h
      exact nomatch h
  | cons line rest =>
    obtain ⟨hentry, hnotes⟩ := (describes_ofLines (line :: rest)).lt_size (Nat.succ_pos _)
    exact ⟨Nat.le_of_lt hentry, hnotes⟩

end Program

/-! ## 2. Where an instruction goes -/

namespace Flow

variable {symbols : Symbols} {m : Memory} {mnemonic : Mnemonic} {ops : List Operand} {pc i : Nat}

theorem exit_eq_line (h : exit symbols m mnemonic ops = .line i) :
    mnemonic ∈ returns ∧ i = m.topWord.toNat := by
  have hbranch : ∀ taken op, branch taken op ≠ .line i := by
    intro taken op
    cases taken <;> exact nofun
  unfold exit at h
  cases mnemonic with
  | ret => exact ⟨by simp [returns], (Exit.line.inj h).symm⟩
  | reti => exact ⟨by simp [returns], (Exit.line.inj h).symm⟩
  | jc | jnc | jz | jnz | jb | jnb | jbc | cjne | djnz => exact absurd h (hbranch _ _)
  | _ => exact nomatch h

theorem target_ok {op : Option Operand} (h : target symbols pc op = .ok i) :
    i = pc ∨ ∃ name, symbols.lineOf? name = some i := by
  unfold target at h
  dsimp only at h
  split at h
  · exact .inl (Except.ok.inj h).symm
  · split at h
    · next hline =>
      obtain rfl := Except.ok.inj h
      exact .inr ⟨_, hline⟩
    · exact nomatch h

/-- The line after an instruction: the following one, the same one, a label, or the line that a
    return finds on the stack. -/
theorem next_ok (h : next symbols m mnemonic ops pc = .ok i) :
    i = pc + 1 ∨ i = pc ∨ (∃ name, symbols.lineOf? name = some i) ∨
      mnemonic ∈ returns ∧ i = m.topWord.toNat := by
  unfold next at h
  cases hexit : exit symbols m mnemonic ops with
  | following =>
    rw [hexit] at h
    exact .inl (Except.ok.inj h).symm
  | target op =>
    rw [hexit] at h
    exact .inr ((target_ok h).imp_right .inl)
  | line index =>
    rw [hexit] at h
    obtain rfl := Except.ok.inj h
    exact .inr (.inr (.inr (exit_eq_line hexit)))

end Flow

namespace Simulator

variable {s t : Simulator} {e : Execution} {i : Interrupt} {limit : Nat}

/-! ## 3. One step -/

/-- A step without a return and without an interrupt. -/
structure Quiet (s : Simulator) : Prop where
  noReturn : ∀ e, s.executes? = some e → e.mnemonic ∉ Flow.returns
  noInterrupt : s.interrupt? = none

/-- The line of a vector is one of the program or the number of the vector. -/
theorem vectorLine_cases (h : s.program.Built) (vector : Word) :
    s.vectorLine vector < s.program.size ∨ s.vectorLine vector = vector.toNat := by
  unfold vectorLine
  split
  · cases horg : s.program.orgLine? vector with
    | none => exact .inr rfl
    | some i => exact .inl (h.notes.2.2 vector i horg)
  · exact .inr rfl

theorem advanced_pc (s : Simulator) (e : Execution) :
    (s.advanced e).machine.pc = e.done.machine.pc := by
  show (Machine.followAcc s.machine.mem.acc e.done).pc = e.done.machine.pc
  unfold Machine.followAcc
  split <;> rfl

/-- An instruction of a built program goes at most behind its last line, if it is no return. -/
theorem executed_pc (hbuilt : s.program.Built) (h : s.executes? = some e) :
    e.done.machine.pc ≤ s.program.size ∨
      e.mnemonic ∈ Flow.returns ∧ ∃ w : Word, e.done.machine.pc = w.toNat := by
  obtain ⟨_, hi, hd⟩ := executes?_eq_some_iff.mp h
  have hin : s.machine.pc < s.program.size := Program.lt_size_of_instruction? hi
  obtain ⟨next, hnext, hdone⟩ := Machine.execute_ok_iff.mp hd
  have hpc : e.done.machine.pc = next := by rw [hdone]
  rw [hpc]
  rcases Flow.next_ok hnext with hfollowing | hsame | ⟨name, hlabel⟩ | ⟨hreturn, htop⟩
  · exact .inl (hfollowing ▸ hin)
  · exact .inl (hsame ▸ Nat.le_of_lt hin)
  · exact .inl (Nat.le_of_lt (hbuilt.notes.2.1 name next hlabel))
  · exact .inr ⟨hreturn, _, htop⟩

/-- **Where a step can lead.** It stays, or goes to a line of the program or the one behind the
    last; only a step that is not quiet can go to any other number of sixteen bits. -/
theorem step_pc (hbuilt : s.program.Built) :
    s.step.2.machine.pc = s.machine.pc ∨ s.step.2.machine.pc ≤ s.program.size ∨
      ¬ s.Quiet ∧ ∃ w : Word, s.step.2.machine.pc = w.toNat := by
  cases hx : s.executes? with
  | some e =>
    rw [(step_of_executes?_eq_some hx).1]
    cases hdue : (s.advanced e).machine.dueInterrupt with
    | some i =>
      -- The interrupt has the last word, wherever the instruction went.
      rw [Machine.takeInterrupt_of_due hdue]
      show s.vectorLine i.vector = s.machine.pc ∨ s.vectorLine i.vector ≤ s.program.size ∨
        ¬ s.Quiet ∧ ∃ w : Word, s.vectorLine i.vector = w.toNat
      have hloud : ¬ s.Quiet := by
        intro hquiet
        have hnone := hquiet.noInterrupt
        rw [interrupt?_of_executes? hx, hdue] at hnone
        exact nomatch hnone
      rcases vectorLine_cases hbuilt i.vector with hline | hvector
      · exact .inr (.inl (Nat.le_of_lt hline))
      · exact .inr (.inr ⟨hloud, _, hvector⟩)
    | none =>
      rw [Machine.takeInterrupt_of_none hdue, advanced_pc]
      rcases executed_pc hbuilt hx with hle | ⟨hreturn, hword⟩
      · exact .inr (.inl hle)
      · exact .inr (.inr ⟨fun hquiet => hquiet.noReturn e hx hreturn, hword⟩)
  | none =>
    rcases (idle_step hx).1 with hsame | ⟨hin, hpassed⟩
    · exact .inl (congrArg Machine.pc hsame)
    · rw [hpassed]
      exact .inr (.inl hin)

/-- What a step pushes to come back to is the whole number of the line, without loss: for a call
the line behind it, for an interrupt the line that the program would have gone on at. The number is
in the two bytes behind the old top of the stack, the upper byte first, unless the stack pointer is
one of the two, or the flags are that an interrupt lowers one of. -/
structure PushesWhole (s : Simulator) : Prop where
  call : ∀ e, s.executes? = some e → e.mnemonic ∈ Effect.calls →
    let before := s.machine.mem
    let after := e.done.machine.mem
    (∃ w : Word, w.toNat = s.machine.pc + 1 ∧ after = before.pushWord w) ∧
    (Sfr.sp ∉ before.wordSlots →
      256 * (after.read (before.sp + 1)).toNat + (after.read (before.sp + 1 + 1)).toNat =
        s.machine.pc + 1)
  interrupt : ∀ i, s.interrupt? = some i → ∃ e, s.executes? = some e ∧
    let before := (s.advanced e).machine.mem
    let after := s.step.2.machine.mem
    (∃ w : Word, w.toNat = e.done.machine.pc ∧ after = i.lowerFlag (before.pushWord w)) ∧
    (Sfr.sp ∉ before.wordSlots → Sfr.tcon ∉ before.wordSlots →
      256 * (after.read (before.sp + 1)).toNat + (after.read (before.sp + 1 + 1)).toNat =
        e.done.machine.pc)

theorem pushesWhole (hbuilt : s.program.Built) (hsize : s.program.size ≤ 65535) :
    s.PushesWhole where
  call := by
    intro e hx hcall before after
    obtain ⟨_, hi, hd⟩ := executes?_eq_some_iff.mp hx
    have hin : s.machine.pc < s.program.size := Program.lt_size_of_instruction? hi
    obtain ⟨_, _, hdone⟩ := Machine.execute_ok_iff.mp hd
    have hline : (BitVec.ofNat 16 s.machine.pc + 1 : Word).toNat = s.machine.pc + 1 := by bv_omega
    have hafter : after = before.pushWord (BitVec.ofNat 16 s.machine.pc + 1) := by
      show e.done.machine.mem = _
      rw [hdone]
      exact Effect.of_call hcall
    refine ⟨⟨_, hline, hafter⟩, ?_⟩
    intro hstack
    have hbytes := (Memory.holdsWord_pushWord (BitVec.ofNat 16 s.machine.pc + 1) hstack).toNat_eq
    rwa [← hafter, hline] at hbytes
  interrupt := by
    intro i hi
    obtain ⟨e, hx, _, hmachine⟩ := exists_of_interrupt? hi
    refine ⟨e, hx, ?_⟩
    intro before after
    have hle : e.done.machine.pc < 65536 := by
      rcases executed_pc hbuilt hx with hle | ⟨_, w, hw⟩
      · omega
      · exact hw ▸ w.isLt
    have hline : (BitVec.ofNat 16 e.done.machine.pc).toNat = e.done.machine.pc := by
      rw [BitVec.toNat_ofNat, Nat.mod_eq_of_lt hle]
    have hafter : after = i.lowerFlag (before.pushWord (BitVec.ofNat 16 e.done.machine.pc)) := by
      show s.step.2.machine.mem = _
      rw [hmachine, ← advanced_pc]
      rfl
    refine ⟨⟨_, hline, hafter⟩, ?_⟩
    intro hstack htcon
    have hpushed := Memory.holdsWord_pushWord (BitVec.ofNat 16 e.done.machine.pc) hstack
    have hbytes := (i.holdsWord_lowerFlag hpushed htcon).toNat_eq
    rwa [← hafter, hline] at hbytes

/-! ## 4. A whole course -/

/-- The program was built, and the counter is at most the number of its lines, or a given number if
that is more. -/
structure Within (limit : Nat) (s : Simulator) : Prop where
  built : s.program.Built
  pc : s.machine.pc ≤ max s.program.size limit

theorem within_new (flags : Flags) (drawn : Ram) : (new flags drawn).Within limit :=
  ⟨⟨[], rfl⟩, Nat.zero_le _⟩

theorem within_of_isFresh (hbuilt : s.program.Built) (h : s.IsFresh) : s.Within limit where
  built := hbuilt
  pc := by
    obtain ⟨drawn, hs⟩ := h
    have hpc : s.machine.pc = s.program.entry := by
      rw [← hs]
      rfl
    rw [hpc]
    exact Nat.le_trans hbuilt.notes.1 (Nat.le_max_left _ _)

theorem Within.of_bare (h : s.bare = t.bare) (hs : s.Within limit) : t.Within limit := by
  have ht : t.bare.Within limit := h ▸ ⟨hs.built, hs.pc⟩
  exact ⟨ht.built, ht.pc⟩

theorem Within.step (h : s.Within limit) (hleap : s.Quiet ∨ 65535 ≤ limit) :
    s.step.2.Within limit := by
  have hprogram : s.step.2.program = s.program := s.sameLoad_step.program
  refine ⟨hprogram ▸ h.built, ?_⟩
  rw [hprogram]
  rcases step_pc h.built with hsame | hle | ⟨hloud, w, hw⟩
  · exact hsame ▸ h.pc
  · exact Nat.le_trans hle (Nat.le_max_left _ _)
  · have hlimit : 65535 ≤ limit := hleap.resolve_left hloud
    have hword : w.toNat < 65536 := w.isLt
    omega

theorem built_of_loadText {source : String} {drawn : Ram} (h : s.loadText source drawn = .ok t) :
    t.program.Built := by
  obtain ⟨program, hp, rfl⟩ := of_loadText h
  exact Program.built_of_ofSource hp

theorem built_of_reload {drawn : Ram} (hbuilt : s.program.Built) (h : s.reload drawn = .ok t) :
    t.program.Built := by
  rcases of_reload h with ⟨_, rfl⟩ | ⟨source, _, hl⟩
  · rw [(sameLoad_reset _ drawn).program]
    exact hbuilt
  · exact built_of_loadText hl

theorem built_accept {x : Input} (h : s.program.Built)
    (hload : ∀ p drawn, x = .load p drawn → p.Built) : (s.accept x).program.Built := by
  cases x with
  | load p drawn => exact hload p drawn rfl
  | toggle addr index => exact (s.sameLoad_toggle addr index).program ▸ h
  | receive | edit | configure => exact h
  | reset drawn =>
    show (s.reset drawn).program.Built
    rw [(s.sameLoad_reset drawn).program]
    exact h
  | loadText source drawn =>
    show ((s.loadText source drawn).toOption.getD s).program.Built
    cases hl : s.loadText source drawn with
    | error e => exact h
    | ok t => exact built_of_loadText hl
  | reload drawn =>
    show ((s.reload drawn).toOption.getD s).program.Built
    cases hl : s.reload drawn with
    | error e => exact h
    | ok t => exact built_of_reload h hl

theorem Within.accept {x : Input} (h : s.Within limit)
    (hload : ∀ p drawn, x = .load p drawn → p.Built) : (s.accept x).Within limit := by
  have hbuilt := built_accept h.built hload
  cases hx : s.renews x with
  | true => exact within_of_isFresh hbuilt (isFresh_of_renews hx)
  | false =>
    have hsame := accept_undisturbed hx
    refine ⟨hbuilt, ?_⟩
    rw [hsame.pc, hsame.program]
    exact h.pc

end Simulator

namespace Moment

/-- Nothing returns and no interrupt is gone into. -/
def Quiet : Moment → Prop
  | .step s => s.Quiet
  | .input _ _ => True

/-- If a program is put in, then it is a built one. -/
def BringsBuilt : Moment → Prop
  | .step _ => True
  | .input _ x => ∀ p drawn, x = .load p drawn → p.Built

theorem within {limit : Nat} (x : Moment) (hbrings : x.BringsBuilt)
    (hleap : x.Quiet ∨ 65535 ≤ limit) (h : x.before.Within limit) : x.after.Within limit := by
  cases x with
  | step s => exact Simulator.Within.step h hleap
  | input s x => exact Simulator.Within.accept h hbrings

end Moment

/-- The bound of sixteen bits holds throughout, and any lower one for as long as it is quiet. -/
theorem Chained.within {s t : Simulator} {moments : List Moment} {limit : Nat}
    (h : Chained s moments t) (hbrings : ∀ x ∈ moments, x.BringsBuilt)
    (hleap : ∀ x ∈ moments, x.Quiet ∨ 65535 ≤ limit) (hs : s.Within limit) :
    t.Within limit ∧ ∀ x ∈ moments, x.before.Within limit :=
  h.invariant (fun _ _ => Simulator.Within.of_bare)
    (fun x hx => x.within (hbrings x hx) (hleap x hx)) hs

namespace Simulator

theorem bringsBuilt_of_mem_moments {s : Simulator} {actions : List Action} {x : Moment}
    (hbuilt : ∀ p drawn, Action.input (.load p drawn) ∈ actions → p.Built)
    (hx : x ∈ s.moments actions) : x.BringsBuilt := by
  rcases step_or_input_of_mem_moments hx with ⟨t, rfl⟩ | ⟨t, y, rfl, hy⟩
  · trivial
  · rintro p drawn rfl
    exact hbuilt p drawn hy

/-- **The program counter stays in bounds**, whatever is done to a new simulator, as long as the
    programs that are put in are built ones. It is never more than the number of lines or 65535,
    whichever is more; from a load or a reset on it is not more than the number of lines, until a
    return is executed or an interrupt is gone into. So in a program of up to 65535 lines each call
    pushes the very line behind it, and each interrupt the very line it came before. -/
theorem counter_stays_in_bounds (flags : Flags) (drawn : Ram) (actions : List Action)
    (hbuilt : ∀ p drawn, Action.input (.load p drawn) ∈ actions → p.Built) :
    let s := (new flags drawn).performAll actions
    let moments := (new flags drawn).moments actions
    s.machine.pc ≤ max s.program.size 65535 ∧
    (∀ x ∈ moments, x.before.machine.pc ≤ max x.before.program.size 65535) ∧
    (∀ earlier x later, moments = earlier ++ x :: later → x.renews = true →
      (∀ y ∈ later, y.Quiet) →
      s.machine.pc ≤ s.program.size ∧
        ∀ y ∈ later, y.before.machine.pc ≤ y.before.program.size) ∧
    ∀ t, .step t ∈ moments → t.program.size ≤ 65535 → t.PushesWhole := by
  intro s moments
  have hchained : Chained (new flags drawn) moments s := (new flags drawn).chained_moments actions
  have hbrings : ∀ x ∈ moments, x.BringsBuilt := fun x => bringsBuilt_of_mem_moments hbuilt
  obtain ⟨hend, hbefore⟩ :=
    hchained.within hbrings (fun _ _ => .inr (Nat.le_refl 65535)) (within_new flags drawn)
  refine ⟨hend.pc, fun x hx => (hbefore x hx).pc, ?_, ?_⟩
  · intro earlier x later hmoments hx hquiet
    have hmem : ∀ y ∈ x :: later, y ∈ moments := by
      intro y hy
      rw [hmoments]
      exact List.mem_append_right earlier hy
    have hfirst : x ∈ moments := hmem x List.mem_cons_self
    rw [hmoments] at hchained
    cases hchained.split.2 with
    | cons _ hrest =>
      -- A renewal leaves the counter at the entry, so the bound starts anew without the 65535.
      have hbuilt : x.after.program.Built :=
        (x.within (hbrings x hfirst) (.inr (Nat.le_refl 65535)) (hbefore x hfirst)).built
      have hstart : x.after.Within 0 := within_of_isFresh hbuilt (Moment.isFresh_of_renews hx)
      obtain ⟨hlast, hlater⟩ := hrest.within
        (fun y hy => hbrings y (hmem y (List.mem_cons_of_mem x hy)))
        (fun y hy => .inl (hquiet y hy)) hstart
      have hzero : ∀ u : Simulator, u.Within 0 → u.machine.pc ≤ u.program.size := by
        intro u hu
        have hpc := hu.pc
        rwa [Nat.max_zero] at hpc
      exact ⟨hzero s hlast, fun y hy => hzero y.before (hlater y hy)⟩
  · intro t ht hsize
    exact pushesWhole (hbefore (.step t) ht).built hsize

/-- A routine behind the line that calls it, so that it returns once more than it was called. -/
def straying : Program :=
  .ofLines [some ⟨none, some .call, [.direct (.expr "SUB")], 0⟩,
    some ⟨some "SUB", some .ret, [], 1⟩]

/-- RAM is drawn at random, and the load draws nothing but ones. -/
def straightOn : List Action := [.input (.load straying (.filled 0xFF)), .step, .step, .step]

/-- The simulator that the program is loaded into. -/
def blank : Simulator := new { ramFill := .unseeded } (.filled 0)

/-- The call pushes line 1 behind the pointer at `07H`. The bound is reached in a program of two
lines: with nothing on the stack the second return finds what was drawn. -/
theorem straying_counter_stays_in_bounds :
    straying.Built ∧ straying.size = 2 ∧ (blank.performAll straightOn).machine.pc = 65535 ∧
      (blank.performAll straightOn).machine.pc ≤
        max (blank.performAll straightOn).program.size 65535 ∧
      (blank.load straying (.filled 0xFF)).PushesWhole ∧
      (blank.load straying (.filled 0xFF)).step.2.machine.mem.read 0x08 = 0 ∧
      (blank.load straying (.filled 0xFF)).step.2.machine.mem.read 0x09 = 1 := by
  have hbuilt : straying.Built := ⟨_, rfl⟩
  have hactions : ∀ p drawn, Action.input (.load p drawn) ∈ straightOn → p.Built := by
    intro p drawn hp
    simp only [straightOn, List.mem_cons, Action.input.injEq, Input.load.injEq, List.not_mem_nil,
      or_false, reduceCtorEq] at hp
    exact hp.1 ▸ hbuilt
  have hmem : .step (blank.load straying (.filled 0xFF)) ∈ blank.moments straightOn := by
    simp [straightOn, moments, momentsOf, perform, accept]
  obtain ⟨hpc, hbytes⟩ : (blank.performAll straightOn).machine.pc = 65535 ∧
      (blank.load straying (.filled 0xFF)).step.2.machine.mem.read 0x08 = 0 ∧
      (blank.load straying (.filled 0xFF)).step.2.machine.mem.read 0x09 = 1 := by
    decide +kernel
  unfold blank at hpc hbytes hmem ⊢
  obtain ⟨hle, _, _, hwhole⟩ :=
    counter_stays_in_bounds { ramFill := .unseeded } (.filled 0) straightOn hactions
  exact ⟨hbuilt, rfl, hpc, hle, hwhole _ hmem (by decide), hbytes⟩

end Simulator
end Mcs51
