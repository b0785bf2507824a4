import Mcs51.Proofs.Loading
import Mcs51.Proofs.RegisterBanks
import Mcs51.Proofs.Renewal
import Mcs51.Proofs.SerialStep

/-!
# The trace accounts for the cycles

The trace and the count of cycles are kept in two places of a step. The cycles are counted before an
interrupt is looked for, and the entry of the trace is made after that, from the machine the step
ends with. Both are left alone by a step that executes nothing, and both go when the machine is put
back to its start. So the count is what the lines named by the trace cost, and that is `Accounted`.

`Simulator.record?` is the entry that a step is to leave. It is read off what the step returned, the
line it was at and the memory after it, byte by byte, and not off the way the step went. One step
adds that entry and nothing else (`step_trace`); over a course the entries come one on top of the
other, for as long as nothing puts the machine back (`Chained.trace_eq`).
-/

namespace Mcs51

/-! ## 1. What a line costs -/

namespace Cost

theorem move_bounds (dst src : Option Operand) : 1 ≤ move dst src ∧ move dst src ≤ 4 := by
  unfold move
  split <;> decide

theorem arithmetic_bounds (src : Option Operand) : 1 ≤ arithmetic src ∧ arithmetic src ≤ 4 := by
  unfold arithmetic
  split <;> decide

theorem countDown_bounds (dst : Option Operand) : 1 ≤ countDown dst ∧ countDown dst ≤ 4 := by
  unfold countDown
  split <;> decide

theorem logic_bounds (dst src : Option Operand) : 1 ≤ logic dst src ∧ logic dst src ≤ 4 := by
  unfold logic
  split
  · decide
  · split <;> decide
  · decide

/-- Every instruction takes one to four cycles. -/
theorem of_bounds (mnemonic : Mnemonic) (ops : List Operand) :
    1 ≤ of mnemonic ops ∧ of mnemonic ops ≤ 4 := by
  cases mnemonic with
  | mov => exact move_bounds _ _
  | add | addc | subb => exact arithmetic_bounds _
  | djnz => exact countDown_bounds _
  | anl | orl | xrl => exact logic_bounds _ _
  | _ => simp [of]

end Cost

namespace Program

/-- The cycles that the instruction at an index takes; where there is none it takes none. -/
def costAt (p : Program) (index : Nat) : Nat :=
  match p.instruction? index with
  | some (mnemonic, line) => Cost.of mnemonic line.operands
  | none => 0

variable {p : Program} {index : Nat} {mnemonic : Mnemonic} {line : Line}

theorem costAt_of_instruction? (h : p.instruction? index = some (mnemonic, line)) :
    p.costAt index = Cost.of mnemonic line.operands := by
  rw [costAt, h]

theorem isExecutable_of_instruction? (h : p.instruction? index = some (mnemonic, line)) :
    p.line? index = some line ∧ line.isExecutable = true := by
  obtain ⟨hline, hmnemonic, hdirective⟩ := instruction?_eq_some_iff.mp h
  simp [hline, Line.isExecutable, hmnemonic, hdirective]

end Program

/-- An entry of a trace names a line of a program that is executed, with its number and its text,
and what the line costs is within bounds. -/
def TraceEntry.Names (e : TraceEntry) (p : Program) : Prop :=
  (∃ line, p.line? e.pc = some line ∧ line.isExecutable = true ∧ e.number = line.number ∧
    e.text = line.instruction) ∧
  1 ≤ p.costAt e.pc ∧ p.costAt e.pc ≤ 4

/-- An entry of a trace shows a memory: its accumulator, and the eight registers of the bank that is
selected in it. -/
structure TraceEntry.Shows (e : TraceEntry) (m : Memory) : Prop where
  acc : e.acc = m.read Sfr.acc
  registers : e.registers = List.ofFn fun r => m.read (m.psw.selected.cell r)

namespace Simulator

variable {s t : Simulator} {e : Execution} {x : Input}

/-! ## 2. What a step records -/

/-- The entry that a step leaves in the trace. It leaves one if it does not fail and is at an
executable line; the bytes are those of the memory that the whole step ends with. -/
def record? (s : Simulator) : Option TraceEntry :=
  match s.step.1, s.program.instruction? s.machine.pc with
  | .ok (), some (_, line) =>
    let m := s.step.2.machine.mem
    some {
      pc := s.machine.pc
      number := line.number
      text := line.instruction
      acc := m.read Sfr.acc
      registers := List.ofFn fun r => m.read (m.psw.selected.cell r) }
  | _, _ => none

theorem traceEntry_shows (pc : Nat) (line : Line) (m : Machine) :
    (traceEntry pc line m).Shows m.mem where
  acc := rfl
  registers := by
    rw [List.ofFn_eq_map]
    apply List.map_congr_left
    intro r _
    rw [Memory.register, Memory.registerAddr_eq]

theorem record?_of_executes?_eq_none (h : s.executes? = none) : s.record? = none := by
  unfold record? step
  generalize ha : s.attempt = a
  cases attempted_of_eq ha with
  | stale | lost => rfl
  | halted fresh past =>
    -- The program being over is no failure, so here it is the line that is missing.
    have hnone : s.program.instruction? s.machine.pc = none := by
      cases hi : s.program.instruction? s.machine.pc with
      | none => rfl
      | some found => exact absurd (Program.lt_size_of_instruction? hi) (Nat.not_lt.mpr past)
    simp only [hnone]
  | passed fresh inside none => simp only [none]
  | executed fresh inside instruction step =>
    obtain ⟨done, hx⟩ := exists_executes?_eq_some fresh instruction step
    exact nomatch h.symm.trans hx

theorem record?_of_executes?_eq_some (h : s.executes? = some e) :
    s.record? = some (traceEntry s.machine.pc e.line s.step.2.machine) := by
  obtain ⟨_, hi, _⟩ := executes?_eq_some_iff.mp h
  have hreturn : s.step.1 = .ok () := by simp only [step, attempt_of_executes?_eq_some h]
  have hshows := traceEntry_shows s.machine.pc e.line s.step.2.machine
  simp only [record?, hreturn, hi, ← hshows.registers]
  rfl

/-- **A step adds its entry to the trace**, and nothing else. -/
theorem step_trace (s : Simulator) : s.step.2.trace = s.record?.toList ++ s.trace := by
  cases h : s.executes? with
  | none =>
    rw [record?_of_executes?_eq_none h, (idle_step h).2.2]
    rfl
  | some e =>
    rw [record?_of_executes?_eq_some h, (step_of_executes?_eq_some h).1]
    simp only [step, attempt_of_executes?_eq_some h]
    rw [settle_frame]
    rfl

/-- The cycles that a step counts are those of the line it records. -/
theorem step_cycles_record (s : Simulator) :
    s.step.2.machine.cycles =
      (s.record?.toList.map fun entry => s.program.costAt entry.pc).sum + s.machine.cycles := by
  rw [step_cycles, Nat.add_comm]
  cases h : s.executes? with
  | none =>
    rw [record?_of_executes?_eq_none h, tick_of_executes?_eq_none h]
    rfl
  | some e =>
    obtain ⟨_, hi, _⟩ := executes?_eq_some_iff.mp h
    rw [record?_of_executes?_eq_some h, tick_of_executes?_eq_some h]
    simp [traceEntry, Program.costAt_of_instruction? hi]

theorem names_of_record? {entry : TraceEntry} (h : s.record? = some entry) :
    entry.Names s.program := by
  cases hx : s.executes? with
  | none =>
    rw [record?_of_executes?_eq_none hx] at h
    exact nomatch h
  | some e =>
    rw [record?_of_executes?_eq_some hx] at h
    obtain rfl := Option.some.inj h
    obtain ⟨_, hi, _⟩ := executes?_eq_some_iff.mp hx
    obtain ⟨hline, hexecutable⟩ := Program.isExecutable_of_instruction? hi
    refine ⟨⟨e.line, hline, hexecutable, rfl, rfl⟩, ?_⟩
    show 1 ≤ s.program.costAt s.machine.pc ∧ s.program.costAt s.machine.pc ≤ 4
    rw [Program.costAt_of_instruction? hi]
    exact Cost.of_bounds _ _

theorem shows_of_record? {entry : TraceEntry} (h : s.record? = some entry) :
    entry.Shows s.step.2.machine.mem := by
  unfold record? at h
  split at h
  · obtain rfl := Option.some.inj h
    exact ⟨rfl, rfl⟩
  · exact nomatch h

/-! ## 3. The account -/

/-- The cycles are those of the lines in the trace, and these are lines of the program. -/
structure Accounted (s : Simulator) : Prop where
  cycles : s.machine.cycles = (s.trace.map fun entry => s.program.costAt entry.pc).sum
  names : ∀ entry ∈ s.trace, entry.Names s.program

theorem accounted_of_isFresh (h : s.IsFresh) : s.Accounted := by
  obtain ⟨drawn, hs⟩ := h
  rw [← hs]
  exact ⟨rfl, List.forall_mem_nil _⟩

theorem Accounted.of_bare (h : s.bare = t.bare) (hs : s.Accounted) : t.Accounted := by
  have ht : t.bare.Accounted := h ▸ ⟨hs.cycles, hs.names⟩
  exact ⟨ht.cycles, ht.names⟩

theorem Accounted.step (h : s.Accounted) : s.step.2.Accounted := by
  have hprogram : s.step.2.program = s.program := s.sameLoad_step.program
  constructor
  · rw [step_cycles_record, step_trace, hprogram, h.cycles, List.map_append, List.sum_append]
  · rw [step_trace, hprogram]
    intro entry hentry
    rcases List.mem_append.mp hentry with hnew | hold
    · exact names_of_record? (Option.mem_toList.mp hnew)
    · exact h.names entry hold

theorem Accounted.accept (h : s.Accounted) (x : Input) : (s.accept x).Accounted := by
  cases hx : s.renews x with
  | true => exact accounted_of_isFresh (isFresh_of_renews hx)
  | false =>
    have hsame := accept_undisturbed hx
    constructor
    · rw [hsame.cycles, hsame.trace, hsame.program]
      exact h.cycles
    · rw [hsame.trace, hsame.program]
      exact h.names

end Simulator

/-! ## 4. A whole course -/

namespace Moment

/-- The entry that a moment leaves in the trace. -/
def record? : Moment → Option TraceEntry
  | .step s => s.record?
  | .input _ _ => none

theorem accounted (x : Moment) (h : x.before.Accounted) : x.after.Accounted := by
  cases x with
  | step s => exact Simulator.Accounted.step h
  | input s x => exact Simulator.Accounted.accept h x

/-- A moment adds its entry to the trace, unless it puts the machine back to its start. -/
theorem after_trace (x : Moment) :
    x.after.trace = if x.renews then [] else x.record?.toList ++ x.before.trace := by
  cases x with
  | step s => exact s.step_trace
  | input s x =>
    show (s.accept x).trace = if s.renews x then [] else s.trace
    cases hx : s.renews x with
    | true =>
      obtain ⟨drawn, hreset⟩ := Simulator.isFresh_of_renews hx
      rw [← hreset]
      rfl
    | false => exact (Simulator.accept_undisturbed hx).trace

theorem shows_of_record? {x : Moment} {entry : TraceEntry} (h : x.record? = some entry) :
    entry.Shows x.after.machine.mem := by
  cases x with
  | step s => exact Simulator.shows_of_record? h
  | input s x => exact nomatch h

end Moment

theorem Simulator.trace_of_bare {s t : Simulator} (h : s.bare = t.bare) : s.trace = t.trace := by
  show s.bare.trace = t.bare.trace
  rw [h]

theorem Chained.accounted {s t : Simulator} {moments : List Moment} (h : Chained s moments t)
    (hs : s.Accounted) : t.Accounted ∧ ∀ x ∈ moments, x.before.Accounted :=
  h.invariant (fun _ _ => Simulator.Accounted.of_bare) (fun x _ => x.accounted) hs

/-- **The trace only grows at its newest end.** As long as nothing puts the machine back to its
    start, the entries of the moments come one on top of the other. -/
theorem Chained.trace_eq {s t : Simulator} {moments : List Moment} (h : Chained s moments t)
    (hno : ∀ x ∈ moments, x.renews = false) :
    t.trace = (moments.filterMap Moment.record?).reverse ++ s.trace := by
  induction h with
  | nil hst => exact (Simulator.trace_of_bare hst).symm
  | @cons s t x rest hx _ ih =>
    have hfirst : x.renews = false := hno x List.mem_cons_self
    have hlast : t.trace = _ := ih fun y hy => hno y (List.mem_cons_of_mem _ hy)
    rw [hlast, x.after_trace, hfirst, Simulator.trace_of_bare hx]
    cases he : x.record? with
    | none => simp [he]
    | some entry => simp [he]

namespace Simulator

/-- **The trace accounts for the cycles**, whatever is done to a new simulator. The cycles are the
    sum of what the lines cost that the trace names, each of them one to four cycles; these are
    executable lines of the program, shown as the program has them and, where the program was loaded
    from source, numbered by their index. That holds at the end and before each moment on the way.
    A moment adds to the trace the one entry that it is to leave, at the newest end, and nothing
    else happens to the trace until the machine is put back to its start. The entry shows the
    accumulator and the registers as the step left them, with all that an interrupt pushed. -/
theorem trace_accounts_for_cycles (flags : Flags) (drawn : Ram) (actions : List Action) :
    let s := (new flags drawn).performAll actions
    let moments := (new flags drawn).moments actions
    s.Accounted ∧
    (∀ x ∈ moments, x.before.Accounted) ∧
    (∀ source, Program.ofSource source = .ok s.program → ∀ entry ∈ s.trace,
      entry.number = entry.pc) ∧
    (∀ x ∈ moments, x.after.trace = if x.renews then [] else x.record?.toList ++ x.before.trace) ∧
    (∀ x ∈ moments, ∀ entry, x.record? = some entry → entry.Shows x.after.machine.mem) ∧
    ∀ earlier x later, moments = earlier ++ x :: later → (∀ y ∈ x :: later, y.renews = false) →
      s.trace = ((x :: later).filterMap Moment.record?).reverse ++ x.before.trace := by
  intro s moments
  have hchained : Chained (new flags drawn) moments s := (new flags drawn).chained_moments actions
  have hnew : (new flags drawn).Accounted := ⟨rfl, List.forall_mem_nil _⟩
  obtain ⟨hend, hbefore⟩ := hchained.accounted hnew
  refine ⟨hend, hbefore, ?_, ?_, ?_, ?_⟩
  · intro source hsource entry hentry
    obtain ⟨line, hline, _, hnumber, _⟩ := (hend.names entry hentry).1
    rw [hnumber]
    exact Program.number_of_ofSource hsource hline
  · intro x _
    exact x.after_trace
  · intro x _ entry hentry
    exact Moment.shows_of_record? hentry
  · intro earlier x later hmoments hno
    have hchained : Chained (new flags drawn) (earlier ++ x :: later) s := hmoments ▸ hchained
    exact hchained.split.2.trace_eq hno

/-- RAM is full of sevens. There is a directive, an instruction that takes time, a change to the
first bank before the second one is selected, an exchange with a register of that, and then a jump
that leads nowhere. -/
def metered : List Action :=
  [.input (.loadText "ORG 0\nMUL AB\nINC R0\nSETB RS0\nXCH A,R1\nSJMP A\n" (.filled 0)),
    .run (fun _ => true) 3, .step, .run (fun _ => true) 9]

def sevens : Simulator := new { ramFill := .known 7 } (.filled 0)

def meteredEnd : Simulator := sevens.performAll metered

/-- The simulator that is about to execute the exchange. -/
def beforeExchange : Simulator := sevens.performAll (metered.take 2)

/-- Neither the directive nor the jump is in the trace, and neither is counted. The exchange shows
the registers of the second bank, where `R0` is as it was. -/
theorem metered_accounts_for_cycles :
    meteredEnd.trace.map (fun entry => (entry.number, entry.text)) =
        [(4, "XCH A, R1"), (3, "SETB RS0"), (2, "INC R0"), (1, "MUL AB")] ∧
      meteredEnd.machine.cycles = 7 ∧
      meteredEnd.machine.cycles =
        (meteredEnd.trace.map fun entry => meteredEnd.program.costAt entry.pc).sum ∧
      (∀ entry ∈ meteredEnd.trace, entry.number = entry.pc) ∧
      beforeExchange.record?.map (fun entry => (entry.text, entry.acc, entry.registers)) =
        some ("XCH A, R1", 7, [7, 0, 7, 7, 7, 7, 7, 7]) ∧
      ∀ entry, beforeExchange.record? = some entry →
        entry.Shows beforeExchange.step.2.machine.mem := by
  obtain ⟨haccounted, _, hnumbers, _, hshows, _⟩ :=
    trace_accounts_for_cycles { ramFill := .known 7 } (.filled 0) metered
  have hmem : .step beforeExchange ∈ sevens.moments metered :=
    List.mem_append_right _ (List.mem_append_right _ List.mem_cons_self)
  obtain ⟨htrace, hcycles, hsource, hrecord⟩ :
      meteredEnd.trace.map (fun entry => (entry.number, entry.text)) =
        [(4, "XCH A, R1"), (3, "SETB RS0"), (2, "INC R0"), (1, "MUL AB")] ∧
      meteredEnd.machine.cycles = 7 ∧
      meteredEnd.source.map (fun source => (Program.ofSource source).toOption) =
        some (some meteredEnd.program) ∧
      beforeExchange.record?.map (fun entry => (entry.text, entry.acc, entry.registers)) =
        some ("XCH A, R1", 7, [7, 0, 7, 7, 7, 7, 7, 7]) := by
    decide +kernel
  refine ⟨htrace, hcycles, haccounted.cycles, ?_, hrecord, hshows _ hmem⟩
  obtain ⟨source, _, hloaded⟩ := Option.map_eq_some_iff.mp hsource
  cases hp : Program.ofSource source with
  | error e =>
    rw [hp] at hloaded
    exact nomatch hloaded
  | ok p =>
    rw [hp] at hloaded
    have hprogram : p = meteredEnd.program := Option.some.inj hloaded
    rw [hprogram] at hp
    exact hnumbers source hp

end Simulator
end Mcs51
