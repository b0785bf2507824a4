import Mathlib.Data.List.Induction
import Mathlib.Data.List.Infix
import Mcs51.Proofs.Attempt
import Mcs51.Proofs.Frame

/-!
# Last in, first out

The stack has no memory of its own. Its bytes are cells like any others, and so is its pointer,
which wraps around at the ends; nothing but pushes and pops in the right order makes a stack of
them. What they make is said twice. `after` is the stack as a list that grows and shrinks at its
head, and `LastOpen` is the push that a pop belongs to, found by counting as one matches brackets.
The two agree on every sequence (`lastOpen_iff`), and memory agrees with the list (`Holds`) as long
as no slot is the stack pointer and no two slots are the same cell.

The instructions are pushes and pops too. `PUSH` reads its operand before the pointer moves and
`POP` writes it when the pointer has moved back, so an operand that is the pointer or the slot comes
out right as well.
-/

namespace Mcs51

/-! ## 1. Sequences of operations -/

/-- An operation on the stack. -/
inductive StackOp
  | push (value : Byte)
  | pop
  deriving DecidableEq, Repr

namespace StackOp

def weight : StackOp → Int
  | .push _ => 1
  | .pop => -1

/-- How much deeper the stack gets. -/
def depth : List StackOp → Int
  | [] => 0
  | op :: ops => op.weight + depth ops

/-- No pop reaches deeper than `n` bytes below the start. -/
def Suffices (n : Nat) (ops : List StackOp) : Prop :=
  ∀ front, front <+: ops → 0 ≤ n + depth front

/-- Every push has its pop, and every pop its push. -/
structure IsBalanced (ops : List StackOp) : Prop where
  above : Suffices 0 ops
  settled : depth ops = 0

/-- The last push that is still open: what comes behind it is balanced. A pop that comes next is the
one that matches it. -/
def LastOpen (value : Byte) (ops : List StackOp) : Prop :=
  ∃ before inner, ops = before ++ .push value :: inner ∧ IsBalanced inner

/-- No pop comes before its push, and the stack is never deeper than `d`. -/
def StaysWithin (d : Nat) (ops : List StackOp) : Prop :=
  ∀ front, front <+: ops → 0 ≤ depth front ∧ depth front ≤ d

instance (d : Nat) (ops : List StackOp) : Decidable (StaysWithin d ops) :=
  decidable_of_iff (∀ front ∈ ops.inits, 0 ≤ depth front ∧ depth front ≤ d)
    (by simp only [List.mem_inits, StaysWithin])

variable {n d : Nat} {value : Byte} {ops ops' : List StackOp} {stack : List Byte}

@[simp] theorem depth_nil : depth [] = 0 := rfl

@[simp] theorem depth_cons (op : StackOp) (ops : List StackOp) :
    depth (op :: ops) = op.weight + depth ops := rfl

@[simp] theorem depth_append (ops ops' : List StackOp) :
    depth (ops ++ ops') = depth ops + depth ops' := by
  induction ops with
  | nil => rw [List.nil_append, depth_nil, Int.zero_add]
  | cons op ops ih => rw [List.cons_append, depth_cons, depth_cons, ih, Int.add_assoc]

theorem Suffices.of_push (h : Suffices n (.push value :: ops)) : Suffices (n + 1) ops := by
  intro front hfront
  have hdepth := h (.push value :: front) ((List.prefix_cons_inj _).mpr hfront)
  rw [depth_cons, weight] at hdepth
  omega

theorem Suffices.of_pop (h : Suffices n (.pop :: ops)) : ∃ k, n = k + 1 ∧ Suffices k ops := by
  have hfirst := h [.pop] ((List.prefix_cons_inj _).mpr List.nil_prefix)
  rw [depth_cons, weight, depth_nil] at hfirst
  refine ⟨n - 1, by omega, ?_⟩
  intro front hfront
  have hdepth := h (.pop :: front) ((List.prefix_cons_inj _).mpr hfront)
  rw [depth_cons, weight] at hdepth
  omega

theorem StaysWithin.suffices (h : StaysWithin d ops) : Suffices 0 ops := by
  intro front hfront
  have hdepth := (h front hfront).1
  omega

theorem StaysWithin.of_prefix (h : StaysWithin d ops') (hops : ops <+: ops') : StaysWithin d ops :=
  fun front hfront => h front (hfront.trans hops)

theorem isBalanced_nil : IsBalanced [] where
  above front hfront := by
    rw [List.prefix_nil.mp hfront]
    simp
  settled := rfl

theorem IsBalanced.append (h : IsBalanced ops) (h' : IsBalanced ops') :
    IsBalanced (ops ++ ops') where
  above front hfront := by
    have hcut := List.prefix_or_prefix_of_prefix hfront (List.prefix_append ops ops')
    rcases hcut with hin | ⟨rest, rfl⟩
    · exact h.above front hin
    · have hrest := h'.above rest ((List.prefix_append_right_inj ops).mp hfront)
      rwa [depth_append, h.settled, Int.zero_add]
  settled := by rw [depth_append, h.settled, h'.settled, Int.add_zero]

/-- A push and its pop around a balanced sequence. -/
theorem IsBalanced.nest (h : IsBalanced ops) (value : Byte) :
    IsBalanced (.push value :: (ops ++ [.pop])) where
  above front hfront := by
    rcases List.prefix_cons_iff.mp hfront with rfl | ⟨front, rfl, hrest⟩
    · simp
    · rw [depth_cons, weight]
      rcases List.prefix_concat_iff.mp hrest with rfl | hin
      · rw [depth_append, h.settled]
        decide
      · have hdepth := h.above front hin
        omega
  settled := by
    rw [depth_cons, depth_append, h.settled, depth_cons, depth_nil, weight, weight]
    decide

/-! ## 2. The stack as a list -/

def act (stack : List Byte) : StackOp → List Byte
  | .push value => value :: stack
  | .pop => stack.tail

/-- The stack after some operations, its top first. -/
def after (stack : List Byte) (ops : List StackOp) : List Byte := ops.foldl act stack

theorem after_append (stack : List Byte) (ops ops' : List StackOp) :
    after stack (ops ++ ops') = after (after stack ops) ops' :=
  List.foldl_append

/-- What lies deeper than any pop reaches does not matter and stays. -/
theorem after_below (stack : List Byte) (h : Suffices stack.length ops) (below : List Byte) :
    after (stack ++ below) ops = after stack ops ++ below := by
  induction ops generalizing stack with
  | nil => rfl
  | cons op ops ih =>
    cases op with
    | push value => exact ih (value :: stack) h.of_push
    | pop =>
      obtain ⟨k, hk, hrest⟩ := h.of_pop
      cases stack with
      | nil => exact nomatch hk
      | cons top stack =>
        obtain rfl : stack.length = k := Nat.succ.inj hk
        exact ih stack hrest

theorem length_after (stack : List Byte) (h : Suffices stack.length ops) :
    ((after stack ops).length : Int) = stack.length + depth ops := by
  induction ops generalizing stack with
  | nil => simp [after]
  | cons op ops ih =>
    cases op with
    | push value =>
      have hrest := ih (value :: stack) h.of_push
      rw [List.length_cons] at hrest
      rw [depth_cons, weight]
      refine hrest.trans ?_
      omega
    | pop =>
      obtain ⟨k, hk, hrest⟩ := h.of_pop
      cases stack with
      | nil => exact nomatch hk
      | cons top stack =>
        obtain rfl : stack.length = k := Nat.succ.inj hk
        rw [depth_cons, weight, List.length_cons]
        refine (ih stack hrest).trans ?_
        omega

/-- A balanced sequence leaves every stack as it was. -/
theorem IsBalanced.after_eq (h : IsBalanced ops) (stack : List Byte) : after stack ops = stack := by
  have hlength := length_after [] h.above
  rw [h.settled] at hlength
  have hnil : after [] ops = [] := List.length_eq_zero_iff.mp (by simpa using hlength)
  have hbelow := after_below [] h.above stack
  rwa [hnil] at hbelow

/-- What is on top of the stack was put there by the last push that is still open, and under it is
what was there before that push. The induction is on the length, because behind a pop it goes on
from the push that the pop matches. -/
theorem exists_of_after_eq_cons (ops : List StackOp) (h : after [] ops = value :: stack) :
    ∃ before inner, ops = before ++ .push value :: inner ∧ IsBalanced inner ∧
      after [] before = stack := by
  induction hlength : ops.length using Nat.strongRecOn generalizing ops value stack with
  | _ length ih =>
    subst hlength
    cases ops using List.reverseRecOn with
    | nil => exact nomatch h
    | append_singleton ops op _ =>
      rw [after_append] at h
      cases op with
      | push pushed =>
        obtain ⟨rfl, rfl⟩ := List.cons.inj h
        exact ⟨ops, [], rfl, isBalanced_nil, rfl⟩
      | pop =>
        have htail : (after [] ops).tail = value :: stack := h
        cases hops : after [] ops with
        | nil =>
          rw [hops] at htail
          exact nomatch htail
        | cons top rest =>
          rw [hops] at htail
          obtain rfl : rest = value :: stack := htail
          obtain ⟨before, inner, rfl, hinner, hbefore⟩ := ih _ (by simp) ops hops rfl
          obtain ⟨first, outer, rfl, houter, hfirst⟩ :=
            ih before.length (by simp) before hbefore rfl
          refine ⟨first, outer ++ (.push top :: (inner ++ [.pop])), ?_,
            houter.append (hinner.nest top), hfirst⟩
          simp

/-- **The two notions of a stack agree.** -/
theorem lastOpen_iff : LastOpen value ops ↔ (after [] ops).head? = some value := by
  constructor
  · rintro ⟨before, inner, rfl, hinner⟩
    rw [after_append]
    show (after (value :: after [] before) inner).head? = some value
    rw [hinner.after_eq]
    rfl
  · intro h
    obtain ⟨stack, hstack⟩ := List.head?_eq_some_iff.mp h
    obtain ⟨before, inner, hops, hinner, -⟩ := exists_of_after_eq_cons ops hstack
    exact ⟨before, inner, hops, hinner⟩

/-! ## 3. The stack in memory -/

def perform (m : Memory) : StackOp → Memory
  | .push value => m.push value
  | .pop => m.pop

/-- The memory after some operations. -/
def performAll (m : Memory) (ops : List StackOp) : Memory := ops.foldl perform m

end StackOp

namespace Memory

/-- Where a byte goes that has `height` others below it, on a stack that starts empty. -/
def slot (base : Memory) (height : Nat) : Byte := base.sp + BitVec.ofNat 8 (height + 1)

/-- The memory holds a stack in the first `d` slots above where the pointer was at the start, and
all else is as it was then. -/
structure Holds (base : Memory) (d : Nat) (stack : List Byte) (m : Memory) : Prop where
  sp : m.sp = base.sp + BitVec.ofNat 8 stack.length
  bytes : ∀ upper value lower, stack = upper ++ value :: lower →
    m.read (base.slot lower.length) = value
  frame : ∀ addr, addr ≠ Sfr.sp → (∀ i < d, addr ≠ base.slot i) → m.read addr = base.read addr

variable {base m : Memory} {d : Nat} {stack : List Byte} {value : Byte}

theorem slot_inj {i j : Nat} (hi : i < 255) (hj : j < 255) (h : base.slot i = base.slot j) :
    i = j := by
  unfold slot at h
  bv_omega

theorem holds_nil (base : Memory) (d : Nat) : base.Holds d [] base where
  sp := by simp
  bytes upper value lower h := by simp at h
  frame _ _ _ := rfl

theorem Holds.push (h : base.Holds d stack m) (hd : d ≤ 255) (hlength : stack.length < d)
    (hslots : ∀ i < d, base.slot i ≠ Sfr.sp) (value : Byte) :
    base.Holds d (value :: stack) (m.push value) := by
  have hnext : m.sp + 1 = base.slot stack.length := by
    rw [h.sp, slot]
    bv_omega
  have hslot := hslots _ hlength
  constructor
  · rw [m.sp_push value (hnext ▸ hslot), hnext, slot, List.length_cons]
  · intro upper byte lower hstack
    cases upper with
    | nil =>
      obtain ⟨rfl, rfl⟩ := List.cons.inj hstack
      rw [Memory.push, hnext, read_write_self]
    | cons top upper =>
      obtain rfl : stack = upper ++ byte :: lower := (List.cons.inj hstack).2
      rw [List.length_append, List.length_cons] at hlength hnext
      have hlower : lower.length < d := by omega
      rw [m.read_push_of_ne value (hslots _ hlower).symm, h.bytes upper byte lower rfl]
      intro hsame
      have hheight := slot_inj (by omega) (by omega) (hnext.symm.trans hsame)
      omega
  · intro addr hsp haddr
    rw [m.read_push_of_ne value hsp.symm (hnext ▸ (haddr _ hlength).symm), h.frame addr hsp haddr]

theorem Holds.pop (h : base.Holds d (value :: stack) m) (hlength : stack.length < d)
    (hslots : ∀ i < d, base.slot i ≠ Sfr.sp) : base.Holds d stack m.pop := by
  constructor
  · have hmoved : m.pop.sp = m.sp - 1 := m.read_write_self Sfr.sp _
    rw [hmoved, h.sp, List.length_cons]
    bv_omega
  · rintro upper byte lower rfl
    rw [List.length_append, List.length_cons] at hlength
    have hlower : lower.length < d := by omega
    rw [m.read_pop_of_ne (hslots _ hlower).symm, h.bytes (value :: upper) byte lower rfl]
  · intro addr hsp haddr
    rw [m.read_pop_of_ne hsp.symm, h.frame addr hsp haddr]

theorem Holds.top (h : base.Holds d (value :: stack) m) : m.top = value := by
  rw [Memory.top, h.sp]
  exact h.bytes [] value stack rfl

end Memory

namespace StackOp

variable {base : Memory} {d : Nat} {ops : List StackOp}

/-- **Memory holds the list.** -/
theorem holds_performAll (hd : d ≤ 255) (hslots : ∀ i < d, base.slot i ≠ Sfr.sp)
    (h : StaysWithin d ops) : base.Holds d (after [] ops) (performAll base ops) := by
  induction ops using List.reverseRecOn with
  | nil => exact base.holds_nil d
  | append_singleton ops op ih =>
    have hops := h.of_prefix (List.prefix_append ops [op])
    have hlength := length_after [] hops.suffices
    have hhere := (hops ops (List.prefix_refl _)).2
    have hdepth := h (ops ++ [op]) (List.prefix_refl _)
    rw [depth_append, depth_cons, depth_nil] at hdepth
    rw [List.length_nil] at hlength
    have hstep : performAll base (ops ++ [op]) = perform (performAll base ops) op := by
      rw [performAll, List.foldl_append]
      rfl
    rw [hstep, after_append]
    cases op with
    | push value =>
      rw [weight] at hdepth
      exact (ih hops).push hd (by omega) hslots value
    | pop =>
      rw [weight] at hdepth
      cases hstack : after [] ops with
      | nil =>
        rw [hstack, List.length_nil] at hlength
        omega
      | cons top stack =>
        have hheld := ih hops
        rw [hstack] at hheld
        rw [hstack, List.length_cons] at hlength
        exact hheld.pop (by omega) hslots

/-- What a pop finds. -/
theorem lastOpen_iff_top (hd : d ≤ 255) (hslots : ∀ i < d, base.slot i ≠ Sfr.sp)
    {front back : List StackOp} (h : StaysWithin d (front ++ .pop :: back)) (value : Byte) :
    LastOpen value front ↔ (performAll base front).top = value := by
  have hfront := h.of_prefix (List.prefix_append front _)
  have hheld := holds_performAll hd hslots hfront
  have hlength := length_after [] hfront.suffices
  have hpop := (h (front ++ [.pop]) ⟨back, List.append_cons front .pop back ▸ rfl⟩).1
  rw [depth_append, depth_cons, depth_nil, weight] at hpop
  rw [List.length_nil] at hlength
  rw [lastOpen_iff]
  cases hstack : after [] front with
  | nil =>
    rw [hstack, List.length_nil] at hlength
    omega
  | cons top stack =>
    rw [hstack] at hheld
    rw [hheld.top, List.head?_cons, Option.some.injEq]

end StackOp

/-! ## 4. Instructions -/

namespace Memory

variable {m : Memory} (value : Byte)

theorem top_push (h : m.sp + 1 ≠ Sfr.sp) : (m.push value).top = value := by
  rw [top, m.sp_push value h]
  exact read_write_self _ _ value

/-- A byte that was pushed and popped is still in its slot. -/
theorem pop_push (h : m.sp + 1 ≠ Sfr.sp) : (m.push value).pop = m.write (m.sp + 1) value := by
  rw [pop, m.sp_push value h, BitVec.add_sub_cancel, push, setSp, setSp, write_comm _ _ _ h,
    write_write]
  exact congrArg (·.write (m.sp + 1) value) (m.write_read Sfr.sp)

/-- `POP` behind a `PUSH` of the same operand: the operand is written with the byte that it has, and
the slot with the same byte before that. -/
theorem setByte_pop_push (h : m.sp + 1 ≠ Sfr.sp) (symbols : Symbols) (x : ByteRef)
    (hvalue : value = Operand.getByte symbols m (some (.direct x))) :
    let popped := ((Effect.ofMemory (m.push value).pop).setByte symbols (some (.direct x))
      (m.push value).top).mem
    (∀ addr, addr ≠ m.sp + 1 → popped.read addr = m.read addr) ∧
      (x.addr? symbols = some (m.sp + 1) → popped = m) := by
  rw [pop_push value h, top_push value h]
  simp only [Operand.getByte, Operand.byteValue, Operand.byteAddr?] at hvalue
  simp only [Effect.setByte, Operand.byteAddr?]
  cases hx : x.addr? symbols with
  | none => exact ⟨fun addr haddr => m.read_write_of_ne value haddr.symm, nofun⟩
  | some place =>
    obtain rfl : value = m.read place := by simpa only [hx] using hvalue
    constructor
    · intro addr haddr
      have hrest := m.read_write_of_ne (m.read place) haddr.symm
      by_cases hplace : place = addr
      · subst hplace
        exact read_write_self _ place _
      · exact (read_write_of_ne _ _ hplace).trans hrest
    · intro hslot
      obtain rfl := Option.some.inj hslot
      exact (m.write_write _ _ _).trans (m.write_read _)

end Memory

namespace Machine

/-- **Last in, first out.** On a stack of at most 255 bytes that does not run over its own pointer,
    a pop finds the byte of the push that it matches, the pointer moves with the depth, and no byte
    outside the slots changes. The instructions `PUSH` and `POP` are a push and a pop: one after the
    other with the same direct operand they leave memory as it was, but for the slot where that is
    not the operand. -/
theorem stack_is_lifo (m : Machine) (symbols : Symbols) :
    (∀ d ops, d ≤ 255 → (∀ i < d, m.mem.slot i ≠ Sfr.sp) → StackOp.StaysWithin d ops →
      (∀ front back, ops = front ++ .pop :: back → ∀ value,
        StackOp.LastOpen value front ↔ (StackOp.performAll m.mem front).top = value) ∧
      ∀ front, front <+: ops →
        (StackOp.performAll m.mem front).sp = m.mem.sp + BitVec.ofInt 8 (StackOp.depth front) ∧
        ∀ addr, addr ≠ Sfr.sp → (∀ i < d, addr ≠ m.mem.slot i) →
          (StackOp.performAll m.mem front).read addr = m.mem.read addr) ∧
    (m.mem.sp ≠ 0x80 → ∀ x : ByteRef, ∃ pushed popped,
      m.execute symbols .push [.direct x] = .ok pushed ∧
      pushed.machine.execute symbols .pop [.direct x] = .ok popped ∧
      popped.machine.mem.sp = m.mem.sp ∧
      (∀ addr, addr ≠ m.mem.sp + 1 → popped.machine.mem.read addr = m.mem.read addr) ∧
      (x.addr? symbols = some (m.mem.sp + 1) → popped.machine.mem = m.mem)) := by
  constructor
  · rintro d ops hd hslots hops
    constructor
    · rintro front back rfl value
      exact StackOp.lastOpen_iff_top hd hslots hops value
    · intro front hfront
      have hwithin := hops.of_prefix hfront
      have hheld := StackOp.holds_performAll hd hslots hwithin
      have hlength := StackOp.length_after [] hwithin.suffices
      rw [List.length_nil, Int.natCast_zero, Int.zero_add] at hlength
      refine ⟨?_, hheld.frame⟩
      rw [hheld.sp, ← hlength, BitVec.ofInt_natCast]
  · intro hsp x
    have hslot : m.mem.sp + 1 ≠ Sfr.sp := by
      intro h
      bv_omega
    obtain ⟨hrest, hsame⟩ := m.mem.setByte_pop_push _ hslot symbols x rfl
    exact ⟨_, _, rfl, rfl, hrest Sfr.sp hslot.symm, hrest, hsame⟩

/-- Its stack begins at the last byte and goes on at the first. -/
def stackedAtEnd : Machine := ⟨Memory.zero.setSp 0xFE, 0, 0, .idle, false⟩

/-- A stack that wraps around, and an instruction whose operand is its own slot. -/
theorem stackedAtEnd_is_lifo :
    (StackOp.performAll stackedAtEnd.mem [.push 1, .push 2, .pop, .push 3, .pop]).top = 1 ∧
    (StackOp.performAll stackedAtEnd.mem [.push 1, .push 2]).sp = 0 ∧
    ∃ pushed popped,
      stackedAtEnd.execute ∅ .push [.direct (.sfr 0xFF)] = .ok pushed ∧
      pushed.machine.execute ∅ .pop [.direct (.sfr 0xFF)] = .ok popped ∧
      popped.machine.mem = stackedAtEnd.mem := by
  have hsp : stackedAtEnd.mem.sp = 0xFE := Memory.zero.read_write_self Sfr.sp 0xFE
  have hslots : ∀ i < 2, stackedAtEnd.mem.slot i ≠ Sfr.sp := by
    simp only [Memory.slot, hsp]
    decide
  obtain ⟨hstack, hpair⟩ := stackedAtEnd.stack_is_lifo ∅
  obtain ⟨hpops, hfronts⟩ :=
    hstack 2 [.push 1, .push 2, .pop, .push 3, .pop, .pop] (by decide) hslots (by decide)
  refine ⟨?_, ?_, ?_⟩
  · have hinner := (StackOp.isBalanced_nil.nest 2).append (StackOp.isBalanced_nil.nest 3)
    exact (hpops _ [] rfl 1).mp ⟨[], _, rfl, hinner⟩
  · rw [(hfronts [.push 1, .push 2] (by decide)).1, hsp]
    decide
  · obtain ⟨pushed, popped, hpush, hpop, -, -, hmem⟩ := hpair (by rw [hsp]; decide) (.sfr 0xFF)
    exact ⟨pushed, popped, hpush, hpop, hmem (by rw [hsp]; rfl)⟩

end Machine
end Mcs51
