import Mcs51.Proofs.BufferWrite

/-!
# One byte under different names

A byte can be named in five ways: as a register of the selected bank, through a register that holds
its address, by the name of a special function register, by an expression for its address, and, if
it is the accumulator, as `A`. `Operand.Names` has a rule for each of them.
`execute_eq_of_respelled` says that an instruction on bytes cannot tell them apart.

Reading is the easy half: every name leads to the same address, and the value is what is there. In
writing `A` stands out, because a write to it brings parity up to date at once, while the
accumulator written by its address is seen to after the instruction. `Effect.settled` is memory
after both, and `settled_setByte` says what a write comes to by then. It needs a status word whose
parity was right before: a write that leaves the accumulator as it was does not mend it.

The stack pointer, the status word and the pointers themselves may all be the byte that is named.
No instruction resolves an operand after it has changed one of them, except that `POP` moves the
stack pointer first, and no name depends on that (`Effect.byteAddr?_pop`).
-/

namespace Mcs51

/-! ## 1. Names of a byte -/

/-- An operand names the byte at an address. -/
inductive Operand.Names (symbols : Symbols) (m : Memory) : Byte → Operand → Prop
  | acc : Names symbols m Sfr.acc .acc
  | register (r : Register) : Names symbols m (m.registerAddr r) (.register r)
  | indirect (r : Register) : Names symbols m (m.register r) (.indirect r)
  | sfr (addr : Byte) : Names symbols m addr (.direct (.sfr addr))
  | expr {text : String} {addr : Byte} (h : symbols.resolve text = addr.toNat) :
      Names symbols m addr (.direct (.expr text))

/-- The number of operands, from the first on, that an instruction takes as bytes. -/
def Mnemonic.byteOperands : Mnemonic → Nat
  | .mov | .add | .addc | .subb | .anl | .orl | .xrl | .xch | .cjne => 2
  | .inc | .dec | .djnz | .push | .pop => 1
  | _ => 0

namespace Operand

variable {symbols : Symbols} {m : Memory} {addr : Byte} {op : Operand}

theorem Names.byteAddr?_eq (h : op.Names symbols m addr) : op.byteAddr? symbols m = some addr := by
  cases h with
  | acc => rfl
  | register r => rfl
  | indirect r => rfl
  | sfr addr => rfl
  | expr h =>
    have hlt := addr.isLt
    simp only [byteAddr?, ByteRef.addr?, h]
    rw [if_pos (by omega), BitVec.ofInt_natCast, BitVec.ofNat_toNat, BitVec.setWidth_eq]

theorem byteValue_of_byteAddr? (h : op.byteAddr? symbols m = some addr) :
    op.byteValue symbols m = m.read addr := by
  cases op with
  | immediate | bit | notBit => exact nomatch h
  | acc | ab | dptr | register | indirect | direct => simp only [byteValue, h]

/-- Two operands that are the same or name the same byte. -/
inductive SameByte (symbols : Symbols) (m : Memory) : Option Operand → Option Operand → Prop
  | refl (op : Option Operand) : SameByte symbols m op op
  | respelled {addr : Byte} {op op' : Operand} (h : op.byteAddr? symbols m = some addr)
      (h' : op'.byteAddr? symbols m = some addr) : SameByte symbols m (some op) (some op')

variable {x x' : Option Operand}

theorem SameByte.getByte_eq (h : SameByte symbols m x x') :
    getByte symbols m x = getByte symbols m x' := by
  cases h with
  | refl => rfl
  | respelled h h' => exact (byteValue_of_byteAddr? h).trans (byteValue_of_byteAddr? h').symm

theorem SameByte.isBuffer_eq (h : SameByte symbols m x x') :
    Effect.isBuffer symbols m x = Effect.isBuffer symbols m x' := by
  cases h with
  | refl => rfl
  | respelled h h' => simp only [Effect.isBuffer, Option.bind_some, h, h']

theorem SameByte.pop (h : SameByte symbols m x x') : SameByte symbols m.pop x x' := by
  cases h with
  | refl => exact .refl _
  | respelled h h' =>
    exact .respelled ((Effect.byteAddr?_pop symbols m _).trans h)
      ((Effect.byteAddr?_pop symbols m _).trans h')

/-- What names no byte has no other spelling. -/
theorem SameByte.ne_of_ne (h : SameByte symbols m x x') (hop : op.byteAddr? symbols m = none)
    (hx : x ≠ some op) : x' ≠ some op := by
  cases h with
  | refl => exact hx
  | respelled h h' =>
    intro e
    obtain rfl := Option.some.inj e
    rw [hop] at h'
    exact nomatch h'

end Operand

/-! ## 2. Memory once parity is seen to -/

/-- A byte written, with parity brought up to date if it was the accumulator. -/
def Memory.put (m : Memory) (addr value : Byte) : Memory :=
  if addr = Sfr.acc then (m.setAcc value).refreshParity else m.write addr value

namespace Effect

/-- Memory after an effect, once parity follows an accumulator that was `before`. -/
def settled (before : Byte) (e : Effect) : Memory :=
  if !e.parityDone && e.mem.acc ≠ before then e.mem.refreshParity else e.mem

/-- Two effects that leave the same memory by then, and report the same of the serial buffer. -/
structure Agree (before : Byte) (e e' : Effect) : Prop where
  settled_eq : e.settled before = e'.settled before
  bufferWritten_eq : e.bufferWritten = e'.bufferWritten

variable {symbols : Symbols} {m : Memory} {addr value : Byte} {op : Operand}

theorem setByte_of_byteAddr? (e : Effect) (ha : op.byteAddr? symbols e.mem = some addr)
    (hop : op ≠ .acc) : e.setByte symbols (some op) value = e.write addr value := by
  cases op with
  | acc => exact absurd rfl hop
  | ab | dptr | immediate | bit | notBit => exact nomatch ha
  | register | indirect | direct => simp only [setByte, ha]

theorem settled_write (hp : m.psw.p = parity m.acc) :
    ((ofMemory m).write addr value).settled m.acc = m.put addr value := by
  have hsettled : ((ofMemory m).write addr value).settled m.acc =
      if (m.write addr value).acc ≠ m.acc then (m.write addr value).refreshParity
      else m.write addr value := by
    simp [settled, ofMemory, write]
  rw [hsettled, Memory.put]
  by_cases haddr : addr = Sfr.acc
  · subst haddr
    have hread : (m.write Sfr.acc value).acc = value := m.acc_setAcc value
    rw [hread, if_pos rfl]
    by_cases hv : value = m.acc
    · -- The byte was there already, so nothing is mended, and nothing has to be.
      have hsame : m.setAcc value = m := hv ▸ m.write_read Sfr.acc
      rw [if_neg (not_not_intro hv), hsame, Memory.refreshParity_of_p hp]
      exact hsame
    · rw [if_pos hv]
      rfl
  · have hread : (m.write addr value).acc = m.acc := m.read_write_of_ne value haddr
    rw [if_neg haddr, if_neg (not_not_intro hread)]

/-- **What a write to an operand comes to** does not depend on how the operand is spelled. -/
theorem settled_setByte (hp : m.psw.p = parity m.acc) (ha : op.byteAddr? symbols m = some addr) :
    ((ofMemory m).setByte symbols (some op) value).settled m.acc = m.put addr value := by
  by_cases hop : op = .acc
  · subst hop
    obtain rfl : Sfr.acc = addr := Option.some.inj ha
    rfl
  · rw [setByte_of_byteAddr? (ofMemory m) ha hop]
    exact settled_write hp

/-! ## 3. Families of instructions -/

variable {dst dst' src src' : Option Operand}

open Operand (SameByte)

theorem Agree.refl (before : Byte) (e : Effect) : e.Agree before e := ⟨rfl, rfl⟩

theorem agree_setByte (hp : m.psw.p = parity m.acc) (h : SameByte symbols m dst dst') :
    ((ofMemory m).setByte symbols dst value).Agree m.acc
      ((ofMemory m).setByte symbols dst' value) := by
  constructor
  · cases h with
    | refl => rfl
    | respelled h h' => exact (settled_setByte hp h).trans (settled_setByte hp h').symm
  · simp only [setByte_ofMemory_bufferWritten, h.isBuffer_eq]

theorem move_eq_setByte (hdptr : dst ≠ some .dptr) (hdst : ∀ b, dst ≠ some (.bit b))
    (hsrc : ∀ b, src ≠ some (.bit b)) :
    move symbols m dst src =
      (ofMemory m).setByte symbols dst (Operand.getByte symbols m src) := by
  unfold move
  split
  · exact absurd rfl hdptr
  · exact absurd rfl (hdst _)
  · exact absurd rfl (hsrc _)
  · rfl

theorem agree_move (hp : m.psw.p = parity m.acc) (hdptr : dst ≠ some .dptr)
    (hdst : ∀ b, dst ≠ some (.bit b)) (hsrc : ∀ b, src ≠ some (.bit b))
    (h : SameByte symbols m dst dst') (h' : SameByte symbols m src src') :
    (move symbols m dst src).Agree m.acc (move symbols m dst' src') := by
  rw [move_eq_setByte hdptr hdst hsrc,
    move_eq_setByte (h.ne_of_ne rfl hdptr) (fun b => h.ne_of_ne rfl (hdst b))
      (fun b => h'.ne_of_ne rfl (hsrc b)), h'.getByte_eq]
  exact agree_setByte hp h

theorem agree_count (hp : m.psw.p = parity m.acc) (h : SameByte symbols m dst dst')
    (byteStep : Byte → Byte) (wordStep : Word → Word) :
    (count symbols m dst byteStep wordStep).Agree m.acc
      (count symbols m dst' byteStep wordStep) := by
  by_cases hd : dst = some .dptr
  · subst hd
    cases h with
    | refl => exact Agree.refl _ _
    | respelled h => exact nomatch h
  · have count_eq : ∀ {x}, x ≠ some .dptr → count symbols m x byteStep wordStep =
        (ofMemory m).setByte symbols x (byteStep (Operand.getByte symbols m x)) := by
      intro x hx
      unfold count
      split
      · exact absurd rfl hx
      · rfl
    rw [count_eq hd, count_eq (h.ne_of_ne rfl hd), h.getByte_eq]
    exact agree_setByte hp h

theorem agree_logic (hp : m.psw.p = parity m.acc) (hdst : ∀ b, dst ≠ some (.bit b))
    (h : SameByte symbols m dst dst') (h' : SameByte symbols m src src')
    (onBit : Bool → Bool → Bool) (onByte : Byte → Byte → Byte) :
    (logic symbols m dst src onBit onByte).Agree m.acc
      (logic symbols m dst' src' onBit onByte) := by
  unfold logic
  rw [if_neg (hdst _), if_neg (h.ne_of_ne rfl (hdst _)), h.getByte_eq, h'.getByte_eq]
  exact agree_setByte hp h

/-- An exchange writes the accumulator last and by its name, so what it has done to parity before
is lost. -/
theorem agree_exchange (h : SameByte symbols m src src') :
    (exchange symbols m src).Agree m.acc (exchange symbols m src') := by
  cases h with
  | refl => exact Agree.refl _ _
  | @respelled addr op op' h h' =>
    have settled_eq : ∀ {x : Operand}, x.byteAddr? symbols m = some addr →
        (exchange symbols m (some x)).settled m.acc =
          ((m.write addr m.acc).setAcc (m.read addr)).refreshParity := by
      intro x hx
      unfold exchange
      rw [Operand.getByte, Operand.byteValue_of_byteAddr? hx]
      by_cases hacc : x = .acc
      · subst hacc
        obtain rfl : Sfr.acc = addr := Option.some.inj hx
        exact Memory.refreshParity_setAcc_refreshParity _ _
      · rw [setByte_of_byteAddr? (ofMemory m) hx hacc]
        rfl
    refine ⟨(settled_eq h).trans (settled_eq h').symm, ?_⟩
    show ((ofMemory m).setByte symbols (some op) m.acc).bufferWritten =
      ((ofMemory m).setByte symbols (some op') m.acc).bufferWritten
    simp only [setByte_ofMemory_bufferWritten, (SameByte.respelled h h').isBuffer_eq]

theorem agree_pop (hp : m.psw.p = parity m.acc) (h : SameByte symbols m dst dst') :
    ((ofMemory m.pop).setByte symbols dst value).Agree m.acc
      ((ofMemory m.pop).setByte symbols dst' value) := by
  have hacc : m.pop.acc = m.acc := m.read_pop_of_ne (by decide)
  have hpsw : m.pop.psw = m.psw := congrArg Psw.mk (m.read_pop_of_ne (by decide))
  rw [← hacc]
  exact agree_setByte (by rw [hpsw, hacc, hp]) h.pop

end Effect

/-! ## 4. Instructions -/

/-- Operands that differ in how the bytes among them are spelled. -/
structure Respelled (symbols : Symbols) (m : Memory) (mnemonic : Mnemonic)
    (ops ops' : List Operand) : Prop where
  byte : ∀ k < mnemonic.byteOperands, Operand.SameByte symbols m ops[k]? ops'[k]?
  other : ∀ k, mnemonic.byteOperands ≤ k → ops[k]? = ops'[k]?

variable {symbols : Symbols} {m : Memory} {mnemonic : Mnemonic} {ops ops' : List Operand}

/-- No byte instruction looks at how its bytes are spelled to find the next line. -/
theorem Respelled.exit_eq (h : Respelled symbols m mnemonic ops ops')
    (hm : 0 < mnemonic.byteOperands) :
    Flow.exit symbols m mnemonic ops = Flow.exit symbols m mnemonic ops' := by
  cases mnemonic
  case cjne =>
    simp only [Flow.exit, (h.byte 0 (by decide)).getByte_eq, (h.byte 1 (by decide)).getByte_eq,
      h.other 2 (by decide)]
  case djnz =>
    simp only [Flow.exit, (h.byte 0 (by decide)).getByte_eq, h.other 1 (by decide)]
  case mov | add | addc | subb | anl | orl | xrl | xch | inc | dec | push | pop => rfl
  all_goals exact absurd hm (Nat.lt_irrefl 0)

theorem Respelled.agree (h : Respelled symbols m mnemonic ops ops')
    (hm : 0 < mnemonic.byteOperands) (hp : m.psw.p = parity m.acc)
    (hmove : mnemonic = .mov → ops[0]? ≠ some .dptr)
    (hbit : ∀ k < mnemonic.byteOperands, ∀ b, ops[k]? ≠ some (.bit b)) (pc : Nat) :
    (Effect.of symbols m mnemonic ops pc).Agree m.acc (Effect.of symbols m mnemonic ops' pc) := by
  -- Values are read before anything is written, so in every family equal values are left to write.
  have h0 : Operand.SameByte symbols m ops[0]? ops'[0]? := h.byte 0 hm
  have hbit0 : ∀ b, ops[0]? ≠ some (.bit b) := hbit 0 hm
  cases mnemonic <;> simp only [Effect.of]
  case mov =>
    exact Effect.agree_move hp (hmove rfl) hbit0 (hbit 1 (by decide)) h0 (h.byte 1 (by decide))
  case anl | orl | xrl => exact Effect.agree_logic hp hbit0 h0 (h.byte 1 (by decide)) _ _
  case xch => exact Effect.agree_exchange (h.byte 1 (by decide))
  case inc | dec => exact Effect.agree_count hp h0 _ _
  case pop => exact Effect.agree_pop hp h0
  case djnz =>
    rw [h0.getByte_eq]
    exact Effect.agree_setByte hp h0
  case add | addc | subb =>
    rw [(h.byte 1 (by decide)).getByte_eq]
    exact Effect.Agree.refl _ _
  case cjne =>
    rw [h0.getByte_eq, (h.byte 1 (by decide)).getByte_eq]
    exact Effect.Agree.refl _ _
  case push =>
    rw [h0.getByte_eq]
    exact Effect.Agree.refl _ _
  all_goals exact absurd hm (Nat.lt_irrefl 0)

theorem Respelled.set {i : Nat} {op op' : Operand} (hi : i < mnemonic.byteOperands)
    (hop : ops[i]? = some op) (h : Operand.SameByte symbols m (some op) (some op')) :
    Respelled symbols m mnemonic ops (ops.set i op') where
  byte := by
    intro k _
    by_cases hk : i = k
    · subst hk
      have hlt : i < ops.length := (List.getElem?_eq_some_iff.mp hop).1
      rw [hop, List.getElem?_set_self hlt]
      exact h
    · rw [List.getElem?_set_ne hk]
      exact .refl _
  other := by
    intro k hk
    rw [List.getElem?_set_ne (by omega)]

namespace Machine

theorem followAcc_eq (before : Byte) (m : Machine) (e : Effect) :
    followAcc before ⟨{ m with mem := e.mem }, e.parityDone, e.bufferWritten⟩ =
      { m with mem := e.settled before } := by
  unfold followAcc Effect.settled
  split <;> rfl

/-- An instruction with parity seen to is the two halves of it side by side. -/
theorem execute_map_followAcc (m : Machine) (symbols : Symbols) (mnemonic : Mnemonic)
    (ops : List Operand) :
    (m.execute symbols mnemonic ops).map
        (fun done => (followAcc m.mem.acc done, done.bufferWritten)) =
      (Flow.next symbols m.mem mnemonic ops m.pc).map fun next =>
        ({ m with
            mem := (Effect.of symbols m.mem mnemonic ops m.pc).settled m.mem.acc
            pc := next
            inInterrupt := m.inInterrupt && mnemonic ≠ .reti },
          (Effect.of symbols m.mem mnemonic ops m.pc).bufferWritten) := by
  simp only [execute, bind, Except.bind, pure, Except.pure]
  cases Flow.next symbols m.mem mnemonic ops m.pc with
  | error e => rfl
  | ok next =>
    have hfollow := followAcc_eq m.mem.acc
      { m with pc := next, inInterrupt := m.inInterrupt && mnemonic ≠ .reti }
      (Effect.of symbols m.mem mnemonic ops m.pc)
    exact congrArg (fun machine => Except.ok (machine, _)) hfollow

/-- **An instruction on bytes cannot tell how a byte is spelled.** A byte operand given under
    another name of the same byte leads to the same machine, or the same error, once parity has been
    seen to, and to the same report of the serial buffer. -/
theorem execute_eq_of_respelled {m : Machine} {symbols : Symbols} {mnemonic : Mnemonic}
    {ops : List Operand} {i : Nat} {op op' : Operand} {addr : Byte}
    (hp : m.mem.psw.p = parity m.mem.acc)
    (hmove : mnemonic = .mov → ops[0]? ≠ some .dptr)
    (hbit : ∀ k < mnemonic.byteOperands, ∀ b, ops[k]? ≠ some (.bit b))
    (hi : i < mnemonic.byteOperands) (hop : ops[i]? = some op)
    (h : op.Names symbols m.mem addr) (h' : op'.Names symbols m.mem addr) :
    (m.execute symbols mnemonic (ops.set i op')).map
        (fun done => (followAcc m.mem.acc done, done.bufferWritten)) =
      (m.execute symbols mnemonic ops).map
        (fun done => (followAcc m.mem.acc done, done.bufferWritten)) := by
  have hm : 0 < mnemonic.byteOperands := Nat.zero_lt_of_lt hi
  have hr : Respelled symbols m.mem mnemonic ops (ops.set i op') :=
    .set hi hop (.respelled h.byteAddr?_eq h'.byteAddr?_eq)
  obtain ⟨hmem, hbuf⟩ := hr.agree hm hp hmove hbit m.pc
  have hnext : Flow.next symbols m.mem mnemonic (ops.set i op') m.pc =
      Flow.next symbols m.mem mnemonic ops m.pc := by
    rw [Flow.next, Flow.next, hr.exit_eq hm]
  rw [execute_map_followAcc, execute_map_followAcc, hnext, hmem, hbuf]

/-- `R0` points at the accumulator, which holds an even number of ones. -/
def pointing : Machine :=
  { Machine.initial (.known 0) 0 with mem := (Memory.initial (.known 0)).write 0x00 Sfr.acc }

/-- Counting up through the pointer changes the parity of the accumulator, and only the step that
    sees to it afterwards brings the flag up to date. -/
theorem pointing_inc_indirect_eq_inc_acc :
    pointing.mem.psw.p = parity pointing.mem.acc ∧
      (pointing.execute ∅ .inc [.indirect 0]).map
          (fun done => (followAcc pointing.mem.acc done, done.bufferWritten)) =
        (pointing.execute ∅ .inc [.acc]).map
          (fun done => (followAcc pointing.mem.acc done, done.bufferWritten)) ∧
      (pointing.execute ∅ .inc [.indirect 0]).toOption.map
          (fun done => (done.machine.mem.psw.p, (followAcc pointing.mem.acc done).mem.psw.p)) =
        some (false, true) := by
  have hp : pointing.mem.psw.p = parity pointing.mem.acc := by decide +kernel
  have hpointer : pointing.mem.register 0 = Sfr.acc := by decide +kernel
  have hbit : ∀ k < Mnemonic.inc.byteOperands, ∀ b, [Operand.acc][k]? ≠ some (.bit b) := by
    intro k hk b
    obtain rfl : k = 0 := Nat.lt_one_iff.mp hk
    exact nofun
  have hnames : (Operand.indirect 0).Names ∅ pointing.mem Sfr.acc := hpointer ▸ .indirect 0
  have hmove : Mnemonic.inc = .mov → [Operand.acc][0]? ≠ some .dptr := fun h => nomatch h
  have hi : 0 < Mnemonic.inc.byteOperands := by decide
  have heq := execute_eq_of_respelled hp hmove hbit hi rfl .acc hnames
  exact ⟨hp, heq, by decide +kernel⟩

end Machine
end Mcs51
