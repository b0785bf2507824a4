import Mcs51.Proofs.FlagTable
import Mcs51.Proofs.WellFormedLine

/-!
# Complemented bits

Logic on the carry flag takes a bit as it is or, behind a mark, its complement. The two are found at
different times. What the mark makes of an operand is settled when the line is read, while a plain
number is looked up when the instruction is executed, beside the symbols. So the law that `/x` is
the complement of `x` is about two paths, and they meet where `x` names a bit by the way it is
written: by the name of a bit, as a bit of a byte, or by a number in range that no symbol shadows
(`Operand.BitText`).

A symbol is no such text. It has no value when the line is read, and an expression with its mark is
kept as it is. Nothing has that name, so it stands for bit zero, and that is not complemented.
-/

namespace Mcs51

/-! ## 1. What a text stands for -/

namespace Symbols

variable {symbols : Symbols} {n : Int}

theorem bareText_of_head {e : String} (h : (Text.trim e.toList).head? ≠ some '#') :
    bareText e = Text.trim e.toList := by
  unfold bareText
  split
  · next rest htrim =>
    rw [htrim] at h
    exact absurd rfl h
  · rfl

/-- A literal stands for its value, unless there is a symbol with its text. -/
theorem resolve_of_literal {e : String} (h : Literal.parse e = .ok n)
    (hfree : symbols.get? (String.ofList (Text.trim e.toList)) = none) : symbols.resolve e = n := by
  have hread : Literal.readTrimmed (Text.trim e.toList) = .ok n := h
  have hbare := bareText_of_head (Literal.head_ne_stray_of_readTrimmed (by decide) hread)
  unfold resolve value?
  dsimp only
  rw [hbare, hfree, Literal.read, Text.trim_trim, hread]
  rfl

/-- Every name of a table is a word, as it is where a source defines the names
(`Program.ofSource_holdsWords`). -/
def HoldsWords (symbols : Symbols) : Prop :=
  ∀ name, (symbols.get? name).isSome = true → Token.IsWord name

/-- A text with a mark in it that neither a word nor a number has stands for nothing. -/
theorem resolve_of_stray {e : String} {c d : Char} (h : symbols.HoldsWords)
    (hfirst : (Text.trim e.toList).head? = some c) (hc : c ∉ ['#', '\''])
    (hd : d ∈ Literal.strays) (hmem : d ∈ Text.trim e.toList) : symbols.resolve e = 0 := by
  have hmark : (Text.trim e.toList).head? ≠ some '#' := by
    rw [hfirst]
    rintro ⟨rfl⟩
    exact hc List.mem_cons_self
  have hfree : symbols.get? (String.ofList (Text.trim e.toList)) = none := by
    rw [Option.eq_none_iff_forall_ne_some]
    intro value hvalue
    obtain ⟨_, tail, hname, hstarts, hinside⟩ := h _ (Option.isSome_iff_exists.mpr ⟨value, hvalue⟩)
    rw [String.toList_ofList] at hname
    rw [hname] at hmem
    have hword : Token.inIdent d = true := by
      rcases List.mem_cons.mp hmem with rfl | htail
      · exact Token.inIdent_of_startsIdent hstarts
      · exact List.all_eq_true.mp hinside d htail
    exact absurd hword (Bool.eq_false_iff.mp (Literal.not_inIdent_of_stray hd))
  unfold resolve value?
  dsimp only
  rw [bareText_of_head hmark, hfree, Literal.read, Text.trim_trim]
  cases hread : Literal.readTrimmed (Text.trim e.toList) with
  | error _ => rfl
  | ok n =>
    rw [Literal.eq_of_stray_mem hd hread hmem] at hfirst
    obtain rfl := Option.some.inj hfirst
    exact absurd (.tail _ List.mem_cons_self) hc

/-- A text behind the mark of a complement has no value of its own. -/
theorem resolve_slash (h : symbols.HoldsWords) (rest : List Char) :
    symbols.resolve (String.ofList ('/' :: rest)) = 0 := by
  obtain ⟨kept, htrim⟩ := Text.exists_trim_cons (by decide : Text.isBlank '/' = false) rest
  refine resolve_of_stray (c := '/') (d := '/') h ?_ (by decide) (by decide) ?_
  · rw [String.toList_ofList, htrim]
    rfl
  · rw [String.toList_ofList, htrim]
    exact List.mem_cons_self

end Symbols

theorem Line.isWord_label {text : List Char} {number : Nat} {line : Line} {name : String}
    (h : Line.parse text number = .ok (some line)) (hlabel : line.label = some name) :
    Token.IsWord name := by
  obtain ⟨hne, hline⟩ := Line.parse_eq_some_iff.mp h
  have hlex := Line.lex_ne_nil hne (Text.startsSolid_trim _)
  exact (Line.ofLexemes_isWellFormed hlex hline).label name hlabel

/-- A source defines no names other than words. -/
theorem Program.ofSource_holdsWords {source : String} {p : Program}
    (h : Program.ofSource source = .ok p) : p.symbols.HoldsWords := by
  obtain ⟨lines, hlines, rfl⟩ := map_ok_iff.mp h
  intro name hname
  obtain ⟨i, line, hline, hlabel⟩ := (Layout.isSome_get?_ofLines lines name).mp hname
  obtain ⟨_, hparse⟩ := Line.exists_parse_of_parseAll hlines hline
  exact Line.isWord_label hparse hlabel

namespace Operand

open Token (Lexes IsGaps)
open Text (StartsSolid)

variable {symbols : Symbols} {x gap : List Char} {ts : List Token} {w : String}

/-! ## 2. Reading a complement -/

theorem ofLexemes_lex (h : Lexes none x (ts.map some)) :
    ofLexemes (Token.lex x) x = ofTokens ts x := by
  rw [ofLexemes_eq, h.map_token_lex, readTokens_map_some]

/-- Behind the mark and any gap, a text is read as by itself and then complemented. -/
theorem ofLexemes_lex_slash (h : Lexes none x (ts.map some)) (hfirst : StartsSolid x)
    (hgap : IsGaps gap) :
    ofLexemes (Token.lex ('/' :: (gap ++ x))) ('/' :: (gap ++ x)) =
      (ofTokens ts x).map (complement ('/' :: (gap ++ x))) := by
  have hmarked : Lexes none ('/' :: (gap ++ x)) ((Token.slash :: ts).map some) :=
    (h.gaps hgap).mark rfl
  have hblanks : ∀ c ∈ gap, Text.isBlank c = true := fun c hc => Token.isBlank_of_isGap (hgap c hc)
  have hrest : Text.trimStart (gap ++ x) = x := by
    rw [Text.trimStart, List.dropWhile_append_of_pos hblanks]
    exact Text.trimStart_eq_self hfirst
  rw [ofLexemes_lex hmarked, ofTokens_slash, hrest]

/-! ## 3. Texts that name a bit -/

/-- The ways to name a bit so that it can be told from the text alone. -/
inductive BitText (symbols : Symbols) (x : List Char) : List Token → Prop
  | named {w : String} {addr : Byte} (h : Sfr.bitAddress? w = some addr) :
    BitText symbols x [.ident w]
  | field (name digits : String) : BitText symbols x [.ident name, .dot, .numeric digits]
  | numberedField (number digits : String) :
    BitText symbols x [.numeric number, .dot, .numeric digits]
  /-- A number of a bit, however it is written. -/
  | number {ts : List Token} {e : String} {n : Int}
      (hreads : ofTokens ts x = .ok (.direct (.expr e)))
    (hvalue : Literal.parse e = .ok n) (hrange : 0 ≤ n ∧ n ≤ 255)
    (hfree : symbols.get? (String.ofList (Text.trim e.toList)) = none) : BitText symbols x ts

/-- A bit that has a name is read by it, in any letter case. -/
theorem ofWord_of_bitAddress? {addr : Byte} (h : Sfr.bitAddress? w = some addr) :
    ofWord w = .bit (.named addr) := by
  have hmem := Sfr.find?_name_eq_some h
  have hword := ofWord_of_mem_bitNames _ hmem
  have hreserved : Text.upperString w ∈ reservedWords :=
    mem_reservedWords.mpr (.inr (.inr (.inl (List.mem_map_of_mem hmem))))
  rw [← hword]
  exact ofWord_eq_of_reserved (upperString_of_mem_reservedWords _ hreserved).symm
    (by rwa [upperString_of_mem_reservedWords _ hreserved])

/-- **Both paths lead to one place.** A text that names a bit is read as an operand whose complement
is that of a bit, and the two have the same place. -/
theorem BitText.exists_notBit (h : BitText symbols x ts) :
    ∃ plain b, ofTokens ts x = .ok plain ∧ (∀ text, complement text plain = .notBit b) ∧
      plain.bitPlace? symbols = b.place? symbols := by
  cases h with
  | @named w addr h =>
    refine ⟨.bit (.named addr), _, ?_, fun _ => rfl, rfl⟩
    exact congrArg Except.ok (ofWord_of_bitAddress? h)
  | field name digits => exact ⟨_, _, rfl, fun _ => rfl, rfl⟩
  | numberedField number digits => exact ⟨_, _, rfl, fun _ => rfl, rfl⟩
  | @number ts e n hreads hvalue hrange hfree =>
    refine ⟨_, .named (BitVec.ofInt 8 n), hreads, ?_, ?_⟩
    · intro text
      simp only [complement, hvalue]
    · rw [bitPlace?, ByteRef.addr?, Symbols.resolve_of_literal hvalue hfree]
      exact congrArg _ (if_pos hrange)

end Operand

/-! ## 4. Logic on the carry flag -/

/-- The operand that the carry flag is. -/
abbrev Operand.carry : Operand := .bit (.named Sfr.carryBit)

namespace Effect

variable (symbols : Symbols) (m : Memory)

theorem logic_carry_direct (d : ByteRef) (onBit : Bool → Bool → Bool)
    (onByte : Byte → Byte → Byte) :
    logic symbols m (some .carry) (some (.direct d)) onBit onByte =
      ofMemory (m.setCarry (onBit m.carry (((Operand.direct d).bitPlace? symbols).any m.bit))) := by
  rw [← Operand.getBit_some]
  exact if_pos rfl

theorem logic_carry_notBit (b : BitRef) (onBit : Bool → Bool → Bool)
    (onByte : Byte → Byte → Byte) :
    logic symbols m (some .carry) (some (.notBit b)) onBit onByte =
      ofMemory (m.setCarry (onBit m.carry (!(b.place? symbols).any m.bit))) := by
  have hbit : Operand.getBit symbols m (some (.notBit b)) = (b.place? symbols).any m.bit :=
    Operand.getBit_some symbols m (.notBit b)
  rw [← hbit]
  exact if_pos rfl

end Effect

namespace Machine

open Operand (ofLexemes BitText)
open Token (Lexes IsGaps)

variable {m : Machine} {symbols : Symbols} {mnemonic : Mnemonic} {ops : List Operand}

/-- An instruction gives the carry flag a value and goes on to the following line, and changes
nothing else. -/
def LoadsCarry (m : Machine) (symbols : Symbols) (mnemonic : Mnemonic) (ops : List Operand)
    (on : Bool) : Prop :=
  ∃ written, m.execute symbols mnemonic ops =
      .ok ⟨{ m with mem := written, pc := m.pc + 1 }, false, false⟩ ∧
    ∀ place, written.bit place =
      if place = BitPlace.ofBitAddr Sfr.carryBit then on else m.mem.bit place

theorem LoadsCarry.unique {on on' : Bool} (h : m.LoadsCarry symbols mnemonic ops on)
    (h' : m.LoadsCarry symbols mnemonic ops on') : on = on' := by
  obtain ⟨written, hdone, hbits⟩ := h
  obtain ⟨written', hdone', hbits'⟩ := h'
  obtain rfl : written = written' := by
    have hsame := Except.ok.inj (hdone.symm.trans hdone')
    exact congrArg (fun done => done.machine.mem) hsame
  have hon := hbits (BitPlace.ofBitAddr Sfr.carryBit)
  rw [hbits', if_pos rfl, if_pos rfl] at hon
  exact hon.symm

theorem loadsCarry_mov (m : Machine) (symbols : Symbols) (src : Operand) :
    m.LoadsCarry symbols .mov [.carry, src] ((src.bitPlace? symbols).any m.mem.bit) := by
  refine ⟨_, m.execute_following symbols .mov [.carry, src] rfl rfl nofun, fun place => ?_⟩
  rw [← Operand.getBit_some]
  exact m.mem.bit_setBit (BitPlace.ofBitAddr Sfr.carryBit) place _

theorem loadsCarry_of_setCarry {on : Bool}
    (hexit : Flow.exit symbols m.mem mnemonic ops = .following) (hreti : mnemonic ≠ .reti)
    (heffect : Effect.of symbols m.mem mnemonic ops m.pc = .ofMemory (m.mem.setCarry on)) :
    m.LoadsCarry symbols mnemonic ops on :=
  ⟨_, m.execute_following symbols mnemonic ops hexit heffect hreti,
    m.mem.bit_setFlag Psw.cyMask_eq on⟩

/-- Logic with the complement of a bit. -/
theorem loadsCarry_notBit (m : Machine) (symbols : Symbols) (b : BitRef) :
    m.LoadsCarry symbols .anl [.carry, .notBit b]
        (m.mem.carry && !(b.place? symbols).any m.mem.bit) ∧
      m.LoadsCarry symbols .orl [.carry, .notBit b]
        (m.mem.carry || !(b.place? symbols).any m.mem.bit) :=
  ⟨loadsCarry_of_setCarry rfl (by decide) (Effect.logic_carry_notBit symbols m.mem b and _),
    loadsCarry_of_setCarry rfl (by decide) (Effect.logic_carry_notBit symbols m.mem b or _)⟩

/-- Logic with an expression that stands for zero takes the first bit that has an address. -/
theorem loadsCarry_of_resolve_eq_zero (m : Machine) {e : String} (h : symbols.resolve e = 0) :
    m.LoadsCarry symbols .anl [.carry, .direct (.expr e)] (m.mem.carry && m.mem.bit ⟨0x20, 0⟩) ∧
      m.LoadsCarry symbols .orl [.carry, .direct (.expr e)]
        (m.mem.carry || m.mem.bit ⟨0x20, 0⟩) := by
  have hplace : (Operand.direct (.expr e)).bitPlace? symbols = some ⟨0x20, 0⟩ := by
    rw [Operand.bitPlace?, ByteRef.addr?, h]
    rfl
  have hbit : ((Operand.direct (.expr e)).bitPlace? symbols).any m.mem.bit =
      m.mem.bit ⟨0x20, 0⟩ := by
    rw [hplace]
    rfl
  rw [← hbit]
  exact ⟨loadsCarry_of_setCarry rfl (by decide) (Effect.logic_carry_direct symbols m.mem _ and _),
    loadsCarry_of_setCarry rfl (by decide) (Effect.logic_carry_direct symbols m.mem _ or _)⟩

/-- **A complement is that of the plain bit**, where the text names the bit: if `MOV` from `x` loads
    a bit then logic with `/x` takes its complement, and nothing but the carry flag changes. Of a
    symbol there is no complement. The text is kept with its mark, it stands for zero, and logic
    takes the first bit of the byte at `20H` as it is. -/
theorem complemented_bits (m : Machine) (symbols : Symbols) {x gap : List Char} {ts : List Token}
    (hx : Lexes none x (ts.map some)) (hfirst : Text.StartsSolid x) (hgap : IsGaps gap) :
    let marked := '/' :: (gap ++ x)
    (BitText symbols x ts → ∃ plain complemented loaded,
      ofLexemes (Token.lex x) x = .ok plain ∧
      ofLexemes (Token.lex marked) marked = .ok complemented ∧
      m.LoadsCarry symbols .mov [.carry, plain] loaded ∧
      m.LoadsCarry symbols .anl [.carry, complemented] (m.mem.carry && !loaded) ∧
      m.LoadsCarry symbols .orl [.carry, complemented] (m.mem.carry || !loaded)) ∧
    ∀ w, ts = [.ident w] → Text.upperString w ∉ Operand.reservedWords →
      (∃ e, Literal.parse w = .error e) → symbols.HoldsWords →
      ofLexemes (Token.lex marked) marked = .ok (.direct (.expr (String.ofList marked))) ∧
      m.LoadsCarry symbols .anl [.carry, .direct (.expr (String.ofList marked))]
        (m.mem.carry && m.mem.bit ⟨0x20, 0⟩) ∧
      m.LoadsCarry symbols .orl [.carry, .direct (.expr (String.ofList marked))]
        (m.mem.carry || m.mem.bit ⟨0x20, 0⟩) := by
  intro marked
  have hplain := Operand.ofLexemes_lex hx
  have hmarked := Operand.ofLexemes_lex_slash hx hfirst hgap
  constructor
  · intro hbit
    obtain ⟨plain, b, hreads, hcomplement, hplace⟩ := hbit.exists_notBit
    rw [hreads] at hplain hmarked
    have hloads := loadsCarry_mov m symbols plain
    rw [hplace] at hloads
    refine ⟨plain, .notBit b, _, hplain, ?_, hloads, loadsCarry_notBit m symbols b⟩
    exact hmarked.trans (congrArg Except.ok (hcomplement _))
  · rintro w rfl hreserved ⟨_, hparse⟩ hwords
    refine ⟨hmarked.trans ?_, loadsCarry_of_resolve_eq_zero m (Symbols.resolve_slash hwords _)⟩
    have hword : Operand.ofTokens [.ident w] x = .ok (.direct (.expr w)) :=
      congrArg Except.ok (Operand.ofWord_of_not_mem hreserved)
    rw [hword]
    refine congrArg Except.ok ?_
    simp only [Operand.complement, hparse, marked]

/-- The carry flag is set, and no other bit is. -/
def carrying : Machine := ⟨Memory.zero.setCarry true, 0, 0, .idle, false⟩

theorem bit_carrying (place : BitPlace) :
    carrying.mem.bit place = decide (place = ⟨Sfr.psw, 7⟩) := by
  have hzero : Memory.zero.bit place = false := by simp [Memory.bit_eq_getLsbD]
  have hbit := Memory.zero.bit_setFlag Psw.cyMask_eq true place
  rw [hzero] at hbit
  exact hbit.trans (by simp)

theorem carry_carrying : carrying.mem.carry = true := Memory.zero.cy_setCarry true

/-- A source that gives the last bit of the byte at `20H` a name defines this table. -/
def flags : Symbols := (∅ : Symbols).insert "FLAG" (.const 7)

/-- The bit that the name stands for is clear, so its complement is set and would leave the carry
flag as it is. Logic takes another bit, which is clear as well, and clears the flag. -/
theorem flag_is_not_complemented :
    (Program.ofSource "FLAG EQU 7\n").toOption.map Program.symbols = some flags ∧
    ofLexemes (Token.lex "FLAG".toList) "FLAG".toList = .ok (.direct (.expr "FLAG")) ∧
    ofLexemes (Token.lex "/FLAG".toList) "/FLAG".toList = .ok (.direct (.expr "/FLAG")) ∧
    carrying.LoadsCarry flags .mov [.carry, .direct (.expr "FLAG")] false ∧
    ¬ carrying.LoadsCarry flags .anl [.carry, .direct (.expr "/FLAG")]
      (carrying.mem.carry && !false) := by
  have hload := loadsCarry_mov carrying flags (.direct (.expr "FLAG"))
  have hplace : (Operand.direct (.expr "FLAG")).bitPlace? flags = some ⟨0x20, 7⟩ := by decide
  rw [hplace, Option.any_some, bit_carrying] at hload
  have hzero : flags.resolve "/FLAG" = 0 := by decide
  obtain ⟨hanl, -⟩ := loadsCarry_of_resolve_eq_zero carrying hzero
  rw [bit_carrying, carry_carrying] at hanl
  refine ⟨by decide +kernel, by decide +kernel, by decide +kernel, hload, ?_⟩
  rw [carry_carrying]
  intro hcomplement
  exact nomatch hanl.unique hcomplement

/-- Behind a mark and a gap the number of the bit stands for its complement, and its name does not.
-/
theorem number_is_complemented :
    (∃ complemented, ofLexemes (Token.lex "/ 7".toList) "/ 7".toList = .ok complemented ∧
      carrying.LoadsCarry flags .anl [.carry, complemented] true) ∧
    ∃ kept, ofLexemes (Token.lex "/FLAG".toList) "/FLAG".toList = .ok kept ∧
      carrying.LoadsCarry flags .anl [.carry, kept] false := by
  constructor
  · have hnumber : Token.IsNumber "7" := ⟨'7', [], rfl, rfl, rfl⟩
    have hx : Lexes none ['7'] ([Token.numeric "7"].map some) := hnumber.lexes Token.stops_none
    have hgap : IsGaps [' '] := by
      rintro _ (_ | ⟨_, ⟨⟩⟩)
      rfl
    have htext : BitText flags ['7'] [.numeric "7"] :=
      .number rfl (by decide : Literal.parse "7" = .ok 7) (by decide) (by decide)
    obtain ⟨hbit, -⟩ := complemented_bits carrying flags hx (by rintro _ ⟨rfl⟩; rfl) hgap
    obtain ⟨plain, complemented, loaded, hplain, hcomplemented, hmov, hanl, -⟩ := hbit htext
    refine ⟨complemented, hcomplemented, ?_⟩
    obtain rfl : .direct (.expr "7") = plain := by
      exact Except.ok.inj ((Operand.ofLexemes_lex hx).symm.trans hplain)
    have hplace : (Operand.direct (.expr "7")).bitPlace? flags = some ⟨0x20, 7⟩ := by decide
    have hload := loadsCarry_mov carrying flags (.direct (.expr "7"))
    rw [hplace, Option.any_some, bit_carrying] at hload
    rw [hmov.unique hload, carry_carrying] at hanl
    exact hanl
  · have hword : Token.IsWord "FLAG" := ⟨'F', ['L', 'A', 'G'], rfl, rfl, rfl⟩
    have hx : Lexes none ['F', 'L', 'A', 'G'] ([Token.ident "FLAG"].map some) :=
      hword.lexes Token.stops_none
    have hwords : flags.HoldsWords := by
      intro name hname
      rw [flags, Table.get?_insert] at hname
      split at hname
      · next heq => exact heq ▸ hword
      · cases hname
    obtain ⟨-, hsymbol⟩ := complemented_bits carrying flags hx (by rintro _ ⟨rfl⟩; rfl)
      (List.forall_mem_nil _ : IsGaps [])
    obtain ⟨hkept, hanl, -⟩ := hsymbol "FLAG" rfl (by decide) ⟨.invalidDec, by decide⟩ hwords
    rw [bit_carrying, carry_carrying] at hanl
    exact ⟨_, hkept, hanl⟩

end Machine
end Mcs51
