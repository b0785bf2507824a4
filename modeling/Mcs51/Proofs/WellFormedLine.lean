import Mcs51.Proofs.Frame
import Mcs51.Proofs.Spans

/-!
# Lines that are well formed

What executes a line asks it for its operands and checks none of them. The line as it was read
answers for that: its operands are registers that there are, bytes and bits that have names, and
expressions, and an expression that is a single word is not the name of anything
(`Operand.IsWellFormed`, `Line.IsWellFormed`). So a word that a program means as a register never
becomes a symbol that counts as zero, and a symbol is never mistaken for a register.

Expressions are the only kind with a part to prove. Most keep the text that they were read from, and
a text that is a single word is made of just that token (`Lexes.eq_of_isWord`), so it would have
been classified as a word; a complement and a text with characters that make no token are made of
more. The word that is left has been asked for in every table (`not_mem_of_ofWord_eq_expr`).
-/

namespace Mcs51

open Token (IsWord)

/-! ## 1. Operands and lines -/

/-- A byte by its name, or by an expression that is not a name for one. -/
def ByteRef.IsWellFormed : ByteRef → Prop
  | .sfr addr => ∃ name, Sfr.name? addr = some name
  | .expr text => IsWord text → Sfr.address? text = none

/-- The place in a byte is one of eight, and the byte is written as one. A word that is no byte,
such as `A`, can still stand for it. -/
def BitRef.IsWellFormed : BitRef → Prop
  | .named addr => ∃ name, Sfr.bitName? addr = some name
  | .field base place => base.IsWellFormed ∧ place.val ≤ 7

/-- What execution relies on. The complement of a bit can be that of any number. -/
def Operand.IsWellFormed : Operand → Prop
  | .register r => r.val ≤ 7
  | .indirect r => r.val ≤ 1
  | .bit b => b.IsWellFormed
  | .notBit (.field base place) => (BitRef.field base place).IsWellFormed
  | .direct (.sfr addr) => ∃ name, Sfr.name? addr = some name
  | .direct (.expr text) => IsWord text → Text.upperString text ∉ reservedWords
  | .acc | .ab | .dptr | .immediate _ | .notBit (.named _) => True

structure Line.IsWellFormed (line : Line) : Prop where
  opens : line.label.isSome ∨ line.mnemonic.isSome
  label : ∀ name, line.label = some name → IsWord name
  bare : line.mnemonic = none → line.operands = []
  other : ∀ name, line.mnemonic = some (.other name) →
    Text.upperString name = name ∧ ∀ m : Mnemonic, m.isKnown = true → m.render ≠ name
  operands : ∀ op ∈ line.operands, op.IsWellFormed

/-! ## 2. Words -/

namespace Token

variable {next : Option Char} {text : List Char} {tokens : List (Option Token)}

/-- A text that is a single word is made of that token and no other. -/
theorem Lexes.eq_of_isWord (h : Lexes next text tokens) (hword : IsWord (String.ofList text)) :
    tokens = [some (.ident (String.ofList text))] := by
  obtain ⟨c, rest, htext, hc, hrest⟩ := hword
  rw [String.toList_ofList] at htext
  subst htext
  have hin : ∀ d ∈ rest, inIdent d = true := List.all_eq_true.mp hrest
  generalize hall : c :: rest = all at h ⊢
  cases h with
  | nil => exact nomatch hall
  | gap gap =>
    obtain ⟨rfl, -⟩ := List.cons.inj hall
    exact absurd gap (Bool.eq_false_iff.mp (not_isGap_of_startsIdent hc))
  | @token _ tail more t tokens solid scanned others =>
    obtain ⟨rfl, rfl⟩ := List.cons.inj hall
    have hnumeric := not_startsNumeric_of_startsIdent hc
    have hquote : isQuote c = false := by
      rw [Bool.eq_false_iff]
      exact fun hq => Bool.eq_false_iff.mp (not_starts_of_isQuote hq).2 hc
    cases scanned with
    | numeric starts => exact nomatch hnumeric.symm.trans starts
    | quoted opens | unclosed opens => exact nomatch hquote.symm.trans opens
    | mark _ ident => exact nomatch ident.symm.trans hc
    | ident starts inside stops =>
      -- The word goes on as long as it can, and all of the text can be in it.
      cases more with
      | cons d more =>
        exact nomatch (stops d rfl).symm.trans (hin d (by simp))
      | nil =>
        cases others
        rw [List.append_nil]

end Token

namespace Operand

open Token (Lexes IsNumber)

variable {next : Option Char} {text : List Char} {tokens : List (Option Token)} {ts : List Token}
  {op : Operand} {name : String}

theorem directOf_isWellFormed (name : String) : (directOf name).IsWellFormed := by
  unfold directOf
  cases hbyte : Sfr.address? name with
  | some addr => exact ⟨_, Sfr.name?_of_mem _ (Sfr.find?_name_eq_some hbyte)⟩
  | none => exact fun _ => hbyte

theorem ofWord_isWellFormed (name : String) : (ofWord name).IsWellFormed := by
  unfold ofWord
  cases hregister : Register.ofName? name with
  | some r => exact Nat.le_of_lt_succ r.isLt
  | none =>
    dsimp only
    split
    · trivial
    next hA =>
    split
    · trivial
    next hAB =>
    split
    · trivial
    next hDPTR =>
    cases hbit : Sfr.bitAddress? name with
    | some addr => exact ⟨_, Sfr.bitName?_of_mem _ (Sfr.find?_name_eq_some hbit)⟩
    | none =>
      unfold directOf
      cases hbyte : Sfr.address? name with
      | some addr => exact ⟨_, Sfr.name?_of_mem _ (Sfr.find?_name_eq_some hbyte)⟩
      | none =>
        have hother : Text.upperString name ∉ ["A", "AB", "DPTR"] := by simp [hA, hAB, hDPTR]
        exact fun _ => not_mem_reservedWords hregister hother hbit hbyte

/-! ## 3. Reading -/

/-- A text is kept as an expression where it is made of anything else than one word. -/
theorem kept_isWellFormed (h : Lexes next text tokens)
    (hother : ∀ name, tokens ≠ [some (.ident name)]) :
    (Operand.direct (.expr (String.ofList text))).IsWellFormed :=
  fun hword => absurd (h.eq_of_isWord hword) (hother _)

theorem not_isWord_of_isNumber (h : IsNumber name) : ¬ IsWord name := by
  rintro ⟨c, rest, hname, hc, -⟩
  obtain ⟨d, rest', hname', hd, -⟩ := h
  obtain ⟨rfl, -⟩ := List.cons.inj (hname.symm.trans hname')
  exact nomatch (Token.not_startsNumeric_of_startsIdent hc).symm.trans hd

theorem fieldOf_isWellFormed {base : ByteRef} (h : base.IsWellFormed) (digits : String) :
    (fieldOf base digits).IsWellFormed :=
  ⟨h, Nat.le_of_lt_succ (bitIndex digits).isLt⟩

theorem complement_isWellFormed {inner : Operand} (hinner : inner.IsWellFormed)
    (hkept : (Operand.direct (.expr (String.ofList text))).IsWellFormed) :
    (complement text inner).IsWellFormed := by
  rcases complement_cases text inner with ⟨b, rfl, hop⟩ | ⟨e, n, rfl, -, hop⟩ | hop
  · rw [hop]
    cases b with
    | named addr => trivial
    | field base bit => exact hinner
  · rw [hop]
    trivial
  · rw [hop]
    exact hkept

theorem ofTokens_isWellFormed (hlexes : Lexes next text (ts.map some))
    (hfirst : ∀ c, text.head? = some c → Token.isGap c = false)
    (h : ofTokens ts text = .ok op) : op.IsWellFormed := by
  induction ts generalizing text op with
  | nil =>
    obtain rfl := Except.ok.inj h
    exact kept_isWellFormed hlexes nofun
  | cons t ts ih =>
    unfold ofTokens at h
    split at h
    · obtain ⟨_, _, h⟩ := bind_ok_iff.mp h
      obtain rfl := Except.ok.inj h
      trivial
    · split at h
      · next r hr =>
        obtain rfl := Except.ok.inj h
        exact Nat.le_of_lt_succ (lt_two_of_pointer? hr)
      · cases h
    · cases h
    · next hslash =>
      obtain ⟨rfl, rfl⟩ := List.cons.inj hslash
      have hmark : Token.ofMark? '/' = some .slash := rfl
      obtain ⟨rest, rfl, hrest⟩ := hlexes.exists_of_mark hmark rfl (hlexes.exists_first hfirst)
      obtain ⟨cut, hcut, h⟩ := bind_ok_iff.mp h
      obtain ⟨inner, hinner, h⟩ := bind_ok_iff.mp h
      obtain rfl := Except.ok.inj h
      rw [Token.dropBytes?_mark hmark] at hcut
      obtain rfl : rest = cut := Except.ok.inj hcut
      have hsolid := Text.startsSolid_trimStart rest
      have hwell := ih hrest.trimStart_of_tokens
        (fun c hc => isGap_eq_false_of_not_isBlank (hsolid c hc)) hinner
      exact complement_isWellFormed hwell (kept_isWellFormed hlexes (by simp))
    · next name hname =>
      obtain rfl := Except.ok.inj h
      exact ofWord_isWellFormed name
    · next base digits hfield =>
      obtain rfl := Except.ok.inj h
      exact fieldOf_isWellFormed (directOf_isWellFormed base) digits
    · next base digits hfield =>
      obtain rfl := Except.ok.inj h
      rw [hfield] at hlexes
      have hnumber : IsNumber base := hlexes.isNumber (by simp)
      have hbase : (ByteRef.expr base).IsWellFormed :=
        fun hword => absurd hword (not_isWord_of_isNumber hnumber)
      exact fieldOf_isWellFormed hbase digits
    · next hword _ _ =>
      obtain rfl := Except.ok.inj h
      refine kept_isWellFormed hlexes ?_
      intro name hname
      exact hword name (by simpa using hname)

theorem readTokens_isWellFormed (hlexes : Lexes next text tokens)
    (hfirst : ∀ c, text.head? = some c → Token.isGap c = false)
    (h : readTokens tokens text = .ok op) : op.IsWellFormed := by
  rcases map_some_or_mapM_eq_none tokens with ⟨ts, rfl⟩ | hnone
  · rw [readTokens_map_some] at h
    exact ofTokens_isWellFormed hlexes hfirst h
  · rw [readTokens, hnone] at h
    unfold ofRawText at h
    dsimp only at h
    split at h
    · obtain rfl := Except.ok.inj h
      trivial
    · cases h
    · obtain rfl := Except.ok.inj h
      refine kept_isWellFormed hlexes ?_
      rintro name rfl
      have hsome := mapM_id_map_some [.ident name]
      exact Option.some_ne_none _ (hsome.symm.trans hnone)

end Operand

/-! ## 4. Lines -/

namespace Mnemonic

theorem mem_table_of_isKnown {m : Mnemonic} (h : m.isKnown = true) : (m.render, m) ∈ table := by
  cases m with
  | other name => exact nomatch h
  | _ => decide

theorem isKnown_of_mem_table : ∀ entry ∈ table, entry.2.isKnown = true := by
  decide

/-- A word that is kept is in upper case and is no other mnemonic. -/
theorem other_of_ofWord {word name : String} (h : ofWord word = .other name) :
    Text.upperString name = name ∧ ∀ m : Mnemonic, m.isKnown = true → m.render ≠ name := by
  rcases ofWord_cases word with ⟨entry, hentry, hword⟩ | ⟨hno, hword⟩
  · have hknown := isKnown_of_mem_table entry hentry
    rw [← hword, h] at hknown
    exact nomatch hknown
  · obtain rfl := Mnemonic.other.inj (hword.symm.trans h)
    exact ⟨Text.upperString_upperString word, fun m hm => hno _ (mem_table_of_isKnown hm)⟩

end Mnemonic

namespace Line

variable {code text : List Char} {group front back : List Lexeme} {line : Line} {op : Operand}
  {number : Nat}

theorem readOperand_isWellFormed
    (hgroup : group ∈ operandGroups (operandLexemes (Token.lex code)))
    (h : readOperand code group = .ok op) : op.IsWellFormed := by
  obtain ⟨hne, pre, source, more, back, rfl, htakes⟩ := exists_takesUp hgroup
  rw [readOperand_of_spells (htakes.spells hne)] at h
  exact Operand.readTokens_isWellFormed htakes.lexes htakes.first h

/-- A constant is a label with a value. -/
theorem readConstant_isWellFormed {name : String} {stop : Nat} (hname : IsWord name)
    (h : readConstant code name stop number = .ok line) : line.IsWellFormed := by
  obtain ⟨value, -, h⟩ := bind_ok_iff.mp h
  obtain rfl := Except.ok.inj h
  refine ⟨.inl rfl, ?_, nofun, nofun, ?_⟩
  · rintro _ ⟨rfl⟩
    exact hname
  · intro op hop
    obtain rfl := List.mem_singleton.mp hop
    trivial

theorem isWord_of_mem_lex {code : List Char} {name : String}
    (h : some (.ident name) ∈ (Token.lex code).map (·.token)) : IsWord name :=
  (Token.lexes_lex code).isWord h

theorem isWord_of_constant? {name : String} {stop : Nat}
    (h : constant? (Token.lex code) = some (name, stop)) : IsWord name := by
  unfold constant? at h
  split at h
  · next first _ _ _ _ _ _ hlex =>
    split at h
    · obtain ⟨rfl, -⟩ := Prod.mk.inj (Option.some.inj h)
      have hmem : some (.ident first) ∈ (Token.lex code).map (·.token) :=
        hlex ▸ List.mem_cons_self
      exact isWord_of_mem_lex hmem
    · exact nomatch h
  · exact nomatch h

/-- How a line opens decides all but its operands. -/
theorem Opens.isWellFormed {tokens rest : List (Option Token)}
    (h : Opens tokens rest line.label line.mnemonic)
    (hwords : ∀ name, some (.ident name) ∈ tokens → IsWord name)
    (hbare : rest = [] → line.operands = []) (hoperands : ∀ op ∈ line.operands, op.IsWellFormed) :
    line.IsWellFormed := by
  obtain ⟨label, mnemonic, operands, number⟩ := line
  dsimp only at h hbare hoperands
  cases h with
  | label name =>
    refine ⟨.inl rfl, ?_, fun _ => hbare rfl, nofun, hoperands⟩
    rintro _ ⟨rfl⟩
    exact hwords name List.mem_cons_self
  | both name word =>
    refine ⟨.inl rfl, ?_, nofun, ?_, hoperands⟩
    · rintro _ ⟨rfl⟩
      exact hwords name List.mem_cons_self
    · intro other hother
      exact Mnemonic.other_of_ofWord (Option.some.inj hother)
  | plain word =>
    refine ⟨.inr rfl, nofun, nofun, ?_, hoperands⟩
    intro other hother
    exact Mnemonic.other_of_ofWord (Option.some.inj hother)

theorem ofLexemes_isWellFormed (hne : Token.lex code ≠ [])
    (h : ofLexemes code (Token.lex code) number = .ok line) : line.IsWellFormed := by
  cases hconstant : constant? (Token.lex code) with
  | some found =>
    obtain ⟨name, stop⟩ := found
    unfold ofLexemes at h
    split at h
    · exact nomatch h
    · rw [hconstant] at h
      exact readConstant_isWellFormed (isWord_of_constant? hconstant) h
  | none =>
    obtain ⟨front, back, hls, -, hback, hopens, hreads⟩ := exists_opens h hconstant hne
    refine hopens.isWellFormed ?_ ?_ ?_
    · intro name hmem
      have hin : some (.ident name) ∈ (Token.lex code).map (·.token) := by
        rw [hls, List.map_append]
        exact List.mem_append_left _ hmem
      exact isWord_of_mem_lex hin
    · intro hrest
      obtain rfl := List.map_eq_nil_iff.mp hrest
      exact (Except.ok.inj hreads).symm
    · intro op hop
      obtain ⟨group, hgroup, hread⟩ := exists_of_mem_mapM hreads hop
      rw [← hback] at hgroup
      exact readOperand_isWellFormed hgroup hread

/-- A register operand is read and written in the banks, whatever memory is. -/
structure StaysInBanks (op : Operand) : Prop where
  reads : ∀ symbols m, ∃ addr, op.byteAddr? symbols m = some addr ∧ addr.toNat ≤ 0x1F ∧
    op.byteValue symbols m = m.read addr
  writes : ∀ symbols (e : Effect) value, ∃ addr, addr.toNat ≤ 0x1F ∧
    (e.setByte symbols (some op) value).mem = e.mem.write addr value

theorem register_staysInBanks (r : Register) : StaysInBanks (.register r) where
  reads _ m := ⟨m.registerAddr r, rfl, Nat.le_of_lt_succ (m.registerAddr_lt r), rfl⟩
  writes _ e _ := ⟨e.mem.registerAddr r, Nat.le_of_lt_succ (e.mem.registerAddr_lt r), rfl⟩

/-- **What is read is well formed.** Whatever the text, the line that it is read as has a label or a
    mnemonic, a word for its label, no operand without a mnemonic, and operands that execution can
    rely on. Its register operands are read and written in the first thirty-two bytes and nowhere
    else. -/
theorem parse_isWellFormed (h : parse text number = .ok (some line)) :
    line.IsWellFormed ∧ ∀ r, .register r ∈ line.operands → StaysInBanks (.register r) := by
  obtain ⟨hne, hline⟩ := parse_eq_some_iff.mp h
  have hlex : Token.lex (Line.code text) ≠ [] := lex_ne_nil hne (Text.startsSolid_trim _)
  exact ⟨ofLexemes_isWellFormed hlex hline, fun r _ => register_staysInBanks r⟩

/-- A line with an operand of each kind that has a part to prove: a register and a pointer, bits by
name, by place and complemented, and expressions of one word, of more, and of no token. -/
def mixedLine : Line :=
  ⟨some "x", some (.other "FROB"),
    [.register (place 7), .indirect (place 1), .bit (.named 0x8C),
      .bit (.field (.sfr 0x90) (place 1)), .notBit (.field (.expr "20H") (place 1)),
      .direct (.expr "/flag"), .direct (.expr "flag"), .direct (.expr "(30H)")], 0⟩

theorem mixedLine_isWellFormed :
    parse "x: frob r7, @R1, tr0, P1.9, /20H.1, /flag, flag, (30H)".toList 0 = .ok (some mixedLine) ∧
      mixedLine.IsWellFormed ∧ StaysInBanks (.register (place 7)) := by
  have hparse : parse "x: frob r7, @R1, tr0, P1.9, /20H.1, /flag, flag, (30H)".toList 0 =
      .ok (some mixedLine) := by
    decide +kernel
  obtain ⟨hwell, hbanks⟩ := parse_isWellFormed hparse
  exact ⟨hparse, hwell, hbanks _ List.mem_cons_self⟩

end Line
end Mcs51
