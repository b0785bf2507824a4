import Mcs51.Proofs.TextEnds

/-!
# How operands are shown

Other than a value and an expression, which keep their text, an operand is shown by a text of its
own: a name, an address in hexadecimal, or two of these with a dot between them, perhaps behind a
mark. `Canonical` says of such a text what a line needs to know. It has no blanks in it, its tokens
are the same wherever it stands, and it is read as the operand that it shows.
-/

namespace Mcs51

namespace Literal

theorem readSigned_cons {base : Nat} {bad : LiteralError} {text : List Char} {c : Char}
    (h : c ∉ ['+', '-']) :
    readSigned base bad (c :: text) =
      (readDigits base greatest bad 0 (c :: text)).map fun n => (n : Int) := by
  unfold readSigned
  split <;> simp_all

theorem readTrimmed_cons {text : List Char} {c : Char} (h : c ∉ ['-', '\'']) :
    readTrimmed (c :: text) = readBased (c :: text) := by
  have hquoted : quoted? (c :: text) = none := by
    unfold quoted?
    split <;> simp_all
  unfold readTrimmed
  rw [hquoted]
  dsimp only
  split <;> simp_all

end Literal

namespace Operand

open Token (Lexes Stops IsWord IsNumber inIdent)
open Text (isBlank StartsSolid)

variable {ts : List Token} {op : Operand} {name : String}

/-! ## 1. Texts that stand for themselves -/

/-- A text with the tokens that it has in every place and the operand that it is read as. It has
no blanks in it. -/
structure Canonical (text : String) (ts : List Token) (op : Operand) : Prop where
  lexes : ∀ next, Stops inIdent next → Lexes next text.toList (ts.map some)
  nonempty : text.toList ≠ []
  solid : ∀ c ∈ text.toList, isBlank c = false ∧ c ≠ ';'
  plain : ∀ t ∈ ts, t ≠ .comma ∧ t ≠ .colon
  reads : ofTokens ts text.toList = .ok op

theorem solid_of_inIdent {c : Char} (h : inIdent c = true) : isBlank c = false ∧ c ≠ ';' := by
  refine ⟨Token.not_isBlank_of_inIdent h, ?_⟩
  rintro rfl
  exact nomatch h

theorem canonical_word (h : IsWord name) : Canonical name [.ident name] (ofWord name) where
  lexes _ hstops := h.lexes hstops
  nonempty := by
    obtain ⟨c, rest, hname, _, _⟩ := h
    rw [hname]
    exact List.cons_ne_nil c rest
  solid := by
    obtain ⟨c, rest, hname, hc, hrest⟩ := h
    rw [hname]
    rintro d (_ | ⟨_, hd⟩)
    · exact solid_of_inIdent (Token.inIdent_of_startsIdent hc)
    · exact solid_of_inIdent (List.all_eq_true.mp hrest d hd)
  plain := by simp
  reads := rfl

theorem canonical_number (h : IsNumber name) :
    Canonical name [.numeric name] (.direct (.expr name)) where
  lexes _ hstops := h.lexes hstops
  nonempty := by
    obtain ⟨c, rest, hname, _, _⟩ := h
    rw [hname]
    exact List.cons_ne_nil c rest
  solid := by
    obtain ⟨c, rest, hname, hc, hrest⟩ := h
    have hin : ∀ d, Token.inNumeric d = true → isBlank d = false ∧ d ≠ ';' := by
      intro d hd
      exact solid_of_inIdent (Token.inIdent_of_inNumeric hd)
    rw [hname]
    rintro d (_ | ⟨_, hd⟩)
    · exact hin _ (Token.inNumeric_of_startsNumeric hc)
    · exact hin d (List.all_eq_true.mp hrest d hd)
  plain := by simp
  reads := by
    change Except.ok (Operand.direct (.expr (String.ofList name.toList))) = _
    rw [String.ofList_toList]

/-- A mark in front. -/
theorem Canonical.mark {c : Char} {m : Token} {op' : Operand} (h : Canonical name ts op)
    (hm : Token.ofMark? c = some m) (hsolid : isBlank c = false ∧ c ≠ ';')
    (hplain : m ≠ .comma ∧ m ≠ .colon)
    (hreads : ofTokens (m :: ts) (c :: name.toList) = .ok op') :
    Canonical (String.ofList (c :: name.toList)) (m :: ts) op' where
  lexes next hstops := by
    rw [String.toList_ofList]
    exact (h.lexes next hstops).mark hm
  nonempty := by simp
  solid := by
    rw [String.toList_ofList]
    rintro d (_ | ⟨_, hd⟩)
    · exact hsolid
    · exact h.solid d hd
  plain := by
    rintro t (_ | ⟨_, ht⟩)
    · exact hplain
    · exact h.plain t ht
  reads := by
    rw [String.toList_ofList]
    exact hreads

/-- Two texts with a dot between them. -/
theorem Canonical.field {digits : String} {us : List Token} {op₁ op₂ op' : Operand}
    (h : Canonical name ts op₁) (h' : Canonical digits us op₂)
    (hreads : ofTokens (ts ++ .dot :: us) (name.toList ++ '.' :: digits.toList) = .ok op') :
    Canonical (name ++ "." ++ digits) (ts ++ .dot :: us) op' := by
  have htext : (name ++ "." ++ digits).toList = name.toList ++ '.' :: digits.toList := by
    simp
  refine ⟨?_, ?_, ?_, ?_, ?_⟩
  · intro next hstops
    rw [htext, List.map_append]
    have hdot : Stops inIdent ((('.' : Char) :: digits.toList).head?.or next) :=
      Token.stops_some rfl
    exact (h.lexes _ hdot).append ((h'.lexes next hstops).mark rfl)
  · simp
  · rw [htext]
    intro d hd
    rcases List.mem_append.mp hd with hd | hd
    · exact h.solid d hd
    · rcases List.mem_cons.mp hd with rfl | hd
      · decide
      · exact h'.solid d hd
  · intro t ht
    rcases List.mem_append.mp ht with ht | ht
    · exact h.plain t ht
    · rcases List.mem_cons.mp ht with rfl | ht
      · decide
      · exact h'.plain t ht
  · rw [htext]
    exact hreads

/-! ## 2. The text of each operand -/

theorem isWord_iff : IsWord name ↔
    (match name.toList with
      | [] => false
      | c :: rest => Token.startsIdent c && rest.all inIdent) = true := by
  unfold IsWord
  cases name.toList with
  | nil => simp
  | cons c rest =>
    rw [Bool.and_eq_true]
    constructor
    · rintro ⟨_, _, ⟨rfl, rfl⟩, hword⟩
      exact hword
    · intro hword
      exact ⟨c, rest, rfl, hword⟩

theorem isWord_of_mem_reservedWords : ∀ word ∈ reservedWords, IsWord word := by
  simp only [isWord_iff]
  decide

theorem isWord_shownWord (h : IsWord name) : IsWord (shownWord name) := by
  by_cases hcy : Text.upperString name = "CY"
  · rw [shownWord, if_pos hcy]
    exact isWord_of_mem_reservedWords "C" (by decide)
  by_cases hmem : Text.upperString name ∈ reservedWords
  · rw [shownWord_of_upperString rfl hmem hcy]
    exact isWord_of_mem_reservedWords _ hmem
  · rwa [shownWord_of_not_mem hmem]

theorem upperString_of_mem_reservedWords :
    ∀ word ∈ reservedWords, Text.upperString word = word := by
  decide

/-- A reserved word is read by its letters, in whatever case. -/
theorem ofWord_eq_of_reserved {other : String} (h : Text.upperString other = Text.upperString name)
    (hmem : Text.upperString name ∈ reservedWords) : ofWord other = ofWord name := by
  have hregister : Register.ofName? other = Register.ofName? name := by
    apply Option.ext
    intro r
    rw [Register.ofName?_eq_some_iff, Register.ofName?_eq_some_iff, h]
  have hbit : Sfr.bitAddress? other = Sfr.bitAddress? name := by
    rw [Sfr.bitAddress?, Sfr.bitAddress?, h]
  have hbyte : Sfr.address? other = Sfr.address? name := by
    rw [Sfr.address?, Sfr.address?, h]
  unfold ofWord
  rw [hregister, h, hbit]
  cases hr : Register.ofName? name with
  | some r => rfl
  | none =>
    dsimp only
    split
    · rfl
    next hA =>
    split
    · rfl
    next hAB =>
    split
    · rfl
    next hDPTR =>
    cases hb : Sfr.bitAddress? name with
    | some addr => rfl
    | none =>
      unfold directOf
      rw [hbyte]
      cases ha : Sfr.address? name with
      | some addr => rfl
      | none =>
        -- Only here the letters themselves would be kept, and then the word is not reserved.
        rcases mem_reservedWords.mp hmem with ⟨r, hrender⟩ | hword | hbitName | hbyteName
        · exact nomatch hr.symm.trans (Register.ofName?_eq_some_iff.mpr hrender.symm)
        · simp only [List.mem_cons, List.not_mem_nil, or_false] at hword
          rcases hword with hword | hword | hword
          · exact absurd hword hA
          · exact absurd hword hAB
          · exact absurd hword hDPTR
        · exact absurd hbitName (Sfr.find?_name_eq_none hb)
        · exact absurd hbyteName (Sfr.find?_name_eq_none ha)

theorem ofWord_shownWord (name : String) : ofWord (shownWord name) = ofWord name := by
  by_cases hmem : Text.upperString name ∈ reservedWords
  · by_cases hcy : Text.upperString name = "CY"
    · rw [shownWord, if_pos hcy]
      have hcy_word : ofWord "CY" = ofWord name := ofWord_eq_of_reserved hcy.symm hmem
      rw [← hcy_word]
      decide
    · rw [shownWord_of_upperString rfl hmem hcy]
      exact ofWord_eq_of_reserved (upperString_of_mem_reservedWords _ hmem) hmem
  · rw [shownWord_of_not_mem hmem]

theorem canonical_ofWord (h : IsWord name) :
    Canonical (ofWord name).render [.ident (shownWord name)] (ofWord name) := by
  rw [render_ofWord]
  have hshown := canonical_word (isWord_shownWord h)
  rwa [ofWord_shownWord] at hshown

theorem canonical_indirect {r : Register} (hr : r.val < 2) :
    Canonical (Operand.indirect r).render [.atSign, .ident r.render] (.indirect r) := by
  have hmem : r.render ∈ reservedWords := mem_reservedWords.mpr (.inl ⟨r, rfl⟩)
  have hpointer : pointer? r.render = some r := by
    rw [pointer?, Register.ofName?_eq_some_iff.mpr (upperString_of_mem_reservedWords _ hmem)]
    exact if_pos hr
  have hrender : (Operand.indirect r).render = String.ofList ('@' :: r.render.toList) := by
    rw [← String.toList_inj, String.toList_ofList, Operand.render, String.toList_append]
    rfl
  rw [hrender]
  refine (canonical_word (isWord_of_mem_reservedWords _ hmem)).mark rfl (by decide) (by decide) ?_
  simp only [ofTokens, hpointer]

theorem directOf_render (h : IsWord name) :
    IsWord (directOf name).render ∧ directOf (directOf name).render = directOf name ∧
      (Text.upperString (directOf name).render = "EQU" → Text.upperString name = "EQU") := by
  unfold directOf
  cases ha : Sfr.address? name with
  | none =>
    refine ⟨h, ?_, id⟩
    change directOf name = _
    rw [directOf, ha]
  | some addr =>
    have hmem := Sfr.find?_name_eq_some ha
    have hreserved : Text.upperString name ∈ reservedWords :=
      mem_reservedWords.mpr (.inr (.inr (.inr (List.mem_map_of_mem hmem))))
    have hupper := upperString_of_mem_reservedWords _ hreserved
    have hrender : (ByteRef.sfr addr).render = Text.upperString name := by
      rw [ByteRef.render, Sfr.name?_of_mem _ hmem]
      rfl
    rw [hrender]
    refine ⟨isWord_of_mem_reservedWords _ hreserved, ?_, fun h => hupper ▸ h⟩
    have haddr : Sfr.address? (Text.upperString name) = some addr := by
      rw [← ha, Sfr.address?, Sfr.address?, hupper]
    rw [haddr]

/-- The digit that shows a place in a byte. -/
def digit (bit : Fin 8) : String := String.ofList [Char.ofNat (48 + bit.val)]

theorem isNumber_digit (bit : Fin 8) : IsNumber (digit bit) := by
  have hdigit : Token.startsNumeric (Char.ofNat (48 + bit.val)) = true := by
    revert bit
    decide
  exact ⟨_, [], String.toList_ofList, hdigit, rfl⟩

theorem bitIndex_digit (bit : Fin 8) : bitIndex (digit bit) = bit := by
  revert bit
  decide

theorem canonical_field_word (h : IsWord name) (bit : Fin 8) :
    Canonical (Operand.bit (.field (directOf name) bit)).render
      [.ident (directOf name).render, .dot, .numeric (digit bit)]
      (.bit (.field (directOf name) bit)) := by
  obtain ⟨hword, hdirect, _⟩ := directOf_render h
  have hreads : ofTokens [.ident (directOf name).render, .dot, .numeric (digit bit)]
      ((directOf name).render.toList ++ '.' :: (digit bit).toList) =
        .ok (.bit (.field (directOf name) bit)) := by
    change Except.ok (fieldOf (directOf (directOf name).render) (digit bit)) = _
    rw [hdirect, fieldOf, bitIndex_digit]
  exact (canonical_word hword).field (canonical_number (isNumber_digit bit)) hreads

theorem canonical_field_number (h : IsNumber name) (bit : Fin 8) :
    Canonical (Operand.bit (.field (.expr name) bit)).render
      [.numeric name, .dot, .numeric (digit bit)] (.bit (.field (.expr name) bit)) := by
  have hreads : ofTokens [.numeric name, .dot, .numeric (digit bit)]
      (name.toList ++ '.' :: (digit bit).toList) = .ok (.bit (.field (.expr name) bit)) := by
    change Except.ok (fieldOf (.expr name) (digit bit)) = _
    rw [fieldOf, bitIndex_digit]
  exact (canonical_number h).field (canonical_number (isNumber_digit bit)) hreads

theorem ofTokens_slash (ts : List Token) (rest : List Char) :
    ofTokens (.slash :: ts) ('/' :: rest) =
      (ofTokens ts (Text.trimStart rest)).map (complement ('/' :: rest)) := by
  have hdrop : Text.dropBytes? 1 ('/' :: rest) = some rest := Text.dropBytes?_append ['/'] rest
  rw [ofTokens, hdrop]
  change (ofTokens ts (Text.trimStart rest) >>=
    fun inner => pure (complement ('/' :: rest) inner)) = _
  cases ofTokens ts (Text.trimStart rest) <;> rfl

/-- What a complement is made of is read without the blanks behind its mark. -/
theorem Canonical.slash {op' : Operand} (h : Canonical name ts op)
    (hop : complement ('/' :: name.toList) op = op') :
    Canonical ("/" ++ name) (.slash :: ts) op' := by
  have htext : "/" ++ name = String.ofList ('/' :: name.toList) := by
    rw [← String.toList_inj, String.toList_ofList, String.toList_append]
    rfl
  have hfirst : StartsSolid name.toList := by
    intro c hc
    exact (h.solid c (List.mem_of_mem_head? hc)).1
  rw [htext]
  refine h.mark rfl (by decide) (by decide) ?_
  rw [ofTokens_slash, Text.trimStart_eq_self hfirst, h.reads, ← hop]
  rfl

theorem ofWord_of_mem_bitNames : ∀ entry ∈ Sfr.bitNames,
    ofWord entry.1 = .bit (.named entry.2) := by
  decide

theorem canonical_bit {addr : Byte} {shown : String} (h : Sfr.bitName? addr = some shown) :
    Canonical (BitRef.named addr).render [.ident shown] (.bit (.named addr)) := by
  have hrender : (BitRef.named addr).render = shown := by rw [BitRef.render, h]; rfl
  obtain ⟨⟨name, place⟩, hfind, rfl⟩ := Option.map_eq_some_iff.mp h
  obtain rfl : place = addr := by simpa using List.find?_some hfind
  have hmem := List.mem_of_find?_eq_some hfind
  have hreserved : name ∈ reservedWords :=
    mem_reservedWords.mpr (.inr (.inr (.inl (List.mem_map_of_mem hmem))))
  rw [hrender, ← ofWord_of_mem_bitNames _ hmem]
  exact canonical_word (isWord_of_mem_reservedWords name hreserved)

theorem ofWord_of_not_mem (h : Text.upperString name ∉ reservedWords) :
    ofWord name = .direct (.expr name) := by
  rw [mem_reservedWords, not_or, not_or, not_or] at h
  obtain ⟨hregister, hword, hbit, hbyte⟩ := h
  have hr : Register.ofName? name = none := by
    rw [Option.eq_none_iff_forall_ne_some]
    intro r hr
    exact hregister ⟨r, (Register.ofName?_eq_some_iff.mp hr).symm⟩
  simp only [List.mem_cons, List.not_mem_nil, or_false, not_or] at hword
  have hb : Sfr.bitAddress? name = none := by
    rw [Option.eq_none_iff_forall_ne_some]
    intro addr hb
    exact hbit (List.mem_map_of_mem (Sfr.find?_name_eq_some hb))
  have ha : Sfr.address? name = none := by
    rw [Option.eq_none_iff_forall_ne_some]
    intro addr ha
    exact hbyte (List.mem_map_of_mem (Sfr.find?_name_eq_some ha))
  simp only [ofWord, directOf, hr, hword.1, hword.2.1, hword.2.2, hb, ha, if_false]

theorem hexDigit_reads : ∀ n : Fin 16,
    (Token.startsNumeric (hexDigit n) = true ∨ Token.startsIdent (hexDigit n) = true) ∧
      Token.inNumeric (hexDigit n) = true ∧ (hexDigit n).toUpper = hexDigit n ∧
      Literal.digitValue? 16 (hexDigit n) = some n.val ∧
      hexDigit n ∉ ['+', '-'] ∧ hexDigit n ∉ ['-', '\''] ∧ hexDigit n ≠ 'P' := by
  decide

theorem read_hex (n m : Fin 16) :
    Literal.read [hexDigit n, hexDigit m, 'H'] = .ok ((16 * n.val + m.val : Nat) : Int) := by
  obtain ⟨_, hn, hn_upper, hn_value, hn_sign, hn_quote, _⟩ := hexDigit_reads n
  obtain ⟨_, _, hm_upper, hm_value, _⟩ := hexDigit_reads m
  have htrim : Text.trim [hexDigit n, hexDigit m, 'H'] = [hexDigit n, hexDigit m, 'H'] := by
    refine Text.trim_eq_self ?_ ?_
    · rintro _ ⟨rfl⟩
      exact Token.not_isBlank_of_inIdent (Token.inIdent_of_inNumeric hn)
    · rintro _ ⟨rfl⟩
      rfl
  have hupper : Text.upper [hexDigit n, hexDigit m, 'H'] = [hexDigit n, hexDigit m, 'H'] := by
    simp [Text.upper, hn_upper, hm_upper]
  have hsuffix : Literal.dropSuffix? 'H' [hexDigit n, hexDigit m, 'H'] =
      some [hexDigit n, hexDigit m] := rfl
  have hfirst : 0 * 16 + n.val ≤ Literal.greatest := by
    simp only [Literal.greatest]
    omega
  have hboth : (0 * 16 + n.val) * 16 + m.val ≤ Literal.greatest := by
    simp only [Literal.greatest]
    omega
  have hdigits : Literal.readDigits 16 Literal.greatest .invalidHex 0 [hexDigit n, hexDigit m] =
      .ok ((0 * 16 + n.val) * 16 + m.val) := by
    simp only [Literal.readDigits, hn_value, hm_value, if_pos hfirst, if_pos hboth]
  have hvalue : (0 * 16 + n.val) * 16 + m.val = 16 * n.val + m.val := by omega
  rw [Literal.read, htrim, Literal.readTrimmed_cons hn_quote]
  simp only [Literal.readBased, hupper, hsuffix]
  rw [Literal.readSigned_cons hn_sign, hdigits, hvalue]
  rfl

theorem eq_P_of_mem_reservedWords : ∀ word ∈ reservedWords,
    word.toList.getLast? = some 'H' → word.toList[1]? = some 'P' := by
  decide

/-- An address in hexadecimal is a number or a word that is not reserved. As the complement of a
number it is the bit with that address. -/
theorem exists_canonical_hexByte (addr : Byte) : ∃ ts,
    Canonical (hexByte addr ++ "H") ts (.direct (.expr (hexByte addr ++ "H"))) := by
  have hhigh : addr.toNat / 16 < 16 := by
    have := addr.isLt
    omega
  have hlow : addr.toNat % 16 < 16 := Nat.mod_lt _ (by decide)
  obtain ⟨hfirst, hn, hn_upper, _⟩ := hexDigit_reads ⟨_, hhigh⟩
  obtain ⟨_, hm, hm_upper, _, _, _, hm_P⟩ := hexDigit_reads ⟨_, hlow⟩
  have hlast : Token.inNumeric 'H' = true := rfl
  have htext : (hexByte addr ++ "H").toList =
      hexDigit (addr.toNat / 16) :: [hexDigit (addr.toNat % 16), 'H'] := by
    simp [hexByte]
  rcases hfirst with hfirst | hfirst
  · have hnumber : IsNumber (hexByte addr ++ "H") :=
      ⟨_, _, htext, hfirst, by simp [hm, hlast]⟩
    exact ⟨_, canonical_number hnumber⟩
  · have hword : IsWord (hexByte addr ++ "H") :=
      ⟨_, _, htext, hfirst, by simp [Token.inIdent_of_inNumeric, hm, hlast]⟩
    have hupper : Text.upperString (hexByte addr ++ "H") = hexByte addr ++ "H" := by
      rw [← String.toList_inj, Text.upperString, String.toList_ofList, htext]
      simp [Text.upper, hn_upper, hm_upper]
    have hnot : Text.upperString (hexByte addr ++ "H") ∉ reservedWords := by
      rw [hupper]
      intro hmem
      have hP := eq_P_of_mem_reservedWords _ hmem (by rw [htext]; rfl)
      rw [htext] at hP
      exact hm_P (Option.some.inj hP)
    have hcanonical := canonical_word hword
    rw [ofWord_of_not_mem hnot] at hcanonical
    exact ⟨_, hcanonical⟩

theorem complement_hexByte (addr : Byte) (text : List Char) :
    complement text (.direct (.expr (hexByte addr ++ "H"))) = .notBit (.named addr) := by
  have hhigh : addr.toNat / 16 < 16 := by
    have := addr.isLt
    omega
  have hlow : addr.toNat % 16 < 16 := Nat.mod_lt _ (by decide)
  have hparse : Literal.parse (hexByte addr ++ "H") = .ok (addr.toNat : Int) := by
    have htext : (hexByte addr ++ "H").toList =
        [hexDigit (addr.toNat / 16), hexDigit (addr.toNat % 16), 'H'] := by
      simp [hexByte]
    rw [Literal.parse, htext, read_hex ⟨_, hhigh⟩ ⟨_, hlow⟩, Nat.div_add_mod]
  have hvalue : BitVec.ofInt 8 (addr.toNat : Int) = addr := by simp
  simp only [complement, hparse, hvalue]

theorem canonical_notBit (addr : Byte) :
    ∃ ts, Canonical (Operand.notBit (.named addr)).render (.slash :: ts)
      (.notBit (.named addr)) := by
  cases hname : Sfr.bitName? addr with
  | some shown => exact ⟨_, (canonical_bit hname).slash rfl⟩
  | none =>
    have hrender : (Operand.notBit (.named addr)).render = "/" ++ (hexByte addr ++ "H") := by
      rw [Operand.render, BitRef.render, hname]
      rfl
    obtain ⟨ts, hcanonical⟩ := exists_canonical_hexByte addr
    rw [hrender]
    exact ⟨ts, hcanonical.slash (complement_hexByte addr _)⟩

end Operand
end Mcs51
