import Mathlib.Data.List.TakeWhile
import Mcs51.Operand.Reading

/-!
# Words as operands

A word that stands alone as an operand is a register, one of `A`, `AB` and `DPTR`, a named bit, a
named byte, or an expression, and only the last keeps its text: the others are kept by what they
are and shown by the one name that has in upper case. So writing a word and showing it again is no
identity, and `Operand.shownWord` is what it is instead. `Operand.render_ofWord` is the agreement,
and `Operand.shownWord_eq_self_iff` says which words come back as they were written.

The words that are not kept are listed (`Operand.reservedWords`). Registers are read by shape and
not from a table, so for them the list is justified by `Register.ofName?_eq_some_iff`; for the
named bits and bytes it is made of the tables.
-/

namespace Mcs51

/-! ## 1. Letter case -/

namespace Text

theorem toNat_toUpper (c : Char) :
    c.toUpper.toNat = if 97 ≤ c.toNat ∧ c.toNat ≤ 122 then c.toNat - 32 else c.toNat := by
  have hrange : ('a'.val ≤ c.val ∧ c.val ≤ 'z'.val) ↔ 97 ≤ c.toNat ∧ c.toNat ≤ 122 := Iff.rfl
  unfold Char.toUpper
  by_cases h : 'a'.val ≤ c.val ∧ c.val ≤ 'z'.val
  · rw [dif_pos h, if_pos (hrange.mp h)]
    -- The shift is by -32, as an unsigned number.
    have hshift : ('A'.val - 'a'.val).toNat = 4294967264 := rfl
    have hc : 97 ≤ c.val.toNat ∧ c.val.toNat ≤ 122 := hrange.mp h
    change (c.val + ('A'.val - 'a'.val)).toNat = c.val.toNat - 32
    rw [UInt32.toNat_add, hshift]
    omega
  · rw [dif_neg h, if_neg (mt hrange.mpr h)]

theorem toUpper_eq_digit_iff {c d : Char} (hd : d.toNat ≤ 57) : c.toUpper = d ↔ c = d := by
  rw [← Char.toNat_inj, ← Char.toNat_inj, toNat_toUpper]
  split <;> omega

theorem toUpper_eq_R_iff {c : Char} : c.toUpper = 'R' ↔ c = 'R' ∨ c = 'r' := by
  rw [← Char.toNat_inj, ← Char.toNat_inj, ← Char.toNat_inj, toNat_toUpper]
  have hupper : 'R'.toNat = 82 := rfl
  have hlower : 'r'.toNat = 114 := rfl
  split <;> omega

theorem upperString_eq_ofList_iff {name : String} {text : List Char} :
    upperString name = String.ofList text ↔ upper name.toList = text := by
  unfold upperString
  exact String.ofList_inj

end Text

/-! ## 2. Registers -/

namespace Register

theorem toNat_digit (r : Register) : (Char.ofNat (48 + r.val)).toNat = 48 + r.val := by
  revert r
  decide

/-- The words for a register are its name in any letter case. -/
theorem ofName?_eq_some_iff {name : String} {r : Register} :
    ofName? name = some r ↔ Text.upperString name = r.render := by
  have hdigit := toNat_digit r
  have hdigit_le : (Char.ofNat (48 + r.val)).toNat ≤ 57 := by omega
  unfold render
  rw [Text.upperString_eq_ofList_iff]
  unfold ofName? Text.upper
  match name.toList with
  | [] => simp
  | [_] => simp
  | _ :: _ :: _ :: _ => simp
  | [c, d] =>
    simp only [List.map_cons, List.map_nil, List.cons.injEq, and_true, Text.toUpper_eq_R_iff,
      Text.toUpper_eq_digit_iff hdigit_le]
    constructor
    · intro h
      split at h
      · rename_i hc
        obtain ⟨hR, hlow, hhigh⟩ := hc
        refine ⟨hR, ?_⟩
        have hr : (d.toNat - 48) % 8 = r.val := congrArg Fin.val (Option.some.inj h)
        have hlow : 48 ≤ d.toNat := hlow
        have hhigh : d.toNat ≤ 55 := hhigh
        rw [← Char.toNat_inj, hdigit]
        omega
      · exact nomatch h
    · rintro ⟨hR, rfl⟩
      have hlow : '0' ≤ Char.ofNat (48 + r.val) := by
        change 48 ≤ (Char.ofNat (48 + r.val)).toNat
        omega
      have hhigh : Char.ofNat (48 + r.val) ≤ '7' := by
        change (Char.ofNat (48 + r.val)).toNat ≤ 55
        omega
      rw [if_pos ⟨hR, hlow, hhigh⟩, hdigit]
      refine congrArg some (Fin.ext ?_)
      change (48 + r.val - 48) % 8 = r.val
      omega

end Register

/-! ## 3. Reading a word -/

namespace Token

/-- A text that is a single word: a letter, an underscore or a question mark, and any of these or
    digits behind it. -/
def IsWord (name : String) : Prop :=
  ∃ c rest, name.toList = c :: rest ∧ startsIdent c = true ∧ rest.all inIdent = true

theorem not_isGap_of_startsIdent {c : Char} (h : startsIdent c = true) : isGap c = false := by
  rw [Bool.eq_false_iff]
  intro hgap
  simp only [isGap, Bool.or_eq_true, decide_eq_true_eq] at hgap
  rcases hgap with ((rfl | rfl) | rfl) | rfl <;> exact absurd h (by decide)

theorem scan_word {c : Char} {rest : List Char} (hc : startsIdent c = true)
    (hrest : rest.all inIdent = true) :
    scan c rest = (some (.ident (String.ofList (c :: rest))), rest) := by
  have hnumeric : startsNumeric c = false := by
    simp only [startsIdent, Bool.and_eq_true, Bool.not_eq_true'] at hc
    exact hc.2
  have htail : rest.takeWhile inIdent = rest := by
    rw [List.takeWhile_eq_self_iff]
    exact List.all_eq_true.mp hrest
  simp [scan, hnumeric, hc, htail]

theorem lex_word {name : String} (h : IsWord name) :
    lex name.toList = [⟨some (.ident name), 0, Text.byteLength name.toList⟩] := by
  obtain ⟨c, rest, hname, hc, hrest⟩ := h
  have hof : String.ofList (c :: rest) = name := by rw [← hname, String.ofList_toList]
  rw [hname]
  simp [lex, lexFrom, not_isGap_of_startsIdent hc, scan_word hc hrest, hof]

end Token

namespace Operand

theorem ofLexemes_lex_word {name : String} (h : Token.IsWord name) :
    ofLexemes (Token.lex name.toList) name.toList = .ok (ofWord name) := by
  rw [Token.lex_word h]
  rfl

end Operand

/-! ## 4. The tables of names -/

namespace Sfr

/-- A bit is shown by the name that the table has for it, and so is a byte. Only the carry flag
    has a second name. -/
theorem bitName?_of_mem : ∀ entry ∈ bitNames,
    bitName? entry.2 = some (if entry.1 = "CY" then "C" else entry.1) := by
  decide

theorem name?_of_mem : ∀ entry ∈ byteNames, name? entry.2 = some entry.1 := by
  decide

/-- A name that a table knows is the name of one of its entries. -/
theorem find?_name_eq_some {table : List (String × Byte)} {name : String} {addr : Byte}
    (h : (table.find? fun entry => entry.1 == name).map (·.2) = some addr) :
    (name, addr) ∈ table := by
  obtain ⟨⟨found, place⟩, hfind, rfl⟩ := Option.map_eq_some_iff.mp h
  have hname : found = name := by simpa using List.find?_some hfind
  rw [← hname]
  exact List.mem_of_find?_eq_some hfind

theorem find?_name_eq_none {table : List (String × Byte)} {name : String}
    (h : (table.find? fun entry => entry.1 == name).map (·.2) = none) :
    name ∉ table.map (·.1) := by
  intro hmem
  obtain ⟨entry, hentry, rfl⟩ := List.mem_map.mp hmem
  have hnone := List.find?_eq_none.mp (Option.map_eq_none_iff.mp h)
  exact hnone entry hentry (by simp)

end Sfr

/-! ## 5. How a word is shown -/

namespace Operand

/-- The words that name something by themselves, in upper case. -/
def reservedWords : List String :=
  (List.finRange 8).map Register.render ++ ["A", "AB", "DPTR"] ++ Sfr.bitNames.map (·.1) ++
    Sfr.byteNames.map (·.1)

/-- How an operand that is written as a single word is shown. -/
def shownWord (name : String) : String :=
  let raised := Text.upperString name
  if raised = "CY" then "C" else if raised ∈ reservedWords then raised else name

theorem shownWord_of_upperString {name word : String} (h : Text.upperString name = word)
    (hmem : word ∈ reservedWords) (hcy : word ≠ "CY") : shownWord name = word := by
  subst h
  simp only [shownWord, if_neg hcy, if_pos hmem]

theorem shownWord_of_not_mem {name : String} (h : Text.upperString name ∉ reservedWords) :
    shownWord name = name := by
  have hcy : Text.upperString name ≠ "CY" := by
    intro he
    exact h (he ▸ by decide)
  simp only [shownWord, if_neg hcy, if_neg h]

theorem mem_reservedWords {word : String} :
    word ∈ reservedWords ↔
      (∃ r : Register, r.render = word) ∨ word ∈ ["A", "AB", "DPTR"] ∨
        word ∈ Sfr.bitNames.map (·.1) ∨ word ∈ Sfr.byteNames.map (·.1) := by
  simp only [reservedWords, List.mem_append, List.mem_map, List.mem_finRange, true_and, or_assoc]

theorem render_register_ne_cy (r : Register) : r.render ≠ "CY" := by
  revert r
  decide

theorem not_mem_byteNames_cy : "CY" ∉ Sfr.byteNames.map (·.1) := by
  decide

/-- A word that is in no table and has no shape of its own is not reserved. -/
theorem not_mem_reservedWords {name : String} (hregister : Register.ofName? name = none)
    (hother : Text.upperString name ∉ ["A", "AB", "DPTR"]) (hbit : Sfr.bitAddress? name = none)
    (hbyte : Sfr.address? name = none) : Text.upperString name ∉ reservedWords := by
  rw [mem_reservedWords]
  rintro (⟨r, hr⟩ | h | h | h)
  · exact nomatch hregister.symm.trans (Register.ofName?_eq_some_iff.mpr hr.symm)
  · exact hother h
  · exact Sfr.find?_name_eq_none hbit h
  · exact Sfr.find?_name_eq_none hbyte h

/-- **A word is shown as `shownWord` says.** -/
theorem render_ofWord (name : String) : (ofWord name).render = shownWord name := by
  unfold ofWord
  cases hr : Register.ofName? name with
  | some r =>
    have hmem : r.render ∈ reservedWords := mem_reservedWords.mpr (.inl ⟨r, rfl⟩)
    have hraised := Register.ofName?_eq_some_iff.mp hr
    exact (shownWord_of_upperString hraised hmem (render_register_ne_cy r)).symm
  | none =>
    dsimp only
    split
    next h => exact (shownWord_of_upperString h (by decide) (by decide)).symm
    next hA =>
    split
    next h => exact (shownWord_of_upperString h (by decide) (by decide)).symm
    next hAB =>
    split
    next h => exact (shownWord_of_upperString h (by decide) (by decide)).symm
    next hDPTR =>
    cases hbit : Sfr.bitAddress? name with
    | some addr =>
      have hmem := Sfr.find?_name_eq_some hbit
      have hreserved : Text.upperString name ∈ reservedWords :=
        mem_reservedWords.mpr (.inr (.inr (.inl (List.mem_map_of_mem hmem))))
      change (Sfr.bitName? addr).getD _ = _
      rw [Sfr.bitName?_of_mem _ hmem, Option.getD_some]
      simp only [shownWord, if_pos hreserved]
    | none =>
      unfold directOf
      cases hbyte : Sfr.address? name with
      | some addr =>
        have hmem := Sfr.find?_name_eq_some hbyte
        have hname : Text.upperString name ∈ Sfr.byteNames.map (·.1) := List.mem_map_of_mem hmem
        have hreserved : Text.upperString name ∈ reservedWords :=
          mem_reservedWords.mpr (.inr (.inr (.inr hname)))
        have hcy : Text.upperString name ≠ "CY" := by
          intro h
          exact not_mem_byteNames_cy (h ▸ hname)
        rw [shownWord_of_upperString rfl hreserved hcy]
        change (Sfr.name? addr).getD _ = _
        rw [Sfr.name?_of_mem _ hmem, Option.getD_some]
      | none =>
        -- No table and no shape claims the word, so its text is kept.
        have hother : Text.upperString name ∉ ["A", "AB", "DPTR"] := by simp [hA, hAB, hDPTR]
        exact (shownWord_of_not_mem (not_mem_reservedWords hr hother hbit hbyte)).symm

/-- **The words that come back** as they were written: those that are not reserved in any letter
    case, and those that are written in upper case, except the second name of the carry flag. -/
theorem shownWord_eq_self_iff {name : String} :
    shownWord name = name ↔
      (Text.upperString name ∈ reservedWords → Text.upperString name = name ∧ name ≠ "CY") := by
  have hreserved : "CY" ∈ reservedWords := by decide
  unfold shownWord
  by_cases hcy : Text.upperString name = "CY"
  · rw [if_pos hcy, hcy]
    constructor
    · rintro rfl
      exact absurd hcy (by decide)
    · intro h
      exact absurd (h hreserved).1.symm (h hreserved).2
  · rw [if_neg hcy]
    by_cases hmem : Text.upperString name ∈ reservedWords
    · rw [if_pos hmem]
      constructor
      · intro h _
        exact ⟨h, h ▸ hcy⟩
      · intro h
        exact (h hmem).1
    · simp [hmem]

theorem shownWord_ne_dollar {name : String} (h : Token.IsWord name) : shownWord name ≠ "$" := by
  intro hd
  by_cases hmem : Text.upperString name ∈ reservedWords
  · have hplain : "$" ∉ reservedWords := by decide
    by_cases hcy : Text.upperString name = "CY"
    · rw [shownWord, if_pos hcy] at hd
      exact absurd hd (by decide)
    · rw [shownWord_of_upperString rfl hmem hcy] at hd
      exact hplain (hd ▸ hmem)
  · rw [shownWord_of_not_mem hmem] at hd
    obtain ⟨c, rest, hname, hc, _⟩ := h
    rw [hd] at hname
    obtain ⟨rfl, _⟩ := List.cons.inj hname
    exact absurd hc (by decide)

end Operand
end Mcs51
