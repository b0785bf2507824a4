import Mcs51.Mnemonic
import Mcs51.Proofs.CanonicalText

/-!
# Words as mnemonics

A mnemonic is read in any letter case and shown in upper case. What it is shown by is a word again,
and reads as the same mnemonic; that holds of the words in the table and of those that are not.
-/

namespace Mcs51

namespace Text

theorem toUpper_cases (c : Char) : c.toUpper = c ∨
    ('a' ≤ c ∧ c ≤ 'z') ∧ 'A' ≤ c.toUpper ∧ c.toUpper ≤ 'Z' := by
  by_cases h : 97 ≤ c.toNat ∧ c.toNat ≤ 122
  · have hupper := toNat_toUpper c
    rw [if_pos h] at hupper
    refine .inr ⟨h, ?_, ?_⟩
    · change 65 ≤ c.toUpper.toNat
      omega
    · change c.toUpper.toNat ≤ 90
      omega
  · refine .inl ?_
    rw [← Char.toNat_inj, toNat_toUpper, if_neg h]

theorem toUpper_toUpper (c : Char) : c.toUpper.toUpper = c.toUpper := by
  rcases toUpper_cases c with h | ⟨_, _, hZ⟩
  · rw [h, h]
  · have hle : c.toUpper.toNat ≤ 90 := hZ
    rw [← Char.toNat_inj, toNat_toUpper, if_neg (by omega)]

theorem upperString_upperString (s : String) : upperString (upperString s) = upperString s := by
  rw [← String.toList_inj]
  simp only [upperString, upper, String.toList_ofList, List.map_map, Function.comp_def,
    toUpper_toUpper]

end Text

namespace Token

variable {c : Char} {name : String}

theorem startsIdent_of_letter (h : ('a' ≤ c ∧ c ≤ 'z') ∨ ('A' ≤ c ∧ c ≤ 'Z')) :
    startsIdent c = true := by
  have hdigit : ¬ c ≤ '9' := by
    intro h9
    have h9 : c.toNat ≤ 57 := h9
    rcases h with ⟨hlow, _⟩ | ⟨hlow, _⟩
    · have hlow : 97 ≤ c.toNat := hlow
      omega
    · have hlow : 65 ≤ c.toNat := hlow
      omega
  rcases h with h | h
  · simp [startsIdent, inIdent, inNumeric, startsNumeric, h, hdigit]
  · simp [startsIdent, inIdent, inNumeric, startsNumeric, h, hdigit]

theorem startsIdent_toUpper (c : Char) : startsIdent c.toUpper = startsIdent c := by
  rcases Text.toUpper_cases c with hc | ⟨hlower, hupper⟩
  · rw [hc]
  · rw [startsIdent_of_letter (.inl hlower), startsIdent_of_letter (.inr hupper)]

theorem inIdent_toUpper (c : Char) : inIdent c.toUpper = inIdent c := by
  rcases Text.toUpper_cases c with hc | ⟨hlower, hupper⟩
  · rw [hc]
  · rw [inIdent_of_startsIdent (startsIdent_of_letter (.inl hlower)),
      inIdent_of_startsIdent (startsIdent_of_letter (.inr hupper))]

/-- Raising letters makes no word of what is none. -/
theorem isWord_upperString : IsWord (Text.upperString name) ↔ IsWord name := by
  have hinside : inIdent ∘ Char.toUpper = inIdent := funext inIdent_toUpper
  rw [Operand.isWord_iff, Operand.isWord_iff, Text.upperString, String.toList_ofList]
  cases name.toList with
  | nil => rfl
  | cons c rest =>
    show (startsIdent c.toUpper && (rest.map Char.toUpper).all inIdent) = true ↔ _
    rw [startsIdent_toUpper, List.all_map, hinside]

end Token

namespace Mnemonic

theorem reads_table : ∀ entry ∈ table, entry.2.render = entry.1 ∧ ofWord entry.1 = entry.2 := by
  decide +kernel

theorem isWord_of_mem_table : ∀ entry ∈ table, Token.IsWord entry.1 := by
  simp only [Operand.isWord_iff]
  decide

theorem ofWord_cases (word : String) :
    (∃ entry ∈ table, ofWord word = entry.2) ∨
      ((∀ entry ∈ table, entry.1 ≠ Text.upperString word) ∧
        ofWord word = .other (Text.upperString word)) := by
  unfold ofWord
  cases h : table.find? fun entry => entry.1 == Text.upperString word with
  | some entry => exact .inl ⟨entry, List.mem_of_find?_eq_some h, by simp [h]⟩
  | none =>
    refine .inr ⟨?_, by simp [h]⟩
    intro entry hentry hname
    exact List.find?_eq_none.mp h entry hentry (by simp [hname])

/-- A mnemonic is shown by a word, and that word is read as the same mnemonic. -/
theorem ofWord_render {word : String} (h : Token.IsWord word) :
    Token.IsWord (ofWord word).render ∧ ofWord (ofWord word).render = ofWord word := by
  rcases ofWord_cases word with ⟨entry, hentry, hword⟩ | ⟨hno, hword⟩
  · obtain ⟨hrender, hread⟩ := reads_table entry hentry
    rw [hword, hrender]
    exact ⟨isWord_of_mem_table entry hentry, hread⟩
  · rw [hword]
    refine ⟨Token.isWord_upperString.mpr h, ?_⟩
    show ofWord (Text.upperString word) = _
    rw [← hword]
    unfold ofWord
    rw [Text.upperString_upperString]

end Mnemonic
end Mcs51
