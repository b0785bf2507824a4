import Mcs51.Literal
import Mcs51.Proofs.TextEnds
import Mcs51.Proofs.Traversal

/-!
# Colons in literals

A complement that is read as a literal is shown by its value, so a colon in it would be lost, and a
line asks where its first colon stands. The one literal with a colon is the character between
quotes, and there it is a part of the quoted text and no token (`Lexes.not_mem_colon_of_literal`).

The colon is one of a few marks that are no part of a number (`Literal.strays`), and what is said of
it here holds of them all.
-/

namespace Mcs51

/-! ## 1. What is read as a number -/

namespace Literal

variable {text digits : List Char} {base limit value n : Nat} {bad : LiteralError} {z : Int}
  {d : Char}

/-- Marks of the language that are neither digits nor signs nor suffixes nor quotes. -/
def strays : List Char := [':', '/', '#', '@', '.']

theorem ne_of_stray {c : Char} (hd : d ∈ strays) (hc : c ∉ strays) : d ≠ c := by
  rintro rfl
  exact hc hd

theorem stray_cases (hd : d ∈ strays) : d = ':' ∨ d = '/' ∨ d = '#' ∨ d = '@' ∨ d = '.' := by
  simpa only [strays, List.mem_cons, List.not_mem_nil, or_false] using hd

theorem digitValue?_of_stray (hd : d ∈ strays) (base : Nat) : digitValue? base d = none := by
  have hvalue : digitValue? base d = if base < base then some base else none := by
    rcases stray_cases hd with rfl | rfl | rfl | rfl | rfl <;> rfl
  rw [hvalue, if_neg (Nat.lt_irrefl base)]

theorem toUpper_of_stray (hd : d ∈ strays) : d.toUpper = d := by
  rcases stray_cases hd with rfl | rfl | rfl | rfl | rfl <;> rfl

theorem not_isBlank_of_stray (hd : d ∈ strays) : Text.isBlank d = false := by
  rcases stray_cases hd with rfl | rfl | rfl | rfl | rfl <;> rfl

theorem not_inIdent_of_stray (hd : d ∈ strays) : Token.inIdent d = false := by
  rcases stray_cases hd with rfl | rfl | rfl | rfl | rfl <;> rfl

theorem not_mem_stray_of_readDigits (hd : d ∈ strays)
    (h : readDigits base limit bad value digits = .ok n) : d ∉ digits := by
  induction digits generalizing value with
  | nil => exact nofun
  | cons c rest ih =>
    unfold readDigits at h
    split at h
    · exact nomatch h
    · next digit hdigit =>
      split at h
      · rintro (_ | ⟨_, hmem⟩)
        · exact nomatch (digitValue?_of_stray hd base).symm.trans hdigit
        · exact ih h hmem
      · exact nomatch h

theorem not_mem_stray_of_readSigned (hd : d ∈ strays) (h : readSigned base bad text = .ok z) :
    d ∉ text := by
  have hplus : d ≠ '+' := ne_of_stray hd (by decide)
  have hminus : d ≠ '-' := ne_of_stray hd (by decide)
  unfold readSigned at h
  split at h
  · exact nomatch h
  · exact nomatch h
  · exact nomatch h
  all_goals
    obtain ⟨_, hvalue, _⟩ := map_ok_iff.mp h
    obtain ⟨_, hvalue, _⟩ := bind_ok_iff.mp hvalue
    have hdigits := not_mem_stray_of_readDigits hd hvalue
    simpa [hplus, hminus] using hdigits

theorem eq_append_of_dropSuffix? {last : Char} (h : dropSuffix? last text = some digits) :
    text = digits ++ [last] := by
  unfold dropSuffix? at h
  split at h
  · next hlast =>
    obtain rfl := Option.some.inj h
    exact (List.dropLast_append_getLast? last hlast).symm
  · exact nomatch h

theorem not_mem_stray_of_readBased (hd : d ∈ strays) (h : readBased text = .ok z) : d ∉ text := by
  have hH : d ≠ 'H' := ne_of_stray hd (by decide)
  have hB : d ≠ 'B' := ne_of_stray hd (by decide)
  intro hmem
  have hraised : d ∈ Text.upper text := List.mem_map.mpr ⟨d, hmem, toUpper_of_stray hd⟩
  unfold readBased at h
  dsimp only at h
  split at h
  · next digits hdigits =>
    rw [eq_append_of_dropSuffix? hdigits] at hraised
    exact not_mem_stray_of_readSigned hd h (by simpa [hH] using hraised)
  · split at h
    · next digits hdigits =>
      rw [eq_append_of_dropSuffix? hdigits] at hraised
      exact not_mem_stray_of_readSigned hd h (by simpa [hB] using hraised)
    · exact not_mem_stray_of_readSigned hd h hraised

theorem not_mem_stray_of_trimStart (hd : d ∈ strays) (h : d ∉ Text.trimStart text) : d ∉ text := by
  obtain ⟨blanks, htext, hblanks⟩ := Text.exists_trimStart text
  rw [htext, List.mem_append]
  rintro (hmem | hmem)
  · exact absurd (hblanks d hmem) (Bool.eq_false_iff.mp (not_isBlank_of_stray hd))
  · exact h hmem

/-- The only literal with such a mark is the character itself, between quotes. -/
theorem eq_of_stray_mem (hd : d ∈ strays) (h : readTrimmed text = .ok z) (hmem : d ∈ text) :
    text = ['\'', d, '\''] := by
  have hquote : d ≠ '\'' := ne_of_stray hd (by decide)
  have hminus : d ≠ '-' := ne_of_stray hd (by decide)
  unfold readTrimmed at h
  split at h
  · next c hc =>
    unfold quoted? at hc
    split at hc
    · next rest =>
      rw [eq_append_of_dropSuffix? hc] at hmem ⊢
      obtain rfl : d = c := by simpa [hquote] using hmem
      rfl
    · exact nomatch hc
  · exact nomatch h
  · split at h
    · next rest =>
      obtain ⟨_, hvalue, _⟩ := bind_ok_iff.mp h
      have hrest := not_mem_stray_of_trimStart hd (not_mem_stray_of_readBased hd hvalue)
      exact absurd hmem (by simpa [hminus] using hrest)
    · exact absurd hmem (not_mem_stray_of_readBased hd h)

/-- A text that begins with such a mark is no literal. -/
theorem head_ne_stray_of_readTrimmed (hd : d ∈ strays) (h : readTrimmed text = .ok z) :
    text.head? ≠ some d := by
  intro hhead
  have hquoted := eq_of_stray_mem hd h (List.mem_of_mem_head? hhead)
  rw [hquoted] at hhead
  exact ne_of_stray hd (by decide) (Option.some.inj hhead).symm

end Literal

/-! ## 2. Tokens of a literal -/

namespace Token

open Text (StartsSolid trimStart_eq_self)

variable {next : Option Char} {text blanks : List Char} {ts : List Token} {z : Int}

/-- No token is a blank, so blanks before a text of tokens are gaps. -/
theorem Lexes.dropBlanks (h : Lexes next (blanks ++ text) (ts.map some))
    (hblanks : Text.IsBlanks blanks) : IsGaps blanks ∧ Lexes next text (ts.map some) := by
  induction blanks with
  | nil => exact ⟨nofun, h⟩
  | cons c blanks ih =>
    have hc := hblanks c List.mem_cons_self
    have hrest : Text.IsBlanks blanks := fun d hd => hblanks d (.tail c hd)
    generalize hall : c :: blanks ++ text = all, htokens : ts.map some = tokens at h
    cases h with
    | nil => exact nomatch hall
    | gap gap rest =>
      obtain ⟨rfl, rfl⟩ := List.cons.inj hall
      rw [← htokens] at rest
      obtain ⟨hgaps, htext⟩ := ih rest hrest
      refine ⟨?_, by rwa [← htokens]⟩
      rintro d (_ | ⟨_, hd⟩)
      · exact gap
      · exact hgaps d hd
    | token solid scanned rest =>
      obtain ⟨rfl, -⟩ := List.cons.inj hall
      obtain ⟨-, rfl⟩ := scanned.of_blank hc
      have hnone : none ∈ ts.map some := htokens ▸ List.mem_cons_self
      obtain ⟨_, _, hnot⟩ := List.mem_map.mp hnone
      exact nomatch hnot

theorem Lexes.trimStart_of_tokens (h : Lexes next text (ts.map some)) :
    Lexes next (Text.trimStart text) (ts.map some) := by
  obtain ⟨blanks, htext, hblanks⟩ := Text.exists_trimStart text
  rw [htext] at h
  exact (h.dropBlanks hblanks).2

theorem not_lexes_quote (tokens : List (Option Token)) : ¬ Lexes (some ':') ['\''] tokens := by
  intro h
  generalize hall : ['\''] = all at h
  cases h with
  | nil => exact nomatch hall
  | gap gap rest =>
    obtain ⟨rfl, _⟩ := List.cons.inj hall
    exact nomatch gap
  | token solid scanned rest =>
    obtain ⟨rfl, hrest⟩ := List.cons.inj hall
    obtain ⟨rfl, rfl⟩ := List.append_eq_nil_iff.mp hrest.symm
    have hquote : Scanned (some ':') '\'' [] _ := scanned
    generalize htail : [] = tail at hquote
    cases hquote with
    | numeric starts => exact nomatch starts
    | ident starts => exact nomatch starts
    | @quoted body =>
      exact absurd htail.symm (List.append_ne_nil_of_right_ne_nil body (List.cons_ne_nil _ _))
    | unclosed opens inside ends => exact absurd (ends ':' rfl) (by decide)
    | mark numeric ident quote => exact nomatch quote

/-- A text of tokens that is a literal has no colon among them: one between quotes is a part of
the quoted text. -/
theorem Lexes.not_mem_colon_of_literal (h : Lexes next text (ts.map some))
    (hfirst : StartsSolid text)
    (hliteral : Literal.read text = .ok z) : .colon ∉ ts := by
  intro hmem
  obtain ⟨before, after, rfl⟩ := List.append_of_mem hmem
  rw [List.map_append] at h
  obtain ⟨front, back, htext, hfront, hback⟩ := h.exists_of_append
  obtain ⟨gaps, c, tail, more, rfl, hgaps, _, hscanned, _⟩ := hback.exists_of_cons
  obtain ⟨rfl, hmark⟩ := hscanned.of_isMark rfl
  obtain rfl : c = ':' := ofMark?_inj hmark rfl
  obtain ⟨blanks, htrim, hblanks⟩ := Text.exists_trimEnd (Text.trimStart text)
  rw [trimStart_eq_self hfirst] at htrim
  have hblank : ':' ∉ blanks := fun hcolon => absurd (hblanks ':' hcolon) (by decide)
  have hcolon : ':' ∈ Text.trim text := by
    have hin : ':' ∈ text := by rw [htext]; simp
    rw [htrim, List.mem_append] at hin
    rw [Text.trim, trimStart_eq_self hfirst]
    exact hin.resolve_right hblank
  have hquoted := Literal.eq_of_stray_mem (by decide) hliteral hcolon
  rw [Text.trim, trimStart_eq_self hfirst] at hquoted
  rw [hquoted, htext] at htrim
  -- So the colon has the quote before it, and that would have to be a token by itself.
  rcases front with _ | ⟨d, _ | ⟨e, front⟩⟩
  · rcases gaps with _ | ⟨d, gaps⟩
    · exact absurd (List.head_eq_of_cons_eq htrim) (by decide)
    · obtain rfl := List.head_eq_of_cons_eq htrim
      exact absurd (hgaps _ List.mem_cons_self) (by decide)
  · rcases gaps with _ | ⟨e, gaps⟩
    · obtain rfl := List.head_eq_of_cons_eq htrim
      exact not_lexes_quote _ hfront
    · obtain rfl := List.head_eq_of_cons_eq (List.tail_eq_of_cons_eq htrim)
      exact absurd (hgaps _ List.mem_cons_self) (by decide)
  · have hrest := List.tail_eq_of_cons_eq (List.tail_eq_of_cons_eq htrim)
    have hin : ':' ∈ front ++ (gaps ++ ':' :: ([] ++ more)) := by simp
    change front ++ (gaps ++ ':' :: ([] ++ more)) = _ at hrest
    rw [hrest] at hin
    rcases List.mem_cons.mp hin with hquote | hin
    · exact absurd hquote (by decide)
    · exact hblank hin

end Token
end Mcs51
