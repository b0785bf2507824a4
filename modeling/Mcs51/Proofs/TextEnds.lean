import Mcs51.Proofs.Lexing

/-!
# The ends of a text

Blanks at the ends of a text mean nothing, and they are taken off a line, a value and a complement
before those are looked at. Some blanks are no gaps, and the lexer takes each of these for a
character that makes no token. So a text without its blanks is made of the same tokens, apart from
those that the blanks were (`Lexes.trim`). At the end this takes some care: a quote that is open
keeps the blanks behind it, and is not open if the line goes on.
-/

namespace Mcs51
namespace Text

variable {text front back : List Char} {c : Char}

/-! ## 1. Texts without blanks at the ends -/

def IsBlanks (text : List Char) : Prop := ∀ d ∈ text, isBlank d = true

/-- A text whose first character is no blank. -/
def StartsSolid (text : List Char) : Prop := ∀ c, text.head? = some c → isBlank c = false

/-- A text whose last character is no blank. -/
def EndsSolid (text : List Char) : Prop := ∀ c, text.getLast? = some c → isBlank c = false

/-- A text in which neither a line nor what counts of it ends. -/
def InLine (text : List Char) : Prop := ∀ c ∈ text, c ≠ '\n' ∧ c ≠ ';'

theorem inLine_append : InLine (front ++ back) ↔ InLine front ∧ InLine back :=
  List.forall_mem_append

theorem InLine.not_mem (h : InLine text) : '\n' ∉ text :=
  fun hmem => (h '\n' hmem).1 rfl

theorem EndsSolid.of_append (h : EndsSolid (front ++ back)) : EndsSolid back := by
  intro c hc
  refine h c ?_
  rw [List.getLast?_append, hc]
  rfl

theorem EndsSolid.append (h : EndsSolid back) (hne : back ≠ []) : EndsSolid (front ++ back) := by
  intro c hc
  have hlast := List.getLast?_eq_some_getLast hne
  rw [List.getLast?_append, hlast] at hc
  exact h c (hlast.trans hc)

theorem exists_trimEnd (text : List Char) :
    ∃ blanks, text = trimEnd text ++ blanks ∧ IsBlanks blanks := by
  refine ⟨(text.reverse.takeWhile isBlank).reverse, ?_, ?_⟩
  · rw [trimEnd, ← List.reverse_append, List.takeWhile_append_dropWhile, List.reverse_reverse]
  · intro d hd
    exact List.mem_takeWhile_imp (List.mem_reverse.mp hd)

theorem exists_trimStart (text : List Char) :
    ∃ blanks, text = blanks ++ trimStart text ∧ IsBlanks blanks :=
  ⟨text.takeWhile isBlank, List.takeWhile_append_dropWhile.symm, fun _ => List.mem_takeWhile_imp⟩

theorem trimEnd_eq_self (h : EndsSolid text) : trimEnd text = text := by
  unfold trimEnd
  unfold EndsSolid at h
  rw [← List.head?_reverse] at h
  cases hreverse : text.reverse with
  | nil => rw [List.reverse_eq_nil_iff.mp hreverse]; rfl
  | cons c rest =>
    rw [hreverse] at h
    rw [List.dropWhile_cons, h c rfl, if_neg Bool.false_ne_true, ← hreverse, List.reverse_reverse]

theorem trimEnd_append (hback : IsBlanks back) : trimEnd (front ++ back) = trimEnd front := by
  unfold trimEnd
  rw [List.reverse_append, List.dropWhile_append_of_pos]
  intro c hc
  exact hback c (List.mem_reverse.mp hc)

theorem trimStart_eq_self (h : StartsSolid text) : trimStart text = text := by
  cases text with
  | nil => rfl
  | cons c text => rw [trimStart, List.dropWhile_cons, h c rfl, if_neg Bool.false_ne_true]

theorem endsSolid_trimEnd (text : List Char) : EndsSolid (trimEnd text) := by
  intro c h
  rw [trimEnd, List.getLast?_reverse] at h
  have hstop := List.head?_dropWhile_not isBlank text.reverse
  rwa [h] at hstop

theorem startsSolid_trimStart (text : List Char) : StartsSolid (trimStart text) := by
  intro c h
  have hstop := List.head?_dropWhile_not isBlank text
  rw [trimStart] at h
  rwa [h] at hstop

theorem startsSolid_trim (text : List Char) : StartsSolid (trim text) := by
  intro c h
  obtain ⟨blanks, htext, _⟩ := exists_trimEnd (trimStart text)
  refine startsSolid_trimStart text c ?_
  rw [htext, List.head?_append]
  exact congrArg (Option.or · blanks.head?) h

theorem endsSolid_trim (text : List Char) : EndsSolid (trim text) :=
  endsSolid_trimEnd (trimStart text)

theorem trim_eq_self (hfirst : StartsSolid text) (hlast : EndsSolid text) : trim text = text := by
  rw [trim, trimStart_eq_self hfirst, trimEnd_eq_self hlast]

theorem trim_eq_self_of_head (hfirst : text.head? = some c) (hsolid : isBlank c = false)
    (hlast : EndsSolid text) : trim text = text := by
  refine trim_eq_self ?_ hlast
  intro d hd
  obtain rfl := Option.some.inj (hfirst.symm.trans hd)
  exact hsolid

theorem trim_trim (text : List Char) : trim (trim text) = trim text :=
  trim_eq_self (startsSolid_trim text) (endsSolid_trim text)

/-- The first character stays where it is no blank. -/
theorem exists_trim_cons (h : isBlank c = false) (rest : List Char) :
    ∃ kept, trim (c :: rest) = c :: kept := by
  have hfirst : StartsSolid (c :: rest) := by
    rintro _ ⟨rfl⟩
    exact h
  obtain ⟨blanks, htext, hblanks⟩ := exists_trimEnd (c :: rest)
  rw [trim, trimStart_eq_self hfirst]
  cases htrim : trimEnd (c :: rest) with
  | nil =>
    rw [htrim, List.nil_append] at htext
    exact absurd (hblanks c (htext ▸ List.mem_cons_self)) (Bool.eq_false_iff.mp h)
  | cons d kept =>
    rw [htrim] at htext
    exact ⟨kept, congrArg (· :: kept) (List.head_eq_of_cons_eq htext).symm⟩

theorem trimStart_append (h : IsBlanks front) (back : List Char) :
    trimStart (front ++ back) = trimStart back :=
  List.dropWhile_append_of_pos h

theorem trim_prepend (h : IsBlanks front) (back : List Char) :
    trim (front ++ back) = trim back := by
  rw [trim, trimStart_append h]
  rfl

/-- Blanks at the end are taken off with those before them. -/
theorem trim_append (h : IsBlanks back) (front : List Char) :
    trim (front ++ back) = trim front := by
  obtain ⟨blanks, htext, hblanks⟩ := exists_trimStart front
  by_cases hrest : trimStart front = []
  · have hstart : trimStart back = [] := List.dropWhile_eq_nil_iff.mpr h
    rw [hrest, List.append_nil] at htext
    rw [trim, trim, hrest, htext, trimStart_append hblanks, hstart]
  · have hstart : trimStart (front ++ back) = trimStart front ++ back := by
      unfold trimStart at hrest ⊢
      rw [List.dropWhile_append, if_neg (by rwa [List.isEmpty_iff])]
    rw [trim, hstart, trimEnd_append h]
    rfl

theorem mem_of_mem_trim (h : c ∈ trim text) : c ∈ text := by
  obtain ⟨before, htext, _⟩ := exists_trimStart text
  obtain ⟨after, hrest, _⟩ := exists_trimEnd (trimStart text)
  rw [htext, hrest]
  exact List.mem_append_right before (List.mem_append_left after h)

end Text

namespace Token

open Text (isBlank blankRanges IsBlanks EndsSolid exists_trimStart exists_trimEnd)

variable {next next' : Option Char} {c : Char} {tail text : List Char} {t : Option Token}
  {tokens : List (Option Token)}

/-! ## 2. Blanks are no tokens -/

theorem toNat_of_inIdent (h : inIdent c = true) :
    48 ≤ c.toNat ∧ c.toNat ≤ 57 ∨ 63 ≤ c.toNat ∧ c.toNat ≤ 122 := by
  simp only [inIdent, inNumeric, startsNumeric, Bool.or_eq_true, Bool.and_eq_true,
    decide_eq_true_eq] at h
  have hle : ∀ d e : Char, d ≤ e → d.toNat ≤ e.toNat := fun _ _ hde => hde
  rcases h with (((h | h) | h) | rfl) | rfl
  · exact .inl ⟨hle _ _ h.1, hle _ _ h.2⟩
  · exact .inr ⟨Nat.le_trans (by decide) (hle _ _ h.1), Nat.le_trans (hle _ _ h.2) (by decide)⟩
  · exact .inr ⟨Nat.le_trans (by decide) (hle _ _ h.1), hle _ _ h.2⟩
  · exact .inr (by decide)
  · exact .inr (by decide)

theorem not_isBlank_of_inIdent (h : inIdent c = true) : isBlank c = false := by
  have hc := toNat_of_inIdent h
  rw [Bool.eq_false_iff]
  intro hblank
  simp only [isBlank, blankRanges, List.any_cons, List.any_nil, Bool.or_false,
    Bool.or_eq_true, Bool.and_eq_true, decide_eq_true_eq] at hblank
  omega

theorem isBlank_of_isGap (h : isGap c = true) : isBlank c = true := by
  simp only [isGap, Bool.or_eq_true, decide_eq_true_eq] at h
  rcases h with ((rfl | rfl) | rfl) | rfl <;> decide

theorem not_isBlank_of_isQuote (h : isQuote c = true) : isBlank c = false := by
  rcases isQuote_iff.mp h with rfl | rfl <;> decide

theorem ofMark?_of_isBlank (h : isBlank c = true) : ofMark? c = none := by
  unfold ofMark?
  split <;> first | rfl | exact absurd h (by decide)

/-- A blank makes no token. -/
theorem Scanned.of_blank (h : Scanned next c tail t) (hc : isBlank c = true) :
    tail = [] ∧ t = none := by
  cases h with
  | numeric starts _ _ =>
    have hin := inIdent_of_inNumeric (inNumeric_of_startsNumeric starts)
    exact absurd hc (Bool.eq_false_iff.mp (not_isBlank_of_inIdent hin))
  | ident starts _ _ =>
    exact absurd hc (Bool.eq_false_iff.mp (not_isBlank_of_inIdent (inIdent_of_startsIdent starts)))
  | quoted opens _ => exact absurd hc (Bool.eq_false_iff.mp (not_isBlank_of_isQuote opens))
  | unclosed opens _ _ => exact absurd hc (Bool.eq_false_iff.mp (not_isBlank_of_isQuote opens))
  | mark => exact ⟨rfl, ofMark?_of_isBlank hc⟩

/-! ## 3. The tokens of a text without its blanks -/

theorem Lexes.dropStart (h : Lexes next (tail ++ text) tokens) (hblanks : IsBlanks tail) :
    ∃ front back, tokens = front ++ back ∧ (∀ t ∈ front, t = none) ∧ Lexes next text back := by
  induction tail generalizing tokens with
  | nil => exact ⟨[], tokens, rfl, nofun, h⟩
  | cons c tail ih =>
    have hc := hblanks c List.mem_cons_self
    have htail : IsBlanks tail := fun d hd => hblanks d (.tail c hd)
    generalize hall : c :: tail ++ text = all at h
    cases h with
    | nil => exact nomatch hall
    | gap gap rest =>
      obtain ⟨rfl, rfl⟩ := List.cons.inj hall
      exact ih rest htail
    | token solid scanned rest =>
      obtain ⟨rfl, hrest⟩ := List.cons.inj hall
      obtain ⟨rfl, rfl⟩ := scanned.of_blank hc
      rw [List.nil_append] at hrest
      rw [← hrest] at rest
      obtain ⟨front, back, rfl, hfront, hback⟩ := ih rest htail
      refine ⟨none :: front, back, rfl, ?_, hback⟩
      rintro t (_ | ⟨_, ht⟩)
      · rfl
      · exact hfront t ht

/-- A text of blanks makes no token. -/
theorem Lexes.of_blanks (h : Lexes next text tokens) (hblanks : IsBlanks text) :
    ∀ t ∈ tokens, t = none := by
  have hall : Lexes next (text ++ []) tokens := by rwa [List.append_nil]
  obtain ⟨front, back, rfl, hfront, hback⟩ := hall.dropStart hblanks
  cases hback
  rwa [List.append_nil]

/-- On a line that goes on, no token ends with a blank that is not its first character. -/
theorem Scanned.last_not_blank {d : Char} (h : Scanned next c tail t) (hnext : GoesOn next)
    (hd : tail.getLast? = some d) : isBlank d = false := by
  have hmem := List.mem_of_getLast? hd
  cases h with
  | numeric starts inside stops =>
    exact not_isBlank_of_inIdent (inIdent_of_inNumeric (inside d hmem))
  | ident starts inside stops => exact not_isBlank_of_inIdent (inside d hmem)
  | quoted opens inside =>
    rw [List.getLast?_concat] at hd
    obtain rfl := Option.some.inj hd
    exact not_isBlank_of_isQuote opens
  | unclosed opens inside ends =>
    obtain ⟨e, he, hline⟩ := hnext
    exact absurd (ends e he) hline
  | mark => exact nomatch hd

theorem GoesOn.or (hnext : GoesOn next) (hline : '\n' ∉ text) : GoesOn (text.head?.or next) := by
  cases text with
  | nil => exact hnext
  | cons c text =>
    refine ⟨c, rfl, ?_⟩
    rintro rfl
    exact hline List.mem_cons_self

theorem Lexes.dropEnd (h : Lexes next (text ++ tail) tokens) (hblanks : IsBlanks tail)
    (hnext : GoesOn next) (hline : '\n' ∉ text ++ tail) (hstops : Stops inIdent next') :
    ∃ front back, tokens = front ++ back ∧ (∀ t ∈ back, t = none) ∧ Lexes next' text front := by
  generalize hall : text ++ tail = all at h hline
  induction h generalizing text with
  | nil =>
    obtain ⟨rfl, rfl⟩ := List.append_eq_nil_iff.mp hall
    exact ⟨[], [], rfl, nofun, .nil⟩
  | @gap c all tokens gap rest ih =>
    cases text with
    | nil =>
      obtain rfl : tail = c :: all := hall
      exact ⟨[], tokens, rfl, (Lexes.gap gap rest).of_blanks hblanks, .nil⟩
    | cons c' text =>
      obtain ⟨rfl, hrest⟩ := List.cons.inj hall
      obtain ⟨front, back, rfl, hback, hfront⟩ := ih hrest fun hmem => hline (.tail c' hmem)
      exact ⟨front, back, rfl, hback, .gap gap hfront⟩
  | @token c inner all t tokens solid scanned rest ih =>
    cases text with
    | nil =>
      obtain rfl : tail = c :: (inner ++ all) := hall
      exact ⟨[], t :: tokens, rfl, (Lexes.token solid scanned rest).of_blanks hblanks, .nil⟩
    | cons c' text =>
      obtain ⟨rfl, hrest⟩ := List.cons.inj hall
      have hline_all : '\n' ∉ all := by
        intro hmem
        exact hline (.tail _ (List.mem_append_right inner hmem))
      -- The blanks begin behind this token: none of its own characters is one of them.
      have hkept : ∃ kept, text = inner ++ kept ∧ kept ++ tail = all := by
        rcases List.append_eq_append_iff.mp hrest with ⟨cut, hinner, htail⟩ | ⟨kept, htext, hall⟩
        · cases hcut : cut.getLast? with
          | none =>
            obtain rfl := List.getLast?_eq_none_iff.mp hcut
            exact ⟨[], by rw [hinner, List.append_nil, List.append_nil], htail⟩
          | some d =>
            have hd : inner.getLast? = some d := by rw [hinner, List.getLast?_append, hcut]; rfl
            have hblank := hblanks d (htail ▸ List.mem_append_left all (List.mem_of_getLast? hcut))
            have hsolid := scanned.last_not_blank (hnext.or hline_all) hd
            exact absurd hblank (Bool.eq_false_iff.mp hsolid)
        · exact ⟨kept, htext, hall.symm⟩
      obtain ⟨kept, rfl, rfl⟩ := hkept
      obtain ⟨front, back, rfl, hback, hfront⟩ := ih rfl hline_all
      refine ⟨t :: front, back, rfl, hback, .token solid ?_ hfront⟩
      cases kept with
      | nil => exact scanned.follow (hnext.or hline_all) hstops
      | cons e kept => exact scanned

/-- Without the blanks at its ends, a text is made of the same tokens, apart from those blanks. -/
theorem Lexes.trim (h : Lexes next text tokens) (hstops : Stops inIdent next)
    (hline : '\n' ∉ text)
    (hend : GoesOn next ∨ EndsSolid text) :
    ∃ front kept back, tokens = front ++ (kept ++ back) ∧ (∀ t ∈ front, t = none) ∧
      (∀ t ∈ back, t = none) ∧ Lexes next (Text.trim text) kept := by
  obtain ⟨blanks, htext, hblanks⟩ := exists_trimStart text
  generalize hrest : Text.trimStart text = rest at htext
  subst htext
  obtain ⟨front, tokens', rfl, hfront, hstart⟩ := h.dropStart hblanks
  have hline_rest : '\n' ∉ rest := fun hmem => hline (List.mem_append_right blanks hmem)
  rw [Text.trim, hrest]
  rcases hend with hnext | hlast
  · obtain ⟨blanks', htext, hblanks'⟩ := exists_trimEnd rest
    generalize Text.trimEnd rest = inner at htext
    subst htext
    obtain ⟨kept, back, rfl, hback, hkept⟩ := hstart.dropEnd hblanks' hnext hline_rest hstops
    exact ⟨front, kept, back, rfl, hfront, hback, hkept⟩
  · refine ⟨front, tokens', [], by rw [List.append_nil], hfront, nofun, ?_⟩
    rw [Text.trimEnd_eq_self]
    · exact hstart
    · intro c hc
      refine hlast c ?_
      rw [List.getLast?_append, hc]
      rfl

end Token
end Mcs51
