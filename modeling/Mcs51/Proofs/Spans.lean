import Mcs51.Proofs.LineText

/-!
# Where lexemes stand

The lexer gives each lexeme its place by byte offsets, and reading a line cuts its text there. What
the offsets are is told by `Token.IsLaidOut`: the lexemes come one behind the other, each where its
characters are, and nothing but gaps is left between any two, before the first and behind the last.
That holds of every text (`Token.isLaidOut_lex`), whatever is in it, because the lexer goes on from
the end of what it has just taken.

An operand is read from some lexemes in a row and from a part of the text. `Line.TakesUp` says that
the two go together: from its first character to its last, the part is what the lexemes are those
of. For such a part the cut by offsets is the part itself (`TakesUp.groupText_eq`), and each group
of lexemes between commas has one (`exists_takesUp`).
-/

namespace Mcs51

namespace Token

open Text (byteLength slice?)

variable {pre text : List Char} {ls front back : List Lexeme} {l : Lexeme} {k : Nat}

/-- A text that has a token has a first character. -/
theorem Lexes.exists_first {next : Option Char} {t : Option Token} {tokens : List (Option Token)}
    (h : Lexes next text (t :: tokens)) (hfirst : ∀ c, text.head? = some c → isGap c = false) :
    ∃ c, text.head? = some c ∧ isGap c = false := by
  cases text with
  | cons c text => exact ⟨c, rfl, hfirst c rfl⟩
  | nil => exact nomatch h

/-- A mark takes up one byte. -/
theorem dropBytes?_mark {c : Char} {m : Token} (h : ofMark? c = some m) (rest : List Char) :
    Text.dropBytes? 1 (c :: rest) = some rest := by
  have hsize : byteLength [c] = 1 := by
    unfold ofMark? at h
    split at h <;> first | rfl | exact nomatch h
  rw [← hsize]
  exact Text.dropBytes?_append [c] rest

/-! ## 1. Lexemes in a text -/

/-- The offset behind the last of some lexemes, or the beginning of the text if there are none. -/
def stopOf (ls : List Lexeme) : Nat := (ls.getLast?.map (·.stop)).getD 0

/-- The offset of the first of some lexemes, or the end of the text if there are none. -/
def startOf (text : List Char) (ls : List Lexeme) : Nat :=
  (ls.head?.map (·.start)).getD (byteLength text)

/-- Lexemes stand in a text in their order, and all that is not a part of one is a gap. -/
structure IsLaidOut (text : List Char) (ls : List Lexeme) : Prop where
  nonempty : ∀ l ∈ ls, l.start < l.stop
  increasing : ls.Pairwise fun l l' => l.stop ≤ l'.start
  /-- A lexeme has characters, and if they make a token it is shown by them. -/
  within : ∀ l ∈ ls, ∃ piece, slice? l.start l.stop text = some piece ∧
    ∀ t, l.token = some t → t.render.toList = piece
  /-- Wherever the lexemes are divided, gaps fill the text up to the next one. -/
  between : ∀ front back, ls = front ++ back →
    ∃ gaps, slice? (stopOf front) (startOf text back) text = some gaps ∧ IsGaps gaps

/-- Behind some lexemes, the others are those of what is left of the text. -/
theorem exists_behind (h : lexFrom (byteLength pre) text = front ++ back) :
    ∃ before after, pre ++ text = before ++ after ∧ lexFrom (byteLength before) after = back ∧
      (front.getLast?.map (·.stop)).getD (byteLength pre) = byteLength before := by
  by_cases hne : front = []
  · subst hne
    exact ⟨pre, text, rfl, h, rfl⟩
  · obtain ⟨gaps, piece, more, rfl, -, -, hspells, hback, -⟩ := exists_spells_of_lexFrom h hne
    have hlength : byteLength (pre ++ (gaps ++ piece)) =
        byteLength pre + byteLength gaps + byteLength piece := by
      simp only [Text.byteLength_append, Nat.add_assoc]
    refine ⟨pre ++ (gaps ++ piece), more, by simp, ?_, ?_⟩
    · rw [hlength]
      exact hback
    · rw [hlength, hspells.stop]
      rfl

theorem exists_behind_lex (h : lex text = front ++ back) :
    ∃ before after, text = before ++ after ∧ lexFrom (byteLength before) after = back ∧
      stopOf front = byteLength before := by
  have hlexed : lexFrom (byteLength []) text = front ++ back := h
  exact exists_behind hlexed

/-- The offsets of a lexeme are those of its characters. -/
theorem exists_place (h : l ∈ lex text) :
    ∃ before c tail after, text = before ++ (c :: tail ++ after) ∧
      Scanned after.head? c tail l.token ∧ l.start = byteLength before ∧
      l.stop = byteLength before + byteLength (c :: tail) := by
  obtain ⟨front, back, hls⟩ := List.append_of_mem h
  obtain ⟨before, after, rfl, hback, -⟩ := exists_behind_lex hls
  obtain ⟨gaps, c, tail, more, rfl, -, -, hscanned, hstart, hstop, -⟩ :=
    exists_of_lexFrom_eq_cons hback
  rw [← Text.byteLength_append] at hstart hstop
  exact ⟨before ++ gaps, c, tail, more, by simp, hscanned, hstart, hstop⟩

theorem le_start_of_mem_lexFrom (hls : lexFrom k text = ls) (hl : l ∈ ls) : k ≤ l.start := by
  induction ls generalizing k text with
  | nil => exact nomatch hl
  | cons first ls ih =>
    obtain ⟨gaps, c, tail, more, -, -, -, -, hstart, hstop, hrest⟩ := exists_of_lexFrom_eq_cons hls
    rcases List.mem_cons.mp hl with rfl | hl
    · omega
    · have hbehind := ih hrest hl
      omega

theorem pairwise_lexFrom (hls : lexFrom k text = ls) :
    ls.Pairwise fun l l' => l.stop ≤ l'.start := by
  induction ls generalizing k text with
  | nil => exact .nil
  | cons first ls ih =>
    obtain ⟨gaps, c, tail, more, -, -, -, -, -, -, hrest⟩ := exists_of_lexFrom_eq_cons hls
    exact .cons (fun l' => le_start_of_mem_lexFrom hrest) (ih hrest)

theorem exists_gaps_between (h : lex text = front ++ back) :
    ∃ gaps, slice? (stopOf front) (startOf text back) text = some gaps ∧ IsGaps gaps := by
  obtain ⟨before, after, rfl, hback, hstop⟩ := exists_behind_lex h
  rw [hstop]
  cases back with
  | nil =>
    refine ⟨after, ?_, isGaps_of_lexFrom_eq_nil hback⟩
    have hslice := Text.slice?_append before after []
    rwa [List.append_nil, ← Text.byteLength_append] at hslice
  | cons l back =>
    obtain ⟨gaps, c, tail, more, rfl, hgaps, -, -, hstart, -, -⟩ := exists_of_lexFrom_eq_cons hback
    refine ⟨gaps, ?_, hgaps⟩
    have hslice := Text.slice?_append before gaps (c :: (tail ++ more))
    rwa [← hstart] at hslice

/-- **The lexemes of a text are laid out in it**, whatever the text is. -/
theorem isLaidOut_lex (text : List Char) : IsLaidOut text (lex text) where
  nonempty l hl := by
    obtain ⟨before, c, tail, after, -, -, hstart, hstop⟩ := exists_place hl
    have hpos := c.utf8Size_pos
    rw [hstart, hstop, Text.byteLength_cons]
    omega
  increasing := pairwise_lexFrom rfl
  within l hl := by
    obtain ⟨before, c, tail, after, htext, hscanned, hstart, hstop⟩ := exists_place hl
    refine ⟨c :: tail, ?_, ?_⟩
    · rw [htext, hstart, hstop]
      exact Text.slice?_append before (c :: tail) after
    · intro t ht
      rw [ht] at hscanned
      exact hscanned.toList_render
  between _ _ := exists_gaps_between

end Token

namespace Line

open Token (Lexes Spells lexFrom lex isGap)
open Text (byteLength)

variable {code pre text more : List Char} {group front back ls : List Lexeme}

/-! ## 2. Lexemes of a part -/

/-- Lexemes in a row are those of a part of a text, which stands between `pre` and `more` and has no
gaps at its ends. Without lexemes there is no such part, and it is empty. -/
structure TakesUp (pre text more : List Char) (group back : List Lexeme) : Prop where
  lexed : lexFrom (byteLength pre) (text ++ more) = group ++ back
  lexes : Lexes more.head? text (group.map (·.token))
  first : ∀ c, text.head? = some c → isGap c = false
  last : ∀ l, group.getLast? = some l → l.stop = byteLength pre + byteLength text

theorem TakesUp.eq_nil (h : TakesUp pre text more [] back) : text = [] := by
  have hgaps : Token.IsGaps text := h.lexes.isGaps
  cases text with
  | nil => rfl
  | cons c text =>
    exact absurd (hgaps c List.mem_cons_self) (Bool.eq_false_iff.mp (h.first c rfl))

theorem TakesUp.exists_first (h : TakesUp pre text more group back) (hne : group ≠ []) :
    ∃ c, text.head? = some c ∧ isGap c = false := by
  obtain ⟨l, group, rfl⟩ := List.exists_cons_of_ne_nil hne
  exact h.lexes.exists_first h.first

theorem TakesUp.spells (h : TakesUp pre text more group back) (hne : group ≠ []) :
    Spells (byteLength pre) text group where
  start := by
    obtain ⟨l, rest, rfl⟩ := List.exists_cons_of_ne_nil hne
    obtain ⟨gaps, c, tail, after, htext, hgaps, -, -, hstart, -, -⟩ :=
      Token.exists_of_lexFrom_eq_cons h.lexed
    obtain ⟨d, hd, hsolid⟩ := h.exists_first hne
    have hfirst : ∃ d, (gaps ++ c :: (tail ++ after)).head? = some d ∧ isGap d = false := by
      rw [← htext, List.head?_append, hd]
      exact ⟨d, rfl, hsolid⟩
    rw [Token.eq_nil_of_first hgaps hfirst] at hstart
    exact congrArg some hstart
  stop := by
    have hlast := List.getLast?_eq_some_getLast hne
    rw [hlast]
    exact congrArg some (h.last _ hlast)

/-- The cut by the offsets of the lexemes is the part that they take up. -/
theorem TakesUp.groupText_eq (h : TakesUp pre text more group back) :
    groupText (pre ++ (text ++ more)) group = .ok text := by
  by_cases hne : group = []
  · subst hne
    obtain rfl := h.eq_nil
    exact congrArg ReadFailure.require (Text.slice?_append [] [] (pre ++ ([] ++ more)))
  · exact groupText_of_spells (h.spells hne)

/-! ## 3. Groups between commas -/

theorem exists_takesUp_of_lex (h : lex code = front ++ (group ++ back)) (hne : group ≠ []) :
    ∃ pre text more, code = pre ++ (text ++ more) ∧ TakesUp pre text more group back := by
  obtain ⟨before, after, rfl, hlexed, -⟩ := Token.exists_behind_lex h
  obtain ⟨gaps, text, more, rfl, hgaps, hlexes, hspells, -, ⟨c, hc, hsolid⟩, -⟩ :=
    Token.exists_spells_of_lexFrom hlexed hne
  rw [Token.lexFrom_gaps hgaps, ← Text.byteLength_append] at hlexed
  rw [← Text.byteLength_append] at hspells
  refine ⟨before ++ gaps, text, more, (List.append_assoc _ _ _).symm, hlexed, hlexes, ?_, ?_⟩
  · intro d hd
    obtain rfl := Option.some.inj (hc.symm.trans hd)
    exact hsolid
  · intro l hl
    have hstop := hspells.stop
    rw [hl] at hstop
    exact Option.some.inj hstop

/-- What is left for the operands is the end of a line. -/
theorem exists_operandLexemes (ls : List Lexeme) : ∃ front, ls = front ++ operandLexemes ls := by
  have hlabel : ∃ front, ls = front ++ (splitLabel ls).2 := by
    rcases splitLabel_cases ls with ⟨_, l, l', rest, hls, -, -, hsplit⟩ | ⟨hsplit, -⟩
    · exact ⟨[l, l'], by rw [hsplit]; exact hls⟩
    · exact ⟨[], by rw [hsplit]; rfl⟩
  obtain ⟨front, hfront⟩ := hlabel
  unfold operandLexemes
  cases hsplit : splitMnemonic (splitLabel ls).2 with
  | error e => exact ⟨ls, (List.append_nil ls).symm⟩
  | ok found =>
    obtain ⟨mnemonic, rest⟩ := found
    rcases splitMnemonic_ok hsplit with ⟨-, -, rfl⟩ | ⟨_, l, hrest, -, -⟩
    · exact ⟨ls, (List.append_nil ls).symm⟩
    · refine ⟨front ++ [l], ?_⟩
      rw [List.append_assoc, List.singleton_append, ← hrest]
      exact hfront

/-- Every operand of a line has the part of the line that its lexemes take up. -/
theorem exists_takesUp (h : group ∈ operandGroups (operandLexemes (lex code))) :
    group ≠ [] ∧ ∃ pre text more back, code = pre ++ (text ++ more) ∧
      TakesUp pre text more group back := by
  obtain ⟨hne, before, back, hrest⟩ := exists_of_mem_operandGroups h
  obtain ⟨front, hls⟩ := exists_operandLexemes (lex code)
  rw [hrest, ← List.append_assoc] at hls
  obtain ⟨pre, text, more, hcode, htakes⟩ := exists_takesUp_of_lex hls hne
  exact ⟨hne, pre, text, more, back, hcode, htakes⟩

end Line
end Mcs51
