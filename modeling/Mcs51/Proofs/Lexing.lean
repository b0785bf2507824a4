import Mcs51.Proofs.Word

/-!
# Texts and their tokens

The lexer goes over a text once and takes the longest token each time, so the tokens of a text
depend on what stands behind it, though only on the next character. `Lexes` keeps that character:
`Lexes next text tokens` says what a text is made of where `next` comes behind it. It needs no
positions and can be put together from parts (`Lexes.append`), and the two directions of the
agreement with the lexer are `Lexes.exists_spells` and `exists_spells_of_lexFrom`, which add them.

A text that is moved gets another character behind it. That is harmless where the new one cannot go
on a word (`Lexes.follow`), with one exception: an open quote takes in the rest of its line, so it
stands last or not at all.
-/

namespace Mcs51
namespace Token

variable {next : Option Char} {c : Char} {tail text more : List Char} {t : Option Token}
  {tokens : List (Option Token)} {ls : List Lexeme} {k : Nat}

/-! ## 1. One token -/

/-- No character of a kind comes next. -/
def Stops (p : Char → Bool) (next : Option Char) : Prop := ∀ d, next = some d → p d = false

theorem takeWhile_append_of_stops {p : Char → Bool} (htail : ∀ d ∈ tail, p d = true)
    (hstops : Stops p more.head?) : (tail ++ more).takeWhile p = tail := by
  rw [List.takeWhile_append_of_pos htail]
  cases more with
  | nil => exact List.append_nil tail
  | cons d rest => simp [hstops d rfl]

theorem stops_none {p : Char → Bool} : Stops p none := nofun

theorem stops_some {p : Char → Bool} (h : p c = false) : Stops p (some c) := by
  rintro _ ⟨rfl⟩
  exact h

theorem stops_dropWhile (p : Char → Bool) (rest : List Char) :
    Stops p (rest.dropWhile p).head? := by
  intro d hd
  have hstop := List.head?_dropWhile_not p rest
  rwa [hd] at hstop

/-- The characters `c :: tail` make one token, or are taken together and make none, where `next`
comes behind them. -/
inductive Scanned (next : Option Char) : Char → List Char → Option Token → Prop
  | numeric {c : Char} {tail : List Char} (starts : startsNumeric c = true)
      (inside : ∀ d ∈ tail, inNumeric d = true) (stops : Stops inNumeric next) :
      Scanned next c tail (some (.numeric (String.ofList (c :: tail))))
  | ident {c : Char} {tail : List Char} (starts : startsIdent c = true)
      (inside : ∀ d ∈ tail, inIdent d = true) (stops : Stops inIdent next) :
      Scanned next c tail (some (.ident (String.ofList (c :: tail))))
  | quoted {c : Char} {body : List Char} (opens : isQuote c = true)
      (inside : ∀ d ∈ body, inQuoted c d = true) :
      Scanned next c (body ++ [c]) (some (.quoted (String.ofList (c :: (body ++ [c])))))
  /-- A quote that is open at the end of its line. -/
  | unclosed {c : Char} {tail : List Char} (opens : isQuote c = true)
      (inside : ∀ d ∈ tail, inQuoted c d = true) (ends : ∀ d, next = some d → d = '\n') :
      Scanned next c tail none
  | mark {c : Char} (numeric : startsNumeric c = false) (ident : startsIdent c = false)
      (quote : isQuote c = false) : Scanned next c [] (ofMark? c)

theorem not_startsNumeric_of_startsIdent (h : startsIdent c = true) : startsNumeric c = false := by
  simp only [startsIdent, Bool.and_eq_true, Bool.not_eq_true'] at h
  exact h.2

theorem isQuote_iff : isQuote c = true ↔ c = '\'' ∨ c = '"' := by
  simp [isQuote]

theorem not_starts_of_isQuote (h : isQuote c = true) :
    startsNumeric c = false ∧ startsIdent c = false := by
  rcases isQuote_iff.mp h with rfl | rfl <;> decide

theorem Scanned.scan_eq (h : Scanned more.head? c tail t) : scan c (tail ++ more) = (t, tail) := by
  cases h with
  | numeric starts inside stops =>
    simp only [scan, starts, if_true, takeWhile_append_of_stops inside stops]
  | ident starts inside stops =>
    simp [scan, not_startsNumeric_of_startsIdent starts, starts,
      takeWhile_append_of_stops inside stops]
  | @quoted body opens inside =>
    have hstop : Stops (inQuoted c) ([c] ++ more).head? := by
      rintro _ ⟨rfl⟩
      simp [inQuoted]
    have hbody := takeWhile_append_of_stops inside hstop
    rw [List.append_assoc]
    simp only [scan, (not_starts_of_isQuote opens).1, (not_starts_of_isQuote opens).2, opens, hbody]
    simp
  | unclosed opens inside ends =>
    have hstop : Stops (inQuoted c) more.head? := by
      intro d hd
      simp [inQuoted, ends d hd]
    have hopen : more.head? ≠ some c := by
      intro hd
      obtain rfl := ends c hd
      exact absurd opens (by decide)
    have hbody := takeWhile_append_of_stops inside hstop
    simp [scan, (not_starts_of_isQuote opens).1, (not_starts_of_isQuote opens).2, opens, hbody,
      hopen]
  | mark numeric ident quote => simp [scan, numeric, ident, quote]

/-- Every character starts a token, or is taken with some others that make none. -/
theorem exists_scanned (c : Char) (rest : List Char) :
    ∃ t tail more, rest = tail ++ more ∧ Scanned more.head? c tail t := by
  have hsplit : ∀ p : Char → Bool, rest = rest.takeWhile p ++ rest.dropWhile p := by
    intro p
    exact List.takeWhile_append_dropWhile.symm
  have htaken : ∀ (p : Char → Bool) d, d ∈ rest.takeWhile p → p d = true := by
    intro p d hd
    exact List.mem_takeWhile_imp hd
  cases hnumeric : startsNumeric c with
  | true =>
    exact ⟨_, _, _, hsplit inNumeric, .numeric hnumeric (htaken _) (stops_dropWhile _ _)⟩
  | false =>
  cases hident : startsIdent c with
  | true => exact ⟨_, _, _, hsplit inIdent, .ident hident (htaken _) (stops_dropWhile _ _)⟩
  | false =>
  cases hquote : isQuote c with
  | false => exact ⟨_, [], rest, rfl, .mark hnumeric hident hquote⟩
  | true =>
    have hstop := stops_dropWhile (inQuoted c) rest
    have hbody := hsplit (inQuoted c)
    -- What stops a quoted text is its closing quote or the end of the line.
    cases hmore : rest.dropWhile (inQuoted c) with
    | nil =>
      rw [hmore] at hbody
      exact ⟨_, _, _, hbody, .unclosed hquote (htaken _) nofun⟩
    | cons d more =>
      rw [hmore] at hstop hbody
      by_cases hd : d = c
      · subst hd
        exact ⟨_, _, more, hbody.trans (by simp), .quoted hquote (htaken _)⟩
      · refine ⟨_, _, _, hbody, .unclosed hquote (htaken _) ?_⟩
        rintro _ ⟨rfl⟩
        have hnot := hstop d rfl
        simpa [inQuoted, hd] using hnot

/-! ## 2. The tokens of a text -/

/-- A text is made of tokens, with gaps between them, where `next` comes behind it. -/
inductive Lexes (next : Option Char) : List Char → List (Option Token) → Prop
  | nil : Lexes next [] []
  | gap {c : Char} {text : List Char} {tokens : List (Option Token)} (gap : isGap c = true)
      (rest : Lexes next text tokens) : Lexes next (c :: text) tokens
  | token {c : Char} {tail text : List Char} {t : Option Token} {tokens : List (Option Token)}
      (solid : isGap c = false) (scanned : Scanned (text.head?.or next) c tail t)
      (rest : Lexes next text tokens) : Lexes next (c :: (tail ++ text)) (t :: tokens)

def IsGaps (text : List Char) : Prop := ∀ d ∈ text, isGap d = true

/-- A text that does not begin or end with a gap. -/
structure IsTight (text : List Char) : Prop where
  first : ∃ c, text.head? = some c ∧ isGap c = false
  last : ∃ c, text.getLast? = some c ∧ isGap c = false

theorem Lexes.gaps (h : Lexes next text tokens) (htail : IsGaps tail) :
    Lexes next (tail ++ text) tokens := by
  induction tail with
  | nil => exact h
  | cons c tail ih => exact .gap (htail c List.mem_cons_self) (ih fun d hd => htail d (.tail c hd))

/-- Lexemes take up a text, from its first character at `k` to its last. -/
structure Spells (k : Nat) (text : List Char) (ls : List Lexeme) : Prop where
  start : ls.head?.map (·.start) = some k
  stop : ls.getLast?.map (·.stop) = some (k + Text.byteLength text)

theorem Spells.ne_nil (h : Spells k text ls) : ls ≠ [] := by
  rintro rfl
  exact nomatch h.start

theorem lexFrom_nil (k : Nat) : lexFrom k [] = [] := by
  rw [lexFrom]

theorem lexFrom_gap (h : isGap c = true) (k : Nat) (text : List Char) :
    lexFrom k (c :: text) = lexFrom (k + c.utf8Size) text := by
  rw [lexFrom, if_pos h]

theorem lexFrom_gaps (h : IsGaps tail) (k : Nat) (text : List Char) :
    lexFrom k (tail ++ text) = lexFrom (k + Text.byteLength tail) text := by
  induction tail generalizing k with
  | nil => rfl
  | cons c tail ih =>
    rw [List.cons_append, lexFrom_gap (h c List.mem_cons_self), ih fun d hd => h d (.tail c hd),
      Text.byteLength_cons, Nat.add_assoc]

theorem lexFrom_token (hc : isGap c = false) (h : Scanned more.head? c tail t) (k : Nat) :
    lexFrom k (c :: (tail ++ more)) =
      ⟨t, k, k + Text.byteLength (c :: tail)⟩ ::
        lexFrom (k + Text.byteLength (c :: tail)) more := by
  rw [lexFrom]
  simp [hc, h.scan_eq]

/-- The lexer finds the tokens of a text, wherever it stands. -/
theorem Lexes.lexFrom_append (h : Lexes more.head? text tokens) (k : Nat) :
    ∃ ls, lexFrom k (text ++ more) = ls ++ lexFrom (k + Text.byteLength text) more ∧
      ls.map (·.token) = tokens ∧
      (∀ c, text.head? = some c → isGap c = false → ls.head?.map (·.start) = some k) ∧
      ∀ c, text.getLast? = some c → isGap c = false →
        ls.getLast?.map (·.stop) = some (k + Text.byteLength text) := by
  induction h generalizing k with
  | nil => exact ⟨[], rfl, rfl, nofun, nofun⟩
  | @gap c text tokens gap rest ih =>
    obtain ⟨ls, hls, htokens, _, hstop⟩ := ih (k + c.utf8Size)
    refine ⟨ls, ?_, htokens, ?_, ?_⟩
    · rw [List.cons_append, lexFrom_gap gap, hls, Text.byteLength_cons, Nat.add_assoc]
    · rintro _ ⟨rfl⟩ hsolid
      exact absurd gap (Bool.eq_false_iff.mp hsolid)
    · intro d hd hsolid
      cases text with
      | nil =>
        obtain ⟨rfl⟩ := hd
        exact absurd gap (Bool.eq_false_iff.mp hsolid)
      | cons e text =>
        rw [hstop d (by rwa [List.getLast?_cons_cons] at hd) hsolid]
        simp only [Text.byteLength_cons, Nat.add_assoc]
  | @token c tail text t tokens solid scanned rest ih =>
    rw [← List.head?_append] at scanned
    obtain ⟨ls, hls, htokens, _, hstop⟩ := ih (k + Text.byteLength (c :: tail))
    refine ⟨⟨t, k, k + Text.byteLength (c :: tail)⟩ :: ls, ?_, ?_, ?_, ?_⟩
    · rw [List.cons_append, List.append_assoc, lexFrom_token solid scanned, hls]
      simp only [Text.byteLength_cons, Text.byteLength_append, List.cons_append, Nat.add_assoc]
    · rw [List.map_cons, htokens]
    · intro _ _ _
      rfl
    · intro d hd hsolid
      cases text with
      | nil =>
        cases rest
        obtain rfl := List.map_eq_nil_iff.mp htokens
        simp
      | cons e text =>
        rw [← List.cons_append, List.getLast?_append, List.getLast?_cons, Option.some_or,
          ← List.getLast?_cons] at hd
        obtain ⟨l, hl, hl_stop⟩ := Option.map_eq_some_iff.mp (hstop d hd hsolid)
        rw [List.getLast?_cons, hl, Option.getD_some, Option.map_some, hl_stop]
        simp only [Text.byteLength_cons, Text.byteLength_append, Nat.add_assoc]

theorem Lexes.exists_spells (h : Lexes more.head? text tokens) (htight : IsTight text) (k : Nat) :
    ∃ ls, lexFrom k (text ++ more) = ls ++ lexFrom (k + Text.byteLength text) more ∧
      ls.map (·.token) = tokens ∧ Spells k text ls := by
  obtain ⟨ls, hls, htokens, hstart, hstop⟩ := h.lexFrom_append k
  obtain ⟨first, hfirst, hfirst_solid⟩ := htight.first
  obtain ⟨last, hlast, hlast_solid⟩ := htight.last
  exact ⟨ls, hls, htokens, hstart first hfirst hfirst_solid, hstop last hlast hlast_solid⟩

/-! ## 3. The text of some lexemes -/

theorem not_isGap_of_inIdent (h : inIdent c = true) : isGap c = false := by
  rw [Bool.eq_false_iff]
  intro hgap
  simp only [isGap, Bool.or_eq_true, decide_eq_true_eq] at hgap
  rcases hgap with ((rfl | rfl) | rfl) | rfl <;> exact absurd h (by decide)

theorem not_mem_of_inIdent {marks : List Char} (h : inIdent c = true)
    (hmarks : ∀ d ∈ marks, inIdent d = false) : c ∉ marks :=
  fun hmem => Bool.eq_false_iff.mp (hmarks c hmem) h

theorem inIdent_of_inNumeric (h : inNumeric c = true) : inIdent c = true := by
  simp only [inIdent, h, Bool.true_or]

theorem inNumeric_of_startsNumeric (h : startsNumeric c = true) : inNumeric c = true := by
  simp only [inNumeric, h, Bool.true_or]

theorem inIdent_of_startsIdent (h : startsIdent c = true) : inIdent c = true := by
  simp only [startsIdent, Bool.and_eq_true] at h
  exact h.1

/-- A token ends with a character that is no gap, other than an open quote. -/
theorem Scanned.last_solid (h : Scanned next c tail t) (hc : isGap c = false) :
    (∃ d, (c :: tail).getLast? = some d ∧ isGap d = false) ∨ ∀ d, next = some d → d = '\n' := by
  have hall : (∀ d ∈ c :: tail, isGap d = false) →
      ∃ d, (c :: tail).getLast? = some d ∧ isGap d = false := by
    intro hsolid
    exact ⟨_, List.getLast?_eq_some_getLast (List.cons_ne_nil c tail),
      hsolid _ (List.getLast_mem _)⟩
  cases h with
  | numeric starts inside stops =>
    refine .inl (hall ?_)
    rintro d (_ | ⟨_, hd⟩)
    · exact hc
    · exact not_isGap_of_inIdent (inIdent_of_inNumeric (inside d hd))
  | ident starts inside stops =>
    refine .inl (hall ?_)
    rintro d (_ | ⟨_, hd⟩)
    · exact hc
    · exact not_isGap_of_inIdent (inside d hd)
  | @quoted body opens inside =>
    refine .inl ⟨c, ?_, hc⟩
    rw [← List.cons_append, List.getLast?_concat]
  | unclosed opens inside ends => exact .inr ends
  | mark => exact .inl ⟨c, rfl, hc⟩

theorem isGaps_of_lexFrom_eq_nil (h : lexFrom k text = []) : IsGaps text := by
  induction text generalizing k with
  | nil => exact nofun
  | cons c text ih =>
    cases hc : isGap c with
    | true =>
      rw [lexFrom_gap hc] at h
      rintro d (_ | ⟨_, hd⟩)
      · exact hc
      · exact ih h d hd
    | false =>
      obtain ⟨t, tail, more, rfl, hscanned⟩ := exists_scanned c text
      rw [lexFrom_token hc hscanned] at h
      exact nomatch h

theorem exists_of_lexFrom_eq_cons {l : Lexeme} (h : lexFrom k text = l :: ls) :
    ∃ gaps c tail more, text = gaps ++ c :: (tail ++ more) ∧ IsGaps gaps ∧ isGap c = false ∧
      Scanned more.head? c tail l.token ∧ l.start = k + Text.byteLength gaps ∧
      l.stop = k + Text.byteLength gaps + Text.byteLength (c :: tail) ∧
      lexFrom l.stop more = ls := by
  induction text generalizing k with
  | nil =>
    rw [lexFrom] at h
    cases h
  | cons c text ih =>
    cases hc : isGap c with
    | true =>
      rw [lexFrom_gap hc] at h
      obtain ⟨gaps, d, tail, more, rfl, hgaps, hd, hscanned, hstart, hstop, hls⟩ := ih h
      refine ⟨c :: gaps, d, tail, more, rfl, ?_, hd, hscanned, ?_, ?_, hls⟩
      · rintro e (_ | ⟨_, he⟩)
        · exact hc
        · exact hgaps e he
      · rw [hstart, Text.byteLength_cons, Nat.add_assoc]
      · rw [hstop, Text.byteLength_cons c gaps, Nat.add_assoc k]
    | false =>
      obtain ⟨t, tail, more, rfl, hscanned⟩ := exists_scanned c text
      rw [lexFrom_token hc hscanned] at h
      obtain ⟨rfl, rfl⟩ := List.cons.inj h
      exact ⟨[], c, tail, more, rfl, List.forall_mem_nil _, hc, hscanned, rfl, rfl, rfl⟩

theorem Lexes.single (hc : isGap c = false) (h : Scanned next c tail t) :
    Lexes next (c :: tail) [t] := by
  have hlexes : Lexes next (c :: (tail ++ [])) [t] := .token hc h .nil
  rwa [List.append_nil] at hlexes

/-- The first lexemes of a text take up a piece of it behind some gaps. -/
theorem exists_spells_of_lexFrom {front back : List Lexeme} (h : lexFrom k text = front ++ back)
    (hne : front ≠ []) :
    ∃ gaps piece more, text = gaps ++ (piece ++ more) ∧ IsGaps gaps ∧
      Lexes more.head? piece (front.map (·.token)) ∧ Spells (k + Text.byteLength gaps) piece front ∧
      lexFrom (k + Text.byteLength gaps + Text.byteLength piece) more = back ∧
      (∃ c, piece.head? = some c ∧ isGap c = false) ∧
      ((∃ c, piece.getLast? = some c ∧ isGap c = false) ∨ ∀ d, more.head? = some d → d = '\n') := by
  induction front generalizing k text with
  | nil => exact absurd rfl hne
  | cons l front ih =>
    obtain ⟨gaps, c, tail, more, rfl, hgaps, hc, hscanned, hstart, hstop, hrest⟩ :=
      exists_of_lexFrom_eq_cons h
    cases front with
    | nil =>
      refine ⟨gaps, c :: tail, more, rfl, hgaps, .single hc hscanned, ⟨?_, ?_⟩, ?_,
        ⟨c, rfl, hc⟩, hscanned.last_solid hc⟩
      · exact congrArg some hstart
      · exact congrArg some hstop
      · rw [← hstop]
        exact hrest
    | cons l' front =>
      obtain ⟨gaps', piece, more', rfl, hgaps', hlexes, hspells, hback, hfirst, hlast⟩ :=
        ih hrest (List.cons_ne_nil l' front)
      rw [← List.append_assoc, List.head?_append] at hscanned
      have hlength : k + Text.byteLength gaps + Text.byteLength (c :: (tail ++ (gaps' ++ piece))) =
          l.stop + Text.byteLength gaps' + Text.byteLength piece := by
        rw [hstop]
        simp only [Text.byteLength_cons, Text.byteLength_append]
        omega
      refine ⟨gaps, c :: (tail ++ (gaps' ++ piece)), more', by simp, hgaps,
        .token hc hscanned (hlexes.gaps hgaps'), ⟨congrArg some hstart, ?_⟩, ?_, ⟨c, rfl, hc⟩, ?_⟩
      · rw [List.getLast?_cons_cons, hlength]
        exact hspells.stop
      · rw [hlength]
        exact hback
      · refine hlast.imp_left ?_
        rintro ⟨d, hd, hsolid⟩
        refine ⟨d, ?_, hsolid⟩
        rw [← List.append_assoc, ← List.cons_append, List.getLast?_append, hd]
        rfl

/-! ## 4. Another place -/

variable {next' : Option Char} {text' : List Char} {tokens' : List (Option Token)}

/-- A line goes on behind a text. -/
def GoesOn (next : Option Char) : Prop := ∃ d, next = some d ∧ d ≠ '\n'

theorem Stops.inNumeric (h : Stops inIdent next) : Stops inNumeric next := by
  intro d hd
  rw [Bool.eq_false_iff]
  intro hin
  exact Bool.eq_false_iff.mp (h d hd) (inIdent_of_inNumeric hin)

/-- On a line that goes on, the next character can be any other that goes on no word. -/
theorem Scanned.follow (h : Scanned next c tail t) (hnext : GoesOn next)
    (hstops : Stops inIdent next') : Scanned next' c tail t := by
  cases h with
  | numeric starts inside stops => exact .numeric starts inside hstops.inNumeric
  | ident starts inside stops => exact .ident starts inside hstops
  | quoted opens inside => exact .quoted opens inside
  | unclosed opens inside ends =>
    obtain ⟨d, hd, hline⟩ := hnext
    exact absurd (ends d hd) hline
  | mark numeric ident quote => exact .mark numeric ident quote

theorem Lexes.follow (h : Lexes next text tokens) (hnext : GoesOn next)
    (hstops : Stops inIdent next') : Lexes next' text tokens := by
  induction h with
  | nil => exact .nil
  | gap gap rest ih => exact .gap gap ih
  | @token c tail text t tokens solid scanned rest ih =>
    cases text with
    | nil => exact .token solid (scanned.follow hnext hstops) ih
    | cons e text => exact .token solid scanned ih

theorem Lexes.append (h : Lexes (text'.head?.or next) text tokens)
    (h' : Lexes next text' tokens') : Lexes next (text ++ text') (tokens ++ tokens') := by
  induction h with
  | nil => exact h'
  | gap gap rest ih => exact .gap gap ih
  | token solid scanned rest ih =>
    rw [List.cons_append, List.append_assoc]
    refine .token solid ?_ ih
    rwa [List.head?_append, Option.or_assoc]

theorem Lexes.exists_of_append (h : Lexes next text (tokens ++ tokens')) :
    ∃ front back, text = front ++ back ∧ Lexes (back.head?.or next) front tokens ∧
      Lexes next back tokens' := by
  generalize hall : tokens ++ tokens' = all at h
  induction h generalizing tokens with
  | nil =>
    obtain ⟨rfl, rfl⟩ := List.append_eq_nil_iff.mp hall
    exact ⟨[], [], rfl, .nil, .nil⟩
  | @gap c text all gap rest ih =>
    obtain ⟨front, back, rfl, hfront, hback⟩ := ih hall
    exact ⟨c :: front, back, rfl, .gap gap hfront, hback⟩
  | @token c tail text t all solid scanned rest ih =>
    cases tokens with
    | nil =>
      obtain rfl : tokens' = t :: all := hall
      exact ⟨[], _, rfl, .nil, .token solid scanned rest⟩
    | cons t' tokens =>
      obtain ⟨rfl, hrest⟩ := List.cons.inj hall
      obtain ⟨front, back, rfl, hfront, hback⟩ := ih hrest
      rw [List.head?_append, Option.or_assoc] at scanned
      exact ⟨c :: (tail ++ front), back, by simp, .token solid scanned hfront, hback⟩

/-! ## 5. Single tokens -/

/-- A text that is a single number: a digit, and any of these, letters and underscores behind it. -/
def IsNumber (name : String) : Prop :=
  ∃ c rest, name.toList = c :: rest ∧ startsNumeric c = true ∧ rest.all inNumeric = true

theorem IsWord.scanned {name : String} (h : IsWord name) (hstops : Stops inIdent next) :
    ∃ c rest, name.toList = c :: rest ∧ isGap c = false ∧
      Scanned next c rest (some (.ident name)) := by
  obtain ⟨c, rest, hname, hc, hrest⟩ := h
  have hscanned : Scanned next c rest (some (.ident (String.ofList (c :: rest)))) :=
    .ident hc (List.all_eq_true.mp hrest) hstops
  rw [← hname, String.ofList_toList] at hscanned
  exact ⟨c, rest, hname, not_isGap_of_startsIdent hc, hscanned⟩

theorem IsNumber.scanned {name : String} (h : IsNumber name) (hstops : Stops inIdent next) :
    ∃ c rest, name.toList = c :: rest ∧ isGap c = false ∧
      Scanned next c rest (some (.numeric name)) := by
  obtain ⟨c, rest, hname, hc, hrest⟩ := h
  have hscanned : Scanned next c rest (some (.numeric (String.ofList (c :: rest)))) :=
    .numeric hc (List.all_eq_true.mp hrest) hstops.inNumeric
  rw [← hname, String.ofList_toList] at hscanned
  have hin := inIdent_of_inNumeric (inNumeric_of_startsNumeric hc)
  exact ⟨c, rest, hname, not_isGap_of_inIdent hin, hscanned⟩

theorem IsWord.lexes {name : String} (h : IsWord name) (hstops : Stops inIdent next) :
    Lexes next name.toList [some (.ident name)] := by
  obtain ⟨c, rest, hname, hc, hscanned⟩ := h.scanned hstops
  rw [hname]
  exact .single hc hscanned

theorem IsNumber.lexes {name : String} (h : IsNumber name) (hstops : Stops inIdent next) :
    Lexes next name.toList [some (.numeric name)] := by
  obtain ⟨c, rest, hname, hc, hscanned⟩ := h.scanned hstops
  rw [hname]
  exact .single hc hscanned

theorem not_isGap_of_ofMark? {m : Token} (h : ofMark? c = some m) : isGap c = false := by
  unfold ofMark? at h
  split at h <;> first | decide | exact nomatch h

theorem starts_of_ofMark? {m : Token} (h : ofMark? c = some m) :
    startsNumeric c = false ∧ startsIdent c = false ∧ isQuote c = false := by
  unfold ofMark? at h
  split at h <;> first | decide | exact nomatch h

theorem scanned_of_ofMark? {m : Token} (h : ofMark? c = some m) : Scanned next c [] (some m) := by
  obtain ⟨hnumeric, hident, hquote⟩ := starts_of_ofMark? h
  rw [← h]
  exact .mark hnumeric hident hquote

theorem Scanned.of_ofMark? {m : Token} (h : Scanned next c tail t) (hm : ofMark? c = some m) :
    tail = [] ∧ t = some m := by
  obtain ⟨hnumeric, hident, hquote⟩ := starts_of_ofMark? hm
  cases h with
  | numeric starts => exact nomatch hnumeric.symm.trans starts
  | ident starts => exact nomatch hident.symm.trans starts
  | quoted opens | unclosed opens => exact nomatch hquote.symm.trans opens
  | mark => exact ⟨rfl, hm⟩

theorem Lexes.mark {m : Token} (h : Lexes next text tokens) (hm : ofMark? c = some m) :
    Lexes next (c :: text) (some m :: tokens) :=
  .token (not_isGap_of_ofMark? hm) (scanned_of_ofMark? hm) h

/-- The kinds of token that are one fixed character. -/
def isMark : Token → Bool
  | .numeric _ | .ident _ | .quoted _ => false
  | _ => true

theorem isMark_of_ofMark? {m : Token} (h : ofMark? c = some m) : isMark m = true := by
  unfold ofMark? at h
  split at h <;> first | (obtain rfl := Option.some.inj h; rfl) | exact nomatch h

theorem Scanned.of_isMark {m : Token} (h : Scanned next c tail (some m)) (hm : isMark m = true) :
    tail = [] ∧ ofMark? c = some m := by
  obtain ⟨t, ht⟩ : ∃ t, t = some m := ⟨_, rfl⟩
  rw [← ht] at h
  cases h with
  | numeric | ident | quoted =>
    obtain rfl := Option.some.inj ht
    exact nomatch hm
  | unclosed => exact nomatch ht
  | mark => exact ⟨rfl, ht⟩

theorem Lexes.exists_of_cons (h : Lexes next text (t :: tokens)) :
    ∃ gaps c tail more, text = gaps ++ (c :: (tail ++ more)) ∧ IsGaps gaps ∧ isGap c = false ∧
      Scanned (more.head?.or next) c tail t ∧ Lexes next more tokens := by
  generalize hall : t :: tokens = all at h
  induction h with
  | nil => exact nomatch hall
  | @gap c text all gap rest ih =>
    obtain ⟨gaps, d, tail, more, rfl, hgaps, hd, hscanned, hmore⟩ := ih hall
    refine ⟨c :: gaps, d, tail, more, rfl, ?_, hd, hscanned, hmore⟩
    rintro e (_ | ⟨_, he⟩)
    · exact gap
    · exact hgaps e he
  | @token c tail text t' all solid scanned rest ih =>
    obtain ⟨rfl, rfl⟩ := List.cons.inj hall
    exact ⟨[], c, tail, text, rfl, nofun, solid, scanned, rest⟩

theorem render_of_ofMark? {m : Token} (h : ofMark? c = some m) : m.render = String.ofList [c] := by
  unfold ofMark? at h
  split at h <;> first | (obtain rfl := Option.some.inj h; rfl) | exact nomatch h

theorem ofMark?_inj {d : Char} {m : Token} (hc : ofMark? c = some m) (hd : ofMark? d = some m) :
    c = d := by
  have hrender := (render_of_ofMark? hc).symm.trans (render_of_ofMark? hd)
  exact List.head_eq_of_cons_eq (String.ofList_inj.mp hrender)

theorem eq_nil_of_first {gaps : List Char} (hgaps : IsGaps gaps)
    (hfirst : ∃ c, (gaps ++ text).head? = some c ∧ isGap c = false) : gaps = [] := by
  cases gaps with
  | nil => rfl
  | cons d gaps =>
    obtain ⟨_, ⟨rfl⟩, hsolid⟩ := hfirst
    exact absurd (hgaps d List.mem_cons_self) (Bool.eq_false_iff.mp hsolid)

/-- A text that begins with a mark begins with its character. -/
theorem Lexes.exists_of_mark {m : Token} {d : Char} (h : Lexes next text (some m :: tokens))
    (hd : ofMark? d = some m) (hm : isMark m = true)
    (hfirst : ∃ c, text.head? = some c ∧ isGap c = false) :
    ∃ rest, text = d :: rest ∧ Lexes next rest tokens := by
  obtain ⟨gaps, c, tail, more, rfl, hgaps, hc, hscanned, hmore⟩ := h.exists_of_cons
  obtain ⟨rfl, hmark⟩ := hscanned.of_isMark hm
  obtain rfl := ofMark?_inj hmark hd
  obtain rfl := eq_nil_of_first hgaps hfirst
  exact ⟨more, rfl, hmore⟩

theorem Lexes.exists_of_cons_mark {m : Token} (h : Lexes next (c :: text) tokens)
    (hm : ofMark? c = some m) : ∃ us, tokens = some m :: us ∧ Lexes next text us := by
  generalize hall : c :: text = all at h
  cases h with
  | nil => exact nomatch hall
  | gap gap rest =>
    obtain ⟨rfl, _⟩ := List.cons.inj hall
    exact absurd gap (Bool.eq_false_iff.mp (not_isGap_of_ofMark? hm))
  | token solid scanned rest =>
    obtain ⟨rfl, htext⟩ := List.cons.inj hall
    obtain ⟨rfl, rfl⟩ := scanned.of_ofMark? hm
    rw [htext]
    exact ⟨_, rfl, rest⟩

theorem Scanned.isWord {name : String} (h : Scanned next c tail (some (.ident name))) :
    IsWord name := by
  obtain ⟨t, ht⟩ : ∃ t, t = some (Token.ident name) := ⟨_, rfl⟩
  rw [← ht] at h
  cases h with
  | ident starts inside _ =>
    obtain rfl := Token.ident.inj (Option.some.inj ht)
    exact ⟨c, tail, String.toList_ofList, starts, List.all_eq_true.mpr inside⟩
  | numeric | quoted | unclosed => exact nomatch ht
  | mark => exact nomatch isMark_of_ofMark? ht

theorem Scanned.isNumber {name : String} (h : Scanned next c tail (some (.numeric name))) :
    IsNumber name := by
  obtain ⟨t, ht⟩ : ∃ t, t = some (Token.numeric name) := ⟨_, rfl⟩
  rw [← ht] at h
  cases h with
  | numeric starts inside _ =>
    obtain rfl := Token.numeric.inj (Option.some.inj ht)
    exact ⟨c, tail, String.toList_ofList, starts, List.all_eq_true.mpr inside⟩
  | ident | quoted | unclosed => exact nomatch ht
  | mark => exact nomatch isMark_of_ofMark? ht

/-- Every token of a text was scanned somewhere in it. -/
theorem Lexes.exists_scanned (h : Lexes next text tokens) (ht : t ∈ tokens) :
    ∃ next c tail, Scanned next c tail t := by
  induction h with
  | nil => exact nomatch ht
  | gap gap rest ih => exact ih ht
  | token solid scanned rest ih =>
    rcases List.mem_cons.mp ht with rfl | ht
    · exact ⟨_, _, _, scanned⟩
    · exact ih ht

theorem Lexes.isWord {name : String} (h : Lexes next text tokens)
    (hname : some (.ident name) ∈ tokens) : IsWord name := by
  obtain ⟨_, _, _, hscanned⟩ := h.exists_scanned hname
  exact hscanned.isWord

theorem Lexes.isNumber {name : String} (h : Lexes next text tokens)
    (hname : some (.numeric name) ∈ tokens) : IsNumber name := by
  obtain ⟨_, _, _, hscanned⟩ := h.exists_scanned hname
  exact hscanned.isNumber

/-! ## 6. Whole texts -/

/-- The tokens of a whole text are those that the lexer finds. -/
theorem Lexes.map_token_lex (h : Lexes none text tokens) : (lex text).map (·.token) = tokens := by
  have hend : Lexes ([] : List Char).head? text tokens := h
  obtain ⟨ls, hls, htokens, _⟩ := hend.lexFrom_append 0
  rw [List.append_nil, lexFrom_nil, List.append_nil] at hls
  rw [lex, hls, htokens]

theorem exists_lexes (text : List Char) : ∃ tokens, Lexes none text tokens := by
  match text with
  | [] => exact ⟨[], .nil⟩
  | c :: rest =>
    cases hc : isGap c with
    | true =>
      obtain ⟨tokens, h⟩ := exists_lexes rest
      exact ⟨tokens, .gap hc h⟩
    | false =>
      obtain ⟨t, tail, more, hrest, hscanned⟩ := exists_scanned c rest
      have hshorter : more.length < (c :: rest).length := by
        rw [hrest, List.length_cons, List.length_append]
        omega
      obtain ⟨tokens, h⟩ := exists_lexes more
      rw [hrest]
      rw [← Option.or_none (o := more.head?)] at hscanned
      exact ⟨t :: tokens, .token hc hscanned h⟩
termination_by text.length

theorem lexes_lex (text : List Char) : Lexes none text ((lex text).map (·.token)) := by
  obtain ⟨tokens, h⟩ := exists_lexes text
  rwa [h.map_token_lex]

/-- A token is shown by the characters that make it. -/
theorem Scanned.toList_render {m : Token} (h : Scanned next c tail (some m)) :
    m.render.toList = c :: tail := by
  obtain ⟨t, ht⟩ : ∃ t, t = some m := ⟨_, rfl⟩
  rw [← ht] at h
  cases h with
  | numeric | ident | quoted =>
    obtain rfl := Option.some.inj ht
    exact String.toList_ofList
  | unclosed => exact nomatch ht
  | mark => rw [render_of_ofMark? ht, String.toList_ofList]

/-- A text that begins with a token begins with the first character of it. -/
theorem Lexes.head?_eq {m : Token} (h : Lexes next text (some m :: tokens))
    (hfirst : ∃ c, text.head? = some c ∧ isGap c = false) :
    text.head? = m.render.toList.head? := by
  obtain ⟨gaps, c, tail, more, rfl, hgaps, _, hscanned, _⟩ := h.exists_of_cons
  obtain rfl := eq_nil_of_first hgaps hfirst
  rw [hscanned.toList_render]
  rfl

theorem Lexes.isGaps (h : Lexes next text []) : IsGaps text := by
  generalize hnil : [] = tokens at h
  induction h with
  | nil => exact nofun
  | gap gap _ ih =>
    rintro d (_ | ⟨_, hd⟩)
    · exact gap
    · exact ih hnil d hd
  | token => exact nomatch hnil

/-- A text of one token, with no gaps around it, is what that is shown by. -/
theorem Lexes.eq_render {m : Token} (h : Lexes next text [some m]) (htight : IsTight text) :
    text = m.render.toList := by
  obtain ⟨gaps, c, tail, more, rfl, hgaps, _, hscanned, hmore⟩ := h.exists_of_cons
  obtain rfl := eq_nil_of_first hgaps htight.first
  rw [hscanned.toList_render]
  cases hend : more.getLast? with
  | none =>
    rw [List.getLast?_eq_none_iff.mp hend, List.append_nil]
    rfl
  | some d =>
    obtain ⟨e, hlast, hsolid⟩ := htight.last
    rw [List.nil_append, ← List.cons_append, List.getLast?_append, hend] at hlast
    obtain rfl := Option.some.inj hlast
    exact absurd (hmore.isGaps d (List.mem_of_getLast? hend)) (Bool.eq_false_iff.mp hsolid)

/-- The character of a mark is in the text. -/
theorem Lexes.mem_of_mark {m : Token} {d : Char} (h : Lexes next text tokens)
    (hmem : some m ∈ tokens) (hd : ofMark? d = some m) : d ∈ text := by
  induction h with
  | nil => exact nomatch hmem
  | gap gap rest ih => exact .tail _ (ih hmem)
  | @token c tail text t tokens solid scanned rest ih =>
    rcases List.mem_cons.mp hmem with rfl | hmem
    · obtain ⟨_, hc⟩ := scanned.of_isMark (isMark_of_ofMark? hd)
      rw [ofMark?_inj hd hc]
      exact List.mem_cons_self
    · exact .tail _ (List.mem_append_right tail (ih hmem))

end Token
end Mcs51
