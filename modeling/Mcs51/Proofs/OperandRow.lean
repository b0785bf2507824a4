import Mcs51.Line
import Mcs51.Proofs.OperandText

/-!
# Operands in a row

The operands of a line are read from the lexemes between its commas, and each from the piece of text
that its lexemes span. `Series` puts such pieces together: it says that a text is some operands,
with commas and gaps between them, up to the end of a line. Where no slot for an operand is empty,
what is left of a line is a series (`exists_series`). What it is shown by is a series of the same
operands (`Series.exists_render`), and a series is read as its operands wherever it stands
(`Series.reads`).
-/

namespace Mcs51
namespace Line

open Token (Lexes Spells IsGaps Stops GoesOn inIdent isGap lexFrom Milder)
open Operand (Written)
open Text (byteLength EndsSolid InLine)

variable {code text gaps pre : List Char} {tokens : List (Option Token)} {ops : List Operand}
  {ls : List Lexeme} {k : Nat}

/-! ## 1. Groups of lexemes -/

/-- Whether a lexeme separates operands. -/
def separates (l : Lexeme) : Bool := l.token = some .comma

theorem operandGroups_eq (ls : List Lexeme) :
    operandGroups ls = (ls.splitOnP separates).filter (· ≠ []) :=
  rfl

/-- The slots for operands: the lexemes before the first comma, between two commas, or behind the
last one. Without any lexeme there is no slot. -/
def slots (lexemes : List Lexeme) : List (List Lexeme) :=
  if lexemes = [] then [] else lexemes.splitOnP separates

theorem slots_of_ne_nil (h : ls ≠ []) : slots ls = ls.splitOnP separates :=
  if_neg h

/-- Groups are slots that hold anything. -/
theorem operandGroups_of_slots (h : [] ∉ slots ls) : operandGroups ls = slots ls := by
  by_cases hne : ls = []
  · subst hne
    rfl
  · rw [slots_of_ne_nil hne] at h ⊢
    rw [operandGroups_eq, List.filter_eq_self]
    intro group hgroup
    refine decide_eq_true ?_
    rintro rfl
    exact h hgroup

theorem splitOnP_cases {α : Type} (p : α → Bool) (xs : List α) :
    (∀ x ∈ xs, p x = false) ∧ xs.splitOnP p = [xs] ∨
      ∃ front sep back, xs = front ++ sep :: back ∧ (∀ x ∈ front, p x = false) ∧ p sep = true ∧
        xs.splitOnP p = front :: back.splitOnP p := by
  induction xs with
  | nil => exact .inl ⟨nofun, rfl⟩
  | cons x xs ih =>
    cases hx : p x with
    | true =>
      have hnone : ∀ y ∈ ([] : List α), p y = false := nofun
      exact .inr ⟨[], x, xs, rfl, hnone, hx,
        List.splitOnP_append_cons_of_forall_mem hnone x hx xs⟩
    | false =>
      have hcons : ∀ {ys : List α}, (∀ y ∈ ys, p y = false) → ∀ y ∈ x :: ys, p y = false := by
        rintro ys hys y (_ | ⟨_, hy⟩)
        · exact hx
        · exact hys y hy
      rcases ih with ⟨hno, _⟩ | ⟨front, sep, back, rfl, hfront, hsep, _⟩
      · exact .inl ⟨hcons hno, List.splitOnP_eq_singleton (hcons hno)⟩
      · refine .inr ⟨x :: front, sep, back, rfl, hcons hfront, hsep, ?_⟩
        exact List.splitOnP_append_cons_of_forall_mem (hcons hfront) sep hsep back

/-- A piece of a split is a part of what is split. -/
theorem exists_of_mem_splitOnP {α : Type} {p : α → Bool} {xs group : List α}
    (h : group ∈ xs.splitOnP p) : ∃ front back, xs = front ++ (group ++ back) := by
  rcases splitOnP_cases p xs with ⟨-, hsplit⟩ | ⟨front, sep, back, rfl, -, -, hsplit⟩
  · rw [hsplit] at h
    obtain rfl := List.mem_singleton.mp h
    exact ⟨[], [], by simp⟩
  · rw [hsplit] at h
    rcases List.mem_cons.mp h with rfl | h
    · exact ⟨[], sep :: back, rfl⟩
    · obtain ⟨before, after, hback⟩ := exists_of_mem_splitOnP h
      exact ⟨front ++ sep :: before, after, by rw [hback]; simp⟩
termination_by xs.length

theorem exists_of_mem_operandGroups {group : List Lexeme} (h : group ∈ operandGroups ls) :
    group ≠ [] ∧ ∃ front back, ls = front ++ (group ++ back) := by
  rw [operandGroups_eq] at h
  obtain ⟨hmem, hne⟩ := List.mem_filter.mp h
  exact ⟨of_decide_eq_true hne, exists_of_mem_splitOnP hmem⟩

/-- A group has the text that it takes up. -/
theorem groupText_of_spells {piece more : List Char} (h : Spells (byteLength pre) piece ls) :
    groupText (pre ++ (piece ++ more)) ls = .ok piece := by
  unfold groupText
  rw [h.start, h.stop]
  dsimp only [Option.getD_some]
  rw [Text.slice?_append]
  rfl

theorem readOperand_of_spells {piece more : List Char} (h : Spells (byteLength pre) piece ls) :
    readOperand (pre ++ (piece ++ more)) ls =
      Operand.readTokens (ls.map (·.token)) piece := by
  rw [readOperand, groupText_of_spells h, ← Operand.ofLexemes_eq]
  rfl

/-! ## 2. Operands with commas between them -/

/-- Operands in a row, up to the end of a line. -/
inductive Series : List Char → List (Option Token) → List Operand → Prop
  | last {text : List Char} {tokens : List (Option Token)} {op : Operand}
      (written : Written none text tokens op) : Series text tokens [op]
  | more {text gaps gaps' rest : List Char} {tokens tokens' : List (Option Token)} {op : Operand}
      {ops : List Operand} (written : Written (some ',') text tokens op) (before : IsGaps gaps)
      (after : IsGaps gaps') (spaces : '\n' ∉ gaps ++ gaps') (series : Series rest tokens' ops) :
      Series (text ++ (gaps ++ ',' :: (gaps' ++ rest))) (tokens ++ some .comma :: tokens')
        (op :: ops)

/-- Gaps do not end a text that ends with a character that is no blank. -/
theorem eq_nil_of_isGaps {front gaps : List Char} (h : EndsSolid (front ++ gaps))
    (hgaps : IsGaps gaps) : gaps = [] := by
  cases hlast : gaps.getLast? with
  | none => exact List.getLast?_eq_none_iff.mp hlast
  | some c =>
    have hsolid := h.of_append c hlast
    have hblank := Token.isBlank_of_isGap (hgaps c (List.mem_of_getLast? hlast))
    exact absurd hblank (Bool.eq_false_iff.mp hsolid)

theorem not_mem_comma (h : ∀ l ∈ ls, separates l = false) : some .comma ∉ ls.map (·.token) := by
  intro hmem
  obtain ⟨l, hl, htoken⟩ := List.mem_map.mp hmem
  have hsep := h l hl
  rw [separates, htoken] at hsep
  exact nomatch hsep

theorem stops_comma : Stops inIdent (some ',') :=
  Token.stops_some rfl

/-- The lexemes of an operand take up a piece of the text, behind some gaps, and the operand is read
from that piece. -/
theorem exists_piece {op : Operand} {front back : List Lexeme} (hcode : code = pre ++ text)
    (hls : lexFrom (byteLength pre) text = front ++ back) (hne : front ≠ [])
    (hread : readOperand code front = .ok op) :
    ∃ gaps piece more, text = gaps ++ (piece ++ more) ∧ IsGaps gaps ∧
      Lexes more.head? piece (front.map (·.token)) ∧
      Operand.readTokens (front.map (·.token)) piece = .ok op ∧
      (∃ c, piece.head? = some c ∧ isGap c = false) ∧
      ((∃ c, piece.getLast? = some c ∧ isGap c = false) ∨ ∀ d, more.head? = some d → d = '\n') ∧
      lexFrom (byteLength (pre ++ (gaps ++ piece))) more = back := by
  obtain ⟨gaps, piece, more, rfl, hgaps, hlexes, hspells, hback, hfirst, hlast⟩ :=
    Token.exists_spells_of_lexFrom hls hne
  rw [← Text.byteLength_append] at hspells hback
  rw [hcode, ← List.append_assoc, readOperand_of_spells hspells] at hread
  rw [← Text.byteLength_append, List.append_assoc] at hback
  exact ⟨gaps, piece, more, rfl, hgaps, hlexes, hread, hfirst, hlast, hback⟩

/-- The last operand of a line. -/
theorem exists_written_last {op : Operand} (hcode : code = pre ++ text)
    (hls : lexFrom (byteLength pre) text = ls) (hne : ls ≠ [])
    (hno : ∀ l ∈ ls, separates l = false) (hread : readOperand code ls = .ok op)
    (hends : EndsSolid text) (hline : InLine text) :
    ∃ gaps piece, text = gaps ++ piece ∧ IsGaps gaps ∧
      Written none piece (ls.map (·.token)) op := by
  have hall : lexFrom (byteLength pre) text = ls ++ [] := by rw [hls, List.append_nil]
  obtain ⟨gaps, piece, more, rfl, hgaps, hlexes, hreads, hfirst, _, hrest⟩ :=
    exists_piece hcode hall hne hread
  -- Nothing but gaps comes behind it, and a line does not end with those.
  have hmore := Token.isGaps_of_lexFrom_eq_nil hrest
  rw [← List.append_assoc] at hends
  obtain rfl := eq_nil_of_isGaps hends hmore
  rw [List.append_nil] at hends hline ⊢
  have hpiece := hends.of_append
  obtain ⟨first, hhead, hsolid⟩ := hfirst
  have hpiece_ne : piece ≠ [] := by
    rintro rfl
    exact nomatch hhead
  have hlast := List.getLast?_eq_some_getLast hpiece_ne
  have hlast_solid := Operand.isGap_eq_false_of_not_isBlank (hpiece _ hlast)
  refine ⟨gaps, piece, rfl, hgaps, hlexes, ⟨⟨first, hhead, hsolid⟩, ⟨_, hlast, hlast_solid⟩⟩,
    .inr hpiece, not_mem_comma hno, (Text.inLine_append.mp hline).2, hreads⟩

/-- An operand with another one behind it. -/
theorem exists_written_more {op : Operand} {front back : List Lexeme} {sep : Lexeme}
    (hcode : code = pre ++ text) (hls : lexFrom (byteLength pre) text = front ++ sep :: back)
    (hne : front ≠ []) (hno : ∀ l ∈ front, separates l = false) (hsep : separates sep = true)
    (hread : readOperand code front = .ok op) (hline : InLine text) :
    ∃ gaps piece gaps' more, text = gaps ++ (piece ++ (gaps' ++ ',' :: more)) ∧ IsGaps gaps ∧
      IsGaps gaps' ∧ Written (some ',') piece (front.map (·.token)) op ∧
      lexFrom (byteLength (pre ++ (gaps ++ (piece ++ (gaps' ++ [',']))))) more = back := by
  obtain ⟨gaps, piece, more, rfl, hgaps, hlexes, hreads, hfirst, hlast, hrest⟩ :=
    exists_piece hcode hls hne hread
  obtain ⟨gaps', c, tail, more, rfl, hgaps', _, hscanned, _, hstop, hback⟩ :=
    Token.exists_of_lexFrom_eq_cons hrest
  have htoken : sep.token = some .comma := of_decide_eq_true hsep
  rw [htoken] at hscanned
  obtain ⟨rfl, hmark⟩ := hscanned.of_isMark rfl
  obtain rfl : c = ',' := Token.ofMark?_inj hmark rfl
  rw [List.nil_append] at hlexes hline hlast ⊢
  -- The comma is on the same line, so no quote is left open before it.
  have hgoes : GoesOn (gaps' ++ ',' :: more).head? := by
    have hin : ∀ d ∈ gaps' ++ ',' :: more, d ≠ '\n' := by
      intro d hd
      exact (hline d (List.mem_append_right gaps (List.mem_append_right piece hd))).1
    cases gaps' with
    | nil => exact ⟨',', rfl, hin _ List.mem_cons_self⟩
    | cons d gaps' => exact ⟨d, rfl, hin _ List.mem_cons_self⟩
  have hlast_solid : ∃ c, piece.getLast? = some c ∧ isGap c = false := by
    refine hlast.resolve_right ?_
    intro hnewline
    obtain ⟨d, hd, hne⟩ := hgoes
    exact hne (hnewline d hd)
  refine ⟨gaps, piece, gaps', more, rfl, hgaps, hgaps',
    ⟨hlexes.follow hgoes stops_comma, ⟨hfirst, hlast_solid⟩, .inl ⟨',', rfl, by decide⟩,
      not_mem_comma hno, ?_, hreads⟩, ?_⟩
  · exact (Text.inLine_append.mp (Text.inLine_append.mp hline).2).1
  · rw [← hback, hstop]
    simp only [Text.byteLength_append, Nat.add_assoc]

theorem ne_nil_of_nil_not_mem (h : [] ∉ ls.splitOnP separates) : ls ≠ [] := by
  rintro rfl
  exact h List.mem_cons_self

/-- The operands that are read from lexemes are written in a row. -/
theorem exists_series (hcode : code = pre ++ text) (hls : lexFrom (byteLength pre) text = ls)
    (hslots : [] ∉ ls.splitOnP separates)
    (hread : (ls.splitOnP separates).mapM (readOperand code) = .ok ops)
    (hends : EndsSolid text) (hline : InLine text) :
    ∃ gaps series, text = gaps ++ series ∧ IsGaps gaps ∧ Series series (ls.map (·.token)) ops := by
  induction ops generalizing pre text ls with
  | nil =>
    have hall := mapM_ok_iff.mp hread
    rcases splitOnP_cases separates ls with ⟨_, hsplit⟩ | ⟨_, _, _, _, _, _, hsplit⟩ <;>
      exact nomatch hsplit ▸ hall
  | cons op ops ih =>
    have hall := mapM_ok_iff.mp hread
    rcases splitOnP_cases separates ls with
      ⟨hno, hsplit⟩ | ⟨front, sep, back, rfl, hno, hsep, hsplit⟩
    · rw [hsplit] at hall
      obtain _ | ⟨hop, hnil⟩ := hall
      cases hnil
      obtain ⟨gaps, piece, rfl, hgaps, hwritten⟩ :=
        exists_written_last hcode hls (ne_nil_of_nil_not_mem hslots) hno hop hends hline
      exact ⟨gaps, piece, rfl, hgaps, .last hwritten⟩
    · rw [hsplit] at hall hslots
      obtain _ | ⟨hop, hrest⟩ := hall
      have hfront : front ≠ [] := fun h => hslots (h ▸ List.mem_cons_self)
      have hback : [] ∉ back.splitOnP separates := fun h => hslots (.tail front h)
      obtain ⟨gaps, piece, gaps', more, rfl, hgaps, hgaps', hwritten, hmore⟩ :=
        exists_written_more hcode hls hfront hno hsep hop hline
      have hsplit_text : gaps ++ (piece ++ (gaps' ++ ',' :: more)) =
          (gaps ++ (piece ++ (gaps' ++ [',']))) ++ more := by simp
      rw [hsplit_text] at hcode hends hline
      rw [← List.append_assoc] at hcode
      obtain ⟨gaps'', series, rfl, hgaps'', hseries⟩ := ih hcode hmore hback (mapM_ok_iff.mpr hrest)
        hends.of_append (Text.inLine_append.mp hline).2
      have htoken : sep.token = some .comma := of_decide_eq_true hsep
      refine ⟨gaps, _, rfl, hgaps, ?_⟩
      rw [List.map_append, List.map_cons, htoken]
      refine .more hwritten hgaps' hgaps'' ?_ hseries
      intro hmem
      refine hline.not_mem ?_
      rcases List.mem_append.mp hmem with hmem | hmem <;> simp [hmem]

/-- Operands in a row are also in a row as they are shown. -/
theorem Series.exists_render (h : Series text tokens ops) :
    ∃ tokens', Series (renderOperands ops).toList tokens' ops ∧ Milder tokens' tokens := by
  induction h with
  | last written =>
    obtain ⟨tokens', hrewrites⟩ := written.exists_rewrites Token.stops_none
    exact ⟨tokens', .last hrewrites.written, hrewrites.milder⟩
  | @more text gaps gaps' rest tokens tokensRest op ops written before after spaces series ih =>
    obtain ⟨ts, hrewrites⟩ := written.exists_rewrites stops_comma
    obtain ⟨us, hseries, hmilder⟩ := ih
    have hrender : (renderOperands (op :: ops)).toList =
        op.render.toList ++ ([] ++ ',' :: ([' '] ++ (renderOperands ops).toList)) := by
      cases series <;> simp [renderOperands, String.intercalate_cons_cons]
    have hspace : IsGaps [' '] := by
      rintro c hc
      obtain rfl := List.mem_singleton.mp hc
      rfl
    rw [hrender]
    exact ⟨_, .more hrewrites.written nofun hspace (by decide) hseries,
      hrewrites.milder.comma hmilder⟩

theorem not_separates (h : some .comma ∉ ls.map (·.token)) : ∀ l ∈ ls, separates l = false := by
  intro l hl
  rw [Bool.eq_false_iff]
  intro hsep
  have htoken : l.token = some .comma := of_decide_eq_true hsep
  exact h (htoken ▸ List.mem_map_of_mem hl)

theorem stops_of_isGaps (h : IsGaps gaps) (rest : List Char) :
    Stops inIdent (gaps ++ ',' :: rest).head? := by
  cases gaps with
  | nil => exact stops_comma
  | cons d gaps =>
    rintro _ ⟨rfl⟩
    rw [Bool.eq_false_iff]
    intro hin
    exact Bool.eq_false_iff.mp (Token.not_isGap_of_inIdent hin) (h d List.mem_cons_self)

theorem exists_lexFrom_comma {gaps' : List Char} (before : IsGaps gaps) (after : IsGaps gaps')
    (k : Nat) (rest : List Char) :
    ∃ l : Lexeme, separates l = true ∧ l.token = some .comma ∧
      lexFrom k (gaps ++ ',' :: (gaps' ++ rest)) =
        l :: lexFrom (k + byteLength (gaps ++ ',' :: gaps')) rest := by
  have hcomma : Token.Scanned (gaps' ++ rest).head? ',' [] (some .comma) :=
    Token.scanned_of_ofMark? rfl
  have hlex := Token.lexFrom_token rfl hcomma (k + byteLength gaps)
  rw [List.nil_append] at hlex
  let place := k + byteLength gaps
  refine ⟨⟨some .comma, place, place + byteLength [',']⟩, rfl, rfl, ?_⟩
  rw [Token.lexFrom_gaps before, hlex, Token.lexFrom_gaps after]
  simp only [place, Text.byteLength_append, Text.byteLength_cons, Text.byteLength_nil,
    Nat.add_assoc, Nat.zero_add]

/-- Operands in a row are read wherever they stand. -/
theorem Series.reads (h : Series text tokens ops) (pre : List Char) :
    (lexFrom (byteLength pre) text).map (·.token) = tokens ∧
      [] ∉ (lexFrom (byteLength pre) text).splitOnP separates ∧
      ((lexFrom (byteLength pre) text).splitOnP separates).mapM (readOperand (pre ++ text)) =
        .ok ops := by
  induction h generalizing pre with
  | @last text tokens op written =>
    have hlexes : Lexes ([] : List Char).head? text tokens := written.lexes
    obtain ⟨ls, hls, rfl, hspells⟩ := hlexes.exists_spells written.tight (byteLength pre)
    rw [List.append_nil, Token.lexFrom_nil, List.append_nil] at hls
    have hread : readOperand (pre ++ (text ++ [])) ls = _ := readOperand_of_spells hspells
    rw [List.append_nil, written.reads] at hread
    have hsplit : ls.splitOnP separates = [ls] :=
      List.splitOnP_eq_singleton (not_separates written.unsplit)
    rw [hls, hsplit]
    refine ⟨rfl, ?_, mapM_ok_iff.mpr (.cons hread .nil)⟩
    rintro (_ | ⟨_, hmem⟩)
    · exact hspells.ne_nil rfl
    · exact nomatch hmem
  | @more text gaps gaps' rest tokens tokensRest op ops written before after spaces series ih =>
    have hstops := stops_of_isGaps before (gaps' ++ rest)
    have hlexes := written.lexes.follow ⟨',', rfl, by decide⟩ hstops
    obtain ⟨ls, hls, rfl, hspells⟩ := hlexes.exists_spells written.tight (byteLength pre)
    obtain ⟨sep, hsep, htoken, hcomma⟩ :=
      exists_lexFrom_comma before after (byteLength pre + byteLength text) rest
    obtain ⟨htokens, hslots, hreads⟩ := ih (pre ++ (text ++ (gaps ++ ',' :: gaps')))
    rw [Text.byteLength_append, Text.byteLength_append, ← Nat.add_assoc] at htokens hslots hreads
    have htext : pre ++ (text ++ (gaps ++ ',' :: gaps')) ++ rest =
        pre ++ (text ++ (gaps ++ ',' :: (gaps' ++ rest))) := by simp
    have hread := written.reads
    rw [← readOperand_of_spells hspells] at hread
    have hno := not_separates written.unsplit
    rw [hls, hcomma, List.splitOnP_append_cons_of_forall_mem hno sep hsep]
    refine ⟨?_, ?_, mapM_ok_iff.mpr (.cons hread ?_)⟩
    · rw [List.map_append, List.map_cons, htoken, htokens]
    · rintro (_ | ⟨_, hmem⟩)
      · exact hspells.ne_nil rfl
      · exact hslots hmem
    · rw [← htext]
      exact mapM_ok_iff.mp hreads

theorem Series.ne_nil (h : Series text tokens ops) : text ≠ [] := by
  have htight : ∀ {next text tokens op}, Written next text tokens op → text ≠ [] := by
    rintro _ _ _ _ hwritten rfl
    obtain ⟨_, hfirst, _⟩ := hwritten.tight.first
    exact nomatch hfirst
  cases h with
  | last written => exact htight written
  | more written => exact List.append_ne_nil_of_left_ne_nil (htight written) _

theorem Series.endsSolid (h : Series text tokens ops) : EndsSolid text := by
  induction h with
  | last written =>
    refine written.ends.resolve_left ?_
    rintro ⟨_, hnext, _⟩
    exact nomatch hnext
  | @more text gaps gaps' rest _ _ _ _ written before after spaces series ih =>
    have hsolid : EndsSolid (text ++ (gaps ++ ([','] ++ gaps')) ++ rest) := ih.append series.ne_nil
    simpa using hsolid

theorem Series.inLine (h : Series text tokens ops) : InLine text := by
  induction h with
  | last written => exact written.inLine
  | @more text gaps gaps' rest _ _ _ _ written before after spaces series ih =>
    have hgap : ∀ c ∈ gaps ++ gaps', isGap c = true → c ≠ '\n' ∧ c ≠ ';' := by
      intro c hc hgap
      refine ⟨?_, ?_⟩
      · rintro rfl
        exact spaces hc
      · rintro rfl
        exact nomatch hgap
    intro c hc
    simp only [List.mem_append, List.mem_cons] at hc
    rcases hc with hc | hc | rfl | hc | hc
    · exact written.inLine c hc
    · exact hgap c (List.mem_append_left _ hc) (before c hc)
    · decide
    · exact hgap c (List.mem_append_right _ hc) (after c hc)
    · exact ih c hc

end Line
end Mcs51
