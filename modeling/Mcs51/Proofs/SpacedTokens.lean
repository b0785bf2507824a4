import Mathlib.Data.List.Chain
import Mcs51.Proofs.Lexing

/-!
# Tokens written out

A row of tokens is written by writing their texts one after another, with gaps in front of each.
Lexing it gives the row back: no character goes over to a neighbour and none is left that makes no
token. What that takes is in `Legible`. The text of each token has to be one of its kind, and two
words or numbers must not touch, since the longest token is taken; everything else may. A quoted
text may hold the characters of every other token, because the quote that closes it is the first one
of its kind, whatever stands in between.

The agreement is that of the lexer and not only of the tokens: `lexFrom_written` says where each
token is found, and `placed` counts that from the texts alone.
-/

namespace Mcs51
namespace Token

/-! ## 1. Tokens with a text -/

/-- A text between quotes of one kind, on one line and without that quote inside. -/
def IsQuotation (text : String) : Prop :=
  ∃ c body, text.toList = c :: (body ++ [c]) ∧ isQuote c = true ∧ body.all (inQuoted c) = true

/-- The text of a token is one of its kind. The marks have no text of their own. -/
def IsValid : Token → Prop
  | .numeric text => IsNumber text
  | .ident text => IsWord text
  | .quoted text => IsQuotation text
  | _ => True

/-- Words and numbers, which a further letter or digit makes longer. -/
def isWordlike : Token → Bool
  | .numeric _ | .ident _ => true
  | _ => false

variable {t : Token} {more : List Char} {next : Option Char}

theorem exists_ofMark? (h : isMark t = true) : ∃ c, ofMark? c = some t := by
  cases t with
  | numeric | ident | quoted => exact nomatch h
  | hash => exact ⟨'#', rfl⟩
  | atSign => exact ⟨'@', rfl⟩
  | dot => exact ⟨'.', rfl⟩
  | dollar => exact ⟨'$', rfl⟩
  | minus => exact ⟨'-', rfl⟩
  | slash => exact ⟨'/', rfl⟩
  | colon => exact ⟨':', rfl⟩
  | comma => exact ⟨',', rfl⟩

theorem IsQuotation.scanned {text : String} (h : IsQuotation text) :
    ∃ c tail, text.toList = c :: tail ∧ isQuote c = true ∧
      Scanned next c tail (some (.quoted text)) := by
  obtain ⟨c, body, htext, hc, hbody⟩ := h
  have hscanned :
      Scanned next c (body ++ [c]) (some (.quoted (String.ofList (c :: (body ++ [c]))))) :=
    .quoted hc (List.all_eq_true.mp hbody)
  rw [← htext, String.ofList_toList] at hscanned
  exact ⟨c, body ++ [c], htext, hc, hscanned⟩

theorem inIdent_of_isQuote {c : Char} (h : isQuote c = true) : inIdent c = false := by
  rcases isQuote_iff.mp h with rfl | rfl <;> decide

theorem not_isGap_of_isQuote {c : Char} (h : isQuote c = true) : isGap c = false := by
  rcases isQuote_iff.mp h with rfl | rfl <;> decide

/-- A token is scanned from its own text, if nothing behind it could make it longer. -/
theorem IsValid.scanned (h : t.IsValid) (hstops : t.isWordlike = true → Stops inIdent next) :
    ∃ c tail, t.render.toList = c :: tail ∧ isGap c = false ∧ Scanned next c tail (some t) := by
  cases hmark : isMark t with
  | true =>
    obtain ⟨c, hc⟩ := exists_ofMark? hmark
    refine ⟨c, [], ?_, not_isGap_of_ofMark? hc, scanned_of_ofMark? hc⟩
    rw [render_of_ofMark? hc, String.toList_ofList]
  | false =>
    cases t with
    | numeric text => exact IsNumber.scanned h (hstops rfl)
    | ident text => exact IsWord.scanned h (hstops rfl)
    | quoted text =>
      obtain ⟨c, tail, htext, hc, hscanned⟩ := IsQuotation.scanned h
      exact ⟨c, tail, htext, not_isGap_of_isQuote hc, hscanned⟩
    | _ => exact nomatch hmark

/-- A mark or a quoted text does not go on with a word before it. -/
theorem IsValid.stops (h : t.IsValid) (hword : t.isWordlike = false) (more : List Char) :
    Stops inIdent (t.render.toList ++ more).head? := by
  cases hmark : isMark t with
  | true =>
    obtain ⟨c, hc⟩ := exists_ofMark? hmark
    obtain ⟨hnumeric, hident, -⟩ := starts_of_ofMark? hc
    rw [render_of_ofMark? hc, String.toList_ofList]
    refine stops_some ?_
    simpa [startsIdent, hnumeric] using hident
  | false =>
    cases t with
    | numeric | ident => cases hword
    | quoted text =>
      obtain ⟨c, body, htext, hc, -⟩ := h
      rw [show (Token.quoted text).render = text from rfl, htext]
      exact stops_some (inIdent_of_isQuote hc)
    | _ => cases hmark

/-- The lexer finds a token where its text stands. -/
theorem IsValid.lexFrom_render (h : t.IsValid)
    (hstops : t.isWordlike = true → Stops inIdent more.head?) (k : Nat) :
    lexFrom k (t.render.toList ++ more) =
      ⟨some t, k, k + Text.byteLength t.render.toList⟩ ::
        lexFrom (k + Text.byteLength t.render.toList) more := by
  obtain ⟨c, tail, hrender, hc, hscanned⟩ := h.scanned hstops
  rw [hrender, List.cons_append, lexFrom_token hc hscanned]

/-! ## 2. Rows of tokens -/

/-- A token with the gap in front of it. -/
structure Spaced where
  gap : List Char
  token : Token

def Spaced.written (s : Spaced) : List Char := s.gap ++ s.token.render.toList

/-- The text of a row. -/
def written (row : List Spaced) : List Char := row.flatMap Spaced.written

/-- What makes a row legible: texts of their kind, gaps that are gaps, and one wherever two words
or numbers would touch. -/
structure Legible (row : List Spaced) : Prop where
  valid : ∀ s ∈ row, s.token.IsValid
  gaps : ∀ s ∈ row, IsGaps s.gap
  apart : row.IsChain fun s s' =>
    s.token.isWordlike = true → s'.token.isWordlike = true → s'.gap ≠ []

/-- The lexemes of a row that is written from the byte offset `k` on. -/
def placed (k : Nat) : List Spaced → List Lexeme
  | [] => []
  | s :: row =>
    ⟨some s.token, k + Text.byteLength s.gap, k + Text.byteLength s.written⟩ ::
      placed (k + Text.byteLength s.written) row

variable {s : Spaced} {row front back : List Spaced} {rest : List Char}

theorem written_cons (s : Spaced) (row : List Spaced) :
    written (s :: row) = s.written ++ written row :=
  rfl

theorem written_append (front back : List Spaced) :
    written (front ++ back) = written front ++ written back :=
  List.flatMap_append

theorem Legible.of_cons (h : Legible (s :: row)) : Legible row where
  valid s' hs' := h.valid s' (.tail s hs')
  gaps s' hs' := h.gaps s' (.tail s hs')
  apart := h.apart.of_cons

/-- Behind a word or a number comes a character that does not go on with it. -/
theorem Legible.stops (h : Legible (s :: row)) (hrest : IsGaps rest)
    (hs : s.token.isWordlike = true) : Stops inIdent (written row ++ rest).head? := by
  have hgap : ∀ {d : Char} {gap : List Char}, IsGaps (d :: gap) → inIdent d = false := by
    intro d gap hgaps
    rw [Bool.eq_false_iff]
    intro hin
    exact Bool.eq_false_iff.mp (not_isGap_of_inIdent hin) (hgaps d List.mem_cons_self)
  cases row with
  | nil =>
    cases rest with
    | nil => exact stops_none
    | cons d rest => exact stops_some (hgap hrest)
  | cons s' row =>
    have hmem : s' ∈ s :: s' :: row := .tail s List.mem_cons_self
    have hgaps := h.gaps s' hmem
    rw [written_cons, Spaced.written, List.append_assoc, List.append_assoc]
    cases hfirst : s'.gap with
    | cons d gap => exact stops_some (hgap (hfirst ▸ hgaps))
    | nil =>
      -- Without a gap the next token is a mark or a quoted text.
      have hnot : s'.token.isWordlike = false := by
        rw [Bool.eq_false_iff]
        intro hs'
        exact h.apart.rel hs hs' hfirst
      exact (h.valid s' hmem).stops hnot _

/-- **A row is found where it was written.** -/
theorem lexFrom_written (h : Legible row) (hrest : IsGaps rest) (k : Nat) :
    lexFrom k (written row ++ rest) = placed k row := by
  induction row generalizing k with
  | nil =>
    have hgaps := lexFrom_gaps hrest k []
    rw [List.append_nil, lexFrom_nil] at hgaps
    exact hgaps
  | cons s row ih =>
    rw [written_cons, Spaced.written, List.append_assoc, List.append_assoc,
      lexFrom_gaps (h.gaps s List.mem_cons_self),
      (h.valid s List.mem_cons_self).lexFrom_render (h.stops hrest), ih h.of_cons, placed,
      Spaced.written, Text.byteLength_append, Nat.add_assoc]

theorem map_token_placed (k : Nat) (row : List Spaced) :
    (placed k row).map (·.token) = row.map fun s => some s.token := by
  induction row generalizing k with
  | nil => rfl
  | cons s row ih => rw [placed, List.map_cons, List.map_cons, ih]

/-- A token stands behind all that was written before it. -/
theorem getElem?_placed (k : Nat) (front back : List Spaced) (s : Spaced) :
    (placed k (front ++ s :: back))[front.length]? =
      some ⟨some s.token, k + Text.byteLength (written front ++ s.gap),
        k + Text.byteLength (written front ++ s.written)⟩ := by
  induction front generalizing k with
  | nil => rfl
  | cons s' front ih =>
    rw [List.cons_append, placed, List.length_cons, List.getElem?_cons_succ, ih]
    simp only [written_cons, Text.byteLength_append, Nat.add_assoc]

/-- **Lexing undoes writing.** A legible row, with gaps behind it or not, is lexed into its tokens
    and nothing else. Each is found from the end of the gap in front of it to the end of its text,
    counted in bytes from the beginning, and between these offsets stands that text. -/
theorem lex_undoes_writing (h : Legible row) (hrest : IsGaps rest) :
    (lex (written row ++ rest)).map (·.token) = row.map (fun s => some s.token) ∧
    ∀ front s back, row = front ++ s :: back →
      let start := Text.byteLength (written front ++ s.gap)
      let stop := Text.byteLength (written front ++ s.written)
      (lex (written row ++ rest))[front.length]? = some ⟨some s.token, start, stop⟩ ∧
      Text.slice? start stop (written row ++ rest) = some s.token.render.toList := by
  have hlex : lex (written row ++ rest) = placed 0 row := lexFrom_written h hrest 0
  refine ⟨by rw [hlex, map_token_placed], ?_⟩
  rintro front s back rfl start stop
  constructor
  · rw [hlex, getElem?_placed, Nat.zero_add, Nat.zero_add]
  · have htext : written (front ++ s :: back) ++ rest =
        (written front ++ s.gap) ++ (s.token.render.toList ++ (written back ++ rest)) := by
      simp only [written_append, written_cons, Spaced.written, List.append_assoc]
    have hstop : stop = start + Text.byteLength s.token.render.toList := by
      simp only [stop, start, Spaced.written, Text.byteLength_append, Nat.add_assoc]
    rw [htext, hstop]
    exact Text.slice?_append _ _ _

/-- Quoted texts that hold the marks and quotes of others, and as few gaps as there can be. -/
def crowded : List Spaced :=
  [⟨['\t'], .ident "DB"⟩, ⟨[], .quoted "'#\";,'"⟩, ⟨[], .quoted "\"it's 5\""⟩,
    ⟨[], .numeric "0FFH"⟩, ⟨['\r'], .ident "?x"⟩, ⟨[], .colon⟩]

theorem legible_crowded : Legible crowded where
  valid := by
    have hname : IsWord "DB" := ⟨'D', ['B'], by decide⟩
    have hlabel : IsWord "?x" := ⟨'?', ['x'], by decide⟩
    have hnumber : IsNumber "0FFH" := ⟨'0', ['F', 'F', 'H'], by decide⟩
    have hsingle : IsQuotation "'#\";,'" := ⟨'\'', ['#', '"', ';', ','], by decide⟩
    have hdouble : IsQuotation "\"it's 5\"" := ⟨'"', ['i', 't', '\'', 's', ' ', '5'], by decide⟩
    simp [crowded, IsValid, hname, hlabel, hnumber, hsingle, hdouble]
  gaps := by simp [crowded, IsGaps, isGap]
  apart := by simp [crowded, isWordlike]

/-- The number is found behind the quotes, though nothing sets it off from them. -/
theorem crowded_is_lexed :
    (lex (written crowded ++ ['\n'])).map (·.token) = crowded.map (fun s => some s.token) ∧
    (lex (written crowded ++ ['\n']))[3]? = some ⟨some (.numeric "0FFH"), 17, 21⟩ := by
  have hrest : IsGaps ['\n'] := by simp [IsGaps, isGap]
  obtain ⟨htokens, hplaces⟩ := lex_undoes_writing legible_crowded hrest
  exact ⟨htokens, (hplaces (crowded.take 3) _ (crowded.drop 4) rfl).1⟩

end Token
end Mcs51
