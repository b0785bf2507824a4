import Mcs51.Proofs.LineText

/-!
# Sources shown and read again

The lines of a source are shown in one form: names in upper case where they are known, operands with
a comma and a space between them, values without the blanks around them. Reading what is shown gives
the same lines again, number by number, if no line is one of two kinds (`IsRegular`).

A constant is one, since its value is all the text behind `EQU`. It is shown as a label, a mnemonic
and a value, and with a comma in it the value is then two operands. A line with an empty slot is the
other. The slot is not shown, and that can bring a colon behind the first word: `X ,: Y` is shown as
`X : Y`, which has a label.
-/

namespace Mcs51
namespace Line

variable {text : List Char} {number : Nat} {line : Line} {entry : Option Line}

/-! ## 1. Lines -/

/-- A line with no constant and with something in every slot for an operand. -/
structure IsRegular (text : List Char) : Prop where
  noConstant : constant? (Token.lex (code text)) = none
  filled : [] ∉ slots (operandLexemes (Token.lex (code text)))

instance (text : List Char) : Decidable (IsRegular text) :=
  decidable_of_iff (constant? (Token.lex (code text)) = none ∧
      [] ∉ slots (operandLexemes (Token.lex (code text))))
    ⟨fun h => ⟨h.1, h.2⟩, fun h => ⟨h.1, h.2⟩⟩

/-- A line is read again from the text that it is shown by. -/
theorem parse_render (hregular : IsRegular text) (hinline : '\n' ∉ text)
    (h : parse text number = .ok (some line)) :
    parse line.render.toList number = .ok (some line) ∧ IsLine line.render.toList := by
  obtain rfl := number_of_parse h
  obtain ⟨hne, hline⟩ := parse_eq_some_iff.mp h
  have hcode := isCode_code hinline hne
  obtain ⟨front, back, hsplit, hfront, hback, hopens, hreads⟩ :=
    exists_opens hline hregular.noConstant (lex_ne_nil hne (Text.startsSolid_trim _))
  have hslots := hregular.filled
  rw [hback] at hslots
  -- The operands begin where the lexemes that open the line end.
  obtain ⟨gaps, piece, more, hpieces, _, hlexes, _, hmore, _⟩ :=
    Token.exists_spells_of_lexFrom hsplit hfront
  rw [← List.append_assoc] at hpieces
  rw [Nat.zero_add, ← Text.byteLength_append] at hmore
  rw [hpieces] at hcode hreads
  obtain ⟨rest, htail, hmilder, hnil⟩ := exists_tail rfl hmore hslots hreads
    hcode.ends.of_append (Text.inLine_append.mp hcode.inLine).2
  obtain ⟨tokens, hopens', hopening⟩ := hopens.exists_shown (fun _ => hlexes.isWord) hmilder hnil
  exact hopens'.parse_render hopening htail

/-- What stands for an entry of a source when it is shown. -/
def shown (entry : Option Line) : List Char := ((entry.map render).getD "").toList

theorem parse_shown (hregular : IsRegular text) (hinline : '\n' ∉ text)
    (h : parse text number = .ok entry) :
    parse (shown entry) number = .ok entry ∧ IsLine (shown entry) := by
  cases entry with
  | none => exact ⟨rfl, nofun, nofun⟩
  | some line => exact parse_render hregular hinline h

/-! ## 2. Line feeds -/

theorem not_mem_of_mem_splitOn {c : Char} {piece : List Char} (h : piece ∈ text.splitOn c) :
    c ∉ piece := by
  induction text generalizing piece with
  | nil =>
    obtain rfl := List.mem_singleton.mp h
    exact nofun
  | cons d text ih =>
    rw [List.splitOn_cons_eq_if_modifyHead] at h
    split at h
    · rcases List.mem_cons.mp h with rfl | h
      · exact nofun
      · exact ih h
    · next hd =>
      obtain ⟨first, others, hsplit⟩ := List.exists_cons_of_ne_nil (List.splitOn_ne_nil c text)
      rw [hsplit] at h ih
      rcases List.mem_cons.mp h with rfl | h
      · rintro (_ | ⟨_, hmem⟩)
        · exact hd (beq_self_eq_true c)
        · exact ih List.mem_cons_self hmem
      · exact ih (.tail first h)

theorem not_mem_of_mem_lines {source : List Char} (h : text ∈ Text.lines source) : '\n' ∉ text := by
  rcases List.mem_append.mp h with h | h
  · obtain ⟨piece, hpiece, rfl⟩ := List.mem_map.mp h
    intro hmem
    refine not_mem_of_mem_splitOn (List.dropLast_subset _ hpiece) ?_
    unfold Text.dropReturn at hmem
    split at hmem
    · exact List.dropLast_subset _ hmem
    · exact hmem
  · have hlast := Option.mem_toList.mp (List.mem_of_mem_filter h)
    exact not_mem_of_mem_splitOn (List.mem_of_getLast? hlast)

/-- Texts that are ended by line feeds are the lines of all of them. -/
theorem lines_of_isLine {texts : List (List Char)} (h : ∀ text ∈ texts, IsLine text) :
    Text.lines (texts.flatMap (· ++ ['\n'])) = texts := by
  have hsplit : (texts.flatMap (· ++ ['\n'])).splitOn '\n' = texts ++ [[]] := by
    induction texts with
    | nil => rfl
    | cons text texts ih =>
      rw [List.flatMap_cons, List.append_assoc, List.singleton_append,
        List.splitOn_append_cons_self_of_not_mem (h text List.mem_cons_self).inLine,
        ih fun other hother => h other (.tail text hother)]
      rfl
  have hreturn : texts.map Text.dropReturn = texts := by
    have hsame : ∀ text ∈ texts, Text.dropReturn text = id text :=
      fun text htext => if_neg (h text htext).noReturn
    rw [List.map_congr_left hsame, List.map_id]
  unfold Text.lines
  rw [hsplit]
  simp [hreturn]

/-! ## 3. Sources -/

theorem renderAll_toList (lines : List (Option Line)) :
    (renderAll lines).toList = (lines.map shown).flatMap (· ++ ['\n']) := by
  rw [renderAll, String.toList_join, List.flatMap_map, List.flatMap_map]
  refine List.flatMap_congr ?_
  intro entry _
  exact String.toList_append

theorem forall_parse_shown {texts : List (List Char)} {lines : List (Option Line)} {k : Nat}
    (hregular : ∀ text ∈ texts, IsRegular text) (hinline : ∀ text ∈ texts, '\n' ∉ text)
    (h : List.Forall₂ (fun x entry => parse x.1 x.2 = .ok entry) (texts.zipIdx k) lines) :
    List.Forall₂ (fun x entry => parse x.1 x.2 = .ok entry) ((lines.map shown).zipIdx k) lines ∧
      ∀ text ∈ lines.map shown, IsLine text := by
  induction lines generalizing texts k with
  | nil => exact ⟨.nil, nofun⟩
  | cons entry lines ih =>
    cases texts with
    | nil => exact nomatch h
    | cons text texts =>
      obtain _ | ⟨hfirst, hrest⟩ := h
      obtain ⟨hparse, hline⟩ := parse_shown (hregular text List.mem_cons_self)
        (hinline text List.mem_cons_self) hfirst
      obtain ⟨hothers, hlines⟩ := ih (fun other hother => hregular other (.tail text hother))
        (fun other hother => hinline other (.tail text hother)) hrest
      exact ⟨.cons hparse hothers, List.forall_mem_cons.mpr ⟨hline, hlines⟩⟩

/-- **A source that is shown is read again as the same lines.** If a source is read, no line of it
    is a constant, and none has an empty slot for an operand, then the text with every entry as it
    is shown, each ended by a line feed, is read as the same lines. What was no line is shown as an
    empty one. -/
theorem parseAll_renderAll {source : List Char} {lines : List (Option Line)}
    (hregular : ∀ text ∈ Text.lines source, IsRegular text)
    (h : parseAll source = .ok lines) : parseAll (renderAll lines).toList = .ok lines := by
  have hinline : ∀ text ∈ Text.lines source, '\n' ∉ text := fun _ => not_mem_of_mem_lines
  obtain ⟨hagain, hlines⟩ := forall_parse_shown hregular hinline (mapM_ok_iff.mp h)
  rw [parseAll, renderAll_toList, lines_of_isLine hlines]
  exact mapM_ok_iff.mpr hagain

example : (parse "X ,: Y".toList 0).toOption.map (·.map render) = some (some "X : Y") := by
  decide +kernel

/-- Words in any letter case and blanks of any kind, an address for a bit that has a name, a word
that is no mnemonic, and a quote that is not closed. -/
def untidySource : String :=
  "Start:  mov\ta , # 5 ; five\r\n\n loop :djnz r2 , LOOP\n" ++
    "  setb 0e0H. 10\nanl c,/ 0AFh\nfrob 'x, y"

/-- The same source as it is shown. -/
def tidySource : String :=
  "Start: MOV A, #5\n\nloop: DJNZ R2, LOOP\nSETB 0e0H.2\nANL C, /EA\nFROB 'x, y\n"

theorem untidySource_reads_again :
    (∀ text ∈ Text.lines untidySource.toList, IsRegular text) ∧
      ∃ lines, parseAll untidySource.toList = .ok lines ∧ renderAll lines = tidySource ∧
        parseAll (renderAll lines).toList = .ok lines := by
  have hregular : ∀ text ∈ Text.lines untidySource.toList, IsRegular text := by
    decide +kernel
  have hshown : (parseAll untidySource.toList).toOption.map renderAll = some tidySource := by
    decide +kernel
  obtain ⟨lines, hlines, hrender⟩ := Option.map_eq_some_iff.mp hshown
  cases hread : parseAll untidySource.toList with
  | error e =>
    rw [hread] at hlines
    exact nomatch hlines
  | ok found =>
    rw [hread] at hlines
    obtain rfl := Option.some.inj hlines
    exact ⟨hregular, found, rfl, hrender, parseAll_renderAll hregular hread⟩

end Line
end Mcs51
