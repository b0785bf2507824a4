import Mcs51.Proofs.LineText

/-!
# A source with one more line

A line is added behind the lines of a source, whether or not the last of these is ended. Nothing
before it is read in another way (`Line.parseAll_withLine`): all that changes is whether a carriage
return belongs to the ending of a line or to its blanks, and blanks do not count. So a source that
is refused stays refused, and a program takes in the new line as loading takes in its last one.
-/

namespace Mcs51

/-! ## 1. The lines of the text -/

namespace Text

variable {front back source line : List Char}

/-- A source with its last line ended, if there is one that is not. -/
def ended (source : List Char) : List Char :=
  if source = [] ∨ source.getLast? = some '\n' then source else source ++ ['\n']

/-- A source with one more line, which is ended. -/
def withLine (source line : String) : String :=
  String.ofList (ended source.toList ++ (line.toList ++ ['\n']))

theorem lines_nil : lines [] = [] := rfl

theorem lines_append (front back : List Char) :
    lines (front ++ '\n' :: back) = (front.splitOn '\n').map dropReturn ++ lines back := by
  have hne := List.splitOn_ne_nil '\n' back
  unfold lines
  dsimp only
  rw [List.splitOn_append_cons_self, List.dropLast_append_of_ne_nil hne, List.map_append,
    List.append_assoc, List.getLast?_append_of_ne_nil _ hne]

theorem lines_single (h : '\n' ∉ line) : lines (line ++ ['\n']) = [dropReturn line] := by
  have hsplit : line.splitOn '\n' = [line] := by
    refine List.splitOnP_eq_singleton fun c hc => ?_
    rw [beq_eq_false_iff_ne]
    rintro rfl
    exact h hc
  rw [lines_append, hsplit, lines_nil]
  rfl

/-- What stands behind the last line feed, if the text does not end with one. -/
theorem exists_last_piece (hne : source ≠ []) (hlast : source.getLast? ≠ some '\n') :
    ∃ init last, source.splitOn '\n' = init ++ [last] ∧ last ≠ [] := by
  induction source with
  | nil => exact absurd rfl hne
  | cons c rest ih =>
    rw [List.splitOn_cons_eq_if_modifyHead]
    cases rest with
    | nil =>
      have hc : (c == '\n') = false := by
        rw [beq_eq_false_iff_ne]
        rintro rfl
        exact hlast rfl
      rw [hc]
      exact ⟨[], [c], rfl, List.cons_ne_nil c []⟩
    | cons d rest =>
      rw [List.getLast?_cons_cons] at hlast
      obtain ⟨init, last, hsplit, hpiece⟩ := ih (List.cons_ne_nil d rest) hlast
      rw [hsplit]
      split
      · exact ⟨[] :: init, last, rfl, hpiece⟩
      · cases init with
        | nil => exact ⟨[], c :: last, rfl, List.cons_ne_nil c last⟩
        | cons first init => exact ⟨(c :: first) :: init, last, rfl, hpiece⟩

/-- An ended source is empty or has a line feed at its end. -/
theorem ended_cases (source : List Char) :
    ended source = [] ∨ ∃ front, ended source = front ++ ['\n'] := by
  unfold ended
  split
  · next h =>
    rcases h with rfl | hlast
    · exact .inl rfl
    · exact .inr (List.getLast?_eq_some_iff.mp hlast)
  · exact .inr ⟨source, rfl⟩

theorem lines_ended_append (h : '\n' ∉ line) :
    lines (ended source ++ (line ++ ['\n'])) = lines (ended source) ++ [dropReturn line] := by
  rcases ended_cases source with hnil | ⟨front, hfront⟩
  · rw [hnil, lines_nil]
    exact lines_single h
  · rw [hfront, List.append_assoc, List.singleton_append, lines_append, lines_single h,
      lines_append, lines_nil, List.append_nil]

end Text

/-! ## 2. What is read -/

namespace Line

open Text (IsBlanks ended withLine)

variable {text blanks source : List Char} {texts texts' : List (List Char)} {number : Nat}
  {entries : List (Option Line)}

theorem code_dropReturn (text : List Char) : code (Text.dropReturn text) = code text := by
  unfold Text.dropReturn
  split
  · next hlast =>
    obtain ⟨front, rfl⟩ := List.getLast?_eq_some_iff.mp hlast
    rw [List.dropLast_concat]
    exact (code_append (List.forall_mem_singleton.mpr rfl) front).symm
  · rfl

theorem code_code (text : List Char) : code (code text) = code text := by
  have hbefore : (code text).takeWhile (· ≠ ';') = code text := by
    rw [List.takeWhile_eq_self_iff]
    intro c hc
    have hbefore := List.mem_takeWhile_imp (Text.mem_of_mem_trim hc)
    exact hbefore
  rw [code, hbefore]
  exact Text.trim_trim _

theorem parse_code (text : List Char) (number : Nat) :
    parse (code text) number = parse text number := by
  unfold parse read
  rw [code_code]

/-- What the lines of a source are read as. -/
def parseLines (texts : List (List Char)) : Except LoadError (List (Option Line)) :=
  texts.zipIdx.mapM fun (text, number) => parse text number

theorem parseAll_eq (source : List Char) : parseAll source = parseLines (Text.lines source) :=
  rfl

/-- Only what counts of each line is read. -/
theorem parseLines_congr (h : texts.map code = texts'.map code) :
    parseLines texts = parseLines texts' := by
  have hcode : ∀ texts : List (List Char), parseLines (texts.map code) = parseLines texts := by
    intro texts
    unfold parseLines
    rw [List.zipIdx_map, List.mapM_map]
    refine congrArg (List.mapM · texts.zipIdx) (funext fun x => ?_)
    exact parse_code x.1 x.2
  rw [← hcode, h, hcode]

theorem parseLines_append (texts : List (List Char)) (text : List Char) :
    parseLines (texts ++ [text]) =
      parseLines texts >>= fun entries =>
        (parse text texts.length).map fun entry => entries ++ [entry] := by
  unfold parseLines
  rw [List.zipIdx_append, List.mapM_append, Nat.zero_add]
  refine congrArg (_ >>= ·) (funext fun entries => ?_)
  rw [List.zipIdx_singleton, List.mapM_cons]
  dsimp only
  cases parse text texts.length <;> rfl

/-- Ending the last line of a source leaves what counts of its lines as it was. -/
theorem codes_ended (source : List Char) :
    (Text.lines (ended source)).map code = (Text.lines source).map code := by
  unfold ended
  split
  · rfl
  · next hopen =>
    obtain ⟨hne, hlast⟩ := not_or.mp hopen
    obtain ⟨init, last, hsplit, hpiece⟩ := Text.exists_last_piece hne hlast
    rw [Text.lines_append, Text.lines_nil, Text.lines, hsplit]
    simp [hpiece, code_dropReturn]

/-- **One more line is read behind the others**, and these are read as before. -/
theorem parseAll_withLine {source line : String} (hline : '\n' ∉ line.toList) :
    parseAll (withLine source line).toList =
      parseAll source.toList >>= fun entries =>
        (parse line.toList entries.length).map fun entry => entries ++ [entry] := by
  have hcodes : (Text.lines (withLine source line).toList).map code =
      (Text.lines source.toList ++ [line.toList]).map code := by
    rw [withLine, String.toList_ofList, Text.lines_ended_append hline, List.map_append,
      List.map_append, codes_ended, List.map_singleton, List.map_singleton, code_dropReturn]
  rw [parseAll_eq, parseLines_congr hcodes, parseLines_append, ← parseAll_eq]
  cases hsource : parseAll source.toList with
  | error e => rfl
  | ok entries =>
    obtain ⟨hlength, _⟩ := parseAll_ok hsource
    rw [← hlength]
    rfl

end Line

/-! ## 3. What is loaded -/

namespace Program

open Text (withLine)

variable {source line name : String} {p : Program} {entry : Option Line} {e : LoadError}
  {op : Operand} {number : Nat}

/-- A source that is refused is refused with any line behind it. -/
theorem ofSource_withLine_of_error (h : ofSource source = .error e) (hline : '\n' ∉ line.toList) :
    ofSource (withLine source line) = .error e := by
  unfold ofSource at h ⊢
  rw [Line.parseAll_withLine hline]
  cases hsource : Line.parseAll source.toList with
  | error found =>
    rw [hsource] at h
    exact h
  | ok entries =>
    rw [hsource] at h
    exact nomatch h

theorem ofSource_withLine_of_ok (h : ofSource source = .ok p) (hline : '\n' ∉ line.toList)
    (hparse : Line.parse line.toList p.size = .ok entry) :
    ofSource (withLine source line) = .ok (ofLines (p.lines.toList ++ [entry])) := by
  obtain ⟨entries, hsource, rfl⟩ := map_ok_iff.mp h
  have hparse : Line.parse line.toList entries.length = .ok entry := hparse
  unfold ofSource
  rw [Line.parseAll_withLine hline, hsource]
  change Except.map ofLines ((Line.parse line.toList entries.length).map _) = _
  rw [hparse]
  rfl

/-- A program with one more constant. It starts where it did before, or at the line of the constant
if it had no line to start at. -/
structure Gains (p : Program) (name : String) (value : Int) (q : Program) : Prop where
  symbols : q.symbols = p.symbols.insert name (.const value)
  origins : q.origins = p.origins
  entry : q.entry = (Layout.ofLines p.lines.toList).entry.getD p.size

/-- **A line with a constant adds that constant** and no more. Its value is what the operand comes
to beside the symbols there were. -/
theorem exists_gains (h : ofSource source = .ok p) (hline : '\n' ∉ line.toList)
    (hparse : Line.parse line.toList p.size = .ok (some ⟨some name, some .equ, [op], number⟩)) :
    ∃ q, ofSource (withLine source line) = .ok q ∧
      p.Gains name (p.symbols.valueOf op) q := by
  refine ⟨_, ofSource_withLine_of_ok h hline hparse, ?_⟩
  obtain ⟨entries, hsource, rfl⟩ := map_ok_iff.mp h
  have hlast := Layout.ofLines_append entries (some ⟨some name, some .equ, [op], number⟩)
  refine ⟨?_, ?_, ?_⟩
  · show (Layout.ofLines (entries ++ _)).symbols = _
    rw [hlast]
    rfl
  · show (Layout.ofLines (entries ++ _)).origins = _
    rw [hlast]
    rfl
  · show (Layout.ofLines (entries ++ _)).entry.getD 0 = _
    rw [hlast]
    rfl

end Program
end Mcs51
