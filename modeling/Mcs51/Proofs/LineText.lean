import Mcs51.Proofs.Loading
import Mcs51.Proofs.MnemonicWord
import Mcs51.Proofs.OperandRow

/-!
# Lines and their texts

A line opens with a label, with a mnemonic or with both, and what is left of it are its operands.
`Opens` lists the ways by the tokens alone, with what must not come behind them. A line that opens
in one of these ways is read as its operands are (`Opens.ofLexemes_eq`), and every line does that is
read and holds no constant (`exists_opens`).

A line is shown by a text that opens it again, and by its operands behind that. Both are known by
their tokens (`IsOpening`, `Tail`), so the line that is read from them is the one that is shown
(`Opens.parse_render`).
-/

namespace Mcs51
namespace Line

open Token (Lexes Stops inIdent lexFrom IsWord Broken OpensPlainly Milder stops_none stops_some)
open Text (byteLength IsBlanks StartsSolid EndsSolid InLine)

variable {code text pre : List Char} {tokens rest rest' : List (Option Token)}
  {ops : List Operand} {ls : List Lexeme} {number : Nat} {label : Option String}
  {mnemonic : Option Mnemonic} {name : String} {line : Line}

/-! ## 1. How a line opens -/

/-- The tokens that a line opens with and those behind them, with its label and its mnemonic. A word
without a label before it must not be taken for the name of a constant, nor for a label. -/
inductive Opens :
    List (Option Token) → List (Option Token) → Option String → Option Mnemonic → Prop
  | label (name : String) : Opens [some (.ident name), some .colon] [] (some name) none
  | both (name word : String) (rest : List (Option Token)) :
      Opens [some (.ident name), some .colon, some (.ident word)] rest (some name)
        (some (.ofWord word))
  | plain (word : String) {rest : List (Option Token)} (plainly : OpensPlainly rest)
      (unbroken : ¬ Broken rest) : Opens [some (.ident word)] rest none (some (.ofWord word))

theorem brokenLabel_iff : brokenLabel ls = true ↔ Broken (ls.map (·.token)) := by
  have hbefore : (ls.map (·.token)).takeWhile (· ≠ some .colon) =
      (ls.takeWhile fun l => l.token ≠ some .colon).map (·.token) := List.takeWhile_map
  simp only [brokenLabel, Broken, hbefore, Bool.and_eq_true, List.any_eq_true, List.mem_map,
    decide_eq_true_eq]

/-- The lexemes of two tokens. -/
theorem exists_of_map_eq {t u : Option Token} (h : ls.map (·.token) = t :: u :: rest) :
    ∃ start stop start' stop' back, ls = ⟨t, start, stop⟩ :: ⟨u, start', stop'⟩ :: back := by
  obtain ⟨⟨_, start, stop⟩, ls, rfl, rfl, htail⟩ := List.map_eq_cons_iff.mp h
  obtain ⟨⟨_, start', stop'⟩, back, rfl, rfl, _⟩ := List.map_eq_cons_iff.mp htail
  exact ⟨start, stop, start', stop', back, rfl⟩

theorem constant?_eq_none_iff :
    constant? ls = none ↔ ∀ name word rest,
      ls.map (·.token) = some (.ident name) :: some (.ident word) :: rest →
        Text.upperString word ≠ "EQU" := by
  unfold constant?
  split
  · next name start stop word start' stop' back =>
    rw [ite_eq_right_iff]
    constructor
    · intro h _ other rest hmap hequ
      obtain ⟨_, hmap⟩ := List.cons.inj hmap
      obtain ⟨hword, _⟩ := List.cons.inj hmap
      obtain rfl : word = other := Token.ident.inj (Option.some.inj hword)
      exact nomatch h hequ
    · intro h hequ
      exact absurd hequ (h name word (back.map (·.token)) rfl)
  · next hother =>
    refine iff_of_true rfl ?_
    intro name word rest hmap _
    obtain ⟨start, stop, start', stop', back, rfl⟩ := exists_of_map_eq hmap
    exact hother name start stop word start' stop' back rfl

/-- A line has a label if its first tokens are a word and a colon. -/
theorem splitLabel_cases (ls : List Lexeme) :
    (∃ name l l' back, ls = l :: l' :: back ∧ l.token = some (.ident name) ∧
        l'.token = some .colon ∧ splitLabel ls = (some name, back)) ∨
      splitLabel ls = (none, ls) ∧
        ∀ name rest, ls.map (·.token) ≠ some (.ident name) :: some .colon :: rest := by
  unfold splitLabel
  split
  · exact .inl ⟨_, _, _, _, rfl, rfl, rfl, rfl⟩
  · next hother =>
    refine .inr ⟨rfl, ?_⟩
    intro name rest hmap
    obtain ⟨start, stop, start', stop', back, rfl⟩ := exists_of_map_eq hmap
    exact hother name start stop start' stop' back rfl

theorem splitMnemonic_ok {back : List Lexeme} (h : splitMnemonic ls = .ok (mnemonic, back)) :
    (ls = [] ∧ mnemonic = none ∧ back = []) ∨
      ∃ word l, ls = l :: back ∧ l.token = some (.ident word) ∧ mnemonic = some (.ofWord word) := by
  unfold splitMnemonic at h
  split at h
  · obtain ⟨rfl, rfl⟩ := Prod.mk.inj (Except.ok.inj h)
    exact .inl ⟨rfl, rfl, rfl⟩
  · obtain ⟨rfl, rfl⟩ := Prod.mk.inj (Except.ok.inj h)
    exact .inr ⟨_, _, rfl, rfl, rfl⟩
  · exact nomatch h
  · exact nomatch h

theorem readInstruction_ok (h : readInstruction code ls number = .ok line) :
    ∃ back, splitMnemonic (splitLabel ls).2 = .ok (line.mnemonic, back) ∧
      (splitLabel ls).1 = line.label ∧
      (operandGroups back).mapM (readOperand code) = .ok line.operands := by
  obtain ⟨⟨mnemonic, back⟩, hsplit, h⟩ := bind_ok_iff.mp h
  obtain ⟨operands, hoperands, h⟩ := bind_ok_iff.mp h
  obtain rfl := Except.ok.inj h
  exact ⟨back, mapError_ok_iff.mp hsplit, rfl, hoperands⟩

theorem Opens.not_broken (h : Opens tokens rest label mnemonic) : ¬ Broken (tokens ++ rest) := by
  cases h with
  | label | both => simp [Broken]
  | plain word _ unbroken =>
    exact mt (Token.broken_plain_iff (Token.isPlain_ident word)).mp unbroken

theorem Opens.not_constant {word : String} {more : List (Option Token)}
    (h : Opens tokens rest label mnemonic)
    (hmore : tokens ++ rest = some (.ident name) :: some (.ident word) :: more) :
    Text.upperString word ≠ "EQU" := by
  cases h with
  | label | both => simp at hmore
  | plain _ plainly =>
    obtain ⟨_, hrest⟩ := List.cons.inj hmore
    obtain rfl : rest = _ := hrest
    exact (plainly (some (.ident word)) rfl).2 word rfl

theorem Opens.split {front back : List Lexeme}
    (h : Opens (front.map (·.token)) (back.map (·.token)) label mnemonic) :
    (splitLabel (front ++ back)).1 = label ∧
      splitMnemonic (splitLabel (front ++ back)).2 = .ok (mnemonic, back) := by
  generalize hfront : front.map (·.token) = tokens, hback : back.map (·.token) = rest at h
  cases h with
  | label name =>
    simp only [List.map_eq_cons_iff, List.map_eq_nil_iff] at hfront hback
    obtain ⟨⟨_, _, _⟩, _, rfl, rfl, ⟨_, _, _⟩, _, rfl, rfl, rfl⟩ := hfront
    subst hback
    exact ⟨rfl, rfl⟩
  | both name word =>
    simp only [List.map_eq_cons_iff, List.map_eq_nil_iff] at hfront
    obtain ⟨⟨_, _, _⟩, _, rfl, rfl, ⟨_, _, _⟩, _, rfl, rfl, ⟨_, _, _⟩, _, rfl, rfl, rfl⟩ :=
      hfront
    exact ⟨rfl, rfl⟩
  | plain word plainly unbroken =>
    simp only [List.map_eq_cons_iff, List.map_eq_nil_iff] at hfront
    obtain ⟨w, _, rfl, hword, rfl⟩ := hfront
    have hunlabelled : splitLabel (w :: back) = (none, w :: back) := by
      rcases splitLabel_cases (w :: back) with ⟨_, _, l', _, hls, _, hcolon, _⟩ | ⟨hnone, _⟩
      · obtain ⟨_, rfl⟩ := List.cons.inj hls
        exact absurd hcolon (plainly l'.token (hback ▸ rfl)).1
      · exact hnone
    rw [List.singleton_append, hunlabelled]
    obtain ⟨_, start, stop⟩ := w
    obtain rfl := hword
    exact ⟨rfl, rfl⟩

/-- A line that opens so is read as its operands are. -/
theorem Opens.ofLexemes_eq {front back : List Lexeme}
    (h : Opens (front.map (·.token)) (back.map (·.token)) label mnemonic) :
    ofLexemes code (front ++ back) number =
      ((operandGroups back).mapM (readOperand code)).map
        fun operands => ⟨label, mnemonic, operands, number⟩ := by
  have hunbroken : ¬ brokenLabel (front ++ back) = true := by
    rw [brokenLabel_iff, List.map_append]
    exact h.not_broken
  have hconstant : constant? (front ++ back) = none := by
    rw [constant?_eq_none_iff, List.map_append]
    exact fun name word more => h.not_constant
  obtain ⟨hlabel, hmnemonic⟩ := h.split
  rw [ofLexemes, if_neg hunbroken, hconstant]
  dsimp only
  unfold readInstruction
  dsimp only
  rw [hmnemonic, hlabel]
  show ((operandGroups back).mapM (readOperand code) >>= fun operands => pure _) = _
  cases (operandGroups back).mapM (readOperand code) <;> rfl

/-- The lexemes of a line that are left for its operands. -/
def operandLexemes (lexemes : List Lexeme) : List Lexeme :=
  match splitMnemonic (splitLabel lexemes).2 with
  | .ok (_, rest) => rest
  | .error _ => []

/-- A word opens a line by itself if there is no label, no constant and no broken label. -/
theorem opens_plain {word : String} {w : Lexeme} {back : List Lexeme}
    (hword : w.token = some (.ident word)) (hconstant : constant? (w :: back) = none)
    (hunbroken : ¬ Broken ((w :: back).map (·.token)))
    (hunlabelled : ∀ name rest,
      (w :: back).map (·.token) ≠ some (.ident name) :: some .colon :: rest) :
    Opens [some (.ident word)] (back.map (·.token)) none (some (.ofWord word)) := by
  have hconstant := constant?_eq_none_iff.mp hconstant word
  rw [List.map_cons, hword] at hconstant hunbroken hunlabelled
  have hplainly : OpensPlainly (back.map (·.token)) := by
    intro t ht
    obtain ⟨rest, hrest⟩ := List.head?_eq_some_iff.mp ht
    refine ⟨?_, ?_⟩
    · rintro rfl
      exact hunlabelled word rest (congrArg _ hrest)
    · rintro other rfl
      exact hconstant other rest (congrArg _ hrest)
  have hplain := Token.isPlain_ident word
  exact .plain word hplainly (mt (Token.broken_plain_iff hplain).mpr hunbroken)

/-- A line that is read and holds no constant opens with a label, a mnemonic or both. -/
theorem exists_opens (h : ofLexemes code ls number = .ok line) (hconstant : constant? ls = none)
    (hne : ls ≠ []) :
    ∃ front back, ls = front ++ back ∧ front ≠ [] ∧ operandLexemes ls = back ∧
      Opens (front.map (·.token)) (back.map (·.token)) line.label line.mnemonic ∧
      (operandGroups back).mapM (readOperand code) = .ok line.operands := by
  unfold ofLexemes at h
  split at h
  · exact nomatch h
  next hunbroken =>
  rw [brokenLabel_iff] at hunbroken
  rw [hconstant] at h
  obtain ⟨back, hsplit, hlabel, hoperands⟩ := readInstruction_ok h
  have hback : operandLexemes ls = back := by rw [operandLexemes, hsplit]
  suffices hopens : ∃ front, ls = front ++ back ∧ front ≠ [] ∧
      Opens (front.map (·.token)) (back.map (·.token)) line.label line.mnemonic by
    obtain ⟨front, hls, hfront, hopens⟩ := hopens
    exact ⟨front, back, hls, hfront, hback, hopens, hoperands⟩
  rw [← hlabel]
  rcases splitLabel_cases ls with
    ⟨name, l, l', rest, rfl, hname, hcolon, hlabelled⟩ | ⟨hnone, hunlabelled⟩
  · rw [hlabelled] at hsplit ⊢
    rcases splitMnemonic_ok hsplit with ⟨rfl, hm, rfl⟩ | ⟨word, w, rfl, hword, hm⟩
    · refine ⟨[l, l'], (List.append_nil _).symm, List.cons_ne_nil _ _, ?_⟩
      rw [hm, List.map_cons, List.map_cons, hname, hcolon]
      exact .label name
    · refine ⟨[l, l', w], rfl, List.cons_ne_nil _ _, ?_⟩
      rw [hm, List.map_cons, List.map_cons, List.map_cons, hname, hcolon, hword]
      exact .both name word _
  · rw [hnone] at hsplit ⊢
    rcases splitMnemonic_ok hsplit with ⟨rfl, _⟩ | ⟨word, w, rfl, hword, hm⟩
    · exact absurd rfl hne
    · refine ⟨[w], rfl, List.cons_ne_nil _ _, ?_⟩
      rw [hm, List.map_cons, hword]
      exact opens_plain hword hconstant hunbroken hunlabelled

/-! ## 2. What counts of a line -/

/-- A text that is all that counts of a line: there is some of it, it has no blanks at its ends, and
neither the line nor what counts of it ends inside. -/
structure IsCode (text : List Char) : Prop where
  ne_nil : text ≠ []
  starts : StartsSolid text
  ends : EndsSolid text
  inLine : InLine text

theorem IsCode.append {front back : List Char} (h : IsCode front) (hends : EndsSolid back)
    (hline : InLine back) : IsCode (front ++ back) where
  ne_nil := List.append_ne_nil_of_left_ne_nil h.ne_nil back
  starts c hc := by
    rw [List.head?_append_of_ne_nil front h.ne_nil] at hc
    exact h.starts c hc
  ends := by
    by_cases hne : back = []
    · rw [hne, List.append_nil]
      exact h.ends
    · exact hends.append hne
  inLine := Text.inLine_append.mpr ⟨h.inLine, hline⟩

theorem IsCode.space {more : List Char} (h : IsCode text) (hne : more ≠ []) (hends : EndsSolid more)
    (hline : InLine more) : IsCode (text ++ ' ' :: more) := by
  have hmore : EndsSolid ([' '] ++ more) := hends.append hne
  refine h.append hmore ?_
  rintro c (_ | ⟨_, hc⟩)
  · decide
  · exact hline c hc

theorem isCode_of_solid (hne : text ≠ []) (hsolid : ∀ c ∈ text, Text.isBlank c = false ∧ c ≠ ';') :
    IsCode text where
  ne_nil := hne
  starts c hc := (hsolid c (List.mem_of_mem_head? hc)).1
  ends c hc := (hsolid c (List.mem_of_getLast? hc)).1
  inLine c hc := ⟨Operand.ne_newline_of_not_isBlank (hsolid c hc).1, (hsolid c hc).2⟩

/-- Blanks behind a line do not count. -/
theorem code_append {blanks : List Char} (hblanks : IsBlanks blanks) (text : List Char) :
    Line.code (text ++ blanks) = Line.code text := by
  have hbefore : blanks.takeWhile (· ≠ ';') = blanks := by
    rw [List.takeWhile_eq_self_iff]
    intro c hc
    refine decide_eq_true ?_
    rintro rfl
    exact nomatch hblanks ';' hc
  unfold Line.code
  rw [List.takeWhile_append]
  split
  · next hlength =>
    have hall := (List.takeWhile_prefix (· ≠ ';')).eq_of_length hlength
    rw [hall, hbefore, Text.trim_append hblanks]
  · rfl

theorem IsCode.code_eq (h : IsCode text) : Line.code text = text := by
  have hall : text.takeWhile (· ≠ ';') = text := by
    rw [List.takeWhile_eq_self_iff]
    intro c hc
    exact decide_eq_true (h.inLine c hc).2
  rw [Line.code, hall]
  exact Text.trim_eq_self h.starts h.ends

theorem isCode_code (hline : '\n' ∉ text) (hne : Line.code text ≠ []) :
    IsCode (Line.code text) where
  ne_nil := hne
  starts := Text.startsSolid_trim _
  ends := Text.endsSolid_trim _
  inLine c hc := by
    have hmem := Text.mem_of_mem_trim hc
    have hbefore := List.mem_takeWhile_imp hmem
    refine ⟨?_, of_decide_eq_true hbefore⟩
    rintro rfl
    exact hline ((List.takeWhile_sublist _).mem hmem)

theorem lex_ne_nil (hne : text ≠ []) (h : StartsSolid text) : Token.lex text ≠ [] := by
  intro hnil
  have hgaps := Token.isGaps_of_lexFrom_eq_nil hnil
  obtain ⟨c, rest, rfl⟩ := List.exists_cons_of_ne_nil hne
  have hblank := Token.isBlank_of_isGap (hgaps c List.mem_cons_self)
  exact Bool.eq_false_iff.mp (h c rfl) hblank

/-! ## 3. What a line is shown by -/

/-- What a line opens with when it is shown, without a blank behind it. -/
def opening : Option String → Option Mnemonic → List Char
  | some name, some m => name.toList ++ ':' :: ' ' :: m.render.toList
  | some name, none => name.toList ++ [':']
  | none, some m => m.render.toList
  | none, none => []

/-- What comes behind the mnemonic when a line is shown. -/
def operandTail : List Operand → List Char
  | [] => []
  | op :: ops => ' ' :: (renderOperands (op :: ops)).toList

/-- A text that opens a line, with its tokens. -/
structure IsOpening (text : List Char) (tokens : List (Option Token)) : Prop
    extends IsCode text where
  lexes : ∀ next, Stops inIdent next → Lexes next text tokens

theorem isOpening_word (h : IsWord name) : IsOpening name.toList [some (.ident name)] := by
  have hword := Operand.canonical_word h
  exact ⟨isCode_of_solid hword.nonempty hword.solid, fun _ => h.lexes⟩

theorem IsOpening.colon (h : IsOpening text tokens) :
    IsOpening (text ++ [':']) (tokens ++ [some .colon]) := by
  have hcolon : IsCode [':'] := by
    refine isCode_of_solid (List.cons_ne_nil _ _) ?_
    intro c hc
    obtain rfl := List.mem_singleton.mp hc
    decide
  refine ⟨h.toIsCode.append hcolon.ends hcolon.inLine, ?_⟩
  intro next _
  exact Token.Lexes.append (h.lexes (some ':') (stops_some rfl)) (.mark .nil rfl)

theorem IsOpening.space {more : List Char} (h : IsOpening text tokens) (h' : IsOpening more rest) :
    IsOpening (text ++ ' ' :: more) (tokens ++ rest) := by
  refine ⟨h.toIsCode.space h'.ne_nil h'.ends h'.inLine, ?_⟩
  intro next hnext
  exact Token.Lexes.append (h.lexes (some ' ') (stops_some rfl)) (.gap rfl (h'.lexes next hnext))

/-- What opens a line opens it again when it is shown. -/
theorem Opens.exists_shown (h : Opens tokens rest label mnemonic)
    (hwords : ∀ name, some (.ident name) ∈ tokens → IsWord name) (hmilder : Milder rest' rest)
    (hnil : rest = [] → rest' = []) :
    ∃ tokens', Opens tokens' rest' label mnemonic ∧ IsOpening (opening label mnemonic) tokens' := by
  cases h with
  | label name =>
    obtain rfl := hnil rfl
    have hname := isOpening_word (hwords name List.mem_cons_self)
    exact ⟨_, .label name, hname.colon⟩
  | both name word =>
    have hname := isOpening_word (hwords name List.mem_cons_self)
    obtain ⟨hword, hread⟩ := Mnemonic.ofWord_render (hwords word (by simp))
    have hopens := Opens.both name (Mnemonic.ofWord word).render rest'
    rw [hread] at hopens
    refine ⟨_, hopens, ?_⟩
    have hboth := hname.colon.space (isOpening_word hword)
    rwa [List.append_assoc] at hboth
  | plain word plainly unbroken =>
    obtain ⟨hword, hread⟩ := Mnemonic.ofWord_render (hwords word List.mem_cons_self)
    have hopens := Opens.plain (Mnemonic.ofWord word).render (hmilder.plainly plainly)
      (mt hmilder.plainer.broken unbroken)
    rw [hread] at hopens
    exact ⟨_, hopens, isOpening_word hword⟩

/-- What the operands of a line are shown by has these tokens. -/
inductive Tail : List (Option Token) → List Operand → Prop
  | none : Tail [] []
  | some {tokens : List (Option Token)} {ops : List Operand}
      (series : Series (renderOperands ops).toList tokens ops) : Tail tokens ops

theorem Series.operandTail_eq (h : Series text tokens ops) :
    operandTail ops = ' ' :: (renderOperands ops).toList := by
  cases h <;> rfl

theorem Series.tokens_ne_nil (h : Series text tokens ops) : tokens ≠ [] := by
  obtain ⟨htokens, hslots, _⟩ := h.reads []
  rintro rfl
  exact ne_nil_of_nil_not_mem hslots (List.map_eq_nil_iff.mp htokens)

theorem Tail.eq_nil (h : Tail [] ops) : ops = [] := by
  cases h with
  | none => rfl
  | some series => exact absurd rfl series.tokens_ne_nil

/-- The operands of a line are shown by a text that is read as the same operands. -/
theorem exists_tail (hcode : code = pre ++ text) (hls : lexFrom (byteLength pre) text = ls)
    (hslots : [] ∉ slots ls) (hread : (operandGroups ls).mapM (readOperand code) = .ok ops)
    (hends : EndsSolid text) (hline : InLine text) :
    ∃ tokens', Tail tokens' ops ∧ Milder tokens' (ls.map (·.token)) ∧
      (ls.map (·.token) = [] → tokens' = []) := by
  by_cases hne : ls = []
  · subst hne
    obtain rfl : [] = ops := Except.ok.inj hread
    exact ⟨[], .none, .refl [], fun _ => rfl⟩
  · rw [operandGroups_of_slots hslots] at hread
    rw [slots_of_ne_nil hne] at hslots hread
    obtain ⟨gaps, series, _, _, hseries⟩ := exists_series hcode hls hslots hread hends hline
    obtain ⟨tokens', hseries', hmilder⟩ := hseries.exists_render
    refine ⟨tokens', .some hseries', hmilder, ?_⟩
    intro hnil
    exact absurd (List.map_eq_nil_iff.mp hnil) hne

theorem Tail.reads (h : Tail tokens ops) (pre : List Char) :
    (lexFrom (byteLength pre) (operandTail ops)).map (·.token) = tokens ∧
      (operandGroups (lexFrom (byteLength pre) (operandTail ops))).mapM
        (readOperand (pre ++ operandTail ops)) = .ok ops := by
  cases h with
  | none =>
    rw [operandTail, Token.lexFrom_nil]
    exact ⟨rfl, rfl⟩
  | some series =>
    obtain ⟨htokens, hslots, hreads⟩ := series.reads (pre ++ [' '])
    have hlex : lexFrom (byteLength pre) (operandTail ops) =
        lexFrom (byteLength (pre ++ [' '])) (renderOperands ops).toList := by
      rw [series.operandTail_eq, Token.lexFrom_gap rfl, Text.byteLength_append]
      rfl
    have htext : pre ++ operandTail ops = pre ++ [' '] ++ (renderOperands ops).toList := by
      rw [series.operandTail_eq]
      simp
    have hne := ne_nil_of_nil_not_mem hslots
    rw [← slots_of_ne_nil hne] at hslots hreads
    rw [hlex, htext, operandGroups_of_slots hslots]
    exact ⟨htokens, hreads⟩

theorem Tail.stops (h : Tail tokens ops) : Stops inIdent (operandTail ops).head? := by
  cases h with
  | none => exact stops_none
  | some series =>
    rw [series.operandTail_eq]
    exact stops_some rfl

theorem Tail.isCode_append {front : List Char} (h : Tail tokens ops) (hfront : IsCode front) :
    IsCode (front ++ operandTail ops) := by
  cases h with
  | none => exact hfront.append nofun nofun
  | some series =>
    rw [series.operandTail_eq]
    exact hfront.space series.ne_nil series.endsSolid series.inLine

/-! ## 4. Lines shown and read again -/

/-- A line is shown by what opens it and by its operands. A label alone has a space behind it. -/
theorem Opens.exists_render (h : Opens tokens rest line.label line.mnemonic)
    (htail : Tail rest line.operands) :
    ∃ spaces, (∀ c ∈ spaces, c = ' ') ∧
      line.render.toList =
        opening line.label line.mnemonic ++ operandTail line.operands ++ spaces := by
  obtain ⟨label, mnemonic, operands, number⟩ := line
  dsimp only at h htail ⊢
  cases h with
  | label name =>
    obtain rfl := htail.eq_nil
    exact ⟨[' '], by simp, by simp [render, instruction, opening, operandTail]⟩
  | both name word =>
    refine ⟨[], nofun, ?_⟩
    cases operands <;> simp [render, instruction, opening, operandTail]
  | plain word =>
    refine ⟨[], nofun, ?_⟩
    cases operands <;> simp [render, instruction, opening, operandTail]

/-- A text that can be ended by a line feed, and is a line then. -/
structure IsLine (text : List Char) : Prop where
  inLine : '\n' ∉ text
  noReturn : text.getLast? ≠ some '\r'

theorem IsCode.isLine_append {spaces : List Char} (h : IsCode text)
    (hspaces : ∀ c ∈ spaces, c = ' ') : IsLine (text ++ spaces) where
  inLine hmem := by
    rcases List.mem_append.mp hmem with hmem | hmem
    · exact h.inLine.not_mem hmem
    · exact absurd (hspaces _ hmem) (by decide)
  noReturn hlast := by
    rw [List.getLast?_append] at hlast
    cases hspace : spaces.getLast? with
    | none =>
      rw [hspace] at hlast
      exact nomatch h.ends _ hlast
    | some c =>
      rw [hspace] at hlast
      obtain rfl := Option.some.inj hlast
      exact absurd (hspaces _ (List.mem_of_getLast? hspace)) (by decide)

/-- **A line is read from the text that it is shown by**, if what opens it there has the tokens that
    open it, and what is behind that the tokens of its operands. -/
theorem Opens.parse_render (h : Opens tokens rest line.label line.mnemonic)
    (hopening : IsOpening (opening line.label line.mnemonic) tokens)
    (htail : Tail rest line.operands) :
    parse line.render.toList line.number = .ok (some line) ∧ IsLine line.render.toList := by
  obtain ⟨spaces, hspaces, hrender⟩ := h.exists_render htail
  generalize opening line.label line.mnemonic = front at hopening hrender
  have hcode := htail.isCode_append hopening.toIsCode
  rw [hrender]
  refine ⟨?_, hcode.isLine_append hspaces⟩
  have hblanks : IsBlanks spaces := by
    intro c hc
    rw [hspaces c hc]
    rfl
  rw [parse_eq_some_iff, code_append hblanks, hcode.code_eq]
  refine ⟨hcode.ne_nil, ?_⟩
  obtain ⟨ls, hls, htokens, _⟩ := (hopening.lexes _ htail.stops).lexFrom_append 0
  obtain ⟨hback, hreads⟩ := htail.reads front
  rw [Nat.zero_add] at hls
  have hopens : Opens (ls.map (·.token))
      ((lexFrom (byteLength front) (operandTail line.operands)).map (·.token)) line.label
      line.mnemonic := by
    rw [htokens, hback]
    exact h
  rw [Token.lex, hls, hopens.ofLexemes_eq, hreads]
  rfl

end Line
end Mcs51
