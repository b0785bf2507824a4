import Mcs51.Proofs.RaisedLine
import Mcs51.Proofs.Spans

/-!
# Cuts in step with the tokens

The reader of a line cuts its text at the offsets of the lexemes, and the reader of an operand cuts
on, at the first byte, as often as there is a complement mark. A cut that is out of range or inside
a character would be a failure of its own (`ReadFailure.outsideText`), and a cut at a wrong place
would be none, so the offsets alone do not say that an operand is read from its own text.

The cuts of an operand are followed here by the readings that it comes to. `Operand.Reaches` says
which these are, and a cut that fails fails in one of them (`exists_reaches_of_outsideText`). In
each of them the text is what the tokens take up, because a mark is one character and one token, and
the blanks behind it are gaps where there is a token for everything else
(`TakesUp.behind_complement`). So the offsets of the tokens that are left always give the text that
is left, and each level has one token fewer.
-/

namespace Mcs51

open Text (dropBytes? trimStart)

/-! ## 1. Readings of an operand -/

namespace Operand

variable {ts us : List Token} {text inner : List Char} {depth : Nat}

/-- Reading an operand comes to another reading, so many complements further in. Behind the mark
what is left of the text is read, without the blanks that it begins with. -/
inductive Reaches : Nat → List Token → List Char → List Token → List Char → Prop
  | here (ts : List Token) (text : List Char) : Reaches 0 ts text ts text
  | complement {depth : Nat} {ts us : List Token} {text rest inner : List Char}
      (cut : dropBytes? 1 text = some rest)
      (behind : Reaches depth ts (trimStart rest) us inner) :
      Reaches (depth + 1) (.slash :: ts) text us inner

/-- The two marks behind which a text is cut. -/
def Cuts (ts : List Token) : Prop := ∃ vs, ts = .hash :: vs ∨ ts = .slash :: vs

/-- The reading of a complement is that of what it is the complement of. -/
theorem ofTokens_slash_of_cut {rest : List Char} (h : dropBytes? 1 text = some rest) :
    ofTokens (.slash :: ts) text = (ofTokens ts (trimStart rest)).map (complement text) := by
  rw [ofTokens_slash_eq, ReadFailure.require_ok_iff.mpr h]
  show ofTokens ts (trimStart rest) >>= _ = _
  cases ofTokens ts (trimStart rest) <;> rfl

/-- A cut that fails does so in a reading that is reached. -/
theorem exists_reaches_of_outsideText (h : ofTokens ts text = .error .outsideText) :
    ∃ depth us inner, Reaches depth ts text us inner ∧ Cuts us ∧ dropBytes? 1 inner = none := by
  induction ts generalizing text with
  | nil => cases h
  | cons t ts ih =>
    cases hcut : dropBytes? 1 text with
    | none =>
      refine ⟨0, t :: ts, text, .here _ _, ?_, hcut⟩
      unfold ofTokens at h
      split at h
      · next vs hvs => exact ⟨vs, .inl hvs⟩
      · split at h <;> cases h
      · cases h
      · next vs hvs => exact ⟨vs, .inr hvs⟩
      all_goals cases h
    | some rest =>
      by_cases hslash : t = .slash
      · subst hslash
        rw [ofTokens_slash_of_cut hcut] at h
        cases hread : ofTokens ts (trimStart rest) with
        | ok op =>
          rw [hread] at h
          cases h
        | error e =>
          rw [hread] at h
          obtain rfl : e = .outsideText := Except.error.inj h
          obtain ⟨depth, us, inner, hreaches, hcuts, hnone⟩ := ih hread
          exact ⟨depth + 1, us, inner, .complement hcut hreaches, hcuts, hnone⟩
      · -- The cut behind a value mark succeeds, and no other token leads to one.
        unfold ofTokens at h
        split at h
        · rw [ReadFailure.require_ok_iff.mpr hcut] at h
          cases h
        · split at h <;> cases h
        · cases h
        · next hvs => exact absurd (List.head_eq_of_cons_eq hvs) hslash
        all_goals cases h

theorem ofRawText_ne_outsideText (text : List Char) :
    ofRawText text ≠ .error .outsideText := by
  unfold ofRawText
  split <;> exact nofun

end Operand

namespace Line

open Operand (Reaches Cuts)
open Token (Lexes lexFrom)
open Text (byteLength)

variable {code pre text inner more : List Char} {group back : List Lexeme} {ts us : List Token}
  {l : Lexeme} {m : Token} {c : Char} {depth : Nat}

/-! ## 2. One mark -/

theorem TakesUp.exists_of_mark (h : TakesUp pre text more group back)
    (htokens : group.map (·.token) = (m :: ts).map some) (hc : Token.ofMark? c = some m) :
    ∃ rest, text = c :: rest := by
  have hne : group ≠ [] := by
    rintro rfl
    exact nomatch htokens
  have hlexes := h.lexes
  rw [htokens] at hlexes
  obtain ⟨rest, hrest, -⟩ :=
    hlexes.exists_of_mark hc (Token.isMark_of_ofMark? hc) (h.exists_first hne)
  exact ⟨rest, hrest⟩

/-- Behind a mark the rest of the text begins with gaps, and what comes then is what the other
lexemes take up. -/
theorem TakesUp.behind_mark {rest : List Char}
    (h : TakesUp pre (c :: rest) more (l :: group) back) (hc : Token.ofMark? c = some m)
    (htokens : group.map (·.token) = ts.map some) :
    ∃ blanks, rest = blanks ++ trimStart rest ∧
      TakesUp (pre ++ c :: blanks) (trimStart rest) more group back := by
  obtain ⟨blanks, hrest, hblanks⟩ := Text.exists_trimStart rest
  have hsolid := Text.startsSolid_trimStart rest
  generalize trimStart rest = inner at hrest hsolid
  subst hrest
  obtain ⟨us, hus, hbehind⟩ := h.lexes.exists_of_cons_mark hc
  obtain rfl : group.map (·.token) = us := List.tail_eq_of_cons_eq hus
  rw [htokens] at hbehind
  obtain ⟨hgaps, hlexes⟩ := hbehind.dropBlanks hblanks
  have hlength : byteLength (pre ++ c :: blanks) =
      byteLength pre + byteLength [c] + byteLength blanks := by
    simp only [Text.byteLength_append, Text.byteLength_cons, Text.byteLength_nil]
    omega
  refine ⟨blanks, rfl, ?_, ?_, ?_, ?_⟩
  · have hscanned : Token.Scanned (blanks ++ inner ++ more).head? c [] (some m) :=
      Token.scanned_of_ofMark? hc
    have htoken := Token.lexFrom_token (Token.not_isGap_of_ofMark? hc) hscanned (byteLength pre)
    have hrest := List.tail_eq_of_cons_eq (htoken.symm.trans h.lexed)
    rwa [List.append_assoc, Token.lexFrom_gaps hgaps, ← hlength] at hrest
  · rw [htokens]
    exact hlexes
  · intro d hd
    exact Operand.isGap_eq_false_of_not_isBlank (hsolid d hd)
  · intro l' hl'
    have hlast : (l :: group).getLast? = some l' := by
      rw [List.getLast?_cons, hl']
      rfl
    rw [h.last l' hlast, hlength]
    simp only [Text.byteLength_append, Text.byteLength_cons, Text.byteLength_nil]
    omega

/-! ## 3. Every reading -/

/-- **At every level the text is what the tokens take up.** A reading that is reached has the
lexemes from its depth on, and they take up its text in the same line. -/
theorem TakesUp.of_reaches (hreaches : Reaches depth ts text us inner)
    (h : TakesUp pre text more group back) (htokens : group.map (·.token) = ts.map some) :
    ∃ pre', pre' ++ (inner ++ more) = pre ++ (text ++ more) ∧
      TakesUp pre' inner more (group.drop depth) back ∧
      (group.drop depth).map (·.token) = us.map some ∧ us.length + depth = group.length := by
  induction hreaches generalizing pre group with
  | here ts text =>
    have hlength := congrArg List.length htokens
    simp only [List.length_map] at hlength
    exact ⟨pre, rfl, h, htokens, hlength.symm⟩
  | @complement depth ts us text rest inner cut behind ih =>
    have hslash : Token.ofMark? '/' = some .slash := rfl
    obtain ⟨rest', rfl⟩ := h.exists_of_mark htokens hslash
    obtain rfl : rest' = rest :=
      Option.some.inj ((Token.dropBytes?_mark hslash rest').symm.trans cut)
    cases group with
    | nil => exact nomatch htokens
    | cons l group =>
      have hothers := List.tail_eq_of_cons_eq htokens
      obtain ⟨blanks, hrest, hbehind⟩ := h.behind_mark hslash hothers
      obtain ⟨pre', hpre', htakes, hus, hlength⟩ := ih hbehind hothers
      refine ⟨pre', ?_, htakes, hus, congrArg (· + 1) hlength⟩
      rw [hpre', List.append_assoc, List.cons_append, List.cons_append, ← List.append_assoc blanks,
        ← hrest]

/-- What a reading is given at a depth, and what it cuts. -/
structure InStep (code : List Char) (group : List Lexeme) (depth : Nat) (us : List Token)
    (inner : List Char) : Prop where
  tokens : (group.drop depth).map (·.token) = us.map some
  consumed : us.length + depth = group.length
  /-- The text is cut out of the line by the offsets of the lexemes that are left. -/
  spanned : groupText code (group.drop depth) = .ok inner
  value : ∀ vs, us = .hash :: vs → ∃ value, dropBytes? 1 inner = some value
  complement : ∀ vs, us = .slash :: vs → ∃ rest, dropBytes? 1 inner = some rest ∧
    Operand.ofTokens us inner = (Operand.ofTokens vs (trimStart rest)).map (.complement inner)

theorem TakesUp.inStep (h : TakesUp pre text more group back)
    (htokens : group.map (·.token) = ts.map some) (hreaches : Reaches depth ts text us inner) :
    InStep (pre ++ (text ++ more)) group depth us inner := by
  obtain ⟨pre', hpre', htakes, hus, hlength⟩ := h.of_reaches hreaches htokens
  have hcut : ∀ m c vs, Token.ofMark? c = some m → us = m :: vs →
      ∃ rest, dropBytes? 1 inner = some rest := by
    rintro m c vs hc rfl
    obtain ⟨rest, rfl⟩ := htakes.exists_of_mark hus hc
    exact ⟨rest, Token.dropBytes?_mark hc rest⟩
  refine ⟨hus, hlength, ?_, fun vs => hcut .hash '#' vs rfl, ?_⟩
  · rw [← hpre']
    exact htakes.groupText_eq
  · rintro vs rfl
    obtain ⟨rest, hrest⟩ := hcut .slash '/' vs rfl rfl
    exact ⟨rest, hrest, Operand.ofTokens_slash_of_cut hrest⟩

theorem TakesUp.readOperand_ne_outsideText (h : TakesUp pre text more group back)
    (hne : group ≠ []) :
    readOperand (pre ++ (text ++ more)) group ≠ .error .outsideText := by
  rw [readOperand_of_spells (h.spells hne)]
  rcases Operand.map_some_or_mapM_eq_none (group.map (·.token)) with ⟨ts, htokens⟩ | hnone
  · rw [htokens, Operand.readTokens_map_some]
    intro hfail
    obtain ⟨depth, us, inner, hreaches, ⟨vs, hvs⟩, hcut⟩ :=
      Operand.exists_reaches_of_outsideText hfail
    have hstep := h.inStep htokens hreaches
    rcases hvs with hvs | hvs
    · obtain ⟨value, hvalue⟩ := hstep.value vs hvs
      exact nomatch hcut.symm.trans hvalue
    · obtain ⟨rest, hrest, -⟩ := hstep.complement vs hvs
      exact nomatch hcut.symm.trans hrest
  · rw [Operand.readTokens, hnone]
    exact Operand.ofRawText_ne_outsideText text

/-! ## 4. Lines -/

/-- The text behind the word of a constant is there to be cut. -/
theorem exists_value_of_constant? {name : String} {stop : Nat}
    (h : constant? (Token.lex code) = some (name, stop)) :
    ∃ value, dropBytes? stop code = some value := by
  unfold constant? at h
  split at h
  · next first start stop' word start' stop'' rest hlex =>
    split at h
    · obtain ⟨-, rfl⟩ := Prod.mk.inj (Option.some.inj h)
      have hsplit : Token.lex code = [⟨some (.ident first), start, stop'⟩,
          ⟨some (.ident word), start', stop''⟩] ++ rest := hlex
      obtain ⟨before, after, rfl, -, hstop⟩ := Token.exists_behind_lex hsplit
      obtain rfl : stop'' = byteLength before := hstop
      exact ⟨after, Text.dropBytes?_append before after⟩
    · exact nomatch h
  · exact nomatch h

theorem readInstruction_ne_outsideText (code : List Char) (number : Nat) :
    readInstruction code (Token.lex code) number ≠ .error .outsideText := by
  intro h
  have hread : readInstruction code (Token.lex code) number =
      (splitMnemonic (splitLabel (Token.lex code)).2).mapError .refused >>= fun found =>
        (operandGroups found.2).mapM (readOperand code) >>= fun operands =>
          .ok ⟨(splitLabel (Token.lex code)).1, found.1, operands, number⟩ := rfl
  rw [hread] at h
  cases hsplit : splitMnemonic (splitLabel (Token.lex code)).2 with
  | error e =>
    rw [hsplit] at h
    cases Except.error.inj h
  | ok found =>
    rw [hsplit] at h
    change (operandGroups found.2).mapM (readOperand code) >>= _ = _ at h
    have hback : operandLexemes (Token.lex code) = found.2 := by rw [operandLexemes, hsplit]
    cases hoperands : (operandGroups found.2).mapM (readOperand code) with
    | ok operands =>
      rw [hoperands] at h
      cases h
    | error e =>
      rw [hoperands] at h
      obtain rfl : e = .outsideText := Except.error.inj h
      obtain ⟨i, group, hi, hfail, -⟩ := mapM_error_iff.mp hoperands
      have hgroup := List.mem_of_getElem? hi
      rw [← hback] at hgroup
      obtain ⟨hne, pre, text, more, back, rfl, htakes⟩ := exists_takesUp hgroup
      exact htakes.readOperand_ne_outsideText hne hfail

/-- No cut of a line fails: a line is read, or it is refused for a reason. -/
theorem read_ne_outsideText (text : List Char) (number : Nat) :
    read text number ≠ .error .outsideText := by
  unfold read
  dsimp only
  split
  · exact nofun
  · intro h
    have hlexemes : ofLexemes (Line.code text) (Token.lex (Line.code text)) number =
        .error .outsideText := by
      cases hread : ofLexemes (Line.code text) (Token.lex (Line.code text)) number with
      | ok line =>
        rw [hread] at h
        cases h
      | error e =>
        rw [hread] at h
        exact congrArg Except.error (Except.error.inj h)
    unfold ofLexemes at hlexemes
    split at hlexemes
    · cases Except.error.inj hlexemes
    split at hlexemes
    · next name stop hconstant =>
      obtain ⟨value, hvalue⟩ := exists_value_of_constant? hconstant
      rw [readConstant, ReadFailure.require_ok_iff.mpr hvalue] at hlexemes
      cases hlexemes
    · exact readInstruction_ne_outsideText _ _ hlexemes

/-- **Cuts follow the tokens.** In every line the lexemes are laid out with nothing but gaps between
    them; the text behind the word of a constant, the text of every operand and the text behind
    every mark are there to be cut; and where each lexeme of an operand has a token, the operand is
    read from these tokens and their source, and so is every complement in it, from one token
    fewer each time. -/
theorem slices_follow_tokens (text : List Char) (number : Nat) :
    Token.IsLaidOut (Line.code text) (Token.lex (Line.code text)) ∧
      read text number ≠ .error .outsideText ∧
      (∀ name stop, constant? (Token.lex (Line.code text)) = some (name, stop) →
        ∃ value, dropBytes? stop (Line.code text) = some value) ∧
      ∀ group ∈ operandGroups (operandLexemes (Token.lex (Line.code text))),
        ∃ source, groupText (Line.code text) group = .ok source ∧
          ∀ ts, group.map (·.token) = ts.map some →
            readOperand (Line.code text) group = Operand.ofTokens ts source ∧
              ∀ depth us inner, Reaches depth ts source us inner →
                InStep (Line.code text) group depth us inner := by
  refine ⟨Token.isLaidOut_lex _, read_ne_outsideText text number,
    fun _ _ => exists_value_of_constant?, ?_⟩
  intro group hgroup
  obtain ⟨hne, pre, source, more, back, hcode, htakes⟩ := exists_takesUp hgroup
  rw [hcode]
  refine ⟨source, htakes.groupText_eq, ?_⟩
  intro ts htokens
  refine ⟨?_, fun depth us inner => htakes.inStep htokens⟩
  rw [readOperand_of_spells (htakes.spells hne), htokens, Operand.readTokens_map_some]

/-- A line with a character of two bytes and one complement in another. -/
def nestedMarks : List Char := "ANL é, /\t/ P1.0".toList

theorem nestedMarks_in_step :
    ∃ group ∈ operandGroups (operandLexemes (Token.lex (Line.code nestedMarks))),
      group.map (·.stop) = [9, 11, 14, 15, 16] ∧
        groupText (Line.code nestedMarks) group = .ok "/\t/ P1.0".toList ∧
        Operand.Reaches 2 [.slash, .slash, .ident "P1", .dot, .numeric "0"] "/\t/ P1.0".toList
          [.ident "P1", .dot, .numeric "0"] "P1.0".toList ∧
        InStep (Line.code nestedMarks) group 2 [.ident "P1", .dot, .numeric "0"]
          "P1.0".toList := by
  let group : List Lexeme := [⟨some .slash, 8, 9⟩, ⟨some .slash, 10, 11⟩,
    ⟨some (.ident "P1"), 12, 14⟩, ⟨some .dot, 14, 15⟩, ⟨some (.numeric "0"), 15, 16⟩]
  have hgroup : group ∈ operandGroups (operandLexemes (Token.lex (Line.code nestedMarks))) := by
    decide +kernel
  have hreaches : Operand.Reaches 2 [.slash, .slash, .ident "P1", .dot, .numeric "0"]
      "/\t/ P1.0".toList [.ident "P1", .dot, .numeric "0"] "P1.0".toList := by
    have houter : dropBytes? 1 "/\t/ P1.0".toList = some "\t/ P1.0".toList := by decide
    have hinner : dropBytes? 1 "/ P1.0".toList = some " P1.0".toList := by decide
    exact .complement houter (.complement hinner (.here _ _))
  obtain ⟨-, -, -, hgroups⟩ := slices_follow_tokens nestedMarks 0
  obtain ⟨source, hsource, hlevels⟩ := hgroups group hgroup
  have hspanned : groupText (Line.code nestedMarks) group = .ok "/\t/ P1.0".toList := by
    decide +kernel
  obtain rfl := Except.ok.inj (hspanned.symm.trans hsource)
  exact ⟨group, hgroup, rfl, hspanned, hreaches, (hlevels _ rfl).2 2 _ _ hreaches⟩

end Line
end Mcs51
