import Mcs51.Proofs.AppendedLine
import Mcs51.Proofs.OperandValue

/-!
# Two ways to write a constant

`NAME EQU value` is found by its first two words and keeps all the text behind them. With a colon
behind the name the line has a label, a mnemonic and an operand, like any other. So the value goes
through two readers, and what these make of it is the same text or an operand of that text: from
there on `Symbols.valueOf_eq_resolve` says where they meet, and where they do not, the values of
both are known.

A text is taken here with the gaps before it and the blanks behind it, as it stands on a line, and
`Line.alone` is what is left without them.
-/

namespace Mcs51

/-! ## 1. Operands by themselves -/

namespace Line

open Operand (Written)
open Text (IsBlanks EndsSolid InLine byteLength)
open Token (IsGaps IsWord lexFrom Broken)

variable {expr front gaps : List Char} {op : Operand} {name : String} {number : Nat}
  {tokens : List (Option Token)}

/-- What is left of a text without the gaps before it and the blanks behind it. -/
def alone (expr : List Char) : List Char := (Text.trimEnd expr).dropWhile Token.isGap

/-- A text that is one operand: no comma separates it, it ends neither the line nor what counts of
that, and what it is by itself is accepted. -/
structure IsSingle (expr : List Char) (op : Operand) : Prop where
  inLine : InLine expr
  unsplit : some .comma ∉ (Token.lex (alone expr)).map (·.token)
  nonempty : alone expr ≠ []
  accepted : Operand.ofLexemes (Token.lex (alone expr)) (alone expr) = .ok op

instance (expr : List Char) (op : Operand) : Decidable (IsSingle expr op) :=
  have : Decidable (InLine expr) := List.decidableBAll _ expr
  decidable_of_iff (InLine expr ∧ some .comma ∉ (Token.lex (alone expr)).map (·.token) ∧
      alone expr ≠ [] ∧ Operand.ofLexemes (Token.lex (alone expr)) (alone expr) = .ok op)
    ⟨fun h => ⟨h.1, h.2.1, h.2.2.1, h.2.2.2⟩, fun h => ⟨h.1, h.2, h.3, h.4⟩⟩

theorem exists_alone (expr : List Char) : ∃ gaps blanks,
    expr = gaps ++ (alone expr ++ blanks) ∧ IsGaps gaps ∧ IsBlanks blanks := by
  obtain ⟨blanks, hexpr, hblanks⟩ := Text.exists_trimEnd expr
  refine ⟨(Text.trimEnd expr).takeWhile Token.isGap, blanks, ?_,
    fun _ => List.mem_takeWhile_imp, hblanks⟩
  rw [alone, ← List.append_assoc, List.takeWhile_append_dropWhile]
  exact hexpr

theorem endsSolid_alone (expr : List Char) : EndsSolid (alone expr) := by
  have hends := Text.endsSolid_trimEnd expr
  rw [← List.takeWhile_append_dropWhile (p := Token.isGap) (l := Text.trimEnd expr)] at hends
  exact hends.of_append

/-- An operand by itself is written at the end of a line. -/
theorem IsSingle.written (h : IsSingle expr op) :
    Written none (alone expr) ((Token.lex (alone expr)).map (·.token)) op := by
  have hends := endsSolid_alone expr
  obtain ⟨gaps, blanks, hexpr, _, _⟩ := exists_alone expr
  have hinline : InLine (alone expr) := by
    have hall := h.inLine
    rw [hexpr] at hall
    exact (Text.inLine_append.mp (Text.inLine_append.mp hall).2).1
  have hlast := List.getLast?_eq_some_getLast h.nonempty
  have hfirst := List.head?_dropWhile_not Token.isGap (Text.trimEnd expr)
  obtain ⟨c, rest, halone⟩ := List.exists_cons_of_ne_nil h.nonempty
  rw [← alone, halone] at hfirst
  refine ⟨Token.lexes_lex _, ⟨⟨c, ?_, hfirst⟩, ⟨_, hlast, ?_⟩⟩, .inr hends, h.unsplit, hinline, ?_⟩
  · rw [halone]
    rfl
  · exact Operand.isGap_eq_false_of_not_isBlank (hends _ hlast)
  · rw [← Operand.ofLexemes_eq]
    exact h.accepted

/-! ## 2. The two lines -/

theorem trim_alone (expr : List Char) : Text.trim (alone expr) = Text.trim expr := by
  obtain ⟨gaps, blanks, hexpr, hgaps, hblanks⟩ := exists_alone expr
  have hfront : IsBlanks gaps := fun c hc => Token.isBlank_of_isGap (hgaps c hc)
  calc Text.trim (alone expr) = Text.trim (alone expr ++ blanks) :=
        (Text.trim_append hblanks _).symm
    _ = Text.trim (gaps ++ (alone expr ++ blanks)) := (Text.trim_prepend hfront _).symm
    _ = Text.trim expr := by rw [← hexpr]

/-- The lexemes of a line are those that open it and, behind some gaps, those of its operand. -/
theorem exists_lex_opening (hopening : IsOpening front tokens) (h : IsSingle expr op) :
    ∃ gaps ls, IsGaps gaps ∧
      code (front ++ ' ' :: expr) = front ++ ' ' :: gaps ++ alone expr ∧
      Token.lex (front ++ ' ' :: gaps ++ alone expr) =
        ls ++ lexFrom (byteLength (front ++ ' ' :: gaps)) (alone expr) ∧
      ls.map (·.token) = tokens ∧ ls.getLast?.map (·.stop) = some (byteLength front) := by
  obtain ⟨gaps, blanks, hexpr, hgaps, hblanks⟩ := exists_alone expr
  have hspace : IsGaps (' ' :: gaps) := List.forall_mem_cons.mpr ⟨rfl, hgaps⟩
  have hends : EndsSolid (gaps ++ alone expr) := (endsSolid_alone expr).append h.nonempty
  have hinline : InLine (gaps ++ alone expr) := by
    have hall := h.inLine
    rw [hexpr, ← List.append_assoc] at hall
    exact (Text.inLine_append.mp hall).1
  have hcode : IsCode (front ++ ' ' :: gaps ++ alone expr) := by
    rw [List.append_assoc, List.cons_append]
    refine hopening.toIsCode.space ?_ hends hinline
    exact List.append_ne_nil_of_right_ne_nil gaps h.nonempty
  have hstops : Token.Stops Token.inIdent (some ' ') := Token.stops_some rfl
  have hlexes : Token.Lexes (' ' :: gaps ++ alone expr).head? front tokens :=
    hopening.lexes (some ' ') hstops
  obtain ⟨ls, hls, htokens, _, hstop⟩ := hlexes.lexFrom_append 0
  rw [Token.lexFrom_gaps hspace, Nat.zero_add, ← Text.byteLength_append] at hls
  have hlast := List.getLast?_eq_some_getLast hopening.ne_nil
  have hsolid := Operand.isGap_eq_false_of_not_isBlank (hopening.ends _ hlast)
  refine ⟨gaps, ls, hgaps, ?_, ?_, htokens, ?_⟩
  · have htext : front ++ ' ' :: expr = front ++ ' ' :: gaps ++ alone expr ++ blanks := by
      rw [List.append_assoc, List.append_assoc, List.cons_append, ← hexpr]
    rw [htext, code_append hblanks, hcode.code_eq]
  · rw [Token.lex, List.append_assoc]
    exact hls
  · rw [hstop _ hlast hsolid, Nat.zero_add]

/-- A line that is read from its tokens has its one operand. -/
theorem parse_opening {label : Option String} {mnemonic : Option Mnemonic}
    (hopening : IsOpening front tokens) (hopens : ∀ rest, Opens tokens rest label mnemonic)
    (h : IsSingle expr op) (number : Nat) :
    parse (front ++ ' ' :: expr) number = .ok (some ⟨label, mnemonic, [op], number⟩) := by
  obtain ⟨gaps, ls, _, hcode, hlex, htokens, _⟩ := exists_lex_opening hopening h
  have hseries : Series _ _ [op] := .last h.written
  obtain ⟨_, hslots, hreads⟩ := hseries.reads (front ++ ' ' :: gaps)
  have hne := ne_nil_of_nil_not_mem hslots
  rw [← slots_of_ne_nil hne] at hslots hreads
  rw [← operandGroups_of_slots hslots] at hreads
  rw [← htokens] at hopens
  rw [parse_eq_some_iff, hcode, hlex, (hopens _).ofLexemes_eq, hreads]
  refine ⟨List.append_ne_nil_of_right_ne_nil _ h.nonempty, rfl⟩

/-- A line that is read as a constant has all the text behind its first two words. -/
theorem parse_constant {word : String}
    (hopening : IsOpening front [some (.ident name), some (.ident word)])
    (hword : Text.upperString word = "EQU") (h : IsSingle expr op)
    (hunbroken : brokenLabel (Token.lex (alone expr)) = false) (number : Nat) :
    parse (front ++ ' ' :: expr) number =
      .ok (some ⟨some name, some .equ, [.immediate (String.ofList (Text.trim expr))], number⟩) := by
  obtain ⟨gaps, ls, hgaps, hcode, hlex, htokens, hstop⟩ := exists_lex_opening hopening h
  have hseries : Series _ _ [op] := .last h.written
  obtain ⟨hback, _, _⟩ := hseries.reads (front ++ ' ' :: gaps)
  have hspace : IsBlanks (' ' :: gaps) :=
    List.forall_mem_cons.mpr ⟨rfl, fun c hc => Token.isBlank_of_isGap (hgaps c hc)⟩
  have hlabel : ¬ brokenLabel (Token.lex (front ++ ' ' :: gaps ++ alone expr)) = true := by
    rw [← Bool.not_eq_true, brokenLabel_iff] at hunbroken
    rw [brokenLabel_iff, hlex, List.map_append, htokens, hback, List.cons_append,
      Token.broken_plain_iff (Token.isPlain_ident name), List.singleton_append,
      Token.broken_plain_iff (Token.isPlain_ident word)]
    exact hunbroken
  have hconstant : constant? (Token.lex (front ++ ' ' :: gaps ++ alone expr)) =
      some (name, byteLength front) := by
    obtain ⟨⟨_, _, _⟩, _, rfl, rfl, hrest⟩ := List.map_eq_cons_iff.mp htokens
    obtain ⟨⟨_, _, _⟩, _, rfl, rfl, hnil⟩ := List.map_eq_cons_iff.mp hrest
    obtain rfl := List.map_eq_nil_iff.mp hnil
    obtain rfl := Option.some.inj hstop
    rw [hlex]
    exact if_pos hword
  have hvalue : Text.trim (' ' :: gaps ++ alone expr) = Text.trim expr := by
    rw [Text.trim_prepend hspace, trim_alone]
  rw [parse_eq_some_iff, hcode]
  refine ⟨List.append_ne_nil_of_right_ne_nil _ h.nonempty, ?_⟩
  rw [ofLexemes, if_neg hlabel, hconstant]
  dsimp only
  rw [readConstant, List.append_assoc, Text.dropBytes?_append]
  show Except.ok (Line.mk _ _ [.immediate (String.ofList (Text.trim (' ' :: gaps ++ _)))] _) = _
  rw [hvalue]

end Line

/-! ## 3. What the two lines define -/

namespace Program

open Line (IsSingle IsOpening alone brokenLabel isOpening_word)
open Operand (reservedWords)
open Text (withLine)
open Token (IsWord)

variable {before name expr : String} {op : Operand} {p : Program}

theorem isWord_equ : IsWord "EQU" := ⟨'E', ['Q', 'U'], rfl, rfl, rfl⟩

theorem not_mem_newline_line (hname : IsWord name) (hexpr : IsSingle expr.toList op) (mid : String)
    (hmid : '\n' ∉ mid.toList) : '\n' ∉ (name ++ mid ++ expr).toList := by
  rw [String.toList_append, String.toList_append, List.mem_append, List.mem_append, not_or, not_or]
  exact ⟨⟨(isOpening_word hname).inLine.not_mem, hmid⟩, hexpr.inLine.not_mem⟩

/-- A constant without a colon is what its text is worth. -/
theorem exists_gains_plain (hname : IsWord name) (hexpr : IsSingle expr.toList op)
    (hunbroken : brokenLabel (Token.lex (alone expr.toList)) = false)
    (hp : ofSource before = .ok p) :
    ∃ q, ofSource (withLine before (name ++ " EQU " ++ expr)) = .ok q ∧
      p.Gains name (p.symbols.resolve expr) q := by
  have htext : (name ++ " EQU " ++ expr).toList =
      name.toList ++ ' ' :: "EQU".toList ++ ' ' :: expr.toList := by simp
  have hopening := (isOpening_word hname).space (isOpening_word isWord_equ)
  have hparse := Line.parse_constant hopening rfl hexpr hunbroken p.size
  rw [← htext] at hparse
  have hline := not_mem_newline_line hname hexpr " EQU " (by decide)
  have hvalue : p.symbols.valueOf (.immediate (String.ofList (Text.trim expr.toList))) =
      p.symbols.resolve expr := by
    rw [Symbols.valueOf_immediate]
    refine Symbols.resolve_congr (Symbols.bareText_congr ?_)
    rw [String.toList_ofList, Text.trim_trim]
  rw [← hvalue]
  exact exists_gains hp hline hparse

/-- A constant with a colon is what its operand is worth. -/
theorem exists_gains_labelled (hname : IsWord name) (hexpr : IsSingle expr.toList op)
    (hp : ofSource before = .ok p) :
    ∃ q, ofSource (withLine before (name ++ ": EQU " ++ expr)) = .ok q ∧
      p.Gains name (p.symbols.valueOf op) q := by
  have htext : (name ++ ": EQU " ++ expr).toList =
      name.toList ++ [':'] ++ ' ' :: "EQU".toList ++ ' ' :: expr.toList := by simp
  have hopening := (isOpening_word hname).colon.space (isOpening_word isWord_equ)
  have hparse := Line.parse_opening hopening (Line.Opens.both name "EQU") hexpr p.size
  rw [← htext] at hparse
  exact exists_gains hp (not_mem_newline_line hname hexpr ": EQU " (by decide)) hparse

/-- **The two ways to write a constant agree**, for every source before it and every value that is
one operand, unless the value is a reserved word or has two marks. A source that is refused is
refused with either line. Otherwise both add the one name to the symbols, leave the origins as they
are and start at the same place. A reserved word is looked up as a symbol in the line without a
colon, and is a byte or nothing in the line with one. -/
theorem constant_lines_agree (hname : IsWord name) (hexpr : IsSingle expr.toList op)
    (hunbroken : brokenLabel (Token.lex (alone expr.toList)) = false) :
    let plain := withLine before (name ++ " EQU " ++ expr)
    let labelled := withLine before (name ++ ": EQU " ++ expr)
    let word := String.ofList (alone expr.toList)
    (∀ e, ofSource before = .error e →
      ofSource plain = .error e ∧ ofSource labelled = .error e) ∧
    ∀ p, ofSource before = .ok p → ∃ v p₁ w p₂,
      ofSource plain = .ok p₁ ∧ p.Gains name v p₁ ∧
      ofSource labelled = .ok p₂ ∧ p.Gains name w p₂ ∧
      p₁.entry = p₂.entry ∧ v = p.symbols.resolve expr ∧
      (Text.upperString word ∉ reservedWords → (Symbols.bareText expr).head? ≠ some '#' → w = v) ∧
      (Text.upperString word ∈ reservedWords → v = (p.symbols.value? word).getD 0 ∧
        w = (Sfr.address? word).elim 0 fun addr => (addr.toNat : Int)) := by
  intro plain labelled word
  constructor
  · intro e he
    exact ⟨ofSource_withLine_of_error he (not_mem_newline_line hname hexpr _ (by decide)),
      ofSource_withLine_of_error he (not_mem_newline_line hname hexpr _ (by decide))⟩
  · intro p hp
    obtain ⟨p₁, hplain, hgains₁⟩ := exists_gains_plain hname hexpr hunbroken hp
    obtain ⟨p₂, hlabelled, hgains₂⟩ := exists_gains_labelled hname hexpr hp
    have hbare : Symbols.bareText word = Symbols.bareText expr := by
      refine Symbols.bareText_congr ?_
      rw [String.toList_ofList, Line.trim_alone]
    have hword : p.symbols.resolve word = p.symbols.resolve expr := Symbols.resolve_congr hbare
    refine ⟨_, p₁, _, p₂, hplain, hgains₁, hlabelled, hgains₂,
      hgains₁.entry.trans hgains₂.entry.symm, rfl, ?_, ?_⟩
    · intro hfree honce
      rw [← hbare] at honce
      rw [← hword]
      exact Symbols.valueOf_eq_resolve hexpr.written (ofSource_holdsWords hp) hfree honce
    · intro hreserved
      have hread := Operand.ofLexemes_lex_word (Operand.isWord_of_reserved hreserved)
      rw [String.toList_ofList, hexpr.accepted] at hread
      rw [Except.ok.inj hread, ← hword]
      exact ⟨Operand.resolve_of_reserved hreserved, Operand.valueOf_ofWord hreserved⟩

/-- A constant that is another constant, with blanks around its name. -/
theorem constant_lines_agree_on_symbol :
    IsWord "M" ∧ IsSingle " N\t".toList (.direct (.expr "N")) ∧
      ∃ p₁ p₂, ofSource (withLine "N EQU 3\nNOP" "M EQU  N\t") = .ok p₁ ∧
        ofSource (withLine "N EQU 3\nNOP" "M: EQU  N\t") = .ok p₂ ∧
        p₁.symbols.get? "M" = some (.const 3) ∧ p₂.symbols.get? "M" = some (.const 3) := by
  have hname : IsWord "M" := ⟨'M', [], rfl, rfl, rfl⟩
  have hexpr : IsSingle " N\t".toList (.direct (.expr "N")) := by decide +kernel
  have hunbroken : brokenLabel (Token.lex (alone " N\t".toList)) = false := by decide +kernel
  have hvalue : (ofSource "N EQU 3\nNOP").toOption.map (fun p => p.symbols.resolve " N\t") =
      some 3 := by
    decide +kernel
  have hfree : Text.upperString (String.ofList (alone " N\t".toList)) ∉ reservedWords := by
    decide +kernel
  have honce : (Symbols.bareText " N\t").head? ≠ some '#' := by decide
  cases hp : ofSource "N EQU 3\nNOP" with
  | error e =>
    rw [hp] at hvalue
    exact nomatch hvalue
  | ok p =>
    rw [hp] at hvalue
    have hvalue : p.symbols.resolve " N\t" = 3 := Option.some.inj hvalue
    obtain ⟨v, p₁, w, p₂, hplain, hgains₁, hlabelled, hgains₂, _, hv, hagree, _⟩ :=
      (constant_lines_agree hname hexpr hunbroken).2 p hp
    have hw := hagree hfree honce
    rw [hvalue] at hv
    refine ⟨hname, hexpr, p₁, p₂, hplain, hlabelled, ?_, ?_⟩
    · rw [hgains₁.symbols, hv]
      exact Table.get?_insert_self _ _ _
    · rw [hgains₂.symbols, hw, hv]
      exact Table.get?_insert_self _ _ _

/-- What a name stands for with one more line, if the source is loaded then. -/
def defines? (before line name : String) : Option (Option Symbol) :=
  (ofSource (withLine before line)).toOption.map fun p => p.symbols.get? name

/-- Without a colon a byte that has a name is looked up as a symbol, and there is none. Of two marks
the line with a colon takes off both. And a colon in the value is the first in the line that has no
other, so a character before it that makes no token is refused there. -/
theorem constant_lines_differ :
    IsWord "LED" ∧
    (IsSingle "P1".toList (.direct (.sfr Sfr.p1)) ∧
      defines? "" "LED EQU P1" "LED" = some (some (.const 0)) ∧
      defines? "" "LED: EQU P1" "LED" = some (some (.const 0x90))) ∧
    (IsSingle "##5".toList (.immediate "#5") ∧
      defines? "" "LED EQU ##5" "LED" = some (some (.const 0)) ∧
      defines? "" "LED: EQU ##5" "LED" = some (some (.const 5))) ∧
    (IsSingle "(:".toList (.direct (.expr "(:")) ∧
      defines? "" "LED EQU (:" "LED" = none ∧
      defines? "" "LED: EQU (:" "LED" = some (some (.const 0))) := by
  refine ⟨⟨'L', ['E', 'D'], rfl, rfl, rfl⟩, ⟨?_, ?_, ?_⟩, ⟨?_, ?_, ?_⟩, ⟨?_, ?_, ?_⟩⟩
  all_goals decide +kernel

end Program
end Mcs51
