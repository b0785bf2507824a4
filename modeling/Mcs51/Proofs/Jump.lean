import Mcs51.Proofs.Attempt
import Mcs51.Proofs.LastLabel
import Mcs51.Proofs.Word

/-!
# Jumps to a word

A jump finds its line by the text that its target operand is shown with, and the label table holds
the texts that labels were written with. For a target that is a single word the two differ exactly
when showing the word changes it (`Operand.shownWord`). So a jump to a word goes to the last line
that is labelled with the *shown* word, and its failure carries the shown word:
`Machine.execute_jump_word` says both, and for which words that is the word itself.

The other words are those that are also the name of a register, a bit or a byte, in another letter
case than the upper one. A label with such a name can be defined, and no jump to it arrives
(`Machine.execute_lowercase_acc_label`).
-/

namespace Mcs51

variable {lines : List (Option Line)} {symbols : Symbols} {m : Machine} {mnemonic : Mnemonic}
  {ops : List Operand}

namespace Flow

theorem targetName_ofWord (name : String) :
    targetName (some (Operand.ofWord name)) = Operand.shownWord name :=
  Operand.render_ofWord name

/-- A word is never the dollar sign, so it is looked up, as it is shown. -/
theorem target_ofWord {name : String} (h : Token.IsWord name) (pc : Nat) :
    target symbols pc (some (Operand.ofWord name)) =
      match symbols.lineOf? (Operand.shownWord name) with
      | some line => .ok line
      | none => .error (.unresolvedLabel (Operand.shownWord name)) := by
  unfold target
  cases hline : symbols.lineOf? (Operand.shownWord name) with
  | none => simp only [targetName_ofWord, if_neg (Operand.shownWord_ne_dollar h), hline]
  | some line => simp only [targetName_ofWord, if_neg (Operand.shownWord_ne_dollar h), hline]

theorem Jumps.next_eq {memory : Memory} {op : Option Operand} (pc : Nat)
    (h : Jumps symbols memory ops mnemonic op) :
    next symbols memory mnemonic ops pc = target symbols pc op := by
  unfold next
  rw [h.exit_eq]
  rfl

end Flow

namespace Machine

theorem exists_execute_of_next {line : Nat}
    (h : Flow.next symbols m.mem mnemonic ops m.pc = .ok line) :
    ∃ done, m.execute symbols mnemonic ops = .ok done ∧ done.machine.pc = line :=
  ⟨_, execute_ok_iff.mpr ⟨line, h, rfl⟩, rfl⟩

/-- **A jump to a word** goes to the last line that is labelled with the word as it is shown, if
    that line is no constant. If there is no such line it fails, and the error carries the word as
    it is shown. That is the word as it is written unless it is reserved and not in upper case, or
    the second name of the carry flag. -/
theorem execute_jump_word {name : String} {op : Operand} (hword : Token.IsWord name)
    (hread : Operand.ofLexemes (Token.lex name.toList) name.toList = .ok op)
    (hjump : Flow.Jumps (Program.ofLines lines).symbols m.mem ops mnemonic (some op)) :
    (∀ index line, LastLabel lines (Operand.shownWord name) index line →
      line.mnemonic ≠ some .equ →
      ∃ done, m.execute (Program.ofLines lines).symbols mnemonic ops = .ok done ∧
        done.machine.pc = index) ∧
    ((∀ index line, LastLabel lines (Operand.shownWord name) index line →
      line.mnemonic = some .equ) →
      m.execute (Program.ofLines lines).symbols mnemonic ops =
        .error (.unresolvedLabel (Operand.shownWord name))) ∧
    (Operand.shownWord name = name ↔
      (Text.upperString name ∈ Operand.reservedWords →
        Text.upperString name = name ∧ name ≠ "CY")) := by
  rw [Operand.ofLexemes_lex_word hword] at hread
  obtain rfl := Except.ok.inj hread
  -- Whatever jumps, the target is looked up once, under the word as it is shown.
  have hnext := (hjump.next_eq m.pc).trans (Flow.target_ofWord hword m.pc)
  refine ⟨?_, ?_, Operand.shownWord_eq_self_iff⟩
  · intro index line hlast hequ
    have hline : (Program.ofLines lines).symbols.lineOf? (Operand.shownWord name) = some index :=
      (Layout.lineOf?_ofLines lines).mpr ⟨line, hlast, hequ⟩
    rw [hline] at hnext
    exact exists_execute_of_next hnext
  · intro hnone
    have hline : (Program.ofLines lines).symbols.lineOf? (Operand.shownWord name) = none := by
      rw [Option.eq_none_iff_forall_ne_some]
      intro index h
      obtain ⟨line, hlast, hequ⟩ := (Layout.lineOf?_ofLines lines).mp h
      exact hequ (hnone index line hlast)
    rw [hline] at hnext
    exact execute_error_iff.mpr hnext

/-- A jump to `tf0` arrives at the label `TF0`, since it is shown so. -/
theorem execute_jump_lowercase_bit :
    Token.IsWord "tf0" ∧
    Operand.ofLexemes (Token.lex "tf0".toList) "tf0".toList =
      .ok (.bit (.named 0x8D)) ∧
    ∃ done, (Machine.initial (.known 0) 1).execute
        (Program.ofLines [some ⟨some "TF0", some .nop, [], 0⟩]).symbols .sjmp
        [.bit (.named 0x8D)] = .ok done ∧
      done.machine.pc = 0 := by
  have hword : Token.IsWord "tf0" := ⟨'t', ['f', '0'], rfl, rfl, rfl⟩
  have hread : Operand.ofLexemes (Token.lex "tf0".toList) "tf0".toList =
      .ok (.bit (.named 0x8D)) := Operand.ofLexemes_lex_word hword
  have hlast : LastLabel [some ⟨some "TF0", some .nop, [], 0⟩] (Operand.shownWord "tf0") 0
      ⟨some "TF0", some .nop, [], 0⟩ := by
    refine ⟨rfl, by decide, ?_⟩
    intro later other hlater hother
    rw [List.getElem?_eq_none hlater] at hother
    exact nomatch hother
  refine ⟨hword, hread, ?_⟩
  exact (execute_jump_word hword hread (.always (by decide))).1 0 _ hlast (by decide)

/-- The label `a` is defined on the first line, and the jump to `a` on the second does not arrive:
    it looks for `A`. -/
theorem execute_lowercase_acc_label :
    ∃ first second op,
      (Program.ofSource "a: NOP\nSJMP a").toOption =
        some (Program.ofLines [some first, some second]) ∧
      LastLabel [some first, some second] "a" 0 first ∧ first.mnemonic ≠ some .equ ∧
      Token.IsWord "a" ∧ Operand.ofLexemes (Token.lex "a".toList) "a".toList = .ok op ∧
      second.mnemonic = some .sjmp ∧ second.operands = [op] ∧
      (Machine.initial (.known 0) 1).execute (Program.ofLines [some first, some second]).symbols
        .sjmp second.operands = .error (.unresolvedLabel "A") := by
  have hword : Token.IsWord "a" := ⟨'a', [], rfl, rfl, rfl⟩
  refine ⟨⟨some "a", some .nop, [], 0⟩, ⟨none, some .sjmp, [.acc], 1⟩, .acc, ?_, ?_, by decide,
    hword, Operand.ofLexemes_lex_word hword, rfl, rfl, ?_⟩
  · decide +kernel
  · refine ⟨rfl, rfl, ?_⟩
    intro later other hlater hother
    match later, hlater with
    | 1, _ =>
      obtain rfl := Option.some.inj (Option.some.inj hother)
      decide
    | _ + 2, _ => exact nomatch hother
  · rw [execute_error_iff, Flow.next_error_iff]
    refine ⟨some .acc, .always (by decide), ⟨by decide, ?_⟩, rfl⟩
    rw [← Flow.lineOf?_eq_none_iff]
    rfl

end Machine
end Mcs51
