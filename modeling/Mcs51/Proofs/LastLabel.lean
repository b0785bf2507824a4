import Mathlib.Data.List.Induction
import Mcs51.Program

/-!
# The last line with a label

Loading goes over the lines once and keeps a table, and a line with a label replaces what the table
had under that name. So what the table says of a name in the end is what the last line with that
label says of it: `LastLabel` is that line, and `lineOf?_ofLines` is the agreement. The induction
adds one line at the end (`LastLabel.append_iff`), as loading does.
-/

namespace Mcs51

/-- The last of the lines that have a name as their label. -/
structure LastLabel (lines : List (Option Line)) (name : String) (index : Nat) (line : Line) :
    Prop where
  isLine : lines[index]? = some (some line)
  label : line.label = some name
  last : ∀ later other, index < later → lines[later]? = some (some other) →
    other.label ≠ some name

variable {lines : List (Option Line)} {name : String} {index : Nat} {line : Line}

theorem LastLabel.lt_length (h : LastLabel lines name index line) : index < lines.length :=
  (List.getElem?_eq_some_iff.mp h.isLine).1

theorem not_lastLabel_nil : ¬ LastLabel [] name index line := by
  intro h
  exact absurd h.lt_length (Nat.not_lt_zero index)

/-- A line at the end with the label is the last one, and any other line there changes nothing. -/
theorem LastLabel.append_iff {entry : Option Line} :
    LastLabel (lines ++ [entry]) name index line ↔
      (entry = some line ∧ line.label = some name ∧ index = lines.length) ∨
        (LastLabel lines name index line ∧ ∀ other, entry = some other →
          other.label ≠ some name) := by
  have hlast : (lines ++ [entry])[lines.length]? = some entry := by simp
  have hbefore : ∀ k, k < lines.length → (lines ++ [entry])[k]? = lines[k]? := by
    intro k hk
    exact List.getElem?_append_left hk
  constructor
  · intro h
    have hlt := h.lt_length
    rw [List.length_append, List.length_singleton] at hlt
    -- The line stands before the new one, or it is the new one.
    rcases Nat.lt_succ_iff_lt_or_eq.mp hlt with hin | rfl
    · refine .inr ⟨⟨?_, h.label, ?_⟩, ?_⟩
      · rw [← hbefore _ hin]
        exact h.isLine
      · intro later other hl ho
        have hlater := (List.getElem?_eq_some_iff.mp ho).1
        exact h.last later other hl ((hbefore later hlater).trans ho)
      · intro other ho
        exact h.last lines.length other hin (ho ▸ hlast)
    · have hentry := hlast.symm.trans h.isLine
      exact .inl ⟨Option.some.inj hentry, h.label, rfl⟩
  · rintro (⟨rfl, hlabel, rfl⟩ | ⟨h, hno⟩)
    · refine ⟨hlast, hlabel, ?_⟩
      intro later other hl ho
      have hlater := (List.getElem?_eq_some_iff.mp ho).1
      rw [List.length_append, List.length_singleton] at hlater
      exact absurd hl (Nat.not_lt.mpr (Nat.le_of_lt_succ hlater))
    · refine ⟨(hbefore index h.lt_length).trans h.isLine, h.label, ?_⟩
      intro later other hl ho
      have hlater := (List.getElem?_eq_some_iff.mp ho).1
      rw [List.length_append, List.length_singleton] at hlater
      rcases Nat.lt_succ_iff_lt_or_eq.mp hlater with hin | rfl
      · exact h.last later other hl ((hbefore later hin).symm.trans ho)
      · exact hno other (Option.some.inj (hlast.symm.trans ho))

namespace Layout

theorem ofLines_append (lines : List (Option Line)) (entry : Option Line) :
    ofLines (lines ++ [entry]) = (ofLines lines).addEntry (entry, lines.length) := by
  simp [ofLines, List.zipIdx_append]

theorem symbols_addLine (layout : Layout) (index : Nat) (line : Line) :
    (layout.addLine index line).symbols = define layout.symbols index line := by
  unfold addLine
  split <;> rfl

theorem lineOf?_insert (symbols : Symbols) (name other : String) (symbol : Symbol) :
    Symbols.lineOf? (symbols.insert name symbol) other =
      if name = other then (match symbol with | .code line => some line | .const _ => none)
      else symbols.lineOf? other := by
  unfold Symbols.lineOf?
  rw [Table.get?_insert]
  by_cases h : name = other
  · rw [if_pos h, if_pos h]
    cases symbol <;> rfl
  · rw [if_neg h, if_neg h]

/-- A line makes its label a place to jump to, unless it is a constant; no other name changes. -/
theorem lineOf?_define (symbols : Symbols) (index : Nat) (line : Line) (name : String) :
    Symbols.lineOf? (define symbols index line) name =
      if line.label = some name then (if line.mnemonic = some .equ then none else some index)
      else symbols.lineOf? name := by
  unfold define symbolOf
  cases hl : line.label with
  | none => simp
  | some label =>
    simp only [lineOf?_insert, Option.some.injEq]
    by_cases hm : line.mnemonic = some .equ <;> simp [hm]

/-- **Where a name leads** is where the last line with that label stands. A constant leads nowhere,
    also where an earlier line has the label. -/
theorem lineOf?_ofLines (lines : List (Option Line)) :
    (ofLines lines).symbols.lineOf? name = some index ↔
      ∃ line, LastLabel lines name index line ∧ line.mnemonic ≠ some .equ := by
  induction lines using List.reverseRecOn with
  | nil =>
    constructor
    · exact nofun
    · rintro ⟨_, h, _⟩
      exact absurd h not_lastLabel_nil
  | append_singleton lines entry ih =>
    rw [ofLines_append]
    cases entry with
    | none => simpa [addEntry, LastLabel.append_iff] using ih
    | some line =>
      simp only [addEntry, symbols_addLine, lineOf?_define, LastLabel.append_iff,
        Option.some.injEq]
      by_cases hl : line.label = some name
      · -- The new line has the label, so it decides alone, also against an earlier jump target.
        rw [if_pos hl]
        constructor
        · intro h
          by_cases hm : line.mnemonic = some .equ
          · rw [if_pos hm] at h
            exact nomatch h
          · rw [if_neg hm] at h
            exact ⟨line, .inl ⟨rfl, hl, (Option.some.inj h).symm⟩, hm⟩
        · rintro ⟨found, ⟨rfl, _, rfl⟩ | ⟨_, hno⟩, hm⟩
          · exact if_neg hm
          · exact absurd hl (hno line rfl)
      · rw [if_neg hl, ih]
        constructor
        · rintro ⟨found, h, hm⟩
          refine ⟨found, .inr ⟨h, ?_⟩, hm⟩
          rintro other rfl
          exact hl
        · rintro ⟨found, ⟨rfl, hlabel, _⟩ | ⟨h, _⟩, hm⟩
          · exact absurd hlabel hl
          · exact ⟨found, h, hm⟩

end Layout
end Mcs51
