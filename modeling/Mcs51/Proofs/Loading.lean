import Mathlib.Data.Int.ModEq
import Mathlib.Order.Bounds.Basic
import Mcs51.Proofs.LastLabel
import Mcs51.Proofs.Traversal

/-!
# What loading makes of a source

Loading reads the lines one after another and stops at the first that is refused, so what it fails
with is said by that line alone (`FirstRefusal`). Where no line is refused, it goes over them once
more and keeps a table, an entry and the origins. Each of these is about one line with a property:
the last one with a label, the first one that starts the program, the last `ORG` of an address.
`Describes` says which.

The property of a line may depend on the lines before it, since values are resolved against what is
known so far; `Holds` has both. The inductions add one line at the end, as loading does, and then a
property holds of the lines that it held of, and perhaps of the new one (`Holds.append_iff`).
-/

namespace Mcs51

variable {lines : List (Option Line)} {name : String} {index : Nat}

/-! ## 1. Reading every line -/

/-- The first of the lines that is refused. The error says which one it is. -/
structure FirstRefusal (texts : List (List Char)) (text : List Char) (e : LoadError) : Prop where
  isLine : texts[e.line]? = some text
  refused : Line.parse text e.line = .error e
  first : ∀ earlier other, earlier < e.line → texts[earlier]? = some other →
    ∃ entry, Line.parse other earlier = .ok entry

namespace Line

variable {text : List Char} {number : Nat}

theorem line_of_parse_error {e : LoadError} (h : parse text number = .error e) :
    e.line = number := by
  unfold parse at h
  split at h
  · exact nomatch h
  · obtain rfl := Except.error.inj h
    rfl
  · exact nomatch h

theorem number_of_ofLexemes {code : List Char} {lexemes : List Lexeme} {line : Line}
    (h : ofLexemes code lexemes number = .ok line) : line.number = number := by
  unfold ofLexemes at h
  split at h
  · exact nomatch h
  · split at h
    · obtain ⟨value, _, h⟩ := bind_ok_iff.mp h
      obtain rfl := Except.ok.inj h
      rfl
    · obtain ⟨mnemonic, _, h⟩ := bind_ok_iff.mp h
      obtain ⟨operands, _, h⟩ := bind_ok_iff.mp h
      obtain rfl := Except.ok.inj h
      rfl

theorem parse_eq_some_iff {line : Line} : parse text number = .ok (some line) ↔
    code text ≠ [] ∧ ofLexemes (code text) (Token.lex (code text)) number = .ok line := by
  have hread : read text number = .ok (some line) ↔
      code text ≠ [] ∧ ofLexemes (code text) (Token.lex (code text)) number = .ok line := by
    unfold read
    dsimp only
    split
    · next hnil => simp [hnil]
    · next hne => simp [hne, map_ok_iff]
  rw [← hread]
  unfold parse
  split <;> simp_all

theorem number_of_parse {line : Line} (h : parse text number = .ok (some line)) :
    line.number = number :=
  number_of_ofLexemes (parse_eq_some_iff.mp h).2

/-- The lines of a text with their numbers, as they are read. -/
theorem getElem?_zipIdx_eq_some_iff {texts : List (List Char)} {i : Nat} {x : List Char × Nat} :
    texts.zipIdx[i]? = some x ↔ texts[i]? = some x.1 ∧ x.2 = i := by
  rw [List.getElem?_zipIdx, Option.map_eq_some_iff]
  constructor
  · rintro ⟨text, htext, rfl⟩
    exact ⟨htext, Nat.zero_add i⟩
  · rintro ⟨htext, hi⟩
    exact ⟨x.1, htext, by rw [Nat.zero_add, ← hi]⟩

theorem parseAll_error_iff {source : List Char} {e : LoadError} :
    parseAll source = .error e ↔ ∃ text, FirstRefusal (Text.lines source) text e := by
  unfold parseAll
  rw [mapM_error_iff]
  constructor
  · rintro ⟨i, ⟨text, number⟩, htext, he, hfirst⟩
    obtain ⟨htext, rfl⟩ := getElem?_zipIdx_eq_some_iff.mp htext
    obtain rfl := line_of_parse_error he
    refine ⟨text, htext, he, ?_⟩
    intro earlier other hlt hother
    exact hfirst earlier (other, earlier) hlt (getElem?_zipIdx_eq_some_iff.mpr ⟨hother, rfl⟩)
  · rintro ⟨text, htext, he, hfirst⟩
    refine ⟨e.line, (text, e.line), getElem?_zipIdx_eq_some_iff.mpr ⟨htext, rfl⟩, he, ?_⟩
    rintro j ⟨other, number⟩ hlt hother
    obtain ⟨hother, rfl⟩ := getElem?_zipIdx_eq_some_iff.mp hother
    exact hfirst _ other hlt hother

theorem parseAll_ok {source : List Char} (h : parseAll source = .ok lines) :
    lines.length = (Text.lines source).length ∧
      ∀ i text, (Text.lines source)[i]? = some text →
        ∃ entry, lines[i]? = some entry ∧ parse text i = .ok entry := by
  have hread := mapM_ok_iff.mp h
  have hlength := hread.length_eq
  rw [List.length_zipIdx] at hlength
  refine ⟨hlength.symm, ?_⟩
  intro i text htext
  obtain ⟨hi, rfl⟩ := List.getElem?_eq_some_iff.mp htext
  refine ⟨lines[i], List.getElem?_eq_getElem (hlength ▸ hi), ?_⟩
  have hget := hread.get (by rwa [List.length_zipIdx]) (hlength ▸ hi)
  simpa using hget

/-- A line that was read is what some text of the source was read as. -/
theorem exists_parse_of_parseAll {source : List Char} {line : Line} {i : Nat}
    (h : parseAll source = .ok lines) (hline : lines[i]? = some (some line)) :
    ∃ text, parse text i = .ok (some line) := by
  obtain ⟨hlength, hread⟩ := parseAll_ok h
  have hi : i < (Text.lines source).length :=
    hlength ▸ (List.getElem?_eq_some_iff.mp hline).1
  obtain ⟨entry, hfound, hparse⟩ := hread i _ (List.getElem?_eq_getElem hi)
  obtain rfl := Option.some.inj (hfound.symm.trans hline)
  exact ⟨_, hparse⟩

theorem parseAll_fails_iff {source : List Char} :
    (∃ e, parseAll source = .error e) ↔
      ∃ i text e, (Text.lines source)[i]? = some text ∧ parse text i = .error e := by
  constructor
  · rintro ⟨e, h⟩
    obtain ⟨text, hrefusal⟩ := parseAll_error_iff.mp h
    exact ⟨e.line, text, e, hrefusal.isLine, hrefusal.refused⟩
  · rintro ⟨i, text, e, htext, he⟩
    cases h : parseAll source with
    | error found => exact ⟨found, rfl⟩
    | ok lines =>
      obtain ⟨entry, _, hentry⟩ := (parseAll_ok h).2 i text htext
      exact nomatch hentry.symm.trans he

end Line

/-! ## 2. Lines with a property -/

/-- A line has a property, which may depend on the lines before it. -/
def Holds (P : List (Option Line) → Line → Prop) (lines : List (Option Line)) (index : Nat) :
    Prop :=
  ∃ line, lines[index]? = some (some line) ∧ P (lines.take index) line

section Holds

variable {P : List (Option Line) → Line → Prop} {entry : Option Line} {found : Option Nat}

theorem Holds.lt_length (h : Holds P lines index) : index < lines.length := by
  obtain ⟨line, hline, _⟩ := h
  exact (List.getElem?_eq_some_iff.mp hline).1

theorem Holds.append_iff : Holds P (lines ++ [entry]) index ↔
    Holds P lines index ∨ (index = lines.length ∧ ∃ line, entry = some line ∧ P lines line) := by
  unfold Holds
  rcases Nat.lt_trichotomy index lines.length with hlt | rfl | hgt
  · -- A line that stood there before has the same lines before it.
    rw [List.getElem?_append_left hlt, List.take_append_of_le_length (Nat.le_of_lt hlt)]
    constructor
    · exact .inl
    · rintro (h | ⟨rfl, _⟩)
      · exact h
      · exact absurd hlt (Nat.lt_irrefl _)
  · simp
  · have hout : (lines ++ [entry])[index]? = none := by
      rw [List.getElem?_eq_none_iff, List.length_append, List.length_singleton]
      exact hgt
    have hbefore : lines[index]? = none := List.getElem?_eq_none (Nat.le_of_lt hgt)
    simp [hout, hbefore, Nat.ne_of_gt hgt]

/-- The first line with a property, if there is one. -/
def First (P : List (Option Line) → Line → Prop) (lines : List (Option Line)) :
    Option Nat → Prop
  | some index => IsLeast {i | Holds P lines i} index
  | none => ∀ i, ¬ Holds P lines i

/-- The last line with a property, if there is one. -/
def Last (P : List (Option Line) → Line → Prop) (lines : List (Option Line)) :
    Option Nat → Prop
  | some index => IsGreatest {i | Holds P lines i} index
  | none => ∀ i, ¬ Holds P lines i

theorem not_holds_nil (index : Nat) : ¬ Holds P [] index := by
  intro h
  exact absurd h.lt_length index.not_lt_zero

/-- A line without the property changes nothing. -/
theorem holds_append_of_not (hnew : ∀ line, entry = some line → ¬ P lines line) :
    Holds P (lines ++ [entry]) = Holds P lines := by
  funext i
  rw [eq_iff_iff, Holds.append_iff]
  constructor
  · rintro (h | ⟨_, line, hline, hP⟩)
    · exact h
    · exact absurd hP (hnew line hline)
  · exact .inl

theorem Last.append_of_not (h : Last P lines found)
    (hnew : ∀ line, entry = some line → ¬ P lines line) : Last P (lines ++ [entry]) found := by
  unfold Last
  rw [holds_append_of_not hnew]
  exact h

theorem First.append_of_not (h : First P lines found)
    (hnew : ∀ line, entry = some line → ¬ P lines line) : First P (lines ++ [entry]) found := by
  unfold First
  rw [holds_append_of_not hnew]
  exact h

/-- A line with the property at the end is the last one. -/
theorem last_append {line : Line} (hnew : P lines line) :
    Last P (lines ++ [some line]) (some lines.length) := by
  constructor
  · exact Holds.append_iff.mpr (.inr ⟨rfl, line, rfl, hnew⟩)
  · intro i hi
    have hlt := Holds.lt_length hi
    rw [List.length_append, List.length_singleton] at hlt
    exact Nat.le_of_lt_succ hlt

/-- A line with the property at the end is the first one only where none stands before it. -/
theorem First.append {line : Line} (h : First P lines found) (hnew : P lines line) :
    First P (lines ++ [some line]) (some (found.getD lines.length)) := by
  cases found with
  | none =>
    refine ⟨Holds.append_iff.mpr (.inr ⟨rfl, line, rfl, hnew⟩), ?_⟩
    intro i hi
    rcases Holds.append_iff.mp hi with hi | ⟨rfl, _⟩
    · exact absurd hi (h i)
    · exact Nat.le_refl _
  | some index =>
    refine ⟨Holds.append_iff.mpr (.inl h.1), ?_⟩
    intro i hi
    rcases Holds.append_iff.mp hi with hi | ⟨rfl, _⟩
    · exact h.2 hi
    · exact Nat.le_of_lt (Holds.lt_length h.1)

theorem First.eq_some_iff (h : First P lines found) :
    found = some index ↔ IsLeast {i | Holds P lines i} index := by
  cases found with
  | none => exact ⟨nofun, fun hi => absurd hi.1 (h index)⟩
  | some other =>
    rw [Option.some.injEq]
    exact ⟨fun e => e ▸ h, h.unique⟩

theorem Last.eq_some_iff (h : Last P lines found) :
    found = some index ↔ IsGreatest {i | Holds P lines i} index := by
  cases found with
  | none => exact ⟨nofun, fun hi => absurd hi.1 (h index)⟩
  | some other =>
    rw [Option.some.injEq]
    exact ⟨fun e => e ▸ h, h.unique⟩

theorem Last.eq_none_iff (h : Last P lines found) : found = none ↔ ∀ i, ¬ Holds P lines i := by
  cases found with
  | none => exact ⟨fun _ => h, fun _ => rfl⟩
  | some other => exact ⟨nofun, fun hno => absurd h.1 (hno other)⟩

end Holds

namespace Layout

variable {addr : Word} {before : List (Option Line)} {line : Line}

def HasLabel (name : String) (_ : List (Option Line)) (line : Line) : Prop :=
  line.label = some name

/-- A program can start at a line with a mnemonic, unless it is `ORG`. -/
def Starts (_ : List (Option Line)) (line : Line) : Prop :=
  ∃ m, line.mnemonic = some m ∧ m ≠ .org

/-- An `ORG` line gives an address: the value of its operand, which the lines up to that line
decide, up to a multiple of the number of addresses. -/
def GivesOrigin (addr : Word) (before : List (Option Line)) (line : Line) : Prop :=
  line.mnemonic = some .org ∧
    firstValue (ofLines (before ++ [some line])).symbols line ≡ addr.toNat [ZMOD 65536]

/-! ## 3. One line -/

theorem get?_define (symbols : Symbols) (index : Nat) (line : Line) (name : String) :
    (define symbols index line).get? name =
      if line.label = some name then some (symbolOf symbols index line)
      else symbols.get? name := by
  unfold define
  cases line.label with
  | none => rfl
  | some label => simp only [Table.get?_insert, Option.some.injEq]

theorem symbols_ofLines_append (before : List (Option Line)) (line : Line) :
    (ofLines (before ++ [some line])).symbols =
      define (ofLines before).symbols before.length line := by
  rw [ofLines_append]
  exact symbols_addLine _ _ _

theorem entry_addLine_of_starts (layout : Layout) (index : Nat) (h : Starts before line) :
    (layout.addLine index line).entry = some (layout.entry.getD index) := by
  obtain ⟨m, hm, horg⟩ := h
  unfold addLine
  rw [hm]
  cases m <;> first | rfl | exact absurd rfl horg

theorem entry_addLine_of_not_starts (layout : Layout) (index : Nat) (h : ¬ Starts before line) :
    (layout.addLine index line).entry = layout.entry := by
  unfold addLine
  cases hm : line.mnemonic with
  | none => rfl
  | some m =>
    obtain rfl : m = .org := by
      by_contra horg
      exact h ⟨m, hm, horg⟩
    rfl

theorem ofInt_eq_iff {value : Int} :
    BitVec.ofInt 16 value = addr ↔ value ≡ addr.toNat [ZMOD 65536] := by
  have haddr := addr.isLt
  rw [← BitVec.toNat_inj, BitVec.toNat_ofInt]
  unfold Int.ModEq
  omega

theorem get?_origins_of_gives (h : GivesOrigin addr before line) :
    ((ofLines before).addLine before.length line).origins.get? addr = some before.length := by
  obtain ⟨horg, hvalue⟩ := h
  rw [symbols_ofLines_append, ← ofInt_eq_iff] at hvalue
  unfold addLine
  rw [horg, ← hvalue]
  exact Table.get?_insert_self _ _ _

theorem get?_origins_of_not_gives (h : ¬ GivesOrigin addr before line) :
    ((ofLines before).addLine before.length line).origins.get? addr =
      (ofLines before).origins.get? addr := by
  unfold GivesOrigin at h
  rw [symbols_ofLines_append, ← ofInt_eq_iff] at h
  unfold addLine
  split
  · rfl
  · next horg => exact Table.get?_insert_of_ne _ _ fun hvalue => h ⟨horg, hvalue⟩
  · rfl

/-! ## 4. All lines -/

theorem first_entry (lines : List (Option Line)) : First Starts lines (ofLines lines).entry := by
  induction lines using List.reverseRecOn with
  | nil => exact not_holds_nil
  | append_singleton lines entry ih =>
    rw [ofLines_append]
    cases entry with
    | none => exact ih.append_of_not nofun
    | some line =>
      by_cases hstarts : Starts lines line
      · rw [addEntry, entry_addLine_of_starts _ _ hstarts]
        exact ih.append hstarts
      · rw [addEntry, entry_addLine_of_not_starts _ _ hstarts]
        exact ih.append_of_not fun _ h => Option.some.inj h ▸ hstarts

theorem last_origin (lines : List (Option Line)) (addr : Word) :
    Last (GivesOrigin addr) lines ((ofLines lines).origins.get? addr) := by
  induction lines using List.reverseRecOn with
  | nil => exact not_holds_nil
  | append_singleton lines entry ih =>
    rw [ofLines_append]
    cases entry with
    | none => exact ih.append_of_not nofun
    | some line =>
      by_cases hgives : GivesOrigin addr lines line
      · rw [addEntry, get?_origins_of_gives hgives]
        exact last_append hgives
      · rw [addEntry, get?_origins_of_not_gives hgives]
        exact ih.append_of_not fun _ h => Option.some.inj h ▸ hgives

theorem isSome_get?_ofLines (lines : List (Option Line)) (name : String) :
    ((ofLines lines).symbols.get? name).isSome = true ↔ ∃ i, Holds (HasLabel name) lines i := by
  induction lines using List.reverseRecOn with
  | nil =>
    constructor
    · exact nofun
    · rintro ⟨i, hi⟩
      exact absurd hi (not_holds_nil i)
  | append_singleton lines entry ih =>
    cases entry with
    | none =>
      rw [holds_append_of_not nofun, ← ih, ofLines_append]
      rfl
    | some line =>
      rw [symbols_ofLines_append, get?_define]
      by_cases hl : line.label = some name
      · rw [if_pos hl]
        have hlast : Holds (HasLabel name) (lines ++ [some line]) lines.length :=
          Holds.append_iff.mpr (.inr ⟨rfl, line, rfl, hl⟩)
        exact ⟨fun _ => ⟨_, hlast⟩, fun _ => rfl⟩
      · rw [if_neg hl, ih, holds_append_of_not]
        exact fun _ h => Option.some.inj h ▸ hl

/-- The symbol that the last line with a label makes of it. A constant is resolved with only the
lines before that one known. -/
def StandsFor (lines : List (Option Line)) (name : String) (symbol : Symbol) : Prop :=
  ∃ i line, LastLabel lines name i line ∧
    symbol = if line.mnemonic = some .equ then
      .const (firstValue (ofLines (lines.take i)).symbols line) else .code i

theorem standsFor_append_of_not {entry : Option Line} {symbol : Symbol}
    (hno : ∀ other, entry = some other → other.label ≠ some name) :
    StandsFor (lines ++ [entry]) name symbol ↔ StandsFor lines name symbol := by
  have htake : ∀ i line, LastLabel lines name i line →
      (lines ++ [entry]).take i = lines.take i := by
    intro i line h
    exact List.take_append_of_le_length (Nat.le_of_lt h.lt_length)
  constructor
  · rintro ⟨i, line, h, hs⟩
    rcases LastLabel.append_iff.mp h with ⟨rfl, hlabel, _⟩ | ⟨h, _⟩
    · exact absurd hlabel (hno line rfl)
    · rw [htake i line h] at hs
      exact ⟨i, line, h, hs⟩
  · rintro ⟨i, line, h, hs⟩
    rw [← htake i line h] at hs
    exact ⟨i, line, LastLabel.append_iff.mpr (.inr ⟨h, hno⟩), hs⟩

theorem standsFor_append {symbol : Symbol} (hl : line.label = some name) :
    StandsFor (lines ++ [some line]) name symbol ↔
      symbol = symbolOf (ofLines lines).symbols lines.length line := by
  constructor
  · rintro ⟨i, found, h, hs⟩
    rcases LastLabel.append_iff.mp h with ⟨hfound, _, rfl⟩ | ⟨_, hno⟩
    · obtain rfl := Option.some.inj hfound
      rw [List.take_left] at hs
      exact hs
    · exact absurd hl (hno line rfl)
  · intro hs
    refine ⟨lines.length, line, LastLabel.append_iff.mpr (.inl ⟨rfl, hl, rfl⟩), ?_⟩
    rw [List.take_left]
    exact hs

theorem get?_ofLines (lines : List (Option Line)) {symbol : Symbol} :
    (ofLines lines).symbols.get? name = some symbol ↔ StandsFor lines name symbol := by
  induction lines using List.reverseRecOn with
  | nil =>
    constructor
    · exact nofun
    · rintro ⟨_, _, h, _⟩
      exact absurd h not_lastLabel_nil
  | append_singleton lines entry ih =>
    cases entry with
    | none =>
      have hno : ∀ other : Line, none = some other → other.label ≠ some name := nofun
      rw [standsFor_append_of_not hno, ← ih, ofLines_append]
      rfl
    | some line =>
      rw [symbols_ofLines_append, get?_define]
      by_cases hl : line.label = some name
      · rw [if_pos hl, standsFor_append hl, Option.some.injEq, eq_comm]
      · rw [if_neg hl, ih, standsFor_append_of_not]
        exact fun _ h => Option.some.inj h ▸ hl

end Layout

/-! ## 5. The theorem -/

namespace Program

open Layout

/-- What a program notes of its lines: names, entry and origins, each told by the one line that
decides it. -/
structure Describes (p : Program) (lines : List (Option Line)) : Prop where
  lines_eq : p.lines.toList = lines
  defined : ∀ name, (p.symbols.get? name).isSome = true ↔
    ∃ i, Holds (HasLabel name) lines i
  symbol : ∀ name symbol, p.symbols.get? name = some symbol ↔ StandsFor lines name symbol
  entry : IsLeast {i | Holds Starts lines i} p.entry ∨
    (∀ i, ¬ Holds Starts lines i) ∧ p.entry = 0
  origin : ∀ addr i, p.orgLine? addr = some i ↔
    IsGreatest {i | Holds (GivesOrigin addr) lines i} i
  no_origin : ∀ addr, p.orgLine? addr = none ↔ ∀ i, ¬ Holds (GivesOrigin addr) lines i

theorem describes_ofLines (lines : List (Option Line)) : (ofLines lines).Describes lines where
  lines_eq := rfl
  defined name := isSome_get?_ofLines lines name
  symbol _ _ := get?_ofLines lines
  entry := by
    have hfirst := first_entry lines
    show IsLeast _ ((Layout.ofLines lines).entry.getD 0) ∨
      _ ∧ (Layout.ofLines lines).entry.getD 0 = 0
    cases hentry : (Layout.ofLines lines).entry with
    | some i =>
      rw [hentry] at hfirst
      exact .inl hfirst
    | none =>
      rw [hentry] at hfirst
      exact .inr ⟨hfirst, rfl⟩
  origin addr _ := (last_origin lines addr).eq_some_iff
  no_origin addr := (last_origin lines addr).eq_none_iff

/-- Entry, labels and origins are lines of the program. -/
theorem Describes.lt_size {p : Program} (h : p.Describes lines) (hsize : 0 < p.size) :
    p.entry < p.size ∧ (∀ name i, p.symbols.lineOf? name = some i → i < p.size) ∧
      ∀ addr i, p.orgLine? addr = some i → i < p.size := by
  have hlength : lines.length = p.size := by
    rw [← h.lines_eq]
    exact Array.length_toList
  refine ⟨?_, ?_, ?_⟩
  · rcases h.entry with hleast | ⟨_, hzero⟩
    · exact hlength ▸ Holds.lt_length hleast.1
    · exact hzero ▸ hsize
  · intro name i hi
    unfold Symbols.lineOf? at hi
    split at hi
    · next found hsymbol =>
      obtain rfl := Option.some.inj hi
      obtain ⟨j, line, hlast, hs⟩ := (h.symbol name _).mp hsymbol
      split at hs
      · exact nomatch hs
      · obtain rfl := Symbol.code.inj hs
        exact hlength ▸ hlast.lt_length
    · exact nomatch hi
  · intro addr i hi
    exact hlength ▸ Holds.lt_length ((h.origin addr i).mp hi).1

/-- A line of a program that was loaded from source has its index for its number. -/
theorem number_of_ofSource {source : String} {p : Program} {line : Line}
    (h : ofSource source = .ok p) (hline : p.line? index = some line) : line.number = index := by
  obtain ⟨lines, hlines, rfl⟩ := map_ok_iff.mp h
  have hentry : lines[index]? = some (some line) :=
    List.getElem?_toArray.symm.trans (Option.join_eq_some_iff.mp hline)
  obtain ⟨_, hparse⟩ := Line.exists_parse_of_parseAll hlines hentry
  exact Line.number_of_parse hparse

/-- **The loader builds the table the source means.** A source is refused exactly when one of its
    lines is, with the error of the first such line and where it stands. Otherwise the program has a
    line for each line of the source, which is what that one reads as and has its number; it
    describes them, and entry, labels and origins are among them. -/
theorem ofSource_describes (source : String) :
    ((∃ e, ofSource source = .error e) ↔
      ∃ i text e, (Text.lines source.toList)[i]? = some text ∧ Line.parse text i = .error e) ∧
    (∀ e, ofSource source = .error e ↔
      ∃ text, FirstRefusal (Text.lines source.toList) text e) ∧
    ∀ p, ofSource source = .ok p →
      p.size = (Text.lines source.toList).length ∧
      (∀ i text, (Text.lines source.toList)[i]? = some text →
        ∃ entry, p.lines[i]? = some entry ∧ Line.parse text i = .ok entry ∧
          ∀ line, entry = some line → line.number = i) ∧
      p.Describes p.lines.toList ∧
      (0 < p.size → p.entry < p.size ∧ (∀ name i, p.symbols.lineOf? name = some i → i < p.size) ∧
        ∀ addr i, p.orgLine? addr = some i → i < p.size) := by
  have herror : ∀ e, ofSource source = .error e ↔ Line.parseAll source.toList = .error e := by
    intro e
    unfold ofSource
    cases Line.parseAll source.toList <;> simp [Except.map]
  refine ⟨?_, ?_, ?_⟩
  · simp only [herror]
    exact Line.parseAll_fails_iff
  · intro e
    rw [herror]
    exact Line.parseAll_error_iff
  · intro p hp
    obtain ⟨lines, hlines, rfl⟩ := map_ok_iff.mp hp
    obtain ⟨hlength, hread⟩ := Line.parseAll_ok hlines
    refine ⟨hlength, ?_, describes_ofLines lines, (describes_ofLines lines).lt_size⟩
    intro i text htext
    obtain ⟨entry, hentry, hparse⟩ := hread i text htext
    refine ⟨entry, List.getElem?_toArray.trans hentry, hparse, ?_⟩
    rintro line rfl
    exact Line.number_of_parse hparse

/-- A constant that becomes a label. The `ORG` between the two sees the constant. -/
theorem redefined_name_describes :
    ∃ p, ofSource "N EQU 5\nORG N\nN: MOV A, #N\n" = .ok p ∧ 0 < p.size ∧ p.entry < p.size ∧
      StandsFor p.lines.toList "N" (.code 2) ∧
      IsGreatest {i | Holds (GivesOrigin 5) p.lines.toList i} 1 := by
  have hnoted : (ofSource "N EQU 5\nORG N\nN: MOV A, #N\n").toOption.map
      (fun p => (p.size, p.symbols.get? "N", p.orgLine? 5)) = some (3, some (.code 2), some 1) := by
    decide +kernel
  obtain ⟨_, _, hdescribes⟩ := ofSource_describes "N EQU 5\nORG N\nN: MOV A, #N\n"
  cases hp : ofSource "N EQU 5\nORG N\nN: MOV A, #N\n" with
  | error e =>
    rw [hp] at hnoted
    exact nomatch hnoted
  | ok p =>
    rw [hp] at hnoted
    simp only [Except.toOption, Option.map_some, Option.some.injEq, Prod.mk.injEq] at hnoted
    obtain ⟨hsize, hsymbol, horigin⟩ := hnoted
    obtain ⟨_, _, h, hinside⟩ := hdescribes p hp
    have hpos : 0 < p.size := hsize ▸ Nat.zero_lt_succ 2
    exact ⟨p, rfl, hpos, (hinside hpos).1, (h.symbol "N" _).mp hsymbol,
      (h.origin 5 1).mp horigin⟩

end Program
end Mcs51
