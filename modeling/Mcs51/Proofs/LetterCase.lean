import Mcs51.Proofs.MnemonicWord

/-!
# Letter case

A reader asks of a character which kind it is of, or whether it is some mark. No kind tells letters
apart, least of all by their case, and no mark is a letter. That is all there is to `toUpper_congr`,
and everything else here follows from it. A text whose letters are raised is as long as before, has
blanks and gaps where it had them, and is made of the same tokens at the same places, with their
letters raised (`Token.lexFrom_upper`).

Numbers are read in any letter case. Only the character between two single quotes counts as it is
written, and a text without that quote stands for the same number when its letters are raised
(`Literal.read_upper`).
-/

namespace Mcs51

/-! ## 1. Characters -/

namespace Text

/-- The letters that have a case. -/
def letters : List Char :=
  (List.range 26).flatMap fun n => [Char.ofNat (65 + n), Char.ofNat (97 + n)]

theorem mem_letters {c : Char} (h : ('a' ≤ c ∧ c ≤ 'z') ∨ ('A' ≤ c ∧ c ≤ 'Z')) : c ∈ letters := by
  have hself := Char.ofNat_toNat c
  unfold letters
  rw [List.mem_flatMap]
  rcases h with ⟨hlow, hhigh⟩ | ⟨hlow, hhigh⟩
  · have hlow : 97 ≤ c.toNat := hlow
    have hhigh : c.toNat ≤ 122 := hhigh
    refine ⟨c.toNat - 97, List.mem_range.mpr (by omega), ?_⟩
    rw [Nat.add_sub_cancel' hlow, hself]
    exact .tail _ List.mem_cons_self
  · have hlow : 65 ≤ c.toNat := hlow
    have hhigh : c.toNat ≤ 90 := hhigh
    refine ⟨c.toNat - 65, List.mem_range.mpr (by omega), ?_⟩
    rw [Nat.add_sub_cancel' hlow, hself]
    exact List.mem_cons_self

/-- **What is the same for all letters does not depend on their case.** -/
theorem toUpper_congr {α : Type} [DecidableEq α] {f : Char → α} {a : α}
    (h : letters.all fun c => f c = a) (c : Char) : f c.toUpper = f c := by
  have hall : ∀ c ∈ letters, f c = a := fun c hc => of_decide_eq_true (List.all_eq_true.mp h c hc)
  rcases toUpper_cases c with hc | ⟨hlower, hupper⟩
  · rw [hc]
  · rw [hall _ (mem_letters (.inr hupper)), hall _ (mem_letters (.inl hlower))]

theorem toUpper_mem_iff {marks : List Char} (h : letters.all fun c => c ∉ marks) {c : Char} :
    c.toUpper ∈ marks ↔ c ∈ marks := by
  have hsame := toUpper_congr (f := fun c => decide (c ∉ marks)) (a := true) (by simpa using h) c
  exact not_iff_not.mp (decide_eq_decide.mp hsame)

theorem utf8Size_toUpper (c : Char) : c.toUpper.utf8Size = c.utf8Size :=
  toUpper_congr (a := 1) (by decide) c

theorem isBlank_toUpper (c : Char) : isBlank c.toUpper = isBlank c :=
  toUpper_congr (a := false) (by decide) c

end Text

namespace Token

theorem isGap_toUpper (c : Char) : isGap c.toUpper = isGap c :=
  Text.toUpper_congr (a := false) (by decide) c

theorem startsNumeric_toUpper (c : Char) : startsNumeric c.toUpper = startsNumeric c :=
  Text.toUpper_congr (a := false) (by decide) c

theorem inNumeric_toUpper (c : Char) : inNumeric c.toUpper = inNumeric c :=
  Text.toUpper_congr (a := true) (by decide) c

theorem isQuote_toUpper (c : Char) : isQuote c.toUpper = isQuote c :=
  Text.toUpper_congr (a := false) (by decide) c

theorem toUpper_of_isQuote {quote : Char} (h : isQuote quote = true) : quote.toUpper = quote := by
  rcases isQuote_iff.mp h with rfl | rfl <;> decide

theorem inQuoted_toUpper {quote : Char} (h : isQuote quote = true) (c : Char) :
    inQuoted quote c.toUpper = inQuoted quote c := by
  rcases isQuote_iff.mp h with rfl | rfl <;> exact Text.toUpper_congr (a := true) (by decide) c

end Token

/-! ## 2. Texts -/

namespace Text

variable {p : Char → Bool} {text : List Char}

theorem toList_upperString (s : String) : (upperString s).toList = upper s.toList :=
  String.toList_ofList

theorem upperString_ofList (text : List Char) :
    upperString (String.ofList text) = String.ofList (upper text) := by
  rw [upperString, String.toList_ofList]

theorem upper_cons (c : Char) (text : List Char) : upper (c :: text) = c.toUpper :: upper text :=
  rfl

theorem upper_append (front back : List Char) : upper (front ++ back) = upper front ++ upper back :=
  List.map_append

theorem upper_eq_nil_iff : upper text = [] ↔ text = [] := List.map_eq_nil_iff

theorem upper_upper (text : List Char) : upper (upper text) = upper text := by
  simp only [upper, List.map_map, Function.comp_def, toUpper_toUpper]

theorem head?_upper (text : List Char) : (upper text).head? = text.head?.map Char.toUpper :=
  List.head?_map

theorem takeWhile_upper (h : ∀ c, p c.toUpper = p c) (text : List Char) :
    (upper text).takeWhile p = upper (text.takeWhile p) := by
  have hsame : p ∘ Char.toUpper = p := funext h
  rw [upper, List.takeWhile_map, hsame, upper]

theorem dropWhile_upper (h : ∀ c, p c.toUpper = p c) (text : List Char) :
    (upper text).dropWhile p = upper (text.dropWhile p) := by
  have hsame : p ∘ Char.toUpper = p := funext h
  rw [upper, List.dropWhile_map, hsame, upper]

theorem trimStart_upper (text : List Char) : trimStart (upper text) = upper (trimStart text) :=
  dropWhile_upper isBlank_toUpper text

theorem trimEnd_upper (text : List Char) : trimEnd (upper text) = upper (trimEnd text) := by
  have hreverse : (upper text).reverse = upper text.reverse := List.map_reverse.symm
  rw [trimEnd, hreverse, dropWhile_upper isBlank_toUpper]
  exact List.map_reverse.symm

theorem trim_upper (text : List Char) : trim (upper text) = upper (trim text) := by
  rw [trim, trimStart_upper, trimEnd_upper, trim]

theorem byteLength_upper (text : List Char) : byteLength (upper text) = byteLength text := by
  induction text with
  | nil => rfl
  | cons c text ih => rw [upper_cons, byteLength_cons, byteLength_cons, utf8Size_toUpper, ih]

theorem dropBytes?_upper (count : Nat) (text : List Char) :
    dropBytes? count (upper text) = (dropBytes? count text).map upper := by
  induction text generalizing count with
  | nil =>
    simp only [upper, List.map_nil, dropBytes?]
    split <;> rfl
  | cons c text ih =>
    rw [upper_cons, dropBytes?, dropBytes?, utf8Size_toUpper]
    split
    · rfl
    · split
      · exact ih _
      · rfl

theorem takeBytes?_upper (count : Nat) (text : List Char) :
    takeBytes? count (upper text) = (takeBytes? count text).map upper := by
  induction text generalizing count with
  | nil =>
    simp only [upper, List.map_nil, takeBytes?]
    split <;> rfl
  | cons c text ih =>
    rw [upper_cons, takeBytes?, takeBytes?, utf8Size_toUpper]
    split
    · rfl
    · split
      · rw [ih, Option.map_map, Option.map_map]
        rfl
      · rfl

theorem slice?_upper (start stop : Nat) (text : List Char) :
    slice? start stop (upper text) = (slice? start stop text).map upper := by
  unfold slice?
  split
  · rw [dropBytes?_upper, Option.bind_map, Option.map_bind]
    congr 1
    funext rest
    exact takeBytes?_upper _ rest
  · rfl

theorem exists_of_dropBytes? {count : Nat} {rest : List Char}
    (h : dropBytes? count text = some rest) : ∃ front, text = front ++ rest := by
  induction text generalizing count with
  | nil =>
    unfold dropBytes? at h
    split at h
    · exact ⟨[], Option.some.inj h⟩
    · cases h
  | cons c text ih =>
    rw [dropBytes?] at h
    split at h
    · exact ⟨[], Option.some.inj h⟩
    · split at h
      · obtain ⟨front, hfront⟩ := ih h
        exact ⟨c :: front, congrArg (c :: ·) hfront⟩
      · cases h

theorem exists_of_takeBytes? {count : Nat} {front : List Char}
    (h : takeBytes? count text = some front) : ∃ rest, text = front ++ rest := by
  induction text generalizing count front with
  | nil =>
    unfold takeBytes? at h
    split at h
    · obtain rfl := Option.some.inj h
      exact ⟨[], rfl⟩
    · cases h
  | cons c text ih =>
    rw [takeBytes?] at h
    split at h
    · obtain rfl := Option.some.inj h
      exact ⟨c :: text, rfl⟩
    · split at h
      · obtain ⟨taken, htaken, rfl⟩ := Option.map_eq_some_iff.mp h
        obtain ⟨rest, hrest⟩ := ih htaken
        exact ⟨rest, congrArg (c :: ·) hrest⟩
      · cases h

theorem mem_of_slice? {start stop : Nat} {middle : List Char} {d : Char}
    (h : slice? start stop text = some middle) (hd : d ∈ middle) : d ∈ text := by
  unfold slice? at h
  split at h
  · obtain ⟨rest, hrest, hmiddle⟩ := Option.bind_eq_some_iff.mp h
    obtain ⟨front, rfl⟩ := exists_of_dropBytes? hrest
    obtain ⟨back, rfl⟩ := exists_of_takeBytes? hmiddle
    exact List.mem_append_right _ (List.mem_append_left _ hd)
  · exact nomatch h

theorem mem_of_mem_trimStart {d : Char} (h : d ∈ trimStart text) : d ∈ text :=
  (List.dropWhile_sublist _).subset h

end Text

/-! ## 3. Numbers -/

namespace Literal

variable {text : List Char}

theorem readBased_upper (text : List Char) : readBased (Text.upper text) = readBased text := by
  unfold readBased
  rw [Text.upper_upper]

theorem readTrimmed_upper (h : '\'' ∉ text) :
    readTrimmed (Text.upper text) = readTrimmed text := by
  cases text with
  | nil => rfl
  | cons c rest =>
    obtain ⟨hc, hrest⟩ := not_or.mp (mt List.mem_cons.mpr h)
    by_cases hminus : c = '-'
    · subst hminus
      show readBased (Text.trimStart (Text.upper rest)) >>= negate = _
      rw [Text.trimStart_upper, readBased_upper]
      rfl
    · have hplain : c ∉ ['-', '\''] := by simp [hminus, Ne.symm hc]
      have hraised : c.toUpper ∉ ['-', '\''] := mt (Text.toUpper_mem_iff (by decide)).mp hplain
      rw [readTrimmed_cons hplain, Text.upper_cons, readTrimmed_cons hraised, ← Text.upper_cons,
        readBased_upper]

/-- **A text without a single quote is read in any letter case.** -/
theorem read_upper (h : '\'' ∉ text) : read (Text.upper text) = read text := by
  rw [read, Text.trim_upper, readTrimmed_upper fun hmem => h (Text.mem_of_mem_trim hmem), read]

theorem parse_upperString {s : String} (h : '\'' ∉ s.toList) :
    parse (Text.upperString s) = parse s := by
  rw [parse, Text.toList_upperString, read_upper h, parse]

end Literal

/-! ## 4. Tokens -/

namespace Token

/-- A token with the letters of its text raised. The marks have no letters. -/
def upper : Token → Token
  | .numeric text => .numeric (Text.upperString text)
  | .ident text => .ident (Text.upperString text)
  | .quoted text => .quoted (Text.upperString text)
  | t => t

end Token

def Lexeme.upper (l : Lexeme) : Lexeme := { l with token := l.token.map Token.upper }

namespace Token

variable {next : Option Char} {c : Char} {tail text : List Char} {t : Option Token} {k : Nat}

theorem upper_of_isMark {m : Token} (h : isMark m = true) : m.upper = m := by
  cases m <;> first | rfl | exact nomatch h

theorem ofMark?_toUpper (c : Char) : ofMark? c.toUpper = (ofMark? c).map upper := by
  have hraised : ofMark? c.toUpper = ofMark? c := Text.toUpper_congr (a := none) (by decide) c
  rw [hraised]
  cases hc : ofMark? c with
  | none => rfl
  | some m => rw [Option.map_some, upper_of_isMark (isMark_of_ofMark? hc)]

theorem forall_upper {p : Char → Bool} (hp : ∀ c, p c.toUpper = p c) (h : ∀ d ∈ tail, p d = true) :
    ∀ d ∈ Text.upper tail, p d = true := by
  intro d hd
  obtain ⟨e, he, rfl⟩ := List.mem_map.mp hd
  rw [hp, h e he]

theorem Stops.upper {p : Char → Bool} (hp : ∀ c, p c.toUpper = p c) (h : Stops p next) :
    Stops p (next.map Char.toUpper) := by
  intro d hd
  obtain ⟨e, he, rfl⟩ := Option.map_eq_some_iff.mp hd
  rw [hp, h e he]

/-- Raising letters leaves every character with its token. -/
theorem Scanned.upper (h : Scanned next c tail t) :
    Scanned (next.map Char.toUpper) c.toUpper (Text.upper tail) (t.map upper) := by
  cases h with
  | numeric starts inside stops =>
    rw [Option.map_some, Token.upper, Text.upperString_ofList]
    refine .numeric ?_ (forall_upper inNumeric_toUpper inside) (stops.upper inNumeric_toUpper)
    rw [startsNumeric_toUpper, starts]
  | ident starts inside stops =>
    rw [Option.map_some, Token.upper, Text.upperString_ofList]
    refine .ident ?_ (forall_upper inIdent_toUpper inside) (stops.upper inIdent_toUpper)
    rw [startsIdent_toUpper, starts]
  | @quoted body opens inside =>
    have hclose : Text.upper [c] = [c] := congrArg ([·]) (toUpper_of_isQuote opens)
    rw [Option.map_some, Token.upper, Text.upperString_ofList, Text.upper_cons, Text.upper_append,
      hclose, toUpper_of_isQuote opens]
    exact .quoted opens (forall_upper (inQuoted_toUpper opens) inside)
  | unclosed opens inside ends =>
    rw [toUpper_of_isQuote opens]
    refine .unclosed opens (forall_upper (inQuoted_toUpper opens) inside) ?_
    intro d hd
    obtain ⟨e, he, rfl⟩ := Option.map_eq_some_iff.mp hd
    rw [ends e he]
    rfl
  | mark numeric ident quote =>
    rw [← ofMark?_toUpper]
    exact .mark (by rw [startsNumeric_toUpper, numeric]) (by rw [startsIdent_toUpper, ident])
      (by rw [isQuote_toUpper, quote])

/-- **The tokens of a raised text** are those of the text, raised, where they were. -/
theorem lexFrom_upper (k : Nat) (text : List Char) :
    lexFrom k (Text.upper text) = (lexFrom k text).map Lexeme.upper := by
  match text with
  | [] => rw [lexFrom_nil, List.map_nil, Text.upper, List.map_nil, lexFrom_nil]
  | c :: rest =>
    have hgap := isGap_toUpper c
    cases hc : isGap c with
    | true =>
      rw [Text.upper_cons, lexFrom_gap (hgap.trans hc), lexFrom_gap hc, Text.utf8Size_toUpper,
        lexFrom_upper _ rest]
    | false =>
      obtain ⟨t, tail, more, hrest, hscanned⟩ := exists_scanned c rest
      have hshorter : more.length < (c :: rest).length := by
        rw [hrest, List.length_cons, List.length_append]
        omega
      have hraised : Scanned (Text.upper more).head? c.toUpper (Text.upper tail) (t.map upper) := by
        rw [Text.head?_upper]
        exact hscanned.upper
      rw [hrest, Text.upper_cons, Text.upper_append, lexFrom_token (hgap.trans hc) hraised,
        lexFrom_token hc hscanned, ← Text.upper_cons, Text.byteLength_upper, lexFrom_upper _ more,
        List.map_cons, Lexeme.upper]
termination_by text.length

/-- The characters of a token are characters of the text. -/
theorem mem_of_mem_lexFrom {l : Lexeme} {m : Token} {d : Char} (hl : l ∈ lexFrom k text)
    (hm : l.token = some m) (hd : d ∈ m.render.toList) : d ∈ text := by
  generalize hls : lexFrom k text = ls at hl
  induction ls generalizing k text with
  | nil => exact nomatch hl
  | cons first ls ih =>
    obtain ⟨gaps, c, tail, more, rfl, -, -, hscanned, -, -, hrest⟩ := exists_of_lexFrom_eq_cons hls
    refine List.mem_append_right gaps ?_
    rw [← List.cons_append]
    rcases List.mem_cons.mp hl with rfl | hl
    · rw [hm] at hscanned
      rw [hscanned.toList_render] at hd
      exact List.mem_append_left more hd
    · exact List.mem_append_right _ (ih hrest hl)

end Token
end Mcs51
