import Mcs51.Proofs.LetterCase
import Mcs51.Proofs.LineText

/-!
# Lines in any letter case

A line whose letters are raised is read as the same line, with the letters raised of what it keeps
as it is written: the label, the text of a value, and the text of an expression. `Line.upper` says
which these are, and `LoadError.upper` says the same of a refusal. Mnemonics, registers and the
names of bytes and bits are not kept by their letters, so they come out alike wherever they stand.

Reading commutes with raising letters one reader at a time, in the order in which the readers are
built on each other, and `ReadFailure.raise` carries what they return from one to the next. A single
quote is all that could be in the way. Behind the mark of a complement a quoted character is the
number of a bit, and another character is another bit. So the text and the tokens of an operand must
be without that quote, and where the line is without it they are.
-/

namespace Mcs51

/-! ## 1. Raised lines -/

def ByteRef.upper : ByteRef → ByteRef
  | .sfr addr => .sfr addr
  | .expr text => .expr (Text.upperString text)

def BitRef.upper : BitRef → BitRef
  | .named addr => .named addr
  | .field base bit => .field base.upper bit

/-- An operand with the letters raised of what it keeps as it is written: of a value and of an
expression. -/
def Operand.upper : Operand → Operand
  | .immediate text => .immediate (Text.upperString text)
  | .bit b => .bit b.upper
  | .notBit b => .notBit b.upper
  | .direct d => .direct d.upper
  | op => op

def Line.upper (line : Line) : Line :=
  { line with
    label := line.label.map Text.upperString
    operands := line.operands.map Operand.upper }

def LineError.upper : LineError → LineError
  | .unsupportedIndirect operand => .unsupportedIndirect (Text.upperString operand)
  | e => e

def LoadError.upper (e : LoadError) : LoadError := { e with cause := e.cause.upper }

def ReadFailure.upper : ReadFailure → ReadFailure
  | .refused cause => .refused cause.upper
  | .outsideText => .outsideText

/-! ## 2. Readings -/

namespace ReadFailure

variable {α β γ δ : Type}

/-- What a reading comes to when letters are raised, where `f` raises them in what is read. -/
def raise (f : α → β) : Except ReadFailure α → Except ReadFailure β
  | .ok a => .ok (f a)
  | .error e => .error e.upper

theorem raise_map_some (f : α → β) (x : Except ReadFailure α) :
    (raise f x).map some = raise (Option.map f) (x.map some) := by
  cases x <;> rfl

theorem raise_bind {f : α → β} {g : γ → δ} {x : Except ReadFailure α}
    {next : α → Except ReadFailure γ} {next' : β → Except ReadFailure δ}
    (h : ∀ a, x = .ok a → next' (f a) = raise g (next a)) :
    raise f x >>= next' = raise g (x >>= next) := by
  cases x with
  | ok a => exact h a rfl
  | error e => rfl

theorem raise_mapM {f : α → β} {g : γ → δ} {xs : List α} {read : α → Except ReadFailure γ}
    {read' : β → Except ReadFailure δ} (h : ∀ a ∈ xs, read' (f a) = raise g (read a)) :
    (xs.map f).mapM read' = raise (List.map g) (xs.mapM read) := by
  induction xs with
  | nil => rfl
  | cons a xs ih =>
    rw [List.map_cons, List.mapM_cons, List.mapM_cons, h a List.mem_cons_self,
      ih fun b hb => h b (.tail a hb)]
    refine raise_bind fun c _ => ?_
    refine raise_bind fun cs _ => ?_
    rfl

theorem require_ok_iff {found : Option (List Char)} {text : List Char} :
    require found = .ok text ↔ found = some text := by
  cases found <;> simp [require]

theorem require_map_upper (found : Option (List Char)) :
    require (found.map Text.upper) = raise Text.upper (require found) := by
  cases found <;> rfl

end ReadFailure

/-! ## 3. Operands -/

/-- A token without a single quote. -/
def Token.IsQuiet (t : Token) : Prop := '\'' ∉ t.render.toList

def Lexeme.IsQuiet (l : Lexeme) : Prop := ∀ t, l.token = some t → t.IsQuiet

theorem Register.ofName?_upperString (name : String) :
    ofName? (Text.upperString name) = ofName? name := by
  ext r
  rw [ofName?_eq_some_iff, ofName?_eq_some_iff, Text.upperString_upperString]

theorem Sfr.address?_upperString (name : String) :
    address? (Text.upperString name) = address? name := by
  rw [address?, Text.upperString_upperString, address?]

theorem Sfr.bitAddress?_upperString (name : String) :
    bitAddress? (Text.upperString name) = bitAddress? name := by
  rw [bitAddress?, Text.upperString_upperString, bitAddress?]

theorem Mnemonic.ofWord_upperString (word : String) :
    ofWord (Text.upperString word) = ofWord word := by
  rw [ofWord, Text.upperString_upperString, ofWord]

namespace Operand

open ReadFailure (raise raise_bind require_map_upper)

variable {text : List Char} {name : String} {ts : List Token}

theorem directOf_upperString (name : String) :
    directOf (Text.upperString name) = (directOf name).upper := by
  rw [directOf, directOf, Sfr.address?_upperString]
  cases Sfr.address? name <;> rfl

theorem ofWord_upperString (name : String) :
    ofWord (Text.upperString name) = (ofWord name).upper := by
  rw [ofWord, ofWord, Register.ofName?_upperString, Text.upperString_upperString,
    Sfr.bitAddress?_upperString, directOf_upperString]
  cases Register.ofName? name with
  | some r => rfl
  | none =>
    dsimp only
    split
    · rfl
    split
    · rfl
    split
    · rfl
    cases Sfr.bitAddress? name <;> rfl

theorem pointer?_upperString (name : String) :
    pointer? (Text.upperString name) = pointer? name := by
  rw [pointer?, Register.ofName?_upperString, pointer?]

theorem bitIndex_upperString {digits : String} (h : '\'' ∉ digits.toList) :
    bitIndex (Text.upperString digits) = bitIndex digits := by
  rw [bitIndex, Literal.parse_upperString h, bitIndex]

theorem fieldOf_upper (base : ByteRef) {digits : String} (h : '\'' ∉ digits.toList) :
    fieldOf base.upper (Text.upperString digits) = (fieldOf base digits).upper := by
  rw [fieldOf, bitIndex_upperString h, fieldOf, upper, BitRef.upper]

/-- The operand that keeps a text as it is. -/
theorem kept_upper (text : List Char) :
    (Except.ok (.direct (.expr (String.ofList (Text.upper text)))) : Except ReadFailure Operand) =
      raise upper (.ok (.direct (.expr (String.ofList text)))) := by
  rw [raise, upper, ByteRef.upper, Text.upperString_ofList]

theorem refuseIndirect_upper (text : List Char) :
    refuseIndirect (Text.upper text) = raise upper (refuseIndirect text) := by
  rw [refuseIndirect, refuseIndirect, raise, ReadFailure.upper, LineError.upper,
    Text.upperString_ofList]

theorem complement_upper {inner : Operand} (text : List Char)
    (h : ∀ e, inner = .direct (.expr e) → '\'' ∉ e.toList) :
    complement (Text.upper text) inner.upper = (complement text inner).upper := by
  have hkept := Except.ok.inj (kept_upper text)
  cases inner with
  | bit b => rfl
  | direct d =>
    cases d with
    | sfr addr => exact hkept
    | expr e =>
      rw [upper, ByteRef.upper, complement, complement, Literal.parse_upperString (h e rfl)]
      cases Literal.parse e with
      | ok n => rfl
      | error _ => exact hkept
  | _ => exact hkept

theorem ofTokens_ident_upper (name : String) (hts : ∀ t ∈ ts, t.IsQuiet)
    (text : List Char) :
    ofTokens (.ident (Text.upperString name) :: ts.map Token.upper) (Text.upper text) =
      raise upper (ofTokens (.ident name :: ts) text) := by
  cases ts with
  | nil => exact congrArg Except.ok (ofWord_upperString name)
  | cons sep ts =>
    cases sep with
    | dot =>
      cases ts with
      | nil => exact kept_upper text
      | cons index ts =>
        cases index with
        | numeric digits =>
          cases ts with
          | nil =>
            have hdigits : '\'' ∉ digits.toList := hts (.numeric digits) (by simp)
            refine congrArg Except.ok ?_
            rw [directOf_upperString, fieldOf_upper _ hdigits]
          | cons => exact kept_upper text
        | _ => exact kept_upper text
    | _ => exact kept_upper text

theorem ofTokens_numeric_upper (base : String) (hts : ∀ t ∈ ts, t.IsQuiet)
    (text : List Char) :
    ofTokens (.numeric (Text.upperString base) :: ts.map Token.upper) (Text.upper text) =
      raise upper (ofTokens (.numeric base :: ts) text) := by
  cases ts with
  | nil => exact kept_upper text
  | cons sep ts =>
    cases sep with
    | dot =>
      cases ts with
      | nil => exact kept_upper text
      | cons index ts =>
        cases index with
        | numeric digits =>
          cases ts with
          | nil =>
            have hdigits : '\'' ∉ digits.toList := hts (.numeric digits) (by simp)
            exact congrArg Except.ok (fieldOf_upper (.expr base) hdigits)
          | cons => exact kept_upper text
        | _ => exact kept_upper text
    | _ => exact kept_upper text

theorem ofTokens_atSign_upper (ts : List Token) (text : List Char) :
    ofTokens (.atSign :: ts.map Token.upper) (Text.upper text) =
      raise upper (ofTokens (.atSign :: ts) text) := by
  cases ts with
  | nil => exact refuseIndirect_upper text
  | cons t ts =>
    cases t with
    | ident name =>
      cases ts with
      | nil =>
        rw [List.map_singleton, Token.upper, ofTokens, pointer?_upperString, ofTokens]
        cases pointer? name with
        | some r => rfl
        | none => exact refuseIndirect_upper text
      | cons => exact refuseIndirect_upper text
    | _ => exact refuseIndirect_upper text

theorem ofTokens_hash_upper (ts : List Token) (text : List Char) :
    ofTokens (.hash :: ts.map Token.upper) (Text.upper text) =
      raise upper (ofTokens (.hash :: ts) text) := by
  have hread : ∀ ts text, ofTokens (.hash :: ts) text =
      ReadFailure.require (Text.dropBytes? 1 text) >>= fun value =>
        .ok (.immediate (String.ofList (Text.trim value))) := fun _ _ => rfl
  rw [hread, hread, Text.dropBytes?_upper, require_map_upper]
  refine raise_bind fun value _ => ?_
  rw [raise, upper, Text.trim_upper, Text.upperString_ofList]

theorem ofTokens_slash_eq (ts : List Token) (text : List Char) :
    ofTokens (.slash :: ts) text =
      ReadFailure.require (Text.dropBytes? 1 text) >>= fun rest =>
        ofTokens ts (Text.trimStart rest) >>= fun inner => .ok (complement text inner) :=
  rfl

/-- An expression is a word or a text, so it has a quote only where these have one. -/
theorem not_mem_of_ofTokens_eq_expr {e : String} (hts : ∀ t ∈ ts, t.IsQuiet)
    (htext : '\'' ∉ text) (h : ofTokens ts text = .ok (.direct (.expr e))) :
    '\'' ∉ e.toList := by
  rcases of_expr h with rfl | rfl
  · exact hts (.ident e) List.mem_cons_self
  · rwa [String.toList_ofList]

/-- **An operand in any letter case.** -/
theorem ofTokens_upper (hts : ∀ t ∈ ts, t.IsQuiet) (htext : '\'' ∉ text) :
    ofTokens (ts.map Token.upper) (Text.upper text) = raise upper (ofTokens ts text) := by
  induction ts generalizing text with
  | nil => exact kept_upper text
  | cons t ts ih =>
    have hrest : ∀ u ∈ ts, u.IsQuiet := fun u hu => hts u (.tail t hu)
    cases t with
    | ident name => exact ofTokens_ident_upper name hrest text
    | numeric base => exact ofTokens_numeric_upper base hrest text
    | atSign => exact ofTokens_atSign_upper ts text
    | hash => exact ofTokens_hash_upper ts text
    | slash =>
      show ofTokens (.slash :: ts.map Token.upper) _ = _
      rw [ofTokens_slash_eq, ofTokens_slash_eq, Text.dropBytes?_upper, require_map_upper]
      refine raise_bind fun rest hfound => ?_
      have hquiet : '\'' ∉ Text.trimStart rest := by
        intro hmem
        obtain ⟨front, rfl⟩ := Text.exists_of_dropBytes? (ReadFailure.require_ok_iff.mp hfound)
        exact htext (List.mem_append_right front (Text.mem_of_mem_trimStart hmem))
      rw [Text.trimStart_upper, ih hrest hquiet]
      refine raise_bind fun inner hinner => congrArg Except.ok (complement_upper text ?_)
      rintro e rfl
      exact not_mem_of_ofTokens_eq_expr hrest hquiet hinner
    | _ => exact kept_upper text

theorem ofRawText_upper (text : List Char) :
    ofRawText (Text.upper text) = raise upper (ofRawText text) := by
  cases text with
  | nil => exact kept_upper []
  | cons c rest =>
    by_cases hhash : c = '#'
    · subst hhash
      show ofRawText ('#' :: Text.upper rest) = _
      rw [ofRawText, ofRawText, raise, upper, Text.trim_upper, Text.upperString_ofList]
    by_cases hat : c = '@'
    · subst hat
      exact refuseIndirect_upper ('@' :: rest)
    · have hkept : ∀ d text, d ∉ ['#', '@'] →
          ofRawText (d :: text) = .ok (.direct (.expr (String.ofList (d :: text)))) := by
        intro d text hd
        unfold ofRawText
        split <;> simp_all
      have hplain : c ∉ ['#', '@'] := by simp [hhash, hat]
      rw [hkept c rest hplain, Text.upper_cons,
        hkept c.toUpper _ (mt (Text.toUpper_mem_iff (by decide)).mp hplain)]
      exact kept_upper (c :: rest)

theorem mapM_id_upper (tokens : List (Option Token)) :
    (tokens.map (Option.map Token.upper)).mapM id =
      (tokens.mapM id).map (List.map Token.upper) := by
  induction tokens with
  | nil => rfl
  | cons t tokens ih =>
    rw [List.map_cons, List.mapM_cons, List.mapM_cons, ih]
    cases t with
    | none => rfl
    | some t => cases tokens.mapM id <;> rfl

theorem readTokens_upper {tokens : List (Option Token)}
    (htokens : ∀ t, some t ∈ tokens → t.IsQuiet) (htext : '\'' ∉ text) :
    readTokens (tokens.map (Option.map Token.upper)) (Text.upper text) =
      raise upper (readTokens tokens text) := by
  rcases map_some_or_mapM_eq_none tokens with ⟨ts, rfl⟩ | hnone
  · have hmap : (ts.map some).map (Option.map Token.upper) = (ts.map Token.upper).map some := by
      simp
    rw [hmap, readTokens_map_some, readTokens_map_some]
    exact ofTokens_upper (fun t ht => htokens t (List.mem_map_of_mem ht)) htext
  · rw [readTokens, readTokens, mapM_id_upper, hnone]
    exact ofRawText_upper text

theorem ofLexemes_upper {ls : List Lexeme} (hls : ∀ l ∈ ls, l.IsQuiet) (htext : '\'' ∉ text) :
    ofLexemes (ls.map Lexeme.upper) (Text.upper text) = raise upper (ofLexemes ls text) := by
  have hmap : (ls.map Lexeme.upper).map (·.token) =
      (ls.map (·.token)).map (Option.map Token.upper) := by
    simp [Lexeme.upper]
  rw [ofLexemes_eq, ofLexemes_eq, hmap]
  refine readTokens_upper ?_ htext
  intro t ht
  obtain ⟨l, hl, htoken⟩ := List.mem_map.mp ht
  exact hls l hl t htoken

end Operand

/-! ## 4. Lines -/

namespace Line

open ReadFailure (raise raise_map_some raise_bind raise_mapM require_map_upper)

variable {ls : List Lexeme} {code : List Char}

theorem code_upper (text : List Char) :
    Line.code (Text.upper text) = Text.upper (Line.code text) := by
  have hsemicolon : ∀ c : Char, decide (c.toUpper ≠ ';') = decide (c ≠ ';') :=
    fun c => Text.toUpper_congr (f := fun c => decide (c ≠ ';')) (a := true) (by decide) c
  rw [Line.code, Text.takeWhile_upper hsemicolon, Text.trim_upper, Line.code]

/-- A lexeme is a mark whether letters are raised or not. -/
theorem token_upper_eq_iff {m : Token} (hm : Token.isMark m = true) (l : Lexeme) :
    l.upper.token = some m ↔ l.token = some m := by
  show l.token.map Token.upper = some m ↔ _
  cases l.token with
  | none => simp
  | some t =>
    rw [Option.map_some, Option.some.injEq, Option.some.injEq]
    constructor
    · rintro rfl
      cases t <;> first | rfl | exact nomatch hm
    · rintro rfl
      exact Token.upper_of_isMark hm

theorem brokenLabel_upper (ls : List Lexeme) :
    brokenLabel (ls.map Lexeme.upper) = brokenLabel ls := by
  have hcolon : ∀ l : Lexeme, l.upper.token = some .colon ↔ l.token = some .colon :=
    token_upper_eq_iff rfl
  have hnone : ∀ l : Lexeme, l.upper.token = none ↔ l.token = none :=
    fun l => Option.map_eq_none_iff
  simp only [brokenLabel, List.any_map, List.takeWhile_map, Function.comp_def, ne_eq, hcolon, hnone]

theorem constant?_upper (ls : List Lexeme) :
    constant? (ls.map Lexeme.upper) =
      (constant? ls).map fun found => (Text.upperString found.1, found.2) := by
  match ls with
  | [] => rfl
  | ⟨none, _, _⟩ :: _ => rfl
  | [⟨some t, _, _⟩] => cases t <;> rfl
  | ⟨some t, _, _⟩ :: ⟨none, _, _⟩ :: _ => cases t <;> rfl
  | ⟨some t, _, _⟩ :: ⟨some u, _, stop⟩ :: rest =>
    cases t with
    | ident name =>
      cases u with
      | ident word =>
        simp only [List.map_cons, Lexeme.upper, Option.map_some, Token.upper, constant?,
          Text.upperString_upperString]
        split <;> rfl
      | _ => rfl
    | _ => rfl

theorem splitLabel_upper (ls : List Lexeme) :
    splitLabel (ls.map Lexeme.upper) =
      ((splitLabel ls).1.map Text.upperString, (splitLabel ls).2.map Lexeme.upper) := by
  match ls with
  | [] => rfl
  | ⟨none, _, _⟩ :: _ => rfl
  | [⟨some t, _, _⟩] => cases t <;> rfl
  | ⟨some t, _, _⟩ :: ⟨none, _, _⟩ :: _ => cases t <;> rfl
  | ⟨some t, _, _⟩ :: ⟨some u, _, _⟩ :: _ =>
    cases t with
    | ident name => cases u <;> rfl
    | _ => rfl

theorem splitMnemonic_upper (ls : List Lexeme) :
    (splitMnemonic (ls.map Lexeme.upper)).mapError .refused =
      raise (fun found => (found.1, found.2.map Lexeme.upper))
        ((splitMnemonic ls).mapError .refused) := by
  match ls with
  | [] => rfl
  | ⟨none, _, _⟩ :: rest => rfl
  | ⟨some t, _, _⟩ :: rest =>
    cases t with
    | ident word =>
      refine congrArg (fun m => Except.ok (some m, rest.map Lexeme.upper)) ?_
      exact Mnemonic.ofWord_upperString word
    | _ => rfl

theorem splitOnP_map {α β : Type} (p : β → Bool) (f : α → β) (xs : List α) :
    (xs.map f).splitOnP p = (xs.splitOnP (p ∘ f)).map (List.map f) := by
  induction xs with
  | nil => rfl
  | cons x xs ih =>
    rw [List.map_cons, List.splitOnP_cons_eq_if_modifyHead, List.splitOnP_cons_eq_if_modifyHead, ih,
      Function.comp_apply]
    split
    · rfl
    · cases xs.splitOnP (p ∘ f) <;> rfl

theorem mem_of_mem_operandGroups {group : List Lexeme} {l : Lexeme}
    (hgroup : group ∈ operandGroups ls) (hl : l ∈ group) : l ∈ ls := by
  obtain ⟨-, front, back, rfl⟩ := exists_of_mem_operandGroups hgroup
  exact List.mem_append_right front (List.mem_append_left back hl)

theorem mem_of_splitLabel {l : Lexeme} (hl : l ∈ (splitLabel ls).2) : l ∈ ls := by
  rcases splitLabel_cases ls with ⟨_, _, _, _, rfl, _, _, hsplit⟩ | ⟨hsplit, _⟩
  · rw [hsplit] at hl
    exact .tail _ (.tail _ hl)
  · rwa [hsplit] at hl

theorem mem_of_splitMnemonic {found : Option Mnemonic × List Lexeme} {l : Lexeme}
    (h : splitMnemonic ls = .ok found) (hl : l ∈ found.2) : l ∈ ls := by
  rcases splitMnemonic_ok h with ⟨_, _, hback⟩ | ⟨_, _, rfl, _⟩
  · rw [hback] at hl
    exact nomatch hl
  · exact .tail _ hl

theorem operandGroups_upper (ls : List Lexeme) :
    operandGroups (ls.map Lexeme.upper) = (operandGroups ls).map (List.map Lexeme.upper) := by
  have hcomma : separates ∘ Lexeme.upper = separates :=
    funext fun l => decide_eq_decide.mpr (token_upper_eq_iff rfl l)
  rw [operandGroups_eq, operandGroups_eq, splitOnP_map, hcomma, List.filter_map]
  refine congrArg (List.map _) (congrArg (List.filter · _) ?_)
  funext group
  simp

theorem groupText_upper (code : List Char) (group : List Lexeme) :
    groupText (Text.upper code) (group.map Lexeme.upper) =
      raise Text.upper (groupText code group) := by
  rw [groupText, List.head?_map, List.getLast?_map, Option.map_map, Option.map_map,
    Text.slice?_upper, require_map_upper]
  rfl

theorem readOperand_upper {group : List Lexeme} (hcode : '\'' ∉ code)
    (hgroup : ∀ l ∈ group, l.IsQuiet) :
    readOperand (Text.upper code) (group.map Lexeme.upper) =
      raise Operand.upper (readOperand code group) := by
  rw [readOperand, groupText_upper, readOperand]
  refine raise_bind fun text hfound => Operand.ofLexemes_upper hgroup ?_
  intro hmem
  exact hcode (Text.mem_of_slice? (ReadFailure.require_ok_iff.mp hfound) hmem)

theorem readConstant_upper (code : List Char) (name : String) (stop number : Nat) :
    readConstant (Text.upper code) (Text.upperString name) stop number =
      raise Line.upper (readConstant code name stop number) := by
  rw [readConstant, Text.dropBytes?_upper, require_map_upper, readConstant]
  refine raise_bind fun value _ => ?_
  rw [Text.trim_upper, ← Text.upperString_ofList]
  rfl

theorem readInstruction_upper (hcode : '\'' ∉ code)
    (hls : ∀ l ∈ ls, l.IsQuiet) (number : Nat) :
    readInstruction (Text.upper code) (ls.map Lexeme.upper) number =
      raise Line.upper (readInstruction code ls number) := by
  have hread : ∀ code ls, readInstruction code ls number =
      (splitMnemonic (splitLabel ls).2).mapError .refused >>= fun found =>
        (operandGroups found.2).mapM (readOperand code) >>= fun operands =>
          .ok ⟨(splitLabel ls).1, found.1, operands, number⟩ := fun _ _ => rfl
  rw [hread, hread, splitLabel_upper, splitMnemonic_upper]
  refine raise_bind fun found hfound => ?_
  have hback : ∀ l ∈ found.2, l ∈ ls := fun l hl =>
    mem_of_splitLabel (mem_of_splitMnemonic (mapError_ok_iff.mp hfound) hl)
  have hgroups : ∀ group ∈ operandGroups found.2,
      readOperand (Text.upper code) (group.map Lexeme.upper) =
        raise Operand.upper (readOperand code group) := by
    intro group hgroup
    refine readOperand_upper hcode fun l hl => hls l ?_
    exact hback l (mem_of_mem_operandGroups hgroup hl)
  rw [operandGroups_upper, raise_mapM hgroups]
  exact raise_bind fun operands _ => rfl

theorem ofLexemes_upper (hcode : '\'' ∉ code)
    (hls : ∀ l ∈ ls, l.IsQuiet) (number : Nat) :
    ofLexemes (Text.upper code) (ls.map Lexeme.upper) number =
      raise Line.upper (ofLexemes code ls number) := by
  rw [ofLexemes, ofLexemes, brokenLabel_upper, constant?_upper]
  split
  · rfl
  · cases constant? ls with
    | none => exact readInstruction_upper hcode hls number
    | some found => exact readConstant_upper code found.1 found.2 number

theorem read_upper {text : List Char} (h : '\'' ∉ text) (number : Nat) :
    read (Text.upper text) number = raise (Option.map Line.upper) (read text number) := by
  have hcode : '\'' ∉ Line.code text := fun hmem =>
    h ((List.takeWhile_sublist _).subset (Text.mem_of_mem_trim hmem))
  have hread : ∀ text, read text number = if Line.code text = [] then .ok none
      else (ofLexemes (Line.code text) (Token.lex (Line.code text)) number).map some := fun _ => rfl
  rw [hread, hread, code_upper]
  by_cases hempty : Line.code text = []
  · rw [if_pos hempty, if_pos (Text.upper_eq_nil_iff.mpr hempty)]
    rfl
  · rw [if_neg hempty, if_neg (mt Text.upper_eq_nil_iff.mp hempty)]
    have hls : ∀ l ∈ Token.lex (Line.code text), l.IsQuiet :=
      fun l hl t ht hmem => hcode (Token.mem_of_mem_lexFrom hl ht hmem)
    rw [Token.lex, Token.lexFrom_upper, ← Token.lex, ofLexemes_upper hcode hls]
    exact raise_map_some Line.upper _

/-- **A line in any letter case.** A text without a single quote and the same text with its letters
    raised are read alike. Both hold no line, or both are refused for the same reason, or both are
    lines with the same mnemonic and the same operands. Only the label, the texts of values and
    expressions, and the operand that a refusal shows have their letters raised as well. -/
theorem parse_upper {text : List Char} (h : '\'' ∉ text) (number : Nat) :
    parse (Text.upper text) number =
      ((parse text number).map (Option.map Line.upper)).mapError LoadError.upper := by
  rw [parse, parse, read_upper h]
  cases read text number with
  | ok line => rfl
  | error e => cases e <;> rfl

/-- A line in small letters and in capital ones. -/
theorem small_letters_are_raised :
    parse "LOOP: CJNE @R0, #0FFH, LOOP ; AGAIN".toList 7 =
      .ok (some ⟨some "LOOP", some .cjne,
        [.indirect 0, .immediate "0FFH", .direct (.expr "LOOP")], 7⟩) := by
  have hread : parse "Loop: cjne @r0, #0ffh, loop ; again".toList 7 =
      .ok (some ⟨some "Loop", some .cjne,
        [.indirect 0, .immediate "0ffh", .direct (.expr "loop")], 7⟩) := by
    decide +kernel
  have hraised := parse_upper
    (by decide : '\'' ∉ "Loop: cjne @r0, #0ffh, loop ; again".toList) 7
  rw [hread] at hraised
  exact hraised

/-- Between single quotes the letters count. -/
example :
    parse "SETB /'a'".toList 0 = .ok (some ⟨none, some .setb, [.notBit (.named 0x61)], 0⟩) ∧
      parse "SETB /'A'".toList 0 = .ok (some ⟨none, some .setb, [.notBit (.named 0x41)], 0⟩) := by
  decide +kernel

end Line
end Mcs51
