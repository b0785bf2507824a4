import Mathlib.Data.Nat.Digits.Lemmas
import Mcs51.Proofs.CanonicalText
import Mcs51.Proofs.LiteralColon

/-!
# What a literal is read as

A numeral is said here without a scanner: digits, in any letter case, with the suffix of their
radix (`Spells`), and the number that positional writing gives them (`Radix.number`). The fact that
carries the file is `readBased_of_spells`: behind a sign of its own, a numeral is read as its number
with that sign if 64 bits hold it, and is refused as too great if they do not. From it come both
directions for whole literals, what is read of a numeral and what a text is that is read at all
(`Denotes`).

The minus in front is not that sign. It is taken off before the digits are read, so the magnitude
alone has to fit, and of the range that the error's help promises the least value is left out.
-/

namespace Mcs51.Literal

open Text (IsBlanks StartsSolid EndsSolid)

/-! ## 1. Numerals and their numbers -/

inductive Radix
  | hexadecimal
  | binary
  | decimal

namespace Radix

def base : Radix → Nat
  | .hexadecimal => 16
  | .binary => 2
  | .decimal => 10

def suffix : Radix → List Char
  | .hexadecimal => ['H']
  | .binary => ['B']
  | .decimal => []

/-- What a character that is no digit is reported as. -/
def badDigit : Radix → LiteralError
  | .hexadecimal => .invalidHex
  | .binary => .invalidBin
  | .decimal => .invalidDec

/-- The number that digits stand for, the first of them the most significant. -/
def number (radix : Radix) (digits : List Nat) : Nat := Nat.ofDigits radix.base digits.reverse

theorem base_pos (radix : Radix) : 0 < radix.base := by
  cases radix <;> decide

theorem base_le (radix : Radix) : radix.base ≤ 16 := by
  cases radix <;> decide

theorem one_lt_base (radix : Radix) : 1 < radix.base := by
  cases radix <;> decide

/-- Reading from the left: each digit moves the value before it up one place. -/
theorem number_eq_foldl (radix : Radix) (digits : List Nat) :
    radix.number digits = digits.foldl (fun n d => n * radix.base + d) 0 := by
  rw [number, Nat.ofDigits_eq_foldr, List.foldr_reverse]
  simp only [Nat.cast_id, Nat.add_comm, Nat.mul_comm]

end Radix

/-- Digits with the suffix of their radix, in any letter case. -/
structure Spells (radix : Radix) (digits : List Nat) (text : List Char) : Prop where
  nonempty : digits ≠ []
  small : ∀ d ∈ digits, d < radix.base
  raised : Text.upper text = digits.map hexDigit ++ radix.suffix

/-- A numeral, or one with a minus directly in front. -/
inductive Signed (radix : Radix) : List Char → Int → Prop
  | plain {digits : List Nat} {text : List Char} (h : Spells radix digits text) :
    Signed radix text (radix.number digits)
  | negative {digits : List Nat} {text : List Char} (h : Spells radix digits text) :
    Signed radix ('-' :: text) (-(radix.number digits : Int))

/-- The sign that digits may carry themselves. -/
inductive Sign : List Char → Int → Prop
  | none : Sign [] 1
  | plus : Sign ['+'] 1
  | minus : Sign ['-'] (-1)

/-- What may stand before all that: a minus, with blanks behind it. -/
inductive Lead : List Char → Int → Prop
  | none : Lead [] 1
  | minus {gap : List Char} (h : IsBlanks gap) : Lead ('-' :: gap) (-1)

/-- The literals, without the blanks around them, and their values. -/
inductive Denotes : List Char → Int → Prop
  | character (c : Char) : Denotes ['\'', c, '\''] c.toNat
  | number {lead sign text : List Char} {a b : Int} {radix : Radix} {digits : List Nat}
    (hlead : Lead lead a) (hsign : Sign sign b) (h : Spells radix digits text)
    (hfits : radix.number digits ≤ greatest) :
    Denotes (lead ++ (sign ++ text)) (a * (b * radix.number digits))

/-- The least value of 64 bits. -/
def least : Int := -(greatest + 1)

/-- The range of 64 bits, with both its ends. -/
def InRange (z : Int) : Prop := least ≤ z ∧ z ≤ greatest

instance (z : Int) : Decidable (InRange z) := inferInstanceAs (Decidable (_ ∧ _))

theorem inRange_natCast {n : Nat} : InRange n ↔ n ≤ greatest := by
  unfold InRange least
  omega

theorem inRange_neg_natCast {n : Nat} : InRange (-(n : Int)) ↔ n ≤ greatest + 1 := by
  unfold InRange least
  omega

/-! ## 2. Digits -/

section
variable {base limit value d n : Nat} {bad : LiteralError} {text : List Char} {digits : List Nat}
  {radix : Radix} {c : Char}

theorem toNat_hexDigit (h : d < 16) :
    (hexDigit d).toNat = if d < 10 then 48 + d else 55 + d := by
  have hall : ∀ d : Fin 16, (hexDigit d).toNat = if d.val < 10 then 48 + d.val else 55 + d.val := by
    decide
  exact hall ⟨d, h⟩

theorem eq_hexDigit_iff (h : d < 16) :
    c = hexDigit d ↔ c.toNat = if d < 10 then 48 + d else 55 + d := by
  rw [← toNat_hexDigit h, Char.toNat_inj]

theorem digitValue?_eq_some_iff (hbase : base ≤ 16) :
    digitValue? base c = some d ↔ d < base ∧ c = hexDigit d := by
  have hdigit : '0' ≤ c ∧ c ≤ '9' ↔ 48 ≤ c.toNat ∧ c.toNat ≤ 57 := Iff.rfl
  have hletter : 'A' ≤ c ∧ c ≤ 'Z' ↔ 65 ≤ c.toNat ∧ c.toNat ≤ 90 := Iff.rfl
  have hvalue : digitValue? base c = some d ↔ d < base ∧ d =
      if 48 ≤ c.toNat ∧ c.toNat ≤ 57 then c.toNat - 48
      else if 65 ≤ c.toNat ∧ c.toNat ≤ 90 then c.toNat - 55
      else base := by
    simp only [digitValue?, hdigit, hletter, Option.ite_none_right_eq_some, Option.some.injEq]
    constructor
    · rintro ⟨hlt, rfl⟩
      exact ⟨hlt, rfl⟩
    · rintro ⟨hlt, rfl⟩
      exact ⟨hlt, rfl⟩
  rw [hvalue]
  refine and_congr_right fun hd => ?_
  rw [eq_hexDigit_iff (Nat.lt_of_lt_of_le hd hbase)]
  split_ifs <;> omega

/-- More digits never make less of a value. -/
theorem le_foldl (hbase : 0 < base) (digits : List Nat) (value : Nat) :
    value ≤ digits.foldl (fun n d => n * base + d) value := by
  induction digits generalizing value with
  | nil => exact Nat.le_refl value
  | cons d digits ih =>
    calc value ≤ value * base := Nat.le_mul_of_pos_right value hbase
      _ ≤ value * base + d := Nat.le_add_right _ d
      _ ≤ _ := ih _

/-- A value that passes the limit on the way is past it at the end, so looking digit by digit is
looking once. -/
theorem readDigits_map (hpos : 0 < base) (hbase : base ≤ 16) (hsmall : ∀ d ∈ digits, d < base)
    (hvalue : value ≤ limit) :
    readDigits base limit bad value (digits.map hexDigit) =
      if digits.foldl (fun n d => n * base + d) value ≤ limit
      then .ok (digits.foldl (fun n d => n * base + d) value) else .error .doesNotFit := by
  induction digits generalizing value with
  | nil => rw [List.foldl_nil, if_pos hvalue]; rfl
  | cons d digits ih =>
    have hd : digitValue? base (hexDigit d) = some d :=
      (digitValue?_eq_some_iff hbase).mpr ⟨hsmall d List.mem_cons_self, rfl⟩
    simp only [List.map_cons, List.foldl_cons, readDigits, hd]
    by_cases hnext : value * base + d ≤ limit
    · rw [if_pos hnext]
      exact ih (fun e he => hsmall e (.tail d he)) hnext
    · have hend : ¬ (d :: digits).foldl (fun n d => n * base + d) value ≤ limit := by
        intro hend
        exact hnext (Nat.le_trans (le_foldl hpos digits _) hend)
      rw [if_neg hnext]
      exact (if_neg hend).symm

/-- Only digits are read. -/
theorem exists_digits_of_readDigits (hbase : base ≤ 16)
    (h : readDigits base limit bad value text = .ok n) :
    ∃ digits : List Nat, (∀ d ∈ digits, d < base) ∧ text = digits.map hexDigit := by
  induction text generalizing value with
  | nil => exact ⟨[], nofun, rfl⟩
  | cons c rest ih =>
    unfold readDigits at h
    split at h
    · exact nomatch h
    · next d hd =>
      split at h
      · obtain ⟨hsmall, hc⟩ := (digitValue?_eq_some_iff hbase).mp hd
        obtain ⟨digits, hdigits, hrest⟩ := ih h
        refine ⟨d :: digits, ?_, ?_⟩
        · intro e he
          rcases List.mem_cons.mp he with rfl | he
          · exact hsmall
          · exact hdigits e he
        · rw [hc, hrest, List.map_cons]
      · exact nomatch h

end

/-! ## 3. Digits behind a sign of their own -/

section
variable {radix : Radix} {digits : List Nat} {text sign : List Char} {b z : Int}
  {bad : LiteralError}

theorem hexDigit_solid {d : Nat} (h : d < 16) :
    hexDigit d ∉ ['+', '-'] ∧ hexDigit d ∉ ['-', '\''] ∧ (hexDigit d).toUpper = hexDigit d ∧
      Text.isBlank (hexDigit d) = false := by
  obtain ⟨_, hin, hupper, _, hsign, hquote, _⟩ := Operand.hexDigit_reads ⟨d, h⟩
  exact ⟨hsign, hquote, hupper, Token.not_isBlank_of_inIdent (Token.inIdent_of_inNumeric hin)⟩

theorem Radix.lt_sixteen {d : Nat} (h : d < radix.base) : d < 16 :=
  Nat.lt_of_lt_of_le h radix.base_le

/-- The number of digits within a limit, with a sign put to it by `f`. -/
theorem map_readDigits {limit : Nat} (f : Int → Int) (hsmall : ∀ d ∈ digits, d < radix.base) :
    Except.map f (readDigits radix.base limit bad 0 (digits.map hexDigit) >>= fun n =>
      pure (n : Int)) =
      if radix.number digits ≤ limit then .ok (f (radix.number digits))
        else .error .doesNotFit := by
  rw [readDigits_map radix.base_pos radix.base_le hsmall (Nat.zero_le limit),
    ← radix.number_eq_foldl]
  by_cases hfits : radix.number digits ≤ limit
  · rw [if_pos hfits, if_pos hfits]
    rfl
  · rw [if_neg hfits, if_neg hfits]
    rfl

theorem exists_digits_of_map {limit : Nat} {f : Int → Int}
    (h : Except.map f (readDigits radix.base limit bad 0 text >>= fun n =>
      pure (n : Int)) = .ok z) :
    ∃ digits : List Nat, (∀ d ∈ digits, d < radix.base) ∧ text = digits.map hexDigit := by
  obtain ⟨_, hvalue, _⟩ := map_ok_iff.mp h
  obtain ⟨_, hread, _⟩ := bind_ok_iff.mp hvalue
  exact exists_digits_of_readDigits radix.base_le hread

/-- **A signed run of digits is its number with that sign**, if the range holds it. -/
theorem readSigned_of_sign (hsign : Sign sign b) (hne : digits ≠ [])
    (hsmall : ∀ d ∈ digits, d < radix.base) :
    readSigned radix.base bad (sign ++ digits.map hexDigit) =
      if InRange (b * radix.number digits) then .ok (b * radix.number digits)
      else .error .doesNotFit := by
  obtain ⟨d, rest, rfl⟩ := List.exists_cons_of_ne_nil hne
  cases hsign with
  | none =>
    obtain ⟨hmark, _⟩ := hexDigit_solid (Radix.lt_sixteen (hsmall d List.mem_cons_self))
    rw [List.nil_append, List.map_cons, readSigned_cons hmark, ← List.map_cons, Int.one_mul]
    exact (map_readDigits _ hsmall).trans (if_congr inRange_natCast.symm rfl rfl)
  | plus =>
    rw [Int.one_mul]
    exact (map_readDigits _ hsmall).trans (if_congr inRange_natCast.symm rfl rfl)
  | minus =>
    rw [Int.neg_mul, Int.one_mul]
    exact (map_readDigits _ hsmall).trans (if_congr inRange_neg_natCast.symm rfl rfl)

/-- Nothing else is read than digits behind at most one sign. -/
theorem exists_sign_of_readSigned (h : readSigned radix.base bad text = .ok z) :
    ∃ sign b digits, text = sign ++ digits.map hexDigit ∧ Sign sign b ∧ digits ≠ [] ∧
      ∀ d ∈ digits, d < radix.base := by
  unfold readSigned at h
  split at h
  · exact nomatch h
  · exact nomatch h
  · exact nomatch h
  · next hne =>
    obtain ⟨digits, hsmall, rfl⟩ := exists_digits_of_map h
    exact ⟨['+'], 1, digits, rfl, .plus, fun hnil => hne (by rw [hnil]; rfl), hsmall⟩
  · next hne =>
    obtain ⟨digits, hsmall, rfl⟩ := exists_digits_of_map h
    exact ⟨['-'], -1, digits, rfl, .minus, fun hnil => hne (by rw [hnil]; rfl), hsmall⟩
  · next hne _ _ _ _ =>
    obtain ⟨digits, hsmall, rfl⟩ := exists_digits_of_map h
    exact ⟨[], 1, digits, rfl, .none, fun hnil => hne (by rw [hnil]; rfl), hsmall⟩

end

/-! ## 4. Numerals behind a sign of their own -/

section
variable {radix : Radix} {digits : List Nat} {body text sign : List Char} {b z : Int}

theorem dropSuffix?_append (body : List Char) (last : Char) :
    dropSuffix? last (body ++ [last]) = some body := by
  rw [dropSuffix?, List.getLast?_concat, if_pos rfl, List.dropLast_concat]

theorem dropSuffix?_eq_none {last : Char} (h : text.getLast? ≠ some last) :
    dropSuffix? last text = none := if_neg h

/-- The last character tells the radix. -/
theorem exists_radix (text : List Char) : ∃ radix body,
    Text.upper text = body ++ Radix.suffix radix ∧
      readBased text = readSigned radix.base radix.badDigit body := by
  unfold readBased
  dsimp only
  split
  · next body hbody =>
    exact ⟨.hexadecimal, body, eq_append_of_dropSuffix? hbody, rfl⟩
  · split
    · next body hbody =>
      exact ⟨.binary, body, eq_append_of_dropSuffix? hbody, rfl⟩
    · exact ⟨.decimal, Text.upper text, (List.append_nil _).symm, rfl⟩

theorem upper_append (front back : List Char) :
    Text.upper (front ++ back) = Text.upper front ++ Text.upper back := List.map_append

theorem Sign.upper (h : Sign sign b) : Text.upper sign = sign := by
  cases h <;> rfl

/-- A sign is no letter, so no other character is raised to it. -/
theorem Sign.eq_of_upper (h : Sign sign b) (htext : Text.upper text = sign) : text = sign := by
  cases h with
  | none => exact List.map_eq_nil_iff.mp htext
  | plus =>
    obtain ⟨c, rfl, hc⟩ := List.map_eq_singleton_iff.mp htext
    rw [(Text.toUpper_eq_digit_iff (by decide)).mp hc]
  | minus =>
    obtain ⟨c, rfl, hc⟩ := List.map_eq_singleton_iff.mp htext
    rw [(Text.toUpper_eq_digit_iff (by decide)).mp hc]

/-- Which radix it is: `B` is a digit as well, but not one that could end a decimal numeral. -/
theorem readBased_of_raised (hne : digits ≠ []) (hsmall : ∀ d ∈ digits, d < radix.base)
    (h : Text.upper text = sign ++ digits.map hexDigit ++ radix.suffix) :
    readBased text = readSigned radix.base radix.badDigit (sign ++ digits.map hexDigit) := by
  unfold readBased
  dsimp only
  rw [h]
  cases radix with
  | hexadecimal =>
    rw [Radix.suffix, dropSuffix?_append]
    rfl
  | binary =>
    have hH : (sign ++ digits.map hexDigit ++ ['B']).getLast? ≠ some 'H' := by
      rw [List.getLast?_concat]
      decide
    rw [Radix.suffix, dropSuffix?_eq_none hH, dropSuffix?_append]
    rfl
  | decimal =>
    have hlast : (sign ++ digits.map hexDigit).getLast? = some (hexDigit (digits.getLast hne)) := by
      rw [List.getLast?_append, List.getLast?_map, List.getLast?_eq_some_getLast hne]
      rfl
    have hten : ∀ d : Fin 10, hexDigit d ≠ 'H' ∧ hexDigit d ≠ 'B' := by
      decide
    obtain ⟨hH, hB⟩ := hten ⟨digits.getLast hne, hsmall _ (List.getLast_mem hne)⟩
    rw [Radix.suffix, List.append_nil, dropSuffix?_eq_none, dropSuffix?_eq_none]
    · rfl
    · rw [hlast]
      exact fun h => hB (Option.some.inj h)
    · rw [hlast]
      exact fun h => hH (Option.some.inj h)

/-- **A numeral is read as its number**, with the sign that it has itself. -/
theorem readBased_of_spells (hsign : Sign sign b) (h : Spells radix digits text) :
    readBased (sign ++ text) =
      if InRange (b * radix.number digits) then .ok (b * radix.number digits)
      else .error .doesNotFit := by
  have hraised : Text.upper (sign ++ text) = sign ++ digits.map hexDigit ++ radix.suffix := by
    rw [upper_append, hsign.upper, h.raised, List.append_assoc]
  rw [readBased_of_raised h.nonempty h.small hraised, readSigned_of_sign hsign h.nonempty h.small]

theorem readBased_ok (h : readBased text = .ok z) : ∃ sign b radix digits numeral,
    text = sign ++ numeral ∧ Sign sign b ∧ Spells radix digits numeral ∧
      z = b * radix.number digits ∧ InRange z := by
  obtain ⟨radix, body, hraised, hread⟩ := exists_radix text
  have hbody := h
  rw [hread] at hbody
  obtain ⟨sign, b, digits, rfl, hsign, hne, hsmall⟩ := exists_sign_of_readSigned hbody
  rw [List.append_assoc] at hraised
  obtain ⟨front, numeral, rfl, hfront, hnumeral⟩ := List.map_eq_append_iff.mp hraised
  obtain rfl : front = sign := hsign.eq_of_upper hfront
  have hspells : Spells radix digits numeral := ⟨hne, hsmall, hnumeral⟩
  rw [readBased_of_spells hsign hspells] at h
  split at h
  · next hrange =>
    obtain rfl := Except.ok.inj h
    exact ⟨front, b, radix, digits, numeral, rfl, hsign, hspells, rfl, hrange⟩
  · exact nomatch h

end

/-! ## 5. Whole literals -/

section
variable {radix : Radix} {digits : List Nat} {text sign lead gap : List Char} {a b v : Int}

theorem toUpper_of_isBlank {c : Char} (h : Text.isBlank c = true) : c.toUpper = c := by
  simp only [Text.isBlank, Text.blankRanges, List.any_cons, List.any_nil, Bool.or_false,
    Bool.or_eq_true, Bool.and_eq_true, decide_eq_true_eq] at h
  rw [← Char.toNat_inj, Text.toNat_toUpper, if_neg]
  omega

theorem Spells.solid (h : Spells radix digits text) : ∀ c ∈ text, Text.isBlank c = false := by
  intro c hc
  rw [Bool.eq_false_iff]
  intro hblank
  have hmem : c ∈ digits.map hexDigit ++ radix.suffix := by
    rw [← h.raised, ← toUpper_of_isBlank hblank]
    exact List.mem_map_of_mem hc
  rcases List.mem_append.mp hmem with hdigit | hsuffix
  · obtain ⟨d, hd, rfl⟩ := List.mem_map.mp hdigit
    obtain ⟨_, _, _, hsolid⟩ := hexDigit_solid (Radix.lt_sixteen (h.small d hd))
    exact Bool.eq_false_iff.mp hsolid hblank
  · have hall : ∀ c ∈ radix.suffix, Text.isBlank c = false := by
      cases radix with
      | hexadecimal => exact List.forall_mem_singleton.mpr rfl
      | binary => exact List.forall_mem_singleton.mpr rfl
      | decimal => exact List.forall_mem_nil _
    exact Bool.eq_false_iff.mp (hall c hsuffix) hblank

/-- A numeral begins with a digit. -/
theorem Spells.exists_cons (h : Spells radix digits text) :
    ∃ c rest, text = c :: rest ∧ c ∉ ['-', '\''] := by
  obtain ⟨d, more, rfl⟩ := List.exists_cons_of_ne_nil h.nonempty
  obtain ⟨c, rest, rfl, hc, _⟩ := List.map_eq_cons_iff.mp h.raised
  obtain ⟨_, hmark, _⟩ := hexDigit_solid (Radix.lt_sixteen (h.small d List.mem_cons_self))
  refine ⟨c, rest, rfl, ?_⟩
  intro hmem
  have hsame : ∀ c ∈ ['-', '\''], c.toUpper = c :=
    List.forall_mem_cons.mpr ⟨rfl, List.forall_mem_singleton.mpr rfl⟩
  rw [← hc, hsame c hmem] at hmark
  exact hmark hmem

theorem Spells.startsSolid (h : Spells radix digits text) (hsign : Sign sign b) :
    StartsSolid (sign ++ text) := by
  intro c hc
  cases hsign with
  | none => exact h.solid c (List.mem_of_mem_head? hc)
  | plus =>
    obtain rfl := Option.some.inj hc
    rfl
  | minus =>
    obtain rfl := Option.some.inj hc
    rfl

theorem readTrimmed_minus (rest : List Char) :
    readTrimmed ('-' :: rest) = readBased (Text.trimStart rest) >>= negate := rfl

/-- The range and the negation each leave out one end. -/
theorem negate_of_inRange (z : Int) :
    (if InRange z then Except.ok z else .error .doesNotFit) >>= negate =
      if InRange z ∧ -z ≤ greatest then .ok (-z) else .error .doesNotFit := by
  by_cases hrange : InRange z
  · rw [if_pos hrange]
    change (if -z ≤ greatest then _ else _) = _
    simp only [hrange, true_and]
  · rw [if_neg hrange, if_neg (fun h => hrange h.1)]
    rfl

theorem Sign.eq_or_eq (h : Sign sign b) : b = 1 ∨ b = -1 := by
  cases h with
  | none => exact .inl rfl
  | plus => exact .inl rfl
  | minus => exact .inr rfl

/-- **Behind a minus the magnitude alone has to fit**, whichever sign it has itself: what is read is
its value with that sign, and the minus is put to it afterwards. -/
theorem readTrimmed_minus_of_spells (hgap : IsBlanks gap) (hsign : Sign sign b)
    (h : Spells radix digits text) :
    readTrimmed ('-' :: (gap ++ (sign ++ text))) =
      if radix.number digits ≤ greatest then .ok (-(b * radix.number digits))
      else .error .doesNotFit := by
  rw [readTrimmed_minus, Text.trimStart_append hgap, Text.trimStart_eq_self (h.startsSolid hsign),
    readBased_of_spells hsign h, negate_of_inRange]
  refine if_congr ?_ rfl rfl
  rcases hsign.eq_or_eq with rfl | rfl
  · unfold InRange least
    omega
  · unfold InRange least
    omega

theorem readTrimmed_of_spells (h : Spells radix digits text) :
    readTrimmed text =
      if radix.number digits ≤ greatest then .ok (radix.number digits : Int)
      else .error .doesNotFit := by
  obtain ⟨c, rest, rfl, hc⟩ := h.exists_cons
  have hread := readBased_of_spells .none h
  rw [List.nil_append, Int.one_mul] at hread
  rw [readTrimmed_cons hc, hread]
  exact if_congr inRange_natCast rfl rfl

theorem readTrimmed_plus_of_spells (h : Spells radix digits text) :
    readTrimmed ('+' :: text) =
      if radix.number digits ≤ greatest then .ok (radix.number digits : Int)
      else .error .doesNotFit := by
  have hread := readBased_of_spells .plus h
  rw [Int.one_mul] at hread
  rw [readTrimmed_cons (by decide)]
  exact hread.trans (if_congr inRange_natCast rfl rfl)

theorem readTrimmed_of_denotes (h : Denotes text v) : readTrimmed text = .ok v := by
  cases h with
  | character c => rfl
  | number hlead hsign hspells hfits =>
    cases hlead with
    | minus hgap =>
      rw [List.cons_append, readTrimmed_minus_of_spells hgap hsign hspells, if_pos hfits,
        Int.neg_mul, Int.one_mul]
    | none =>
      rw [List.nil_append, Int.one_mul]
      cases hsign with
      | none =>
        rw [List.nil_append, readTrimmed_of_spells hspells, if_pos hfits, Int.one_mul]
      | plus =>
        rw [List.cons_append, List.nil_append, readTrimmed_plus_of_spells hspells, if_pos hfits,
          Int.one_mul]
      | minus =>
        have hnone : IsBlanks [] := List.forall_mem_nil _
        have hread := readTrimmed_minus_of_spells hnone .none hspells
        rw [List.nil_append, List.nil_append, if_pos hfits, Int.one_mul] at hread
        rw [List.cons_append, List.nil_append, hread, Int.neg_mul, Int.one_mul]

theorem denotes_of_readTrimmed (h : readTrimmed text = .ok v) : Denotes text v := by
  unfold readTrimmed at h
  split at h
  · next c hquoted =>
    obtain rfl := Except.ok.inj h
    unfold quoted? at hquoted
    split at hquoted
    · rw [eq_append_of_dropSuffix? hquoted]
      exact .character c
    · exact nomatch hquoted
  · exact nomatch h
  · split at h
    · next rest _ =>
      obtain ⟨z, hread, _⟩ := bind_ok_iff.mp h
      obtain ⟨gap, hrest, hgap⟩ := Text.exists_trimStart rest
      obtain ⟨sign, b, radix, digits, numeral, htext, hsign, hspells, _, _⟩ := readBased_ok hread
      have hvalue := readTrimmed_minus_of_spells hgap hsign hspells
      rw [← htext, ← hrest, readTrimmed_minus, h] at hvalue
      split at hvalue
      · next hfits =>
        have hdenotes := Denotes.number (.minus hgap) hsign hspells hfits
        rw [Int.neg_mul, Int.one_mul, List.cons_append, ← htext, ← hrest] at hdenotes
        rwa [Except.ok.inj hvalue]
      · exact nomatch hvalue
    · next hminus =>
      obtain ⟨sign, b, radix, digits, numeral, rfl, hsign, hspells, rfl, hrange⟩ := readBased_ok h
      have hfits : radix.number digits ≤ greatest := by
        cases hsign with
        | none => rwa [Int.one_mul, inRange_natCast] at hrange
        | plus => rwa [Int.one_mul, inRange_natCast] at hrange
        | minus => exact absurd rfl (hminus numeral)
      have hdenotes := Denotes.number .none hsign hspells hfits
      rwa [Int.one_mul, List.nil_append] at hdenotes

/-- **What is read is a literal, and its value is what it denotes.** -/
theorem readTrimmed_ok_iff : readTrimmed text = .ok v ↔ Denotes text v :=
  ⟨denotes_of_readTrimmed, readTrimmed_of_denotes⟩

/-! ## 6. Numerals with a minus or none -/

theorem Spells.ne_nil (h : Spells radix digits text) : text ≠ [] := by
  obtain ⟨c, rest, rfl, _⟩ := h.exists_cons
  exact List.cons_ne_nil c rest

theorem Signed.solid (h : Signed radix text v) : ∀ c ∈ text, Text.isBlank c = false := by
  cases h with
  | plain h => exact h.solid
  | negative h =>
    intro c hc
    rcases List.mem_cons.mp hc with rfl | hc
    · rfl
    · exact h.solid c hc

theorem Signed.ne_nil (h : Signed radix text v) : text ≠ [] := by
  cases h with
  | plain h => exact h.ne_nil
  | negative h => exact List.cons_ne_nil _ _

/-- Blanks around a text that has none in it are all that is taken off. -/
theorem trim_of_solid {before after : List Char} (hbefore : IsBlanks before)
    (hafter : IsBlanks after) (hne : text ≠ []) (hsolid : ∀ c ∈ text, Text.isBlank c = false) :
    Text.trim (before ++ (text ++ after)) = text := by
  have hfirst : StartsSolid (text ++ after) := by
    intro c hc
    rw [List.head?_append_of_ne_nil text hne] at hc
    exact hsolid c (List.mem_of_mem_head? hc)
  have hlast : EndsSolid text := by
    intro c hc
    exact hsolid c (List.mem_of_getLast? hc)
  rw [Text.trim, Text.trimStart_append hbefore, Text.trimStart_eq_self hfirst,
    Text.trimEnd_append hafter, Text.trimEnd_eq_self hlast]

/-- The magnitude decides, on both sides of zero. -/
theorem readTrimmed_of_signed (h : Signed radix text v) :
    readTrimmed text = if v.natAbs ≤ greatest then .ok v else .error .doesNotFit := by
  cases h with
  | plain h => exact readTrimmed_of_spells h
  | negative h =>
    have hnone : IsBlanks [] := List.forall_mem_nil _
    have hread := readTrimmed_minus_of_spells hnone .none h
    rw [List.nil_append, List.nil_append, Int.one_mul] at hread
    rw [hread, Int.natAbs_neg]
    rfl

theorem parse_of_signed {before after : List Char} (h : Signed radix text v)
    (hbefore : IsBlanks before) (hafter : IsBlanks after) :
    parse (String.ofList (before ++ (text ++ after))) =
      if v.natAbs ≤ greatest then .ok v else .error .doesNotFit := by
  rw [parse, String.toList_ofList, read, trim_of_solid hbefore hafter h.ne_nil h.solid,
    readTrimmed_of_signed h]

/-- Every number has a numeral in every radix. A zero in front does no harm, and it is the one
digit of zero. -/
theorem exists_spells (radix : Radix) (n : Nat) :
    ∃ digits text, Spells radix digits text ∧ radix.number digits = n := by
  have hsmall : ∀ d ∈ 0 :: (Nat.digits radix.base n).reverse, d < radix.base := by
    intro d hd
    rcases List.mem_cons.mp hd with rfl | hd
    · exact radix.base_pos
    · exact Nat.digits_lt_base radix.one_lt_base (List.mem_reverse.mp hd)
  generalize hdigits : 0 :: (Nat.digits radix.base n).reverse = digits at hsmall
  have hsuffix : Text.upper radix.suffix = radix.suffix := by
    cases radix <;> rfl
  have hupper : Text.upper (digits.map hexDigit) = digits.map hexDigit := by
    rw [Text.upper, List.map_map]
    refine List.map_congr_left fun d hd => ?_
    exact (hexDigit_solid (Radix.lt_sixteen (hsmall d hd))).2.2.1
  refine ⟨digits, digits.map hexDigit ++ radix.suffix, ⟨?_, hsmall, ?_⟩, ?_⟩
  · rw [← hdigits]
    exact List.cons_ne_nil 0 _
  · rw [upper_append, hupper, hsuffix]
  · rw [← hdigits, Radix.number, List.reverse_cons, List.reverse_reverse, Nat.ofDigits_append,
      Nat.ofDigits_digits, Nat.ofDigits_singleton, Nat.mul_zero, Nat.add_zero]

theorem exists_signed (radix : Radix) (v : Int) : ∃ text, Signed radix text v := by
  obtain ⟨digits, text, h, hnumber⟩ := exists_spells radix v.natAbs
  rcases Int.natAbs_eq v with hv | hv
  · refine ⟨text, ?_⟩
    rw [hv, ← hnumber]
    exact .plain h
  · refine ⟨'-' :: text, ?_⟩
    rw [hv, ← hnumber]
    exact .negative h

/-- The least magnitude that is refused. -/
theorem spells_past_greatest : Spells .decimal
    [9, 2, 2, 3, 3, 7, 2, 0, 3, 6, 8, 5, 4, 7, 7, 5, 8, 0, 8] "9223372036854775808".toList :=
  ⟨by decide, by decide, by decide⟩

end

/-! ## 7. Literals are exact -/

/-- **A numeral is read exactly or refused, and nothing but literals is read.** -/
theorem reads_exactly :
    (∀ (radix : Radix) (text before after : List Char) (v : Int), Signed radix text v →
      IsBlanks before → IsBlanks after →
      parse (String.ofList (before ++ (text ++ after))) =
        if v.natAbs ≤ greatest then .ok v else .error .doesNotFit) ∧
    ∀ (text : String) (v : Int), parse text = .ok v ↔ Denotes (Text.trim text.toList) v :=
  ⟨fun _ _ _ _ _ h hbefore hafter => parse_of_signed h hbefore hafter,
    fun _ _ => readTrimmed_ok_iff⟩

/-- Blanks, zeros in front and letters of both cases; and a magnitude one past the greatest. -/
theorem reads_exactly_at_both_ends :
    parse (String.ofList (['\t'] ++ ("-00fFh".toList ++ [' ']))) = .ok (-255) ∧
      parse (String.ofList ([] ++ ("9223372036854775808".toList ++ []))) = .error .doesNotFit ∧
      Denotes (Text.trim "- -10".toList) 10 := by
  have hdigits : Spells .hexadecimal [0, 0, 15, 15] "00fFh".toList :=
    ⟨by decide, by decide, by decide⟩
  have hminus : Signed .hexadecimal "-00fFh".toList (-255) := .negative hdigits
  have hgreat : Signed .decimal "9223372036854775808".toList 9223372036854775808 :=
    .plain spells_past_greatest
  have htab : IsBlanks ['\t'] := List.forall_mem_singleton.mpr rfl
  have hspace : IsBlanks [' '] := List.forall_mem_singleton.mpr rfl
  have hnone : IsBlanks [] := List.forall_mem_nil _
  refine ⟨?_, ?_, ?_⟩
  · exact reads_exactly.1 .hexadecimal _ _ _ _ hminus htab hspace
  · exact reads_exactly.1 .decimal _ _ _ _ hgreat hnone hnone
  · exact (reads_exactly.2 "- -10" 10).mp (by decide)

/-! ## 8. The range that the help promises -/

/-- **Of the promised range the least value alone is refused**: it fits, but its magnitude does
not. Every other value of the range is read in every radix, and what is outside is refused. -/
theorem does_not_fit_iff (radix : Radix) (v : Int) :
    LiteralError.doesNotFit.help =
        "literals must be within [" ++ toString least ++ ", " ++ toString greatest ++ "]" ∧
      (∃ text, Signed radix text v) ∧
      ∀ text before after : List Char, Signed radix text v → IsBlanks before → IsBlanks after →
        (parse (String.ofList (before ++ (text ++ after))) = .error .doesNotFit ↔
          ¬ InRange v ∨ v = least) ∧
        (InRange v → v ≠ least → parse (String.ofList (before ++ (text ++ after))) = .ok v) := by
  refine ⟨by decide, exists_signed radix v, ?_⟩
  intro text before after h hbefore hafter
  have hmagnitude : v.natAbs ≤ greatest ↔ InRange v ∧ v ≠ least := by
    unfold InRange least
    omega
  rw [parse_of_signed h hbefore hafter]
  by_cases hfits : v.natAbs ≤ greatest
  · rw [if_pos hfits]
    obtain ⟨hrange, hleast⟩ := hmagnitude.mp hfits
    refine ⟨⟨nofun, ?_⟩, fun _ _ => rfl⟩
    intro hout
    rcases hout with hout | hout
    · exact absurd hrange hout
    · exact absurd hout hleast
  · rw [if_neg hfits]
    have hout : ¬ InRange v ∨ v = least :=
      (not_and_or.mp (mt hmagnitude.mpr hfits)).imp_right Decidable.not_not.mp
    refine ⟨⟨fun _ => hout, fun _ => rfl⟩, ?_⟩
    intro hrange hleast
    exact absurd (hmagnitude.mpr ⟨hrange, hleast⟩) hfits

theorem next_to_least_is_read :
    parse (String.ofList ([] ++ ("-7FFFFFFFFFFFFFFFH".toList ++ []))) = .ok (least + 1) := by
  have hdigits : Spells .hexadecimal (7 :: List.replicate 15 15) "7FFFFFFFFFFFFFFFH".toList :=
    ⟨by decide, by decide, by decide⟩
  have h : Signed .hexadecimal "-7FFFFFFFFFFFFFFFH".toList (least + 1) := .negative hdigits
  have hnone : IsBlanks [] := List.forall_mem_nil _
  obtain ⟨_, _, hread⟩ := does_not_fit_iff .hexadecimal (least + 1)
  exact (hread _ _ _ h hnone hnone).2 (by decide) (by decide)

/-- The least value is in the range, and is refused. -/
theorem least_is_refused :
    InRange least ∧ Signed .decimal "-9223372036854775808".toList least ∧
      parse "-9223372036854775808" = .error .doesNotFit :=
  ⟨by decide, .negative spells_past_greatest, by decide⟩

end Mcs51.Literal
