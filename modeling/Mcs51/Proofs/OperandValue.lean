import Mcs51.Proofs.ComplementedBit

/-!
# What an operand is worth, and its text

An operand is made when its line is read, and its number is found later, beside the symbols. A text
has a number of its own: it is looked up and read as it stands. The two are compared here, form by
form. Where a form keeps its text there is nothing to show. Where it does not, it has no number, and
its text has none either, since that has a mark in it that is in no name and in no literal
(`Symbols.resolve_of_stray`).

What is left are the reserved words. As an operand such a word is the byte with that name, or
nothing; as a text it is whatever a source has given that name.
-/

namespace Mcs51

/-! ## 1. Texts that stand for nothing -/

namespace Symbols

open Operand (Written reservedWords)
open Token (IsWord IsNumber)
open Text (EndsSolid)

variable {symbols : Symbols} {text value : List Char} {tokens : List (Option Token)}
  {op : Operand} {c d : Char}

theorem bareText_congr {e e' : String} (h : Text.trim e.toList = Text.trim e'.toList) :
    bareText e = bareText e' := by
  unfold bareText
  rw [h]

theorem resolve_congr {e e' : String} (h : bareText e = bareText e') :
    symbols.resolve e = symbols.resolve e' := by
  unfold resolve
  rw [h]

/-- The mark of a value is taken off once by the operand and once by its value, so it must not be
there twice. -/
theorem resolve_hash (hends : EndsSolid ('#' :: value))
    (honce : (bareText (String.ofList ('#' :: value))).head? ≠ some '#') :
    symbols.resolve (String.ofList (Text.trim value)) =
      symbols.resolve (String.ofList ('#' :: value)) := by
  have hbare : bareText (String.ofList ('#' :: value)) = Text.trim value := by
    rw [bareText, String.toList_ofList, Text.trim_eq_self_of_head rfl rfl hends]
    rfl
  rw [hbare] at honce
  refine resolve_congr ?_
  rw [hbare, bareText_of_head] <;> rw [String.toList_ofList, Text.trim_trim]
  exact honce

theorem valueOf_immediate (symbols : Symbols) (e : String) :
    symbols.valueOf (.immediate e) = symbols.resolve e :=
  rfl

theorem valueOf_expr (symbols : Symbols) (e : String) :
    symbols.valueOf (.direct (.expr e)) = symbols.resolve e :=
  rfl

theorem valueOf_hash (h : Written none ('#' :: value) tokens op)
    (honce : (bareText (String.ofList ('#' :: value))).head? ≠ some '#') :
    symbols.valueOf op = symbols.resolve (String.ofList ('#' :: value)) := by
  obtain ⟨us, rfl, _⟩ := h.lexes.exists_of_cons_mark rfl
  obtain rfl := Except.ok.inj ((Operand.readTokens_hash us value).symm.trans h.reads)
  rw [valueOf_immediate]
  exact resolve_hash (h.ends.resolve_left nofun) honce

/-- A text with a mark in it that neither a word nor a number has stands for nothing, wherever it
was written as an operand. -/
theorem resolve_of_written (h : Written none text tokens op) (hwords : symbols.HoldsWords)
    (hfirst : text.head? = some c) (hsolid : Text.isBlank c = false) (hc : c ∉ ['#', '\''])
    (hd : d ∈ Literal.strays) (hmem : d ∈ text) : symbols.resolve (String.ofList text) = 0 := by
  have htrim := Text.trim_eq_self_of_head hfirst hsolid (h.ends.resolve_left nofun)
  refine resolve_of_stray hwords ?_ hc hd ?_
  · rwa [String.toList_ofList, htrim]
  · rwa [String.toList_ofList, htrim]

theorem resolve_of_field (h : Written none text tokens op) (hwords : symbols.HoldsWords)
    (hfirst : text.head? = some c) (hin : Token.inIdent c = true) (hdot : some .dot ∈ tokens) :
    symbols.resolve (String.ofList text) = 0 := by
  have hmarks : ∀ d ∈ ['#', '\''], Token.inIdent d = false :=
    List.forall_mem_cons.mpr ⟨rfl, List.forall_mem_singleton.mpr rfl⟩
  have hc := Token.not_mem_of_inIdent hin hmarks
  have hmem : '.' ∈ text := h.lexes.mem_of_mark hdot rfl
  exact resolve_of_written h hwords hfirst (Token.not_isBlank_of_inIdent hin) hc (by decide) hmem

/-- A complement is worth nothing, or is kept as it is written. -/
theorem valueOf_complement (hwords : symbols.HoldsWords) (inner : Operand) :
    symbols.valueOf (Operand.complement ('/' :: value) inner) =
      symbols.resolve (String.ofList ('/' :: value)) := by
  have hzero := resolve_slash hwords value
  rcases Operand.complement_cases ('/' :: value) inner with
    ⟨b, _, hop⟩ | ⟨_, n, _, _, hop⟩ | hop
  · rw [hop, hzero]
    rfl
  · rw [hop, hzero]
    rfl
  · rw [hop]
    rfl

/-- **An operand is worth what its text is worth**, unless the text is a word with a meaning of its
own. A register or a bit that is read from more than a word has no number, and neither has its
text. -/
theorem valueOf_eq_resolve (h : Written none text tokens op) (hwords : symbols.HoldsWords)
    (hfree : Text.upperString (String.ofList text) ∉ reservedWords)
    (honce : (bareText (String.ofList text)).head? ≠ some '#') :
    symbols.valueOf op = symbols.resolve (String.ofList text) := by
  have hreads := h.reads
  rcases Operand.map_some_or_mapM_eq_none tokens with ⟨ts, rfl⟩ | hnone
  · rw [Operand.readTokens_map_some] at hreads
    unfold Operand.ofTokens at hreads
    split at hreads
    · have hmark : Token.ofMark? '#' = some .hash := rfl
      obtain ⟨value, rfl, _⟩ := h.lexes.exists_of_mark hmark rfl h.tight.first
      exact valueOf_hash h honce
    · split at hreads
      · obtain rfl := Except.ok.inj hreads
        have hmark : Token.ofMark? '@' = some .atSign := rfl
        obtain ⟨value, rfl, _⟩ := h.lexes.exists_of_mark hmark rfl h.tight.first
        have hmem : '@' ∈ '@' :: value := List.mem_cons_self
        exact (resolve_of_written h hwords rfl rfl (by decide) (by decide) hmem).symm
      · cases hreads
    · cases hreads
    · have hmark : Token.ofMark? '/' = some .slash := rfl
      obtain ⟨value, rfl, _⟩ := h.lexes.exists_of_mark hmark rfl h.tight.first
      obtain ⟨_, _, hreads⟩ := bind_ok_iff.mp hreads
      obtain ⟨inner, _, hreads⟩ := bind_ok_iff.mp hreads
      obtain rfl := Except.ok.inj hreads
      exact valueOf_complement hwords inner
    · next name =>
      obtain rfl := Except.ok.inj hreads
      have htext : text = name.toList := h.lexes.eq_render h.tight
      rw [htext, String.ofList_toList] at hfree ⊢
      rw [Operand.ofWord_of_not_mem hfree]
      exact valueOf_expr symbols name
    · next base digits =>
      obtain rfl := Except.ok.inj hreads
      obtain ⟨c, rest, hbase, hc, _⟩ : IsWord base := h.lexes.isWord (by simp)
      have hhead := h.lexes.head?_eq h.tight.first
      rw [Token.render, hbase] at hhead
      exact (resolve_of_field h hwords hhead (Token.inIdent_of_startsIdent hc) (by simp)).symm
    · next base digits =>
      obtain rfl := Except.ok.inj hreads
      obtain ⟨c, rest, hbase, hc, _⟩ : IsNumber base := h.lexes.isNumber (by simp)
      have hhead := h.lexes.head?_eq h.tight.first
      have hin := Token.inIdent_of_inNumeric (Token.inNumeric_of_startsNumeric hc)
      rw [Token.render, hbase] at hhead
      exact (resolve_of_field h hwords hhead hin (by simp)).symm
    · obtain rfl := Except.ok.inj hreads
      exact valueOf_expr symbols _
  · rw [Operand.readTokens, hnone] at hreads
    unfold Operand.ofRawText at hreads
    dsimp only at hreads
    split at hreads
    · exact valueOf_hash h honce
    · cases hreads
    · obtain rfl := Except.ok.inj hreads
      exact valueOf_expr symbols _

end Symbols

/-! ## 2. Reserved words -/

theorem Literal.readBased_congr {text text' : List Char} (h : Text.upper text = Text.upper text') :
    readBased text = readBased text' := by
  unfold readBased
  rw [h]

namespace Operand

variable {symbols : Symbols} {name : String} {op : Operand} {value : Int}

/-- The number that an operand names whatever the symbols are. -/
def fixedValue? : Operand → Option Int
  | .immediate _ | .direct (.expr _) => none
  | .direct (.sfr addr) => some addr.toNat
  | _ => some 0

theorem valueOf_of_fixedValue? (h : op.fixedValue? = some value) :
    symbols.valueOf op = value := by
  unfold fixedValue? at h
  unfold Symbols.valueOf
  split at h <;> simp_all

theorem fixedValue?_ofWord : ∀ word ∈ reservedWords, (ofWord word).fixedValue? =
    some ((Sfr.address? word).elim 0 fun addr => (addr.toNat : Int)) := by
  decide +kernel

theorem readBased_of_reserved : ∀ word ∈ reservedWords,
    (Literal.readBased word.toList).toOption = none := by
  decide +kernel

theorem valueOf_ofWord (h : Text.upperString name ∈ reservedWords) :
    symbols.valueOf (ofWord name) = (Sfr.address? name).elim 0 fun addr => (addr.toNat : Int) := by
  have hraised := upperString_of_mem_reservedWords _ h
  have haddress : Sfr.address? (Text.upperString name) = Sfr.address? name := by
    rw [Sfr.address?, Sfr.address?, hraised]
  rw [← ofWord_eq_of_reserved hraised h, ← haddress]
  exact valueOf_of_fixedValue? (fixedValue?_ofWord _ h)

theorem isWord_of_reserved (h : Text.upperString name ∈ reservedWords) : Token.IsWord name :=
  Token.isWord_upperString.mp (isWord_of_mem_reservedWords _ h)

theorem trim_word (h : Token.IsWord name) : Text.trim name.toList = name.toList := by
  have hsolid := (canonical_word h).solid
  refine Text.trim_eq_self ?_ ?_
  · exact fun c hc => (hsolid c (List.mem_of_mem_head? hc)).1
  · exact fun c hc => (hsolid c (List.mem_of_getLast? hc)).1

/-- A reserved word is no literal. -/
theorem read_of_reserved (h : Text.upperString name ∈ reservedWords) (n : Int) :
    Literal.read name.toList ≠ .ok n := by
  have hword := isWord_of_reserved h
  have hraised := congrArg String.toList (upperString_of_mem_reservedWords _ h)
  rw [Text.upperString, String.toList_ofList, Text.upperString, String.toList_ofList] at hraised
  have hbased := readBased_of_reserved _ h
  rw [Text.upperString, String.toList_ofList, Literal.readBased_congr hraised] at hbased
  rw [Literal.read, trim_word hword]
  obtain ⟨c, rest, hname, hc, _⟩ := hword
  have hmarks : ∀ d ∈ ['-', '\''], Token.inIdent d = false :=
    List.forall_mem_cons.mpr ⟨rfl, List.forall_mem_singleton.mpr rfl⟩
  have hmark := Token.not_mem_of_inIdent (Token.inIdent_of_startsIdent hc) hmarks
  rw [hname] at hbased ⊢
  rw [Literal.readTrimmed_cons hmark]
  intro hread
  rw [hread] at hbased
  cases hbased

/-- All that a reserved word can be worth as a text is a symbol. -/
theorem resolve_of_reserved (h : Text.upperString name ∈ reservedWords) :
    symbols.resolve name = (symbols.value? name).getD 0 := by
  have hword := isWord_of_reserved h
  have hmark : (Text.trim name.toList).head? ≠ some '#' := by
    rw [trim_word hword]
    obtain ⟨c, rest, hname, hc, _⟩ := hword
    rw [hname]
    rintro ⟨rfl⟩
    exact nomatch hc
  unfold Symbols.resolve
  dsimp only
  rw [Symbols.bareText_of_head hmark, trim_word hword, String.ofList_toList]
  cases symbols.value? name with
  | some value => rfl
  | none =>
    cases hread : Literal.read name.toList with
    | error _ => rfl
    | ok n => exact absurd hread (read_of_reserved h n)

end Operand

end Mcs51
