import Mcs51.Proofs.CanonicalText
import Mcs51.Proofs.LiteralColon
import Mcs51.Proofs.PlainTokens

/-!
# Operands and their texts

An operand is shown in one way and can be written in many. `Written` says that a text is one of
them, by the tokens that it is made of and by the character behind it, and the main result is that
an operand that is written somehow is also written as it is shown (`Written.exists_rewrites`).

The kinds fall in three groups. A value and an expression keep their text, but a value loses the
blanks at its ends, and with them some characters that make no token. A complement of a number is
shown by the bit with this address. Everything else is shown by a text of its own. In each case the
line that the operand is on has no more to object to than before.
-/

namespace Mcs51
namespace Operand

open Token (Lexes Stops IsWord IsNumber IsPlain Plainer OpensPlainly Milder IsTight GoesOn inIdent)
open Token (isGap isPlain_of_ne_colon opensPlainly_of_mark opensPlainly_word)
open Text (isBlank EndsSolid InLine)

variable {next : Option Char} {text mid : List Char} {tokens : List (Option Token)}
  {ts : List Token} {op : Operand} {name : String}

/-! ## 1. Reading from tokens -/

/-- What `ofLexemes` reads, which does not depend on where the lexemes stand. -/
def readTokens (tokens : List (Option Token)) (text : List Char) : Except ReadFailure Operand :=
  match tokens.mapM id with
  | some tokens => ofTokens tokens text
  | none => ofRawText text

theorem ofLexemes_eq (ls : List Lexeme) (text : List Char) :
    ofLexemes ls text = readTokens (ls.map (·.token)) text := by
  unfold ofLexemes readTokens
  rw [List.mapM_map]
  rfl

theorem mapM_id_map_some (ts : List Token) : (ts.map some).mapM id = some ts := by
  induction ts with
  | nil => rfl
  | cons t ts ih => simp [ih]

theorem readTokens_map_some (ts : List Token) (text : List Char) :
    readTokens (ts.map some) text = ofTokens ts text := by
  rw [readTokens, mapM_id_map_some]

theorem map_some_or_mapM_eq_none (tokens : List (Option Token)) :
    (∃ ts : List Token, tokens = ts.map some) ∨ tokens.mapM id = none := by
  induction tokens with
  | nil => exact .inl ⟨[], rfl⟩
  | cons t tokens ih =>
    cases t with
    | none => exact .inr rfl
    | some t =>
      rcases ih with ⟨ts, rfl⟩ | hnone
      · exact .inl ⟨t :: ts, rfl⟩
      · exact .inr (by simp [hnone])

theorem ofTokens_hash (ts : List Token) (value : List Char) :
    ofTokens (.hash :: ts) ('#' :: value) = .ok (.immediate (String.ofList (Text.trim value))) := by
  have hdrop : Text.dropBytes? 1 ('#' :: value) = some value := Text.dropBytes?_append ['#'] value
  rw [ofTokens, hdrop]
  rfl

/-- A value is read in the same way whether its characters make tokens or not. -/
theorem readTokens_hash (tokens : List (Option Token)) (value : List Char) :
    readTokens (some .hash :: tokens) ('#' :: value) =
      .ok (.immediate (String.ofList (Text.trim value))) := by
  rcases map_some_or_mapM_eq_none tokens with ⟨ts, rfl⟩ | hnone
  · exact (readTokens_map_some (.hash :: ts) _).trans (ofTokens_hash ts value)
  · have hall : (some Token.hash :: tokens).mapM id = none := by simp [hnone]
    rw [readTokens, hall]
    rfl

/-! ## 2. Operands as they are written -/

/-- A text is an operand, where `next` comes behind it. -/
structure Written (next : Option Char) (text : List Char) (tokens : List (Option Token))
    (op : Operand) : Prop where
  lexes : Lexes next text tokens
  tight : IsTight text
  ends : GoesOn next ∨ EndsSolid text
  unsplit : some .comma ∉ tokens
  inLine : InLine text
  reads : readTokens tokens text = .ok op

/-- An operand with some tokens is also written as it is shown, and then it has others. -/
structure Rewrites (next : Option Char) (op : Operand) (tokens tokens' : List (Option Token)) :
    Prop where
  written : Written next op.render.toList tokens' op
  milder : Milder tokens' tokens

theorem isGap_eq_false_of_not_isBlank {c : Char} (h : isBlank c = false) : isGap c = false := by
  rw [Bool.eq_false_iff] at h ⊢
  exact mt Token.isBlank_of_isGap h

theorem ne_newline_of_not_isBlank {c : Char} (h : isBlank c = false) : c ≠ '\n' := by
  rintro rfl
  exact nomatch h

theorem Canonical.rewrites (h : Canonical op.render ts op) (hstops : Stops inIdent next)
    (hplain : ∀ t ∈ tokens, IsPlain t)
    (hopens : OpensPlainly tokens → OpensPlainly (ts.map some)) :
    Rewrites next op tokens (ts.map some) := by
  obtain ⟨first, rest, htext⟩ := List.exists_cons_of_ne_nil h.nonempty
  have hlast := List.getLast?_eq_some_getLast h.nonempty
  have hsolid : ∀ c ∈ op.render.toList, isGap c = false :=
    fun c hc => isGap_eq_false_of_not_isBlank (h.solid c hc).1
  refine ⟨⟨h.lexes next hstops, ⟨⟨first, ?_, ?_⟩, ⟨_, hlast, ?_⟩⟩, .inr ?_, ?_, ?_, ?_⟩,
    ⟨?_, hopens⟩⟩
  · rw [htext]
    rfl
  · exact hsolid first (htext ▸ List.mem_cons_self)
  · exact hsolid _ (List.getLast_mem _)
  · intro c hc
    exact (h.solid c (List.mem_of_getLast? hc)).1
  · intro hmem
    obtain ⟨t, ht, hcomma⟩ := List.mem_map.mp hmem
    exact (h.plain t ht).1 (Option.some.inj hcomma)
  · intro c hc
    exact ⟨ne_newline_of_not_isBlank (h.solid c hc).1, (h.solid c hc).2⟩
  · rw [readTokens_map_some]
    exact h.reads
  · refine Plainer.of_plain ?_ hplain
    intro t ht
    obtain ⟨t, hmem, rfl⟩ := List.mem_map.mp ht
    exact ⟨nofun, fun hcolon => (h.plain t hmem).2 (Option.some.inj hcolon)⟩

/-- An expression is shown as it is written. -/
theorem Written.rewrites_self
    (h : Written next text tokens (.direct (.expr (String.ofList text)))) :
    Rewrites next (.direct (.expr (String.ofList text))) tokens tokens := by
  have hrender : (Operand.direct (.expr (String.ofList text))).render.toList = text :=
    String.toList_ofList
  refine ⟨?_, .refl tokens⟩
  rw [hrender]
  exact h

theorem endsSolid_value (mid : List Char) : EndsSolid ('#' :: Text.trim mid) := by
  intro c h
  rw [List.getLast?_cons] at h
  cases htrim : (Text.trim mid).getLast? with
  | none =>
    rw [htrim] at h
    obtain rfl := Option.some.inj h
    rfl
  | some d =>
    rw [htrim] at h
    obtain rfl := Option.some.inj h
    exact Text.endsSolid_trim mid d htrim

/-- A value is shown without the blanks at its ends. -/
theorem Written.exists_rewrites_value (h : Written next ('#' :: mid) tokens op)
    (hstops : Stops inIdent next) : ∃ tokens', Rewrites next op tokens tokens' := by
  obtain ⟨us, rfl, hmid⟩ := h.lexes.exists_of_cons_mark rfl
  obtain rfl := Except.ok.inj ((readTokens_hash us mid).symm.trans h.reads)
  have hline : '\n' ∉ mid := by
    intro hmem
    exact (h.inLine '\n' (.tail _ hmem)).1 rfl
  have hend : GoesOn next ∨ EndsSolid mid := by
    refine h.ends.imp_right fun hlast c hc => hlast c ?_
    rw [List.getLast?_cons, hc]
    rfl
  obtain ⟨front, kept, back, rfl, hfront, hback, hkept⟩ := hmid.trim hstops hline hend
  have hrender : (Operand.immediate (String.ofList (Text.trim mid))).render.toList =
      '#' :: Text.trim mid := by
    simp [Operand.render]
  have hlast := List.getLast?_eq_some_getLast (List.cons_ne_nil '#' (Text.trim mid))
  refine ⟨some .hash :: kept, ?_, ?_, fun _ => ?_⟩
  · rw [hrender]
    refine ⟨hkept.mark rfl, ⟨⟨'#', rfl, rfl⟩, ⟨_, hlast, ?_⟩⟩, .inr (endsSolid_value mid), ?_, ?_,
      ?_⟩
    · exact isGap_eq_false_of_not_isBlank (endsSolid_value mid _ hlast)
    · intro hmem
      refine h.unsplit ?_
      simp only [List.mem_cons, List.mem_append] at hmem ⊢
      exact hmem.imp_right fun hmem => .inr (.inl hmem)
    · rintro c (_ | ⟨_, hc⟩)
      · decide
      · exact h.inLine c (.tail _ (Text.mem_of_mem_trim hc))
    · rw [readTokens_hash, Text.trim_trim]
  · have hkept_plainer : Plainer ([] ++ (kept ++ [])) (front ++ (kept ++ back)) :=
      (Plainer.of_none hfront).append ((Plainer.refl kept).append (.of_none hback))
    rw [List.nil_append, List.append_nil] at hkept_plainer
    exact .keep _ hkept_plainer
  · exact opensPlainly_of_mark rfl (by decide) kept

/-- A complement is that of a bit, or of a number, or an expression with its mark. -/
theorem complement_cases (text : List Char) (inner : Operand) :
    (∃ b, inner = .bit b ∧ complement text inner = .notBit b) ∨
      (∃ e n, inner = .direct (.expr e) ∧ Literal.parse e = .ok n ∧
        complement text inner = .notBit (.named (BitVec.ofInt 8 n))) ∨
      complement text inner = .direct (.expr (String.ofList text)) := by
  unfold complement
  split
  · next b => exact .inl ⟨b, rfl, rfl⟩
  · next e =>
    split
    · next n hn => exact .inr (.inl ⟨e, n, rfl, hn, rfl⟩)
    · exact .inr (.inr rfl)
  · exact .inr (.inr rfl)

/-- What is read as a bit is a word or a place in a byte. -/
theorem exists_canonical_of_bit {b : BitRef} (hlexes : Lexes next text (ts.map some))
    {rest : List Char} (h : ofTokens ts rest = .ok (.bit b)) :
    .colon ∉ ts ∧ ∃ us, Canonical b.render us (.bit b) := by
  unfold ofTokens at h
  split at h
  · obtain ⟨_, _, h⟩ := bind_ok_iff.mp h
    cases h
  · split at h <;> cases h
  · cases h
  · obtain ⟨_, _, h⟩ := bind_ok_iff.mp h
    obtain ⟨inner, _, h⟩ := bind_ok_iff.mp h
    have hbit := Except.ok.inj h
    rcases complement_cases rest inner with ⟨_, _, hc⟩ | ⟨_, _, _, _, hc⟩ | hc <;>
      cases hc.symm.trans hbit
  · next name =>
    obtain h := Except.ok.inj h
    have hword : IsWord name := hlexes.isWord (by simp)
    have hcanonical := canonical_ofWord hword
    rw [h] at hcanonical
    exact ⟨by simp, _, hcanonical⟩
  · obtain rfl := Operand.bit.inj (Except.ok.inj h)
    exact ⟨by simp, _, canonical_field_word (hlexes.isWord (by simp)) _⟩
  · obtain rfl := Operand.bit.inj (Except.ok.inj h)
    exact ⟨by simp, _, canonical_field_number (hlexes.isNumber (by simp)) _⟩
  · cases h

/-- A word that is read as an expression is kept as it is. -/
theorem eq_of_ofWord_eq_expr {e : String} (h : ofWord name = .direct (.expr e)) : e = name := by
  unfold ofWord directOf at h
  split at h
  · exact nomatch h
  dsimp only at h
  split at h
  · exact nomatch h
  split at h
  · exact nomatch h
  split at h
  · exact nomatch h
  split at h
  · exact nomatch h
  split at h
  · exact nomatch h
  · exact (ByteRef.expr.inj (Operand.direct.inj h)).symm

/-- What is read as an expression is a word or all of its text. -/
theorem of_expr {e : String} {rest : List Char} (h : ofTokens ts rest = .ok (.direct (.expr e))) :
    ts = [.ident e] ∨ e = String.ofList rest := by
  unfold ofTokens at h
  split at h
  · obtain ⟨_, _, h⟩ := bind_ok_iff.mp h
    cases h
  · split at h <;> cases h
  · cases h
  · obtain ⟨_, _, h⟩ := bind_ok_iff.mp h
    obtain ⟨inner, _, h⟩ := bind_ok_iff.mp h
    have hexpr := Except.ok.inj h
    rcases complement_cases rest inner with ⟨_, _, hc⟩ | ⟨_, _, _, _, hc⟩ | hc
    · cases hc.symm.trans hexpr
    · cases hc.symm.trans hexpr
    · obtain h := Operand.direct.inj (hc.symm.trans hexpr)
      exact .inr (ByteRef.expr.inj h).symm
  · obtain rfl := eq_of_ofWord_eq_expr (Except.ok.inj h)
    exact .inl rfl
  · cases h
  · cases h
  · obtain h := Operand.direct.inj (Except.ok.inj h)
    exact .inr (ByteRef.expr.inj h).symm

/-- A complement is shown by its mark and the bit, or as it is written. -/
theorem Written.exists_rewrites_complement {inner : Operand}
    (h : Written next ('/' :: mid) (some .slash :: ts.map some) (complement ('/' :: mid) inner))
    (hstops : Stops inIdent next) (hinner : ofTokens ts (Text.trimStart mid) = .ok inner) :
    ∃ tokens',
      Rewrites next (complement ('/' :: mid) inner) (some .slash :: ts.map some) tokens' := by
  obtain ⟨_, ⟨rfl⟩, hmid⟩ := h.lexes.exists_of_cons_mark rfl
  have hplain : .colon ∉ ts → ∀ t ∈ some Token.slash :: ts.map some, IsPlain t := by
    intro hcolon
    have hall : .colon ∉ Token.slash :: ts := by simp [hcolon]
    exact isPlain_of_ne_colon hall
  have hopens : ∀ us : List Token, OpensPlainly ((Token.slash :: us).map some) := by
    intro us
    exact opensPlainly_of_mark rfl (by decide) (us.map some)
  rcases complement_cases ('/' :: mid) inner with ⟨b, rfl, hop⟩ | ⟨e, n, rfl, hn, hop⟩ | hop
  · obtain ⟨hcolon, us, hcanonical⟩ := exists_canonical_of_bit hmid hinner
    rw [hop]
    have hslash : Canonical (Operand.notBit b).render (.slash :: us) (.notBit b) :=
      hcanonical.slash rfl
    exact ⟨_, hslash.rewrites hstops (hplain hcolon) fun _ => hopens us⟩
  · have hcolon : .colon ∉ ts := by
      rcases of_expr hinner with rfl | rfl
      · simp
      · rw [Literal.parse, String.toList_ofList] at hn
        have hliteral := hmid.trimStart_of_tokens
        exact hliteral.not_mem_colon_of_literal (Text.startsSolid_trimStart mid) hn
    obtain ⟨us, hcanonical⟩ := canonical_notBit (BitVec.ofInt 8 n)
    rw [hop]
    exact ⟨_, hcanonical.rewrites hstops (hplain hcolon) fun _ => hopens us⟩
  · rw [hop] at h ⊢
    exact ⟨_, h.rewrites_self⟩

theorem upperString_shownWord_equ (h : Text.upperString (shownWord name) = "EQU") :
    Text.upperString name = "EQU" := by
  by_cases hmem : Text.upperString name ∈ reservedWords
  · by_cases hcy : Text.upperString name = "CY"
    · rw [shownWord, if_pos hcy] at h
      exact absurd h (by decide)
    · rwa [shownWord_of_upperString rfl hmem hcy, upperString_of_mem_reservedWords _ hmem] at h
  · rwa [shownWord_of_not_mem hmem] at h

theorem lt_two_of_pointer? {r : Register} (h : pointer? name = some r) : r.val < 2 := by
  unfold pointer? at h
  split at h
  · split at h
    · next hlt =>
      obtain rfl := Option.some.inj h
      exact hlt
    · exact nomatch h
  · exact nomatch h

/-- **An operand that is written is also written as it is shown**, and what it is made of then adds
    nothing that a line could take for a label, a constant or a fault. -/
theorem Written.exists_rewrites (h : Written next text tokens op) (hstops : Stops inIdent next) :
    ∃ tokens', Rewrites next op tokens tokens' := by
  have hreads := h.reads
  rcases map_some_or_mapM_eq_none tokens with ⟨ts, rfl⟩ | hnone
  · rw [readTokens_map_some] at hreads
    unfold ofTokens at hreads
    split at hreads
    · have hmark : Token.ofMark? '#' = some .hash := rfl
      obtain ⟨mid, rfl, _⟩ := h.lexes.exists_of_mark hmark rfl h.tight.first
      exact h.exists_rewrites_value hstops
    · next name =>
      split at hreads
      · next r hr =>
        obtain rfl := Except.ok.inj hreads
        have hcanonical := canonical_indirect (lt_two_of_pointer? hr)
        refine ⟨_, hcanonical.rewrites hstops (isPlain_of_ne_colon (by simp)) fun _ => ?_⟩
        exact opensPlainly_of_mark rfl (by decide) _
      · cases hreads
    · cases hreads
    · have hmark : Token.ofMark? '/' = some .slash := rfl
      obtain ⟨mid, rfl, _⟩ := h.lexes.exists_of_mark hmark rfl h.tight.first
      obtain ⟨rest, hrest, hreads⟩ := bind_ok_iff.mp hreads
      obtain ⟨inner, hinner, hreads⟩ := bind_ok_iff.mp hreads
      obtain rfl := Except.ok.inj hreads
      obtain rfl : mid = rest := by
        rw [show Text.dropBytes? 1 ('/' :: mid) = some mid from Text.dropBytes?_append ['/'] mid]
          at hrest
        exact Except.ok.inj hrest
      exact h.exists_rewrites_complement hstops hinner
    · next name =>
      obtain rfl := Except.ok.inj hreads
      have hword : IsWord name := h.lexes.isWord (by simp)
      refine ⟨_, (canonical_ofWord hword).rewrites hstops (isPlain_of_ne_colon (by simp)) ?_⟩
      exact opensPlainly_word upperString_shownWord_equ
    · next base digits =>
      obtain rfl := Except.ok.inj hreads
      have hword : IsWord base := h.lexes.isWord (by simp)
      refine ⟨_, (canonical_field_word hword (bitIndex digits)).rewrites hstops
        (isPlain_of_ne_colon (by simp)) ?_⟩
      exact opensPlainly_word (directOf_render hword).2.2
    · next base digits =>
      obtain rfl := Except.ok.inj hreads
      have hnumber : IsNumber base := h.lexes.isNumber (by simp)
      refine ⟨_, (canonical_field_number hnumber (bitIndex digits)).rewrites hstops
        (isPlain_of_ne_colon (by simp)) ?_⟩
      rintro _ _ ⟨rfl⟩
      simp
    · obtain rfl := Except.ok.inj hreads
      exact ⟨_, h.rewrites_self⟩
  · rw [readTokens, hnone] at hreads
    unfold ofRawText at hreads
    dsimp only at hreads
    split at hreads
    · exact h.exists_rewrites_value hstops
    · cases hreads
    · obtain rfl := Except.ok.inj hreads
      exact ⟨_, h.rewrites_self⟩

end Operand
end Mcs51
