import Mcs51.Proofs.Lexing

/-!
# What a line asks of the tokens of its operands

Before it comes to its operands, a line is looked over three times: for characters that make no
token and stand before a colon, for a constant, and for a label. The first asks only for colons and
for such characters, so it finds no more with fewer of these and with any other tokens in their
place (`Plainer`). The other two ask only for the token behind the first word (`OpensPlainly`).
Tokens that give none of the three more to find are `Milder`.
-/

namespace Mcs51
namespace Token

variable {ts us ts' us' : List (Option Token)} {t : Option Token}

/-! ## 1. Characters that make no token -/

/-- A token that decides nothing about where a label ends or whether it is broken. -/
def IsPlain (t : Option Token) : Prop := t ≠ none ∧ t ≠ some .colon

/-- The first tokens come from the second by leaving out characters that make no token, and by
exchanging plain tokens. -/
inductive Plainer : List (Option Token) → List (Option Token) → Prop
  | nil : Plainer [] []
  | keep (t : Option Token) {ts us : List (Option Token)} (rest : Plainer ts us) :
      Plainer (t :: ts) (t :: us)
  | leaveOut {ts us : List (Option Token)} (rest : Plainer ts us) : Plainer ts (none :: us)
  | put {t : Option Token} {ts us : List (Option Token)} (plain : IsPlain t)
      (rest : Plainer ts us) : Plainer (t :: ts) us
  | take {t : Option Token} {ts us : List (Option Token)} (plain : IsPlain t)
      (rest : Plainer ts us) : Plainer ts (t :: us)

/-- Characters that make no token stand before the first colon. -/
def Broken (tokens : List (Option Token)) : Prop :=
  some .colon ∈ tokens ∧ none ∈ tokens.takeWhile (· ≠ some .colon)

theorem Plainer.refl (ts : List (Option Token)) : Plainer ts ts := by
  induction ts with
  | nil => exact .nil
  | cons t ts ih => exact .keep t ih

theorem Plainer.append (h : Plainer ts us) (h' : Plainer ts' us') :
    Plainer (ts ++ ts') (us ++ us') := by
  induction h with
  | nil => exact h'
  | keep t rest ih => exact .keep t ih
  | leaveOut rest ih => exact .leaveOut ih
  | put plain rest ih => exact .put plain ih
  | take plain rest ih => exact .take plain ih

theorem Plainer.of_plain (hts : ∀ t ∈ ts, IsPlain t) (hus : ∀ t ∈ us, IsPlain t) :
    Plainer ts us := by
  induction ts with
  | nil =>
    induction us with
    | nil => exact .nil
    | cons t us ih =>
      exact .take (hus t List.mem_cons_self) (ih fun u hu => hus u (.tail t hu))
  | cons t ts ih =>
    exact .put (hts t List.mem_cons_self) (ih fun u hu => hts u (.tail t hu))

theorem Plainer.of_none (h : ∀ t ∈ us, t = none) : Plainer [] us := by
  induction us with
  | nil => exact .nil
  | cons t us ih =>
    obtain rfl := h t List.mem_cons_self
    exact .leaveOut (ih fun u hu => h u (.tail none hu))

theorem Plainer.colon_mem_iff (h : Plainer ts us) : some .colon ∈ ts ↔ some .colon ∈ us := by
  induction h with
  | nil => rfl
  | keep t rest ih => rw [List.mem_cons, List.mem_cons, ih]
  | leaveOut rest ih => rw [ih, List.mem_cons, or_iff_right nofun]
  | put plain rest ih => rw [← ih, List.mem_cons, or_iff_right fun h => plain.2 h.symm]
  | take plain rest ih => rw [ih, List.mem_cons, or_iff_right fun h => plain.2 h.symm]

theorem not_broken_colon : ¬ Broken (some .colon :: ts) := by
  rintro ⟨_, h⟩
  simp at h

theorem broken_none_iff : Broken (none :: ts) ↔ some .colon ∈ ts := by
  simp [Broken]

theorem broken_plain_iff (ht : IsPlain t) : Broken (t :: ts) ↔ Broken ts := by
  have hcolon := ht.2
  have hnone : none ≠ t := ht.1.symm
  simp [Broken, hcolon, hcolon.symm, hnone]

theorem Plainer.broken (h : Plainer ts us) (hb : Broken ts) : Broken us := by
  induction h with
  | nil => exact hb
  | keep t rest ih =>
    by_cases hcolon : t = some .colon
    · subst hcolon
      exact absurd hb not_broken_colon
    by_cases hnone : t = none
    · subst hnone
      rw [broken_none_iff] at hb ⊢
      exact rest.colon_mem_iff.mp hb
    · rw [broken_plain_iff ⟨hnone, hcolon⟩] at hb ⊢
      exact ih hb
  | leaveOut rest ih => exact broken_none_iff.mpr (ih hb).1
  | put plain rest ih => exact ih ((broken_plain_iff plain).mp hb)
  | take plain rest ih => exact (broken_plain_iff plain).mpr (ih hb)

theorem isPlain_ident (word : String) : IsPlain (some (.ident word)) := ⟨nofun, nofun⟩

theorem isPlain_of_ne_colon {known : List Token} (h : .colon ∉ known) :
    ∀ t ∈ known.map some, IsPlain t := by
  intro t ht
  obtain ⟨t, hmem, rfl⟩ := List.mem_map.mp ht
  refine ⟨nofun, fun hcolon => h ?_⟩
  rwa [← Option.some.inj hcolon]

/-! ## 2. The token behind the first word -/

/-- The first token makes no label and no constant of the word before it. -/
def OpensPlainly (tokens : List (Option Token)) : Prop :=
  ∀ t, tokens.head? = some t →
    t ≠ some .colon ∧ ∀ word, t = some (.ident word) → Text.upperString word ≠ "EQU"

theorem opensPlainly_of_mark {m : Token} (hm : Token.isMark m = true) (hcolon : m ≠ .colon)
    (us : List (Option Token)) : OpensPlainly (some m :: us) := by
  rintro _ ⟨rfl⟩
  refine ⟨fun h => hcolon (Option.some.inj h), ?_⟩
  intro word h
  obtain rfl := Option.some.inj h
  exact nomatch hm

theorem opensPlainly_word {name word : String}
    (h : Text.upperString word = "EQU" → Text.upperString name = "EQU")
    (hopens : OpensPlainly (some (.ident name) :: us)) :
    OpensPlainly (some (.ident word) :: ts) := by
  rintro _ ⟨rfl⟩
  refine ⟨nofun, ?_⟩
  rintro _ ⟨rfl⟩ hequ
  exact (hopens _ rfl).2 name rfl (h hequ)

/-! ## 3. Both -/

/-- A line has no more to object to with the first tokens than with the second. -/
structure Milder (ts us : List (Option Token)) : Prop where
  plainer : Plainer ts us
  plainly : OpensPlainly us → OpensPlainly ts

theorem Milder.refl (ts : List (Option Token)) : Milder ts ts :=
  ⟨.refl ts, id⟩

theorem Milder.comma (h : Milder ts us) (h' : Milder ts' us') :
    Milder (ts ++ some .comma :: ts') (us ++ some .comma :: us') := by
  refine ⟨h.plainer.append (.keep _ h'.plainer), ?_⟩
  intro hus
  have hts : OpensPlainly ts := by
    refine h.plainly fun t ht => hus t ?_
    rw [List.head?_append, ht]
    rfl
  cases ts with
  | nil => exact opensPlainly_of_mark rfl (by decide) ts'
  | cons t ts => exact hts

end Token
end Mcs51
