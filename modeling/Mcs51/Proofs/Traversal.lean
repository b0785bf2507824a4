import Mathlib.Data.List.Forall2

/-!
# Reading that can be refused

A reading gives a result or an error, and goes from one part of a text to the next until the first
error. What a sequence of readings comes to is told here by its parts: it succeeds with the results
of all of them (`mapM_ok_iff`), or fails as the first that fails (`mapM_error_iff`).
-/

namespace Mcs51

variable {α β ε : Type} {f : α → Except ε β} {xs : List α} {ys : List β} {e : ε}

theorem bind_ok_iff {x : Except ε α} {y : β} : x >>= f = .ok y ↔ ∃ a, x = .ok a ∧ f a = .ok y := by
  cases x <;> simp [bind, Except.bind]

theorem map_ok_iff {g : α → β} {x : Except ε α} {y : β} :
    x.map g = .ok y ↔ ∃ a, x = .ok a ∧ g a = y := by
  cases x <;> simp [Except.map]

theorem mapError_ok_iff {δ : Type} {g : ε → δ} {x : Except ε α} {a : α} :
    x.mapError g = .ok a ↔ x = .ok a := by
  cases x <;> simp [Except.mapError]

/-- All of a list is read if each member is, and to what that member is read. -/
theorem mapM_ok_iff : xs.mapM f = .ok ys ↔ List.Forall₂ (fun x y => f x = .ok y) xs ys := by
  induction xs generalizing ys with
  | nil => cases ys <;> simp [pure, Except.pure]
  | cons x xs ih =>
    rw [List.mapM_cons]
    cases hx : f x with
    | error found => cases ys <;> simp [bind, Except.bind, hx]
    | ok z =>
      cases hxs : xs.mapM f with
      | error found => cases ys <;> simp [bind, Except.bind, hx, hxs, ← ih]
      | ok zs => cases ys <;> simp [bind, Except.bind, pure, Except.pure, hx, hxs, ← ih]

theorem exists_of_mem_mapM {y : β} (h : xs.mapM f = .ok ys) (hy : y ∈ ys) :
    ∃ x ∈ xs, f x = .ok y := by
  have hall := mapM_ok_iff.mp h
  clear h
  induction hall with
  | nil => exact nomatch hy
  | @cons x z xs ys hx _ ih =>
    rcases List.mem_cons.mp hy with rfl | hy
    · exact ⟨x, List.mem_cons_self, hx⟩
    · obtain ⟨x', hx', hread⟩ := ih hy
      exact ⟨x', .tail x hx', hread⟩

/-- A list is refused for its first member that is. -/
theorem mapM_error_iff : xs.mapM f = .error e ↔
    ∃ (i : Nat) (x : α), xs[i]? = some x ∧ f x = .error e ∧
      ∀ (j : Nat) (y : α), j < i → xs[j]? = some y → ∃ z, f y = .ok z := by
  induction xs with
  | nil => simp [pure, Except.pure]
  | cons x xs ih =>
    rw [List.mapM_cons]
    cases hx : f x with
    | error found =>
      have hstop : (do let y ← Except.error found; let ys ← xs.mapM f; pure (y :: ys)) = .error e ↔
          found = e := by
        simp [bind, Except.bind]
      rw [hstop]
      constructor
      · rintro rfl
        exact ⟨0, x, rfl, hx, nofun⟩
      · rintro ⟨i, y, hy, he, hfirst⟩
        cases i with
        | zero =>
          obtain rfl := Option.some.inj hy
          exact Except.error.inj (hx.symm.trans he)
        | succ i =>
          obtain ⟨z, hz⟩ := hfirst 0 x i.succ_pos rfl
          exact nomatch hx.symm.trans hz
    | ok z =>
      have hrest : (do let y ← Except.ok z; let ys ← xs.mapM f; pure (y :: ys)) = .error e ↔
          xs.mapM f = .error e := by
        cases xs.mapM f <;> simp [bind, Except.bind, pure, Except.pure]
      rw [hrest, ih]
      constructor
      · rintro ⟨i, y, hy, he, hfirst⟩
        refine ⟨i + 1, y, hy, he, ?_⟩
        intro j w hj hw
        cases j with
        | zero =>
          obtain rfl := Option.some.inj hw
          exact ⟨z, hx⟩
        | succ j => exact hfirst j w (Nat.lt_of_succ_lt_succ hj) hw
      · rintro ⟨i, y, hy, he, hfirst⟩
        cases i with
        | zero =>
          obtain rfl := Option.some.inj hy
          exact nomatch hx.symm.trans he
        | succ i => exact ⟨i, y, hy, he, fun j w hj hw => hfirst (j + 1) w (Nat.succ_lt_succ hj) hw⟩

end Mcs51
