import Mathlib.Data.List.Basic
import Mathlib.Logic.Function.Basic

/-! # Rings

Slots that are written in turn hold the last elements of the sequence written so far.
-/

namespace Ring

variable {α : Type*} {n : ℕ} {f : ℕ → α} {l : List α}

/-- The slots of `f` hold the last `n` elements of `l`, the one at position `k` in slot `k % n`. -/
def Holds (n : ℕ) (f : ℕ → α) (l : List α) : Prop :=
  ∀ k x, l[k]? = some x → l.length ≤ k + n → f (k % n) = x

theorem Holds.push (h : Holds n f l) (x : α) :
    Holds n (Function.update f (l.length % n) x) (l ++ [x]) := by
  intro k y hk hle
  rw [List.length_append, List.length_singleton] at hle
  rcases Nat.lt_trichotomy k l.length with hlt | rfl | hgt
  · -- less than one turn ago, so in another slot
    have hne : k % n ≠ l.length % n := by
      intro heq
      have hmod := Nat.sub_mod_eq_zero_of_mod_eq heq.symm
      rw [Nat.mod_eq_of_lt (by omega)] at hmod
      omega
    rw [Function.update_of_ne hne]
    rw [List.getElem?_append_left hlt] at hk
    exact h k y hk (by omega)
  · rw [Function.update_self]
    simpa using hk
  · rw [List.getElem?_eq_none (by simp; omega)] at hk
    cases hk

end Ring
