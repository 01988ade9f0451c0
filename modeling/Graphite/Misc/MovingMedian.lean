import Graphite.Library.Outcome
import Graphite.Library.Ring
import Mathlib

/-! # The moving median

`MovingAverage` keeps the last numbers in a ring with one slot more than the window has; its indices
have 32 bits. `MovingMedian` returns the number in the middle of the window in the order of arrival,
without sorting it.
-/

namespace Graphite.Moving

open Function List

inductive Fault
  /-- A number is written past the end of the list. -/
  | outOfRange
  deriving DecidableEq, Repr

/-- `ModuloNum`: a number below `max`. -/
@[ext] structure ModuloNum (max : UInt32) where
  value : UInt32
  deriving DecidableEq

namespace ModuloNum

variable {max : UInt32} {a b : ModuloNum max}

def add (a : ModuloNum max) (value : UInt32) : ModuloNum max := ⟨(a.value + value % max) % max⟩

def sub (a b : ModuloNum max) : ModuloNum max :=
  ⟨if b.value ≤ a.value then a.value - b.value else a.value + max - b.value⟩

theorem toNat_add {value : UInt32} (h : a.value.toNat + value.toNat % max.toNat < 2 ^ 32) :
    (a.add value).value.toNat = (a.value.toNat + value.toNat) % max.toNat := by
  rw [add, UInt32.toNat_mod, UInt32.toNat_add, UInt32.toNat_mod, Nat.mod_eq_of_lt h, Nat.add_mod_mod]

theorem toNat_sub (hb : b.value.toNat < max.toNat) : (a.sub b).value.toNat =
    if b.value.toNat ≤ a.value.toNat then a.value.toNat - b.value.toNat
    else a.value.toNat + max.toNat - b.value.toNat := by
  have hmax := max.toNat_lt
  simp only [sub, UInt32.le_iff_toNat_le]
  split
  · next hle => exact UInt32.toNat_sub_of_le _ _ hle
  · rw [UInt32.toNat_sub, UInt32.toNat_add]
    omega

end ModuloNum

structure MovingAverage (α : Type) (maxWindowSize : UInt32) where
  numList : ℕ → α
  front : ModuloNum (maxWindowSize + 1)
  back : ModuloNum (maxWindowSize + 1)

namespace MovingAverage

variable {α : Type} {w : UInt32}

def create [Inhabited α] : MovingAverage α w := ⟨fun _ => default, ⟨0⟩, ⟨0⟩⟩

/-- The numbers `l` have been added. -/
structure Holds (m : MovingAverage α w) (l : List α) : Prop where
  ring : Ring.Holds (w.toNat + 1) m.numList l
  back : m.back.value.toNat = l.length % (w.toNat + 1)
  front : m.front.value.toNat = (l.length - w.toNat) % (w.toNat + 1)

variable {m : MovingAverage α w} {l : List α}

theorem holds_create [Inhabited α] : (create : MovingAverage α w).Holds [] :=
  ⟨nofun, rfl, by simp [create]⟩

section

/-! The list has a slot more than the window. -/

variable (hmax : (w + 1).toNat = w.toNat + 1)

include hmax

theorem Holds.size (h : m.Holds l) : (m.back.sub m.front).value.toNat = min l.length w.toNat := by
  have hfront : m.front.value.toNat < (w + 1).toNat := by
    rw [h.front, hmax]
    exact Nat.mod_lt _ (Nat.succ_pos _)
  rw [ModuloNum.toNat_sub hfront, h.back, h.front, hmax]
  generalize w.toNat = w
  rcases Nat.le_total l.length w with hle | hle
  · rw [Nat.sub_eq_zero_of_le hle, Nat.zero_mod, if_pos (Nat.zero_le _), Nat.sub_zero,
      Nat.mod_eq_of_lt (by omega), Nat.min_eq_left hle]
  · obtain ⟨k, hk⟩ := Nat.exists_eq_add_of_le' hle
    have hq : k % (w + 1) < w + 1 := Nat.mod_lt k (Nat.succ_pos w)
    rw [hk, Nat.add_sub_cancel, Nat.min_eq_right (Nat.le_add_left w k), Nat.add_mod,
      Nat.mod_eq_of_lt (Nat.lt_succ_self w)]
    -- the back is one slot before the front
    by_cases h0 : k % (w + 1) = 0
    · simp [h0]
    · have hback : (k % (w + 1) + w) % (w + 1) = k % (w + 1) - 1 := by
        rw [show k % (w + 1) + w = k % (w + 1) - 1 + (w + 1) by omega, Nat.add_mod_right]
        exact Nat.mod_eq_of_lt (by omega)
      rw [hback, if_neg (by omega)]
      omega

end

end MovingAverage

open MovingAverage

end Graphite.Moving
