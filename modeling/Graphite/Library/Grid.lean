import Mathlib

/-! # Routes on a grid

The route from one position to another that goes along the row first, and the tree that reaches every
position from a source: along the row of the source, and from there up and down each column. A route
does not leave a rectangle that contains both ends, and one branch of the tree leads to every
position.
-/

namespace Grid

open List

@[ext] structure Pos where
  x : ℤ
  y : ℤ
  deriving DecidableEq, Repr

inductive Dir
  | left | right | down | up
  deriving DecidableEq, Repr

namespace Pos

def move (c : Pos) : Dir → Pos
  | .left => ⟨c.x - 1, c.y⟩
  | .right => ⟨c.x + 1, c.y⟩
  | .down => ⟨c.x, c.y - 1⟩
  | .up => ⟨c.x, c.y + 1⟩

def dist (a b : Pos) : ℕ := (a.x - b.x).natAbs + (a.y - b.y).natAbs

end Pos

/-- Where the route to `d` goes from `c`; nowhere if it is there. -/
def toward (c d : Pos) : Option Dir :=
  if c.x > d.x then some .left
  else if c.x < d.x then some .right
  else if c.y > d.y then some .down
  else if c.y < d.y then some .up
  else none

/-- A rectangle, without its upper bounds. -/
structure Rect where
  minX : ℤ
  maxX : ℤ
  minY : ℤ
  maxY : ℤ

def Rect.Mem (R : Rect) (c : Pos) : Prop :=
  R.minX ≤ c.x ∧ c.x < R.maxX ∧ R.minY ≤ c.y ∧ c.y < R.maxY

section Route

variable {c d : Pos} {dir : Dir}

theorem toward_eq_none : toward c d = none ↔ c = d := by
  unfold toward
  rw [Pos.ext_iff]
  split_ifs <;> simp <;> omega

theorem dist_eq_zero : c.dist d = 0 ↔ c = d := by
  rw [Pos.ext_iff, Pos.dist]
  omega

theorem dist_move_toward (h : toward c d = some dir) : (c.move dir).dist d + 1 = c.dist d := by
  unfold toward at h
  split_ifs at h <;> cases h <;> simp only [Pos.move, Pos.dist] <;> omega

theorem move_ne (c : Pos) (dir : Dir) : c.move dir ≠ c := by
  rw [Ne, Pos.ext_iff]
  cases dir <;> simp only [Pos.move] <;> omega

theorem Rect.Mem.move_toward {R : Rect} (hc : R.Mem c) (hd : R.Mem d) (h : toward c d = some dir) :
    R.Mem (c.move dir) := by
  obtain ⟨h₁, h₂, h₃, h₄⟩ := hc
  obtain ⟨k₁, k₂, k₃, k₄⟩ := hd
  unfold toward at h
  split_ifs at h <;> cases h <;> exact ⟨by simp only [Pos.move]; omega, by simp only [Pos.move]; omega,
    by simp only [Pos.move]; omega, by simp only [Pos.move]; omega⟩

end Route

/-! ## The tree -/

/-- Where the tree with source `s` goes on from `c`. -/
def spread (s c : Pos) : List Dir :=
  (if c.y ≥ s.y then [.up] else []) ++ (if c.y ≤ s.y then [.down] else []) ++
    if c.y = s.y then
      (if c.x ≥ s.x then [.right] else []) ++ (if c.x ≤ s.x then [.left] else [])
    else []

/-- The tree with source `s` leads to `d` through `c`. -/
def Below (s c d : Pos) : Prop :=
  (c.y = s.y → (c.x > s.x → c.x ≤ d.x) ∧ (c.x < s.x → d.x ≤ c.x)) ∧
    (c.y > s.y → d.x = c.x ∧ c.y ≤ d.y) ∧ (c.y < s.y → d.x = c.x ∧ d.y ≤ c.y)

instance (s c d : Pos) : Decidable (Below s c d) := by
  unfold Below
  infer_instance

theorem below_source (s d : Pos) : Below s s d := by
  simp [Below]

/-- One if `p` holds. -/
def ind (p : Prop) [Decidable p] : ℕ := if p then 1 else 0

section Ind

variable {p q r : Prop} [Decidable p] [Decidable q] [Decidable r]

@[simp] theorem ind_pos (h : p) : ind p = 1 := if_pos h

@[simp] theorem ind_neg (h : ¬ p) : ind p = 0 := if_neg h

theorem ind_congr (h : p ↔ q) : ind p = ind q := by
  simp only [ind, h]

theorem ind_or (h : p ↔ q ∨ r) (hqr : ¬ (q ∧ r)) : ind p = ind q + ind r := by
  by_cases hq : q
  · rw [ind_pos (h.mpr (.inl hq)), ind_pos hq, ind_neg fun hr => hqr ⟨hq, hr⟩]
  · rw [ind_neg hq, Nat.zero_add]
    exact ind_congr (h.trans (or_iff_right hq))

end Ind

section Tree

variable {s c d : Pos}

theorem below_of_lt (hy : c.y < s.y) : Below s c d ↔ d.x = c.x ∧ d.y ≤ c.y := by
  unfold Below
  omega

theorem below_of_gt (hy : c.y > s.y) : Below s c d ↔ d.x = c.x ∧ c.y ≤ d.y := by
  unfold Below
  omega

theorem below_of_eq (hy : c.y = s.y) :
    Below s c d ↔ (c.x > s.x → c.x ≤ d.x) ∧ (c.x < s.x → d.x ≤ c.x) := by
  unfold Below
  omega

theorem below_left (hy : c.y = s.y) (hx : c.x ≤ s.x) :
    Below s (c.move .left) d ↔ d.x ≤ c.x - 1 := by
  rw [below_of_eq (by exact hy)]
  simp only [Pos.move]
  omega

theorem below_right (hy : c.y = s.y) (hx : s.x ≤ c.x) :
    Below s (c.move .right) d ↔ c.x + 1 ≤ d.x := by
  rw [below_of_eq (by exact hy)]
  simp only [Pos.move]
  omega

theorem below_up (hy : s.y ≤ c.y) : Below s (c.move .up) d ↔ d.x = c.x ∧ c.y + 1 ≤ d.y :=
  below_of_gt (by simp only [Pos.move]; omega)

theorem below_down (hy : c.y ≤ s.y) : Below s (c.move .down) d ↔ d.x = c.x ∧ d.y ≤ c.y - 1 :=
  below_of_lt (by simp only [Pos.move]; omega)

theorem ind_column (hy : c.y = s.y) : ind (d.x = c.x) =
    ind (c = d) + (ind (Below s (c.move .up) d) + ind (Below s (c.move .down) d)) := by
  have hup := below_up (d := d) (Int.le_of_eq hy.symm)
  have hdown := below_down (d := d) (Int.le_of_eq hy)
  rw [← ind_or (p := d.x = c.x ∧ d.y ≠ c.y) (by rw [hup, hdown]; omega) (by rw [hup, hdown]; omega)]
  apply ind_or
  · rw [Pos.ext_iff]
    omega
  · rw [Pos.ext_iff]
    omega

/-- What lies below `c` is `c` and what lies below one of its successors, without overlap. -/
theorem ind_below (s c d : Pos) : ind (Below s c d) =
    ind (c = d) + ((spread s c).map fun dir => ind (Below s (c.move dir) d)).sum := by
  rcases Int.lt_trichotomy c.y s.y with hy | hy | hy
  · have hspread : spread s c = [.down] := by
      rw [spread, if_neg (by omega), if_pos (by omega), if_neg (by omega)]
      rfl
    rw [hspread, map_singleton, sum_singleton]
    apply ind_or <;> rw [below_down (by omega), Pos.ext_iff]
    · rw [below_of_lt hy]
      omega
    · omega
  · have hspread : spread s c = [.up, .down] ++ ((if c.x ≥ s.x then [.right] else []) ++
        if c.x ≤ s.x then [.left] else []) := by
      rw [spread, if_pos (by omega), if_pos (by omega), if_pos hy]
      rfl
    have hcolumn := ind_column (d := d) hy
    simp only [hspread, map_append, sum_append, map_cons, map_nil, sum_cons,
      sum_nil, Nat.add_zero]
    rw [← Nat.add_assoc, ← hcolumn]
    rcases Int.lt_trichotomy c.x s.x with hx | hx | hx
    · rw [if_neg (by omega), if_pos (by omega), map_nil, sum_nil, Nat.zero_add,
        map_singleton, sum_singleton]
      apply ind_or <;> rw [below_left hy (by omega)]
      · rw [below_of_eq hy]
        omega
      · omega
    · rw [if_pos (by omega), if_pos (by omega), map_singleton, sum_singleton,
        map_singleton, sum_singleton,
        ← ind_or (p := d.x ≠ c.x) (by rw [below_left hy (by omega), below_right hy (by omega)]; omega)
          (by rw [below_left hy (by omega), below_right hy (by omega)]; omega)]
      apply ind_or
      · rw [below_of_eq hy]
        omega
      · omega
    · rw [if_pos (by omega), if_neg (by omega), map_nil, sum_nil, Nat.add_zero,
        map_singleton, sum_singleton]
      apply ind_or <;> rw [below_right hy (by omega)]
      · rw [below_of_eq hy]
        omega
      · omega
  · have hspread : spread s c = [.up] := by
      rw [spread, if_pos (by omega), if_neg (by omega), if_neg (by omega)]
      rfl
    rw [hspread, map_singleton, sum_singleton]
    apply ind_or <;> rw [below_up (by omega), Pos.ext_iff]
    · rw [below_of_gt hy]
      omega
    · omega

theorem mem_spread {dir : Dir} : dir ∈ spread s c ↔ match dir with
    | .up => s.y ≤ c.y
    | .down => c.y ≤ s.y
    | .right => c.y = s.y ∧ s.x ≤ c.x
    | .left => c.y = s.y ∧ c.x ≤ s.x := by
  unfold spread
  cases dir <;> split_ifs <;> simp <;> omega

theorem length_spread (s c : Pos) : (spread s c).length ≤ 4 := by
  unfold spread
  split_ifs <;> simp

theorem not_below_of_not_mem {R : Rect} {dir : Dir} (hc : R.Mem c) (hd : R.Mem d)
    (hdir : dir ∈ spread s c) (hout : ¬ R.Mem (c.move dir)) : ¬ Below s (c.move dir) d := by
  obtain ⟨h₁, h₂, h₃, h₄⟩ := hc
  obtain ⟨k₁, k₂, k₃, k₄⟩ := hd
  rw [mem_spread] at hdir
  unfold Rect.Mem at hout
  cases dir with
  | left =>
    rw [below_left hdir.1 hdir.2]
    simp only [Pos.move] at hout
    omega
  | right =>
    rw [below_right hdir.1 hdir.2]
    simp only [Pos.move] at hout
    omega
  | down =>
    rw [below_down hdir]
    simp only [Pos.move] at hout
    omega
  | up =>
    rw [below_up hdir]
    simp only [Pos.move] at hout
    omega

end Tree

end Grid
