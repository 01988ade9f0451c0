import Graphite.Library.Grid

/-! # Tilings

A grid divided into cells of one size: the cell of a coordinate, the centre of a cell, cells within
larger cells, and lists that go through a grid row by row.
-/

namespace Tiling

open List

/-- The middle of the cell of `x`, for cells of size `s`. -/
def centre (s x : ℕ) : ℕ := x / s * s + s / 2

section Cells

variable {n s x y : ℕ}

theorem mul_add_div_eq (hs : 0 < s) (a : ℕ) {b : ℕ} (hb : b < s) : (a * s + b) / s = a := by
  rw [Nat.add_comm, Nat.add_mul_div_right _ _ hs, Nat.div_eq_of_lt hb, Nat.zero_add]

theorem eq_and_eq_of_add_mul {a b c d : ℕ} (ha : a < s) (hc : c < s) (h : a + b * s = c + d * s) :
    a = c ∧ b = d := by
  have hs : 0 < s := Nat.lt_of_le_of_lt (Nat.zero_le a) ha
  have hbd : b = d := by
    simpa [Nat.add_mul_div_right _ _ hs, Nat.div_eq_of_lt ha, Nat.div_eq_of_lt hc]
      using congrArg (· / s) h
  subst hbd
  exact ⟨Nat.add_right_cancel h, rfl⟩

theorem half_lt (hs : 0 < s) : s / 2 < s := Nat.div_lt_self hs Nat.one_lt_two

theorem centre_div (hs : 0 < s) : centre s x / s = x / s := mul_add_div_eq hs _ (half_lt hs)

theorem centre_congr (h : x / s = y / s) : centre s x = centre s y := by
  rw [centre, h, centre]

theorem div_mul_congr (h : x / s = y / s) : x / (n * s) = y / (n * s) := by
  rw [Nat.mul_comm, ← Nat.div_div_eq_div_mul, h, Nat.div_div_eq_div_mul]

theorem lt_of_div_eq (hs : 0 < s) (h : x / s = y / s) (hy : y < n * s) : x < n * s := by
  rw [← Nat.div_lt_iff_lt_mul hs] at hy ⊢
  rwa [h]

theorem sub_div_lt (hn : 0 < n) : (x - x / (n * s) * (n * s)) / s < n := by
  rw [← Nat.mod_eq_sub_div_mul, Nat.mod_mul_left_div_self]
  exact Nat.mod_lt _ hn

theorem add_sub_div (x n s : ℕ) :
    x / (n * s) * (n * s) + (x - x / (n * s) * (n * s)) / s * s = x / s * s := by
  rw [← Nat.mod_eq_sub_div_mul, Nat.mod_mul_left_div_self, ← Nat.mul_assoc, ← Nat.add_mul, Nat.mul_comm n s,
    ← Nat.div_div_eq_div_mul, Nat.mul_comm _ n, Nat.div_add_mod]

end Cells

def cell (w h a b : ℕ) : Grid.Rect :=
  ⟨(a * w : ℕ), ((a + 1) * w : ℕ), (b * h : ℕ), ((b + 1) * h : ℕ)⟩

theorem mem_cell {w h a b x y : ℕ} (hw : 0 < w) (hh : 0 < h) :
    (cell w h a b).Mem ⟨x, y⟩ ↔ x / w = a ∧ y / h = b := by
  have hdiv : ∀ {s c z : ℕ}, 0 < s → (c * s ≤ z ∧ z < (c + 1) * s ↔ z / s = c) := by
    intro s c z hs
    rw [← Nat.le_div_iff_mul_le hs, ← Nat.div_lt_iff_lt_mul hs]
    omega
  rw [← hdiv hw, ← hdiv hh]
  simp only [Grid.Rect.Mem, cell, Int.ofNat_le, Int.ofNat_lt, and_assoc]

/-! ## Going through a grid -/

/-- The values of `f` in a grid with `m` columns and `n` rows, row by row. -/
def rows {α : Type} (m n : ℕ) (f : ℕ → ℕ → α) : List α :=
  (List.range n).flatMap fun y => (List.range m).map fun x => f x y

section Rows

variable {α : Type} {m n : ℕ} {f : ℕ → ℕ → α}

theorem rows_succ : rows m (n + 1) f = rows m n f ++ (range m).map fun x => f x n := by
  simp [rows, range_succ]

theorem length_rows : (rows m n f).length = n * m := by
  induction n with
  | zero => simp [rows]
  | succ n ih => rw [rows_succ, length_append, ih, length_map, length_range, Nat.succ_mul]

theorem getElem?_rows {x y : ℕ} (hx : x < m) (hy : y < n) : (rows m n f)[y * m + x]? = some (f x y) := by
  induction n with
  | zero => cases hy
  | succ n ih =>
    rw [rows_succ]
    rcases Nat.lt_succ_iff_lt_or_eq.mp hy with hlt | rfl
    · have hbound : y * m + x < (rows m n f).length := by
        have := Nat.mul_le_mul_right m (Nat.succ_le_of_lt hlt)
        rw [Nat.succ_mul] at this
        rw [length_rows]
        omega
      rw [getElem?_append_left hbound, ih hlt]
    · rw [getElem?_append_right (by rw [length_rows]; omega), length_rows, Nat.add_sub_cancel_left]
      simp [hx]

theorem nodup_rows (h : ∀ x < m, ∀ y < n, ∀ x' < m, ∀ y' < n, f x y = f x' y' → x = x' ∧ y = y') :
    (rows m n f).Nodup := by
  apply nodup_flatMap.mpr
  constructor
  · intro y hy
    apply List.Nodup.map_on _ nodup_range
    intro x hx x' hx' heq
    rw [mem_range] at hx hx' hy
    exact (h x hx y hy x' hx' y hy heq).1
  · apply nodup_range.imp_of_mem
    intro y y' hy hy' hne t ht ht'
    obtain ⟨x, hx, rfl⟩ := mem_map.mp ht
    obtain ⟨x', hx', heq⟩ := mem_map.mp ht'
    rw [mem_range] at hx hx' hy hy'
    exact hne (h x hx y hy x' hx' y' hy' heq.symm).2

theorem mem_rows {t : α} : t ∈ rows m n f ↔ ∃ x < m, ∃ y < n, f x y = t := by
  simp only [rows, mem_flatMap, mem_map, mem_range]
  grind

/-! ## Blocks

The numbers below `w` in `m` blocks of one size; the last block has what is left as well. -/

def base (w m i : ℕ) : ℕ := i * (w / m)

def size (w m i : ℕ) : ℕ := if i = m - 1 then w - (m - 1) * (w / m) else w / m

section Blocks

variable {w i j x : ℕ}

theorem base_add_size (h : i + 1 < m) : base w m i + size w m i = base w m (i + 1) := by
  rw [base, base, size, if_neg (by omega), Nat.succ_mul]

theorem base_add_size_last (h : i + 1 = m) : base w m i + size w m i = w := by
  obtain rfl : i = m - 1 := by omega
  have hle : (m - 1) * (w / m) ≤ w :=
    (Nat.mul_le_mul_right _ (Nat.sub_le m 1)).trans (Nat.mul_div_le w m)
  rw [base, size, if_pos rfl, Nat.add_sub_cancel' hle]

theorem base_mono (h : i ≤ j) : base w m i ≤ base w m j := Nat.mul_le_mul_right _ h

/-- A block ends before the later ones start. -/
theorem base_add_size_le (hij : i < j) (hj : j < m) : base w m i + size w m i ≤ base w m j := by
  rw [base_add_size (by omega)]
  exact base_mono hij

theorem base_add_size_le_all (hi : i < m) : base w m i + size w m i ≤ w := by
  rcases Nat.lt_or_eq_of_le (Nat.succ_le_of_lt hi) with hlt | heq
  · have hlast := base_add_size_last (w := w) (Nat.sub_add_cancel (Nat.one_le_of_lt hi))
    have hmono : base w m (i + 1) ≤ base w m (m - 1) := base_mono (by omega)
    rw [base_add_size hlt]
    omega
  · rw [base_add_size_last heq]

theorem exists_block (hm : 0 < m) (hx : x < w) :
    ∃ i < m, base w m i ≤ x ∧ x < base w m i + size w m i := by
  have hlast : x < base w m (m - 1) + size w m (m - 1) := by
    rwa [base_add_size_last (Nat.sub_add_cancel hm)]
  -- the first block that ends after `x`
  have hends : ∃ i, x < base w m i + size w m i := ⟨m - 1, hlast⟩
  have hle : Nat.find hends ≤ m - 1 := Nat.find_min' hends hlast
  refine ⟨Nat.find hends, by omega, ?_, Nat.find_spec hends⟩
  cases hi : Nat.find hends with
  | zero => simp [base]
  | succ k =>
    have hk := Nat.find_min hends (m := k) (by omega)
    rwa [not_lt, base_add_size (by omega)] at hk

theorem block_unique (hi : i < m) (hj : j < m) (hx : base w m i ≤ x ∧ x < base w m i + size w m i)
    (hx' : base w m j ≤ x ∧ x < base w m j + size w m j) : i = j := by
  rcases Nat.lt_trichotomy i j with hlt | heq | hgt
  · have := base_add_size_le (w := w) hlt hj
    omega
  · exact heq
  · have := base_add_size_le (w := w) hgt hi
    omega

/-- No block is empty if there are no more than there are numbers. -/
theorem size_pos (hm : 0 < m) (h : m ≤ w) (hi : i < m) : 0 < size w m i := by
  have hdiv : 0 < w / m := Nat.div_pos h hm
  rcases Nat.lt_or_eq_of_le (Nat.succ_le_of_lt hi) with hlt | heq
  · rwa [size, if_neg (by omega)]
  · have hle := Nat.mul_div_le w m
    obtain ⟨k, rfl⟩ : ∃ k, m = k + 1 := ⟨i, heq.symm⟩
    rw [size, if_pos (by omega), Nat.add_sub_cancel]
    rw [Nat.succ_mul] at hle
    omega

end Blocks

end Rows

/-! ## Powers of two -/

theorem sqrt_two_pow (k : ℕ) : Nat.sqrt (2 ^ (k + k)) = 2 ^ k := by
  rw [Nat.pow_add, Nat.sqrt_eq]

theorem exists_sqrt_eq_two_pow {e m : ℕ} (h : m * m = 2 ^ e) : ∃ k, m = 2 ^ k ∧ e = k + k := by
  obtain ⟨k, -, hk⟩ := (Nat.dvd_prime_pow Nat.prime_two).mp (Dvd.intro m h)
  refine ⟨k, hk, ?_⟩
  rw [hk, ← Nat.pow_add] at h
  exact (Nat.pow_right_injective (Nat.le_refl 2) h).symm

end Tiling
