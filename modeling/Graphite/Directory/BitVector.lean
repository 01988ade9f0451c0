import Graphite.Directory.Sharers
import Mathlib.Data.List.Sort
import Mathlib.Order.Monotone.Basic
import Mathlib.Tactic.Ring

/-! # The bit vector of a directory entry

`BitVector` of `misc/` keeps 64-bit words and a cursor. `find` walks the words from the one with the
last position found and takes each apart into halves, down to bytes. Called until it returns -1, it
enumerates the set bits in increasing order, as `bitList` does, the form in which the entries of
`Sharers` keep a bit vector. Positions are 32-bit numbers, so this is right for at most `2 ^ 31` bits.
-/

namespace Graphite

open Outcome List

/-! ### The first position of an interval -/

/-- The outcome of a search of the positions from `lo` to below `hi` for the first one with `p`. -/
def FirstIn (p : ℕ → Prop) (lo hi : ℕ) : Option ℕ → Prop
  | some i => (lo ≤ i ∧ i < hi) ∧ p i ∧ ∀ j, lo ≤ j → j < i → ¬ p j
  | none => ∀ j, lo ≤ j → j < hi → ¬ p j

section FirstIn

variable {p q : ℕ → Prop} {lo mid hi : ℕ} {r : Option ℕ}

theorem FirstIn.congr (h : FirstIn p lo hi r) (hpq : ∀ j, lo ≤ j → j < hi → (p j ↔ q j)) :
    FirstIn q lo hi r := by
  cases r with
  | none => exact fun j hlo hhi hq => h j hlo hhi ((hpq j hlo hhi).mpr hq)
  | some i =>
    obtain ⟨⟨hlo, hhi⟩, hp, hmin⟩ := h
    refine ⟨⟨hlo, hhi⟩, (hpq i hlo hhi).mp hp, fun j hj hji hq => ?_⟩
    exact hmin j hj hji ((hpq j hj (by omega)).mpr hq)

theorem FirstIn.extend (h : FirstIn p mid hi r) (hle : lo ≤ mid) (hlo : ∀ j < mid, ¬ p j) :
    FirstIn p lo hi r := by
  cases r with
  | none =>
    intro j _ hj
    by_cases hm : j < mid
    · exact hlo j hm
    · exact h j (by omega) hj
  | some i =>
    obtain ⟨⟨hm, hhi⟩, hp, hmin⟩ := h
    refine ⟨⟨by omega, hhi⟩, hp, fun j _ hj => ?_⟩
    by_cases hm : j < mid
    · exact hlo j hm
    · exact hmin j (by omega) hj

theorem firstIn_findSome? {f : ℕ → Option ℕ} {g : ℕ → ℕ} (hg : Monotone g) {k : ℕ} :
    ∀ {a : ℕ}, (∀ i, a ≤ i → i < a + k → FirstIn p (g i) (g (i + 1)) (f i)) →
      FirstIn p (g a) (g (a + k)) ((range' a k).findSome? f) := by
  induction k with
  | zero => intro a _ j hlo hhi; simp at hhi; omega
  | succ k ih =>
    intro a h
    have hfirst := h a le_rfl (by omega)
    have hrest := ih (a := a + 1) fun i h1 h2 => h i (by omega) (by omega)
    rw [show a + 1 + k = a + (k + 1) by omega] at hrest
    rw [range'_succ, findSome?_cons]
    have hle := hg (Nat.le_add_right a 1)
    cases hf : f a with
    | none =>
      rw [hf] at hfirst
      cases hr : (range' (a + 1) k).findSome? f with
      | none =>
        rw [hr] at hrest
        intro j hlo hhi
        by_cases hj : j < g (a + 1)
        · exact hfirst j hlo hj
        · exact hrest j (by omega) hhi
      | some i =>
        rw [hr] at hrest
        obtain ⟨⟨hm, hhi⟩, hp, hmin⟩ := hrest
        refine ⟨⟨by omega, hhi⟩, hp, fun j hlo hji => ?_⟩
        by_cases hj : j < g (a + 1)
        · exact hfirst j hlo hj
        · exact hmin j (by omega) hji
    | some i =>
      rw [hf] at hfirst
      obtain ⟨⟨hlo, hhi⟩, hp, hmin⟩ := hfirst
      have := hg (show a + 1 ≤ a + (k + 1) by omega)
      exact ⟨⟨hlo, by omega⟩, hp, hmin⟩

end FirstIn

/-! ### The class -/

/-- `BitVector`; the number of words follows from the capacity. -/
structure BitVector where
  capacity : ℕ
  size : ℕ
  lastPos : ℤ
  words : List (BitVec 64)
  deriving DecidableEq, Repr

namespace BitVector

def create (bits : ℕ) : BitVector :=
  ⟨bits, 0, -1, replicate ((bits + 64 - 1) >>> 6) 0⟩

def resetFind (v : BitVector) : BitVector := { v with lastPos := -1 }

def bTestBit (byte : BitVec 8) (bit : ℕ) : Bool := decide (byte &&& 1#8 <<< bit ≠ 0)

/-- A position as an `int`. -/
def toSInt32 (pos : ℕ) : ℤ := (pos : ℤ).bmod (2 ^ 32)

/-- The loop over the bits of a byte that stands at position `base`. -/
def scanByte (lastPos : ℤ) (byte : BitVec 8) (base : ℕ) : Option ℕ :=
  if byte ≠ 0 then
    (range 8).findSome? fun l =>
      if bTestBit byte l = true ∧ lastPos < toSInt32 (base + l) then some (base + l) else none
  else
    none

/-- `words32`, `words16` and `words8`: the low half of a word, then the high half. -/
def half {n : ℕ} (w : BitVec (2 * n)) : ℕ → BitVec n
  | 0 => (w &&& BitVec.ofNat _ (2 ^ n - 1)).setWidth n
  | _ => (w >>> n).setWidth n

/-- The loop over the two halves of a word that stands at position `base`. -/
def scanHalves {n : ℕ} (inner : BitVec n → ℕ → Option ℕ) (w : BitVec (2 * n)) (base : ℕ) :
    Option ℕ :=
  if w ≠ 0 then (range 2).findSome? fun i => inner (half w i) (base + n * i) else none

def scanWord (lastPos : ℤ) : BitVec 64 → ℕ → Option ℕ :=
  scanHalves (n := 32) (scanHalves (n := 16) (scanHalves (n := 8) (scanByte lastPos)))

/-- The position found, or -1, and the vector with its cursor there. -/
def find (v : BitVector) : ℤ × BitVector :=
  let windex := if v.lastPos = -1 then 0 else v.lastPos.toNat >>> 6
  let wordCount := (v.capacity + 64 - 1) >>> 6
  match (range' windex (wordCount - windex)).findSome? fun i =>
      scanWord v.lastPos (v.words.getD i 0) (64 * i) with
  | some pos => (toSInt32 pos, { v with lastPos := toSInt32 pos })
  | none => (-1, { v with lastPos := -1 })

/-- The results of so many calls of `find`. -/
def finds : ℕ → BitVector → List ℤ
  | 0, _ => []
  | n + 1, v => v.find.1 :: finds n v.find.2

def mask (bit : ℕ) : BitVec 64 := 1#64 <<< (bit &&& 63)

/-- `at`. -/
def atBit (v : BitVector) (bit : ℕ) : Except Fault Bool := do
  check (bit < v.capacity) .bitRange
  pure (decide (v.words.getD (bit >>> 6) 0 &&& mask bit ≠ 0))

def set (v : BitVector) (bit : ℕ) : Except Fault BitVector := do
  check (bit < v.capacity) .bitRange
  if ← v.atBit bit then
    pure v
  else
    let word := v.words.getD (bit >>> 6) 0 ||| mask bit
    pure { v with words := v.words.set (bit >>> 6) word, size := v.size + 1 }

def clear (v : BitVector) (bit : ℕ) : Except Fault BitVector := do
  check (bit < v.capacity) .bitRange
  if ← v.atBit bit then
    let word := v.words.getD (bit >>> 6) 0 &&& ~~~ mask bit
    pure { v with words := v.words.set (bit >>> 6) word, size := v.size - 1 }
  else
    pure v

/-- The loop of `getSharersList`: with `room` entries of the list left, one more position found
fails its assertion. -/
def collect (room : ℕ) (v : BitVector) : Except Fault (List ℤ × BitVector) :=
  let (pos, v) := v.find
  if pos = -1 then
    pure ([], v)
  else
    match room with
    | 0 => throw .listLength
    | room + 1 => do
      let (rest, v) ← collect room v
      pure (pos :: rest, v)

/-- The sharers on a bit vector. The list has `size` entries from the start, and those the loop
does not reach keep the value 0. -/
def getSharersList (v : BitVector) : Except Fault (List ℤ × BitVector) := do
  let (found, v') ← collect v.size v.resetFind
  pure (found ++ replicate (v.size - found.length) 0, v')

/-! ### Scanning a word -/

/-- `f` finds the first set bit of an `n`-bit word that stands after position `last`. -/
def Scans (last : ℤ) (n : ℕ) (f : BitVec n → ℕ → Option ℕ) : Prop :=
  ∀ w base, FirstIn (fun i => last < toSInt32 i ∧ w.getLsbD (i - base) = true) base (base + n) (f w base)

variable {last : ℤ}

theorem toSInt32_lt (i : ℕ) : toSInt32 i < 2 ^ 31 := by
  unfold toSInt32
  rw [Int.bmod_def]
  split <;> omega

theorem lastPos_resetFind (v : BitVector) : v.resetFind.lastPos < 2 ^ 31 := by
  show (-1 : ℤ) < 2 ^ 31
  decide

theorem toSInt32_eq {i : ℕ} (hi : i < 2 ^ 31) : toSInt32 i = i := by
  unfold toSInt32
  rw [Int.bmod_def]
  split <;> omega

theorem and_shifted_one_ne_zero {n k : ℕ} (w : BitVec n) (hk : k < n) :
    w &&& 1#n <<< k ≠ 0 ↔ w.getLsbD k = true := by
  rw [← BitVec.twoPow_eq, BitVec.and_twoPow]
  split
  · next h =>
    have : BitVec.twoPow n k ≠ 0#n := fun h0 => by
      simpa [BitVec.getLsbD_twoPow, hk] using congrArg (BitVec.getLsbD · k) h0
    simp [h, this]
  · next h => simp [h]

theorem scans_scanByte : Scans last 8 (scanByte last) := by
  intro w base
  unfold scanByte
  split
  · rw [range_eq_range']
    refine firstIn_findSome? (g := fun l => base + l) (fun a b h => Nat.add_le_add_left h base)
      (a := 0) fun l _ hl => ?_
    have hbit : bTestBit w l = true ↔ w.getLsbD l = true :=
      decide_eq_true_iff.trans (and_shifted_one_ne_zero w (by omega))
    split
    · next h =>
      refine ⟨⟨le_rfl, by omega⟩, ⟨h.2, ?_⟩, fun j hj hji => by omega⟩
      simpa using hbit.mp h.1
    · next h =>
      rintro j hj hj' ⟨hlast, hset⟩
      obtain rfl : j = base + l := by omega
      exact h ⟨hbit.mpr (by simpa using hset), hlast⟩
  · next h =>
    obtain rfl : w = 0 := by simpa using h
    rintro j - - ⟨-, hset⟩
    simp at hset

theorem getLsbD_half {n i j : ℕ} (w : BitVec (2 * n)) (hi : i < 2) (hj : j < n) :
    (half w i).getLsbD j = w.getLsbD (n * i + j) := by
  obtain rfl | rfl : i = 0 ∨ i = 1 := by omega
  · simp only [half, BitVec.getLsbD_setWidth, BitVec.getLsbD_and, BitVec.getLsbD_ofNat,
      Nat.testBit_two_pow_sub_one]
    simp [hj, show j < 2 * n by omega]
  · simp [half, hj]

theorem scans_scanHalves {n : ℕ} {inner : BitVec n → ℕ → Option ℕ} (h : Scans last n inner) :
    Scans last (2 * n) (scanHalves inner) := by
  intro w base
  unfold scanHalves
  split
  · have hscan : ∀ i, 0 ≤ i → i < 0 + 2 →
        FirstIn (fun j => last < toSInt32 j ∧ w.getLsbD (j - base) = true) (base + i * n)
          (base + (i + 1) * n) (inner (half w i) (base + n * i)) := by
      intro i _ hi
      have hfirst := h (half w i) (base + n * i)
      rw [Nat.mul_comm n i, show base + i * n + n = base + (i + 1) * n by ring] at hfirst
      rw [Nat.mul_comm n i]
      refine hfirst.congr fun j hj hj' => and_congr_right fun _ => ?_
      rw [Nat.succ_mul] at hj'
      rw [getLsbD_half w (by omega) (by omega), Nat.mul_comm n i]
      rw [show i * n + (j - (base + i * n)) = j - base by omega]
    have hmono : Monotone fun i => base + i * n :=
      fun a b hab => Nat.add_le_add_left (Nat.mul_le_mul_right n hab) base
    simpa only [Nat.zero_mul, Nat.add_zero, Nat.zero_add, range_eq_range'] using
      firstIn_findSome? hmono hscan
  · next h0 =>
    obtain rfl : w = 0 := by simpa using h0
    rintro j - - ⟨-, hset⟩
    simp at hset

theorem scans_scanWord : Scans last 64 (scanWord last) :=
  scans_scanHalves (scans_scanHalves (scans_scanHalves scans_scanByte))

/-! ### Single bits -/

def bitAt (words : List (BitVec 64)) (i : ℕ) : Bool := (words.getD (i / 64) 0).getLsbD (i % 64)

section Words

variable {words : List (BitVec 64)} {b i : ℕ}

theorem shift_eq (i : ℕ) : i >>> 6 = i / 64 := Nat.shiftRight_eq_div_pow i 6

theorem mask_eq (b : ℕ) : mask b = BitVec.twoPow 64 (b % 64) := by
  rw [BitVec.twoPow_eq, mask, Nat.and_two_pow_sub_one_eq_mod b 6]

theorem and_mask_ne_zero : words.getD (b >>> 6) 0 &&& mask b ≠ 0 ↔ bitAt words b = true := by
  rw [shift_eq, mask_eq, BitVec.twoPow_eq]
  exact and_shifted_one_ne_zero _ (Nat.mod_lt b (by omega))

theorem bitAt_set (hb : b / 64 < words.length) (w : BitVec 64) : bitAt (words.set (b / 64) w) i =
      if i / 64 = b / 64 then w.getLsbD (i % 64) else bitAt words i := by
  unfold bitAt
  by_cases h : i / 64 = b / 64
  · simp [h, hb]
  · simp [h, getElem?_set_ne (Ne.symm h)]

theorem bitAt_or_mask (hb : b / 64 < words.length) :
    bitAt (words.set (b >>> 6) (words.getD (b >>> 6) 0 ||| mask b)) i = true ↔
      i = b ∨ bitAt words i = true := by
  rw [shift_eq, bitAt_set hb, mask_eq]
  split
  · next h =>
    have hib : (b % 64 < 64 ∧ b % 64 = i % 64) ↔ i = b := by omega
    simp only [BitVec.getLsbD_or, BitVec.getLsbD_twoPow, Bool.or_eq_true, Bool.and_eq_true,
      decide_eq_true_eq, bitAt, h, hib]
    exact or_comm
  · next h =>
    constructor
    · exact .inr
    · rintro (rfl | hi)
      · exact absurd rfl h
      · exact hi

theorem bitAt_and_not_mask (hb : b / 64 < words.length) :
    bitAt (words.set (b >>> 6) (words.getD (b >>> 6) 0 &&& ~~~ mask b)) i = true ↔
      i ≠ b ∧ bitAt words i = true := by
  rw [shift_eq, bitAt_set hb, mask_eq]
  split
  · next h =>
    have hib : (i % 64 < 64 ∧ (¬ b % 64 < 64 ∨ ¬ b % 64 = i % 64)) ↔ i ≠ b := by omega
    simp only [BitVec.getLsbD_and, BitVec.getLsbD_not, BitVec.getLsbD_twoPow, Bool.and_eq_true,
      decide_eq_true_eq, Bool.not_eq_true', Bool.and_eq_false_iff, decide_eq_false_iff_not,
      bitAt, h, hib]
    exact and_comm
  · next h =>
    constructor
    · intro hi
      exact ⟨fun he => h (by rw [he]), hi⟩
    · exact And.right

end Words

/-! ### The set of a bit vector -/

/-- The vector has a bit for each tile and stands for the tiles of `S`. -/
structure Holds {N : ℕ} (v : BitVector) (S : Finset (Fin N)) : Prop where
  capacity : v.capacity = N
  length : v.words.length = (N + 63) / 64
  bits : ∀ i, bitAt v.words i = true ↔ ∃ t ∈ S, (t : ℕ) = i
  size : v.size = S.card

variable {N : ℕ} {v : BitVector} {S : Finset (Fin N)} {t : Fin N}

theorem holds_create : (create N).Holds (∅ : Finset (Fin N)) where
  capacity := rfl
  length := by simp [create, shift_eq]
  bits i := by
    have hword : (create N).words.getD (i / 64) 0 = 0 := by
      rw [create, getD_eq_getElem?_getD, getElem?_replicate]
      split <;> rfl
    rw [bitAt, hword]
    simp
  size := rfl

namespace Holds

section

variable (h : v.Holds S)
include h

theorem bitAt_iff : bitAt v.words t = true ↔ t ∈ S := by
  rw [h.bits]
  constructor
  · rintro ⟨u, hu, he⟩
    rwa [← Fin.ext he]
  · intro ht
    exact ⟨t, ht, rfl⟩

theorem word_lt (t : Fin N) : (t : ℕ) / 64 < v.words.length := by
  have := t.isLt
  rw [h.length]
  omega

theorem atBit_eq : v.atBit t = .ok (decide (t ∈ S)) := by
  have hlt : (t : ℕ) < v.capacity := by rw [h.capacity]; exact t.isLt
  simp only [atBit, check_pos hlt, ok_bind, pure_eq_ok]
  congr 1
  exact decide_eq_decide.mpr (and_mask_ne_zero.trans h.bitAt_iff)

theorem resetFind : v.resetFind.Holds S :=
  ⟨h.capacity, h.length, h.bits, h.size⟩

theorem set : ∃ v', v.set t = .ok v' ∧ v'.Holds (insert t S) := by
  have hlt : (t : ℕ) < v.capacity := by rw [h.capacity]; exact t.isLt
  by_cases ht : t ∈ S
  · refine ⟨v, ?_, ?_⟩
    · simp [BitVector.set, check_pos hlt, h.atBit_eq, ht]
    · rwa [Finset.insert_eq_of_mem ht]
  · have hset : v.set t = .ok { v with
        words := v.words.set (t.val >>> 6) (v.words.getD (t.val >>> 6) 0 ||| mask t)
        size := v.size + 1 } := by
      simp [BitVector.set, check_pos hlt, h.atBit_eq, ht]
    refine ⟨_, hset, h.capacity, ?_, fun i => ?_, ?_⟩
    · simpa using h.length
    · rw [bitAt_or_mask (h.word_lt t), h.bits]
      simp [eq_comm]
    · simp [h.size, ht]

theorem clear_absent (ht : t ∉ S) : v.clear t = .ok v := by
  have hlt : (t : ℕ) < v.capacity := by rw [h.capacity]; exact t.isLt
  simp [BitVector.clear, check_pos hlt, h.atBit_eq, ht]

theorem clear (ht : t ∈ S) : ∃ v', v.clear t = .ok v' ∧ v'.Holds (S.erase t) := by
  have hlt : (t : ℕ) < v.capacity := by rw [h.capacity]; exact t.isLt
  have hclear : v.clear t = .ok { v with
      words := v.words.set (t.val >>> 6) (v.words.getD (t.val >>> 6) 0 &&& ~~~ mask t)
      size := v.size - 1 } := by
    simp [BitVector.clear, check_pos hlt, h.atBit_eq, ht]
  refine ⟨_, hclear, h.capacity, ?_, fun i => ?_, ?_⟩
  · simpa using h.length
  · rw [bitAt_and_not_mask (h.word_lt t), h.bits]
    constructor
    · rintro ⟨hne, u, hu, rfl⟩
      exact ⟨u, Finset.mem_erase.mpr ⟨fun he => hne (by rw [he]), hu⟩, rfl⟩
    · rintro ⟨u, hu, rfl⟩
      obtain ⟨hne, hu⟩ := Finset.mem_erase.mp hu
      exact ⟨fun he => hne (Fin.ext he), u, hu, rfl⟩
  · simp [h.size, Finset.card_erase_of_mem ht]

end

/-! ### Listing -/

/-- `find` moves the cursor to the next set bit, and to -1 when there is none. -/
theorem find_cases (h : v.Holds S) (hlast : v.lastPos < 2 ^ 31) :
    (∃ t ∈ S, v.lastPos < toSInt32 t ∧ (∀ u ∈ S, v.lastPos < toSInt32 u → t ≤ u) ∧
      v.find = (toSInt32 t, { v with lastPos := toSInt32 t })) ∨
    ((∀ u ∈ S, toSInt32 u ≤ v.lastPos) ∧ v.find = (-1, { v with lastPos := -1 })) := by
  have hcount : (v.capacity + 64 - 1) >>> 6 = (N + 63) / 64 := by rw [shift_eq, h.capacity]; rfl
  unfold find
  rw [hcount]
  dsimp only
  generalize hw : (if v.lastPos = -1 then 0 else v.lastPos.toNat >>> 6) = windex
  -- the positions below the first word visited are not after the cursor
  have hskip : ∀ j < 64 * windex, ¬ (v.lastPos < toSInt32 j ∧ bitAt v.words j = true) := by
    rintro j hj ⟨hlt, -⟩
    split at hw
    · omega
    · rw [shift_eq] at hw
      rw [toSInt32_eq (by omega)] at hlt
      omega
  have hword : ∀ i, FirstIn (fun j => v.lastPos < toSInt32 j ∧ bitAt v.words j = true) (64 * i)
      (64 * (i + 1)) (scanWord v.lastPos (v.words.getD i 0) (64 * i)) := by
    intro i
    refine (scans_scanWord (v.words.getD i 0) (64 * i)).congr fun j hj hj' => ?_
    rw [bitAt, show j / 64 = i by omega, show j % 64 = j - 64 * i by omega]
  have hmono : Monotone fun i => 64 * i := fun a b hab => Nat.mul_le_mul_left 64 hab
  have hfirst := firstIn_findSome? hmono (a := windex) (k := (N + 63) / 64 - windex)
    fun i _ _ => hword i
  replace hfirst := hfirst.extend (Nat.zero_le _) hskip
  generalize findSome? _ _ = r at hfirst ⊢
  cases r with
  | none =>
    right
    refine ⟨fun u hu => ?_, rfl⟩
    have hu' := hfirst u (Nat.zero_le _) (by have := u.isLt; omega)
    exact not_lt.mp fun hlt => hu' ⟨hlt, h.bitAt_iff.mpr hu⟩
  | some i =>
    left
    obtain ⟨-, ⟨hlast, hset⟩, hmin⟩ := hfirst
    obtain ⟨t, ht, rfl⟩ := (h.bits i).mp hset
    refine ⟨t, ht, hlast, fun u hu hlt => not_lt.mp fun hut => ?_, rfl⟩
    exact hmin u (Nat.zero_le _) hut ⟨hlt, h.bitAt_iff.mpr hu⟩

theorem find_eq (h : v.Holds S) (hN : N ≤ 2 ^ 31) (hlast : v.lastPos < 2 ^ 31) :
    (∃ t ∈ S, v.lastPos < tileId t ∧ (∀ u ∈ S, v.lastPos < tileId u → t ≤ u) ∧
      v.find = (tileId t, { v with lastPos := tileId t })) ∨
    ((∀ u ∈ S, tileId u ≤ v.lastPos) ∧ v.find = (-1, { v with lastPos := -1 })) := by
  have hid : ∀ u : Fin N, toSInt32 u = tileId u := fun u => toSInt32_eq (u.isLt.trans_le hN)
  simpa only [hid] using h.find_cases hlast

theorem tileId_lt (hN : N ≤ 2 ^ 31) (t : Fin N) : tileId t < 2 ^ 31 := by
  unfold tileId
  omega

theorem moved (h : v.Holds S) (p : ℤ) : Holds { v with lastPos := p } S :=
  ⟨h.capacity, h.length, h.bits, h.size⟩

/-- The sharers after a position, in increasing order. -/
def after (S : Finset (Fin N)) (p : ℤ) : List (Fin N) :=
  bitList fun t => decide (t ∈ S ∧ p < tileId t)

theorem mem_after {p : ℤ} : t ∈ after S p ↔ t ∈ S ∧ p < tileId t := by
  simp [after, mem_bitList]

theorem sorted_bitList (b : Fin N → Bool) : (bitList b).Pairwise (· < ·) :=
  (pairwise_lt_finRange N).filter _

theorem after_eq_cons {p : ℤ} (ht : t ∈ S) (hlt : p < tileId t)
    (hmin : ∀ u ∈ S, p < tileId u → t ≤ u) : after S p = t :: after S (tileId t) := by
  have hcons : (t :: after S (tileId t)).Pairwise (· < ·) := by
    refine pairwise_cons.mpr ⟨fun u hu => ?_, sorted_bitList _⟩
    have := (mem_after.mp hu).2
    simpa [tileId] using this
  refine List.Perm.eq_of_pairwise' (sorted_bitList _) hcons ?_
  refine (perm_ext_iff_of_nodup (nodup_bitList _) (hcons.imp ne_of_lt)).mpr fun u => ?_
  change u ∈ after S p ↔ u ∈ t :: after S (tileId t)
  simp only [mem_after, mem_cons]
  constructor
  · rintro ⟨hu, hpu⟩
    rcases (hmin u hu hpu).eq_or_lt with rfl | hlt'
    · exact .inl rfl
    · exact .inr ⟨hu, by simpa [tileId] using hlt'⟩
  · rintro (rfl | ⟨hu, hlt'⟩)
    · exact ⟨ht, hlt⟩
    · exact ⟨hu, hlt.trans hlt'⟩

theorem after_eq_nil {p : ℤ} (hall : ∀ u ∈ S, tileId u ≤ p) : after S p = [] :=
  eq_nil_iff_forall_not_mem.mpr fun u hu =>
    absurd (mem_after.mp hu).2 (not_lt.mpr (hall u (mem_after.mp hu).1))

theorem after_start : after S (-1) = bitList fun t => decide (t ∈ S) := by
  unfold after
  congr 1
  funext t
  have : -1 < tileId t := by unfold tileId; omega
  simp [this]

theorem collect_eq (h : v.Holds S) (hN : N ≤ 2 ^ 31) (hlast : v.lastPos < 2 ^ 31) {room : ℕ} (hroom : (after S v.lastPos).length ≤ room) :
    collect room v = .ok ((after S v.lastPos).map tileId, { v with lastPos := -1 }) := by
  induction room generalizing v with
  | zero =>
    unfold collect
    rcases h.find_eq hN hlast with ⟨t, ht, hlt, hmin, hf⟩ | ⟨hall, hf⟩
    · rw [after_eq_cons ht hlt hmin] at hroom
      simp at hroom
    · rw [hf, after_eq_nil hall]
      rfl
  | succ room ih =>
    unfold collect
    rcases h.find_eq hN hlast with ⟨t, ht, hlt, hmin, hf⟩ | ⟨hall, hf⟩
    · have hne : tileId t ≠ -1 := by unfold tileId; omega
      rw [after_eq_cons ht hlt hmin] at hroom ⊢
      have hrest := ih (h.moved (tileId t)) (tileId_lt hN t) (by simpa using hroom)
      simp [hf, hne, hrest]
    · rw [hf, after_eq_nil hall]
      rfl

/-- A listing is complete, in order and without repetition, and rewinds the cursor. -/
theorem getSharersList_eq (h : v.Holds S) (hN : N ≤ 2 ^ 31) : v.getSharersList =
    .ok ((bitList fun t => decide (t ∈ S)).map tileId, v.resetFind) := by
  have hlen : (bitList fun t => decide (t ∈ S)).length = v.size := by
    rw [h.size]
    exact length_bitList_of_iff (by simp)
  have hroom : (after S v.resetFind.lastPos).length ≤ v.size := by
    simp only [BitVector.resetFind, after_start, hlen, le_refl]
  have hcollect := h.resetFind.collect_eq hN (lastPos_resetFind v) hroom
  simp only [BitVector.resetFind, after_start] at hcollect
  simp [BitVector.getSharersList, BitVector.resetFind, hcollect, hlen]

/-- Each position found is higher than the last one, so the loop ends, also with positions that do not
fit in 31 bits. -/
theorem collect_ok (h : v.Holds S) (hlast : v.lastPos < 2 ^ 31) {room : ℕ}
    (hroom : (S.filter fun t : Fin N => v.lastPos < toSInt32 t).card ≤ room) :
    ∃ l, collect room v = .ok (l, { v with lastPos := -1 }) ∧ l.length ≤ room := by
  induction room generalizing v with
  | zero =>
    unfold collect
    rcases h.find_cases hlast with ⟨t, ht, hlt, -⟩ | ⟨-, hf⟩
    · have hmem : t ∈ S.filter fun u : Fin N => v.lastPos < toSInt32 u := by simp [ht, hlt]
      have hpos := Finset.card_pos.mpr ⟨t, hmem⟩
      omega
    · exact ⟨[], by rw [hf]; rfl, le_rfl⟩
  | succ room ih =>
    unfold collect
    rcases h.find_cases hlast with ⟨t, ht, hlt, -, hf⟩ | ⟨-, hf⟩
    · rw [hf]
      dsimp only
      split
      · next hend => exact ⟨[], by rw [hend]; rfl, Nat.zero_le _⟩
      · have hless : (S.filter fun u : Fin N => toSInt32 t < toSInt32 u) ⊂
            S.filter fun u : Fin N => v.lastPos < toSInt32 u := by
          refine Finset.ssubset_iff_of_subset (fun u hu => ?_) |>.mpr ⟨t, by simp [ht, hlt], by simp⟩
          simp only [Finset.mem_filter] at hu ⊢
          exact ⟨hu.1, hlt.trans hu.2⟩
        have hrest := Nat.le_of_lt_succ ((Finset.card_lt_card hless).trans_le hroom)
        have hlow := toSInt32_lt t.val
        generalize toSInt32 t = pos at hrest hlow ⊢
        obtain ⟨l, hl, hlen⟩ := ih (h.moved pos) hlow hrest
        exact ⟨pos :: l, by simp [hl], by simpa using hlen⟩
    · exact ⟨[], by rw [hf]; rfl, Nat.zero_le _⟩

theorem getSharersList_ok (h : v.Holds S) :
    ∃ l, v.getSharersList = .ok (l, v.resetFind) ∧ l.length = S.card := by
  have hroom := Finset.card_filter_le S fun t : Fin N => v.resetFind.lastPos < toSInt32 t
  obtain ⟨l, hl, hlen⟩ := h.resetFind.collect_ok (lastPos_resetFind v) hroom
  refine ⟨l ++ replicate (v.size - l.length) 0, ?_, ?_⟩
  · rw [BitVector.getSharersList, h.size, hl]
    rfl
  · simp only [length_append, length_replicate, h.size]
    omega

theorem resetFind_eq {v' : BitVector} (h : v.Holds S) (h' : v'.Holds S) : v.resetFind = v'.resetFind := by
  have hwords : v.words = v'.words := by
    refine ext_getElem (h.length.trans h'.length.symm) fun i hi hi' => ?_
    refine BitVec.eq_of_getLsbD_eq fun j hj => ?_
    have hbit : bitAt v.words (64 * i + j) = bitAt v'.words (64 * i + j) := by
      rw [Bool.eq_iff_iff, h.bits, h'.bits]
    have hdiv : (64 * i + j) / 64 = i := by omega
    have hmod : (64 * i + j) % 64 = j := by omega
    simpa [bitAt, hdiv, hmod, hi, hi'] using hbit
  simp only [BitVector.resetFind, h.capacity, h'.capacity, h.size, h'.size, hwords]

theorem finds_eq (h : v.Holds S) (hN : N ≤ 2 ^ 31) (hlast : v.lastPos < 2 ^ 31) {l : List (Fin N)}
    (hl : after S v.lastPos = l) : finds (l.length + 1) v = l.map tileId ++ [-1] := by
  induction l generalizing v with
  | nil =>
    rcases h.find_eq hN hlast with ⟨t, ht, hlt, hmin, -⟩ | ⟨-, hf⟩
    · rw [after_eq_cons ht hlt hmin] at hl
      cases hl
    · simp [finds, hf]
  | cons u l ih =>
    rcases h.find_eq hN hlast with ⟨t, ht, hlt, hmin, hf⟩ | ⟨hall, -⟩
    · rw [after_eq_cons ht hlt hmin, cons.injEq] at hl
      obtain ⟨rfl, hl⟩ := hl
      have hrest := ih (h.moved (tileId t)) (tileId_lt hN t) hl
      rw [length_cons, finds, hf]
      exact congrArg (tileId t :: ·) hrest
    · rw [after_eq_nil hall] at hl
      cases hl

end Holds

/-! ### Calls -/

inductive Call (N : ℕ)
  | set (t : Fin N)
  | clear (t : Fin N)

def Call.run (v : BitVector) : Call N → Except Fault BitVector
  | .set t => v.set t
  | .clear t => v.clear t

/-- The positions that are set after a call. -/
def Call.apply (S : Finset (Fin N)) : Call N → Finset (Fin N)
  | .set t => insert t S
  | .clear t => S.erase t

theorem Holds.call (h : v.Holds S) (c : Call N) : ∃ v', c.run v = .ok v' ∧ v'.Holds (c.apply S) := by
  cases c with
  | set t => exact h.set
  | clear t =>
    by_cases ht : t ∈ S
    · exact h.clear ht
    · exact ⟨v, h.clear_absent ht, by rwa [Call.apply, Finset.erase_eq_of_notMem ht]⟩

theorem Holds.calls (h : v.Holds S) (cs : List (Call N)) :
    ∃ v', cs.foldlM Call.run v = .ok v' ∧ v'.Holds (cs.foldl Call.apply S) := by
  induction cs generalizing v S with
  | nil => exact ⟨v, rfl, h⟩
  | cons c cs ih =>
    obtain ⟨v₁, hv₁, h₁⟩ := h.call c
    obtain ⟨v₂, hv₂, h₂⟩ := ih h₁
    exact ⟨v₂, by rw [foldlM_cons, hv₁, ok_bind, hv₂], h₂⟩

/-- After any calls, the search from the start returns the positions that are set in increasing
order and then -1, and their number is on record. -/
theorem find_enumerates (N : ℕ) (hN : N ≤ 2 ^ 31) (cs : List (Call N)) :
    ∃ v, ∃ l : List (Fin N), cs.foldlM Call.run (create N) = .ok v ∧ l.Pairwise (· < ·) ∧
      (∀ t, t ∈ l ↔ t ∈ cs.foldl Call.apply ∅) ∧ v.size = l.length ∧
      finds (l.length + 1) v.resetFind = l.map tileId ++ [-1] := by
  obtain ⟨v, hv, h⟩ := holds_create.calls cs
  refine ⟨v, bitList fun t => decide (t ∈ cs.foldl Call.apply ∅), hv, Holds.sorted_bitList _,
    by simp [mem_bitList], ?_, h.resetFind.finds_eq hN (lastPos_resetFind v) Holds.after_start⟩
  rw [h.size]
  exact (length_bitList_of_iff (by simp)).symm

/-- On 100 bits, with two set and one of them cleared again. -/
theorem find_enumerates_hundred : ∃ v, ∃ l : List (Fin 100),
    ([.set 70, .set 3, .clear 70] : List (Call 100)).foldlM Call.run (create 100) = .ok v ∧
      (∀ t, t ∈ l ↔ t = 3) ∧ finds (l.length + 1) v.resetFind = l.map tileId ++ [-1] := by
  obtain ⟨v, l, hv, -, hmem, -, hfinds⟩ :=
    find_enumerates 100 (by decide) [.set 70, .set 3, .clear 70]
  exact ⟨v, l, hv, fun t => (hmem t).trans (by revert t; decide), hfinds⟩

/-- Position `2 ^ 31` is set, but as an `int` it is negative, and not found. -/
theorem high_bit_lost : ∃ v, ([.set 2147483648] : List (Call (2 ^ 31 + 64))).foldlM Call.run
    (create (2 ^ 31 + 64)) = .ok v ∧ v.size = 1 ∧ finds 1 v.resetFind = [-1] := by
  obtain ⟨v, hv, h⟩ := (holds_create (N := 2 ^ 31 + 64)).calls [.set 2147483648]
  refine ⟨v, hv, h.size, ?_⟩
  rcases h.resetFind.find_cases (lastPos_resetFind v) with ⟨t, ht, hlt, -⟩ | ⟨-, hf⟩
  · obtain rfl : t = 2147483648 := by simpa [Call.apply] using ht
    have hlt : (-1 : ℤ) < toSInt32 2147483648 := hlt
    exact absurd hlt (by decide)
  · simp [finds, hf]

end BitVector

end Graphite
