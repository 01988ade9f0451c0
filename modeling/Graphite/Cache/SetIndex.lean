import Graphite.Cache.Compressed
import Mathlib.Data.Nat.Bitwise
import Mathlib.Data.Set.Function

/-! # Set indices

Directories and shared L2 caches number their sets by combining the groups of bits of an address
above the offset. The lowest group is the lowest part of the line number, so neighbouring lines go
to different sets. With a single set the groups are empty: the hash of the L2 cache leaves this case
out, while the loop of the directory does not advance.
-/

namespace Graphite.Cache

section Log

variable {n : ℕ}

theorem log_lt (h : n < 2 ^ 32) : (floorLog2 n).toNat < 32 := by
  rcases Nat.eq_zero_or_pos n with rfl | hn
  · decide
  · exact (Nat.pow_lt_pow_iff_right (by decide)).mp ((two_pow_floorLog2_le hn).trans_lt h)

end Log

/-! ## The directory -/

/-- What a directory cache is built from, on 32 bits: as many entries as `associativity` times a
power of two. -/
structure DirectorySize where
  cacheLineSize : ℕ
  numDirectorySlices : ℕ
  associativity : ℕ
  totalEntries : ℕ
  line_pos : 0 < cacheLineSize
  line_lt : cacheLineSize < 2 ^ 32
  slices_pos : 0 < numDirectorySlices
  slices_lt : numDirectorySlices < 2 ^ 32
  associativity_pos : 0 < associativity
  entries_lt : totalEntries < 2 ^ 32
  power : ∃ k, totalEntries = associativity * 2 ^ k

namespace DirectorySize

variable (d : DirectorySize)

def numSets : ℕ := d.totalEntries / d.associativity

def logNumSets : ℕ := (floorLog2 d.numSets).toNat

def ceilLog2 (n : ℕ) : ℤ := floorLog2 (n - 1) + 1

/-- The loop from bit `i` on; there is no result if it has not ended after so many rounds. -/
def setIndexLoop (log address : ℕ) : ℕ → ℕ → ℕ → Option ℕ
  | 0, _, _ => none
  | rounds + 1, i, set =>
    if i + log ≤ 64 then
      setIndexLoop log address rounds (i + log) (set ^^^ getBits address (i + log) i)
    else some (set % 2 ^ 32)

def computeSetIndex (address rounds : ℕ) : Option ℕ :=
  setIndexLoop d.logNumSets address rounds
    ((floorLog2 d.cacheLineSize).toNat + (ceilLog2 d.numDirectorySlices).toNat) 0

variable {log address rounds i set : ℕ}

theorem setIndexLoop_ends (hlog : 0 < log) (hset : set < 2 ^ log) (h : 64 < i + rounds) :
    ∃ r, setIndexLoop log address (rounds + 1) i set = some r ∧ r < 2 ^ log := by
  induction rounds generalizing i set with
  | zero => exact ⟨_, if_neg (by omega), (Nat.mod_le _ _).trans_lt hset⟩
  | succ rounds ih =>
    unfold setIndexLoop
    split
    · exact ih (Nat.xor_lt_two_pow hset (getBits_lt address i)) (by omega)
    · exact ⟨_, rfl, (Nat.mod_le _ _).trans_lt hset⟩

theorem setIndexLoop_zero (h : i ≤ 64) : setIndexLoop 0 address rounds i set = none := by
  induction rounds generalizing set with
  | zero => rfl
  | succ rounds ih => exact (if_pos h).trans ih

theorem numSets_eq : ∃ k < 32, d.numSets = 2 ^ k ∧ d.logNumSets = k := by
  obtain ⟨k, hk⟩ := d.power
  have hsets : d.numSets = 2 ^ k := by
    rw [numSets, hk, Nat.mul_div_cancel_left _ d.associativity_pos]
  have hlt : k < 32 := by
    apply (Nat.pow_lt_pow_iff_right (a := 2) (by decide)).mp
    exact (Nat.le_mul_of_pos_left _ d.associativity_pos).trans_lt (hk ▸ d.entries_lt)
  exact ⟨k, hlt, hsets, by rw [logNumSets, hsets, floorLog2_two_pow hlt]; rfl⟩

/-- The index is computed, and belongs to a set, exactly if there is more than one set. -/
theorem set_index_iff (address : ℕ) :
    (∃ rounds r, d.computeSetIndex address rounds = some r ∧ r < d.numSets) ↔ d.numSets ≠ 1 := by
  obtain ⟨k, -, hsets, hlog⟩ := d.numSets_eq
  have hline := log_lt d.line_lt
  have hslices := log_lt ((Nat.sub_le d.numDirectorySlices 1).trans_lt d.slices_lt)
  simp only [computeSetIndex, hlog, hsets]
  constructor
  · rintro ⟨rounds, r, hr, -⟩ h1
    obtain rfl : k = 0 := by simpa using h1
    rw [setIndexLoop_zero (by unfold ceilLog2; omega)] at hr
    cases hr
  · intro hne
    have hk : 0 < k := Nat.pos_of_ne_zero fun h0 => hne (by rw [h0]; rfl)
    exact ⟨66, setIndexLoop_ends hk (Nat.two_pow_pos k) (by omega)⟩

/-- A directory with a single set of 16 entries. -/
theorem single_set_loops : ¬ ∃ rounds r, (⟨64, 1, 16, 16, by decide, by decide, by decide, by decide,
    by decide, by decide, 0, rfl⟩ : DirectorySize).computeSetIndex 0 rounds = some r := by
  rintro ⟨rounds, r, h⟩
  rw [computeSetIndex, show logNumSets _ = 0 from rfl, setIndexLoop_zero (by decide)] at h
  cases h

end DirectorySize

/-! ## The shared L2 cache -/

theorem foldl_xor {f : ℕ → ℕ} {s : ℕ} {l : List ℕ} :
    l.foldl (fun set i => set ^^^ f i) s = s ^^^ l.foldl (fun set i => set ^^^ f i) 0 := by
  induction l generalizing s with
  | nil => exact (Nat.xor_zero s).symm
  | cons i l ih =>
    rw [List.foldl_cons, List.foldl_cons, ih, ih (s := 0 ^^^ f i), Nat.zero_xor, Nat.xor_assoc]

namespace Params

variable {p : Params} {k line off : ℕ}

/-- An address of a line without the lowest `i` bits. -/
theorem shiftRight_add (hoff : off < 2 ^ p.logLineSize) (i : ℕ) :
    (line * 2 ^ p.logLineSize + off) >>> (p.logLineSize + i) = line >>> i := by
  rw [Nat.shiftRight_add, Nat.shiftRight_eq_div_pow _ p.logLineSize, Nat.mul_comm,
    Nat.mul_add_div (Nat.two_pow_pos _), Nat.div_eq_of_lt hoff, Nat.add_zero]

theorem getBits_line (hoff : off < 2 ^ p.logLineSize) (i : ℕ) :
    getBits (line * 2 ^ p.logLineSize + off) (p.logLineSize + i + k) (p.logLineSize + i) =
      (line >>> i) % 2 ^ k := by
  rw [getBits, shiftRight_add hoff, Nat.add_sub_cancel_left, Nat.and_two_pow_sub_one_eq_mod]

section Sets

variable (hline : p.lineSize < 2 ^ 32) (hk : k < 32) (hsets : p.numSets = 2 ^ k)
include hline hk hsets

/-- The set of a line is its lowest part, changed by the set of the first line of its block. -/
theorem l2SetNum_eq (hoff : off < 2 ^ p.logLineSize) : p.l2SetNum (line * 2 ^ p.logLineSize + off) =
      line % 2 ^ k ^^^ p.l2SetNum (line / 2 ^ k * 2 ^ k * 2 ^ p.logLineSize + 0) := by
  have hlog : (floorLog2 p.numSets).toNat = k := by rw [hsets, floorLog2_two_pow hk]; rfl
  have hlt : p.logLineSize < 32 := log_lt hline
  unfold l2SetNum
  dsimp only
  rw [hlog]
  split
  · next h0 => rw [h0, Nat.pow_zero, Nat.mod_one]; rfl
  · rw [show List.range 64 = 0 :: (List.range 63).map Nat.succ from List.range_succ_eq_map,
      List.map_cons, List.filter_cons_of_pos (by simp; omega), List.foldl_cons, List.foldl_cons,
      foldl_xor, foldl_xor (s := 0 ^^^ _), Nat.zero_xor, Nat.zero_xor, Nat.zero_mul,
      getBits_line hoff, getBits_line (Nat.two_pow_pos _), Nat.shiftRight_zero,
      Nat.shiftRight_zero, Nat.mul_mod_left, Nat.zero_xor]
    congr 1
    -- the other groups belong to the number of the block
    apply List.foldl_ext
    intro set i hi
    rw [List.map_map] at hi
    obtain ⟨j, -, rfl⟩ := List.mem_map.mp (List.mem_of_mem_filter hi)
    have hblock : ∀ n : ℕ, n >>> (j.succ * k) = (n / 2 ^ k) >>> (j * k) := fun n => by
      rw [Nat.succ_mul, Nat.add_comm, Nat.shiftRight_add, Nat.shiftRight_eq_div_pow n]
    dsimp only [Function.comp_apply]
    rw [getBits_line hoff, getBits_line (Nat.two_pow_pos _), hblock, hblock,
      Nat.mul_div_cancel _ (Nat.two_pow_pos k)]

/-- A block of as many lines as there are sets goes to the sets one-to-one. -/
theorem l2SetNum_bijOn (hoff : off < 2 ^ p.logLineSize) (b : ℕ) :
    Set.BijOn (fun line => p.l2SetNum (line * 2 ^ p.logLineSize + off))
      (Set.Ico (b * 2 ^ k) (b * 2 ^ k + 2 ^ k)) (Set.Iio (2 ^ k)) := by
  have hpos := Nat.two_pow_pos k
  have hlt : ∀ a, p.l2SetNum a < 2 ^ k := fun a => hsets ▸ l2SetNum_lt (hsets ▸ hpos) a
  have hblock : ∀ r < 2 ^ k, p.l2SetNum ((b * 2 ^ k + r) * 2 ^ p.logLineSize + off) =
      r ^^^ p.l2SetNum (b * 2 ^ k * 2 ^ p.logLineSize + 0) := by
    intro r hr
    have hdiv : (b * 2 ^ k + r) / 2 ^ k = b := by
      rw [Nat.mul_comm, Nat.mul_add_div hpos, Nat.div_eq_of_lt hr, Nat.add_zero]
    rw [l2SetNum_eq hline hk hsets hoff, hdiv, Nat.mul_add_mod', Nat.mod_eq_of_lt hr]
  have hsplit : ∀ line ∈ Set.Ico (b * 2 ^ k) (b * 2 ^ k + 2 ^ k), ∃ r < 2 ^ k, line = b * 2 ^ k + r :=
    fun line h => ⟨line - b * 2 ^ k, by have := h.2; omega, by have := h.1; omega⟩
  refine ⟨fun line _ => hlt _, ?_, ?_⟩
  · intro line h line' h' heq
    obtain ⟨r, hr, rfl⟩ := hsplit line h
    obtain ⟨r', hr', rfl⟩ := hsplit line' h'
    dsimp only at heq
    rw [hblock r hr, hblock r' hr'] at heq
    rw [← Nat.xor_xor_cancel_right r, heq, Nat.xor_xor_cancel_right]
  · intro set hset
    have hr := Nat.xor_lt_two_pow hset (hlt (b * 2 ^ k * 2 ^ p.logLineSize + 0))
    refine ⟨_, ⟨Nat.le_add_right _ _, Nat.add_lt_add_left hr _⟩, ?_⟩
    dsimp only
    rw [hblock _ hr, Nat.xor_assoc, Nat.xor_self, Nat.xor_zero]

end Sets

/-- Every address has a set, and a block of as many lines as there are sets goes to the sets
one-to-one. -/
theorem set_hash_one_to_one (p : Params) (hline : 0 < p.lineSize ∧ p.lineSize < 2 ^ 32)
    (hsets : p.numSets < 2 ^ 32 ∧ ∃ k, p.numSets = 2 ^ k) :
    (∀ a, p.l2SetNum a < p.numSets) ∧ ∀ b off, off < 2 ^ p.logLineSize →
      Set.BijOn (fun line => p.l2SetNum (line * 2 ^ p.logLineSize + off))
        (Set.Ico (b * p.numSets) (b * p.numSets + p.numSets)) (Set.Iio p.numSets) := by
  obtain ⟨hlt, k, hk⟩ := hsets
  have hk' : k < 32 := (Nat.pow_lt_pow_iff_right (a := 2) (by decide)).mp (hk ▸ hlt)
  constructor
  · exact l2SetNum_lt (hk ▸ Nat.two_pow_pos k)
  · intro b off hoff
    rw [hk]
    exact l2SetNum_bijOn hline.2 hk' hk hoff b

theorem set_hash_one_to_one_four : Set.BijOn
    (fun line => (⟨64, 4, false, false⟩ : Params).l2SetNum (line * 2 ^ 6 + 5))
    (Set.Ico (3 * 4) (3 * 4 + 4)) (Set.Iio 4) :=
  (set_hash_one_to_one ⟨64, 4, false, false⟩ (by decide) ⟨by decide, 2, rfl⟩).2 3 5 (by decide)

end Params

end Graphite.Cache
