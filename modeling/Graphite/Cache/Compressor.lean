import Graphite.Base
import Mathlib.Data.BitVec
import Mathlib.Logic.Function.Basic
import Mathlib.Tactic.IntervalCases

/-! # The dictionary of the compressor

A word is compressed by its match with the keys of a dictionary: the whole word, its upper three bytes
or its upper half. A word without a match becomes a key with its two prefixes, so the keys are closed
under prefixes, and the lookup of a prefix finds every key that shares it.
-/

namespace Graphite.Compression

abbrev Word := BitVec 32

/-- The word with its low byte cleared, and the word with its low half cleared. -/
def clearByte (dword : Word) : Word := dword &&& ~~~0xff

def clearHalf (dword : Word) : Word := dword &&& ~~~0xffff

/-- The keys, with the number of matches. -/
abbrev Dictionary := Word → Option Word

namespace Dictionary

def empty : Dictionary := fun _ => none

variable (d : Dictionary)

def Key (k : Word) : Prop := d k ≠ none

instance (k : Word) : Decidable (d.Key k) := inferInstanceAs (Decidable (_ ≠ _))

/-- A new key with one match; a key that is there stays as it is. -/
def insert (k : Word) : Dictionary :=
  if d.Key k then d else Function.update d k (some 1)

def count (k : Word) : Dictionary := Function.update d k ((d k).map (· + 1))

def insertMasked (k : Word) : Dictionary :=
  if ¬ d.Key k then if k ≠ 0 then d.insert k else d else d

end Dictionary

/-- The dictionary afterwards and the bits of the compressed word. -/
def compress (d : Dictionary) (dword : Word) : Dictionary × ℕ :=
  if dword = 0 then (d, 2)
  else if clearByte dword = 0 then (d, 12)
  else if d.Key dword then (d.count dword, 6)
  else if d.Key (clearByte dword) then (d.count (clearByte dword), 16)
  else if d.Key (clearHalf dword) then (d.count (clearHalf dword), 24)
  else
    let d := d.insert dword
    let d := if dword &&& 0xff ≠ 0 then d.insertMasked (clearByte dword) else d
    let d := if dword &&& 0xff00 ≠ 0 then d.insertMasked (clearHalf dword) else d
    (d, 34)

/-- The words of a line, least significant byte first. -/
def dword (line : LineData) (i : ℕ) : Word :=
  (line (4 * i + 3)).toBitVec ++ (line (4 * i + 2)).toBitVec ++ (line (4 * i + 1)).toBitVec ++
    (line (4 * i)).toBitVec

/-- Compresses one word after the other and adds up the bits. -/
def compressWords (d : Dictionary) : List Word → Dictionary × ℕ
  | [] => (d, 0)
  | w :: ws =>
    let (d, bits) := compress d w
    let (d, rest) := compressWords d ws
    (d, bits + rest)

/-- The size of a compressed line in bytes, from 1 to 64. -/
def compressLine (d : Dictionary) (line : LineData) : Dictionary × ℕ :=
  let (d, bits) := compressWords d ((List.range 16).map (dword line))
  let size := bits / 8
  let size := if size = 0 then 1 else size
  (d, if size > 64 then 64 else size)

/-! ## Bits -/

section Bits

variable {w k : Word}

theorem and_not_of_and_eq_zero {m : Word} (h : w &&& m = 0) : w &&& ~~~m = w := by
  have hw : w = w &&& m ||| w &&& ~~~m := by
    rw [← BitVec.and_or_distrib_left, BitVec.or_not_self, BitVec.and_allOnes]
  rw [h] at hw
  exact (hw.trans BitVec.zero_or).symm

theorem clearByte_of_low (h : w &&& 0xff = 0) : clearByte w = w := and_not_of_and_eq_zero h

theorem clearHalf_of_low (h : w &&& 0xff00 = 0) : clearHalf w = clearByte w := by
  have hm : ~~~(0xff : Word) = 0xff00 ||| ~~~0xffff := by decide
  rw [clearByte, hm, BitVec.and_or_distrib_left, h]
  exact BitVec.zero_or.symm

@[simp] theorem clearByte_clearByte : clearByte (clearByte w) = clearByte w := by
  rw [clearByte, clearByte, BitVec.and_assoc, BitVec.and_self]

@[simp] theorem clearHalf_clearByte : clearHalf (clearByte w) = clearHalf w := by
  rw [clearHalf, clearHalf, clearByte, BitVec.and_assoc]
  rfl

@[simp] theorem clearByte_clearHalf : clearByte (clearHalf w) = clearHalf w := by
  rw [clearByte, clearHalf, BitVec.and_assoc]
  rfl

@[simp] theorem clearHalf_clearHalf : clearHalf (clearHalf w) = clearHalf w := by
  rw [clearHalf, clearHalf, BitVec.and_assoc, BitVec.and_self]

-- cleared bits are shifted out and in again, and arithmetic takes over
theorem clearByte_eq (w : Word) : clearByte w = (w >>> 8) <<< 8 := by
  apply BitVec.eq_of_getLsbD_eq
  intro i hi
  interval_cases i <;> simp [clearByte]

theorem clearHalf_eq (w : Word) : clearHalf w = (w >>> 16) <<< 16 := by
  apply BitVec.eq_of_getLsbD_eq
  intro i hi
  interval_cases i <;> simp [clearHalf]

theorem clearByte_eq_iff : clearByte k = clearByte w ↔ k >>> 8 = w >>> 8 := by
  rw [clearByte_eq, clearByte_eq]
  bv_omega

theorem clearHalf_eq_iff : clearHalf k = clearHalf w ↔ k >>> 16 = w >>> 16 := by
  rw [clearHalf_eq, clearHalf_eq]
  bv_omega

theorem clearHalf_ne_zero (h : w >>> 16 ≠ 0) : clearHalf w ≠ 0 := by
  rw [clearHalf_eq]
  bv_omega

theorem large_of_clearByte (h : clearByte w ≠ 0) : 0xff < w := by
  rw [clearByte_eq] at h
  bv_omega

theorem clearByte_ne_zero (h : clearHalf w ≠ 0) : clearByte w ≠ 0 := by
  rw [clearHalf_eq] at h
  rw [clearByte_eq]
  bv_omega

end Bits

/-! ## Closed dictionaries -/

section Keys

variable {d : Dictionary} {k w : Word} {d' : Dictionary}

theorem key_insert : (d.insert w).Key k ↔ k = w ∨ d.Key k := by
  unfold Dictionary.insert
  split
  · next hw => exact ⟨.inr, fun h => h.elim (fun hk => hk ▸ hw) id⟩
  · rcases eq_or_ne k w with rfl | hk
    · simp [Dictionary.Key]
    · simp [Dictionary.Key, hk]

theorem key_insertMasked : (d.insertMasked w).Key k ↔ (k = w ∧ w ≠ 0) ∨ d.Key k := by
  unfold Dictionary.insertMasked
  split
  · split
    · next h0 =>
      rw [key_insert]
      exact or_congr_left (and_iff_left h0).symm
    · next h0 => exact ⟨.inr, fun h => h.elim (fun hk => absurd hk.2 h0) id⟩
  · next hw =>
    have hw : d.Key w := not_not.mp hw
    exact ⟨.inr, fun h => h.elim (fun hk => hk.1 ▸ hw) id⟩

@[simp] theorem key_count : (d.count w).Key k ↔ d.Key k := by
  rcases eq_or_ne k w with rfl | hk
  · simp [Dictionary.Key, Dictionary.count]
  · simp [Dictionary.Key, Dictionary.count, hk]

/-- The keys exceed `0xff`, and their prefixes are keys or zero. -/
structure Closed (d : Dictionary) : Prop where
  large : ∀ k, d.Key k → 0xff < k
  byte : ∀ k, d.Key k → clearByte k ≠ 0 → d.Key (clearByte k)
  half : ∀ k, d.Key k → clearHalf k ≠ 0 → d.Key (clearHalf k)

theorem closed_empty : Closed .empty where
  large _ hk := absurd rfl hk
  byte _ hk := absurd rfl hk
  half _ hk := absurd rfl hk

theorem Closed.congr (h : Closed d) (hd : ∀ k, d'.Key k ↔ d.Key k) : Closed d' where
  large k hk := h.large k ((hd k).mp hk)
  byte k hk hne := (hd _).mpr (h.byte k ((hd k).mp hk) hne)
  half k hk hne := (hd _).mpr (h.half k ((hd k).mp hk) hne)

theorem Closed.insert (h : Closed d) (hw : clearByte w ≠ 0)
    (hd : ∀ k, d'.Key k ↔ d.Key k ∨ k = w ∨ k = clearByte w ∨ k = clearHalf w ∧ clearHalf w ≠ 0) :
    Closed d' where
  large k hk := by
    rcases (hd k).mp hk with hk | rfl | rfl | ⟨rfl, h0⟩
    · exact h.large k hk
    · exact large_of_clearByte hw
    · exact large_of_clearByte (by rwa [clearByte_clearByte])
    · exact large_of_clearByte (by rwa [clearByte_clearHalf])
  byte k hk hne := by
    rw [hd]
    rcases (hd k).mp hk with hk | rfl | rfl | ⟨rfl, h0⟩
    · exact .inl (h.byte k hk hne)
    · exact .inr (.inr (.inl rfl))
    · exact .inr (.inr (.inl clearByte_clearByte))
    · exact .inr (.inr (.inr ⟨clearByte_clearHalf, h0⟩))
  half k hk hne := by
    rw [hd]
    rcases (hd k).mp hk with hk | rfl | rfl | ⟨rfl, h0⟩
    · exact .inl (h.half k hk hne)
    · exact .inr (.inr (.inr ⟨rfl, hne⟩))
    · rw [clearHalf_clearByte] at hne ⊢
      exact .inr (.inr (.inr ⟨rfl, hne⟩))
    · exact .inr (.inr (.inr ⟨clearHalf_clearHalf, h0⟩))

theorem key_compress (d : Dictionary) (w k : Word) : (compress d w).1.Key k ↔ d.Key k ∨
    (compress d w).2 = 34 ∧ clearByte w ≠ 0 ∧
      (k = w ∨ k = clearByte w ∨ k = clearHalf w ∧ clearHalf w ≠ 0) := by
  unfold compress
  split
  · simp
  split
  · simp
  next hbyte =>
  split
  · simp
  split
  · simp
  split
  · simp
  -- a prefix that is not inserted is the word, or the other prefix
  have hlow : w &&& 0xff = 0 → clearByte w = w := clearByte_of_low
  have hmid : w &&& 0xff00 = 0 → clearHalf w = clearByte w := clearHalf_of_low
  by_cases h8 : w &&& 0xff = 0 <;> by_cases h16 : w &&& 0xff00 = 0 <;>
    simp only [h8, h16, ne_eq, not_true_eq_false, not_false_eq_true, if_true, if_false, key_insert,
      key_insertMasked] <;> grind

theorem Closed.compress (h : Closed d) (w : Word) : Closed (compress d w).1 := by
  by_cases hnew : (Compression.compress d w).2 = 34 ∧ clearByte w ≠ 0
  · refine h.insert hnew.2 fun k => ?_
    rw [key_compress, and_iff_right hnew.1, and_iff_right hnew.2]
  · refine h.congr fun k => ?_
    rw [key_compress]
    exact ⟨fun hk => hk.resolve_right fun hk => hnew ⟨hk.1, hk.2.1⟩, .inl⟩

theorem key_compressWords (ws : List Word) (hk : d.Key k) : (compressWords d ws).1.Key k := by
  induction ws generalizing d with
  | nil => exact hk
  | cons w ws ih => exact ih ((key_compress d w k).mpr (.inl hk))

theorem compress_antitone (h : ∀ k, d.Key k → d'.Key k) (w : Word) :
    (compress d' w).2 ≤ (compress d w).2 := by
  have hword := h w
  have hbyte := h (clearByte w)
  have hhalf := h (clearHalf w)
  unfold compress
  split_ifs <;> simp_all

theorem compressWords_antitone {ws : List Word} (h : ∀ k, (compressWords d ws).1.Key k → d'.Key k) :
    (compressWords d' ws).2 ≤ (compressWords d ws).2 := by
  induction ws generalizing d d' with
  | nil => exact le_rfl
  | cons w ws ih =>
    have hword : (compress d' w).2 ≤ (compress d w).2 := by
      apply compress_antitone
      exact fun k hk => h k (key_compressWords (w :: ws) hk)
    have hrest : (compressWords (compress d' w).1 ws).2 ≤ (compressWords (compress d w).1 ws).2 := by
      apply ih
      exact fun k hk => (key_compress d' w k).mpr (.inl (h k hk))
    exact Nat.add_le_add hword hrest

def compressLines (d : Dictionary) (lines : List LineData) : Dictionary :=
  lines.foldl (fun d line => (compressLine d line).1) d

theorem key_compressLines (lines : List LineData) (hk : d.Key k) : (compressLines d lines).Key k := by
  induction lines generalizing d with
  | nil => exact hk
  | cons line lines ih =>
    apply ih
    exact key_compressWords ((List.range 16).map (dword line)) hk

theorem compressLine_again (d : Dictionary) (others : List LineData) (line : LineData) :
    (compressLine (compressLines (compressLine d line).1 others) line).2 ≤ (compressLine d line).2 := by
  have hbits := compressWords_antitone (d := d) fun _ hk =>
    key_compressLines (d := (compressWords d ((List.range 16).map (dword line))).1) others hk
  dsimp only [compressLine]
  grind

def dictionary (ws : List Word) : Dictionary := (compressWords .empty ws).1

theorem Closed.compressWords (h : Closed d) (ws : List Word) : Closed (compressWords d ws).1 := by
  induction ws generalizing d with
  | nil => exact h
  | cons w ws ih => exact ih (h.compress w)

theorem Closed.key_clearByte (h : Closed d) (hw : clearByte w ≠ 0) :
    d.Key (clearByte w) ↔ ∃ k, d.Key k ∧ k >>> 8 = w >>> 8 := by
  constructor
  · intro hk
    exact ⟨_, hk, clearByte_eq_iff.mp clearByte_clearByte⟩
  · rintro ⟨k, hk, he⟩
    rw [← clearByte_eq_iff] at he
    rw [← he] at hw ⊢
    exact h.byte k hk hw

theorem Closed.key_clearHalf (h : Closed d) (hw : clearHalf w ≠ 0) :
    d.Key (clearHalf w) ↔ ∃ k, d.Key k ∧ k >>> 16 = w >>> 16 := by
  constructor
  · intro hk
    exact ⟨_, hk, clearHalf_eq_iff.mp clearHalf_clearHalf⟩
  · rintro ⟨k, hk, he⟩
    rw [← clearHalf_eq_iff] at he
    rw [← he] at hw ⊢
    exact h.half k hk hw

/-- The keys after any words are closed under prefixes, and the size of a further word tells which of its
prefixes it shares with a key. -/
theorem dictionary_prefixes (ws : List Word) : Closed (dictionary ws) ∧ ∀ w : Word, w >>> 16 ≠ 0 →
    ((compress (dictionary ws) w).2 = 6 ↔ (dictionary ws).Key w) ∧
    ((compress (dictionary ws) w).2 = 16 ↔ ¬ (dictionary ws).Key w ∧
      ∃ k, (dictionary ws).Key k ∧ k >>> 8 = w >>> 8) ∧
    ((compress (dictionary ws) w).2 = 24 ↔ ¬ (dictionary ws).Key w ∧
      (¬ ∃ k, (dictionary ws).Key k ∧ k >>> 8 = w >>> 8) ∧
      ∃ k, (dictionary ws).Key k ∧ k >>> 16 = w >>> 16) ∧
    ((compress (dictionary ws) w).2 = 34 ↔ ¬ (dictionary ws).Key w ∧
      (¬ ∃ k, (dictionary ws).Key k ∧ k >>> 8 = w >>> 8) ∧
      ¬ ∃ k, (dictionary ws).Key k ∧ k >>> 16 = w >>> 16) := by
  have hclosed : Closed (dictionary ws) := closed_empty.compressWords ws
  generalize dictionary ws = d at hclosed
  refine ⟨hclosed, fun w hw => ?_⟩
  have hhalf := clearHalf_ne_zero hw
  have hbyte := clearByte_ne_zero hhalf
  have h0 : w ≠ 0 := by rintro rfl; exact hw rfl
  rw [← hclosed.key_clearByte hbyte, ← hclosed.key_clearHalf hhalf]
  unfold compress
  rw [if_neg h0, if_neg hbyte]
  by_cases h6 : d.Key w
  · simp [h6]
  by_cases h16 : d.Key (clearByte w)
  · simp [h6, h16]
  by_cases h24 : d.Key (clearHalf w)
  · simp [h6, h16, h24]
  · simp [h6, h16, h24]

/-- After the word `0x12345678` its prefixes are keys too, and a neighbour matches one of them. -/
theorem dictionary_prefixes_one : (compress (dictionary [0x12345678]) 0x12345678).2 = 6 ∧
    (compress (dictionary [0x12345678]) 0x123456ff).2 = 16 := by
  obtain ⟨-, hsize⟩ := dictionary_prefixes [0x12345678]
  refine ⟨(hsize _ (by decide)).1.mpr (by decide), (hsize _ (by decide)).2.1.mpr ?_⟩
  exact ⟨by decide, 0x12345600, by decide, by decide⟩

end Keys

end Graphite.Compression
