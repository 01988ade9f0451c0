import Graphite.PrL2.Thread
import Mathlib

/-! # Memory accesses of a core

How `Core::initiateMemoryAccess` cuts a data access into accesses to single lines, and what
`MemoryManager::__coreInitiateMemoryAccess` does with the lock of the memory manager around each of
them. Addresses are 64 bits wide and wrap around.
-/

namespace Graphite.Core

open PrL2 List

/-- A part of an operand: a line, the offset in it, and the bytes of the buffer that go there. -/
structure Piece where
  line : ℕ
  offset : ℕ
  buf : List UInt8
  deriving DecidableEq, Repr

def wrap (a : ℕ) : ℕ := a % 2 ^ 64

/-- The loop of `initiateMemoryAccess` over the lines from `line` on, for the operand from `first` up to
but not including `last`. `none` is a loop that has not ended after `fuel` rounds. -/
def splitFrom (lineSize first last : ℕ) : ℕ → ℕ → List UInt8 → Option (List Piece)
  | 0, _, _ => none
  | fuel + 1, line, buf =>
    if line ≤ last - last % lineSize then
      let offset := if line = first - first % lineSize then first % lineSize else 0
      let size := if line = last - last % lineSize then last % lineSize - offset
        else lineSize - offset
      if line = last - last % lineSize ∧ size = 0 then
        splitFrom lineSize first last fuel (wrap (line + lineSize)) buf
      else
        (⟨line, offset, buf.take size⟩ :: ·) <$>
          splitFrom lineSize first last fuel (wrap (line + lineSize)) (buf.drop size)
    else some []

/-- The pieces of an operand. An operand of `n` bytes meets at most `n + 1` lines. -/
def split (lineSize address : ℕ) (buf : List UInt8) : Option (List Piece) :=
  if buf = [] then some []
  else splitFrom lineSize address (wrap (address + buf.length)) (buf.length + 3)
    (address - address % lineSize) buf

/-- What the application thread does for an access, one step after the other. -/
inductive Op
  | acquire
  | access (acc : Access ℕ)
  | release

/-- `__coreInitiateMemoryAccess`. -/
def coreInitiateMemoryAccess (acc : Access ℕ) : List Op :=
  (if acc.lock ≠ .unlock then [.acquire] else []) ++
    .access acc :: (if acc.lock ≠ .lock then [.release] else [])

/-- `accessMemory`, an access of the core to its data cache. -/
def accessMemory (lineSize : ℕ) (signal : LockSignal) (op : MemOp) (address : ℕ) (buf : List UInt8) :
    Option (List Op) :=
  (split lineSize address buf).map fun ps => ps.flatMap fun p =>
    coreInitiateMemoryAccess ⟨.l1DCache, signal, op, p.line, p.offset, p.buf⟩

/-! ## Operands within a line -/

section Within

variable {lineSize address : ℕ} {buf : List UInt8}

/-- The operand is not empty, lies in one line, and not in the last lines of the address space. -/
structure Within (lineSize address : ℕ) (buf : List UInt8) : Prop where
  nonempty : buf ≠ []
  oneLine : address % lineSize + buf.length ≤ lineSize
  noWrap : address + buf.length + lineSize < 2 ^ 64

section

variable (h : Within lineSize address buf)
include h

theorem Within.pos : 0 < buf.length ∧ 0 < lineSize := by
  have := length_pos_iff.mpr h.nonempty
  have := h.oneLine
  omega

theorem Within.line_eq : (address + buf.length) % lineSize = address % lineSize + buf.length ∧
        address % lineSize + buf.length < lineSize ∨
      (address + buf.length) % lineSize = 0 ∧ address % lineSize + buf.length = lineSize := by
  rcases Nat.lt_or_eq_of_le h.oneLine with hlt | heq
  · left
    have hdiv := Nat.div_add_mod address lineSize
    refine ⟨?_, hlt⟩
    rw [← hdiv, Nat.add_assoc, Nat.mul_add_mod, Nat.mul_add_mod, Nat.mod_mod, Nat.mod_eq_of_lt hlt]
  · right
    have hdiv := Nat.div_add_mod address lineSize
    refine ⟨?_, heq⟩
    rw [← hdiv, Nat.add_assoc, heq, Nat.mul_add_mod, Nat.mod_self]

theorem Within.split_eq : split lineSize address buf =
      some [⟨address - address % lineSize, address % lineSize, buf⟩] := by
  obtain ⟨hn, hL⟩ := h.pos
  have hle := Nat.mod_le address lineSize
  have hwrap := h.noWrap
  have hend : wrap (address + buf.length) = address + buf.length := Nat.mod_eq_of_lt (by omega)
  have hnext : wrap (address - address % lineSize + lineSize) =
      address - address % lineSize + lineSize := Nat.mod_eq_of_lt (by omega)
  rw [split, if_neg h.nonempty, hend]
  rcases h.line_eq with ⟨hmod, hlt⟩ | ⟨hmod, heq⟩
  · -- the operand ends before the line does: one round, and the loop ends
    have hlast : address + buf.length - (address % lineSize + buf.length) =
        address - address % lineSize := by omega
    simp only [splitFrom, hmod, hlast, hnext, le_refl, if_true, Nat.add_sub_cancel_left]
    rw [if_neg (by omega), if_neg (by omega)]
    simp
  · -- the operand ends with the line: a second round finds nothing left
    have hlast : address + buf.length - 0 = address - address % lineSize + lineSize := by omega
    have hnext₂ : wrap (address - address % lineSize + lineSize + lineSize) =
        address - address % lineSize + lineSize + lineSize := Nat.mod_eq_of_lt (by omega)
    have hsize : lineSize - address % lineSize = buf.length := by omega
    have hne : address - address % lineSize ≠ address - address % lineSize + lineSize := by omega
    have hne' : address - address % lineSize + lineSize ≠ address - address % lineSize := by omega
    simp only [splitFrom, hmod, hlast, hnext, hnext₂, hsize, hne, hne', Nat.le_add_right, le_refl,
      if_true, if_false, false_and, true_and]
    rw [if_neg (by omega)]
    simp

end

end Within

/-! ## Operands of any size -/

section Pieces

variable {L first last fuel line : ℕ} {buf : List UInt8} {ps : List Piece}

def Piece.bytes (p : Piece) : List (ℕ × UInt8) := p.buf.mapIdx fun i b => (p.line + p.offset + i, b)

/-- The pieces are not empty, each lies in one line, and one after the other they have the bytes of the
operand at their addresses. -/
structure Pieces (L address : ℕ) (buf : List UInt8) (ps : List Piece) : Prop where
  within : ∀ p ∈ ps, p.line % L = 0 ∧ p.buf ≠ [] ∧ p.offset + p.buf.length ≤ L
  bytes : ps.flatMap Piece.bytes = buf.mapIdx fun i b => (address + i, b)

theorem Pieces.cons {address size : ℕ} {p : Piece} (hp : p.line % L = 0 ∧ p.buf ≠ [] ∧
    p.offset + p.buf.length ≤ L) (hbuf : p.buf = buf.take size) (hsize : size ≤ buf.length)
    (haddr : p.line + p.offset = address) (h : Pieces L (address + size) (buf.drop size) ps) :
    Pieces L address buf (p :: ps) := by
  constructor
  · simpa using ⟨hp, h.within⟩
  · rw [← take_append_drop size buf, mapIdx_append,
      flatMap_cons, h.bytes, Piece.bytes, hbuf, haddr, length_take, Nat.min_eq_left hsize]
    simp only [Nat.add_comm, Nat.add_left_comm]

/-- From `line` on the loop covers the rest of the operand; `fuel` rounds go beyond its last line. -/
theorem splitFrom_pieces (hL : 0 < L) (hlast : last + L < 2 ^ 64) (haligned : line % L = 0)
    (hfirst : first - first % L ≤ line) (hle : line ≤ last - last % L) (c : ℕ)
    (hc : c = line + if line = first - first % L then first % L else 0)
    (hrest : c + buf.length = last) (hfuel : last - line + 2 * L ≤ fuel * L) :
    ∃ ps, splitFrom L first last fuel line buf = some ps ∧ Pieces L c buf ps := by
  induction fuel generalizing line buf c with
  | zero => omega
  | succ fuel ih =>
    have hmod := Nat.mod_lt last hL
    have hmod' := Nat.mod_le last L
    have hoff := Nat.mod_lt first hL
    rw [Nat.add_mul] at hfuel
    have hnext : wrap (line + L) = line + L := Nat.mod_eq_of_lt (by omega)
    rw [splitFrom, if_pos hle, hnext]
    generalize ho : (if line = first - first % L then first % L else 0) = offset at hc
    have hoffset : offset < L := by
      rw [← ho]
      split <;> omega
    rcases hle.eq_or_lt with heq | hlt
    · -- the last line: what is left ends in it
      have hfuel1 : 1 ≤ fuel := by
        by_contra h0
        simp [Nat.lt_one_iff.mp (not_le.mp h0)] at hfuel
        omega
      obtain ⟨f, rfl⟩ := Nat.exists_eq_add_of_le' hfuel1
      have hend : ∀ b : List UInt8, splitFrom L first last (f + 1) (line + L) b = some [] := fun b =>
        if_neg (by omega)
      have hsize : last % L - offset = buf.length := by omega
      simp only [heq.symm, if_true, true_and, hsize, hend, Option.map_eq_map, Option.map_some]
      by_cases hbuf : buf = []
      · exact ⟨[], by simp [hbuf], by simp, by simp [hbuf]⟩
      · rw [if_neg (by simpa using hbuf)]
        refine ⟨_, rfl, Pieces.cons ⟨haligned, by simpa using hbuf, ?_⟩ rfl le_rfl hc.symm ?_⟩
        · simp only [take_length]
          omega
        · constructor <;> simp
    · have haligned' : (line + L) % L = 0 := by rw [Nat.add_mod_right, haligned]
      have hle' : line + L ≤ last - last % L := by
        obtain ⟨i, hi⟩ := Nat.dvd_of_mod_eq_zero haligned
        have hdiv := Nat.div_add_mod last L
        have hlast' : last - last % L = L * (last / L) := by omega
        rw [hlast', hi] at hlt ⊢
        exact Nat.mul_le_mul_left L (Nat.lt_of_mul_lt_mul_left hlt)
      have hne : line ≠ last - last % L := hlt.ne
      simp only [hne, if_false, false_and]
      have hrest' : line + L + (buf.drop (L - offset)).length = last := by
        rw [length_drop]
        omega
      obtain ⟨ps, hps, hcover⟩ := ih haligned' (by omega) hle' (line + L)
        (by rw [if_neg (by omega)]; rfl) hrest' (by omega)
      refine ⟨_, by rw [hps]; rfl, Pieces.cons ⟨haligned, ?_, ?_⟩ rfl (by omega) hc.symm ?_⟩
      · rw [← length_pos_iff, length_take]
        omega
      · simp only [length_take]
        omega
      · rwa [show c + (L - offset) = line + L by omega]

theorem split_pieces {address : ℕ} (hL : 0 < L) (hbuf : buf ≠ [])
    (hend : address + buf.length + L < 2 ^ 64) :
    ∃ ps, split L address buf = some ps ∧ Pieces L address buf ps := by
  have hpos := length_pos_iff.mpr hbuf
  have hmod := Nat.mod_lt address hL
  have hmod' := Nat.mod_le address L
  have hlen : buf.length ≤ buf.length * L := Nat.le_mul_of_pos_right _ hL
  have hle : address - address % L ≤ address + buf.length - (address + buf.length) % L := by
    have hdiv := Nat.div_add_mod address L
    have hdiv' := Nat.div_add_mod (address + buf.length) L
    have hmono := Nat.mul_le_mul_left L (Nat.div_le_div_right (c := L) (Nat.le_add_right address buf.length))
    omega
  rw [split, if_neg hbuf, show wrap (address + buf.length) = address + buf.length from
    Nat.mod_eq_of_lt (by omega)]
  apply splitFrom_pieces hL hend (Nat.mod_eq_zero_of_dvd (Nat.dvd_sub_mod address)) le_rfl hle address
  · rw [if_pos rfl]
    omega
  · rfl
  · rw [Nat.add_mul]
    omega

/-- In the last line of the address space the loop starts again at address 0 and does not end. -/
theorem splitFrom_eq_none (hdvd : L ∣ 2 ^ 64) (hlast : last - last % L = 2 ^ 64 - L)
    (haligned : L ∣ line) (hline : line < 2 ^ 64) : splitFrom L first last fuel line buf = none := by
  induction fuel generalizing line buf with
  | zero => rfl
  | succ fuel ih =>
    have hle : line ≤ 2 ^ 64 - L := by
      have := Nat.le_of_dvd (by omega) ((Nat.dvd_sub hdvd haligned))
      omega
    have hnext : ∀ b, splitFrom L first last fuel (wrap (line + L)) b = none := fun b =>
      ih ((Nat.dvd_mod_iff hdvd).mpr (Nat.dvd_add haligned (Nat.dvd_refl L))) (Nat.mod_lt _ (by omega))
    rw [splitFrom, hlast, if_pos hle]
    simp only [hnext, Option.map_eq_map, Option.map_none, ite_self]

/-- An operand of at least one byte is cut into pieces exactly if it ends before the last line of the
address space. -/
theorem pieces_iff (k address : ℕ) (buf : List UInt8) (hk : k < 32) (hbuf : buf ≠ [])
    (hlen : buf.length < 2 ^ 32) (hwrap : address + buf.length ≤ 2 ^ 64) :
    (∃ fuel ps, splitFrom (2 ^ k) address (wrap (address + buf.length)) fuel
      (address - address % 2 ^ k) buf = some ps ∧ Pieces (2 ^ k) address buf ps) ↔
    address + buf.length + 2 ^ k < 2 ^ 64 := by
  have hL : 0 < 2 ^ k := Nat.two_pow_pos k
  have hL32 : 2 ^ k < 2 ^ 32 := Nat.pow_lt_pow_right (by omega) hk
  have hdvd : 2 ^ k ∣ 2 ^ 64 := Nat.pow_dvd_pow 2 (by omega)
  have hpos := length_pos_iff.mpr hbuf
  generalize 2 ^ k = L at hL hL32 hdvd
  have haligned : L ∣ address - address % L := Nat.dvd_sub_mod address
  have hmod := Nat.mod_lt address hL
  constructor
  · rintro ⟨fuel, ps, hps, hpieces⟩
    by_contra hcond
    rcases hwrap.eq_or_lt with heq | hlt
    · -- the end of the operand is address 0, and the loop is not entered
      rw [heq, show wrap (2 ^ 64) = 0 from rfl] at hps
      cases fuel with
      | zero => cases hps
      | succ fuel =>
        rw [splitFrom, if_neg (by simp; omega)] at hps
        obtain rfl := Option.some.inj hps
        have hnil := congrArg length hpieces.bytes
        simp only [flatMap_nil, length_nil, length_mapIdx] at hnil
        omega
    · have hend : wrap (address + buf.length) = address + buf.length := Nat.mod_eq_of_lt hlt
      rw [hend, splitFrom_eq_none hdvd _ haligned (by omega)] at hps
      · cases hps
      · obtain ⟨i, hi⟩ : L ∣ address + buf.length - (address + buf.length) % L := Nat.dvd_sub_mod _
        obtain ⟨j, hj⟩ := hdvd
        have hmod' := Nat.mod_lt (address + buf.length) hL
        have hij : i < j := by
          apply Nat.lt_of_mul_lt_mul_left (a := L)
          omega
        have hji : j < i + 2 := by
          apply Nat.lt_of_mul_lt_mul_left (a := L)
          rw [Nat.mul_add]
          omega
        obtain rfl : j = i + 1 := by omega
        rw [Nat.mul_add] at hj
        omega
  · intro hcond
    obtain ⟨ps, hps, hpieces⟩ := split_pieces hL hbuf hcond
    rw [split, if_neg hbuf] at hps
    exact ⟨_, ps, hps, hpieces⟩

/-- An operand of four bytes over two lines. -/
theorem pieces_iff_two : ∃ fuel ps, splitFrom (2 ^ 6) 62 (wrap (62 + 4)) fuel (62 - 62 % 2 ^ 6)
    [1, 2, 3, 4] = some ps ∧ Pieces (2 ^ 6) 62 [1, 2, 3, 4] ps :=
  (pieces_iff 6 62 [1, 2, 3, 4] (by decide) (by decide) (by decide) (by decide)).mpr (by decide)

/-- For the last byte but one of the address space the loop does not end; for the last byte nothing is
accessed. -/
theorem last_line_not_split :
    (∀ fuel, splitFrom 64 (2 ^ 64 - 2) (wrap (2 ^ 64 - 2 + 1)) fuel (2 ^ 64 - 2 - (2 ^ 64 - 2) % 64)
      [7] = none) ∧
    split 64 (2 ^ 64 - 1) [7] = some [] := by
  constructor
  · intro fuel
    exact splitFrom_eq_none (by decide) (by decide) (by decide) (by decide)
  · decide

end Pieces

/-- The steps of an atomic read-modify-write: an exclusive read that takes the lock and a write of as many
bytes that gives it back. -/
def readModifyWrite (lineSize address : ℕ) (old new : List UInt8) : Option (List Op) := do
  let r ← accessMemory lineSize .lock .readEx address old
  let w ← accessMemory lineSize .unlock .write address new
  pure (r ++ w)

theorem Within.of_length {lineSize address : ℕ} {old new : List UInt8}
    (h : Within lineSize address old) (hlen : new.length = old.length) : Within lineSize address new := by
  refine ⟨fun hn => ?_, hlen ▸ h.oneLine, hlen ▸ h.noWrap⟩
  rw [hn, length_nil] at hlen
  exact h.nonempty (length_eq_zero_iff.mp hlen.symm)

/-- Within a line the lock is taken once, before the read, and given back once, after the write. -/
theorem Within.readModifyWrite {lineSize address : ℕ} {old new : List UInt8}
    (h : Within lineSize address old) (hlen : new.length = old.length) :
    Core.readModifyWrite lineSize address old new = some [.acquire,
      .access ⟨.l1DCache, .lock, .readEx, address - address % lineSize, address % lineSize, old⟩,
      .access ⟨.l1DCache, .unlock, .write, address - address % lineSize, address % lineSize, new⟩,
      .release] := by
  simp [Core.readModifyWrite, accessMemory, h.split_eq, (h.of_length hlen).split_eq,
    coreInitiateMemoryAccess]

end Graphite.Core
