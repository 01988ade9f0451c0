import Graphite.Cache.Compressor
import Graphite.Cache.Lru
import Graphite.Cache.Model
import Mathlib.Algebra.BigOperators.Group.Finset.Basic
import Mathlib.Data.Fintype.Card
import Mathlib.Tactic.Ring

/-! # Compressed caches

A compressed set keeps the size of each way, in a vector of its own and in the info of the line. The
replacement policy answers with one or two ways. Only the first is overwritten, but both are reported
as evicted, and the counters of the cache follow the report.
-/

namespace Graphite.Cache

open Outcome Function Stats List

/-- `CompressedCacheSet`. -/
structure CompressedSet (n : ℕ) (ι : Type) where
  info : Fin n → LineInfo ι
  lines : Fin n → LineData
  compSize : Fin n → ℕ

namespace CompressedSet

variable {n : ℕ} {ι : Type}

def create [Inhabited ι] : CompressedSet n ι := ⟨fun _ => .create, fun _ => zeroLine, fun _ => 0⟩

variable (s : CompressedSet n ι) (lineSize : ℕ)

def find (tag : ℕ) : Option (Fin n) :=
  (finRange n).reverse.find? fun w => (s.info w).tag = tag

def readLine (w : Fin n) (offset bytes : ℕ) : Except Fault (List UInt8) := do
  check (offset + bytes ≤ lineSize) .lineBounds
  pure (readBytes (s.lines w) offset bytes)

/-- Only whole lines are written; `compress` takes lines of 64 bytes. -/
def writeLine (d : Compression.Dictionary) (w : Fin n) (offset bytes : ℕ) (data : LineData) :
    Except Fault (Compression.Dictionary × CompressedSet n ι) := do
  check (offset = 0 ∧ bytes = lineSize) .partialWrite
  check (lineSize = 64) .compressedLine
  let (d, size) := Compression.compressLine d data
  pure (d, {
    info := update s.info w { s.info w with comSize := size }
    lines := update s.lines w data
    compSize := update s.compSize w size })

def evictedCopy (w : Fin n) : LineInfo ι × LineData := ({ s.info w with comSize := 0 }, s.lines w)

/-- `insert` after the replacement policy has answered with `ways`. -/
def insert (inserted : LineInfo ι) (ways : List ℕ) :
    Except Fault (CompressedSet n ι × List (LineInfo ι × LineData)) :=
  match ways with
  | [i, j] =>
    if h : i < n ∧ j < n then
      let w : Fin n := ⟨i, h.1⟩
      let v : Fin n := ⟨j, h.2⟩
      pure ({ s with
        info := update s.info w inserted
        compSize := update (update s.compSize w 0) v 0 },
        [s.evictedCopy w, s.evictedCopy v])
    else throw .wayRange
  | [i] =>
    if h : i < n then
      let w : Fin n := ⟨i, h⟩
      if (s.info w).isValid then
        pure ({ s with
          info := update s.info w inserted
          compSize := update s.compSize w 0 }, [s.evictedCopy w])
      else pure ({ s with info := update s.info w inserted }, [])
    else throw .wayRange
  | [] => throw .victimCount
  | _ => throw .victimCount

def assign (w : Fin n) (info : LineInfo ι) : CompressedSet n ι :=
  { s with info := update s.info w info }

end CompressedSet

/-- `getBits`: the bits from `low` on and below `high`. -/
def getBits (x high low : ℕ) : ℕ := (x >>> low) &&& (2 ^ (high - low) - 1)

/-- `L2CacheHashFn::compute`: the groups of set bits above the offset, combined. -/
def Params.l2SetNum (p : Params) (address : ℕ) : ℕ :=
  let log := (floorLog2 p.numSets).toNat
  if log = 0 then 0
  else
    let starts := ((range 64).map fun j => p.logLineSize + j * log).filter fun i => i + log ≤ 64
    starts.foldl (fun set i => set ^^^ getBits address (i + log) i) 0

/-- The ranks of the ways belong to the replacement policy, the dictionary to the compressor. -/
structure CompressedCache (n : ℕ) (ι : Type) extends Stats where
  sets : ℕ → CompressedSet n ι
  bits : ℕ → LruBits n
  dictionary : Compression.Dictionary

namespace CompressedCache

variable {n : ℕ} {ι : Type}

def create [Inhabited ι] : CompressedCache n ι :=
  ⟨.create, fun _ => .create, fun _ => Lru.create, .empty⟩

variable (p : Params) (c : CompressedCache n ι) (address : ℕ)

def getSet : CompressedSet n ι := c.sets (p.l2SetNum address)

def setSet (s : CompressedSet n ι) : CompressedCache n ι :=
  { c with sets := update c.sets (p.l2SetNum address) s }

/-- `update` of the policy: the first way of the answer was accessed. -/
def touch (w : Fin n) : CompressedCache n ι :=
  { c with bits := update c.bits (p.l2SetNum address) (Lru.update (c.bits (p.l2SetNum address)) w) }

/-- `accessCacheLine` with `STORE`. -/
def store (bytes : ℕ) (data : LineData) : Except Fault (CompressedCache n ι) :=
  match (c.getSet p address).find (p.getTag address) with
  | none => throw .lineAbsent
  | some w => do
    let (d, s) ← (c.getSet p address).writeLine p.lineSize c.dictionary w (p.getLineOffset address)
      bytes data
    pure ({ c.setSet p address s with dictionary := d }.touch p address w)

/-- `insertCacheLine` after the replacement policy has answered with `ways`. -/
def insertCacheLine (info : LineInfo ι) (ways : List ℕ) :
    Except Fault (CompressedCache n ι × List (Evicted ι)) := do
  let (s, out) ← (c.getSet p address).insert info ways
  let evicted := out.map fun (i, d) => (p.getAddressFromTag i.tag, i, d)
  let stats ← c.toStats.noteInserted p address (evicted.map fun e => (e.1, e.2.1.cstate)) info.cstate
  check (c.enabled = true → ∀ e ∈ evicted, e.2.1.cstate ≠ .invalid) .evictedState
  let c := { c.setSet p address s with toStats := stats }
  pure (match ways with
    | i :: _ => if h : i < n then c.touch p address ⟨i, h⟩ else c
    | [] => c, evicted)

def getCacheLineInfo : Option (LineInfo ι) :=
  ((c.getSet p address).find (p.getTag address)).map (c.getSet p address).info

end CompressedCache

/-! ## The sets of the hash function -/

section Hash

variable {n k mask : ℕ}

theorem le_of_and_ne_zero (hmask : 2 ^ k ∣ mask) (h : n &&& mask ≠ 0) : 2 ^ k ≤ n := by
  by_contra hlt
  apply h
  apply Nat.eq_of_testBit_eq
  intro i
  obtain ⟨m, rfl⟩ := hmask
  simp only [Nat.testBit_and, Nat.zero_testBit, Bool.and_eq_false_iff]
  rcases Nat.lt_or_ge i k with hi | hi
  · right
    rw [mul_comm, Nat.testBit_mul_two_pow]
    simp [Nat.not_le.mpr hi]
  · left
    exact Nat.testBit_lt_two_pow ((not_le.mp hlt).trans_le (Nat.pow_le_pow_right two_pos hi))

theorem countBits_le {m : ℕ} {r : ℕ × ℕ} (h : r.2 * 2 ^ r.1 ≤ m ∧ 0 < r.2) (mask k : ℕ)
    (hmask : 2 ^ k ∣ mask) :
    (countBits mask k r).2 * 2 ^ (countBits mask k r).1 ≤ m ∧ 0 < (countBits mask k r).2 := by
  unfold countBits
  split
  · next hbit =>
    rw [Nat.shiftRight_eq_div_pow]
    constructor
    · calc r.2 / 2 ^ k * 2 ^ (r.1 + k) = r.2 / 2 ^ k * 2 ^ k * 2 ^ r.1 := by ring
        _ ≤ r.2 * 2 ^ r.1 := Nat.mul_le_mul_right _ (Nat.div_mul_le_self _ _)
        _ ≤ m := h.1
    · exact Nat.div_pos (le_of_and_ne_zero hmask hbit) (Nat.two_pow_pos k)
  · exact h

theorem two_pow_floorLog2_le (h : 0 < n) : 2 ^ (floorLog2 n).toNat ≤ n := by
  have h₁ := countBits_le (m := n) (r := (0, n)) ⟨by simp, h⟩ 0xffff0000 16 (by decide)
  have h₂ := countBits_le h₁ 0x0000ff00 8 (by decide)
  have h₃ := countBits_le h₂ 0x000000f0 4 (by decide)
  have h₄ := countBits_le h₃ 0x0000000c 2 (by decide)
  have h₅ := countBits_le h₄ 0x00000002 1 (by decide)
  unfold floorLog2
  rw [if_neg h.ne']
  exact (Nat.le_mul_of_pos_left _ h₅.2).trans h₅.1

theorem getBits_lt (x low : ℕ) : getBits x (low + k) low < 2 ^ k := by
  rw [getBits, Nat.add_sub_cancel_left, Nat.and_two_pow_sub_one_eq_mod]
  exact Nat.mod_lt _ (Nat.two_pow_pos k)

theorem Params.l2SetNum_lt {p : Params} (h : 0 < p.numSets) (a : ℕ) : p.l2SetNum a < p.numSets := by
  unfold l2SetNum
  dsimp only
  split
  · exact h
  · apply lt_of_lt_of_le _ (two_pow_floorLog2_le h)
    generalize filter _ _ = starts
    -- every group has as many bits as a set number
    have hfold : ∀ set, set < 2 ^ (floorLog2 p.numSets).toNat →
        starts.foldl (fun set i => set ^^^ getBits a (i + (floorLog2 p.numSets).toNat) i) set <
          2 ^ (floorLog2 p.numSets).toNat := by
      induction starts with
      | nil => exact fun _ hset => hset
      | cons i starts ih => exact fun set hset => ih _ (Nat.xor_lt_two_pow hset (getBits_lt a i))
    exact hfold 0 (Nat.two_pow_pos _)

end Hash

/-! ## Counting lines -/

section Counting

variable {n : ℕ} {ι : Type} {p : Params} {c c' : CompressedCache n ι} {a : ℕ} {st : CacheState}

def LineInfo.counts (i : LineInfo ι) (st : CacheState) : ℕ :=
  if i.isValid = true ∧ i.cstate = st then 1 else 0

def lineCount (p : Params) (c : CompressedCache n ι) (st : CacheState) : ℕ :=
  ∑ s ∈ Finset.range p.numSets, ∑ w, ((c.sets s).info w).counts st

def Counted (p : Params) (c : CompressedCache n ι) : Prop :=
  ∀ st, st ≠ .invalid → c.lineStateCounters st = BitVec.ofNat 64 (lineCount p c st)

section Stats

variable {s s' : Stats}

end Stats

end Counting

/-! ## Insertions -/

section Insertion

variable {n : ℕ} {ι : Type} {p : Params} {c c' : CompressedCache n ι} {a : ℕ} {info : LineInfo ι}
  {s : CompressedSet n ι} {out : List (LineInfo ι × LineData)} {evicted : List (Evicted ι)}
  {w : Fin n}

section Replace

variable (habsent : ∀ v, ((c.getSet p a).info v).tag ≠ info.tag)
  (hdistinct : ∀ v v', ((c.getSet p a).info v).isValid = true →
    ((c.getSet p a).info v').tag = ((c.getSet p a).info v).tag → v' = v)
include habsent hdistinct

end Replace

end Insertion

end Graphite.Cache
