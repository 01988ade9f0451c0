import Mathlib

/-! # Thread stacks

Each process has a part of the stack space for every one of its tiles, and each tile a part for every
thread. The lookup of a thread takes the offset of the tile away from the stack pointer, but not the
start of the process, which therefore has to be at a multiple of `2 ^ 32` stacks.
-/

namespace Graphite.Stacks

open List Option

/-- A `UInt32`. -/
def word (x : ℕ) : ℕ := x % 2 ^ 32

/-- An `IntPtr`. -/
def addr (x : ℕ) : ℕ := x % 2 ^ 64

/-- Where the process stops with `SIGFPE`. -/
inductive Fault
  | divisionByZero
deriving DecidableEq

/-- The stack parameters and the tiles of each process; a tile has one core. -/
structure PinConfig where
  stackBase : ℕ
  stackSizePerCore : ℕ
  maxThreadsPerCore : ℕ
  tileList : ℕ → List ℕ
  base_lt : stackBase < 2 ^ 64
  size_lt : stackSizePerCore < 2 ^ 32
  threads_pos : 1 ≤ maxThreadsPerCore
  nodup : ∀ p, (tileList p).Nodup
  distinct : ∀ p q t, t ∈ tileList p → t ∈ tileList q → p = q

namespace PinConfig

variable (c : PinConfig) (p : ℕ)

/-- `m_stack_lower_limit` of process `p`. -/
def stackLowerLimit : ℕ :=
  addr (c.stackBase +
    word (((range p).map fun q => (c.tileList q).length).sum * c.stackSizePerCore))

def stackUpperLimit : ℕ :=
  addr (c.stackLowerLimit p + word ((c.tileList p).length * c.stackSizePerCore))

def stackSizePerThread : ℕ := c.stackSizePerCore / c.maxThreadsPerCore

def tileIndex (ptr : ℕ) : ℕ := (ptr - c.stackLowerLimit p) / c.stackSizePerCore

/-- `none` for `INVALID_TILE_ID`. -/
def getTileIDFromStackPtr (ptr : ℕ) : Except Fault (Option ℕ) :=
  if ptr < c.stackLowerLimit p ∨ c.stackUpperLimit p < ptr then pure none
  else if c.stackSizePerCore = 0 then throw .divisionByZero
  else pure (c.tileList p)[c.tileIndex p ptr]?

/-- With stacks of size 0 for the cores those for the threads have size 0, too. -/
def getThreadIDFromStackPtr (ptr : ℕ) : Except Fault (Option ℕ) :=
  if ptr < c.stackLowerLimit p ∨ c.stackUpperLimit p < ptr then pure none
  else if c.stackSizePerThread = 0 then throw .divisionByZero
  else pure (some (word (addr (ptr + 2 ^ 64 - word (c.tileIndex p ptr * c.stackSizePerCore)) /
    c.stackSizePerThread)))

/-- The lower limit in `getStackAttributesFromCoreAndThreadID`; the tile has to be one of the process. -/
def stackAttributes (tile thread : ℕ) : Option ℕ :=
  ((c.tileList p).idxOf? tile).map fun index =>
    addr (addr (c.stackLowerLimit p + word (index * c.stackSizePerCore)) +
      word (thread * c.stackSizePerThread))

/-- `x` is in the stack of a thread of a tile. -/
def InStack (tile thread x : ℕ) : Prop :=
  thread < c.maxThreadsPerCore ∧ ∃ lower ∈ c.stackAttributes p tile thread,
    ∃ offset < c.stackSizePerThread, x = addr (lower + offset)

/-- The stacks are disjoint, and the process finds the tile and the thread of each address. -/
structure Sound : Prop where
  disjoint : ∀ p q t u i j x, c.InStack p t i x → c.InStack q u j x → t = u ∧ i = j
  tile : ∀ p t i x, c.InStack p t i x → c.getTileIDFromStackPtr p x = .ok (some t)
  thread : ∀ p t i x, c.InStack p t i x → c.getThreadIDFromStackPtr p x = .ok (some i)

section Lookups

variable {c : PinConfig} {p q k i o s L : ℕ}

theorem idxOf_tile (hk : k < (c.tileList p).length) :
    (c.tileList p).idxOf? ((c.tileList p).get ⟨k, hk⟩) = some k := by
  refine idxOf?_eq_some_iff.mpr ⟨hk, rfl, fun j hj heq => ?_⟩
  exact Nat.ne_of_lt hj ((c.nodup p).getElem_inj_iff.mp heq)

/-- A number is a multiple of `s * 2 ^ 32` if it and the `s - 1` after it give the thread 0. -/
theorem dvd_of_thread (hs : 0 < s) (hs' : s < 2 ^ 32) (hL : L < 2 ^ 64)
    (h : ∀ o < s, L + o < 2 ^ 64 → word ((L + o) / s) = 0) : s * 2 ^ 32 ∣ L := by
  obtain ⟨m, hm⟩ := Nat.dvd_of_mod_eq_zero (h 0 hs (by omega))
  rw [Nat.add_zero] at hm
  have hdiv := Nat.div_add_mod L s
  rw [hm] at hdiv
  rcases Nat.eq_zero_or_pos (L % s) with h0 | hpos
  · exact ⟨m, by rw [← hdiv, h0, Nat.add_zero, Nat.mul_assoc]⟩
  · -- the first multiple of `s` after `L` is still an address, of thread 1
    exfalso
    have hlt := Nat.mod_lt L hs
    have heq := Nat.mul_left_comm s (2 ^ 32) m
    have hnext : L + (s - L % s) = s * (2 ^ 32 * m + 1) := by
      rw [Nat.mul_succ]
      omega
    have h1 := h (s - L % s) (by omega) (by omega)
    rw [hnext, Nat.mul_div_cancel_left _ hs, word] at h1
    omega

theorem lower_lt (c : PinConfig) (p : ℕ) : c.stackLowerLimit p < 2 ^ 64 := Nat.mod_lt _ (by decide)

theorem inStack (hk : k < (c.tileList p).length) (hi : i < c.maxThreadsPerCore)
    (ho : o < c.stackSizePerThread) :
    c.InStack p ((c.tileList p).get ⟨k, hk⟩) i (addr (addr (addr (c.stackLowerLimit p +
      word (k * c.stackSizePerCore)) + word (i * c.stackSizePerThread)) + o)) := by
  refine ⟨hi, _, ?_, o, ho, rfl⟩
  rw [stackAttributes, idxOf_tile hk]
  rfl

/-- The stack of the first thread of the first tile. -/
theorem inStack_first (hk : 0 < (c.tileList p).length) (ho : o < c.stackSizePerThread) :
    c.InStack p ((c.tileList p).get ⟨0, hk⟩) 0 (addr (c.stackLowerLimit p + o)) := by
  have h := inStack hk c.threads_pos ho
  have hlt := lower_lt c p
  rwa [Nat.zero_mul, Nat.zero_mul, show word 0 = 0 from rfl, Nat.add_zero, Nat.add_zero,
    show addr (c.stackLowerLimit p) = c.stackLowerLimit p from Nat.mod_eq_of_lt hlt,
    show addr (c.stackLowerLimit p) = c.stackLowerLimit p from Nat.mod_eq_of_lt hlt] at h

theorem in_limits {t x : ℕ} (h : c.getTileIDFromStackPtr p x = .ok (some t)) :
    c.stackLowerLimit p ≤ x ∧ x ≤ c.stackUpperLimit p ∧ (c.tileList p)[c.tileIndex p x]? = some t := by
  unfold getTileIDFromStackPtr at h
  split at h
  · cases h
  · next hno =>
    rw [not_or, Nat.not_lt, Nat.not_lt] at hno
    split at h
    · cases h
    · exact ⟨hno.1, hno.2, Except.ok.inj h⟩

theorem Sound.tileIndex_eq {x : ℕ} (h : c.Sound) (hk : k < (c.tileList p).length)
    (hx : c.InStack p ((c.tileList p).get ⟨k, hk⟩) i x) : c.tileIndex p x = k := by
  have hget := (in_limits (h.tile _ _ _ _ hx)).2.2
  have hsame : (c.tileList p)[k]? = (c.tileList p)[c.tileIndex p x]? := by
    rw [hget, getElem?_eq_getElem hk]
    rfl
  exact ((getElem?_inj hk (c.nodup p)).mp hsame).symm

theorem Sound.dvd_lower (h : c.Sound) (hs : 0 < c.stackSizePerThread)
    (hk : 0 < (c.tileList p).length) : c.stackSizePerThread * 2 ^ 32 ∣ c.stackLowerLimit p := by
  have hle : c.stackSizePerThread ≤ c.stackSizePerCore := Nat.div_le_self ..
  apply dvd_of_thread hs (Nat.lt_of_le_of_lt hle c.size_lt) (lower_lt c p)
  intro o ho hlt
  have hx := inStack_first hk ho
  rw [addr, Nat.mod_eq_of_lt hlt] at hx
  have hthread := h.thread _ _ _ _ hx
  unfold getThreadIDFromStackPtr at hthread
  rw [if_neg hs.ne'] at hthread
  split at hthread
  · cases hthread
  · rw [h.tileIndex_eq hk hx, Nat.zero_mul, show word 0 = 0 from rfl, Nat.sub_zero, addr,
      Nat.add_mod_right, Nat.mod_eq_of_lt hlt] at hthread
    exact some.inj (Except.ok.inj hthread)

/-- Only one process has tiles: the limits of two of them are the same. -/
theorem Sound.single (h : c.Sound) (hs : 0 < c.stackSizePerThread) (hp : 0 < (c.tileList p).length)
    (hq : 0 < (c.tileList q).length) : p = q := by
  have hdiv : 2 ^ 32 ∣ c.stackSizePerThread * 2 ^ 32 := Nat.dvd_mul_left ..
  have hlp := Nat.dvd_trans hdiv (h.dvd_lower hs hp)
  have hlq := Nat.dvd_trans hdiv (h.dvd_lower hs hq)
  have heq : c.stackLowerLimit p = c.stackLowerLimit q := by
    unfold stackLowerLimit addr word at *
    omega
  have hx := inStack_first hp hs
  have hy := inStack_first hq hs
  rw [heq] at hx
  have htile := (h.disjoint _ _ _ _ _ _ _ hx hy).1
  apply c.distinct p q _ (get_mem ..)
  rw [htile]
  exact get_mem ..

theorem lower_eq_base (h : ∀ q ≠ p, c.tileList q = []) : c.stackLowerLimit p = c.stackBase := by
  have hsum : ((range p).map fun q => (c.tileList q).length).sum = 0 := by
    apply sum_eq_zero
    intro x hx
    obtain ⟨q, hq, rfl⟩ := mem_map.mp hx
    rw [h q (Nat.ne_of_lt (mem_range.mp hq))]
    rfl
  rw [stackLowerLimit, hsum, Nat.zero_mul, show word 0 = 0 from rfl, Nat.add_zero]
  exact Nat.mod_eq_of_lt c.base_lt

theorem Sound.room (h : c.Sound) (hs : 0 < c.stackSizePerThread) (hk : 0 < (c.tileList p).length)
    (hdvd : 2 ^ 32 ∣ c.stackLowerLimit p) :
    (c.tileList p).length * c.stackSizePerCore < 2 ^ 32 := by
  -- the first address of the last tile
  have hlast : (c.tileList p).length - 1 < (c.tileList p).length := by omega
  have hx := inStack hlast c.threads_pos hs
  have hlt := lower_lt c p
  have hword : word (((c.tileList p).length - 1) * c.stackSizePerCore) < 2 ^ 32 := Nat.mod_lt _ (by decide)
  have hfit : addr (c.stackLowerLimit p + word (((c.tileList p).length - 1) * c.stackSizePerCore)) =
      c.stackLowerLimit p + word (((c.tileList p).length - 1) * c.stackSizePerCore) :=
    Nat.mod_eq_of_lt (by omega)
  rw [Nat.zero_mul, show word 0 = 0 from rfl, Nat.add_zero, Nat.add_zero, hfit, hfit, hfit] at hx
  have hindex := h.tileIndex_eq hlast hx
  obtain ⟨-, hup, -⟩ := in_limits (h.tile _ _ _ _ hx)
  rw [tileIndex, Nat.add_sub_cancel_left] at hindex
  have hle := Nat.div_mul_le_self (word (((c.tileList p).length - 1) * c.stackSizePerCore))
    c.stackSizePerCore
  rw [hindex] at hle
  have hsize := c.size_lt
  have hmul : ((c.tileList p).length - 1) * c.stackSizePerCore + c.stackSizePerCore =
      (c.tileList p).length * c.stackSizePerCore := by
    rw [← Nat.succ_mul]
    congr 1
    omega
  unfold stackUpperLimit addr word at *
  omega

/-! ### Layouts that work -/

section Layout

variable (hlower : c.stackLowerLimit p = c.stackBase)
  (hdvd : c.stackSizePerThread * 2 ^ 32 ∣ c.stackBase)
  (hroom : (c.tileList p).length * c.stackSizePerCore < 2 ^ 32)
include hlower hdvd hroom

theorem InStack.eq {t x : ℕ} (hx : c.InStack p t i x) : ∃ k o, (c.tileList p)[k]? = some t ∧
    o < c.stackSizePerThread ∧ i * c.stackSizePerThread + o < c.stackSizePerCore ∧
    k * c.stackSizePerCore + c.stackSizePerCore ≤ (c.tileList p).length * c.stackSizePerCore ∧
    x = c.stackBase + k * c.stackSizePerCore + (i * c.stackSizePerThread + o) := by
  obtain ⟨hi, lower, hl, o, ho, rfl⟩ := hx
  obtain ⟨k, hk, rfl⟩ := map_eq_some_iff.mp hl
  obtain ⟨hlen, rfl, -⟩ := idxOf?_eq_some_iff.mp hk
  have htile := Nat.mul_le_mul_right c.stackSizePerCore (Nat.succ_le_of_lt hlen)
  have hthread := Nat.mul_le_mul_right c.stackSizePerThread (Nat.succ_le_of_lt hi)
  have hall : c.maxThreadsPerCore * c.stackSizePerThread ≤ c.stackSizePerCore := Nat.mul_div_le ..
  rw [Nat.succ_mul] at htile hthread
  have hbase := c.base_lt
  have hstart := Nat.dvd_trans (Nat.dvd_mul_left (2 ^ 32) _) hdvd
  refine ⟨k, o, getElem?_eq_getElem hlen, ho, by omega, htile, ?_⟩
  rw [hlower, word, word, Nat.mod_eq_of_lt (a := k * _) (by omega),
    Nat.mod_eq_of_lt (a := i * _) (by omega)]
  unfold addr
  omega

theorem lookup_eq {t x : ℕ} (hx : c.InStack p t i x) :
    c.getTileIDFromStackPtr p x = .ok (some t) ∧ c.getThreadIDFromStackPtr p x = .ok (some i) := by
  obtain ⟨k, o, hk, ho, hthread, htile, rfl⟩ := hx.eq hlower hdvd hroom
  have hsize := c.size_lt
  have hbase := c.base_lt
  have hstart := Nat.dvd_trans (Nat.dvd_mul_left (2 ^ 32) _) hdvd
  have hupper : c.stackUpperLimit p = c.stackBase + (c.tileList p).length * c.stackSizePerCore := by
    rw [stackUpperLimit, hlower]
    unfold addr word
    omega
  have hin : ¬ (c.stackBase + k * c.stackSizePerCore + (i * c.stackSizePerThread + o) <
      c.stackLowerLimit p ∨ c.stackUpperLimit p <
      c.stackBase + k * c.stackSizePerCore + (i * c.stackSizePerThread + o)) := by
    omega
  have hindex : c.tileIndex p
      (c.stackBase + k * c.stackSizePerCore + (i * c.stackSizePerThread + o)) = k := by
    rw [tileIndex, hlower, Nat.add_assoc, Nat.add_sub_cancel_left, Nat.add_comm,
      Nat.add_mul_div_right _ _ (by omega), Nat.div_eq_of_lt hthread, Nat.zero_add]
  constructor
  · rw [getTileIDFromStackPtr, if_neg hin, if_neg (by omega), hindex, hk]
    rfl
  · obtain ⟨m, hm⟩ := hdvd
    have hi := Nat.le_mul_of_pos_right i (Nat.lt_of_le_of_lt (Nat.zero_le o) ho)
    have hptr : addr (c.stackBase + k * c.stackSizePerCore + (i * c.stackSizePerThread + o) + 2 ^ 64 -
        word (k * c.stackSizePerCore)) = o + (2 ^ 32 * m + i) * c.stackSizePerThread := by
      have hbase' : c.stackBase = 2 ^ 32 * m * c.stackSizePerThread := by
        rw [hm, Nat.mul_assoc, Nat.mul_comm]
      rw [Nat.add_mul, ← hbase']
      unfold addr word
      omega
    rw [getThreadIDFromStackPtr, if_neg hin, if_neg (by omega), hindex, hptr, Nat.add_mul_div_right _ _ (by omega),
      Nat.div_eq_of_lt ho, word]
    congr 2
    omega

end Layout

end Lookups

end PinConfig

/-- The stacks are as they should be exactly if they are empty, or one process has all tiles, its
stacks take less than `2 ^ 32` bytes, and they start at a multiple of `2 ^ 32` stacks. -/
theorem sound_iff (c : PinConfig) : c.Sound ↔ c.stackSizePerThread = 0 ∨
    ∀ p, c.tileList p ≠ [] → (∀ q ≠ p, c.tileList q = []) ∧
      c.stackSizePerThread * 2 ^ 32 ∣ c.stackBase ∧
      (c.tileList p).length * c.stackSizePerCore < 2 ^ 32 := by
  constructor
  · intro h
    refine (Nat.eq_zero_or_pos c.stackSizePerThread).imp_right fun hs p hp => ?_
    have hp := length_pos_iff.mpr hp
    have hothers : ∀ q ≠ p, c.tileList q = [] := by
      intro q hq
      by_contra hne
      exact hq (h.single hs (length_pos_iff.mpr hne) hp)
    have hdvd := h.dvd_lower hs hp
    refine ⟨hothers, PinConfig.lower_eq_base hothers ▸ hdvd, ?_⟩
    exact h.room hs hp (Nat.dvd_trans (Nat.dvd_mul_left ..) hdvd)
  · rintro (hs | hall)
    · have hno : ∀ {p t i x}, ¬ c.InStack p t i x := by
        rintro p t i x ⟨-, -, -, o, ho, -⟩
        omega
      exact ⟨fun _ _ _ _ _ _ _ hx => absurd hx hno, fun _ _ _ _ hx => absurd hx hno,
        fun _ _ _ _ hx => absurd hx hno⟩
    · have hne : ∀ {p t i x}, c.InStack p t i x → c.tileList p ≠ [] := by
        rintro p t i x ⟨-, l, hl, -⟩ hnil
        simp [PinConfig.stackAttributes, hnil] at hl
      have hfind : ∀ {p t i x}, c.InStack p t i x → c.getTileIDFromStackPtr p x = .ok (some t) ∧
          c.getThreadIDFromStackPtr p x = .ok (some i) := by
        intro p t i x hx
        obtain ⟨hothers, hdvd, hroom⟩ := hall p (hne hx)
        exact PinConfig.lookup_eq (PinConfig.lower_eq_base hothers) hdvd hroom hx
      refine ⟨fun p q t u i j x hx hy => ?_, fun _ _ _ _ hx => (hfind hx).1,
        fun _ _ _ _ hx => (hfind hx).2⟩
      obtain rfl : p = q := by
        by_contra hpq
        exact hne hy ((hall p (hne hx)).1 q (Ne.symm hpq))
      constructor
      · exact some.inj (Except.ok.inj ((hfind hx).1.symm.trans (hfind hy).1))
      · exact some.inj (Except.ok.inj ((hfind hx).2.symm.trans (hfind hy).2))

/-- The parameters of the default configuration, with one process and two tiles. -/
def carbonSim : PinConfig where
  stackBase := 2415919104
  stackSizePerCore := 2097152
  maxThreadsPerCore := 1
  tileList p := if p = 0 then [0, 1] else []
  base_lt := by decide
  size_lt := by decide
  threads_pos := by decide
  nodup p := by split <;> decide
  distinct p q t hp hq := by
    split at hp
    · split at hq
      · omega
      · cases hq
    · cases hp

/-- The first address of thread 0 of tile 0 is said to be of thread 1152. -/
theorem thread_not_found : carbonSim.InStack 0 0 0 2415919104 ∧
    carbonSim.getThreadIDFromStackPtr 0 2415919104 = .ok (some 1152) ∧ ¬ carbonSim.Sound := by
  have hin : carbonSim.InStack 0 0 0 2415919104 :=
    ⟨by decide, 2415919104, by decide, 0, by decide, by decide⟩
  have hthread : carbonSim.getThreadIDFromStackPtr 0 2415919104 = .ok (some 1152) := by rfl
  refine ⟨hin, hthread, fun h => ?_⟩
  have := h.thread 0 0 0 _ hin
  rw [hthread] at this
  simp at this

end Graphite.Stacks
