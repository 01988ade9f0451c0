import Graphite.Cache.Set
import Mathlib.Data.Fintype.Card
import Mathlib.Data.List.Perm.Basic

/-! # Least recently used

The policy ranks the ways of a set in bytes. The ranks are a permutation in the order of the
last accesses: the way with the highest rank has not been accessed for the longest time.
-/

namespace Graphite.Cache

open Outcome List

variable {n : ℕ}

/-- The ranks of the ways, 0 for the one accessed last. -/
abbrev LruBits (n : ℕ) := Fin n → BitVec 8

namespace Lru

def create : LruBits n := fun w => BitVec.ofNat 8 w

/-- The loop of `getReplacementWay` from some way on; `way` is the candidate so far. -/
def search (bits : LruBits n) (isValid : Fin n → Bool) : Option (Fin n) → List (Fin n) → Except Fault (Fin n)
  | none, [] => throw .lruBits
  | some w, [] => pure w
  | way, i :: is =>
    if ¬ isValid i then pure i
    else search bits isValid (if (bits i).toNat = n - 1 then some i else way) is

def getReplacementWay (bits : LruBits n) (isValid : Fin n → Bool) : Except Fault (Fin n) :=
  search bits isValid none (List.finRange n)

/-- The ways with a lower rank than the accessed one move up. -/
def shift (w : Fin n) (bits : LruBits n) (is : List (Fin n)) : LruBits n :=
  is.foldl (fun bits i => if bits i < bits w then Function.update bits i (bits i + 1) else bits) bits

def update (bits : LruBits n) (w : Fin n) : LruBits n :=
  Function.update (shift w bits (List.finRange n)) w 0

end Lru

/-- `LRUReplacementPolicy`. -/
abbrev lru (n : ℕ) : Policy n where
  State := LruBits n
  init := Lru.create
  getReplacementWay bits isValid := do
    let w ← Lru.getReplacementWay bits isValid
    pure (bits, w)
  update := Lru.update

/-! ## Recency -/

section Recency

variable {tr : List (Fin n)} {i j w : Fin n}

/-- The number of the last access to a way, counted from 1, or 0. -/
def lastAccess (tr : List (Fin n)) (w : Fin n) : ℕ := tr.length - tr.reverse.idxOf w

/-- Way `i` has been accessed after way `j`, or neither has and `i` comes first. -/
def MoreRecent (tr : List (Fin n)) (i j : Fin n) : Prop :=
  lastAccess tr j < lastAccess tr i ∨ lastAccess tr i = 0 ∧ lastAccess tr j = 0 ∧ i < j

@[simp] theorem lastAccess_nil : lastAccess [] w = 0 := rfl

theorem lastAccess_le : lastAccess tr w ≤ tr.length := Nat.sub_le _ _

theorem lastAccess_snoc_self : lastAccess (tr ++ [w]) w = tr.length + 1 := by
  simp [lastAccess]

theorem lastAccess_snoc_of_ne (h : i ≠ w) : lastAccess (tr ++ [w]) i = lastAccess tr i := by
  simp only [lastAccess, length_append, length_singleton, reverse_append,
    reverse_singleton, singleton_append, idxOf_cons_ne _ h.symm]
  omega

theorem moreRecent_snoc_self (h : i ≠ w) : MoreRecent (tr ++ [w]) w i ∧ ¬ MoreRecent (tr ++ [w]) i w := by
  have hi : lastAccess tr i ≤ tr.length := lastAccess_le
  unfold MoreRecent
  rw [lastAccess_snoc_self, lastAccess_snoc_of_ne h]
  omega

theorem moreRecent_snoc_of_ne (hi : i ≠ w) (hj : j ≠ w) :
    MoreRecent (tr ++ [w]) i j ↔ MoreRecent tr i j := by
  unfold MoreRecent
  rw [lastAccess_snoc_of_ne hi, lastAccess_snoc_of_ne hj]

end Recency

/-! ## Ranks -/

section Ranks

variable {bits : LruBits n} {tr : List (Fin n)} {i j w : Fin n}

/-- The ranks are below the number of ways and ordered as the accesses of `tr`. -/
structure Ranked (tr : List (Fin n)) (bits : LruBits n) : Prop where
  lt : ∀ i, (bits i).toNat < n
  order : ∀ i j, i ≠ j → (bits i < bits j ↔ MoreRecent tr i j)
  ne : ∀ i j, i ≠ j → bits i ≠ bits j

theorem Lru.shift_apply {is : List (Fin n)} (hnd : is.Nodup) (i : Fin n) : Lru.shift w bits is i =
    if i ∈ is ∧ bits i < bits w then bits i + 1 else bits i := by
  induction is generalizing bits with
  | nil => simp [Lru.shift]
  | cons a is ih =>
    obtain ⟨ha, hnd⟩ := nodup_cons.mp hnd
    -- the rank of the accessed way is the same throughout the loop
    generalize hb : (if bits a < bits w then Function.update bits a (bits a + 1) else bits) = bits'
    have hother : ∀ j, j ≠ a → bits' j = bits j := by
      intro j hj
      rw [← hb]
      split <;> simp [hj]
    have hself : bits' a = if bits a < bits w then bits a + 1 else bits a := by
      rw [← hb]
      split <;> simp
    have hw : bits' w = bits w := by
      rcases eq_or_ne w a with rfl | hne
      · simp [hself]
      · exact hother w hne
    have hshift : Lru.shift w bits (a :: is) = Lru.shift w bits' is := by rw [← hb]; rfl
    rw [hshift, ih hnd, hw]
    rcases eq_or_ne i a with rfl | hne
    · simp [ha, hself]
    · simp [hother i hne, hne]

theorem Lru.update_apply (bits : LruBits n) (w i : Fin n) : Lru.update bits w i =
    if i = w then 0 else if bits i < bits w then bits i + 1 else bits i := by
  unfold Lru.update
  rcases eq_or_ne i w with rfl | hne
  · simp
  · simp [hne, Lru.shift_apply (nodup_finRange n)]

theorem ranked_create (hn : n ≤ 256) : Ranked [] (Lru.create : LruBits n) := by
  have hval : ∀ i : Fin n, (Lru.create i).toNat = i.val := by
    intro i
    rw [Lru.create, BitVec.toNat_ofNat]
    exact Nat.mod_eq_of_lt (i.isLt.trans_le hn)
  refine ⟨fun i => ?_, fun i j _ => ?_, fun i j hij h => hij (Fin.ext ?_)⟩
  · rw [hval]
    exact i.isLt
  · rw [BitVec.lt_def, hval, hval]
    simp [MoreRecent]
  · rw [← hval, h, hval]

theorem Ranked.update (h : Ranked tr bits) (hn : n ≤ 256) (w : Fin n) :
    Ranked (tr ++ [w]) (Lru.update bits w) := by
  have hself : (Lru.update bits w w).toNat = 0 := by simp [Lru.update_apply]
  have hother : ∀ i, i ≠ w → (Lru.update bits w i).toNat =
      if (bits i).toNat < (bits w).toNat then (bits i).toNat + 1 else (bits i).toNat := by
    intro i hi
    rw [Lru.update_apply, if_neg hi]
    simp only [BitVec.lt_def]
    split
    · next hlt =>
      rw [BitVec.toNat_add]
      have := h.lt w
      exact Nat.mod_eq_of_lt (by simp; omega)
    · rfl
  have hne : ∀ i j, i ≠ j → (bits i).toNat ≠ (bits j).toNat := fun i j hij he =>
    h.ne i j hij (BitVec.eq_of_toNat_eq he)
  have hpos : ∀ i, i ≠ w → 0 < (Lru.update bits w i).toNat := by
    intro i hi
    have := hne i w hi
    rw [hother i hi]
    split <;> omega
  refine ⟨fun i => ?_, fun i j hij => ?_, fun i j hij he => ?_⟩
  · have hw := h.lt w
    have hi := h.lt i
    rcases eq_or_ne i w with rfl | hiw
    · rw [hself]; omega
    · rw [hother i hiw]
      split <;> omega
  · rw [BitVec.lt_def]
    rcases eq_or_ne i w with rfl | hi
    · rw [hself]
      exact iff_of_true (hpos j hij.symm) (moreRecent_snoc_self hij.symm).1
    · rcases eq_or_ne j w with rfl | hj
      · rw [hself]
        exact iff_of_false (Nat.not_lt_zero _) (moreRecent_snoc_self hij).2
      · rw [moreRecent_snoc_of_ne hi hj, ← h.order i j hij, BitVec.lt_def, hother i hi, hother j hj]
        have := hne i w hi
        have := hne j w hj
        split <;> split <;> omega
  · have he := congrArg BitVec.toNat he
    rcases eq_or_ne i w with rfl | hi
    · have := hpos j hij.symm
      omega
    · rcases eq_or_ne j w with rfl | hj
      · have := hpos i hij
        omega
      · rw [hother i hi, hother j hj] at he
        have := hne i j hij
        have := hne i w hi
        have := hne j w hj
        split at he <;> split at he <;> omega

theorem Ranked.perm (h : Ranked tr bits) :
    ((finRange n).map fun w => (bits w).toNat).Perm (range n) := by
  refine (subperm_of_subset ?_ fun r hr => ?_).perm_of_length_le (by simp)
  · refine (nodup_map_iff_inj_on (nodup_finRange n)).mpr fun i _ j _ hij => ?_
    by_contra hne
    exact h.ne i j hne (BitVec.eq_of_toNat_eq hij)
  · obtain ⟨w, -, rfl⟩ := mem_map.mp hr
    exact mem_range.mpr (h.lt w)

end Ranks

/-! ## Victims -/

section Victims

variable {bits : LruBits n} {isValid : Fin n → Bool} {tr : List (Fin n)} {way : Option (Fin n)}
  {is : List (Fin n)}

/-- The search ends at the first invalid way, or at a way of the highest rank. -/
theorem Lru.search_eq {w : Fin n} (h : Lru.search bits isValid way is = .ok w) :
    (∃ is₁ is₂, is = is₁ ++ w :: is₂ ∧ isValid w = false ∧ ∀ i ∈ is₁, isValid i = true) ∨
    (∀ i ∈ is, isValid i = true) ∧ (way = some w ∨ w ∈ is ∧ (bits w).toNat = n - 1) := by
  induction is generalizing way with
  | nil =>
    cases way with
    | none => cases h
    | some v =>
      obtain rfl : v = w := by simpa [Lru.search] using h
      exact .inr ⟨by simp, .inl rfl⟩
  | cons i is ih =>
    rw [Lru.search] at h
    split at h
    · next hi =>
      obtain rfl : i = w := by simpa using h
      exact .inl ⟨[], is, rfl, by simpa using hi, by simp⟩
    · next hi =>
      have hi : isValid i = true := by simpa using hi
      rcases ih h with ⟨is₁, is₂, rfl, hw, hall⟩ | ⟨hall, hw⟩
      · exact .inl ⟨i :: is₁, is₂, rfl, hw, by simpa [hi] using hall⟩
      · refine .inr ⟨by simpa [hi] using hall, ?_⟩
        split at hw
        · next hrank =>
          rcases hw with hw | hw
          · obtain rfl : i = w := Option.some.inj hw
            exact .inr ⟨by simp, hrank⟩
          · exact .inr ⟨by simp [hw.1], hw.2⟩
        · exact hw.imp_right fun hw => ⟨by simp [hw.1], hw.2⟩

theorem Lru.search_ok (h : way ≠ none ∨ ∃ i ∈ is, (bits i).toNat = n - 1) :
    ∃ w, Lru.search bits isValid way is = .ok w := by
  induction is generalizing way with
  | nil =>
    cases way with
    | none => simp at h
    | some w => exact ⟨w, rfl⟩
  | cons i is ih =>
    rw [Lru.search]
    split
    · exact ⟨i, rfl⟩
    · refine ih ?_
      by_cases hi : (bits i).toNat = n - 1
      · simp [hi]
      · simpa [hi] using h

/-- The way the policy picks: the first invalid one, or else the one accessed least recently. -/
theorem Ranked.getReplacementWay (h : Ranked tr bits) (hn : 0 < n) (isValid : Fin n → Bool) :
    ∃ w, Lru.getReplacementWay bits isValid = .ok w ∧
      ((∃ i, isValid i = false) → isValid w = false ∧ ∀ i < w, isValid i = true) ∧
      ((∀ i, isValid i = true) → ∀ i, i ≠ w → MoreRecent tr i w) := by
  obtain ⟨v, -, hv⟩ := mem_map.mp (h.perm.mem_iff.mpr (mem_range.mpr (Nat.sub_lt hn one_pos)))
  obtain ⟨w, hw⟩ : ∃ w, Lru.getReplacementWay bits isValid = .ok w :=
    Lru.search_ok (.inr ⟨v, mem_finRange v, hv⟩)
  refine ⟨w, hw, ?_⟩
  rcases Lru.search_eq hw with ⟨is₁, is₂, his, hinv, hall⟩ | ⟨hall, hw⟩
  · refine ⟨fun _ => ⟨hinv, fun i hi => hall i ?_⟩, fun hvalid => by simp [hvalid] at hinv⟩
    -- the ways before `w` in the list are those with a smaller number
    have hmem : i ∈ is₁ ++ w :: is₂ := his ▸ mem_finRange i
    have hsorted : (is₁ ++ w :: is₂).Pairwise (· < ·) := his ▸ pairwise_lt_finRange n
    rcases mem_append.mp hmem with hi' | hi'
    · exact hi'
    · have hafter := (pairwise_cons.mp (pairwise_append.mp hsorted).2.1).1
      rcases mem_cons.mp hi' with rfl | hi'
      · exact absurd hi (lt_irrefl _)
      · exact absurd hi (hafter i hi').asymm
  · refine ⟨fun ⟨i, hi⟩ => absurd (hall i (mem_finRange i)) (by simp [hi]), fun _ i hi => ?_⟩
    have hrank : (bits w).toNat = n - 1 := (hw.resolve_left nofun).2
    rw [← h.order i w hi, BitVec.lt_def, hrank]
    have hlt := h.lt i
    have hne : (bits i).toNat ≠ n - 1 := fun he =>
      h.ne i w hi (BitVec.eq_of_toNat_eq (he.trans hrank.symm))
    omega

end Victims

/-! ## Runs of a set -/

section Runs

variable {ι : Type}

/-- What happens to a set; an invalidation is an assignment of an invalid info. -/
inductive SetAction (n : ℕ) (ι : Type)
  | read (w : Fin n) (offset bytes : ℕ)
  | write (w : Fin n) (offset : ℕ) (buf : List UInt8)
  | insert (inserted : LineInfo ι) (fillBuf : Option LineData)
  | assign (w : Fin n) (info : LineInfo ι)

/-- A set under `lru`; the trace has the way of each access and each insertion. -/
def lruSet (n lineSize : ℕ) (ι : Type) [Inhabited ι] :
    System (CacheSet (lru n) ι) (SetAction n ι) Fault (Fin n) where
  init s := s = .create
  enabled _ _ := True
  step s
    | .read w offset bytes => do
      let (s, _) ← s.readLine lineSize w offset bytes
      pure (s, [w])
    | .write w offset buf => do
      let s ← s.writeLine lineSize w offset buf
      pure (s, [w])
    | .insert inserted fillBuf => do
      let w ← Lru.getReplacementWay s.policy fun w => (s.info w).isValid
      let (s, _) ← s.insert inserted fillBuf
      pure (s, [w])
    | .assign w info => pure (s.assign w info, [])

variable [Inhabited ι] {lineSize : ℕ} {s : CacheSet (lru n) ι} {tr : List (Fin n)}

theorem Ranked.step (hn : n ≤ 256) (h : Ranked tr s.policy) (a : SetAction n ι) :
    Ensures ((lruSet n lineSize ι).step s a) fun r => Ranked (tr ++ r.2) r.1.policy := by
  cases a with
  | read w offset bytes =>
    exact sat_bind.mpr (ensures_bind fun _ => h.update hn w)
  | write w offset buf =>
    exact sat_bind.mpr (ensures_bind fun _ => h.update hn w)
  | insert inserted fillBuf =>
    show Sat (Lru.getReplacementWay s.policy _ >>= _) _ _
    cases hw : Lru.getReplacementWay s.policy fun w => (s.info w).isValid with
    | error e => trivial
    | ok w =>
      simp only [ok_bind, CacheSet.insert, hw, pure_eq_ok, w.isLt, dif_pos]
      exact h.update hn w
  | assign w info =>
    show Ranked (tr ++ []) s.policy
    rw [append_nil]
    exact h

/-- The ranks are a permutation in the order of the last accesses, and the victim is the first invalid way
or, if there is none, the way accessed least recently. -/
theorem lru_victim (n lineSize : ℕ) (ι : Type) [Inhabited ι] (hn : n ≤ 256) (tr : List (Fin n))
    (s : CacheSet (lru n) ι) (h : (lruSet n lineSize ι).Run (fun _ => True) tr s) :
    ((List.finRange n).map fun w => (s.policy w).toNat).Perm (List.range n) ∧
    (∀ i j, i ≠ j → (s.policy i < s.policy j ↔ MoreRecent tr i j)) ∧
    (0 < n → ∃ w, Lru.getReplacementWay s.policy (fun w => (s.info w).isValid) = .ok w ∧
      ((∃ i, (s.info i).isValid = false) →
        (s.info w).isValid = false ∧ ∀ i < w, (s.info i).isValid = true) ∧
      ((∀ i, (s.info i).isValid = true) → ∀ i, i ≠ w → MoreRecent tr i w)) := by
  have hranked : Ranked tr s.policy :=
    h.invariant (E := fun _ => True) (I := fun tr s => Ranked tr s.policy)
      (fun s hs => by rw [hs]; exact ranked_create hn) fun _ _ a hi _ _ => hi.step hn a
  exact ⟨hranked.perm, hranked.order, fun hpos => hranked.getReplacementWay hpos _⟩

instance (n lineSize : ℕ) (s : CacheSet (lru n) ι) : DecidablePred ((lruSet n lineSize ι).enabled s) :=
  fun _ => isTrue trivial

/-- Two lines are inserted and the first one is read again. -/
theorem lru_victim_two : ∃ tr s w, (lruSet 2 64 Unit).Run (fun _ => True) tr s ∧ tr = [0, 1, 0] ∧
    Lru.getReplacementWay s.policy (fun w => (s.info w).isValid) = .ok w ∧
    ∀ i, i ≠ w → MoreRecent tr i w := by
  obtain ⟨tr, s, h, htr, hvalid⟩ := System.Run.of_reaches (S := lruSet 2 64 Unit) (P := fun _ => True)
    (Q := fun tr s => tr = [0, 1, 0] ∧ ∀ i, (s.info i).isValid = true) (.start rfl)
    [.insert ⟨1, .shared, 0, ()⟩ none, .insert ⟨2, .shared, 0, ()⟩ none, .read 0 0 8]
  obtain ⟨w, hw, -, hleast⟩ := (lru_victim 2 64 Unit (by decide) tr s h).2.2 (by decide)
  exact ⟨tr, s, w, h, htr, hw, hleast hvalid⟩

end Runs

end Graphite.Cache
