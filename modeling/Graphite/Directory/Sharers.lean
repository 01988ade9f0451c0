import Graphite.Directory.Entry
import Mathlib.Data.Finset.Card
import Mathlib.Data.Finset.Dedup
import Mathlib.Data.Fintype.Basic
import Mathlib.Tactic.Common

/-! # The sharer set an entry stands for

`Sharers.Rep` relates an entry to the set of tiles that share the line. The number of sharers it
reports is the size of this set under every configuration: an operation that would break the count
stops the simulator. Which tiles it lists is right only when the scheme fits the machine:
`DirectoryType.Fits` excludes tile numbers beyond the 16-bit slots and schemes without a slot.
-/

namespace Graphite

open Outcome Function List Limited

/-- The scheme can record every tile of the machine, and a first sharer in a slot. -/
def DirectoryType.Fits (type : DirectoryType) (maxHwSharers N : ℕ) : Prop :=
  type = .fullMap ∨ (N ≤ 32768 ∧ (type = .limitless ∨ 1 ≤ maxHwSharers))

variable {N : ℕ}

theorem DirectoryType.Fits.narrow {type : DirectoryType} {maxHw : ℕ} (h : type.Fits maxHw N)
    (hne : type ≠ .fullMap) : N ≤ 32768 :=
  (h.resolve_left hne).1

theorem toSInt16_range (id : ℤ) : -32768 ≤ toSInt16 id ∧ toSInt16 id ≤ 32767 := by
  unfold toSInt16; rw [Int.bmod_def]; split <;> omega

theorem toSInt16_of_small {id : ℤ} (h0 : 0 ≤ id) (h : id < 32768) : toSInt16 id = id := by
  unfold toSInt16; rw [Int.bmod_def]; omega

theorem tileId_injective : Function.Injective (tileId (N := N)) :=
  fun _ _ h => Fin.ext (by unfold tileId at h; omega)

theorem toSInt16_tile (hN : N ≤ 32768) (t : Fin N) : toSInt16 (tileId t) = tileId t :=
  toSInt16_of_small (by unfold tileId; omega) (by have := t.isLt; unfold tileId; omega)

namespace Limited

variable {l : Limited} {maxHw : ℕ} {S : Finset (Fin N)} {t : Fin N}

section Replace

variable {xs : List ℤ} {x : ℤ}

theorem fill_perm (hi : invalidSharer ∈ xs) (hx : x ≠ invalidSharer) :
    ((xs.replace invalidSharer x).filter (· ≠ invalidSharer)).Perm
      (x :: xs.filter (· ≠ invalidSharer)) := by
  induction xs with
  | nil => simp at hi
  | cons y ys ih =>
    by_cases hy : y = invalidSharer
    · subst hy; simp [hx]
    · have hy' : (invalidSharer == y) = false := by simpa using fun e => hy e.symm
      have hi' : invalidSharer ∈ ys := by simpa [Ne.symm hy] using hi
      simp only [replace_cons, hy', filter_cons, hy, ne_eq, not_false_eq_true, decide_true, if_true]
      exact ((ih hi').cons y).trans (.swap _ _ _)

theorem free_perm (hx : x ∈ xs) (hne : x ≠ invalidSharer) :
    (x :: (xs.replace x invalidSharer).filter (· ≠ invalidSharer)).Perm
      (xs.filter (· ≠ invalidSharer)) := by
  induction xs with
  | nil => simp at hx
  | cons y ys ih =>
    by_cases hy : x = y
    · subst hy; simp [hne]
    · have hy' : (x == y) = false := by simpa using hy
      have ih := ih (by simpa [hy] using hx)
      by_cases hv : y = invalidSharer
      · subst hv; simpa [replace_cons, hy'] using ih
      · simp only [replace_cons, hy', filter_cons, hv, ne_eq, not_false_eq_true,
          decide_true, if_true]
        exact (List.Perm.swap _ _ _).trans (ih.cons y)

end Replace

/-- What holds of the slots whatever the tile numbers are. -/
structure Sound (maxHw : ℕ) (l : Limited) : Prop where
  length : l.sharers.length = maxHw
  nodup : l.tracked.Nodup
  range : ∀ v ∈ l.tracked, -32768 ≤ v ∧ v ≤ 32767

/-- The slots hold exactly the tiles of `S`. -/
structure Exact (l : Limited) (S : Finset (Fin N)) : Prop where
  perm : l.tracked.Perm (S.toList.map tileId)
  count : l.numTracked = S.card

theorem tracked_create (maxHw : ℕ) : (create maxHw).tracked = [] := by
  simp [create, tracked]

theorem sound_create : Sound maxHw (create maxHw) where
  length := by simp [create]
  nodup := by simp [tracked_create]
  range := by simp [tracked_create]

theorem exact_create : Exact (create maxHw) (∅ : Finset (Fin N)) where
  perm := by simp [tracked_create]
  count := by simp [create]

theorem mem_tracked {v : ℤ} : v ∈ l.tracked ↔ v ∈ l.sharers ∧ v ≠ invalidSharer := by
  simp [tracked]

theorem tile_ne_invalid (t : Fin N) : tileId t ≠ invalidSharer := by
  unfold invalidSharer tileId; omega

theorem Exact.mem_tracked_iff (h : Exact l S) {v : ℤ} : v ∈ l.tracked ↔ ∃ t ∈ S, tileId t = v := by
  simp [h.perm.mem_iff]

theorem Exact.mem_iff (h : Exact l S) : tileId t ∈ l.sharers ↔ t ∈ S := by
  have : tileId t ∈ l.tracked ↔ t ∈ S := by
    rw [h.mem_tracked_iff]
    constructor
    · rintro ⟨u, hu, he⟩
      rwa [tileId_injective he] at hu
    · intro ht; exact ⟨t, ht, rfl⟩
  simpa [mem_tracked, tile_ne_invalid] using this

theorem Exact.length_tracked (h : Exact l S) : (l.tracked.length : ℤ) = l.numTracked := by
  simp [h.perm.length_eq, h.count]

theorem length_tracked_of_full (h : invalidSharer ∉ l.sharers) :
    l.tracked.length = l.sharers.length := by
  have : l.tracked = l.sharers :=
    filter_eq_self.mpr fun v hv => by
      simpa using ne_of_mem_of_not_mem hv h
  rw [this]

theorem Exact.full (h : Exact l S) (hs : Sound maxHw l) (hi : invalidSharer ∉ l.sharers) :
    l.numTracked = l.sharers.length ∧ l.numTracked = maxHw := by
  rw [← h.length_tracked, length_tracked_of_full hi]
  exact ⟨rfl, by rw [hs.length]⟩

theorem addSharer_sat (hs : Sound maxHw l) (id : ℤ) :
    Sat (l.addSharer id) (fun _ => toSInt16 id ∈ l.sharers) fun r => toSInt16 id ∉ l.sharers ∧
      ((r.2 = true ∧ Sound maxHw r.1 ∧ r.1.numTracked = l.numTracked + 1 ∧
          r.1.tracked.Perm (toSInt16 id :: l.tracked)) ∨
        (r.2 = false ∧ r.1 = l ∧ invalidSharer ∉ l.sharers)) := by
  unfold addSharer
  refine sat_check_bind (fun hid => ?_) fun hid => not_not.mp hid
  split
  · next hi =>
    have hx : toSInt16 id ≠ invalidSharer := fun e => hid (e ▸ hi)
    have hp : (tracked ⟨l.sharers.replace invalidSharer (toSInt16 id),
        l.numTracked + 1⟩).Perm (toSInt16 id :: l.tracked) := fill_perm hi hx
    refine ⟨hid, .inl ⟨rfl, ⟨by simpa using hs.length, ?_, ?_⟩, rfl, hp⟩⟩
    · rw [hp.nodup_iff, nodup_cons]
      exact ⟨fun hm => hid (mem_tracked.mp hm).1, hs.nodup⟩
    · intro v hv
      rcases mem_cons.mp (hp.mem_iff.mp hv) with rfl | hv
      · exact toSInt16_range id
      · exact hs.range v hv
  · next hi => exact ⟨hid, .inr ⟨rfl, rfl, hi⟩⟩

theorem Exact.insert {l' : Limited} (h : Exact l S) (hN : N ≤ 32768) (ht : t ∉ S)
    (hc : l'.numTracked = l.numTracked + 1)
    (hp : l'.tracked.Perm (toSInt16 (tileId t) :: l.tracked)) : Exact l' (insert t S) where
  perm := by
    rw [toSInt16_tile hN] at hp
    refine hp.trans (((h.perm.cons _).trans ?_).trans ((Finset.toList_insert ht).map _).symm)
    rfl
  count := by simp [hc, h.count, ht]

theorem removeSharer_sat (hs : Sound maxHw l) (id : ℤ) :
    Sat (l.removeSharer id) (fun _ => toSInt16 id ∉ l.sharers) fun l' =>
      toSInt16 id ∈ l.sharers ∧ Sound maxHw l' ∧ l'.numTracked = l.numTracked - 1 ∧
        (toSInt16 id ≠ invalidSharer → (toSInt16 id :: l'.tracked).Perm l.tracked) := by
  unfold removeSharer
  split
  · next hm =>
    by_cases hx : toSInt16 id = invalidSharer
    · have he : l.sharers.replace (toSInt16 id) invalidSharer = l.sharers := by
        rw [hx]
        clear hm hs
        induction l.sharers with
        | nil => rfl
        | cons y ys ih =>
          cases hy : invalidSharer == y
          · simp [replace_cons, hy, ih]
          · simp_all
      refine ⟨hm, ⟨by simpa using hs.length, ?_, ?_⟩, rfl, fun h => absurd hx h⟩
      · have := hs.nodup; simpa only [tracked, he] using this
      · have := hs.range; simpa only [tracked, he] using this
    · have hp : (toSInt16 id :: tracked ⟨l.sharers.replace (toSInt16 id) invalidSharer,
        l.numTracked - 1⟩).Perm l.tracked := free_perm hm hx
      have hn := hp.nodup_iff.mpr hs.nodup
      refine ⟨hm, ⟨by simpa using hs.length, (nodup_cons.mp hn).2, ?_⟩, rfl, fun _ => hp⟩
      exact fun v hv => hs.range v (hp.mem_iff.mp (by simp [hv]))
  · next hm => exact hm

theorem Exact.erase {l' : Limited} (h : Exact l S) (hN : N ≤ 32768) (ht : t ∈ S)
    (hc : l'.numTracked = l.numTracked - 1)
    (hp : toSInt16 (tileId t) ≠ invalidSharer → (toSInt16 (tileId t) :: l'.tracked).Perm l.tracked) :
    Exact l' (S.erase t) where
  perm := by
    rw [toSInt16_tile hN] at hp
    have hS : S.toList.Perm (t :: (S.erase t).toList) := by
      conv_lhs => rw [← Finset.insert_erase ht]
      exact Finset.toList_insert (by simp)
    have := (hp (tile_ne_invalid t)).trans (h.perm.trans (hS.map _))
    exact this.cons_inv
  count := by
    have := Finset.card_erase_add_one ht
    rw [hc, h.count]; omega

theorem hasSharer_iff {id : ℤ} : l.hasSharer id = true ↔ id ∈ l.sharers := by
  simp [hasSharer]

section

variable (hs : l.Sound maxHw) (hx : l.Exact S)
include hs hx

theorem slots_of_mem (ht : t ∈ S) : maxHw ≠ 0 := by
  have hmem := hx.mem_iff.mpr ht
  rw [← hs.length]
  exact Nat.ne_of_gt (length_pos_of_mem hmem)

theorem addSharer_exact (hN : N ≤ 32768 ∨ maxHw = 0) (ht : t ∉ S) :
    (∃ l', l.addSharer (tileId t) = .ok (l', true) ∧ l'.Sound maxHw ∧ l'.Exact (insert t S)) ∨
      (l.addSharer (tileId t) = .ok (l, false) ∧ l.numTracked = l.sharers.length) := by
  rcases hN with hN | rfl
  · have hid : toSInt16 (tileId t) ∉ l.sharers := by
      rw [toSInt16_tile hN]
      exact fun hm => ht (hx.mem_iff.mp hm)
    have hsat := (addSharer_sat hs (tileId t)).imp (fun _ hm => hid hm) fun _ hr => hr
    obtain ⟨⟨l', added⟩, hr, -, hadd⟩ := hsat.exists_ok
    obtain ⟨rfl, hs', hc, hp⟩ | ⟨rfl, rfl, hi⟩ := hadd
    · exact .inl ⟨l', hr, hs', hx.insert hN ht hc hp⟩
    · exact .inr ⟨hr, (hx.full hs hi).1⟩
  · have hnil : l.sharers = [] := eq_nil_of_length_eq_zero hs.length
    refine .inr ⟨by simp [addSharer, hnil, check_pos], ?_⟩
    rw [← hx.length_tracked]
    simp [tracked, hnil]

theorem removeSharer_exact (hN : N ≤ 32768 ∨ maxHw = 0) (ht : t ∈ S) :
    ∃ l', l.removeSharer (tileId t) = .ok l' ∧ l'.Sound maxHw ∧ l'.Exact (S.erase t) := by
  replace hN := hN.resolve_right (slots_of_mem hs hx ht)
  have hid : toSInt16 (tileId t) ∈ l.sharers := by
    rw [toSInt16_tile hN]
    exact hx.mem_iff.mpr ht
  have hsat := (removeSharer_sat hs (tileId t)).imp (fun _ hm => hm hid) fun _ hr => hr
  obtain ⟨l', hr, -, hs', hc, hp⟩ := hsat.exists_ok
  exact ⟨l', hr, hs', hx.erase hN ht hc hp⟩

end

theorem addSharer_wide (n : ℕ) : (create (n + 1)).addSharer 32768 =
    .ok (⟨-32768 :: replicate n invalidSharer, 1⟩, true) := by
  have hcast : toSInt16 32768 = -32768 := by decide
  have hne : (-32768 : ℤ) ≠ invalidSharer := by decide
  simp [addSharer, create, hcast, hne, check_pos, replicate_succ]

end Limited

section Bits

variable {b : Fin N → Bool} {t : Fin N}

theorem mem_bitList : t ∈ bitList b ↔ b t = true := by
  simp [bitList]

theorem nodup_bitList (b : Fin N → Bool) : (bitList b).Nodup :=
  (nodup_finRange N).filter _

theorem bitList_set_perm (h : b t = false) : (bitList (update b t true)).Perm (t :: bitList b) := by
  refine (perm_ext_iff_of_nodup (nodup_bitList _) ?_).mpr fun u => ?_
  · simp [nodup_bitList, mem_bitList, h]
  · by_cases hu : u = t <;> simp [mem_bitList, hu]

theorem bitList_clear_perm (h : b t = true) :
    (t :: bitList (update b t false)).Perm (bitList b) := by
  refine (perm_ext_iff_of_nodup ?_ (nodup_bitList _)).mpr fun u => ?_
  · simp [nodup_bitList, mem_bitList]
  · by_cases hu : u = t <;> simp [mem_bitList, hu, h]

theorem length_bitList_of_iff {S : Finset (Fin N)} (h : ∀ t, b t = true ↔ t ∈ S) :
    (bitList b).length = S.card := by
  rw [← toFinset_card_of_nodup (nodup_bitList b)]
  congr 1
  ext t
  simp [mem_bitList, h]

/-- The bits a limitless entry migrates to are as many as the slots it migrates. -/
theorem length_bitList_tracked {maxHw : ℕ} {l : Limited} (h : l.Sound maxHw)
    (hr : ∀ v ∈ l.tracked, 0 ≤ v ∧ v < N) :
    (bitList fun t : Fin N => l.tracked.contains (tileId t)).length = l.tracked.length := by
  rw [← length_map tileId]
  refine List.Perm.length_eq ((perm_ext_iff_of_nodup
    ((nodup_bitList _).map tileId_injective) h.nodup).mpr fun v => ?_)
  simp only [mem_map, mem_bitList, contains_iff_mem]
  constructor
  · rintro ⟨t, ht, rfl⟩; exact ht
  · intro hv
    obtain ⟨h0, h1⟩ := hr v hv
    have ht : tileId (⟨v.toNat, by omega⟩ : Fin N) = v := Int.toNat_of_nonneg h0
    exact ⟨⟨v.toNat, by omega⟩, by rwa [ht], ht⟩

end Bits

/-- The slots stand for `S`: they count it, and list it when the tile numbers fit. -/
structure Limited.Holds (maxHw : ℕ) (l : Limited) (S : Finset (Fin N)) : Prop where
  sound : l.Sound maxHw
  count : l.numTracked = S.card
  exact : N ≤ 32768 → l.Exact S

namespace Limited.Holds

variable {maxHw : ℕ} {l : Limited} {S : Finset (Fin N)} {t : Fin N}

section

variable (h : l.Holds maxHw S)
include h

theorem has_iff (hN : N ≤ 32768) : l.hasSharer (tileId t) = true ↔ t ∈ S :=
  hasSharer_iff.trans (h.exact hN).mem_iff

theorem cast_mem_iff (hN : N ≤ 32768) : toSInt16 (tileId t) ∈ l.sharers ↔ t ∈ S := by
  rw [toSInt16_tile hN]; exact (h.exact hN).mem_iff

theorem addSharer (ht : t ∉ S) : Sat (l.addSharer (tileId t)) (fun _ => ¬ N ≤ 32768) fun r =>
      toSInt16 (tileId t) ∉ l.sharers ∧ ((r.2 = true ∧ r.1.Holds maxHw (insert t S)) ∨
        (r.2 = false ∧ r.1 = l ∧ invalidSharer ∉ l.sharers)) := by
  refine Sat.imp (addSharer_sat h.sound _) ?_ ?_
  · intro _ hm hN; exact ht ((h.cast_mem_iff hN).mp hm)
  · rintro r ⟨hid, ⟨hr, hs, hc, hp⟩ | hr⟩
    · refine ⟨hid, .inl ⟨hr, hs, by simp [hc, h.count, ht], fun hN => ?_⟩⟩
      exact (h.exact hN).insert hN ht hc hp
    · exact ⟨hid, .inr hr⟩

theorem removeSharer (ht : t ∈ S) :
    Sat (l.removeSharer (tileId t)) (fun _ => ¬ N ≤ 32768) fun l' => l'.Holds maxHw (S.erase t) := by
  refine Sat.imp (removeSharer_sat h.sound _) ?_ ?_
  · intro _ hm hN; exact hm ((h.cast_mem_iff hN).mpr ht)
  · rintro l' ⟨_, hs, hc, hp⟩
    refine ⟨hs, ?_, fun hN => (h.exact hN).erase hN ht hc hp⟩
    have := Finset.card_erase_add_one ht
    rw [hc, h.count]; omega

end

end Limited.Holds

theorem Limited.getSharersList_sat {l : Limited} {S T : Finset (Fin N)} (hT : T ⊆ S)
    (hx : N ≤ 32768 → l.Exact T) : Sat l.getSharersList (fun _ => ¬ N ≤ 32768) fun vs =>
      N ≤ 32768 → (∀ v ∈ vs, ∃ t ∈ S, tileId t = v) ∧ (T.Nonempty → vs ≠ []) := by
  refine sat_check_bind (fun _ hN => ⟨fun v hv => ?_, ?_⟩)
    fun hl hN => hl (hx hN).length_tracked.symm
  · obtain ⟨t, ht, rfl⟩ := (hx hN).mem_tracked_iff.mp hv
    exact ⟨t, hT ht, rfl⟩
  · rintro ⟨t, ht⟩ hnil
    have := (hx hN).mem_tracked_iff.mpr ⟨t, ht, rfl⟩
    rw [hnil] at this
    simp at this

namespace Sharers

/-- `e`, an entry of scheme `type`, stands for the sharer set `S`. -/
def Rep (type : DirectoryType) (maxHw : ℕ) (e : Sharers N) (S : Finset (Fin N)) : Prop :=
  match type, e with
  | .fullMap, .fullMap b => ∀ t, b t = true ↔ t ∈ S
  | .limitedNoBroadcast, .limitedNoBroadcast l => l.Holds maxHw S
  | .ackwise, .ackwise l g n => l.Sound maxHw ∧ l.numTracked + n = S.card ∧ 0 ≤ n ∧
      (g = true ↔ 0 < n) ∧ (N ≤ 32768 → ∃ R ⊆ S, l.Exact R)
  | .limitless, .limitless l none => l.Holds maxHw S
  | .limitless, .limitless _ (some b) =>
      (bitList b).length = S.card ∧ (N ≤ 32768 → ∀ t, b t = true ↔ t ∈ S)
  | _, _ => False

variable {type : DirectoryType} {maxHw : ℕ} {e : Sharers N} {S : Finset (Fin N)} {t : Fin N}
  {b : Fin N → Bool}

theorem rep_create (h : type ≠ .limitedBroadcast) : Rep type maxHw (.create N type maxHw) ∅ := by
  have hl : (Limited.create maxHw).Holds maxHw (∅ : Finset (Fin N)) :=
    ⟨Limited.sound_create, by simp [Limited.create], fun _ => Limited.exact_create⟩
  cases type with
  | fullMap => simp [Rep, create]
  | limitedNoBroadcast => exact hl
  | limitedBroadcast => exact absurd rfl h
  | ackwise =>
    exact ⟨hl.sound, by simp [hl.count], le_rfl, by simp,
      fun _ => ⟨∅, Finset.Subset.refl _, Limited.exact_create⟩⟩
  | limitless => exact hl

theorem Rep.num_eq (h : Rep type maxHw e S) : e.getNumSharers = S.card := by
  cases type <;> cases e <;> simp only [Rep] at h
  case fullMap.fullMap b => simp [getNumSharers, length_bitList_of_iff h]
  case limitedNoBroadcast.limitedNoBroadcast l => exact h.count
  case ackwise.ackwise l g n => exact h.2.1
  case limitless.limitless l sw =>
    cases sw with
    | none => exact h.count
    | some b => simp only at h; simp [getNumSharers, h.1]

theorem Rep.mem_of_has (h : Rep type maxHw e S) (hf : type.Fits maxHw N)
    (ht : e.hasSharer t = true) : t ∈ S := by
  have hN := hf.narrow
  cases type <;> cases e <;> simp only [Rep] at h
  case fullMap.fullMap b => exact (h t).mp ht
  case limitedNoBroadcast.limitedNoBroadcast l => exact (h.has_iff (hN (by simp))).mp ht
  case ackwise.ackwise l g n =>
    obtain ⟨R, hR, hx⟩ := h.2.2.2.2 (hN (by simp))
    exact hR (hx.mem_iff.mp (hasSharer_iff.mp ht))
  case limitless.limitless l sw =>
    cases sw with
    | none => exact (h.has_iff (hN (by simp))).mp ht
    | some b => exact (h.2 (hN (by simp)) t).mp ht

theorem length_bitList_set (h : b t = false) :
    (bitList (update b t true)).length = (bitList b).length + 1 :=
  (bitList_set_perm h).length_eq

theorem update_true_iff (h : ∀ u, b u = true ↔ u ∈ S) (u : Fin N) :
    update b t true u = true ↔ u ∈ insert t S := by
  by_cases hu : u = t <;> simp [hu, h]

theorem update_false_iff (h : ∀ u, b u = true ↔ u ∈ S) (u : Fin N) :
    update b t false u = true ↔ u ∈ S.erase t := by
  by_cases hu : u = t <;> simp [hu, h]

theorem Rep.holds_of_not_global {l : Limited} {n : ℤ} (h : Rep .ackwise maxHw (.ackwise l false n) S) :
    n = 0 ∧ l.Holds maxHw S := by
  obtain ⟨hs, hc, h0, hg, hx⟩ := h
  obtain rfl : n = 0 := by simp at hg; omega
  refine ⟨rfl, hs, by simpa using hc, fun hN => ?_⟩
  obtain ⟨R, hR, hl⟩ := hx hN
  obtain rfl : R = S := Finset.eq_of_subset_of_card_le hR (by have := hl.count; omega)
  exact hl

theorem Rep.of_holds {l : Limited} (h : l.Holds maxHw S) :
    Rep .ackwise maxHw (.ackwise l false 0) S :=
  ⟨h.sound, by simp [h.count], le_rfl, by simp, fun hN => ⟨S, Finset.Subset.refl _, h.exact hN⟩⟩

/-- Adding a tile that is no sharer. Only a full limited entry without broadcast refuses it. -/
theorem Rep.addSharer (h : Rep type maxHw e S) (ht : t ∉ S) :
    Sat (e.addSharer t) (fun _ => ¬ type.Fits maxHw N) fun r =>
      (r.2 = true ∧ Rep type maxHw r.1 (insert t S)) ∨
      (r.2 = false ∧ r.1 = e ∧ type = .limitedNoBroadcast ∧ (type.Fits maxHw N → S.Nonempty)) := by
  have hN : type ≠ .fullMap → ¬ N ≤ 32768 → ¬ type.Fits maxHw N := fun hne => mt (·.narrow hne)
  have hcard : ((insert t S).card : ℤ) = S.card + 1 := by simp [ht]
  cases type <;> cases e <;> simp only [Rep] at h
  case fullMap.fullMap b =>
    refine sat_check_bind (fun _ => ?_) fun hb => ?_
    · exact .inl ⟨rfl, update_true_iff h⟩
    · exact absurd ((h t).mp (by simpa using hb)) ht
  case limitedNoBroadcast.limitedNoBroadcast l =>
    refine sat_bind.mpr ((h.addSharer ht).imp (fun _ => hN (by simp)) ?_)
    rintro ⟨l', added⟩ ⟨-, ⟨rfl, hl⟩ | ⟨rfl, he, hi⟩⟩
    · exact .inl ⟨rfl, hl⟩
    · obtain rfl : l' = l := he
      refine .inr ⟨rfl, rfl, rfl, fun hf => ?_⟩
      obtain ⟨hN', h1⟩ := hf.resolve_left (by simp)
      have := ((h.exact hN').full h.sound hi).2
      rw [← Finset.card_pos]
      have := h.count
      simp at h1
      omega
  case ackwise.ackwise l g n =>
    cases g with
    | true =>
      obtain ⟨hs, hc, h0, hg, hx⟩ := h
      refine .inl ⟨rfl, hs, by omega, by omega, ?_, fun hN => ?_⟩
      · simp; omega
      · obtain ⟨R, hR, hl⟩ := hx hN
        exact ⟨R, hR.trans (Finset.subset_insert _ _), hl⟩
    | false =>
      obtain ⟨rfl, hl⟩ := Rep.holds_of_not_global h
      refine sat_bind.mpr ((hl.addSharer ht).imp (fun _ => hN (by simp)) ?_)
      rintro ⟨l', added⟩ ⟨-, ⟨rfl, hl'⟩ | ⟨rfl, he, hi⟩⟩
      · exact .inl ⟨rfl, Rep.of_holds hl'⟩
      · obtain rfl : l' = l := he
        refine sat_check_bind (fun _ => ?_) fun hn => hN (by simp) fun hN' => hn ?_
        · have hc : l'.numTracked + 1 = (insert t S).card := by have := hl.count; omega
          refine .inl ⟨rfl, hl.sound, hc, by omega, by simp, fun hN' => ?_⟩
          exact ⟨S, Finset.subset_insert _ _, hl.exact hN'⟩
        · exact ⟨rfl, ((hl.exact hN').full hl.sound hi).1⟩
  case limitless.limitless l sw =>
    cases sw with
    | some b =>
      refine sat_check_bind (fun hb => ?_) fun hb => hN (by simp) fun hN' => ?_
      · refine .inl ⟨rfl, ?_, fun hN' => update_true_iff (h.2 hN')⟩
        have := length_bitList_set hb
        have := h.1
        omega
      · exact ht ((h.2 hN' t).mp (by simpa using hb))
    | none =>
      simp only at h
      refine sat_bind.mpr ((h.addSharer ht).imp (fun _ => hN (by simp)) ?_)
      rintro ⟨l', added⟩ ⟨hid, ⟨rfl, hl'⟩ | ⟨rfl, he, hi⟩⟩
      · exact .inl ⟨rfl, hl'⟩
      · obtain rfl : l' = l := he
        have hlen := fun hN' => (h.exact hN').length_tracked
        have htr : tileId t ∉ l'.tracked := fun hm => hid (by
          have hr := h.sound.range _ hm
          rw [toSInt16_of_small (by unfold tileId; omega) (by omega)]
          exact (mem_tracked.mp hm).1)
        have hbt : l'.tracked.contains (tileId t) = false := by simpa using htr
        refine sat_bind.mpr (sat_check_bind (fun hr => ?_) fun hr => hN (by simp)
          fun hN' => hr fun v hv => ?_)
        · refine sat_check_bind (fun h0 => .inl ⟨rfl, ?_, fun hN' => ?_⟩) fun h0 => hN (by simp) fun hN' => h0 ?_
          · have h1 := length_bitList_set (b := fun t => l'.tracked.contains (tileId t)) hbt
            have h2 := length_bitList_tracked h.sound hr
            have h3 := h.count
            simp only at h0 h1 h2
            omega
          · refine update_true_iff fun u => ?_
            simp [mem_tracked, tile_ne_invalid, (h.exact hN').mem_iff]
          · have := hlen hN'
            simp only
            omega
        · obtain ⟨u, -, rfl⟩ := (h.exact hN').mem_tracked_iff.mp hv
          have := u.isLt
          unfold tileId
          omega

/-- Except under ackwise, the tiles an entry reports are exactly its sharers. -/
theorem Rep.has_iff (h : Rep type maxHw e S) (hf : type.Fits maxHw N) (hne : type ≠ .ackwise) :
    e.hasSharer t = true ↔ t ∈ S := by
  have hN := hf.narrow
  cases type <;> cases e <;> simp only [Rep] at h
  case fullMap.fullMap b => exact h t
  case limitedNoBroadcast.limitedNoBroadcast l => exact h.has_iff (hN (by simp))
  case ackwise.ackwise l g n => exact absurd rfl hne
  case limitless.limitless l sw =>
    cases sw with
    | none => exact h.has_iff (hN (by simp))
    | some b => exact h.2 (hN (by simp)) t

theorem Rep.addSharer_first (h : Rep type maxHw e ∅) :
    Sat (e.addSharer t) (fun _ => ¬ type.Fits maxHw N) fun r =>
      (r.2 = true → Rep type maxHw r.1 {t}) ∧
      (type.Fits maxHw N → r.2 = true ∧ r.1.hasSharer t = true) := by
  have hadd := h.addSharer (Finset.notMem_empty t)
  by_cases hf : type.Fits maxHw N
  swap
  · refine hadd.mono fun r hr => ⟨fun hr2 => ?_, fun hf' => absurd hf' hf⟩
    rcases hr with ⟨-, hr⟩ | ⟨hr, -⟩
    · simpa using hr
    · simp [hr] at hr2
  by_cases hne : type = .ackwise
  · subst hne
    obtain ⟨hN, h1⟩ := hf.resolve_left (by simp)
    cases e <;> simp only [Rep] at h
    next l g n =>
    obtain ⟨R, hR, hx⟩ := h.2.2.2.2 hN
    have hn : n = 0 := by have := hx.count; have := h.2.1; simp at this; omega
    obtain rfl : g = false := by have := h.2.2.2.1; simpa [hn] using this
    have hl := (Rep.holds_of_not_global h).2
    have hsat := hl.addSharer (t := t) (Finset.notMem_empty t)
    refine sat_bind.mpr (hsat.imp (fun _ hN' => absurd hN hN') ?_)
    rintro ⟨l', added⟩ ⟨-, ⟨rfl, hl'⟩ | ⟨rfl, he, hi⟩⟩
    · have hl' : l'.Holds maxHw {t} := by simpa using hl'
      subst hn
      exact ⟨fun _ => Rep.of_holds hl', fun _ => ⟨rfl, (hl'.has_iff hN).mpr (by simp)⟩⟩
    · have := ((hl.exact hN).full hl.sound hi).2
      have := hl.count
      simp at h1 this
      omega
  · refine hadd.mono fun r hr => ?_
    rcases hr with ⟨hr2, hr⟩ | ⟨-, -, -, hS⟩
    · have hr : Rep type maxHw r.1 {t} := by simpa using hr
      exact ⟨fun _ => hr, fun _ => ⟨hr2, (hr.has_iff hf hne).mpr (by simp)⟩⟩
    · exact absurd (hS hf) (by simp)

theorem length_bitList_clear (h : b t = true) :
    (bitList (update b t false)).length + 1 = (bitList b).length :=
  (bitList_clear_perm h).length_eq

theorem Rep.removeSharer (h : Rep type maxHw e S) (ht : t ∈ S) :
    Sat (e.removeSharer t false) (fun _ => ¬ type.Fits maxHw N) fun e' =>
      Rep type maxHw e' (S.erase t) := by
  have hN : type ≠ .fullMap → ¬ N ≤ 32768 → ¬ type.Fits maxHw N := fun hne => mt (·.narrow hne)
  have hcard := Finset.card_erase_add_one ht
  cases type <;> cases e <;> simp only [Rep] at h
  case fullMap.fullMap b =>
    refine sat_check_bind (fun _ => ?_) fun hr => absurd rfl hr
    refine sat_check_bind (fun _ => update_false_iff h) fun hb => ?_
    exact absurd ((h t).mpr ht) hb
  case limitedNoBroadcast.limitedNoBroadcast l =>
    refine sat_check_bind (fun _ => ?_) fun hr => absurd rfl hr
    exact sat_bind.mpr ((h.removeSharer ht).imp (fun _ => hN (by simp)) fun l' hl' => hl')
  case ackwise.ackwise l g n =>
    refine sat_check_bind (fun _ => ?_) fun hr => absurd rfl hr
    cases g with
    | false =>
      obtain ⟨rfl, hl⟩ := Rep.holds_of_not_global h
      exact sat_bind.mpr ((hl.removeSharer ht).imp (fun _ => hN (by simp))
        fun l' hl' => Rep.of_holds hl')
    | true =>
      obtain ⟨hs, hc, h0, hg, hx⟩ := h
      refine sat_check_bind (fun hn => ?_) fun hn => absurd (hg.mp rfl) hn
      by_cases hh : l.hasSharer (tileId t) = true
      · rw [if_pos hh]
        refine sat_bind.mpr ((removeSharer_sat hs _).imp (fun _ hm => hN (by simp)
          fun hN' => hm ?_) ?_)
        · rw [toSInt16_tile hN']; exact hasSharer_iff.mp hh
        · rintro l' ⟨-, hs', hc', hp⟩
          refine ⟨hs', by omega, h0, hg, fun hN' => ?_⟩
          obtain ⟨R, hR, hl⟩ := hx hN'
          exact ⟨R.erase t, Finset.erase_subset_erase _ hR,
            hl.erase hN' (hl.mem_iff.mp (hasSharer_iff.mp hh)) hc' hp⟩
      · rw [if_neg hh]
        refine ⟨hs, by omega, by omega, by simp; omega, fun hN' => ?_⟩
        obtain ⟨R, hR, hl⟩ := hx hN'
        exact ⟨R, Finset.subset_erase.mpr ⟨hR, fun hm =>
          hh (hasSharer_iff.mpr (hl.mem_iff.mpr hm))⟩, hl⟩
  case limitless.limitless l sw =>
    cases sw with
    | none =>
      simp only at h
      refine sat_check_bind (fun _ => ?_) fun hr => absurd rfl hr
      exact sat_bind.mpr ((h.removeSharer ht).imp (fun _ => hN (by simp)) fun l' hl' => hl')
    | some b =>
      refine sat_check_bind (fun _ => ?_) fun hr => absurd rfl hr
      refine sat_check_bind (fun hb => ⟨?_, fun hN' => update_false_iff (h.2 hN')⟩) fun hb => hN (by simp) fun hN' => hb ((h.2 hN' t).mpr ht)
      have := length_bitList_clear hb
      have := h.1
      omega

theorem Rep.getSharersList (h : Rep type maxHw e S) :
    Sat e.getSharersList (fun _ => ¬ type.Fits maxHw N) fun r =>
      type.Fits maxHw N → (∀ v ∈ r.2, ∃ t ∈ S, tileId t = v) ∧
        (type = .limitedNoBroadcast → S.Nonempty → r.2 ≠ []) := by
  have hlist : ∀ {l : Limited} {R}, (N ≤ 32768 → l.Exact R) → R ⊆ S → type ≠ .fullMap →
      Sat l.getSharersList (fun _ => ¬ type.Fits maxHw N) fun vs => type.Fits maxHw N →
        (∀ v ∈ vs, ∃ t ∈ S, tileId t = v) ∧ (R.Nonempty → vs ≠ []) := fun hx hR hne =>
    (Limited.getSharersList_sat hR hx).imp (fun _ => mt (·.narrow hne)) fun _ h hf =>
      h (hf.narrow hne)
  cases type <;> cases e <;> simp only [Rep] at h
  case fullMap.fullMap b =>
    refine fun _ => ⟨fun v hv => ?_, by simp⟩
    obtain ⟨t, ht, rfl⟩ := mem_map.mp hv
    exact ⟨t, (h t).mp (mem_bitList.mp ht), rfl⟩
  case limitedNoBroadcast.limitedNoBroadcast l =>
    exact sat_bind.mpr ((hlist h.exact (Finset.Subset.refl _) (by simp)).mono
      fun vs hvs hf => ⟨(hvs hf).1, fun _ => (hvs hf).2⟩)
  case ackwise.ackwise l g n =>
    by_cases hN' : N ≤ 32768
    · obtain ⟨R, hR, hx⟩ := h.2.2.2.2 hN'
      exact sat_bind.mpr ((hlist (fun _ => hx) hR (by simp)).mono
        fun vs hvs hf => ⟨(hvs hf).1, by simp⟩)
    · exact sat_bind.mpr ((hlist (R := ∅) (fun h => absurd h hN') (by simp) (by simp)).mono
        fun vs hvs hf => absurd (hf.narrow (by simp)) hN')
  case limitless.limitless l sw =>
    cases sw with
    | none =>
      simp only at h
      exact sat_bind.mpr ((hlist h.exact (Finset.Subset.refl _) (by simp)).mono
        fun vs hvs hf => ⟨(hvs hf).1, by simp⟩)
    | some b =>
      refine fun hf => ⟨fun v hv => ?_, by simp⟩
      obtain ⟨t, ht, rfl⟩ := mem_map.mp hv
      exact ⟨t, (h.2 (hf.narrow (by simp)) t).mp (mem_bitList.mp ht), rfl⟩

theorem Rep.getOneSharer (h : Rep type maxHw e S) (hl : type = .limitedNoBroadcast)
    (hS : type.Fits maxHw N → S.Nonempty) (rnd : ℕ) :
    Sat (e.getOneSharer rnd) (fun _ => ¬ type.Fits maxHw N) fun v =>
      type.Fits maxHw N → ∃ t ∈ S, tileId t = v := by
  refine sat_bind.mpr (h.getSharersList.mono ?_)
  rintro ⟨all, vs⟩ hvs hf
  obtain ⟨hmem, hne⟩ := hvs hf
  have hpos : 0 < vs.length := length_pos_iff.mpr (hne hl (hS hf))
  have hlt : rnd % vs.length < vs.length := Nat.mod_lt _ hpos
  refine hmem _ ?_
  simp [getD_eq_getElem?_getD, getElem?_eq_getElem hlt]

end Sharers

namespace DirectoryEntry

variable {e : DirectoryEntry N} {t : Fin N} {E : Fault → Prop} {Q : DirectoryEntry N → Prop}

theorem sat_addSharer {Q : DirectoryEntry N × Bool → Prop} : Sat (e.addSharer t) E Q ↔
    Sat (e.sharers.addSharer t) E fun r => Q ({ e with sharers := r.1 }, r.2) :=
  sat_bind

theorem sat_removeSharer {replyExpected : Bool} : Sat (e.removeSharer t replyExpected) E Q ↔
      Sat (e.sharers.removeSharer t replyExpected) E fun s => Q { e with sharers := s } :=
  sat_bind

theorem sat_setOwner {o : Option (Fin N)} :
    Sat (e.setOwner o) E Q ↔ ((∀ t ∈ o, e.sharers.hasSharer t = true) → Q { e with owner := o }) ∧
      (¬ (∀ t ∈ o, e.sharers.hasSharer t = true) → E .ownerNotSharer) := by
  rw [setOwner, sat_bind, sat_check]
  simp only [Option.all_eq_true, sat_pure, Option.mem_def]

end DirectoryEntry

end Graphite
