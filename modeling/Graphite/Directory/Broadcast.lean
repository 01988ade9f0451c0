import Graphite.Directory.Sharers
import Mathlib.Data.Fintype.Card

/-! # Sharer sets under broadcasts

A limited_broadcast entry without a free slot counts tiles, not sharers: all tiles, and during an
invalidation those whose reply is still to come. `Sharers.Covers` adds this set of tiles to `Rep` and
holds for all five schemes. A tile stays reported until it is removed itself.
-/

namespace Graphite

open Outcome Finset Limited List

variable {N : ℕ}

namespace Sharers

/-- The entry has run out of slots and asks all tiles for a reply. -/
def broadcasts : Sharers N → Bool
  | limitedBroadcast _ g _ => g
  | _ => false

/-- `e`, an entry of scheme `type`, stands for the sharer set `S`, and the tiles of `R` have still to
answer a broadcast. -/
def Covers (type : DirectoryType) (maxHw : ℕ) (e : Sharers N) (S R : Finset (Fin N)) : Prop :=
  match type, e with
  | .limitedBroadcast, .limitedBroadcast l false n => R = ∅ ∧ n = 0 ∧ l.Holds maxHw S
  | .limitedBroadcast, .limitedBroadcast l true n => l.Sound maxHw ∧
      n = (if R = ∅ then N else R.card : ℕ) ∧ (R ≠ ∅ → S ⊆ R) ∧ (maxHw ≠ 0 → 1 < N) ∧
      (N ≤ 32768 → ∃ T ⊆ S, l.Exact T)
  | _, _ => R = ∅ ∧ Rep type maxHw e S

variable {type : DirectoryType} {maxHw : ℕ} {e : Sharers N} {S R : Finset (Fin N)} {t : Fin N}

theorem Covers.cases (h : Covers type maxHw e S R) :
    (type ≠ .limitedBroadcast ∧ e.broadcasts = false ∧ R = ∅ ∧ Rep type maxHw e S) ∨
    (type = .limitedBroadcast ∧ ∃ l n, e = .limitedBroadcast l false n ∧ R = ∅ ∧ n = 0 ∧
      l.Holds maxHw S) ∨
    (type = .limitedBroadcast ∧ ∃ l n, e = .limitedBroadcast l true n ∧ l.Sound maxHw ∧
      n = (if R = ∅ then N else R.card : ℕ) ∧ (R ≠ ∅ → S ⊆ R) ∧ (maxHw ≠ 0 → 1 < N) ∧
      (N ≤ 32768 → ∃ T ⊆ S, l.Exact T)) := by
  unfold Covers at h
  split at h
  · exact .inr (.inl ⟨rfl, _, _, rfl, h⟩)
  · exact .inr (.inr ⟨rfl, _, _, rfl, h⟩)
  · next h1 h2 =>
    left
    have hty : type ≠ .limitedBroadcast := by
      rintro rfl
      have := h.2
      cases e <;> simp only [Rep] at this
    refine ⟨hty, ?_, h⟩
    cases type <;> cases e <;> simp_all [Rep, broadcasts]

theorem Covers.of_rep (h : Rep type maxHw e S) : Covers type maxHw e S ∅ := by
  unfold Covers
  split
  · exact absurd h (by simp [Rep])
  · exact absurd h (by simp [Rep])
  · exact ⟨rfl, h⟩

theorem covers_create : Covers type maxHw (.create N type maxHw) ∅ ∅ := by
  by_cases h : type = .limitedBroadcast
  · subst h
    exact ⟨rfl, rfl, Limited.sound_create, by simp [Limited.create], fun _ => Limited.exact_create⟩
  · exact .of_rep (rep_create h)

theorem broadcasts_create : (Sharers.create N type maxHw).broadcasts = false := by
  cases type <;> rfl

section

variable (h : Covers type maxHw e S R)
include h

theorem Covers.num_eq (hb : e.broadcasts = false) : e.getNumSharers = S.card := by
  rcases h.cases with ⟨-, -, -, h⟩ | ⟨-, l, n, rfl, -, -, h⟩ | ⟨-, l, n, rfl, -⟩
  · exact h.num_eq
  · simpa [getNumSharers] using h.count
  · cases hb

theorem Covers.num_broadcast (hb : e.broadcasts = true) :
    e.getNumSharers = (if R = ∅ then N else R.card : ℕ) := by
  rcases h.cases with ⟨-, hb', -⟩ | ⟨-, l, n, rfl, -⟩ | ⟨-, l, n, rfl, -, hn, -⟩
  · simp [hb] at hb'
  · cases hb
  · simpa [getNumSharers] using hn

theorem Covers.pending (hR : R ≠ ∅) : e.broadcasts = true ∧ S ⊆ R := by
  rcases h.cases with ⟨-, -, hR', -⟩ | ⟨-, l, n, -, hR', -⟩ | ⟨-, l, n, rfl, -, -, hS, -⟩
  · exact absurd hR' hR
  · exact absurd hR' hR
  · exact ⟨rfl, hS hR⟩

theorem Covers.type_of_broadcasts (hb : e.broadcasts = true) : type = .limitedBroadcast := by
  rcases h.cases with ⟨-, hb', -⟩ | ⟨hty, -⟩ | ⟨hty, -⟩
  · simp [hb] at hb'
  · exact hty
  · exact hty

end

theorem Covers.start (h : Covers type maxHw e S ∅) (hb : e.broadcasts = true) :
    Covers type maxHw e S univ := by
  rcases h.cases with ⟨-, hb', -⟩ | ⟨-, l, n, rfl, -⟩ | ⟨rfl, l, n, rfl, hs, hn, -, hN, hx⟩
  · simp [hb] at hb'
  · cases hb
  · refine ⟨hs, ?_, fun _ => subset_univ _, hN, hx⟩
    simpa using hn

theorem one_lt_of_notMem (hS : S.Nonempty) (ht : t ∉ S) : 1 < N := by
  have h1 := card_pos.mpr hS
  have h2 := card_insert_of_notMem ht
  have h3 := card_le_univ (insert t S)
  rw [Fintype.card_fin] at h3
  omega

section

variable (h : Covers type maxHw e S R)
include h

theorem Covers.num_pos_of_broadcasts (hN : 0 < N)
    (hb : e.broadcasts = true) : 0 < e.getNumSharers := by
  rw [h.num_broadcast hb]
  split
  · exact_mod_cast hN
  · next hR => exact_mod_cast card_pos.mpr (nonempty_iff_ne_empty.mpr hR)

theorem Covers.card_le : S.card ≤ e.getNumSharers := by
  cases hb : e.broadcasts with
  | false => rw [h.num_eq hb]
  | true =>
    rw [h.num_broadcast hb]
    split
    · exact_mod_cast (card_le_univ S).trans_eq (Fintype.card_fin N)
    · next hR => exact_mod_cast card_le_card (h.pending hR).2

theorem Covers.num_pos (hS : S.Nonempty) : 0 < e.getNumSharers :=
  (Int.natCast_pos.mpr (card_pos.mpr hS)).trans_le h.card_le

theorem Covers.num_nonneg : 0 ≤ e.getNumSharers :=
  (Int.natCast_nonneg _).trans h.card_le

theorem Covers.eq_empty (h0 : e.getNumSharers = 0) : S = ∅ := by
  by_contra hS
  have := h.num_pos (nonempty_iff_ne_empty.mpr hS)
  omega

end

/-- `removeSharer` of a limited_broadcast entry: the slot is freed, then the reply is counted. -/
theorem removeSharer_limitedBroadcast {l : Limited} {g replyExpected : Bool} {n : ℤ} :
    (limitedBroadcast l g n : Sharers N).removeSharer t replyExpected =
      (if g && !l.hasSharer (tileId t) then pure l else l.removeSharer (tileId t)) >>= fun l =>
        if replyExpected then do
          check (g = true) .broadcastDisabled
          if n - 1 = 0 then
            check (l.numTracked = 0) .trackedCount
            pure (limitedBroadcast l false (n - 1))
          else
            pure (limitedBroadcast l g (n - 1))
        else
          pure (limitedBroadcast l g n) := by
  simp only [Sharers.removeSharer]
  split <;> rfl

/-! ### Reported tiles -/

theorem Covers.mem_of_has (h : Covers type maxHw e S R) (hf : type.Fits maxHw N)
    (ht : e.hasSharer t = true) : t ∈ S := by
  rcases h.cases with ⟨-, -, -, h⟩ | ⟨rfl, l, n, rfl, -, -, h⟩ | ⟨rfl, l, n, rfl, -, -, -, -, hx⟩
  · exact h.mem_of_has hf ht
  · exact (h.has_iff (hf.narrow (by simp))).mp ht
  · obtain ⟨T, hT, hx⟩ := hx (hf.narrow (by simp))
    exact hT (hx.mem_iff.mp (hasSharer_iff.mp ht))

theorem Covers.rep (h : Covers type maxHw e S R) (hty : type ≠ .limitedBroadcast) :
    Rep type maxHw e S := by
  rcases h.cases with ⟨-, -, -, h⟩ | ⟨hty', -⟩ | ⟨hty', -⟩
  · exact h
  · exact absurd hty' hty
  · exact absurd hty' hty

theorem Covers.single (h : Covers type maxHw e S ∅) (ht : e.hasSharer t = true)
    (h1 : e.getNumSharers = 1) : e.broadcasts = false ∧ S.card = 1 := by
  have hb : e.broadcasts = false := by
    rcases h.cases with ⟨-, hb, -⟩ | ⟨-, l, n, rfl, -⟩ | ⟨-, l, n, rfl, hs, hn, -, hN, -⟩
    · exact hb
    · rfl
    · -- a slot is in use, so there were at least two tiles when the entry ran out of slots
      have hlen := length_pos_of_mem (hasSharer_iff.mp ht)
      have := hN (by rw [← hs.length]; omega)
      have h1' : n = 1 := h1
      rw [if_pos rfl] at hn
      omega
  refine ⟨hb, ?_⟩
  have := h.num_eq hb
  omega

theorem mem_replace_of_ne {xs : List ℤ} {x y v : ℤ} (hv : v ∈ xs) (hne : v ≠ x) :
    v ∈ xs.replace x y := by
  induction xs with
  | nil => simp at hv
  | cons z zs ih =>
    rw [replace_cons]
    split
    · next hz =>
      have hz : x = z := by simpa using hz
      have : v ≠ z := hz ▸ hne
      have : v ∈ zs := by simpa [this] using hv
      simp [this]
    · rcases mem_cons.mp hv with rfl | hv
      · simp
      · simp [ih hv]

theorem hasSharer_addSlot (l : Limited) (id : ℤ) : Ensures (l.addSharer id)
    fun r => ∀ u : Fin N, l.hasSharer (tileId u) = true → r.1.hasSharer (tileId u) = true := by
  refine ensures_bind fun _ => ?_
  split
  · intro u hu
    rw [hasSharer_iff] at hu ⊢
    exact mem_replace_of_ne hu (tile_ne_invalid u)
  · exact fun _ hu => hu

theorem hasSharer_addSharer : Ensures (e.addSharer t) fun r =>
    ∀ u, e.hasSharer u = true → r.1.hasSharer u = true := by
  have hadd := fun l => hasSharer_addSlot (N := N) l (tileId t)
  cases e with
  | fullMap b =>
    refine sat_check_bind (fun _ u hu => ?_) fun _ => trivial
    by_cases hut : u = t
    · simp [hasSharer, hut]
    · simpa [hasSharer, hut] using hu
  | limitedNoBroadcast l => exact sat_bind.mpr ((hadd l).mono fun r hr => hr)
  | limitedBroadcast l g n =>
    cases g with
    | true => exact fun _ hu => hu
    | false =>
      refine sat_bind.mpr ((hadd l).mono fun r hr => ?_)
      dsimp only
      split
      · exact hr
      · exact ensures_bind fun _ => hr
  | ackwise l g n =>
    cases g with
    | true => exact fun _ hu => hu
    | false =>
      refine sat_bind.mpr ((hadd l).mono fun r hr => ?_)
      dsimp only
      split
      · exact hr
      · exact ensures_bind fun _ => hr
  | limitless l sw =>
    cases sw with
    | some b =>
      refine sat_check_bind (fun _ u hu => ?_) fun _ => trivial
      by_cases hut : u = t
      · simp [hasSharer, hut]
      · simpa [hasSharer, hut] using hu
    | none =>
      refine sat_bind.mpr ((hadd l).mono fun r hr => ?_)
      dsimp only
      split
      · exact hr
      · refine sat_bind.mpr (ensures_bind fun _ => ?_)
        refine sat_check_bind (fun _ u hu => ?_) fun _ => trivial
        by_cases hut : u = t
        · simp [hasSharer, hut]
        · have hu : tileId u ∈ l.sharers := hasSharer_iff.mp hu
          simp [hasSharer, hut, mem_tracked, tile_ne_invalid, hu]

theorem hasSharer_freeSlot (hN : N ≤ 32768) (l : Limited) :
    Ensures (l.removeSharer (tileId t)) fun l' =>
      ∀ u ≠ t, l.hasSharer (tileId u) = true → l'.hasSharer (tileId u) = true := by
  unfold Limited.removeSharer
  split
  · intro u hut hu
    rw [hasSharer_iff] at hu ⊢
    refine mem_replace_of_ne hu ?_
    rw [toSInt16_tile hN]
    exact fun he => hut (tileId_injective he)
  · trivial

theorem Covers.narrow (h : Covers type maxHw e S R) (hf : type.Fits maxHw N) :
    (∃ b, e = .fullMap b) ∨ N ≤ 32768 := by
  rcases hf with rfl | ⟨hN, -⟩
  · left
    rcases h.cases with ⟨-, -, -, h⟩ | ⟨hty, -⟩ | ⟨hty, -⟩
    · cases e with
      | fullMap b => exact ⟨b, rfl⟩
      | _ => cases h
    · cases hty
    · cases hty
  · exact .inr hN

theorem hasSharer_removeSharer {replyExpected : Bool} (hN : (∃ b, e = .fullMap b) ∨ N ≤ 32768) :
    Ensures (e.removeSharer t replyExpected) fun e' =>
      ∀ u ≠ t, e.hasSharer u = true → e'.hasSharer u = true := by
  have hbits : ∀ b : Fin N → Bool, ∀ u ≠ t, b u = true → Function.update b t false u = true :=
    fun b u hut hu => by simpa [hut] using hu
  cases e with
  | fullMap b =>
    refine ensures_bind fun _ => ?_
    exact ensures_bind fun _ => hbits b
  | limitedNoBroadcast l =>
    refine ensures_bind fun _ => ?_
    exact sat_bind.mpr ((hasSharer_freeSlot (hN.resolve_left (by simp)) l).mono fun _ hl => hl)
  | limitedBroadcast l g n =>
    have hfree : Ensures (if g && !l.hasSharer (tileId t) then pure l else l.removeSharer (tileId t)) fun l' =>
          ∀ u ≠ t, l.hasSharer (tileId u) = true → l'.hasSharer (tileId u) = true := by
      split
      · exact fun _ _ hu => hu
      · exact hasSharer_freeSlot (hN.resolve_left (by simp)) l
    rw [removeSharer_limitedBroadcast]
    refine sat_bind.mpr (hfree.mono fun l' hl => ?_)
    split
    · refine ensures_bind fun _ => ?_
      split
      · exact ensures_bind fun _ => hl
      · exact hl
    · exact hl
  | ackwise l g n =>
    refine ensures_bind fun _ => ?_
    have hfree := hasSharer_freeSlot (t := t) (hN.resolve_left (by simp)) l
    split
    · refine ensures_bind fun _ => ?_
      split
      · exact sat_bind.mpr (hfree.mono fun _ hl => hl)
      · exact fun _ _ hu => hu
    · exact sat_bind.mpr (hfree.mono fun _ hl => hl)
  | limitless l sw =>
    cases sw with
    | some b =>
      refine ensures_bind fun _ => ?_
      exact ensures_bind fun _ => hbits b
    | none =>
      refine ensures_bind fun _ => ?_
      exact sat_bind.mpr ((hasSharer_freeSlot (hN.resolve_left (by simp)) l).mono fun _ hl => hl)

/-! ### Adding and removing -/

theorem broadcasts_addSharer : Ensures (e.addSharer t) fun r =>
    e.broadcasts = true → r.1.broadcasts = true := by
  cases hb : e.broadcasts with
  | false => exact .of_forall (fun _ => trivial) fun _ h => by cases h
  | true =>
    cases e with
    | limitedBroadcast l g n => cases hb; exact fun _ => rfl
    | _ => cases hb

theorem broadcasts_removeSharer : Sat (e.removeSharer t false) (fun _ => True) fun e' =>
    e.broadcasts = true → e'.broadcasts = true := by
  cases hb : e.broadcasts with
  | false => exact .of_forall (fun _ => trivial) fun _ h => by cases h
  | true =>
    cases e with
    | limitedBroadcast l g n =>
      cases hb
      rw [removeSharer_limitedBroadcast, sat_bind]
      exact .of_forall (fun _ => trivial) fun _ _ => rfl
    | _ => cases hb

/-- Adding a tile that is no sharer. Only a full limited entry without broadcast refuses it. -/
theorem Covers.addSharer (h : Covers type maxHw e S ∅) (ht : t ∉ S) :
    Sat (e.addSharer t) (fun _ => ¬ type.Fits maxHw N) fun r =>
      (r.2 = true ∧ Covers type maxHw r.1 (insert t S) ∅) ∨
      (r.2 = false ∧ r.1 = e ∧ type = .limitedNoBroadcast ∧ (type.Fits maxHw N → S.Nonempty)) := by
  rcases h.cases with ⟨-, -, -, h'⟩ | ⟨rfl, l, n, rfl, -, rfl, h'⟩ | ⟨rfl, l, n, rfl, hs, hn, -, hN, hx⟩
  · refine (h'.addSharer ht).mono fun r hr => hr.imp_left fun ⟨hr2, hr⟩ => ⟨hr2, .of_rep hr⟩
  · have hno : ¬ N ≤ 32768 → ¬ DirectoryType.limitedBroadcast.Fits maxHw N := mt (·.narrow (by simp))
    refine sat_bind.mpr ((h'.addSharer ht).imp (fun _ => hno) ?_)
    rintro ⟨l', added⟩ ⟨-, ⟨rfl, hl⟩ | ⟨rfl, he, hi⟩⟩
    · exact .inl ⟨rfl, rfl, rfl, hl⟩
    · obtain rfl : l' = l := he
      refine sat_check_bind (fun hc => ?_) fun hc => hno fun hN => hc ?_
      · refine .inl ⟨rfl, h'.sound, by simp, by simp, fun hm => ?_, fun hN => ?_⟩
        · have h1 := h'.count
          have h2 := h'.sound.length
          exact one_lt_of_notMem (card_pos.mp (by omega)) ht
        · exact ⟨S, subset_insert _ _, h'.exact hN⟩
      · exact ⟨rfl, ((h'.exact hN).full h'.sound hi).1⟩
  · refine .inl ⟨rfl, hs, hn, by simp, hN, fun hN' => ?_⟩
    obtain ⟨T, hT, hx⟩ := hx hN'
    exact ⟨T, hT.trans (subset_insert _ _), hx⟩

theorem Covers.addSharer_first (h : Covers type maxHw e ∅ ∅) (hb : e.broadcasts = false) :
    Sat (e.addSharer t) (fun _ => ¬ type.Fits maxHw N) fun r =>
      (r.2 = true → Covers type maxHw r.1 {t} ∅) ∧
      (type.Fits maxHw N → r.2 = true ∧ r.1.hasSharer t = true) ∧
      (r.1.hasSharer t = true → r.1.broadcasts = false) := by
  have hadd := h.addSharer (notMem_empty t)
  rcases h.cases with ⟨hty, -, -, h'⟩ | ⟨rfl, l, n, rfl, -, rfl, h'⟩ | ⟨rfl, l, n, rfl, -⟩
  · refine (hadd.and h'.addSharer_first).imp (fun _ => And.left) ?_
    rintro r ⟨hr, -, hfit⟩
    refine ⟨fun hr2 => ?_, hfit, fun _ => ?_⟩
    · rcases hr with ⟨-, hr⟩ | ⟨hr, -⟩
      · simpa using hr
      · simp [hr2] at hr
    · rcases hr with ⟨-, hr⟩ | ⟨-, hr, -⟩
      · by_contra hb'
        exact hty (hr.type_of_broadcasts (by simpa using hb'))
      · rw [hr, hb]
  · have hno : ¬ N ≤ 32768 → ¬ DirectoryType.limitedBroadcast.Fits maxHw N := mt (·.narrow (by simp))
    refine sat_bind.mpr ((h'.addSharer (notMem_empty t)).imp (fun _ => hno) ?_)
    rintro ⟨l', added⟩ ⟨-, ⟨rfl, hl⟩ | ⟨rfl, he, hi⟩⟩
    · have hl : l'.Holds maxHw {t} := by simpa using hl
      exact ⟨fun _ => ⟨rfl, rfl, hl⟩, fun hf => ⟨rfl, (hl.has_iff (hf.narrow (by simp))).mpr
        (by simp)⟩, fun _ => rfl⟩
    · obtain rfl : l' = l := he
      -- without a slot the entry broadcasts at once, and reports no tile
      have hlen : l'.sharers.length = maxHw := h'.sound.length
      have hc := h'.count
      refine sat_check_bind (fun hn => ?_) fun hn => hno fun hN => hn
        ⟨rfl, ((h'.exact hN).full h'.sound hi).1⟩
      have h0 : maxHw = 0 := by simp at hc; omega
      refine ⟨fun _ => ⟨h'.sound, by simp, by simp, fun hm => absurd h0 hm, fun hN =>
        ⟨∅, by simp, h'.exact hN⟩⟩, fun hf => ?_, fun ht => ?_⟩
      · simp [DirectoryType.Fits, h0] at hf
      · have hmem : tileId t ∈ l'.sharers := hasSharer_iff.mp ht
        have := length_pos_of_mem hmem
        omega
  · cases hb

/-- A tile has answered: a sharer that leaves, a tile asked by a broadcast, or both. -/
theorem Covers.removeSharer (replyExpected : Bool) (h : Covers type maxHw e S R)
    (ht : t ∈ S ∨ replyExpected = true) (hr : replyExpected = true → t ∈ R) :
    Sat (e.removeSharer t replyExpected) (fun _ => ¬ type.Fits maxHw N) fun e' =>
      Covers type maxHw e' (S.erase t) (if replyExpected then R.erase t else R) ∧
        (e'.broadcasts = true → e.broadcasts = true) := by
  rcases h.cases with ⟨hty, hb, rfl, h'⟩ | ⟨rfl, l, n, rfl, rfl, rfl, h'⟩ |
    ⟨rfl, l, n, rfl, hs, hn, hS, hN, hx⟩
  · obtain rfl : replyExpected = false := by simpa using hr
    refine (h'.removeSharer (ht.resolve_right (by simp))).mono fun e' he' => ?_
    have hc : Covers type maxHw e' (S.erase t) ∅ := .of_rep he'
    exact ⟨hc, fun hb' => absurd (hc.type_of_broadcasts hb') hty⟩
  · obtain rfl : replyExpected = false := by simpa using hr
    have hno : ¬ N ≤ 32768 → ¬ DirectoryType.limitedBroadcast.Fits maxHw N := mt (·.narrow (by simp))
    refine sat_bind.mpr (((h'.removeSharer (ht.resolve_right (by simp))).imp (fun _ => hno)
      fun l' hl => ?_))
    exact ⟨⟨rfl, rfl, hl⟩, by simp [broadcasts]⟩
  · have hno : ¬ N ≤ 32768 → ¬ DirectoryType.limitedBroadcast.Fits maxHw N := mt (·.narrow (by simp))
    -- the slot of the tile is freed if it has one
    have hfree : Sat (if true && !l.hasSharer (tileId t) then pure l else l.removeSharer (tileId t))
        (fun _ => ¬ DirectoryType.limitedBroadcast.Fits maxHw N) fun l' =>
          l'.Sound maxHw ∧ (N ≤ 32768 → ∃ T ⊆ S.erase t, l'.Exact T) := by
      split
      · next hh =>
        refine ⟨hs, fun hN' => ?_⟩
        obtain ⟨T, hT, hx⟩ := hx hN'
        refine ⟨T, subset_erase.mpr ⟨hT, fun hm => ?_⟩, hx⟩
        simp [hasSharer_iff.mpr (hx.mem_iff.mpr hm)] at hh
      · next hh =>
        have hh : tileId t ∈ l.sharers := by simpa [hasSharer_iff] using hh
        refine (removeSharer_sat hs _).imp (fun _ hm => hno fun hN' => hm ?_) ?_
        · rwa [toSInt16_tile hN']
        · rintro l' ⟨-, hs', hc', hp⟩
          refine ⟨hs', fun hN' => ?_⟩
          obtain ⟨T, hT, hx⟩ := hx hN'
          exact ⟨T.erase t, erase_subset_erase _ hT, hx.erase hN' (hx.mem_iff.mp hh) hc' hp⟩
    rw [removeSharer_limitedBroadcast]
    refine sat_bind.mpr (hfree.mono ?_)
    rintro l' ⟨hs', hx'⟩
    cases replyExpected with
    | false =>
      exact ⟨⟨hs', hn, fun hR => (erase_subset _ _).trans (hS hR), hN, hx'⟩, fun _ => rfl⟩
    | true =>
      have htR := hr rfl
      have hR : R ≠ ∅ := ne_empty_of_mem htR
      have hcard := card_erase_add_one htR
      rw [if_neg hR] at hn
      rw [if_pos rfl, if_pos rfl]
      refine sat_check_bind (fun _ => ?_) fun hg => absurd rfl hg
      split
      · next h0 =>
        -- the last reply
        have hR0 : R.erase t = ∅ := card_eq_zero.mp (by omega)
        have hS0 : S.erase t = ∅ :=
          subset_empty.mp (hR0 ▸ erase_subset_erase _ (hS hR))
        refine sat_check_bind (fun hc => ?_) fun hc => hno fun hN' => hc ?_
        · rw [hR0, hS0]
          refine ⟨⟨rfl, h0, hs', by simp [hc], fun hN' => ?_⟩, fun _ => rfl⟩
          obtain ⟨T, hT, hx⟩ := hx' hN'
          rw [hS0, subset_empty] at hT
          exact hT ▸ hx
        · obtain ⟨T, hT, hx⟩ := hx' hN'
          rw [hS0, subset_empty] at hT
          simpa [hT] using hx.count
      · next h0 =>
        have hR1 : R.erase t ≠ ∅ := fun he => h0 (by rw [he, card_empty] at hcard; omega)
        refine ⟨⟨hs', ?_, fun _ => erase_subset_erase _ (hS hR), hN, hx'⟩, fun _ => rfl⟩
        rw [if_neg hR1]
        omega

/-! ### Lists of sharers -/

theorem mem_getSharersList : Ensures e.getSharersList fun r =>
    ∀ t : Fin N, tileId t ∈ r.2 ↔ e.hasSharer t = true := by
  have hbits : ∀ (b : Fin N → Bool) (t : Fin N), tileId t ∈ (bitList b).map tileId ↔ b t = true := by
    intro b t
    rw [List.mem_map]
    constructor
    · rintro ⟨u, hu, he⟩
      rwa [← tileId_injective he, ← mem_bitList]
    · exact fun ht => ⟨t, mem_bitList.mpr ht, rfl⟩
  have hslots : ∀ l : Limited, Ensures l.getSharersList fun vs =>
      ∀ t : Fin N, tileId t ∈ vs ↔ l.hasSharer (tileId t) = true := by
    refine fun l => sat_check_bind (fun _ t => ?_) fun _ => trivial
    rw [mem_tracked, hasSharer_iff]
    simp [tile_ne_invalid]
  cases e with
  | fullMap b => exact hbits b
  | limitedNoBroadcast l | limitedBroadcast l g n | ackwise l g n =>
    exact sat_bind.mpr ((hslots l).mono fun _ h => h)
  | limitless l sw =>
    cases sw with
    | some b => exact hbits b
    | none => exact sat_bind.mpr ((hslots l).mono fun _ h => h)

/-- The tiles an entry lists are sharers; a limited_broadcast entry asks all tiles only when it
broadcasts. -/
theorem Covers.getSharersList (h : Covers type maxHw e S R) :
    Sat e.getSharersList (fun _ => ¬ type.Fits maxHw N) fun r =>
      (type = .limitedBroadcast → r.1 = e.broadcasts) ∧ (e.broadcasts = true → r.1 = true) ∧
      (type.Fits maxHw N → ∀ v ∈ r.2, ∃ t ∈ S, tileId t = v) := by
  have hslots : ∀ {l : Limited} {g : Bool} {n : ℤ} {T : Finset (Fin N)}, T ⊆ S →
      (N ≤ 32768 → l.Exact T) →
      Sat (Sharers.getSharersList (.limitedBroadcast l g n : Sharers N))
        (fun _ => ¬ DirectoryType.limitedBroadcast.Fits maxHw N) fun r => r.1 = g ∧
        (DirectoryType.limitedBroadcast.Fits maxHw N → ∀ v ∈ r.2, ∃ t ∈ S, tileId t = v) := by
    intro l g n T hT hx
    exact sat_bind.mpr ((Limited.getSharersList_sat hT hx).imp (fun _ => mt (·.narrow (by simp)))
      fun _ h => ⟨rfl, fun hf => (h (hf.narrow (by simp))).1⟩)
  rcases h.cases with ⟨hty, hb, -, h⟩ | ⟨rfl, l, n, rfl, -, -, h⟩ | ⟨rfl, l, n, rfl, -, -, -, -, hx⟩
  · refine h.getSharersList.mono fun r hr => ⟨fun he => absurd he hty, by simp [hb], fun hf => ?_⟩
    exact (hr hf).1
  · exact (hslots (Finset.Subset.refl _) h.exact).mono fun r hr => ⟨fun _ => hr.1, by simp [broadcasts], hr.2⟩
  · by_cases hN : N ≤ 32768
    · obtain ⟨T, hT, hx⟩ := hx hN
      exact (hslots hT fun _ => hx).mono fun r hr => ⟨fun _ => hr.1, fun _ => hr.1, hr.2⟩
    · exact (hslots (empty_subset _) fun h => absurd h hN).mono
        fun r hr => ⟨fun _ => hr.1, fun _ => hr.1, hr.2⟩

theorem Covers.getOneSharer (h : Covers type maxHw e S R) (rnd : ℕ) :
    Sat (e.getOneSharer rnd) (fun _ => ¬ type.Fits maxHw N) fun v => type.Fits maxHw N →
      (v = invalidTileId ∧ ∀ t, e.hasSharer t = false) ∨
        ∃ t ∈ S, e.hasSharer t = true ∧ tileId t = v := by
  refine sat_bind.mpr ((h.getSharersList.and mem_getSharersList).imp (fun _ => And.left) ?_)
  rintro ⟨all, vs⟩ ⟨⟨-, -, hmem⟩, hhas⟩ hf
  dsimp only at hmem hhas ⊢
  cases hvs : vs with
  | nil =>
    refine .inl ⟨rfl, fun t => ?_⟩
    have := hhas t
    simp only [hvs, not_mem_nil, false_iff, Bool.not_eq_true] at this
    exact this
  | cons v vs' =>
    rw [← hvs]
    have hlt : rnd % vs.length < vs.length := Nat.mod_lt _ (by simp [hvs])
    have hv : vs.getD (rnd % vs.length) invalidTileId ∈ vs := by
      simp [getD_eq_getElem?_getD, getElem?_eq_getElem hlt]
    obtain ⟨t, ht, he⟩ := hmem hf _ hv
    exact .inr ⟨t, ht, (hhas t).mp (he ▸ hv), he⟩

end Sharers

end Graphite
