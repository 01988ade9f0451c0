import Graphite.Directory.Broadcast

/-! # Histories of ackwise and limited entries

An entry over a whole history: sharers come and go, and a limited_broadcast entry that reports all
tiles is answered by each of them before a sharer is added again. What it lists and counts is compared
with the set of tiles that share the line. Only the slots of 16 bits can go wrong, except that a
limited_no_broadcast entry, which does not override `DirectoryEntryLimited::getSharersList`, claims
all tiles even when it has no sharer.
-/

namespace Graphite

open Outcome Finset Limited List

/-- An entry, the tiles that share the line, those that have still to answer a broadcast, and the
largest number of tiles that shared the line at once since the last answered broadcast. -/
structure History (N : ℕ) where
  entry : Sharers N
  sharers : Finset (Fin N)
  pending : Finset (Fin N)
  peak : ℕ

inductive HistoryAction (N : ℕ)
  | add (t : Fin N) | leave (t : Fin N) | broadcast | answer (t : Fin N)
  deriving DecidableEq, Repr

/-- The histories of an entry. As in `sendShmemMsg`, only limited_broadcast entries expect a reply to
a broadcast from every tile. -/
def histories (N : ℕ) (type : DirectoryType) (maxHwSharers : ℕ) :
    System (History N) (HistoryAction N) Fault Unit where
  init s := s = ⟨.create N type maxHwSharers, ∅, ∅, 0⟩
  enabled s
    | .add t => t ∉ s.sharers ∧ s.pending = ∅
    | .leave t => t ∈ s.sharers
    | .broadcast => type = .limitedBroadcast ∧ s.pending = ∅ ∧
        ∃ list, s.entry.getSharersList = .ok (true, list)
    | .answer t => t ∈ s.pending
  step s
    | .add t => do
      let (entry, added) ← s.entry.addSharer t
      let sharers := if added then insert t s.sharers else s.sharers
      pure (⟨entry, sharers, s.pending, max s.peak sharers.card⟩, [])
    | .leave t => do
      let entry ← s.entry.removeSharer t false
      pure ({ s with entry, sharers := s.sharers.erase t }, [])
    | .broadcast => pure ({ s with pending := Finset.univ }, [])
    | .answer t => do
      let entry ← s.entry.removeSharer t true
      let pending := s.pending.erase t
      pure (⟨entry, s.sharers.erase t, pending, if pending = ∅ then 0 else s.peak⟩, [])

variable {N maxHw : ℕ} {S R : Finset (Fin N)} {t : Fin N} {s : History N}

/-! ### A tile that fits in no slot -/

theorem getSharersList_wide (n : ℕ) :
    getSharersList ⟨-32768 :: replicate n invalidSharer, 1⟩ = .ok [-32768] := by
  have hlist : tracked ⟨-32768 :: replicate n invalidSharer, 1⟩ = [-32768] := by
    simp [tracked, invalidSharer]
  simp [getSharersList, hlist, check_pos]

/-- The entry with a slot lists tile -32768 in place of the tile it has added. -/
theorem wide_sharer_listed {type : DirectoryType} (hN : 32768 < N) (hm : maxHw ≠ 0)
    (ht : type = .ackwise ∨ type = .limitedBroadcast) :
    ∃ s, (histories N type maxHw).Run (fun _ => True) [] s ∧
      s.entry.getSharersList = .ok (false, [-32768]) := by
  obtain ⟨n, rfl⟩ := Nat.exists_eq_succ_of_ne_zero hm
  obtain ⟨t, ht'⟩ : ∃ t : Fin N, tileId t = 32768 := ⟨⟨32768, hN⟩, rfl⟩
  have hstart : (histories N type (n + 1)).Run (fun _ => True) []
      ⟨.create N type (n + 1), ∅, ∅, 0⟩ := .start rfl
  have hen : (histories N type (n + 1)).enabled ⟨.create N type (n + 1), ∅, ∅, 0⟩ (.add t) :=
    ⟨notMem_empty t, rfl⟩
  obtain ⟨e, hadd, hlist⟩ : ∃ e, (Sharers.create N type (n + 1)).addSharer t = .ok (e, true) ∧
      e.getSharersList = .ok (false, [-32768]) := by
    rcases ht with rfl | rfl
    · refine ⟨.ackwise ⟨-32768 :: replicate n invalidSharer, 1⟩ false 0, ?_, ?_⟩
      · simp [Sharers.create, Sharers.addSharer, ht', addSharer_wide]
      · simp [Sharers.getSharersList, getSharersList_wide]
    · refine ⟨.limitedBroadcast ⟨-32768 :: replicate n invalidSharer, 1⟩ false 0, ?_, ?_⟩
      · simp [Sharers.create, Sharers.addSharer, ht', addSharer_wide]
      · simp [Sharers.getSharersList, getSharersList_wide]
  have hstep : (histories N type (n + 1)).step ⟨.create N type (n + 1), ∅, ∅, 0⟩ (.add t) =
      .ok (⟨e, {t}, ∅, 1⟩, []) := by
    simp [histories, hadd]
  exact ⟨_, hstart.step trivial hen hstep, hlist⟩

theorem wide_not_tile : ∀ t : Fin N, tileId t ≠ -32768 := by
  intro t
  unfold tileId
  omega

/-! ### Ackwise entries -/

/-- The count is right, the listed tiles are sharers, and a broadcast is reported when some are not
listed. -/
structure History.Counted (s : History N) : Prop where
  num : s.entry.getNumSharers = s.sharers.card
  list : ∃ all list, s.entry.getSharersList = .ok (all, list) ∧
    (∀ v ∈ list, ∃ t ∈ s.sharers, tileId t = v) ∧
    (all = true ↔ ∃ t ∈ s.sharers, tileId t ∉ list)

theorem Sharers.Rep.counted (hN : N ≤ 32768)
    (h : Sharers.Rep .ackwise maxHw s.entry s.sharers) : s.Counted := by
  refine ⟨h.num_eq, ?_⟩
  obtain ⟨e, S, R, peak⟩ := s
  dsimp only at h ⊢
  cases e with
  | ackwise l g n =>
    obtain ⟨hs, hc, h0, hg, hx⟩ := h
    obtain ⟨T, hT, hl⟩ := hx hN
    refine ⟨g, l.tracked, ?_, fun v hv => ?_, ?_⟩
    · simp [Sharers.getSharersList, Limited.getSharersList, check_pos hl.length_tracked.symm]
    · obtain ⟨t, ht, rfl⟩ := hl.mem_tracked_iff.mp hv
      exact ⟨t, hT ht, rfl⟩
    · -- the untracked sharers are counted, so there is one when the count is positive
      have hmem : ∀ t, tileId t ∈ l.tracked ↔ t ∈ T := fun t => by
        simp [mem_tracked, hl.mem_iff, tile_ne_invalid]
      simp only [hg, hmem]
      have hcard := hl.count
      constructor
      · intro hn
        exact exists_mem_notMem_of_card_lt_card (by omega)
      · rintro ⟨t, ht, hnot⟩
        have := Finset.card_lt_card (Finset.ssubset_iff_subset_ne.mpr
          ⟨hT, fun he => hnot (he ▸ ht)⟩)
        omega
  | _ => cases h

theorem ackwise_step (hN : N ≤ 32768) (hm : 1 ≤ maxHw) (s : History N) (a : HistoryAction N)
    (h : Sharers.Rep .ackwise maxHw s.entry s.sharers ∧ s.pending = ∅)
    (ha : (histories N .ackwise maxHw).enabled s a) :
    Returns ((histories N .ackwise maxHw).step s a) fun r =>
      Sharers.Rep .ackwise maxHw r.1.entry r.1.sharers ∧ r.1.pending = ∅ := by
  have hf : DirectoryType.ackwise.Fits maxHw N := .inr ⟨hN, .inr hm⟩
  obtain ⟨hrep, hR⟩ := h
  cases a with
  | add t =>
    refine sat_bind.mpr ((hrep.addSharer ha.1).imp (fun _ hno => hno hf) ?_)
    rintro ⟨e, added⟩ (⟨rfl, he⟩ | ⟨-, -, hty, -⟩)
    · exact ⟨he, hR⟩
    · cases hty
  | leave t =>
    refine sat_bind.mpr ((hrep.removeSharer ha).imp (fun _ hno => hno hf) fun e he => ?_)
    exact ⟨he, hR⟩
  | broadcast => cases ha.1
  | answer t =>
    have ha : t ∈ s.pending := ha
    simp [hR] at ha

theorem ackwise_counted (N maxHwSharers : ℕ) (hm : 1 ≤ maxHwSharers) :
    ((∀ tr s, (histories N .ackwise maxHwSharers).Run (fun _ => True) tr s → s.Counted) ∧
      ∀ e, ¬ (histories N .ackwise maxHwSharers).Fails (fun _ => True) e) ↔ N ≤ 32768 := by
  constructor
  · rintro ⟨hrun, -⟩
    by_contra hN
    have hne : maxHwSharers ≠ 0 := by omega
    obtain ⟨s, hs, hl⟩ := wide_sharer_listed (not_le.mp hN) hne (.inl rfl)
    obtain ⟨all, list, hlist, hsub, -⟩ := (hrun _ s hs).list
    cases hl.symm.trans hlist
    obtain ⟨t, -, ht⟩ := hsub (-32768) (by simp)
    exact wide_not_tile t ht
  · intro hN
    have hinit : ∀ s, (histories N .ackwise maxHwSharers).init s →
        Sharers.Rep .ackwise maxHwSharers s.entry s.sharers ∧ s.pending = ∅ := by
      rintro s rfl
      exact ⟨Sharers.rep_create (by simp), rfl⟩
    have hstep := fun (_ : List Unit) s a h (_ : True) ha => ackwise_step hN hm s a h ha
    constructor
    · intro tr s hrun
      exact (hrun.invariant hinit hstep).1.counted hN
    · intro e hfail
      exact hfail.allowed hinit hstep

theorem ackwise_counted_small :
    (∀ tr s, (histories 64 .ackwise 4).Run (fun _ => True) tr s → s.Counted) ∧
      ∀ e, ¬ (histories 64 .ackwise 4).Fails (fun _ => True) e :=
  (ackwise_counted 64 4 (by decide)).mpr (by decide)

/-- With 32769 tiles and one slot, the only sharer is listed as tile -32768. -/
theorem ackwise_lists_no_tile : ∃ s : History 32769,
    (histories 32769 .ackwise 1).Run (fun _ => True) [] s ∧
      s.entry.getSharersList = .ok (false, [-32768]) :=
  wide_sharer_listed (by decide) (by decide) (.inl rfl)

/-! ### Limited entries -/

/-- All tiles are reported only when there were more sharers than slots, and the list is exact
otherwise. -/
def History.Reported (maxHw : ℕ) (s : History N) : Prop :=
  ∃ all list, s.entry.getSharersList = .ok (all, list) ∧ (all = true → maxHw < s.peak) ∧
    (all = false → ∀ v, v ∈ list ↔ ∃ t ∈ s.sharers, tileId t = v)

/-- What a limited_broadcast entry knows of a history whose tile numbers fit. -/
structure Tracks (maxHw : ℕ) (s : History N) (l : Limited) (g : Bool) (n : ℤ) : Prop where
  entry : s.entry = .limitedBroadcast l g n
  sound : l.Sound maxHw
  exact : ∃ T ⊆ s.sharers, l.Exact T ∧ (g = false → T = s.sharers)
  quiet : g = false → n = 0 ∧ s.pending = ∅
  asked : g = true → n = (if s.pending = ∅ then N else s.pending.card : ℕ) ∧
    (s.pending ≠ ∅ → s.sharers ⊆ s.pending) ∧ maxHw < s.peak
  peak : s.sharers.card ≤ s.peak

namespace Tracks

variable {s : History N} {l : Limited} {g : Bool} {n : ℤ}

theorem list_eq (h : Tracks maxHw s l g n) : s.entry.getSharersList = .ok (g, l.tracked) := by
  obtain ⟨T, -, hx, -⟩ := h.exact
  simp [h.entry, Sharers.getSharersList, getSharersList, check_pos hx.length_tracked.symm]

theorem reported (h : Tracks maxHw s l g n) : s.Reported maxHw := by
  refine ⟨g, l.tracked, h.list_eq, fun hg => (h.asked hg).2.2, fun hg v => ?_⟩
  obtain ⟨T, -, hx, hT⟩ := h.exact
  rw [hx.mem_tracked_iff, hT hg]

theorem free (h : Tracks maxHw s l g n) (hN : N ≤ 32768 ∨ maxHw = 0)
    (ht : t ∈ s.sharers ∨ g = true) :
    ∃ l', (if g && !l.hasSharer (tileId t) then pure l else l.removeSharer (tileId t)) = .ok l' ∧
      l'.Sound maxHw ∧ ∃ T ⊆ s.sharers.erase t, l'.Exact T ∧
        (g = false → T = s.sharers.erase t) := by
  obtain ⟨T, hsub, hx, hT⟩ := h.exact
  have hhas : l.hasSharer (tileId t) = true ↔ t ∈ T := hasSharer_iff.trans hx.mem_iff
  by_cases htT : t ∈ T
  · obtain ⟨l', hrem, hs', hx'⟩ := removeSharer_exact h.sound hx hN htT
    refine ⟨l', ?_, hs', T.erase t, erase_subset_erase t hsub, hx', fun hg => by rw [hT hg]⟩
    simp [hhas.mpr htT, hrem]
  · obtain rfl : g = true := by
      cases g with
      | true => rfl
      | false => exact absurd (ht.resolve_right (by simp)) (hT rfl ▸ htT)
    have hno : l.hasSharer (tileId t) = false := by simpa [htT] using hhas
    refine ⟨l, by simp [hno], h.sound, T, ?_, hx, by simp⟩
    exact subset_erase.mpr ⟨hsub, htT⟩

end Tracks

/-- The history is one of a limited_broadcast entry that keeps track of it. -/
def History.Tracked (maxHw : ℕ) (s : History N) : Prop := ∃ l g n, Tracks maxHw s l g n

theorem tracked_create : History.Tracked maxHw ⟨.create N .limitedBroadcast maxHw, ∅, ∅, 0⟩ := by
  refine ⟨.create maxHw, false, 0, rfl, sound_create, ?_, ?_, ?_, ?_⟩
  · exact ⟨∅, Finset.Subset.refl _, exact_create, fun _ => rfl⟩
  · exact fun _ => ⟨rfl, rfl⟩
  · simp
  · simp

section

variable (h : s.Tracked maxHw) (hN : N ≤ 32768 ∨ maxHw = 0)
include h hN

theorem tracked_add (ht : t ∉ s.sharers) (hR : s.pending = ∅) :
    Returns ((histories N .limitedBroadcast maxHw).step s (.add t)) fun r =>
      r.1.Tracked maxHw := by
  obtain ⟨l, g, n, htr⟩ := h
  obtain ⟨hentry, hs, ⟨T, hsub, hx, hT⟩, hquiet, hasked, hpeak⟩ := htr
  have hcard := card_insert_of_notMem ht
  cases g with
  | true =>
    obtain ⟨hn, -, hlt⟩ := hasked rfl
    simp only [histories, hentry, Sharers.addSharer, pure_eq_ok, ok_bind, if_true]
    refine ⟨l, true, n, rfl, hs, ⟨T, ?_, hx, by simp⟩, by simp, fun _ => ⟨hn, ?_, ?_⟩, ?_⟩
    · exact hsub.trans (subset_insert t _)
    · exact fun hne => absurd hR hne
    · exact lt_max_of_lt_left hlt
    · exact le_max_right _ _
  | false =>
    obtain rfl := hT rfl
    obtain ⟨rfl, -⟩ := hquiet rfl
    obtain ⟨l', hadd, hs', hx'⟩ | ⟨hadd, hfull⟩ := addSharer_exact hs hx hN ht
    · simp only [histories, hentry, Sharers.addSharer, hadd, pure_eq_ok, ok_bind, if_true]
      refine ⟨l', false, 0, rfl, hs', ⟨_, Finset.Subset.refl _, hx', fun _ => rfl⟩, ?_, by simp, ?_⟩
      · exact fun _ => ⟨rfl, hR⟩
      · exact le_max_right _ _
    · -- the sharers fill the slots, so with this one there are more
      have hcount := hx.count
      have hlen := hs.length
      have hr : s.entry.addSharer t = .ok (.limitedBroadcast l true N, true) := by
        rw [hentry]
        simp [Sharers.addSharer, hadd, check_pos hfull]
      simp only [histories, hr, ok_bind, if_true]
      refine ⟨l, true, N, rfl, hs, ⟨s.sharers, subset_insert t _, hx, by simp⟩, by simp,
        fun _ => ⟨by simp [hR], fun hne => absurd hR hne, ?_⟩, le_max_right _ _⟩
      refine lt_max_of_lt_right ?_
      omega

theorem tracked_leave (ht : t ∈ s.sharers) :
    Returns ((histories N .limitedBroadcast maxHw).step s (.leave t)) fun r =>
      r.1.Tracked maxHw := by
  obtain ⟨l, g, n, htr⟩ := h
  obtain ⟨l', hfree, hs', hx'⟩ := htr.free hN (.inl ht)
  have hcard := card_erase_add_one ht
  have hpeak := htr.peak
  have hr : s.entry.removeSharer t false = .ok (.limitedBroadcast l' g n) := by
    rw [htr.entry, Sharers.removeSharer_limitedBroadcast, hfree]
    rfl
  simp only [histories, hr, ok_bind]
  refine ⟨l', g, n, rfl, hs', hx', htr.quiet, fun hg => ?_, ?_⟩
  · obtain ⟨hn, hsub, hlt⟩ := htr.asked hg
    exact ⟨hn, fun hR => (erase_subset t _).trans (hsub hR), hlt⟩
  · change (s.sharers.erase t).card ≤ s.peak
    omega

theorem tracked_answer (ht : t ∈ s.pending) :
    Returns ((histories N .limitedBroadcast maxHw).step s (.answer t)) fun r =>
      r.1.Tracked maxHw := by
  obtain ⟨l, g, n, htr⟩ := h
  have hR : s.pending ≠ ∅ := ne_empty_of_mem ht
  obtain rfl : g = true := by
    cases g with
    | true => rfl
    | false => exact absurd (htr.quiet rfl).2 hR
  obtain ⟨l', hfree, hs', T, hsub, hx', -⟩ := htr.free (t := t) hN (.inr rfl)
  obtain ⟨hn, hSR, hlt⟩ := htr.asked rfl
  have hcard := card_erase_add_one ht
  rw [if_neg hR] at hn
  have hSR' : s.sharers.erase t ⊆ s.pending.erase t := erase_subset_erase t (hSR hR)
  by_cases hlast : s.pending.erase t = ∅
  · -- the last reply: no sharer is left
    have hnone : s.sharers.erase t = ∅ := subset_empty.mp (hlast ▸ hSR')
    obtain rfl : T = ∅ := subset_empty.mp (hnone ▸ hsub)
    have hzero : l'.numTracked = 0 := by simpa using hx'.count
    have hn0 : n - 1 = 0 := by
      rw [hlast, card_empty] at hcard
      omega
    have hr : s.entry.removeSharer t true = .ok (.limitedBroadcast l' false 0) := by
      rw [htr.entry, Sharers.removeSharer_limitedBroadcast, hfree]
      simp [check_pos, hn0, hzero]
    simp only [histories, hr, ok_bind]
    refine ⟨l', false, 0, rfl, hs', ⟨∅, by simp, hx', fun _ => hnone.symm⟩, ?_, by simp, ?_⟩
    · exact fun _ => ⟨rfl, hlast⟩
    · simp [hnone]
  · have hn1 : n - 1 ≠ 0 := by
      have := card_pos.mpr (nonempty_iff_ne_empty.mpr hlast)
      omega
    have hr : s.entry.removeSharer t true = .ok (.limitedBroadcast l' true (n - 1)) := by
      rw [htr.entry, Sharers.removeSharer_limitedBroadcast, hfree]
      simp [check_pos, hn1]
    simp only [histories, hr, ok_bind, hlast, if_false]
    refine ⟨l', true, n - 1, rfl, hs', ⟨T, hsub, hx', by simp⟩, by simp, fun _ => ⟨?_, ?_, hlt⟩, ?_⟩
    · simp only [hlast, if_false]
      omega
    · exact fun _ => hSR'
    · exact (card_le_card (erase_subset t _)).trans htr.peak

end

theorem tracked_step (hN : N ≤ 32768 ∨ maxHw = 0) (s : History N) (a : HistoryAction N)
    (h : s.Tracked maxHw) (ha : (histories N .limitedBroadcast maxHw).enabled s a) :
    Returns ((histories N .limitedBroadcast maxHw).step s a) fun r =>
      r.1.Tracked maxHw := by
  cases a with
  | add t => exact tracked_add h hN ha.1 ha.2
  | leave t => exact tracked_leave h hN ha
  | answer t => exact tracked_answer h hN ha
  | broadcast =>
    obtain ⟨l, g, n, htr⟩ := h
    obtain ⟨-, hR, list, hlist⟩ := ha
    obtain rfl : g = true := by
      rw [htr.list_eq] at hlist
      injection hlist with hpair
      exact congrArg Prod.fst hpair
    obtain ⟨hn, -, hlt⟩ := htr.asked rfl
    refine ⟨l, true, n, htr.entry, htr.sound, htr.exact, by simp, fun _ => ⟨?_, ?_, hlt⟩, htr.peak⟩
    · simpa [hR] using hn
    · exact fun _ => subset_univ _

theorem create_reports_all (N maxHw : ℕ) :
    (Sharers.create N .limitedNoBroadcast maxHw).getSharersList = .ok (true, []) := by
  have hcount : (Limited.create maxHw).numTracked = 0 := rfl
  simp [Sharers.create, Sharers.getSharersList, Limited.getSharersList, Limited.tracked_create,
    check_pos, hcount]

theorem limited_tracked (hN : N ≤ 32768 ∨ maxHw = 0) :
    (∀ tr s, (histories N .limitedBroadcast maxHw).Run (fun _ => True) tr s → s.Tracked maxHw) ∧
      ∀ e, ¬ (histories N .limitedBroadcast maxHw).Fails (fun _ => True) e := by
  have hinit : ∀ s, (histories N .limitedBroadcast maxHw).init s → s.Tracked maxHw := by
    rintro s rfl
    exact tracked_create
  have hstep := fun (_ : List Unit) s a h (_ : True) ha => tracked_step hN s a h ha
  constructor
  · intro tr s hrun
    exact hrun.invariant hinit hstep
  · intro e hfail
    exact hfail.allowed hinit hstep

theorem limited_reported_iff (N maxHwSharers : ℕ) (type : DirectoryType)
    (htype : type = .limitedNoBroadcast ∨ type = .limitedBroadcast) :
    ((∀ tr s, (histories N type maxHwSharers).Run (fun _ => True) tr s → s.Reported maxHwSharers) ↔
      type = .limitedBroadcast ∧ (N ≤ 32768 ∨ maxHwSharers = 0)) ∧
    (type = .limitedBroadcast ∧ (N ≤ 32768 ∨ maxHwSharers = 0) →
      ∀ e, ¬ (histories N type maxHwSharers).Fails (fun _ => True) e) := by
  refine ⟨⟨fun hrun => ?_, ?_⟩, ?_⟩
  · rcases htype with rfl | rfl
    · obtain ⟨all, list, hlist, hpeak, -⟩ := hrun [] _ (.start rfl)
      cases (create_reports_all N maxHwSharers).symm.trans hlist
      exact absurd (hpeak rfl) (Nat.not_lt_zero _)
    · refine ⟨rfl, ?_⟩
      by_contra hN
      push Not at hN
      obtain ⟨s, hs, hl⟩ := wide_sharer_listed hN.1 hN.2 (.inr rfl)
      obtain ⟨all, list, hlist, -, hexact⟩ := hrun [] s hs
      cases hl.symm.trans hlist
      obtain ⟨t, -, ht⟩ := (hexact rfl (-32768)).mp (by simp)
      exact wide_not_tile t ht
  · rintro ⟨rfl, hN⟩ tr s hrun
    obtain ⟨l, g, n, htr⟩ := (limited_tracked hN).1 tr s hrun
    exact htr.reported
  · rintro ⟨rfl, hN⟩
    exact (limited_tracked hN).2

theorem limited_reported_broadcast :
    (∀ tr s, (histories 64 .limitedBroadcast 4).Run (fun _ => True) tr s → s.Reported 4) ∧
      ∀ e, ¬ (histories 64 .limitedBroadcast 4).Fails (fun _ => True) e :=
  have hcond : DirectoryType.limitedBroadcast = .limitedBroadcast ∧ (64 ≤ 32768 ∨ 4 = 0) :=
    ⟨rfl, .inl (by decide)⟩
  ⟨(limited_reported_iff 64 4 .limitedBroadcast (.inr rfl)).1.mpr hcond,
    (limited_reported_iff 64 4 .limitedBroadcast (.inr rfl)).2 hcond⟩

/-- The limited_no_broadcast entry of four slots claims all tiles before any sharer is added. -/
theorem new_entry_claims_all : (histories 64 .limitedNoBroadcast 4).Run (fun _ => True) []
        ⟨.create 64 .limitedNoBroadcast 4, ∅, ∅, 0⟩ ∧
      (Sharers.create 64 .limitedNoBroadcast 4).getSharersList = .ok (true, []) :=
  ⟨.start rfl, create_reports_all 64 4⟩

end Graphite
