import Graphite.Directory.BitVector

/-! # Limitless entries and full-map entries

A limitless entry starts with the slots of a limited one. The sharer that finds no free slot moves
them all to a bit vector, on which the entry stays. Both classes are modelled down to the words of
the bit vector. They agree over every history of additions, removals and listings unless a tile
number does not fit in a 16-bit slot it has to go through.
-/

namespace Graphite

open Outcome Limited List

/-- `DirectoryEntryFullMap`. -/
structure FullMapEntry where
  sharers : BitVector

namespace FullMapEntry

def create (maxHwSharers : ℕ) : FullMapEntry := ⟨.create maxHwSharers⟩

def hasSharer (e : FullMapEntry) (sharerId : ℕ) : Except Fault Bool := e.sharers.atBit sharerId

def addSharer (e : FullMapEntry) (sharerId : ℕ) : Except Fault (FullMapEntry × Bool) := do
  let present ← e.sharers.atBit sharerId
  check (present = false) .sharerPresent
  let sharers ← e.sharers.set sharerId
  pure (⟨sharers⟩, true)

def removeSharer (e : FullMapEntry) (sharerId : ℕ) (replyExpected : Bool) :
    Except Fault FullMapEntry := do
  check (replyExpected = false) .replyExpected
  let present ← e.sharers.atBit sharerId
  check (present = true) .sharerMissing
  let sharers ← e.sharers.clear sharerId
  pure ⟨sharers⟩

/-- The answer, and the entry with the cursor of its bit vector moved. -/
def getSharersList (e : FullMapEntry) : Except Fault ((Bool × List ℤ) × FullMapEntry) := do
  let (list, sharers) ← e.sharers.getSharersList
  pure ((false, list), ⟨sharers⟩)

def getNumSharers (e : FullMapEntry) : ℤ := e.sharers.size

end FullMapEntry

/-- `DirectoryEntryLimitless`. The trap to software is enabled when there is a bit vector. -/
structure LimitlessEntry where
  limited : Limited
  softwareSharers : Option BitVector
  maxNumSharers : ℕ

namespace LimitlessEntry

def create (maxHwSharers maxNumSharers : ℕ) : LimitlessEntry :=
  ⟨.create maxHwSharers, none, maxNumSharers⟩

def hasSharer (e : LimitlessEntry) (sharerId : ℕ) : Except Fault Bool :=
  match e.softwareSharers with
  | some v => v.atBit sharerId
  | none => pure (e.limited.hasSharer sharerId)

/-- What the migration does with one slot: an occupied one goes to the bit vector and is no longer
counted. -/
def migrateSlot (maxNumSharers : ℕ) (st : BitVector × ℤ) (slot : ℤ) :
    Except Fault (BitVector × ℤ) :=
  if slot ≠ invalidSharer then do
    check (0 ≤ slot ∧ slot < maxNumSharers) .softwareRange
    let v ← st.1.set slot.toNat
    pure (v, st.2 - 1)
  else
    pure st

def addSharer (e : LimitlessEntry) (sharerId : ℕ) : Except Fault (LimitlessEntry × Bool) :=
  match e.softwareSharers with
  | some v => do
    let present ← v.atBit sharerId
    check (present = false) .sharerPresent
    let v ← v.set sharerId
    pure ({ e with softwareSharers := some v }, true)
  | none => do
    let (l, added) ← e.limited.addSharer sharerId
    if added then
      pure ({ e with limited := l }, true)
    else
      let (v, numTracked) ←
        l.sharers.foldlM (migrateSlot e.maxNumSharers) (.create e.maxNumSharers, l.numTracked)
      let v ← v.set sharerId
      check (numTracked = 0) .trackedCount
      let l : Limited := ⟨l.sharers.map fun _ => invalidSharer, numTracked⟩
      pure ({ e with limited := l, softwareSharers := some v }, true)

def removeSharer (e : LimitlessEntry) (sharerId : ℕ) (replyExpected : Bool) :
    Except Fault LimitlessEntry := do
  check (replyExpected = false) .replyExpected
  match e.softwareSharers with
  | some v =>
    let present ← v.atBit sharerId
    check (present = true) .sharerMissing
    let v ← v.clear sharerId
    pure { e with softwareSharers := some v }
  | none =>
    let l ← e.limited.removeSharer sharerId
    pure { e with limited := l }

def getSharersList (e : LimitlessEntry) : Except Fault ((Bool × List ℤ) × LimitlessEntry) :=
  match e.softwareSharers with
  | some v => do
    let (list, v) ← v.getSharersList
    pure ((false, list), { e with softwareSharers := some v })
  | none => do
    let list ← e.limited.getSharersList
    pure ((false, list), e)

def getNumSharers (e : LimitlessEntry) : ℤ :=
  match e.softwareSharers with
  | some v => v.size
  | none => e.limited.numTracked

end LimitlessEntry

variable {N maxHw : ℕ} {S : Finset (Fin N)} {t : Fin N}

/-! ### The full-map entry -/

namespace FullMapEntry

/-- The entry stands for `S`. -/
def Holds (e : FullMapEntry) (S : Finset (Fin N)) : Prop := e.sharers.Holds S

variable {e : FullMapEntry}

theorem holds_create : (create N).Holds (∅ : Finset (Fin N)) := BitVector.holds_create

section

variable (h : e.Holds S)
include h

theorem Holds.hasSharer : e.hasSharer t = .ok (decide (t ∈ S)) :=
  BitVector.Holds.atBit_eq h

theorem Holds.num : e.getNumSharers = S.card := by
  rw [getNumSharers, BitVector.Holds.size h]

theorem Holds.addSharer (ht : t ∉ S) :
    ∃ e', e.addSharer t = .ok (e', true) ∧ e'.Holds (insert t S) := by
  obtain ⟨v, hv, hS⟩ := BitVector.Holds.set (t := t) h
  refine ⟨⟨v⟩, ?_, hS⟩
  simp [FullMapEntry.addSharer, BitVector.Holds.atBit_eq h, ht, check_pos, hv]

theorem Holds.removeSharer (ht : t ∈ S) :
    ∃ e', e.removeSharer t false = .ok e' ∧ e'.Holds (S.erase t) := by
  obtain ⟨v, hv, hS⟩ := BitVector.Holds.clear h ht
  refine ⟨⟨v⟩, ?_, hS⟩
  simp [FullMapEntry.removeSharer, BitVector.Holds.atBit_eq h, ht, check_pos, hv]

end

end FullMapEntry

/-! ### The limitless entry -/

namespace LimitlessEntry

/-- The entry stands for `S`, on its slots or in software. -/
structure Holds (maxHw : ℕ) (e : LimitlessEntry) (S : Finset (Fin N)) : Prop where
  tiles : e.maxNumSharers = N
  slots : e.softwareSharers = none → e.limited.Sound maxHw ∧ e.limited.Exact S
  software : ∀ v, e.softwareSharers = some v → v.Holds S

variable {e : LimitlessEntry}

theorem holds_create : (create maxHw N).Holds maxHw (∅ : Finset (Fin N)) where
  tiles := rfl
  slots _ := ⟨sound_create, exact_create⟩
  software v hv := by simp [create] at hv

theorem Holds.hasSharer (h : e.Holds maxHw S) : e.hasSharer t = .ok (decide (t ∈ S)) := by
  unfold LimitlessEntry.hasSharer
  cases hsw : e.softwareSharers with
  | some v => exact (h.software v hsw).atBit_eq
  | none =>
    have hmem := (h.slots hsw).2.mem_iff (t := t)
    change Except.ok _ = _
    congr 1
    rw [Bool.eq_iff_iff, decide_eq_true_iff]
    exact hasSharer_iff.trans hmem

theorem Holds.num (h : e.Holds maxHw S) : e.getNumSharers = S.card := by
  unfold getNumSharers
  cases hsw : e.softwareSharers with
  | some v => simp [(h.software v hsw).size]
  | none => simp [(h.slots hsw).2.count]

theorem migrate_eq {slots : List ℤ} (hr : ∀ s ∈ slots, s ≠ invalidSharer → ∃ u : Fin N, tileId u = s)
    {v : BitVector} {n : ℤ} {R : Finset (Fin N)} (hv : v.Holds R) :
    ∃ v', slots.foldlM (migrateSlot N) (v, n) =
        .ok (v', n - (slots.filter (· ≠ invalidSharer)).length) ∧
      v'.Holds (R ∪ Finset.univ.filter fun u => tileId u ∈ slots) := by
  induction slots generalizing v n R with
  | nil => exact ⟨v, by simp, by simpa using hv⟩
  | cons s slots ih =>
    have hr' := fun s' hs' => hr s' (mem_cons_of_mem s hs')
    by_cases hs : s = invalidSharer
    · subst hs
      obtain ⟨v', hf, hv'⟩ := ih hr' (n := n) hv
      refine ⟨v', ?_, ?_⟩
      · simp [migrateSlot, hf]
      · simpa [tile_ne_invalid] using hv'
    · obtain ⟨u, rfl⟩ := hr s (by simp) hs
      obtain ⟨w, hw, hR⟩ := hv.set (t := u)
      obtain ⟨v', hf, hv'⟩ := ih hr' (n := n - 1) hR
      have hrange : 0 ≤ tileId u ∧ tileId u < N := by
        have := u.isLt
        unfold tileId
        omega
      have hnat : (tileId u).toNat = u := by simp [tileId]
      refine ⟨v', ?_, ?_⟩
      · simp [migrateSlot, hs, check_pos hrange, hnat, hw, hf]
        omega
      · convert hv' using 1
        ext x
        simp only [Finset.mem_union, Finset.mem_filter, Finset.mem_univ, true_and, mem_cons,
          Finset.mem_insert, tileId_injective.eq_iff]
        tauto

theorem Holds.addSharer (h : e.Holds maxHw S) (hN : N ≤ 32768 ∨ maxHw = 0) (ht : t ∉ S) :
    ∃ e', e.addSharer t = .ok (e', true) ∧ e'.Holds maxHw (insert t S) := by
  obtain ⟨rfl, hslots, hsoft⟩ := h
  obtain ⟨l, sw, maxNum⟩ := e
  cases sw with
  | some v =>
    obtain ⟨w, hw, hS⟩ := (hsoft v rfl).set (t := t)
    refine ⟨⟨l, some w, maxNum⟩, ?_, rfl, by simp, ?_⟩
    · simp [LimitlessEntry.addSharer, (hsoft v rfl).atBit_eq, ht, check_pos, hw]
    · rintro _ ⟨⟩
      exact hS
  | none =>
    obtain ⟨hs, hx⟩ := hslots rfl
    obtain ⟨l', hadd, hs', hx'⟩ | ⟨hadd, -⟩ := addSharer_exact hs hx hN ht
    · refine ⟨⟨l', none, maxNum⟩, ?_, rfl, fun _ => ⟨hs', hx'⟩, by simp⟩
      simp only [LimitlessEntry.addSharer]
      rw [show ((t : ℕ) : ℤ) = tileId t from rfl, hadd]
      rfl
    · -- no slot is free: the slots are moved, then the new sharer is set
      have hr : ∀ s ∈ l.sharers, s ≠ invalidSharer → ∃ u : Fin maxNum, tileId u = s := by
        intro s hm hne
        obtain ⟨u, -, hu⟩ := hx.mem_tracked_iff.mp (mem_tracked.mpr ⟨hm, hne⟩)
        exact ⟨u, hu⟩
      obtain ⟨v, hf, hv⟩ := migrate_eq hr (n := l.numTracked) BitVector.holds_create
      have hzero : l.numTracked - (l.sharers.filter (· ≠ invalidSharer)).length = 0 := by
        rw [← hx.length_tracked]
        exact Int.sub_self _
      have hset : ∅ ∪ Finset.univ.filter (fun u : Fin maxNum => tileId u ∈ l.sharers) = S := by
        ext u
        simp [hx.mem_iff]
      rw [hzero] at hf
      rw [hset] at hv
      obtain ⟨w, hw, hS⟩ := hv.set (t := t)
      refine ⟨⟨⟨l.sharers.map fun _ => invalidSharer, 0⟩, some w, maxNum⟩, ?_, rfl, by simp, ?_⟩
      · simp only [LimitlessEntry.addSharer]
        rw [show ((t : ℕ) : ℤ) = tileId t from rfl, hadd]
        simp [hf, hw, check_pos]
      · rintro _ ⟨⟩
        exact hS

theorem Holds.removeSharer (h : e.Holds maxHw S) (hN : N ≤ 32768 ∨ maxHw = 0) (ht : t ∈ S) :
    ∃ e', e.removeSharer t false = .ok e' ∧ e'.Holds maxHw (S.erase t) := by
  obtain ⟨rfl, hslots, hsoft⟩ := h
  obtain ⟨l, sw, maxNum⟩ := e
  cases sw with
  | some v =>
    obtain ⟨w, hw, hS⟩ := (hsoft v rfl).clear ht
    refine ⟨⟨l, some w, maxNum⟩, ?_, rfl, by simp, ?_⟩
    · simp [LimitlessEntry.removeSharer, (hsoft v rfl).atBit_eq, ht, check_pos, hw]
    · rintro _ ⟨⟩
      exact hS
  | none =>
    obtain ⟨hs, hx⟩ := hslots rfl
    obtain ⟨l', hrem, hl'⟩ := removeSharer_exact hs hx hN ht
    refine ⟨⟨l', none, maxNum⟩, ?_, rfl, fun _ => hl', by simp⟩
    simp only [LimitlessEntry.removeSharer]
    rw [show ((t : ℕ) : ℤ) = tileId t from rfl, hrem]
    simp [check_pos]

/-- The lists of both entries. In software they come from one and the same bit vector; the slots have the
tiles of `S`, which are all tracked, or none. -/
theorem Holds.getSharersList {f : FullMapEntry} (h : e.Holds maxHw S) (hf : f.Holds S)
    (hN : N ≤ 32768 ∨ maxHw = 0) : ∃ l e' l' f', e.getSharersList = .ok ((false, l), e') ∧
      e'.Holds maxHw S ∧ f.getSharersList = .ok ((false, l'), f') ∧ f'.Holds S ∧ ∀ v, v ∈ l ↔ v ∈ l' := by
  obtain ⟨htiles, hslots, hsoft⟩ := h
  obtain ⟨l, sw, maxNum⟩ := e
  obtain ⟨lf, hlf, hlen⟩ := BitVector.Holds.getSharersList_ok hf
  have hlist : f.getSharersList = .ok ((false, lf), ⟨f.sharers.resetFind⟩) := by
    simp [FullMapEntry.getSharersList, hlf]
  cases sw with
  | some v =>
    have hv : v.getSharersList = .ok (lf, v.resetFind) := by
      have hreset := (hsoft v rfl).resetFind_eq hf
      calc v.getSharersList = v.resetFind.getSharersList := rfl
        _ = f.sharers.getSharersList := by rw [hreset]; rfl
        _ = _ := by rw [hlf, hreset]
    refine ⟨lf, ⟨l, some v.resetFind, maxNum⟩, lf, _, ?_, ⟨htiles, by simp, ?_⟩, hlist,
      BitVector.Holds.resetFind hf, fun _ => Iff.rfl⟩
    · simp [LimitlessEntry.getSharersList, hv]
    · rintro _ ⟨⟩
      exact (hsoft v rfl).resetFind
  | none =>
    obtain ⟨hs, hx⟩ := hslots rfl
    refine ⟨l.tracked, ⟨l, none, maxNum⟩, lf, _, ?_, ⟨htiles, hslots, hsoft⟩, hlist,
      BitVector.Holds.resetFind hf, fun x => hx.mem_tracked_iff.trans ?_⟩
    · simp [LimitlessEntry.getSharersList, Limited.getSharersList, check_pos hx.length_tracked.symm]
    · rcases hN with hN | rfl
      · rw [BitVector.Holds.getSharersList_eq hf (hN.trans (by decide))] at hlf
        obtain ⟨rfl, -⟩ := Prod.mk.inj (Except.ok.inj hlf)
        simp [mem_bitList]
      · obtain rfl : S = ∅ := Finset.eq_empty_of_forall_notMem fun t ht => by
          have hnil : l.sharers = [] := length_eq_zero_iff.mp hs.length
          have hmem := hx.mem_iff.mpr ht
          simp [hnil] at hmem
        obtain rfl : lf = [] := length_eq_zero_iff.mp hlen
        simp

end LimitlessEntry

/-! ### Histories of both entries -/

/-- A limitless and a full-map entry that see the same operations, and the tiles that share the
line. -/
structure Entries (N : ℕ) where
  limitless : LimitlessEntry
  fullMap : FullMapEntry
  sharers : Finset (Fin N)

inductive EntryAction (N : ℕ)
  | add (t : Fin N) | remove (t : Fin N) | list
  deriving DecidableEq, Repr

/-- Absent sharers are added and present ones removed, in any order; the events are the answers of
the two entries to an addition. -/
def entries (N maxHwSharers : ℕ) : System (Entries N) (EntryAction N) Fault (Bool × Bool) where
  init s := s = ⟨.create maxHwSharers N, .create N, ∅⟩
  enabled s
    | .add t => t ∉ s.sharers
    | .remove t => t ∈ s.sharers
    | .list => True
  step s
    | .add t => do
      let (limitless, added) ← s.limitless.addSharer t
      let (fullMap, added') ← s.fullMap.addSharer t
      pure (⟨limitless, fullMap, insert t s.sharers⟩, [(added, added')])
    | .remove t => do
      let limitless ← s.limitless.removeSharer t false
      let fullMap ← s.fullMap.removeSharer t false
      pure (⟨limitless, fullMap, s.sharers.erase t⟩, [])
    | .list => do
      let (_, limitless) ← s.limitless.getSharersList
      let (_, fullMap) ← s.fullMap.getSharersList
      pure (⟨limitless, fullMap, s.sharers⟩, [])

/-- The two entries give the same answers, and neither reports that all tiles are sharers. -/
structure Entries.Agree (s : Entries N) : Prop where
  has : ∀ t : Fin N, ∃ b, s.limitless.hasSharer t = .ok b ∧ s.fullMap.hasSharer t = .ok b
  num : s.limitless.getNumSharers = s.fullMap.getNumSharers
  list : ∃ l l' f f', s.limitless.getSharersList = .ok ((false, l), l') ∧
    s.fullMap.getSharersList = .ok ((false, f), f') ∧ ∀ v, v ∈ l ↔ v ∈ f

/-- The entries agree throughout every history, and no assertion of either fails. -/
structure LikeFullMap (N maxHwSharers : ℕ) : Prop where
  agree : ∀ tr s, (entries N maxHwSharers).Run (fun _ => True) tr s → s.Agree
  added : ∀ tr s, (entries N maxHwSharers).Run (fun _ => True) tr s → ∀ a ∈ tr, a.1 = a.2
  safe : ∀ e, ¬ (entries N maxHwSharers).Fails (fun _ => True) e

/-- Both entries stand for the sharers. -/
structure Entries.Hold (maxHw : ℕ) (s : Entries N) : Prop where
  limitless : s.limitless.Holds maxHw s.sharers
  fullMap : s.fullMap.Holds s.sharers

theorem Entries.Hold.agree {s : Entries N} (h : s.Hold maxHw) (hN : N ≤ 32768 ∨ maxHw = 0) :
    s.Agree where
  has t := ⟨_, h.limitless.hasSharer, h.fullMap.hasSharer⟩
  num := by rw [h.limitless.num, h.fullMap.num]
  list := by
    obtain ⟨l, l', f, f', hl, -, hf, -, hmem⟩ := h.limitless.getSharersList h.fullMap hN
    exact ⟨l, l', f, f', hl, hf, hmem⟩

theorem entries_step (hN : N ≤ 32768 ∨ maxHw = 0) (tr : List (Bool × Bool)) (s : Entries N)
    (a : EntryAction N) (h : s.Hold maxHw ∧ ∀ b ∈ tr, b.1 = b.2)
    (ha : (entries N maxHw).enabled s a) :
    Returns ((entries N maxHw).step s a) fun r =>
      r.1.Hold maxHw ∧ ∀ b ∈ tr ++ r.2, b.1 = b.2 := by
  obtain ⟨⟨hl, hf⟩, htr⟩ := h
  cases a with
  | add t =>
    obtain ⟨l, hadd, hl⟩ := hl.addSharer hN ha
    obtain ⟨f, hadd', hf⟩ := hf.addSharer ha
    simp only [entries, hadd, hadd', ok_bind]
    exact ⟨⟨hl, hf⟩, by simpa using htr⟩
  | remove t =>
    obtain ⟨l, hrem, hl⟩ := hl.removeSharer hN ha
    obtain ⟨f, hrem', hf⟩ := hf.removeSharer ha
    simp only [entries, hrem, hrem', ok_bind]
    exact ⟨⟨hl, hf⟩, by simpa using htr⟩
  | list =>
    obtain ⟨_, l, _, f, hlist, hl, hlist', hf, -⟩ := hl.getSharersList hf hN
    simp only [entries, hlist, hlist', ok_bind]
    exact ⟨⟨hl, hf⟩, by simpa using htr⟩

/-! ### A tile that fits in no slot -/

theorem wide_sharer_lost (hN : 32768 < N) (hm : maxHw ≠ 0) :
    ∃ s, (entries N maxHw).Run (fun _ => True) [(true, true)] s ∧
      s.limitless.hasSharer 32768 = .ok false ∧ s.fullMap.hasSharer 32768 = .ok true := by
  obtain ⟨n, rfl⟩ := Nat.exists_eq_succ_of_ne_zero hm
  obtain ⟨t, ht⟩ : ∃ t : Fin N, (t : ℕ) = 32768 := ⟨⟨32768, hN⟩, rfl⟩
  have hstart : (entries N (n + 1)).Run (fun _ => True) []
      ⟨.create (n + 1) N, .create N, ∅⟩ := .start rfl
  have hen : (entries N (n + 1)).enabled ⟨.create (n + 1) N, .create N, ∅⟩ (.add t) :=
    Finset.notMem_empty t
  obtain ⟨f, hadd, hf⟩ := FullMapEntry.holds_create.addSharer (Finset.notMem_empty t)
  let l : LimitlessEntry := ⟨⟨-32768 :: replicate n invalidSharer, 1⟩, none, N⟩
  have hl : (LimitlessEntry.create (n + 1) N).addSharer t = .ok (l, true) := by
    simp only [LimitlessEntry.addSharer, LimitlessEntry.create, ht]
    rw [show ((32768 : ℕ) : ℤ) = 32768 from rfl, addSharer_wide]
    rfl
  have hstep : (entries N (n + 1)).step ⟨.create (n + 1) N, .create N, ∅⟩ (.add t) =
      .ok (⟨l, f, insert t ∅⟩, [(true, true)]) := by
    simp [entries, hl, hadd]
  refine ⟨_, hstart.step trivial hen hstep, ?_, ?_⟩
  · simp [LimitlessEntry.hasSharer, l, hasSharer, invalidSharer]
  · rw [← ht]
    simpa using hf.hasSharer (t := t)

theorem limitless_like_fullMap (N maxHwSharers : ℕ) :
    LikeFullMap N maxHwSharers ↔ N ≤ 32768 ∨ maxHwSharers = 0 := by
  constructor
  · intro h
    by_contra hN
    push Not at hN
    obtain ⟨s, hrun, hl, hf⟩ := wide_sharer_lost hN.1 hN.2
    obtain ⟨b, hb, hb'⟩ := (h.agree _ s hrun).has ⟨32768, hN.1⟩
    simp only at hb hb'
    rw [hl] at hb
    rw [hf] at hb'
    cases hb.trans hb'.symm
  · intro hN
    have hinit : ∀ s, (entries N maxHwSharers).init s →
        s.Hold maxHwSharers ∧ ∀ b ∈ ([] : List (Bool × Bool)), b.1 = b.2 := by
      rintro s rfl
      exact ⟨⟨LimitlessEntry.holds_create, FullMapEntry.holds_create⟩, by simp⟩
    have hstep := fun tr s a h (_ : True) ha => entries_step hN tr s a h ha
    constructor
    · intro tr s hrun
      exact (hrun.invariant hinit hstep).1.agree hN
    · intro tr s hrun
      exact (hrun.invariant hinit hstep).2
    · intro e hfail
      exact hfail.allowed hinit hstep

/-- On 32769 tiles and with one slot, tile 32768 is added and then missing. -/
theorem limitless_loses_tile : ∃ s : Entries 32769,
    (entries 32769 1).Run (fun _ => True) [(true, true)] s ∧
      s.limitless.hasSharer 32768 = .ok false ∧ s.fullMap.hasSharer 32768 = .ok true :=
  wide_sharer_lost (by decide) (by decide)

end Graphite
