import Graphite.Msi.Safety
import Graphite.Msi.Serial
import Graphite.Mosi.Safety
import Graphite.Mosi.Serial

/-! # Both protocols with private L2 caches

What holds in the runs of the MSI and of the MOSI machine alike.
-/

namespace Graphite.PrL2

open DirectoryCache Outcome SetAssoc Finset

variable {A : Type} [DecidableEq A] {N : ℕ}

theorem requests_serialized (cfg : Config A N) (dram : Fin N → A → Option LineData) :
    RequestsSerialized id .msi cfg (Msi.handle cfg) (fun t h => h = ⟨.empty, fun _ => [], dram t, ()⟩) ∧
      RequestsSerialized Mosi.ShmemReq.shmemMsg .mosi cfg (Mosi.handle cfg)
        fun t h => h = ⟨.empty, fun _ => [], dram t, .empty⟩ :=
  ⟨(Msi.servesInOrder cfg dram).requestsSerialized, (Mosi.servesInOrder cfg dram).requestsSerialized⟩

/-! ### What the L2 caches and the directories know

Each tile uses a line through one of its L1 caches, for instructions or for data.
-/

variable {R D : Type}

/-- Line `a` is at rest: no message about it is on its way between its home and the clients. -/
def AtRest (cfg : Config A N) (s : State A N (Home A N R D)) (a : A) : Prop :=
  ∀ t, (s t).up cfg a = [] ∧ (s (cfg.home a)).down a t = []

abbrev msiLine : Config Unit 2 := oneLine 1 .fullMap

abbrev mosiLine : Config Unit 2 := oneLine 1 .ackwise

section Rests

variable (cfg : Config Unit N) (u : Fin N) (cstate : CacheState) (dstate : DirectoryState)

/-- The line is at rest, and the caches of tile `u` and the home have it in these states. -/
def Rests (s : State Unit N (Home Unit N R D)) : Prop :=
  (∀ t, ((s t).up cfg ()).isEmpty ∧ ((s (cfg.home ())).down () t).isEmpty) ∧
  (l1Copy cfg u .data (s u) ()).isSome ∧ (L2.getInfo cfg u (s u) ()).cstate = cstate ∧
  ((entry cfg.directory (s (cfg.home ())).home.directory ()).getD (newEntry cfg.directory N)).dstate = dstate
deriving Decidable

variable {cfg} {u} {cstate} {dstate} in
theorem Rests.atRest {s : State Unit N (Home Unit N R D)} (h : Rests cfg u cstate dstate s) :
    AtRest cfg s () :=
  fun t => ⟨List.isEmpty_iff.mp (h.1 t).1, List.isEmpty_iff.mp (h.1 t).2⟩

/-- Tile 1 has stored to the line. -/
theorem modified_rests : ∃ tr s, (Msi.system msiLine fun _ _ => none).Run
    (Through fun _ => .data) tr s ∧ Rests msiLine 1 .modified .modified s := by
  obtain ⟨tr, s, h, hq⟩ := (Msi.run_start msiLine fun _ _ => none).of_reaches
    (Q := fun _ => Rests msiLine 1 .modified .modified)
    [store 1 7, msg 1 1, msg 1 0, msg 0 1, retry 1]
  exact ⟨tr, s, h.mono fun _ => through_data, hq⟩

/-- Tile 1 has stored to the line, and tile 0 has loaded it. -/
theorem owned_rests : ∃ tr s, (Mosi.system mosiLine fun _ _ => none).Run
    (Through fun _ => .data) tr s ∧ Rests mosiLine 1 .owned .owned s := by
  obtain ⟨tr, s, h, hq⟩ := (Mosi.run_start mosiLine fun _ _ => none).of_reaches
    (Q := fun _ => Rests mosiLine 1 .owned .owned) Mosi.storeThenLoad
  exact ⟨tr, s, h.mono fun _ => through_data, hq⟩

end Rests

section Through

variable (cfg : Config A N) (dram : Fin N → A → Option LineData) (via : Fin N → Route A)

/-- What an L1 holds its L2 holds in the same state, with the L1 as the cached location. -/
theorem inclusion : (cfg.directory.type ≠ .limitedBroadcast →
      ∀ tr s, (Msi.system cfg dram).Run (Through via) tr s → ∀ t,
        CacheInv cfg t (via t) (Missing .msi (s t)) (s t)) ∧
    ∀ tr s, (Mosi.system cfg dram).Run (Through via) tr s → ∀ t,
      CacheInv cfg t (via t) (Missing .mosi (s t)) (s t) :=
  ⟨fun hty _ _ h t => ((Msi.run_through hty h).coherent.tiles t).cache,
    fun _ _ h t => ((Mosi.run_through h).coherent.tiles t).cache⟩

theorem inclusion_rests : (∃ tr s, (Msi.system msiLine fun _ _ => none).Run
      (Through fun _ => .data) tr s ∧ ∃ l ∈ l1Copy msiLine 1 .data (s 1) (),
        get (msiLine.l2 1) (s 1).l2 () = some ⟨(), ⟨l.info, .l1DCache⟩, l.data⟩) ∧
    ∃ tr s, (Mosi.system mosiLine fun _ _ => none).Run (Through fun _ => .data) tr s ∧
      ∃ l ∈ l1Copy mosiLine 1 .data (s 1) (),
        get (mosiLine.l2 1) (s 1).l2 () = some ⟨(), ⟨l.info, .l1DCache⟩, l.data⟩ := by
  constructor
  · obtain ⟨tr, s, h, hr⟩ := modified_rests
    obtain ⟨l, hl⟩ := Option.isSome_iff_exists.mp hr.2.1
    exact ⟨tr, s, h, l, hl, ((inclusion _ _ _).1 (by decide) tr s h 1).incl hl⟩
  · obtain ⟨tr, s, h, hr⟩ := owned_rests
    obtain ⟨l, hl⟩ := Option.isSome_iff_exists.mp hr.2.1
    exact ⟨tr, s, h, l, hl, ((inclusion _ _ _).2 tr s h 1).incl hl⟩

/-- Line `a` has one entry at most, at its home, and it is in the replaced list exactly while a NULLIFY
request is at the front of the queue. A copy in an L2 has an entry that counts it and knows its owner. -/
structure Tracked (msg : R → ShmemMsg A N) (s : State A N (Home A N R D)) (a : A) : Prop where
  sound : ∀ v, DirSound cfg v (s v)
  waits : Waits a (requests msg (s (cfg.home a)) a)
    (a ∈ (s (cfg.home a)).home.directory.replaced.map Prod.fst)
  held : ∀ t st d, copy cfg t (s t) a = some (st, d) →
    ∃ e ∈ entry cfg.directory (s (cfg.home a)).home.directory a, e.dstate ≠ .uncached ∧
      (st ≠ .shared → e.owner = some t ∧ (e.dstate = .modified ∨ e.dstate = .owned ∧ st = .owned)) ∧
      (univ.filter fun u => copy cfg u (s u) a ≠ none).card ≤ e.sharers.getNumSharers

omit [DecidableEq A] in
variable {cfg} in
theorem mem_of_dstate {o : Option (DirectoryEntry N)}
    (h : (o.getD (newEntry cfg.directory N)).dstate ≠ .uncached) : o.getD (newEntry cfg.directory N) ∈ o := by
  cases o with
  | none => exact absurd rfl h
  | some e => rfl

theorem entries_tracked : (cfg.directory.type ≠ .limitedBroadcast →
      ∀ tr s, (Msi.system cfg dram).Run (Through via) tr s → ∀ a, Tracked cfg id s a) ∧
    ∀ tr s, (Mosi.system cfg dram).Run (Through via) tr s →
      ∀ a, Tracked cfg Mosi.ShmemReq.shmemMsg s a := by
  constructor
  · intro hty tr s h a
    obtain ⟨hlines, -, hs⟩ := (Msi.run_through hty h).coherent
    obtain ⟨ph, hl⟩ := hlines a
    refine ⟨hs, by rw [requests, List.map_id]; exact hl.waits, fun t st d hc => ?_⟩
    refine ⟨_, mem_of_dstate (hl.not_uncached hc), hl.not_uncached hc, fun hst => ?_, ?_⟩
    · obtain ⟨-, rfl | rfl⟩ := hl.copy_eq hc
      · exact absurd rfl hst
      · exact ⟨(hl.owner_of_modified hc).2.1, .inl (hl.owner_of_modified hc).1⟩
    · exact (Int.ofNat_le.mpr (card_le_card hl.copies_subset)).trans_eq hl.rep.num_eq.symm
  · intro tr s h a
    obtain ⟨hlines, -, hs⟩ := (Mosi.run_through h).coherent
    obtain ⟨-, ph, R, hl⟩ := hlines a
    refine ⟨hs, hl.waits, fun t st d hc => ⟨_, mem_of_dstate (hl.not_uncached hc),
      hl.not_uncached hc, hl.owner_of_copy hc, ?_⟩⟩
    exact (Int.ofNat_le.mpr (card_le_card hl.copies_subset)).trans hl.covers.card_le

theorem entries_tracked_rests : (∃ tr s, (Msi.system msiLine fun _ _ => none).Run
      (Through fun _ => .data) tr s ∧
      ∃ e ∈ entry msiLine.directory (s 0).home.directory (), e.owner = some 1) ∧
    ∃ tr s, (Mosi.system mosiLine fun _ _ => none).Run (Through fun _ => .data) tr s ∧
      ∃ e ∈ entry mosiLine.directory (s 0).home.directory (), e.owner = some 1 := by
  constructor
  · obtain ⟨tr, s, h, hr⟩ := modified_rests
    obtain ⟨d, hd⟩ := cstate_eq (s 1) (by decide) hr.2.2.1
    obtain ⟨e, he, -, hown, -⟩ := ((entries_tracked _ _ _).1 (by decide) tr s h ()).held 1 _ d hd
    exact ⟨tr, s, h, e, he, (hown (by decide)).1⟩
  · obtain ⟨tr, s, h, hr⟩ := owned_rests
    obtain ⟨d, hd⟩ := cstate_eq (s 1) (by decide) hr.2.2.1
    obtain ⟨e, he, -, hown, -⟩ := ((entries_tracked _ _ _).2 tr s h ()).held 1 _ d hd
    exact ⟨tr, s, h, e, he, (hown (by decide)).1⟩

/-- The entry of line `a` counts the copies, and the owner it names has one. -/
structure Exact (s : State A N (Home A N R D)) (a : A) (e : DirectoryEntry N) : Prop where
  count : cfg.directory.type ≠ .limitedBroadcast →
    e.sharers.getNumSharers = (univ.filter fun t => copy cfg t (s t) a ≠ none).card
  owner : e.dstate = .modified ∨ e.dstate = .owned → ∃ o d, e.owner = some o ∧
    copy cfg o (s o) a = some (if e.dstate = .modified then .modified else .owned, d)

theorem entries_exact : (cfg.directory.type ≠ .limitedBroadcast →
      ∀ tr s, (Msi.system cfg dram).Run (Through via) tr s → ∀ a, AtRest cfg s a → Exact cfg s a
        ((entry cfg.directory (s (cfg.home a)).home.directory a).getD (newEntry cfg.directory N))) ∧
    ∀ tr s, (Mosi.system cfg dram).Run (Through via) tr s → ∀ a, AtRest cfg s a → Exact cfg s a
      ((entry cfg.directory (s (cfg.home a)).home.directory a).getD (newEntry cfg.directory N)) := by
  constructor
  · intro hty tr s h a hq
    obtain ⟨ph, hl⟩ := (Msi.run_through hty h).coherent.lines a
    have hrest := fun t => hl.at_rest (hq t).1 (hq t).2
    refine ⟨fun _ => hl.rep.num_eq.trans ?_, fun hd => ?_⟩
    · congr
      ext t
      rcases hrest t with ⟨hp, hc⟩ | ⟨hp, hc⟩ | ⟨hp, hc⟩ <;> simp_all [client, Msi.mem_holders]
    · have ha := hl.agrees
      rcases hd with hd | hd
      · obtain ⟨o, ho, hown, -⟩ := (Msi.agrees_modified hd).mp ha
        rcases hrest o with ⟨hp, -⟩ | ⟨hp, -⟩ | ⟨-, hc⟩
        · cases hp ▸ hown
        · cases hp ▸ hown
        · exact ⟨o, _, ho, by rw [if_pos hd]; exact hc⟩
      · have ha : Msi.Agrees _ (Option.getD (entry ..) _) ph := ha
        simp [Msi.Agrees, hd] at ha
  · intro tr s h a hq
    obtain ⟨-, ph, R, hl⟩ := (Mosi.run_through h).coherent.lines a
    have hrest := fun t => hl.at_rest (hq t).1 (hq t).2
    refine ⟨fun hty => (hl.covers.rep hty).num_eq.trans ?_, fun hd => ?_⟩
    · congr
      ext t
      rcases hrest t with ⟨hp, hc⟩ | ⟨st, d, hp, hc⟩ <;> simp_all [client, Mosi.mem_holders]
    · have ha := hl.agrees
      rcases hd with hd | hd
      · obtain ⟨-, o, ho, -, hown⟩ := (Mosi.agrees_modified hd).mp ha
        rcases hrest o with ⟨hp, -⟩ | ⟨st, d, hp, hc⟩
        · simp [hp, Mosi.Phase.isWriter] at hown
        · obtain rfl : st = .modified := by cases st <;> simp_all [Mosi.Phase.isWriter]
          exact ⟨o, d, ho, by rw [if_pos hd]; exact hc⟩
      · obtain ⟨-, o, ho, -, hown, -⟩ := (Mosi.agrees_owned hd).mp ha
        rcases hrest o with ⟨hp, -⟩ | ⟨st, d, hp, hc⟩
        · simp [hp, Mosi.Phase.isOwner] at hown
        · obtain rfl : st = .owned := by cases st <;> simp_all [Mosi.Phase.isOwner]
          exact ⟨o, d, ho, by rw [if_neg (by simp [hd])]; exact hc⟩

theorem entries_exact_rests : (∃ tr s o d, (Msi.system msiLine fun _ _ => none).Run
      (Through fun _ => .data) tr s ∧ AtRest msiLine s () ∧
      copy msiLine o (s o) () = some (.modified, d)) ∧
    ∃ tr s o d, (Mosi.system mosiLine fun _ _ => none).Run (Through fun _ => .data) tr s ∧
      AtRest mosiLine s () ∧ copy mosiLine o (s o) () = some (.owned, d) := by
  constructor
  · obtain ⟨tr, s, h, hr⟩ := modified_rests
    obtain ⟨o, d, -, hd⟩ := ((entries_exact _ _ _).1 (by decide) tr s h () hr.atRest).owner (.inl hr.2.2.2)
    rw [if_pos hr.2.2.2] at hd
    exact ⟨tr, s, o, d, h, hr.atRest, hd⟩
  · obtain ⟨tr, s, h, hr⟩ := owned_rests
    obtain ⟨o, d, -, hd⟩ := ((entries_exact _ _ _).2 tr s h () hr.atRest).owner (.inr hr.2.2.2)
    rw [if_neg (by rw [hr.2.2.2]; decide)] at hd
    exact ⟨tr, s, o, d, h, hr.atRest, hd⟩

end Through

end Graphite.PrL2
