import Graphite.Mosi.Safety
import Graphite.Mosi.Stored

/-! # The capacity of the data lists of MOSI

A directory caches data for lines with a queued request. Such a line is being nullified, or the
request at the front of its queue is the outstanding one of a tile. A tile has one outstanding
request, but lines are nullified on behalf of requests that are answered earlier, so the lines with a
queued request may be more than the tiles.
-/

namespace Graphite.Mosi

open Outcome PrL2 PrL2.Directory List Option

variable {A : Type} [DecidableEq A] {N : ℕ}

section Conditions

variable (cfg : Config A N) (s : State A N (Home A N))

/-- The tiles that wait for a line of home `v`. -/
def waiting (v : Fin N) : Finset (Fin N) :=
  Finset.univ.filter fun t => (s t).outstanding.any fun m => cfg.home m.address = v

/-- At every home the lines that are being nullified and the tiles that wait are no more than the tiles. -/
def Roomy : Prop := ∀ v, (s v).home.directory.replaced.length + (waiting cfg s v).card ≤ N
deriving Decidable

/-- The data lists are in order, and each has data of lines of its own tile. -/
structure Stored : Prop where
  sized : ∀ v, (s v).home.dataList.Sized
  homed : ∀ v a, (s v).home.dataList.lookup a ≠ none → cfg.home a = v

end Conditions

variable {cfg : Config A N} {via : Fin N → Route A} {dram : Fin N → A → Option LineData}
  {V : A → LineData} {s : State A N (Home A N)} {tr : List (Event A N)} {v : Fin N} {a : A}

/-! ## Lines with a queued request -/

section

variable (h : Coherent .mosi cfg via (view cfg) V s)
include h

theorem replaced_or_waiting (hv : cfg.home a = v)
    (hq : (s v).home.reqQueue a ≠ []) : a ∈ (s v).home.directory.replaced.map Prod.fst ∨
      ∃ t ∈ waiting cfg s v, (s t).outstanding.map ShmemMsg.address = some a := by
  subst hv
  obtain ⟨-, ph, R, hl⟩ := h.lines a
  obtain ⟨r, q, hrq⟩ := exists_cons_of_ne_nil hq
  have hqueue : (msgs ((view cfg).at (s (cfg.home a)) a)).queue = r.shmemMsg :: q.map ShmemReq.shmemMsg := by
    simp [msgs, View.at, view, hrq]
  rcases (hl.requests r.shmemMsg (by simp [hqueue])).2 with hreq | hnull
  · obtain ⟨k, hk⟩ := isSome_iff_exists.mp hreq
    have htickets := (hl.port r.shmemMsg.requester).tickets
    rw [hqueue, queued_cons_self hk] at htickets
    have hmem : k ∈ (client cfg r.shmemMsg.requester (s r.shmemMsg.requester) a).waits.toList := by
      rw [← htickets]
      simp
    simp only [client, Tile.waits, mem_toList, map_eq_some_iff,
      filter_eq_some_iff, decide_eq_true_eq] at hmem
    obtain ⟨m, ⟨hm, ha⟩, -⟩ := hmem
    exact .inr ⟨r.shmemMsg.requester, by simp [waiting, hm, ha], by simp [hm, ha]⟩
  · exact .inl (hl.replaced.mpr ⟨_, _, hqueue, hnull⟩)

theorem busy_le {as : List A} (hnd : as.Nodup)
    (has : ∀ a ∈ as, cfg.home a = v ∧ (s v).home.reqQueue a ≠ []) :
    as.length ≤ (s v).home.directory.replaced.length + (waiting cfg s v).card := by
  set gone := (s v).home.directory.replaced.map Prod.fst
  have hgone : (as.filter (· ∈ gone)).length ≤ gone.length :=
    ((hnd.filter _).subperm fun a ha => by simpa using (mem_filter.mp ha).2).length_le
  have hrest : (as.filter (· ∉ gone)).length ≤ (waiting cfg s v).card := by
    rw [← toFinset_card_of_nodup (hnd.filter _), ← Finset.card_map .some]
    refine (Finset.card_le_card fun o ho => ?_).trans
      (Finset.card_image_le (f := fun t => (s t).outstanding.map ShmemMsg.address))
    obtain ⟨a, ha, rfl⟩ := Finset.mem_map.mp ho
    obtain ⟨ha, hg⟩ := mem_filter.mp (mem_toFinset.mp ha)
    obtain ⟨hv, hq⟩ := has a ha
    obtain ⟨t, ht, hta⟩ := (replaced_or_waiting h hv hq).resolve_left (of_decide_eq_true hg)
    exact Finset.mem_image.mpr ⟨t, ht, hta⟩
  calc as.length = (as.filter (· ∈ gone)).length + (as.filter (· ∉ gone)).length := by
        simpa using (length_eq_length_filter_add (l := as) fun a => decide (a ∈ gone))
    _ ≤ gone.length + (waiting cfg s v).card := Nat.add_le_add hgone hrest
    _ = (s v).home.directory.replaced.length + (waiting cfg s v).card := by simp [gone]

theorem queue_of_cached (hst : Stored cfg s)
    (ha : (s v).home.dataList.lookup a ≠ none) : cfg.home a = v ∧ (s v).home.reqQueue a ≠ [] := by
  obtain rfl := hst.homed v a ha
  obtain ⟨-, ph, R, hl⟩ := h.lines a
  have hq := (hl.data.busy (isSome_iff_ne_none.mpr ha)).1
  exact ⟨rfl, fun hnil => hq (by simp [msgs, View.at, view, hnil])⟩

theorem Stored.size_le (hst : Stored cfg s) (v : Fin N) :
    (s v).home.dataList.size ≤ (s v).home.directory.replaced.length + (waiting cfg s v).card := by
  obtain ⟨as, hnd, hmem, hlen⟩ := hst.sized v
  rw [← hlen]
  exact busy_le h hnd fun a ha => queue_of_cached h hst ((hmem a).mp ha)

/-- In a machine with room, the data of one more line with a queued request fit. -/
theorem Roomy.not_overfull (hst : Stored cfg s)
    (hroom : Roomy cfg s) (hv : cfg.home a = v) : ¬ Overfull a (s v) := by
  rintro ⟨hq, as, hnd, has, hlen⟩
  refine absurd (busy_le (v := v) h hnd fun b hb => ?_) (Nat.not_le.mpr ((hroom v).trans_lt hlen))
  rcases has b hb with rfl | hb
  · exact ⟨hv, hq⟩
  · exact queue_of_cached h hst hb

end

/-! ## Runs -/

theorem Stored.init (h : (system cfg dram).init s) : Stored cfg s where
  sized v := by rw [(h v).1]; exact DataList.sized_empty
  homed v a ha := by simp [(h v).1, DataList.empty] at ha

omit [DecidableEq A] in
theorem Stored.update {s' : State A N (Home A N)} {x : Tile A N} (hst : Stored cfg s)
    (hs' : ∀ u, (s' u).home = (s u).home) (hx : x.home.dataList.Sized)
    (hdata : ∀ b, x.home.dataList.lookup b ≠ none → cfg.home b = v) : Stored cfg (Function.update s' v x) where
  sized u := by
    rcases eq_or_ne u v with rfl | hu
    · simpa using hx
    · simpa [hu, hs'] using hst.sized u
  homed u b hb := by
    rcases eq_or_ne u v with rfl | hu
    · exact hdata b (by simpa using hb)
    · exact hst.homed u b (by simpa [hu, hs'] using hb)

theorem Stored.memOp {t : Fin N} {acc : Access A} {w n : ℕ} (hst : Stored cfg s) : Ensures (do
      let (x, evs) ← L1.processMemOpFromCore .mosi cfg t (s t) w acc n
      pure (Function.update s t x, evs)) fun r => Stored cfg r.1 := by
  refine L1.processMemOpFromCore_home.bind fun y hy => hst.update (fun _ => rfl) ?_ fun b hb => ?_
  · rw [hy]
    exact hst.sized t
  · exact hst.homed t b (by rwa [hy] at hb)

/-- One step keeps the lists in order; a message finds a list full only if it is overfull. -/
theorem Stored.step {act : Action A N} (h : Coherent .mosi cfg via (view cfg) V s) (hst : Stored cfg s) :
    Sat (PrL2.step .mosi cfg (handle cfg) s act)
      (fun e => act.IsDeliver → e = .dataListFull → ∃ a, Overfull a (s (cfg.home a)))
      fun r => Stored cfg r.1 := by
  cases act with
  | access t acc ch => exact hst.memOp.imp (fun _ _ => False.elim) fun _ hr => hr
  | resume t ch =>
    simp only [PrL2.step]
    split
    · exact hst.memOp.imp (fun _ _ => False.elim) fun _ hr => hr
    · exact hst
  | deliver src dst ch =>
    simp only [PrL2.step]
    split
    · exact hst
    · next m ms hm =>
      have hrouted : m.receiverComponent = .dramDirectory → dst = cfg.home m.address := by
        intro hr
        rcases (h.tiles src).routed dst m (by simp [hm]) with hd | hd | hd
        · exact hd.2.2
        · simp [hr] at hd
        · simp [(isFromL1_iff.mp hd.1).1] at hr
      have hhome : ∀ u, (s.pop src dst u).home = (s u).home := s.pop_home src dst
      have hs : (s.pop src dst dst).home.dataList.Sized := by rw [hhome]; exact hst.sized dst
      refine Sat.bind ((handle_stores hs).imp (fun e he _ hfull => ?_) fun x hx => hx) fun x hx => ?_
      · obtain ⟨hr, hover⟩ := he hfull
        refine ⟨m.address, ?_⟩
        rw [← hrouted hr]
        simpa only [Overfull, hhome] using hover
      · refine hst.update hhome hx.1 fun b hb => ?_
        rcases hx.2 b hb with ⟨hr, rfl⟩ | hb
        · exact (hrouted hr).symm
        · exact hst.homed dst b (by rwa [hhome] at hb)

structure CapacityInv (cfg : Config A N) (via : Fin N → Route A) (V : A → LineData) (tr : List (Event A N))
    (s : State A N (Home A N)) : Prop where
  run : RunInv .mosi cfg via (view cfg) V tr s
  stored : Stored cfg s

theorem CapacityInv.start (h : (system cfg dram).init s) : CapacityInv cfg via (contents cfg dram) [] s :=
  ⟨init_coherent via h, .init h⟩

theorem CapacityInv.step {act : Action A N} (h : CapacityInv cfg via V tr s) (hvia : Through via act)
    (hen : enabled cfg s act) : Sat (PrL2.step .mosi cfg (handle cfg) s act)
      (fun e => e = .dataListFull → ¬ Roomy cfg s) fun r => CapacityInv cfg via V (tr ++ r.2) r.1 := by
  have hco := h.run.coherent
  have hdeliver := (hco.step (rules cfg via) hvia hen).imp (fun _ he => he.2) fun _ _ => trivial
  refine ((hdeliver.and (h.run.step (rules cfg via) hvia hen)).and (h.stored.step hco)).imp ?_ ?_
  · rintro e ⟨⟨hact, -⟩, he⟩ hfull hroom
    obtain ⟨a, hover⟩ := he hact hfull
    exact hroom.not_overfull hco h.stored rfl hover
  · exact fun _ hr => ⟨hr.1.2, hr.2⟩

/-- Lists with data of at most as many lines as there are tiles are found in every state with room, and
no list is found full from such states. -/
theorem data_list_fits (cfg : Config A N) (dram : Fin N → A → Option LineData) {P : Action A N → Prop}
    (hP : ∀ act, P act → Through via act) :
    (¬ ((system cfg dram).restrict fun s _ => Roomy cfg s).Fails P .dataListFull) ∧
    ∀ tr s, (system cfg dram).Run P tr s → Roomy cfg s → ∀ v,
      (s v).home.dataList.Sized ∧ (s v).home.dataList.size ≤ N := by
  constructor
  · intro hfail
    have hstart : ∀ s, ((system cfg dram).restrict fun s _ => Roomy cfg s).init s →
        CapacityInv cfg via (contents cfg dram) [] s := fun s hs => .start hs
    refine hfail.allowed (E := (· ≠ .dataListFull)) hstart (fun tr s act hinv hact hen => ?_) rfl
    exact (hinv.step (hP act hact) hen.1).imp (fun e he hfull => he hfull hen.2) fun _ hr => hr
  · intro tr s hrun hroom v
    have hinv : CapacityInv cfg via (contents cfg dram) tr s :=
      hrun.invariant (E := fun _ => True) (fun s hs => .start hs) fun tr s act hinv hact hen =>
        (hinv.step (hP act hact) hen).imp (fun _ _ => trivial) fun _ hr => hr
    exact ⟨hinv.stored.sized v, (hinv.stored.size_le hinv.run.coherent v).trans (hroom v)⟩

/-! ## A crowded directory -/

/-- Two tiles and a directory with three sets of one entry each; the caches have room for eight lines. -/
def crowded : Config ℕ 2 where
  home _ := ⟨0, Nat.zero_lt_two⟩
  l1i _ := ⟨fun _ => 0, 8⟩
  l1d _ := ⟨fun _ => 0, 8⟩
  l2 _ := ⟨fun _ => 0, 8⟩
  directory := ⟨⟨fun a => a % 3, 1⟩, .fullMap, 1⟩
  isApplicationTile _ := true
  lineSize := 4

section Crowded

variable (a : ℕ) (t u : Fin 2)

def crowdedAccess (op : MemOp) : Action ℕ 2 := .access t ⟨.l1DCache, .none, op, a, 0, [7]⟩ ⟨a, a, a, 0⟩

def crowdedMsg : Action ℕ 2 := .deliver t u ⟨a, a, a, 0⟩

/-- The home `t` stores to line `a` and then `u` loads it: `t` owns the line and `u` shares it. -/
def shareLine : List (Action ℕ 2) :=
  [crowdedAccess a t .write, crowdedMsg a t t, crowdedMsg a t t, crowdedMsg a t t, .resume t ⟨a, a, a, 0⟩,
    crowdedAccess a u .read, crowdedMsg a u u, crowdedMsg a u t, crowdedMsg a t t, crowdedMsg a t t,
    crowdedMsg a t u, .resume u ⟨a, a, a, 0⟩]

/-- The home `t` loads line `a`, which takes the entry of an owned line, and gives that line back; the other
tile is not yet asked for its copy. -/
def replaceLine : List (Action ℕ 2) :=
  [crowdedAccess a t .read, crowdedMsg a t t, crowdedMsg a t t, crowdedMsg a t t, crowdedMsg a t t,
    .resume t ⟨a, a, a, 0⟩, crowdedMsg a t t]

end Crowded

theorem data_list_fits_crowded :
    (¬ ((system crowded fun _ _ => none).restrict fun s _ => Roomy crowded s).Fails DataOnly .dataListFull) ∧
    ∃ tr s, (system crowded fun _ _ => none).Run DataOnly tr s ∧ Roomy crowded s ∧
      0 < (s 0).home.dataList.size ∧ (s 0).home.dataList.size ≤ 2 := by
  obtain ⟨hfits, hsize⟩ := data_list_fits crowded (fun _ _ => none) fun _ => through_data
  exact ⟨hfits, (run_start crowded fun _ _ => none).of_reaches_imp
    (Q := fun _ s => Roomy crowded s ∧ 0 < (s 0).home.dataList.size)
    (shareLine 0 0 1 ++ shareLine 1 0 1 ++ replaceLine 3 0 ++ replaceLine 4 0)
    fun tr s h hq => ⟨hq.1, hq.2, (hsize tr s h hq.1 0).2⟩⟩

/-- Three lines are owned by tile 0 and shared by tile 1, and their entries are replaced. Each time the
data of the replaced line stay in the list, as tile 1 has not answered: the third line does not fit. -/
theorem data_list_overflows : (system crowded fun _ _ => none).Fails DataOnly .dataListFull :=
  .of_stops (run_start crowded fun _ _ => none) (shareLine 0 0 1 ++ shareLine 1 0 1 ++ shareLine 2 0 1 ++
    replaceLine 3 0 ++ replaceLine 4 0 ++ replaceLine 5 0)

end Graphite.Mosi
