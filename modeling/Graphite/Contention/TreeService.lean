import Graphite.Contention.HistoryTree

/-! # Service by the history tree

The intervals of the tree change as the list of free intervals does when a packet is served in the
first one with room for it. The blocks in the tree and the free blocks are all the blocks of the pool.
-/

namespace Graphite.Contention

open Outcome Spans AvlTree IntervalTree HistoryTree
open List hiding Chain

/-- The tree holds the intervals `l`, in the blocks that are not free. -/
structure Represents (cfg : QueueConfig) (q : HistoryTree) (T : HTree Entry) (l : List Interval) : Prop where
  valid : Valid q.tree T
  keys : ∀ e ∈ T.inorder, e.key = e.interval.first
  intervals : T.inorder.map Entry.interval = l
  pool : (T.inorder.map Entry.ptr ++ q.freeBlocks).Perm (List.range cfg.maxListSize)

section Operations

variable {cfg : QueueConfig} {q : HistoryTree} {T : HTree Entry} {l : List Interval} {before after : List Entry}
  {e : Entry} {i : Interval}

theorem ordered_of_chain {l : List Entry} (hkeys : ∀ e ∈ l, e.key = e.interval.first)
    (hchain : Chain 1 1 (l.map Entry.interval)) : Ordered l := by
  refine (pairwise_map.mp hchain.gaps).imp_of_mem fun {a b} ha hb hgap => ?_
  have hsize := hchain.sizes a.interval (mem_map_of_mem ha)
  rw [hkeys a ha, hkeys b hb]
  omega

namespace Represents

section

variable (hq : Represents cfg q T l)
include hq

theorem size_eq : q.tree.size = l.length := by
  rw [hq.valid.size, ← hq.intervals, length_map]

theorem length_add : l.length + q.freeBlocks.length = cfg.maxListSize := by
  have hlength := hq.pool.length_eq
  rw [length_append, length_map, length_range] at hlength
  rw [← hq.intervals, length_map, hlength]

theorem nodup : T.inorder.Nodup :=
  hq.valid.holds.distinct.imp fun hne heq => hne (congrArg Entry.ptr heq)

theorem interval_eq (he : e ∈ T.inorder) :
    (q.tree.nodes e.ptr).interval = e.interval ∧ (q.tree.nodes e.ptr).key = e.key :=
  (hq.valid.holds.rep.pair he).symm

section

variable (hT : T.inorder = before ++ e :: after)
include hT

theorem removeNode : ∃ q' T', q.removeNode cfg e.ptr = .ok q' ∧
      Represents cfg q' T' ((before ++ after).map Entry.interval) := by
  have he : e ∈ T.inorder := by
    rw [hT]
    simp
  obtain ⟨tree, T', p, hrun, hr⟩ := remove_sat hq.valid he
  obtain ⟨l₁, l₂, hl, hpairs⟩ := hr.entries
  have hnodup := hq.nodup
  rw [hT] at hnodup
  obtain ⟨rfl, -, rfl⟩ : before = l₁ ∧ e = e ∧ after = l₂ := by
    refine (append_cons_inj_of_notMem ?_ ?_).mp (hT.symm.trans hl)
    · exact fun hmem => (nodup_append.mp hnodup).2.2 e hmem e mem_cons_self rfl
    · exact (nodup_cons.mp (nodup_append.mp hnodup).2.1).1
  have hptrs := hr.ptrs
  have hpool : (T'.inorder.map Entry.ptr ++ p :: q.freeBlocks).Perm (range cfg.maxListSize) :=
    perm_middle.trans ((hptrs.append_right _).trans hq.pool)
  have hp : p < cfg.maxListSize := mem_range.mp (hpool.mem_iff.mp (by simp))
  have hlength := hpool.length_eq
  rw [length_append, length_cons, length_range] at hlength
  refine ⟨⟨tree, p :: q.freeBlocks, q.arrivals⟩, T', ?_, hr.valid, ?_, ?_, hpool⟩
  · rw [HistoryTree.removeNode, hrun, ok_bind]
    dsimp only
    rw [releaseNode, check_pos hp, ok_bind, check_pos (by dsimp only; omega)]
    rfl
  · intro a ha
    have hmem : a.pair ∈ (before ++ after).map Entry.pair := hpairs ▸ mem_map_of_mem ha
    obtain ⟨b, hb, hab⟩ := mem_map.mp hmem
    have hkey := hq.keys b (by rw [hT]; simp only [mem_append, mem_cons] at hb ⊢; tauto)
    obtain ⟨hk, hi⟩ := Prod.ext_iff.mp hab
    exact hk.symm.trans (hkey.trans (congrArg Span.first hi))
  · have hsnd := congrArg (map Prod.snd) hpairs
    rw [map_map, map_map] at hsnd
    exact hsnd

theorem setInterval
    (hchain : Chain 1 1 (before.map Entry.interval ++ i :: after.map Entry.interval)) :
    ∃ T', Represents cfg { q with tree := q.tree.modify e.ptr (·.setPair i.first i) } T'
      (before.map Entry.interval ++ i :: after.map Entry.interval) := by
  have hd := hq.valid.holds.distinct
  rw [hT] at hd
  have hinorder : (T.map (replace e.ptr i.first i)).inorder = before ++ ⟨e.ptr, i.first, i⟩ :: after := by
    rw [inorder_map, hT, hd.map_replace]
  have hintervals : (T.map (replace e.ptr i.first i)).inorder.map Entry.interval =
      before.map Entry.interval ++ i :: after.map Entry.interval := by
    rw [hinorder, map_append, map_cons]
  have hkeys : ∀ a ∈ (T.map (replace e.ptr i.first i)).inorder, a.key = a.interval.first := by
    intro a ha
    have hold := hq.keys a
    rw [hT] at hold
    rw [hinorder] at ha
    simp only [mem_append, mem_cons] at ha hold
    obtain ha | rfl | ha := ha
    · exact hold (.inl ha)
    · rfl
    · exact hold (.inr (.inr ha))
  refine ⟨T.map (replace e.ptr i.first i), ⟨hq.valid.holds.replace, ?_, balanced_map _ hq.valid.balanced, ?_⟩,
    hkeys, hintervals, ?_⟩
  · exact ordered_of_chain hkeys (hintervals ▸ hchain)
  · rw [inorder_map, length_map]
    exact hq.valid.size
  · have hptrs : (T.map (replace e.ptr i.first i)).inorder.map Entry.ptr = T.inorder.map Entry.ptr := by
      rw [hinorder, hT, map_append, map_cons, map_append, map_cons]
    rw [hptrs]
    exact hq.pool

theorem insertNode
    (hlength : l.length < cfg.maxListSize) (hlt : e.key < i.first) (hgt : ∀ a ∈ after, i.first < a.key) :
    ∃ q' T' n, q.insertNode i = .ok q' ∧ T'.inorder = before ++ e :: n :: after ∧
      n.interval = i ∧ Represents cfg q' T' (before.map Entry.interval ++ e.interval :: i :: after.map Entry.interval) := by
  have hadd := hq.length_add
  cases hblocks : q.freeBlocks with
  | nil =>
    rw [hblocks, length_nil] at hadd
    omega
  | cons block rest =>
    have hpool := hq.pool
    rw [hblocks] at hpool
    have hnodup := hpool.nodup_iff.mpr nodup_range
    have hptr : ∀ a ∈ T.inorder, a.ptr ≠ block := by
      intro a ha heq
      refine (nodup_append.mp hnodup).2.2 a.ptr (mem_map_of_mem ha) block mem_cons_self heq
    have hord := hq.valid.ordered
    rw [hT, Ordered, pairwise_append, pairwise_cons] at hord
    have hkey : ∀ a ∈ T.inorder, a.key ≠ i.first := by
      intro a ha
      rw [hT, mem_append, mem_cons] at ha
      obtain ha | rfl | ha := ha
      · have := hord.2.2 a ha e mem_cons_self
        omega
      · omega
      · exact (hgt a ha).ne'
    let n : Entry := ⟨block, i.first, i⟩
    let tree := q.tree.modify block fun _ => Node.initializeWith i
    have hvalid : Valid tree T := ⟨hq.valid.holds.modify_of_ne hptr, hq.valid.ordered, hq.valid.balanced, hq.valid.size⟩
    have hn : Fresh tree T n := by
      refine ⟨?_, hptr, hkey⟩
      rw [nodes_modify, if_pos rfl]
      rfl
    have hne : T ≠ .nil := by
      rintro rfl
      simp [HTree.inorder] at hT
    obtain ⟨tree', T', hrun, hins⟩ := insert_sat hvalid hn hne
    have hperm : T'.inorder.Perm (n :: T.inorder) := by
      obtain ⟨l₁, l₂, hl, hl'⟩ := hins.inorder
      rw [hl, hl']
      exact perm_middle
    have hinorder : T'.inorder = before ++ e :: n :: after := by
      have hsorted : Ordered ((before ++ [e]) ++ n :: after) := by
        refine Ordered.insert (by simpa [hT] using hq.valid.ordered) (fun a ha => ?_) hgt
        obtain ha | ha := mem_append.mp ha
        · exact (hord.2.2 a ha e mem_cons_self).trans hlt
        · rw [mem_singleton.mp ha]
          exact hlt
      rw [append_assoc, singleton_append] at hsorted
      refine List.Perm.eq_of_pairwise (fun a b _ _ h h' => absurd h (Nat.not_lt_of_lt h')) hins.valid.ordered hsorted ?_
      refine hperm.trans ?_
      rw [hT, append_cons before e after, append_cons before e (n :: after)]
      exact perm_middle.symm
    refine ⟨⟨tree', rest, q.arrivals⟩, T', n, ?_, hinorder, rfl, hins.valid, ?_, ?_, ?_⟩
    · rw [HistoryTree.insertNode, HistoryTree.allocateNode, hblocks]
      dsimp only
      rw [pure_eq_ok, ok_bind]
      dsimp only
      rw [hrun]
      rfl
    · intro a ha
      obtain rfl | ha := mem_cons.mp (hperm.mem_iff.mp ha)
      · rfl
      · exact hq.keys a ha
    · rw [hinorder, map_append, map_cons, map_cons]
    · exact (((hperm.map Entry.ptr).append_right rest).trans perm_middle.symm).trans hpool

end

theorem setFirst_eq (he : e ∈ T.inorder) (first : ℕ) : q.setFirst e.ptr first =
    { q with tree := q.tree.modify e.ptr (·.setPair first ⟨first, e.interval.second⟩) } := by
  rw [setFirst, modify_congr]
  rw [(hq.interval_eq he).1]

theorem setSecond_eq (he : e ∈ T.inorder) (second : ℕ) : q.setSecond e.ptr second =
    { q with tree := q.tree.modify e.ptr (·.setPair e.interval.first ⟨e.interval.first, second⟩) } := by
  rw [setSecond, modify_congr]
  rw [(hq.interval_eq he).1, (hq.interval_eq he).2, hq.keys e he]

theorem intervals_eq (hT : T.inorder = before ++ e :: after) :
    l = before.map Entry.interval ++ e.interval :: after.map Entry.interval := by
  rw [← hq.intervals, hT, map_append, map_cons]

end

section

variable (hq : Represents cfg q T l) (hl : Free 1 1 l) (hT : T.inorder = before ++ e :: after)
  (hmin : 1 ≤ cfg.minProcessingTime)
include hq hl hT hmin

theorem keepRest {s : ℕ} (hs : e.interval.first ≤ s) (hle : s ≤ e.interval.second) :
    ∃ q' T', q.keepRest cfg e.ptr s = .ok q' ∧
      Represents cfg q' T' (before.map Entry.interval ++ cfg.keep ⟨s, e.interval.second⟩ ++ after.map Entry.interval) := by
  have he : e ∈ T.inorder := by
    rw [hT]
    simp
  have hl' := hq.intervals_eq hT
  have hsecond := hl.second_lt (i := e.interval) (by rw [hl']; simp)
  rw [HistoryTree.keepRest, (hq.interval_eq he).1, QueueConfig.keep]
  dsimp only
  by_cases hlong : sub64 e.interval.second s ≥ cfg.minProcessingTime
  · rw [if_pos hlong, if_pos hlong, hq.setFirst_eq he]
    rw [sub64_eq hle hsecond] at hlong
    have hchain : Chain 1 1 (before.map Entry.interval ++ [⟨s, e.interval.second⟩] ++ after.map Entry.interval) := by
      refine Chain.replace (hl' ▸ hl.chain) (Chain.singleton (by dsimp only; omega)) fun a ha => ?_
      rw [mem_singleton.mp ha]
      exact ⟨hs, Nat.le_refl _⟩
    rw [append_assoc, singleton_append] at hchain ⊢
    obtain ⟨T', hq'⟩ := hq.setInterval hT hchain
    exact ⟨_, T', rfl, hq'⟩
  · rw [if_neg hlong, if_neg hlong, append_nil, ← map_append]
    exact hq.removeNode hT

theorem splitNode {pkt : Packet} (hn : 1 ≤ pkt.processing) (hlength : l.length < cfg.maxListSize)
    (hlong : e.interval.first + cfg.minProcessingTime ≤ pkt.time)
    (hle : pkt.time + pkt.processing ≤ e.interval.second) :
    ∃ q' T', q.splitNode cfg e.ptr pkt = .ok q' ∧
      Represents cfg q' T' (before.map Entry.interval ++ cfg.pieces pkt.time pkt.processing e.interval ++
        after.map Entry.interval) := by
  have he : e ∈ T.inorder := by
    rw [hT]
    simp
  have hl' := hq.intervals_eq hT
  have hsecond := hl.second_lt (i := e.interval) (by rw [hl']; simp)
  have hmax : max pkt.time e.interval.first = pkt.time := by omega
  have hfits : e.interval.Fits pkt.time pkt.processing := by
    unfold Span.Fits
    omega
  have hchain : Chain 1 1 (before.map Entry.interval ++ cfg.pieces pkt.time pkt.processing e.interval ++
      after.map Entry.interval) :=
    Chain.replace (hl' ▸ hl.chain) (chain_pieces hfits hsecond hn hmin) fun a ha => (mem_pieces hfits hsecond ha).2.1
  have hpieces : cfg.pieces pkt.time pkt.processing e.interval =
      ⟨e.interval.first, pkt.time⟩ :: cfg.keep ⟨pkt.time + pkt.processing, e.interval.second⟩ := by
    rw [QueueConfig.pieces, if_pos (by omega), hmax, keep_mk (by omega) (by omega), long, if_pos hlong,
      singleton_append]
  have hnext : add64 pkt.time pkt.processing = pkt.time + pkt.processing := add64_eq (by omega)
  rw [hpieces] at hchain ⊢
  rw [HistoryTree.splitNode, (hq.interval_eq he).1, hnext]
  rw [QueueConfig.keep, append_assoc, cons_append] at hchain ⊢
  by_cases hrest : sub64 e.interval.second (pkt.time + pkt.processing) ≥ cfg.minProcessingTime
  · rw [if_pos hrest] at hchain ⊢
    rw [if_pos (by exact hrest)]
    rw [sub64_eq hle hsecond] at hrest
    -- the new node comes right after that of the packet
    have hgt : ∀ a ∈ after, pkt.time + pkt.processing < a.key := by
      intro a ha
      have hgap := (hl' ▸ hl.chain).middle.2 a.interval (mem_map_of_mem ha)
      rw [hq.keys a (by rw [hT]; simp [ha])]
      omega
    have hlt : e.key < pkt.time + pkt.processing := by
      rw [hq.keys e he]
      omega
    obtain ⟨q₁, T₁, n, hrun, hT₁, hn, hq₁⟩ := hq.insertNode
      (i := ⟨pkt.time + pkt.processing, e.interval.second⟩) hT hlength hlt hgt
    have he₁ : e ∈ T₁.inorder := by
      rw [hT₁]
      simp
    rw [hrun, ok_bind, hq₁.setSecond_eq he₁]
    rw [singleton_append, ← hn, ← map_cons] at hchain ⊢
    obtain ⟨T', hq'⟩ := hq₁.setInterval hT₁ hchain
    exact ⟨_, T', rfl, hq'⟩
  · rw [if_neg hrest] at hchain ⊢
    rw [if_neg (by exact hrest), hq.setSecond_eq he]
    obtain ⟨T', hq'⟩ := hq.setInterval hT hchain
    exact ⟨_, T', rfl, hq'⟩

end

variable {pkt : Packet} {b a : List Interval} {t n : ℕ}

theorem split (hq : Represents cfg q T l) (hl : l = b ++ i :: a) : ∃ before e after,
    T.inorder = before ++ e :: after ∧ before.map Entry.interval = b ∧ e.interval = i ∧ after.map Entry.interval = a := by
  obtain ⟨before, rest, hT, hb, hrest⟩ := map_eq_append_iff.mp (hq.intervals.trans hl)
  obtain ⟨e, after, rfl, he, ha⟩ := map_eq_cons_iff.mp hrest
  exact ⟨before, e, after, hT, hb, he, ha⟩

section

variable (hq : Represents cfg q T l) (hl : Free 1 1 l)
include hq hl

theorem search (h : FirstFit t n l b i a) (htn : t + n < 2 ^ 64) :
    ∃ before e after, T.inorder = before ++ e :: after ∧ before.map Entry.interval = b ∧ e.interval = i ∧
      after.map Entry.interval = a ∧ q.tree.search ⟨t, t + n⟩ = .ok (some e.ptr) := by
  obtain ⟨before, e, after, hT, rfl, rfl, rfl⟩ := hq.split h.eq
  refine ⟨before, e, after, hT, rfl, rfl, rfl, ?_⟩
  have hfind : T.inorder.find? (fun e => decide (e.interval.Fits t n)) = some e := by
    refine find?_eq_some_iff_append.mpr ⟨decide_eq_true h.fits, before, after, hT, fun x hx => ?_⟩
    rw [decide_eq_false (h.first x.interval (mem_map_of_mem hx))]
    rfl
  rw [hq.valid.search (hq.intervals ▸ hl) htn, hfind]
  rfl

theorem bookIn (hT : T.inorder = before ++ e :: after)
    (hmin : 1 ≤ cfg.minProcessingTime) (hn : 1 ≤ pkt.processing) (hlength : l.length < cfg.maxListSize)
    (hfits : e.interval.Fits pkt.time pkt.processing) :
    ∃ q' T', q.bookIn cfg e.ptr pkt = .ok (q', max pkt.time e.interval.first - pkt.time) ∧
      Represents cfg q' T' (before.map Entry.interval ++ cfg.pieces pkt.time pkt.processing e.interval ++
        after.map Entry.interval) := by
  have he : e ∈ T.inorder := by
    rw [hT]
    simp
  have hsecond := hl.second_lt (i := e.interval) (by rw [hq.intervals_eq hT]; simp)
  have hle := hfits
  unfold Span.Fits at hle
  rw [HistoryTree.bookIn, (hq.interval_eq he).1, add64_eq (by omega), add64_eq (by omega), check_pos (by omega), ok_bind]
  by_cases ht : pkt.time ≥ e.interval.first
  · have hmax : max pkt.time e.interval.first = pkt.time := Nat.max_eq_left ht
    rw [hmax] at hle ⊢
    rw [if_pos ht, Nat.sub_self]
    by_cases hlong : sub64 pkt.time e.interval.first ≥ cfg.minProcessingTime
    · rw [if_pos hlong]
      rw [sub64_eq ht (by omega)] at hlong
      obtain ⟨q', T', hrun, hq'⟩ := hq.splitNode hl hT hmin hn hlength (by omega) hle
      exact ⟨q', T', by rw [hrun]; rfl, hq'⟩
    · rw [if_neg hlong]
      obtain ⟨q', T', hrun, hq'⟩ := hq.keepRest hl hT hmin (s := pkt.time + pkt.processing) (by omega) hle
      have hpieces : cfg.pieces pkt.time pkt.processing e.interval =
          cfg.keep ⟨pkt.time + pkt.processing, e.interval.second⟩ := by
        rw [QueueConfig.pieces, if_pos ht, hmax, QueueConfig.keep, if_neg hlong, nil_append]
      rw [hpieces]
      exact ⟨q', T', by rw [hrun]; rfl, hq'⟩
  · have hmax : max pkt.time e.interval.first = e.interval.first := by omega
    rw [hmax] at hle ⊢
    rw [if_neg ht]
    obtain ⟨q', T', hrun, hq'⟩ :=
      hq.keepRest hl hT hmin (s := e.interval.first + pkt.processing) (Nat.le_add_right ..) hle
    have hpieces : cfg.pieces pkt.time pkt.processing e.interval =
        cfg.keep ⟨e.interval.first + pkt.processing, e.interval.second⟩ := by
      rw [QueueConfig.pieces, if_neg ht, hmax, nil_append]
    rw [hpieces]
    exact ⟨q', T', by rw [hrun]; rfl, hq'⟩

theorem book (hmin : 1 ≤ cfg.minProcessingTime)
    (hn : 1 ≤ pkt.processing) (hlength : l.length < cfg.maxListSize)
    (h : FirstFit pkt.time pkt.processing l b i a) (htime : max pkt.time i.first + pkt.processing < 2 ^ 64) :
    ∃ q' T', q.book cfg pkt = .ok (q', max pkt.time i.first - pkt.time) ∧
      Represents cfg q' T' (b ++ cfg.pieces pkt.time pkt.processing i ++ a) := by
  obtain ⟨before, e, after, hT, rfl, rfl, rfl, hsearch⟩ := hq.search hl h (by omega)
  rw [book, add64_eq (by omega), hsearch, ok_bind]
  exact hq.bookIn hl hT hmin hn hlength h.fits

end

end Represents

end Operations

/-! ## Whole packets -/

/-- What is left of the intervals when the packet is served: the tree is pruned before. -/
def QueueConfig.kept (cfg : QueueConfig) (l : List Interval) : List Interval :=
  if l.length ≥ cfg.maxListSize then l.tail else l

/-- What comes after the search for the oldest interval. -/
def HistoryTree.finish (cfg : QueueConfig) (q : HistoryTree) (pkt : Packet) (old : Bool) :
    Except Fault (HistoryTree × ℕ) := do
  let (q, delay) ← q.bookOrEstimate cfg pkt old
  check (delay ≠ uint64Max) .noDelay
  pure ({ q with arrivals := q.arrivals ++ [⟨pkt.time, pkt.processing, delay⟩] }, delay)

section Packets

variable {cfg : QueueConfig} {q : HistoryTree} {T : HTree Entry} {l : List Interval} {pkt : Packet}

namespace Represents

theorem search_oldest (hq : Represents cfg q T l) (hl : Free 1 1 l) :
    ∃ e after, T.inorder = e :: after ∧ q.tree.search ⟨0, 1⟩ = .ok (some e.ptr) := by
  have hfirst : ∃ i rest, l = i :: rest := by
    obtain ⟨l', x, rfl⟩ := hl.last
    cases l' with
    | nil => exact ⟨_, [], rfl⟩
    | cons i l' => exact ⟨i, _, rfl⟩
  obtain ⟨i, rest, rfl⟩ := hfirst
  have hfit : FirstFit 0 1 (i :: rest) [] i rest := by
    refine ⟨rfl, ?_, fun j hj => absurd hj not_mem_nil⟩
    have := hl.chain.sizes i mem_cons_self
    unfold Span.Fits
    omega
  obtain ⟨before, e, after, hT, hbefore, -, -, hsearch⟩ := hq.search hl hfit (by decide)
  rw [map_eq_nil_iff.mp hbefore, nil_append] at hT
  exact ⟨e, after, hT, hsearch⟩

theorem free_kept (hl : Free 1 1 l) (hmax : 2 ≤ cfg.maxListSize ∨ l.length < cfg.maxListSize) :
    Free 1 1 (cfg.kept l) := by
  unfold QueueConfig.kept
  split
  · next hfull =>
    obtain ⟨hchain, l', x, rfl⟩ := hl
    rw [length_append, length_singleton] at hfull hmax
    cases l' with
    | nil =>
      rw [length_nil] at hfull hmax
      omega
    | cons i l' => exact ⟨hchain.tail, l', x, rfl⟩
  · exact hl

theorem prune {e : Entry} {after : List Entry} (hq : Represents cfg q T l) (hmax : 1 ≤ cfg.maxListSize)
    (hT : T.inorder = e :: after) : ∃ q' T', q.prune cfg (some e.ptr) = .ok q' ∧
      Represents cfg q' T' (cfg.kept l) ∧ (cfg.kept l).length < cfg.maxListSize := by
  have hlength := hq.length_add
  rw [HistoryTree.prune, hq.size_eq, QueueConfig.kept]
  by_cases hfull : l.length ≥ cfg.maxListSize
  · rw [if_pos hfull, if_pos hfull]
    have hT' : T.inorder = [] ++ e :: after := hT
    obtain ⟨q', T', hrun, hq'⟩ := hq.removeNode hT'
    have hl : l.tail = after.map Entry.interval := by
      rw [← hq.intervals, hT]
      rfl
    refine ⟨q', T', hrun, hl ▸ hq', ?_⟩
    rw [length_tail]
    omega
  · rw [if_neg hfull, if_neg hfull]
    exact ⟨q, T, rfl, hq, by omega⟩

theorem computeQueueDelay_eq (hq : Represents cfg q T l) (hl : Free 1 1 l) (pkt : Packet)
    (hmax : 2 ≤ cfg.maxListSize ∨ l.length < cfg.maxListSize) :
    ∃ q₁ T₁ old, q.computeQueueDelay cfg pkt = q₁.finish cfg pkt old ∧
      Represents cfg q₁ T₁ (cfg.kept l) ∧ (cfg.kept l).length < cfg.maxListSize ∧
      (cfg.analyticalModelEnabled = false → old = false) := by
  obtain ⟨e, after, hT, hsearch⟩ := hq.search_oldest hl
  obtain ⟨q₁, T₁, hprune, hq₁, hlength⟩ := hq.prune (by omega) hT
  obtain ⟨e₁, after₁, hT₁, hsearch₁⟩ := hq₁.search_oldest (free_kept hl hmax)
  refine ⟨q₁, T₁, cfg.analyticalModelEnabled &&
    decide ((q₁.tree.nodes e₁.ptr).interval.first > add64 pkt.time pkt.processing), ?_, hq₁, hlength, ?_⟩
  · rw [computeQueueDelay, hsearch, ok_bind, hprune, ok_bind, hsearch₁, ok_bind, isOld]
    cases cfg.analyticalModelEnabled <;> rfl
  · intro hana
    rw [hana, Bool.false_and]

theorem finish_book (hq : Represents cfg q T l) (hl : Free 1 1 l) (hmin : 1 ≤ cfg.minProcessingTime)
    (hn : 1 ≤ pkt.processing) (hlength : l.length < cfg.maxListSize) (hon : cfg.OnTime l pkt) :
    ∃ b i a q' T', FirstFit pkt.time pkt.processing l b i a ∧
      max pkt.time i.first + pkt.processing + cfg.minProcessingTime < 2 ^ 64 ∧
      q.finish cfg pkt false = .ok (q', max pkt.time i.first - pkt.time) ∧
      Represents cfg q' T' (b ++ cfg.pieces pkt.time pkt.processing i ++ a) := by
  obtain ⟨b, i, a, hfit, htime⟩ := hon.firstFit hl.chain
  obtain ⟨q', T', hbook, hq'⟩ := hq.book hl hmin hn hlength hfit (by omega)
  refine ⟨b, i, a, { q' with arrivals := q'.arrivals ++ [⟨pkt.time, pkt.processing, max pkt.time i.first - pkt.time⟩] }, T', hfit, htime, ?_, ?_⟩
  · rw [finish, bookOrEstimate, if_neg Bool.false_ne_true, hbook, ok_bind]
    dsimp only
    rw [check_pos (by unfold uint64Max; omega)]
    rfl
  · exact ⟨hq'.valid, hq'.keys, hq'.intervals, hq'.pool⟩

end Represents

end Packets

end Graphite.Contention
