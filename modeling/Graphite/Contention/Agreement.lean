import Graphite.Contention.TreeService

/-! # Runs of the history tree

As long as packets are on time the blocks of the tree and the free blocks are the whole pool, and the
tree is not empty. Beside a list that is never full, the tree gives every packet the same delay and
holds the same intervals.
-/

namespace Graphite.Contention

open Outcome Spans AvlTree IntervalTree HistoryTree
open List hiding Chain

namespace HistoryTree

variable (q : HistoryTree)

def nodes : List ℕ :=
  match q.tree.inOrderTraversal with
  | .ok l => l
  | .error _ => []

def intervals : List Interval := q.nodes.map fun p => (q.tree.nodes p).interval

end HistoryTree

def treeQueue (cfg : QueueConfig) : System HistoryTree Packet Fault Service where
  init q := HistoryTree.start cfg = .ok q
  enabled _ pkt := pkt.time < 2 ^ 64 ∧ pkt.processing < 2 ^ 64
  step q pkt := do
    let (q, delay) ← q.computeQueueDelay cfg pkt
    pure (q, [⟨pkt, delay⟩])

/-- The packet takes some time, and it is on time for the intervals that pruning leaves. -/
def QueueConfig.Steady (cfg : QueueConfig) (q : HistoryTree) (pkt : Packet) : Prop :=
  1 ≤ pkt.processing ∧ cfg.OnTime (cfg.kept q.intervals) pkt
deriving Decidable

def steadyTree (cfg : QueueConfig) : System HistoryTree Packet Fault Service := (treeQueue cfg).restrict cfg.Steady

instance (cfg : QueueConfig) (q : HistoryTree) : DecidablePred ((treeQueue cfg).enabled q) := fun _ =>
  inferInstanceAs (Decidable (_ ∧ _))

instance (cfg : QueueConfig) (q : HistoryTree) : DecidablePred ((steadyTree cfg).enabled q) := fun pkt =>
  inferInstanceAs (Decidable ((_ ∧ _) ∧ cfg.Steady q pkt))

section Pool

variable {cfg : QueueConfig} {q : HistoryTree} {T : HTree Entry} {l : List Interval} {pkt : Packet} {tr : List Service}

theorem Represents.nodes_eq (hq : Represents cfg q T l) : q.nodes = T.inorder.map Entry.ptr := by
  rw [HistoryTree.nodes, hq.valid.inOrderTraversal]

theorem Represents.intervals_nodes (hq : Represents cfg q T l) : q.intervals = l := by
  rw [HistoryTree.intervals, hq.nodes_eq, map_map, ← hq.intervals]
  exact map_congr_left fun e he => (hq.interval_eq he).1

theorem represents_start (hstart : start cfg = .ok q) :
    ∃ T, Represents cfg q T [⟨0, uint64Max⟩] := by
  unfold start allocateNode at hstart
  cases hmax : cfg.maxListSize with
  | zero =>
    rw [hmax] at hstart
    cases hstart
  | succ k =>
    rw [hmax, range_succ, reverse_append] at hstart
    obtain rfl := (Except.ok.inj hstart).symm
    refine ⟨leaf ⟨k, 0, ⟨0, uint64Max⟩⟩, ⟨⟨⟨?_, trivial, trivial⟩, rfl, pairwise_singleton ..⟩,
      pairwise_singleton .., ⟨trivial, trivial, by decide, rfl⟩, rfl⟩, ?_, rfl, ?_⟩
    · exact Function.update_self ..
    · intro e he
      rw [mem_singleton.mp he]
    · rw [hmax, range_succ]
      exact (perm_append_comm.trans ((reverse_perm _).append_right [k]))

theorem free_start : Free 1 1 [⟨0, uint64Max⟩] := ⟨Chain.singleton (by decide), [], 0, rfl⟩

/-- One packet: at most the analytical model can fail, with a delay that is not one. -/
theorem Represents.step (hq : Represents cfg q T l) (hl : Free 1 1 l) (hmax : 2 ≤ cfg.maxListSize)
    (hmin : 1 ≤ cfg.minProcessingTime) (hn : 1 ≤ pkt.processing) (hon : cfg.OnTime (cfg.kept l) pkt) :
    Sat (q.computeQueueDelay cfg pkt) (· = .noDelay) fun r => ∃ T' l', Represents cfg r.1 T' l' ∧ Free 1 1 l' := by
  obtain ⟨q₁, T₁, old, heq, hq₁, hlength, -⟩ := hq.computeQueueDelay_eq hl pkt (.inl hmax)
  have hl₁ : Free 1 1 (cfg.kept l) := Represents.free_kept hl (.inl hmax)
  rw [heq]
  cases old with
  | false =>
    obtain ⟨b, i, a, q', T', hfit, htime, hfinish, hq'⟩ := hq₁.finish_book hl₁ hmin hn hlength hon
    rw [hfinish]
    exact ⟨T', _, hq', hl₁.serve hfit htime hn hmin⟩
  | true =>
    rw [finish, bookOrEstimate, if_pos rfl, QueueConfig.analyticalDelay,
      check_pos (Nat.lt_of_succ_le hn)]
    simp only [ok_bind, pure_eq_ok, sat_bind, sat_check, sat_ok, implies_true, and_true]
    exact fun _ => ⟨T₁, _, ⟨hq₁.valid, hq₁.keys, hq₁.intervals, hq₁.pool⟩, hl₁⟩

/-- The blocks in the tree and the free blocks. -/
structure Pooled (cfg : QueueConfig) (q : HistoryTree) : Prop where
  represents : ∃ T l, Represents cfg q T l ∧ Free 1 1 l

theorem Pooled.step (hq : Pooled cfg q) (hmax : 2 ≤ cfg.maxListSize) (hmin : 1 ≤ cfg.minProcessingTime)
    (hen : (steadyTree cfg).enabled q pkt) : Sat (q.computeQueueDelay cfg pkt) (· = .noDelay) fun r => Pooled cfg r.1 := by
  obtain ⟨T, l, hq, hl⟩ := hq.represents
  obtain ⟨-, hn, hon⟩ := hen
  rw [hq.intervals_nodes] at hon
  exact (hq.step hl hmax hmin hn hon).mono fun _ h => ⟨h⟩

theorem pooled_run (hmax : 2 ≤ cfg.maxListSize) (hmin : 1 ≤ cfg.minProcessingTime)
    (hr : (steadyTree cfg).Run (fun _ => True) tr q) : Pooled cfg q := by
  refine hr.invariant (E := (· = .noDelay)) (I := fun _ q => Pooled cfg q) ?_ ?_
  · intro q hstart
    obtain ⟨T, hq⟩ := represents_start hstart
    exact ⟨T, _, hq, free_start⟩
  · intro tr q pkt hq _ hen
    have hstep := hq.step hmax hmin hen
    change Sat (q.computeQueueDelay cfg pkt >>= fun r => pure (r.1, [(⟨pkt, r.2⟩ : Service)])) _ _
    exact sat_bind.mpr hstep

/-- As long as packets are on time, the nodes of the tree and the free blocks are the blocks of the pool, each
once, the tree is not empty, and the next packet does not fail but for an impossible estimate. -/
theorem node_pool (cfg : QueueConfig) (hmax : 2 ≤ cfg.maxListSize) (hmin : 1 ≤ cfg.minProcessingTime)
    (tr : List Service) (q : HistoryTree) (hr : (steadyTree cfg).Run (fun _ => True) tr q) :
    (∃ nodes, q.tree.inOrderTraversal = .ok nodes ∧ nodes ≠ [] ∧
      (nodes ++ q.freeBlocks).Perm (List.range cfg.maxListSize)) ∧
    ∀ pkt, (steadyTree cfg).enabled q pkt → Sat (q.computeQueueDelay cfg pkt) (· = .noDelay) fun _ => True := by
  have hq := pooled_run hmax hmin hr
  refine ⟨?_, fun pkt hen => (hq.step hmax hmin hen).mono fun _ _ => trivial⟩
  obtain ⟨T, l, hq, hl⟩ := hq.represents
  refine ⟨_, hq.valid.inOrderTraversal, ?_, hq.pool⟩
  have hne := hl.ne_nil
  rw [← hq.intervals] at hne
  exact fun h => hne (by rw [map_eq_nil_iff.mp h]; rfl)

end Pool

/-- A tree of two nodes at most. -/
theorem node_pool_three : ∃ tr q, (steadyTree (plainConfig 2)).Run (fun _ => True) tr q ∧
    tr = [⟨⟨10, 10⟩, 0⟩, ⟨⟨40, 5⟩, 0⟩, ⟨⟨0, 5⟩, 45⟩] ∧ ∃ nodes, q.tree.inOrderTraversal = .ok nodes ∧ nodes ≠ [] ∧
      (nodes ++ q.freeBlocks).Perm (List.range 2) :=
  System.Run.of_reaches_imp (Q := fun tr _ => tr = [⟨⟨10, 10⟩, 0⟩, ⟨⟨40, 5⟩, 0⟩, ⟨⟨0, 5⟩, 45⟩]) (.start rfl)
    [⟨10, 10⟩, ⟨40, 5⟩, ⟨0, 5⟩]
    fun tr q hr htr => ⟨htr, (node_pool (plainConfig 2) (by decide) (by decide) tr q hr).1⟩

/-- With room for one node only, the first packet prunes the only node and then looks at the oldest one. -/
theorem one_block_pruned : (treeQueue ⟨1, 1, true, false, fun _ => 0⟩).Fails (fun _ => True) .nullPointer :=
  .of_stops (.start rfl) [⟨0, 1⟩]

/-! ## The list and the tree -/

/-- The delays of a packet in the list and in the tree. -/
structure Delays where
  pkt : Packet
  inList : ℕ
  inTree : ℕ
  deriving DecidableEq, Repr

def bothQueues (cfg : QueueConfig) : System (HistoryList × HistoryTree) Packet Fault Delays where
  init s := s.1 = HistoryList.start ∧ HistoryTree.start cfg = .ok s.2
  enabled _ pkt := pkt.time < 2 ^ 64 ∧ pkt.processing < 2 ^ 64
  step s pkt := do
    let (l, b) ← s.1.computeQueueDelay cfg pkt
    let (t, delay) ← s.2.computeQueueDelay cfg pkt
    pure ((l, t), [⟨pkt, b.delay, delay⟩])

/-- The packet takes some time and is on time, and the list is not full. -/
def QueueConfig.NotFull (cfg : QueueConfig) (s : HistoryList × HistoryTree) (pkt : Packet) : Prop :=
  1 ≤ pkt.processing ∧ s.1.freeIntervalList.length < cfg.maxListSize ∧ cfg.OnTime s.1.freeIntervalList pkt

def bothNotFull (cfg : QueueConfig) : System (HistoryList × HistoryTree) Packet Fault Delays :=
  (bothQueues cfg).restrict cfg.NotFull

instance (cfg : QueueConfig) (s : HistoryList × HistoryTree) : DecidablePred ((bothNotFull cfg).enabled s) := fun _ =>
  inferInstanceAs (Decidable ((_ ∧ _) ∧ _ ∧ _ ∧ _))

section Agreement

variable {cfg : QueueConfig} {s : HistoryList × HistoryTree} {pkt : Packet} {tr : List Delays}

/-- The delays were the same, and the free intervals are. -/
structure Agree (cfg : QueueConfig) (tr : List Delays) (s : HistoryList × HistoryTree) : Prop where
  delays : ∀ e ∈ tr, e.inTree = e.inList
  represents : ∃ T, Represents cfg s.2 T s.1.freeIntervalList
  free : Free 1 1 s.1.freeIntervalList

theorem Agree.step (hana : cfg.analyticalModelEnabled = false) (hint : cfg.interleavingEnabled = false)
    (hmin : 1 ≤ cfg.minProcessingTime) (hs : Agree cfg tr s) (hen : cfg.NotFull s pkt) :
    Returns ((bothQueues cfg).step s pkt) fun r => Agree cfg (tr ++ r.2) r.1 := by
  obtain ⟨hn, hlength, hon⟩ := hen
  obtain ⟨T, hq⟩ := hs.represents
  have hl := hs.free
  have hkept : cfg.kept s.1.freeIntervalList = s.1.freeIntervalList := if_neg (Nat.not_le_of_lt hlength)
  obtain ⟨q₁, T₁, old, heq, hq₁, -, hold⟩ := hq.computeQueueDelay_eq hl pkt (.inr hlength)
  rw [hkept] at hq₁
  rw [hold hana] at heq
  obtain ⟨b, i, a, q', T', hfit, htime, hfinish, hq'⟩ := hq₁.finish_book hl hmin hn hlength hon
  have hserve := serve_firstFit hint hl.chain hfit (by omega)
  have hlist := computeQueueDelay_eq hana hl.ne_nil hlength.le pkt
  have hprune : cfg.prune (b ++ cfg.pieces pkt.time pkt.processing i ++ a) =
      b ++ cfg.pieces pkt.time pkt.processing i ++ a := by
    have hbooks := (hon.books hint hl hn hmin).length
    rw [hserve] at hbooks
    exact if_neg (by dsimp only at hbooks; omega)
  rw [hserve] at hlist
  dsimp only at hlist
  rw [hprune] at hlist
  simp only [bothQueues, hlist, heq, hfinish, ok_bind, pure_eq_ok, sat_ok]
  refine ⟨?_, ⟨T', hq'⟩, hl.serve hfit htime hn hmin⟩
  intro e he
  obtain he | he := mem_append.mp he
  · exact hs.delays e he
  · rw [mem_singleton.mp he]

/-- As long as packets are on time and the list is not full, the list and the tree give every packet the same
delay, hold the same free intervals in the same order, and do not fail. -/
theorem models_agree (cfg : QueueConfig) (hana : cfg.analyticalModelEnabled = false)
    (hint : cfg.interleavingEnabled = false) (hmin : 1 ≤ cfg.minProcessingTime) (tr : List Delays)
    (s : HistoryList × HistoryTree) (hr : (bothNotFull cfg).Run (fun _ => True) tr s) :
    (∀ e ∈ tr, e.inTree = e.inList) ∧ s.2.intervals = s.1.freeIntervalList ∧
    ∀ pkt, (bothNotFull cfg).enabled s pkt → ∃ r, (bothNotFull cfg).step s pkt = .ok r := by
  have hstep : ∀ tr s pkt, Agree cfg tr s → True → (bothNotFull cfg).enabled s pkt →
      Returns ((bothNotFull cfg).step s pkt) fun r => Agree cfg (tr ++ r.2) r.1 :=
    fun _ _ _ hs _ hen => hs.step hana hint hmin hen.2
  have hs : Agree cfg tr s := by
    refine hr.invariant ?_ hstep
    rintro ⟨l, t⟩ ⟨rfl, hstart⟩
    obtain ⟨T, hq⟩ := represents_start hstart
    exact ⟨fun e he => absurd he not_mem_nil, ⟨T, hq⟩, free_start⟩
  obtain ⟨T, hq⟩ := hs.represents
  refine ⟨hs.delays, hq.intervals_nodes, fun pkt hen => ?_⟩
  obtain ⟨r, hstep, -⟩ := (hstep tr s pkt hs trivial hen).exists_ok
  exact ⟨r, hstep⟩

end Agreement

/-- The packets of the unit test. -/
theorem models_agree_ten : ∃ tr s, (bothNotFull (plainConfig 100)).Run (fun _ => True) tr s ∧
    tr.map Delays.inList = [0, 0, 0, 0, 0, 53, 18, 13, 7, 10] ∧ (∀ e ∈ tr, e.inTree = e.inList) ∧
    s.2.intervals = s.1.freeIntervalList :=
  System.Run.of_reaches_imp (Q := fun tr _ => tr.map Delays.inList = [0, 0, 0, 0, 0, 53, 18, 13, 7, 10])
    (.start (s := (HistoryList.start, _)) ⟨rfl, rfl⟩)
    [⟨10, 10⟩, ⟨21, 10⟩, ⟨32, 10⟩, ⟨43, 10⟩, ⟨0, 1⟩, ⟨0, 10⟩, ⟨45, 10⟩, ⟨60, 4⟩, ⟨70, 8⟩, ⟨75, 10⟩]
    fun tr s hr htr => have hagree := models_agree (plainConfig 100) rfl rfl (by decide) tr s hr
      ⟨htr, hagree.1, hagree.2.1⟩

/-- Seventeen packets of `2 ^ 60 - 1` units that arrive at time 1: the last one ends after time `2 ^ 64`. The
list gives it a slot all the same, and the tree finds no interval. -/
theorem queues_disagree :
    (∃ tr q, (listQueue (plainConfig 100)).Run (· = ⟨1, 2 ^ 60 - 1⟩) tr q ∧ tr.length = 17) ∧
    (treeQueue (plainConfig 100)).Fails (· = ⟨1, 2 ^ 60 - 1⟩) .noInterval := by
  constructor
  · exact System.Run.of_reaches (.start rfl) (replicate 17 ⟨1, 2 ^ 60 - 1⟩) (by decide +kernel)
      fun _ => eq_of_mem_replicate
  · exact .of_stops (.start rfl) (replicate 17 ⟨1, 2 ^ 60 - 1⟩) (by decide +kernel)
      fun _ => eq_of_mem_replicate

end Graphite.Contention
