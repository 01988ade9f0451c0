import Graphite.Contention.IntervalTree

/-! # The history list

The free intervals of a queue in the order of time. A packet is served in the first interval with
room for it; with interleaving it takes the intervals before that one too, as far as it has arrived.
Packets older than the list go to the analytical model, whose floating-point formula is a parameter.
-/

namespace Graphite.Contention

open Outcome Spans
open List hiding Chain

def uint64Max : ℕ := 2 ^ 64 - 1

structure Packet where
  time : ℕ
  processing : ℕ
  deriving DecidableEq, Repr

/-- What the analytical model learns about a packet. -/
structure Arrival where
  pktTime : ℕ
  serviceTime : ℕ
  waitingTime : ℕ
  deriving DecidableEq, Repr

structure QueueConfig where
  minProcessingTime : ℕ
  maxListSize : ℕ
  analyticalModelEnabled : Bool
  interleavingEnabled : Bool
  /-- The waiting time of the M/G/1 model after some arrivals. -/
  waitingTime : List Arrival → ℕ

/-- What a packet gets: the delay, the free intervals that are left, and the times that it takes. -/
structure Booking where
  delay : ℕ
  intervals : List Interval
  slots : List Interval
  deriving DecidableEq, Repr

namespace QueueConfig

variable (cfg : QueueConfig)

/-- `QueueModelMG1::computeQueueDelay`. -/
def analyticalDelay (arrivals : List Arrival) (serviceTime : ℕ) : Except Fault ℕ := do
  check (0 < serviceTime) .noServiceTime
  pure (if arrivals.isEmpty then 0 else cfg.waitingTime arrivals)

def keep (i : Interval) : List Interval :=
  if sub64 i.second i.first ≥ cfg.minProcessingTime then [i] else []

/-- The loop of `computeUsingHistoryList`. -/
def serve : ℕ → ℕ → ℕ → List Interval → Booking
  | _, _, queueDelay, [] => ⟨queueDelay, [], []⟩
  | pktTime, processingTime, queueDelay, i :: rest =>
    if pktTime ≥ i.first ∧ add64 pktTime processingTime ≤ i.second then
      ⟨queueDelay, cfg.keep ⟨i.first, pktTime⟩ ++ cfg.keep ⟨add64 pktTime processingTime, i.second⟩ ++ rest,
        [⟨pktTime, add64 pktTime processingTime⟩]⟩
    else if pktTime < i.first ∧ add64 i.first processingTime ≤ i.second then
      ⟨add64 queueDelay (i.first - pktTime), cfg.keep ⟨add64 i.first processingTime, i.second⟩ ++ rest,
        [⟨i.first, add64 i.first processingTime⟩]⟩
    else if cfg.interleavingEnabled ∧ pktTime ≥ i.first ∧ pktTime < i.second then
      -- the new `pkt_time` is already there when the time served is subtracted
      let b := serve i.second (sub64 processingTime (sub64 i.second i.second)) queueDelay rest
      ⟨b.delay, cfg.keep ⟨i.first, pktTime⟩ ++ b.intervals, ⟨pktTime, i.second⟩ :: b.slots⟩
    else if cfg.interleavingEnabled ∧ pktTime < i.first then
      let b := serve i.second (sub64 processingTime (sub64 i.second i.first))
        (add64 queueDelay (i.first - pktTime)) rest
      ⟨b.delay, b.intervals, i :: b.slots⟩
    else
      let b := serve pktTime processingTime queueDelay rest
      ⟨b.delay, i :: b.intervals, b.slots⟩

def prune (l : List Interval) : List Interval := if l.length > cfg.maxListSize then l.tail else l

def computeUsingHistoryList (l : List Interval) (pkt : Packet) : Except Fault Booking := do
  check (l.length ≤ cfg.maxListSize) .listTooLong
  let b := cfg.serve pkt.time pkt.processing 0 l
  pure { b with intervals := cfg.prune b.intervals }

end QueueConfig

structure HistoryList where
  freeIntervalList : List Interval
  arrivals : List Arrival

namespace HistoryList

def start : HistoryList := ⟨[⟨0, uint64Max⟩], []⟩

variable (cfg : QueueConfig) (q : HistoryList)

/-- The analytical model serves packets that are older than the list. -/
def book (pkt : Packet) (oldest : Interval) : Except Fault Booking :=
  if cfg.analyticalModelEnabled ∧ add64 pkt.time pkt.processing < oldest.first then do
    let delay ← cfg.analyticalDelay q.arrivals pkt.processing
    pure ⟨delay, q.freeIntervalList, []⟩
  else cfg.computeUsingHistoryList q.freeIntervalList pkt

def computeQueueDelay (pkt : Packet) : Except Fault (HistoryList × Booking) :=
  match q.freeIntervalList with
  | [] => throw .emptyList
  | oldest :: _ => do
    let b ← q.book cfg pkt oldest
    pure (⟨b.intervals, q.arrivals ++ [⟨pkt.time, pkt.processing, b.delay⟩]⟩, b)

end HistoryList

/-- A packet that was served, and its delay. -/
structure Service where
  pkt : Packet
  delay : ℕ
  deriving DecidableEq, Repr

def Service.slot (e : Service) : Interval :=
  ⟨e.pkt.time + e.delay, e.pkt.time + e.delay + e.pkt.processing⟩

def listQueue (cfg : QueueConfig) : System HistoryList Packet Fault Service where
  init q := q = HistoryList.start
  enabled _ pkt := pkt.time < 2 ^ 64 ∧ pkt.processing < 2 ^ 64
  step q pkt := do
    let (q, b) ← q.computeQueueDelay cfg pkt
    pure (q, [⟨pkt, b.delay⟩])

instance (cfg : QueueConfig) (q : HistoryList) : DecidablePred ((listQueue cfg).enabled q) := fun _ =>
  inferInstanceAs (Decidable (_ ∧ _))

/-! ## Packets that are served in one interval -/

/-- Free intervals as they are left by packets: the last one never ends. -/
structure Free (g m : ℕ) (l : List Interval) : Prop where
  chain : Chain g m l
  last : ∃ l' x, l = l' ++ [⟨x, uint64Max⟩]

/-- Some interval has room for the packet, and it is left long enough before the end of time. -/
def QueueConfig.OnTime (cfg : QueueConfig) (l : List Interval) (pkt : Packet) : Prop :=
  ∃ i ∈ l, i.Fits pkt.time pkt.processing ∧
    max pkt.time i.first + pkt.processing + cfg.minProcessingTime < 2 ^ 64
deriving Decidable

section FirstFit

variable {cfg : QueueConfig} {g m t n d : ℕ} {i : Interval} {l before after : List Interval} {pkt : Packet}
  {a b : ℕ}

theorem add64_eq (h : a + b < 2 ^ 64) : add64 a b = a + b := Nat.mod_eq_of_lt h

theorem sub64_eq (h : b ≤ a) (ha : a < 2 ^ 64) : sub64 a b = a - b := by
  unfold sub64
  omega

theorem keep_eq (h : i.first ≤ i.second) (hi : i.second < 2 ^ 64) :
    cfg.keep i = long cfg.minProcessingTime i := by
  rw [QueueConfig.keep, sub64_eq h hi, long]
  congr 1
  exact propext (by omega)

theorem keep_mk (h : a ≤ b) (hb : b < 2 ^ 64) : cfg.keep ⟨a, b⟩ = long cfg.minProcessingTime ⟨a, b⟩ :=
  keep_eq h hb

/-- What is left of the interval in which a packet is served. -/
def QueueConfig.pieces (cfg : QueueConfig) (t n : ℕ) (i : Interval) : List Interval :=
  (if i.first ≤ t then cfg.keep ⟨i.first, t⟩ else []) ++ cfg.keep ⟨max t i.first + n, i.second⟩

theorem length_keep : (cfg.keep i).length ≤ 1 := by
  unfold QueueConfig.keep
  split <;> simp

theorem length_pieces (cfg : QueueConfig) (t n : ℕ) (i : Interval) : (cfg.pieces t n i).length ≤ 2 := by
  have hleft : (cfg.keep ⟨i.first, t⟩).length ≤ 1 := length_keep
  have hright : (cfg.keep ⟨max t i.first + n, i.second⟩).length ≤ 1 := length_keep
  unfold QueueConfig.pieces
  rw [length_append]
  split
  · omega
  · rw [length_nil]
    omega

theorem mem_keep {a : Interval} (ha : a ∈ cfg.keep i) (h : i.first ≤ i.second) (hi : i.second < 2 ^ 64) :
    a = i ∧ i.first + cfg.minProcessingTime ≤ i.second := by
  rw [keep_eq h hi, long] at ha
  split at ha
  · next hmin => exact ⟨mem_singleton.mp ha, hmin⟩
  · exact absurd ha not_mem_nil

theorem mem_pieces {a : Interval} (hfits : i.Fits t n) (hi : i.second < 2 ^ 64) (ha : a ∈ cfg.pieces t n i) :
    a.first + cfg.minProcessingTime ≤ a.second ∧ a.Inside i ∧
      (a.second ≤ max t i.first ∨ max t i.first + n ≤ a.first) := by
  unfold Span.Fits at hfits
  unfold Span.Inside
  obtain ha | ha := mem_append.mp ha
  · split at ha
    · next ht =>
      obtain ⟨rfl, hmin⟩ := mem_keep ha ht (by dsimp only; omega)
      dsimp only at hmin ⊢
      omega
    · exact absurd ha not_mem_nil
  · obtain ⟨rfl, hmin⟩ := mem_keep ha hfits hi
    dsimp only at hmin ⊢
    omega

theorem chain_keep (h : i.first ≤ i.second) (hi : i.second < 2 ^ 64) (hm : m ≤ cfg.minProcessingTime) :
    Chain g m (cfg.keep i) := by
  rw [keep_eq h hi, long]
  split
  · next hmin => exact Chain.singleton (by omega)
  · exact Chain.nil

theorem chain_pieces (hfits : i.Fits t n) (hi : i.second < 2 ^ 64) (hg : g ≤ n) (hm : m ≤ cfg.minProcessingTime) :
    Chain g m (cfg.pieces t n i) := by
  refine ⟨?_, fun a ha => by have := (mem_pieces hfits hi ha).1; omega⟩
  unfold Span.Fits at hfits
  unfold QueueConfig.pieces
  rw [pairwise_append]
  have hright : Chain g m (cfg.keep ⟨max t i.first + n, i.second⟩) := chain_keep hfits hi hm
  split
  · next ht =>
    have hleft : Chain g m (cfg.keep ⟨i.first, t⟩) := chain_keep ht (by dsimp only; omega) hm
    refine ⟨hleft.gaps, hright.gaps, fun a ha b hb => ?_⟩
    obtain ⟨rfl, -⟩ := mem_keep ha ht (by dsimp only; omega)
    obtain ⟨rfl, -⟩ := mem_keep hb hfits hi
    dsimp only
    omega
  · exact ⟨List.Pairwise.nil, hright.gaps, fun a ha => absurd ha not_mem_nil⟩

theorem Free.second_lt (h : Free g m l) (hi : i ∈ l) : i.second < 2 ^ 64 := by
  obtain ⟨l', x, rfl⟩ := h.last
  obtain hi | hi := mem_append.mp hi
  · have hgap := h.chain.middle.1 i hi
    have hsize := h.chain.sizes ⟨x, uint64Max⟩ (by simp)
    dsimp only [uint64Max] at hgap hsize
    omega
  · rw [mem_singleton.mp hi]
    exact (by decide : uint64Max < 2 ^ 64)

theorem QueueConfig.OnTime.firstFit (h : cfg.OnTime l pkt) (hl : Chain g m l) :
    ∃ before i after, FirstFit pkt.time pkt.processing l before i after ∧
      max pkt.time i.first + pkt.processing + cfg.minProcessingTime < 2 ^ 64 := by
  obtain ⟨j, hj, hfits, htime⟩ := h
  obtain ⟨before, i, after, hi⟩ := exists_firstFit hj hfits
  have := hi.first_le hl hj hfits
  exact ⟨before, i, after, hi, by omega⟩

theorem serve_firstFit (hint : cfg.interleavingEnabled = false) (hl : Chain g m l)
    (h : FirstFit t n l before i after) (htime : max t i.first + n < 2 ^ 64) :
    cfg.serve t n 0 l = ⟨max t i.first - t, before ++ cfg.pieces t n i ++ after,
      [⟨max t i.first, max t i.first + n⟩]⟩ := by
  obtain ⟨rfl, hfits, hfirst⟩ := h
  induction before with
  | nil =>
    unfold Span.Fits at hfits
    rw [nil_append, QueueConfig.serve, QueueConfig.pieces]
    by_cases ht : i.first ≤ t
    · rw [Nat.max_eq_left ht] at htime hfits ⊢
      rw [add64_eq htime, if_pos ⟨ht, hfits⟩, if_pos ht]
      simp
    · have hmax : max t i.first = i.first := by omega
      rw [hmax] at htime hfits ⊢
      rw [if_neg (by omega), add64_eq htime, if_pos ⟨by omega, hfits⟩, if_neg ht, add64_eq (by omega)]
      simp
  | cons j before ih =>
    have hj := hfirst j mem_cons_self
    unfold Span.Fits at hj
    have hle := hl.first_le (j := i) (by simp)
    have hserve := ih (fun k hk => hfirst k (mem_cons_of_mem _ hk)) hl.tail
    rw [cons_append, QueueConfig.serve, add64_eq (by omega), if_neg (by omega), add64_eq (by omega),
      if_neg (by omega), if_neg (by simp [hint]), if_neg (by simp [hint]), hserve]
    rfl

end FirstFit

/-! ## No double booking -/

section Bookings

variable {cfg : QueueConfig} {g m : ℕ} {q : HistoryList} {l : List Interval} {pkt : Packet} {tr : List Service}
  {before after : List Interval}

/-- The packet takes one slot, as early as possible, and the rest of the free time is left. -/
structure Books (g m : ℕ) (l : List Interval) (pkt : Packet) (b : Booking) : Prop where
  slots : b.slots = [Service.slot ⟨pkt, b.delay⟩]
  inside : ∃ i ∈ l, (Service.slot ⟨pkt, b.delay⟩).Inside i
  least : ∀ i ∈ l, ∀ start ≥ pkt.time, i.first ≤ start → start + pkt.processing ≤ i.second →
    pkt.time + b.delay ≤ start
  free : Free g m b.intervals
  length : b.intervals.length ≤ l.length + 1
  within : ∀ j ∈ b.intervals, ∃ i ∈ l, j.Inside i
  apart : ∀ j ∈ b.intervals, (Service.slot ⟨pkt, b.delay⟩).Apart j

theorem last_pieces {t n : ℕ} {i : Interval} (hl : Free g m (before ++ i :: after))
    (hfits : i.Fits t n) (htime : max t i.first + n + cfg.minProcessingTime < 2 ^ 64) :
    ∃ l' x, before ++ cfg.pieces t n i ++ after = l' ++ [⟨x, uint64Max⟩] := by
  obtain ⟨l', x, heq⟩ := hl.last
  obtain rfl | ⟨after, a, rfl⟩ := after.eq_nil_or_concat
  · obtain ⟨rfl, hi⟩ := append_inj' heq rfl
    obtain rfl := head_eq_of_cons_eq hi
    have hkeep : cfg.keep ⟨max t x + n, uint64Max⟩ = [⟨max t x + n, uint64Max⟩] := by
      have hle : max t x + n ≤ uint64Max := hfits
      rw [keep_mk hle (by decide), long, if_pos]
      dsimp only [uint64Max] at htime ⊢
      omega
    rw [QueueConfig.pieces]
    dsimp only
    rw [hkeep, append_nil, ← append_assoc]
    exact ⟨_, _, rfl⟩
  · rw [concat_eq_append, ← cons_append, ← append_assoc] at heq
    obtain ⟨-, ha⟩ := append_inj' heq rfl
    rw [concat_eq_append, ha, ← append_assoc]
    exact ⟨_, _, rfl⟩

theorem Free.serve {t n : ℕ} {i : Interval} (hl : Free g m l)
    (h : FirstFit t n l before i after) (htime : max t i.first + n + cfg.minProcessingTime < 2 ^ 64) (hg : g ≤ n)
    (hm : m ≤ cfg.minProcessingTime) : Free g m (before ++ cfg.pieces t n i ++ after) := by
  have hsecond := hl.second_lt h.mem
  obtain ⟨rfl, hfits, -⟩ := h
  exact ⟨hl.chain.replace (chain_pieces hfits hsecond hg hm) fun a ha => (mem_pieces hfits hsecond ha).2.1,
    last_pieces hl hfits htime⟩

theorem QueueConfig.OnTime.books (hon : cfg.OnTime l pkt) (hint : cfg.interleavingEnabled = false) (hl : Free g m l)
    (hg : g ≤ pkt.processing) (hm : m ≤ cfg.minProcessingTime) :
    Books g m l pkt (cfg.serve pkt.time pkt.processing 0 l) := by
  obtain ⟨before, i, after, hi, htime⟩ := hon.firstFit hl.chain
  rw [serve_firstFit hint hl.chain hi (by omega)]
  have hslot : Service.slot ⟨pkt, max pkt.time i.first - pkt.time⟩ =
      ⟨max pkt.time i.first, max pkt.time i.first + pkt.processing⟩ := by
    have hadd : pkt.time + (max pkt.time i.first - pkt.time) = max pkt.time i.first := by omega
    rw [Service.slot, hadd]
  have hsecond := hl.second_lt hi.mem
  have hfits := hi.fits
  have hpieces := fun a (ha : a ∈ cfg.pieces pkt.time pkt.processing i) => mem_pieces hfits hsecond ha
  unfold Span.Fits at hfits
  constructor
  case slots => rw [hslot]
  case inside => exact ⟨i, hi.mem, by rw [hslot]; exact ⟨Nat.le_max_right .., hfits⟩⟩
  case least =>
    intro j hj start ht hfirst hend
    have := hi.least hl.chain hj ht hfirst hend
    dsimp only
    omega
  case free => exact hl.serve hi htime hg hm
  case length =>
    have := length_pieces cfg pkt.time pkt.processing i
    rw [hi.eq]
    simp only [length_append, length_cons]
    omega
  case within =>
    intro j hj
    obtain ⟨rfl, -, -⟩ := hi
    simp only [mem_append] at hj
    obtain (hj | hj) | hj := hj
    · exact ⟨j, mem_append_left _ hj, Nat.le_refl _, Nat.le_refl _⟩
    · exact ⟨i, by simp, (hpieces j hj).2.1⟩
    · exact ⟨j, by simp [hj], Nat.le_refl _, Nat.le_refl _⟩
  case apart =>
    intro j hj
    obtain ⟨rfl, -, -⟩ := hi
    obtain ⟨hbefore, hafter⟩ := hl.chain.middle
    rw [hslot, Span.Apart]
    simp only [mem_append] at hj
    obtain (hj | hj) | hj := hj
    · have := hbefore j hj
      dsimp only
      omega
    · exact (hpieces j hj).2.2.symm
    · have := hafter j hj
      dsimp only
      omega

theorem Free.prune (hl : Free g m l) (hmax : 1 ≤ cfg.maxListSize) :
    Free g m (cfg.prune l) ∧ ∀ j ∈ cfg.prune l, j ∈ l := by
  unfold QueueConfig.prune
  split
  · next hlong =>
    obtain ⟨⟨hgaps, hsizes⟩, l', x, rfl⟩ := hl
    cases l' with
    | nil => exact absurd hlong (Nat.not_lt.mpr hmax)
    | cons i l' =>
      exact ⟨⟨Chain.tail ⟨hgaps, hsizes⟩, l', x, rfl⟩, fun j hj => mem_cons_of_mem _ hj⟩
  · exact ⟨hl, fun j hj => hj⟩

theorem length_prune (hl : l.length ≤ cfg.maxListSize + 1) : (cfg.prune l).length ≤ cfg.maxListSize := by
  unfold QueueConfig.prune
  split
  · rw [length_tail]
    omega
  · omega

/-- What a run keeps: all slots so far are apart from each other and from the free intervals. -/
structure Booked (cfg : QueueConfig) (tr : List Service) (q : HistoryList) : Prop where
  free : Free 0 0 q.freeIntervalList
  length : q.freeIntervalList.length ≤ cfg.maxListSize
  slots : tr.Pairwise fun a b => a.slot.Apart b.slot
  apart : ∀ a ∈ tr, ∀ i ∈ q.freeIntervalList, a.slot.Apart i

theorem computeQueueDelay_eq (hana : cfg.analyticalModelEnabled = false) (hq : q.freeIntervalList ≠ [])
    (hlength : q.freeIntervalList.length ≤ cfg.maxListSize) (pkt : Packet) : q.computeQueueDelay cfg pkt =
      let b := cfg.serve pkt.time pkt.processing 0 q.freeIntervalList
      .ok (⟨cfg.prune b.intervals, q.arrivals ++ [⟨pkt.time, pkt.processing, b.delay⟩]⟩,
        { b with intervals := cfg.prune b.intervals }) := by
  unfold HistoryList.computeQueueDelay
  cases hcases : q.freeIntervalList with
  | nil => exact absurd hcases hq
  | cons i l =>
    dsimp only
    rw [HistoryList.book, if_neg (by simp [hana]), QueueConfig.computeUsingHistoryList, check_pos hlength, hcases]
    rfl

theorem Free.ne_nil (hl : Free g m l) : l ≠ [] := by
  obtain ⟨l', x, rfl⟩ := hl.last
  simp

theorem Booked.step (hana : cfg.analyticalModelEnabled = false) (hint : cfg.interleavingEnabled = false)
    (hmax : 1 ≤ cfg.maxListSize) (hq : Booked cfg tr q) (hon : cfg.OnTime q.freeIntervalList pkt) :
    Returns ((listQueue cfg).step q pkt) fun r => Booked cfg (tr ++ r.2) r.1 := by
  have hb := hon.books hint hq.free (Nat.zero_le _) (Nat.zero_le _)
  have heq := computeQueueDelay_eq hana hq.free.ne_nil hq.length pkt
  generalize cfg.serve pkt.time pkt.processing 0 q.freeIntervalList = b at hb heq
  have hstep : (listQueue cfg).step q pkt =
      .ok (⟨cfg.prune b.intervals, q.arrivals ++ [⟨pkt.time, pkt.processing, b.delay⟩]⟩, [⟨pkt, b.delay⟩]) := by
    simp only [listQueue, heq]
    rfl
  have hlength := hq.length
  have hlength' := hb.length
  rw [hstep]
  obtain ⟨hfree, hmem⟩ := hb.free.prune hmax
  constructor
  case free => exact hfree
  case length => exact length_prune (by omega)
  case slots =>
    refine pairwise_append.mpr ⟨hq.slots, pairwise_singleton .., fun a ha c hc => ?_⟩
    obtain ⟨i, hi, hin⟩ := hb.inside
    rw [mem_singleton.mp hc]
    exact hin.apart (hq.apart a ha i hi)
  case apart =>
    intro a ha j hj
    obtain ha | ha := mem_append.mp ha
    · obtain ⟨i, hi, hin⟩ := hb.within j (hmem j hj)
      exact hin.apart (hq.apart a ha i hi)
    · rw [mem_singleton.mp ha]
      exact hb.apart j (hmem j hj)

def punctualQueue (cfg : QueueConfig) : System HistoryList Packet Fault Service :=
  (listQueue cfg).restrict fun q pkt => cfg.OnTime q.freeIntervalList pkt

instance (cfg : QueueConfig) (q : HistoryList) : DecidablePred ((punctualQueue cfg).enabled q) := fun pkt =>
  inferInstanceAs (Decidable ((_ ∧ _) ∧ cfg.OnTime q.freeIntervalList pkt))

theorem booked_run (hana : cfg.analyticalModelEnabled = false) (hint : cfg.interleavingEnabled = false)
    (hmax : 1 ≤ cfg.maxListSize) (hr : (punctualQueue cfg).Run (fun _ => True) tr q) : Booked cfg tr q := by
  have hstep : ∀ tr q pkt, Booked cfg tr q → True → (punctualQueue cfg).enabled q pkt →
      Returns ((punctualQueue cfg).step q pkt) fun r => Booked cfg (tr ++ r.2) r.1 :=
    fun _ _ _ hq _ hen => hq.step hana hint hmax hen.2
  refine hr.invariant ?_ hstep
  rintro q rfl
  refine ⟨⟨Chain.singleton (Nat.zero_le _), [], 0, rfl⟩, hmax, List.Pairwise.nil, ?_⟩
  exact fun a ha => absurd ha not_mem_nil

/-- In every run of packets that are on time the slots are disjoint, the free intervals are sorted,
disjoint, never none and never too many, and the next packet starts as early as they allow. -/
theorem no_double_booking (cfg : QueueConfig) (hmax : 1 ≤ cfg.maxListSize)
    (hana : cfg.analyticalModelEnabled = false) (hint : cfg.interleavingEnabled = false) (tr : List Service)
    (q : HistoryList) (hr : (punctualQueue cfg).Run (fun _ => True) tr q) :
    (tr.Pairwise fun a b => a.slot.Apart b.slot) ∧ Chain 0 0 q.freeIntervalList ∧
    q.freeIntervalList ≠ [] ∧ q.freeIntervalList.length ≤ cfg.maxListSize ∧
    ∀ pkt, cfg.OnTime q.freeIntervalList pkt → ∃ q' b, q.computeQueueDelay cfg pkt = .ok (q', b) ∧
      (∃ i ∈ q.freeIntervalList, (Service.slot ⟨pkt, b.delay⟩).Inside i) ∧
      ∀ i ∈ q.freeIntervalList, ∀ start ≥ pkt.time, i.first ≤ start → start + pkt.processing ≤ i.second →
        pkt.time + b.delay ≤ start := by
  have hq := booked_run hana hint hmax hr
  refine ⟨hq.slots, hq.free.chain, hq.free.ne_nil, hq.length, fun pkt hon => ?_⟩
  have hb := hon.books hint hq.free (Nat.zero_le _) (Nat.zero_le _)
  exact ⟨_, _, computeQueueDelay_eq hana hq.free.ne_nil hq.length pkt, hb.inside, hb.least⟩

end Bookings

/-- Without interleaving and without the analytical model. -/
def plainConfig (maxListSize : ℕ) : QueueConfig := ⟨1, maxListSize, false, false, fun _ => 0⟩

/-- The last of three packets finds the oldest interval pruned. -/
theorem no_double_booking_three : ∃ tr q, (punctualQueue (plainConfig 2)).Run (fun _ => True) tr q ∧
    tr = [⟨⟨10, 10⟩, 0⟩, ⟨⟨40, 5⟩, 0⟩, ⟨⟨0, 5⟩, 20⟩] ∧ tr.Pairwise fun a b => a.slot.Apart b.slot :=
  System.Run.of_reaches_imp (Q := fun tr _ => tr = [⟨⟨10, 10⟩, 0⟩, ⟨⟨40, 5⟩, 0⟩, ⟨⟨0, 5⟩, 20⟩]) (.start rfl)
    [⟨10, 10⟩, ⟨40, 5⟩, ⟨0, 5⟩]
    fun tr q hr htr => ⟨htr, (no_double_booking (plainConfig 2) (by decide) rfl rfl tr q hr).1⟩

/-- Two packets at the end of time get the same slot. -/
theorem booked_twice : ∃ tr q, (listQueue (plainConfig 100)).Run (fun _ => True) tr q ∧
    ¬ tr.Pairwise fun a b => a.slot.Apart b.slot :=
  System.Run.of_reaches (.start rfl) [⟨2 ^ 64 - 2, 1⟩, ⟨2 ^ 64 - 2, 1⟩]

end Graphite.Contention
