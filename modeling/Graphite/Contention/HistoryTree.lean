import Graphite.Contention.Client
import Graphite.Contention.HistoryList

/-! # The history tree

The free intervals of a queue in an interval tree. The nodes are blocks of a pool, the others are in
a list of free blocks. The tree is pruned before a packet is served, the list afterwards.
-/

namespace Graphite.Contention

open Outcome Spans AvlTree IntervalTree
open List hiding Chain

structure HistoryTree where
  tree : IntervalTree
  /-- The free blocks, the last one first. -/
  freeBlocks : List ℕ
  arrivals : List Arrival

namespace HistoryTree

variable (cfg : QueueConfig) (q : HistoryTree)

def allocateNode (interval : Interval) : Except Fault (HistoryTree × ℕ) :=
  match q.freeBlocks with
  | [] => throw .noFreeBlock
  | block :: rest =>
    pure ({ q with tree := q.tree.modify block fun _ => Node.initializeWith interval, freeBlocks := rest }, block)

def releaseNode (node : ℕ) : Except Fault HistoryTree := do
  check (node < cfg.maxListSize) .notABlock
  check (q.freeBlocks.length < cfg.maxListSize) .allBlocksFree
  pure { q with freeBlocks := node :: q.freeBlocks }

/-- All blocks are free, and the first one gets all the time. -/
def start : Except Fault HistoryTree := do
  let q : HistoryTree := ⟨⟨fun _ => ⟨none, none, none, 0, 0, ⟨0, 0⟩⟩, none, 0⟩, (List.range cfg.maxListSize).reverse, []⟩
  let (q, node) ← q.allocateNode ⟨0, uint64Max⟩
  pure { q with tree := { q.tree with root := some node, size := 1 } }

def insertNode (interval : Interval) : Except Fault HistoryTree := do
  let (q, node) ← q.allocateNode interval
  let tree ← q.tree.insert node
  pure { q with tree := tree }

def removeNode (node : ℕ) : Except Fault HistoryTree := do
  let (tree, removed) ← q.tree.remove node
  releaseNode cfg { q with tree := tree } removed

def setFirst (node first : ℕ) : HistoryTree :=
  { q with tree := q.tree.modify node fun n => n.setPair first ⟨first, n.interval.second⟩ }

def setSecond (node second : ℕ) : HistoryTree :=
  { q with tree := q.tree.modify node fun n => n.setPair n.key ⟨n.interval.first, second⟩ }

def prune (minNode : Option ℕ) : Except Fault HistoryTree :=
  if q.tree.size ≥ cfg.maxListSize then
    match minNode with
    | none => throw .nullPointer
    | some node => q.removeNode cfg node
  else pure q

def isOld (pkt : Packet) (minNode : Option ℕ) : Except Fault Bool :=
  if cfg.analyticalModelEnabled then
    match minNode with
    | none => throw .nullPointer
    | some node => pure (decide ((q.tree.nodes node).interval.first > add64 pkt.time pkt.processing))
  else pure false

/-- What is left of the interval from `first` on is kept in its node, or the node is removed. -/
def keepRest (node first : ℕ) : Except Fault HistoryTree :=
  if sub64 (q.tree.nodes node).interval.second first ≥ cfg.minProcessingTime then pure (q.setFirst node first)
  else q.removeNode cfg node

/-- The part before the packet keeps the node, the part after it gets a new one. -/
def splitNode (node : ℕ) (pkt : Packet) : Except Fault HistoryTree :=
  let interval := (q.tree.nodes node).interval
  let next := add64 pkt.time pkt.processing
  if sub64 interval.second next ≥ cfg.minProcessingTime then do
    let q ← q.insertNode ⟨next, interval.second⟩
    pure (q.setSecond node pkt.time)
  else pure (q.setSecond node pkt.time)

def bookIn (node : ℕ) (pkt : Packet) : Except Fault (HistoryTree × ℕ) := do
  let interval := (q.tree.nodes node).interval
  check (add64 pkt.time pkt.processing ≤ interval.second) .notInInterval
  if pkt.time ≥ interval.first then
    if sub64 pkt.time interval.first ≥ cfg.minProcessingTime then do
      let q ← q.splitNode cfg node pkt
      pure (q, 0)
    else do
      let q ← q.keepRest cfg node (add64 pkt.time pkt.processing)
      pure (q, 0)
  else do
    let q ← q.keepRest cfg node (add64 interval.first pkt.processing)
    pure (q, interval.first - pkt.time)

def book (pkt : Packet) : Except Fault (HistoryTree × ℕ) := do
  let node ← q.tree.search ⟨pkt.time, add64 pkt.time pkt.processing⟩
  match node with
  | none => throw .noInterval
  | some node => q.bookIn cfg node pkt

def bookOrEstimate (pkt : Packet) (old : Bool) : Except Fault (HistoryTree × ℕ) :=
  if old then do
    let delay ← cfg.analyticalDelay q.arrivals pkt.processing
    pure (q, delay)
  else q.book cfg pkt

def computeQueueDelay (pkt : Packet) : Except Fault (HistoryTree × ℕ) := do
  let minNode ← q.tree.search ⟨0, 1⟩
  let q ← q.prune cfg minNode
  let minNode ← q.tree.search ⟨0, 1⟩
  let old ← q.isOld cfg pkt minNode
  let (q, delay) ← q.bookOrEstimate cfg pkt old
  check (delay ≠ uint64Max) .noDelay
  pure ({ q with arrivals := q.arrivals ++ [⟨pkt.time, pkt.processing, delay⟩] }, delay)

end HistoryTree

/-! ## The search -/

namespace IntervalTree

variable {s : IntervalTree} {t T : HTree Entry} {p n : ℕ}

theorem firstFound_ok {a b : Option ℕ} : firstFound (.ok a) (.ok b) = .ok (a.or b) := by
  cases a <;> rfl

theorem searchTree_eq {parent : Option ℕ} {fuel : ℕ} (ht : Rep s.nodes parent t)
    (hchain : Chain 1 1 (t.inorder.map Entry.interval)) (hsecond : ∀ e ∈ t.inorder, e.interval.second < 2 ^ 64)
    (hpn : p + n < 2 ^ 64) (hfuel : t.inorder.length ≤ fuel) :
    s.searchTree ⟨p, p + n⟩ fuel (ptr t) =
      .ok ((t.inorder.find? fun e => e.interval.Fits p n).map Entry.ptr) := by
  induction t generalizing parent fuel with
  | nil => cases fuel <;> rfl
  | node l e h r ihl ihr =>
    obtain ⟨he, hl, hr⟩ := ht
    simp only [HTree.inorder, length_append, length_cons] at hfuel
    simp only [HTree.inorder, map_append, map_cons] at hchain
    simp only [HTree.inorder, mem_append, mem_cons] at hsecond
    obtain ⟨fuel, rfl⟩ : ∃ k, fuel = k + 1 := ⟨fuel - 1, by omega⟩
    obtain ⟨hbefore, -⟩ := hchain.middle
    have hfuell : l.inorder.length ≤ fuel := by omega
    have hfuelr : r.inorder.length ≤ fuel := by omega
    have hl' := ihl hl hchain.left (fun a ha => hsecond a (.inl ha)) hfuell
    have hr' := ihr hr hchain.right.tail (fun a ha => hsecond a (.inr (.inr ha))) hfuelr
    have hesecond := hsecond e (.inr (.inl rfl))
    have hesize := hchain.sizes e.interval (by simp)
    -- nothing on the left has room unless the request ends before this interval
    have hleft : e.interval.first ≤ p + n → l.inorder.find? (fun a => a.interval.Fits p n) = none := by
      intro hle
      rw [find?_eq_none]
      intro a ha hfits
      have := hbefore a.interval (mem_map_of_mem ha)
      have hfits : max p a.interval.first + n ≤ a.interval.second := of_decide_eq_true hfits
      omega
    have hleftPtr : (s.nodes e.ptr).left = ptr l := by rw [he]; rfl
    have hrightPtr : (s.nodes e.ptr).right = ptr r := by rw [he]; rfl
    have hinterval : (s.nodes e.ptr).interval = e.interval := by rw [he, interval_link]
    rw [ptr_node, searchTree]
    dsimp only
    rw [hinterval, hleftPtr, hrightPtr, hl', hr', sub64_eq (by omega) hesecond, sub64_eq (by omega) hpn,
      HTree.inorder, find?_append]
    by_cases hin : p ≥ e.interval.first ∧ p + n ≤ e.interval.second
    · have hfits : e.interval.Fits p n := by
        unfold Span.Fits
        omega
      rw [if_pos hin, hleft (by omega), find?_cons_of_pos (by simpa using hfits)]
      rfl
    · have hright : (if p < e.interval.first ∧ e.interval.second - e.interval.first ≥ p + n - p then pure (some e.ptr)
          else .ok ((r.inorder.find? fun a => a.interval.Fits p n).map Entry.ptr) : Except Fault (Option ℕ)) =
          .ok (((e :: r.inorder).find? fun a => a.interval.Fits p n).map Entry.ptr) := by
        by_cases hfits : e.interval.Fits p n
        · rw [find?_cons_of_pos (by simpa using hfits)]
          unfold Span.Fits at hfits
          rw [if_pos (by omega)]
          rfl
        · rw [find?_cons_of_neg (by simpa using hfits)]
          unfold Span.Fits at hfits
          rw [if_neg (by omega)]
      rw [if_neg hin, hright]
      by_cases hlt : p + n < e.interval.first
      · rw [if_pos hlt, firstFound_ok, Option.map_or]
      · rw [if_neg hlt, hleft (by omega), pure_eq_ok, firstFound_ok]
        rfl

theorem Valid.search (hs : Valid s T) (hfree : Free 1 1 (T.inorder.map Entry.interval)) (hpn : p + n < 2 ^ 64) :
    s.search ⟨p, p + n⟩ = .ok ((T.inorder.find? fun e => e.interval.Fits p n).map Entry.ptr) := by
  rw [IntervalTree.search, hs.size, hs.holds.root]
  exact searchTree_eq hs.holds.rep hfree.chain (fun e he => hfree.second_lt (mem_map_of_mem he)) hpn (Nat.le_refl _)

end IntervalTree

end Graphite.Contention
