import Graphite.Library.Outcome
import Mathlib.Data.Nat.Notation

/-! # States, operations and line contents

The enumerations that the protocols share, the contents of a cache line with byte-range
reads and writes, and the assertions and error branches at which the simulator stops.
-/

namespace Graphite

inductive CacheState
  | invalid | shared | owned | exclusive | modified | dataInvalid | clean | dirty
  deriving DecidableEq, Repr

def CacheState.readable (c : CacheState) : Bool :=
  c = .modified || c = .exclusive || c = .owned || c = .shared

def CacheState.writable (c : CacheState) : Bool :=
  c = .modified || c = .exclusive

inductive DirectoryState
  | uncached | shared | owned | exclusive | modified
  deriving DecidableEq, Repr

inductive MemComponent
  | invalid | core | l1ICache | l1DCache | l2Cache | dramDirectory | dramCntlr
  deriving DecidableEq, Repr

/-- `Core::mem_op_t`. -/
inductive MemOp
  | read | readEx | write
  deriving DecidableEq, Repr

/-- `Core::lock_signal_t`. -/
inductive LockSignal
  | none | lock | unlock
  deriving DecidableEq, Repr

/-- The permission an operation needs, in the L1 as in the L2 controllers. -/
def MemOp.permissible (op : MemOp) (c : CacheState) : Bool :=
  match op with
  | .read => c.readable
  | .readEx | .write => c.writable

/-- The bytes of a cache line by offset. -/
abbrev LineData := ℕ → UInt8

/-- The line `DramCntlr` creates for an address it has not seen. -/
def zeroLine : LineData := fun _ => 0

def readBytes (d : LineData) (offset len : ℕ) : List UInt8 :=
  (List.range len).map fun i => d (offset + i)

def writeBytes (d : LineData) (offset : ℕ) (bs : List UInt8) : LineData := fun i =>
  if offset ≤ i then bs.getD (i - offset) (d i) else d i

/-- The assertions and error branches. Three stand for steps without a defined outcome: a message to a
tile that does not exist (`badReceiver`), a payload that is missing (`dataAbsent`) and a reply no
application thread waits for (`appThreadNotWaiting`). -/
inductive Fault
  -- directory entries
  | sharerPresent | sharerMissing | replyExpected | trackedCount | untrackedCount | overflowCount
  | softwareRange | ownerNotSharer | broadcastDisabled
  -- bit vectors and sharer counters
  | bitRange | listLength | sharerCountRange | sharerCountZero
  -- directory cache
  | entryPresent | replacedMissing | invalidatedMissing
  -- caches, DRAM, network
  | lineAbsent | lineBounds | dramLineAbsent | badReceiver | senderTile | unrecognizedComponent
  -- L1 controller
  | accessNum | unlockMiss | l1Component | l1StateInvalid | appThreadNotWaiting
  -- L2 controller
  | outstandingPending | outstandingAddress | outstandingModeled | outstandingComponent
  | evictedState | evictedCachedLoc | cachedLocSet | cachedLocState
  | l2ReqState | upgradeState | invReqState | flushReqState | wbReqState | wbReqReplyExpected
  | dataPresent | dataAbsent | unrecognizedMsg
  -- directory controller
  | noReplacementCandidate | nullifyCount | entryMissing | unsupportedDState | cachedDataPresent
  | addSharerFailed | invRepState | flushRepState | wbRepState | wbRepSharer | wbRepReq
  | wbRepNoReq | queueEmpty | unrecognizedReq | reqState | dataListFull | dataMismatch
  deriving DecidableEq, Repr

end Graphite
