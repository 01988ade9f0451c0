import Graphite.Base
import Mathlib.Data.List.FinRange
import Mathlib.Data.Int.Cast.Basic

/-! # Directory entries

The five sharer-tracking schemes of `directory_schemes/`. The slots of the limited
schemes are 16-bit: a tile number is cast when it is stored or removed, but
`hasSharer` compares the slots with the number itself.
-/

namespace Graphite

open Outcome Function

inductive DirectoryType
  | fullMap | limitedNoBroadcast | limitedBroadcast | ackwise | limitless
  deriving DecidableEq, Repr

/-- The cast `(SInt16)`. -/
def toSInt16 (id : ℤ) : ℤ := id.bmod 65536

/-- `INVALID_SHARER`, the 16-bit pattern `0xffff`. -/
def invalidSharer : ℤ := -1

def invalidTileId : ℤ := -1

/-- The `tile_id_t` of a tile. -/
def tileId {N : ℕ} (t : Fin N) : ℤ := (t.val : ℤ)

/-- `DirectoryEntryLimited`: `_sharers` and `_num_tracked_sharers`. -/
structure Limited where
  sharers : List ℤ
  numTracked : ℤ
  deriving DecidableEq, Repr

namespace Limited

def create (maxHwSharers : ℕ) : Limited := ⟨List.replicate maxHwSharers invalidSharer, 0⟩

def hasSharer (l : Limited) (id : ℤ) : Bool := l.sharers.contains id

def addSharer (l : Limited) (id : ℤ) : Except Fault (Limited × Bool) := do
  check (toSInt16 id ∉ l.sharers) .sharerPresent
  if invalidSharer ∈ l.sharers then
    pure (⟨l.sharers.replace invalidSharer (toSInt16 id), l.numTracked + 1⟩, true)
  else
    pure (l, false)

def removeSharer (l : Limited) (id : ℤ) : Except Fault Limited :=
  if toSInt16 id ∈ l.sharers then
    pure ⟨l.sharers.replace (toSInt16 id) invalidSharer, l.numTracked - 1⟩
  else
    throw .sharerMissing

def tracked (l : Limited) : List ℤ := l.sharers.filter (· ≠ invalidSharer)

def getSharersList (l : Limited) : Except Fault (List ℤ) := do
  check (l.numTracked = l.tracked.length) .trackedCount
  pure l.tracked

end Limited

/-- The sharer-tracking part of a `DirectoryEntry`, one constructor for each subclass. A bit vector
over the tiles is the predicate of its set bits. -/
inductive Sharers (N : ℕ)
  | fullMap (bits : Fin N → Bool)
  | limitedNoBroadcast (l : Limited)
  | limitedBroadcast (l : Limited) (globalEnabled : Bool) (numSharers : ℤ)
  | ackwise (l : Limited) (globalEnabled : Bool) (numUntracked : ℤ)
  | limitless (l : Limited) (software : Option (Fin N → Bool))

/-- The set positions in increasing order, as `BitVector::find` enumerates them. -/
def bitList {N : ℕ} (bits : Fin N → Bool) : List (Fin N) := (List.finRange N).filter (bits ·)

namespace Sharers

variable {N : ℕ}

def create (N : ℕ) (type : DirectoryType) (maxHwSharers : ℕ) : Sharers N :=
  match type with
  | .fullMap => .fullMap fun _ => false
  | .limitedNoBroadcast => .limitedNoBroadcast (.create maxHwSharers)
  | .limitedBroadcast => .limitedBroadcast (.create maxHwSharers) false 0
  | .ackwise => .ackwise (.create maxHwSharers) false 0
  | .limitless => .limitless (.create maxHwSharers) none

def hasSharer (e : Sharers N) (t : Fin N) : Bool :=
  match e with
  | fullMap b => b t
  | limitedNoBroadcast l | limitedBroadcast l _ _ | ackwise l _ _ | limitless l none =>
    l.hasSharer (tileId t)
  | limitless _ (some b) => b t

/-- The slots of the hardware list as bits, for the migration of a limitless entry to software. -/
def migrate (l : Limited) : Except Fault (Fin N → Bool) := do
  check (∀ v ∈ l.tracked, 0 ≤ v ∧ v < N) .softwareRange
  pure fun t => l.tracked.contains (tileId t)

def addSharer (e : Sharers N) (t : Fin N) : Except Fault (Sharers N × Bool) :=
  match e with
  | fullMap b => do
    check (b t = false) .sharerPresent
    pure (fullMap (update b t true), true)
  | limitedNoBroadcast l => do
    let (l, added) ← l.addSharer (tileId t)
    pure (limitedNoBroadcast l, added)
  | limitedBroadcast l true n => pure (limitedBroadcast l true n, true)
  | limitedBroadcast l false n => do
    let (l', added) ← l.addSharer (tileId t)
    if added then
      pure (limitedBroadcast l' false n, true)
    else
      check (n = 0 ∧ l.numTracked = l.sharers.length) .overflowCount
      pure (limitedBroadcast l' true N, true)
  | ackwise l true n => pure (ackwise l true (n + 1), true)
  | ackwise l false n => do
    let (l', added) ← l.addSharer (tileId t)
    if added then
      pure (ackwise l' false n, true)
    else
      check (n = 0 ∧ l.numTracked = l.sharers.length) .overflowCount
      pure (ackwise l' true 1, true)
  | limitless l (some b) => do
    check (b t = false) .sharerPresent
    pure (limitless l (some (update b t true)), true)
  | limitless l none => do
    let (l', added) ← l.addSharer (tileId t)
    if added then
      pure (limitless l' none, true)
    else
      let b ← migrate l
      -- each occupied slot is freed and uncounted
      let l' : Limited := ⟨l.sharers.map fun _ => invalidSharer, l.numTracked - l.tracked.length⟩
      check (l'.numTracked = 0) .trackedCount
      pure (limitless l' (some (update b t true)), true)

def removeSharer (e : Sharers N) (t : Fin N) (replyExpected : Bool) : Except Fault (Sharers N) :=
  match e with
  | fullMap b => do
    check (replyExpected = false) .replyExpected
    check (b t = true) .sharerMissing
    pure (fullMap (update b t false))
  | limitedNoBroadcast l => do
    check (replyExpected = false) .replyExpected
    let l ← l.removeSharer (tileId t)
    pure (limitedNoBroadcast l)
  | limitedBroadcast l g n => do
    let l ← if g && !l.hasSharer (tileId t) then pure l else l.removeSharer (tileId t)
    if replyExpected then
      check (g = true) .broadcastDisabled
      if n - 1 = 0 then
        check (l.numTracked = 0) .trackedCount
        pure (limitedBroadcast l false (n - 1))
      else
        pure (limitedBroadcast l g (n - 1))
    else
      pure (limitedBroadcast l g n)
  | ackwise l g n => do
    check (replyExpected = false) .replyExpected
    if g then
      check (0 < n) .untrackedCount
      if l.hasSharer (tileId t) then
        let l ← l.removeSharer (tileId t)
        pure (ackwise l g n)
      else
        pure (ackwise l (decide (n - 1 ≠ 0)) (n - 1))
    else
      let l ← l.removeSharer (tileId t)
      pure (ackwise l g n)
  | limitless l (some b) => do
    check (replyExpected = false) .replyExpected
    check (b t = true) .sharerMissing
    pure (limitless l (some (update b t false)))
  | limitless l none => do
    check (replyExpected = false) .replyExpected
    let l ← l.removeSharer (tileId t)
    pure (limitless l none)

/-- Whether all tiles have to be treated as sharers, and the tracked sharers. The list of
`DirectoryEntryLimited` claims all tiles, and only the subclasses that override it do not. -/
def getSharersList (e : Sharers N) : Except Fault (Bool × List ℤ) :=
  match e with
  | fullMap b | limitless _ (some b) => pure (false, (bitList b).map tileId)
  | limitedNoBroadcast l => do pure (true, ← l.getSharersList)
  | limitedBroadcast l g _ | ackwise l g _ => do pure (g, ← l.getSharersList)
  | limitless l none => do pure (false, ← l.getSharersList)

/-- A random member of the list; `rnd` stands for the draw. -/
def getOneSharer (e : Sharers N) (rnd : ℕ) : Except Fault ℤ := do
  let (_, list) ← e.getSharersList
  pure (list.getD (rnd % list.length) invalidTileId)

def getNumSharers (e : Sharers N) : ℤ :=
  match e with
  | fullMap b | limitless _ (some b) => (bitList b).length
  | limitedNoBroadcast l | limitless l none => l.numTracked
  | limitedBroadcast l g n => if g then n else l.numTracked
  | ackwise l _ n => l.numTracked + n

end Sharers

/-- `DirectoryEntry` with its `DirectoryBlockInfo`; a missing owner is `INVALID_TILE_ID`. The address of
an entry is the tag under which the directory keeps it. -/
structure DirectoryEntry (N : ℕ) where
  dstate : DirectoryState
  owner : Option (Fin N)
  sharers : Sharers N

namespace DirectoryEntry

variable {N : ℕ}

def create (N : ℕ) (type : DirectoryType) (maxHwSharers : ℕ) : DirectoryEntry N :=
  ⟨.uncached, none, .create N type maxHwSharers⟩

def setOwner (e : DirectoryEntry N) (owner : Option (Fin N)) : Except Fault (DirectoryEntry N) := do
  check (owner.all e.sharers.hasSharer) .ownerNotSharer
  pure { e with owner }

def addSharer (e : DirectoryEntry N) (t : Fin N) : Except Fault (DirectoryEntry N × Bool) := do
  let (sharers, added) ← e.sharers.addSharer t
  pure ({ e with sharers }, added)

def removeSharer (e : DirectoryEntry N) (t : Fin N) (replyExpected : Bool) :
    Except Fault (DirectoryEntry N) := do
  let sharers ← e.sharers.removeSharer t replyExpected
  pure { e with sharers }

end DirectoryEntry

end Graphite
