import Graphite.Cache.Set
import Mathlib.Data.Finset.Basic

/-! # Caches

A cache splits an address into the number of its line, which is the tag, and an offset. It counts
the lines in each state and remembers which addresses were fetched, evicted and invalidated, to tell
the type of a miss. The actions are the calls of the controllers.
-/

namespace Graphite

open Outcome Function

namespace Cache

/-- If one of the bits of `mask` is set, `k` more bits are counted and shifted out. -/
def countBits (mask k : ℕ) (r : ℕ × ℕ) : ℕ × ℕ :=
  if r.2 &&& mask ≠ 0 then (r.1 + k, r.2 >>> k) else r

/-- `floorLog2` on 32 bits. -/
def floorLog2 (n : ℕ) : ℤ :=
  if n = 0 then -1
  else
    let r := countBits 0xffff0000 16 (0, n)
    let r := countBits 0x0000ff00 8 r
    let r := countBits 0x000000f0 4 r
    let r := countBits 0x0000000c 2 r
    (countBits 0x00000002 1 r).1

theorem floorLog2_two_pow {k : ℕ} (h : k < 32) : floorLog2 (2 ^ k) = k := by
  decide +revert

/-- What a cache is built from. -/
structure Params where
  lineSize : ℕ
  numSets : ℕ
  trackMissTypes : Bool
  isInstructionCache : Bool

namespace Params

variable (p : Params)

def logLineSize : ℕ := (floorLog2 p.lineSize).toNat

def getTag (address : ℕ) : ℕ := address >>> p.logLineSize

/-- `CacheHashFn::compute`. -/
def setNum (address : ℕ) : ℕ := (address >>> p.logLineSize) &&& (p.numSets - 1)

def getLineOffset (address : ℕ) : ℕ := address &&& (p.lineSize - 1)

def getAddressFromTag (tag : ℕ) : ℕ := (tag <<< p.logLineSize) % 2 ^ 64

end Params

inductive MissType
  | cold | capacity | sharing | invalid
  deriving DecidableEq, Repr

structure MissCounters where
  accesses : ℕ
  misses : ℕ
  readAccesses : ℕ
  readMisses : ℕ
  writeAccesses : ℕ
  writeMisses : ℕ
  cold : ℕ
  capacity : ℕ
  sharing : ℕ
  deriving DecidableEq, Repr

/-- What a cache keeps beside its sets: the number of lines in each state, the addresses that were
fetched, evicted and invalidated, and the counters of accesses and misses. -/
structure Stats where
  enabled : Bool
  lineStateCounters : CacheState → BitVec 64
  fetched : Finset ℕ
  evicted : Finset ℕ
  invalidated : Finset ℕ
  counters : MissCounters

namespace Stats

def create : Stats := ⟨false, fun _ => 0, ∅, ∅, ∅, ⟨0, 0, 0, 0, 0, 0, 0, 0, 0⟩⟩

variable (p : Params) (c : Stats) (address : ℕ)

def updateCacheLineStateCounters (old new : CacheState) : Stats :=
  let counters := update c.lineStateCounters old (c.lineStateCounters old - 1)
  { c with lineStateCounters := update counters new (counters new + 1) }

/-- Takes the address out of the first set that has it. -/
def clearMissTypeTrackingSets : Stats :=
  if address ∈ c.evicted then { c with evicted := c.evicted.erase address }
  else if address ∈ c.invalidated then { c with invalidated := c.invalidated.erase address }
  else { c with fetched := c.fetched.erase address }

/-- What an insertion notes of a line that has left. -/
def noteEviction (cstate : CacheState) : Except Fault Stats := do
  check (address ≠ invalidTag) .evictedAddress
  let c := if p.trackMissTypes then { c with evicted := insert address c.evicted } else c
  pure (c.updateCacheLineStateCounters cstate .invalid)

def noteInsertion (cstate : CacheState) : Stats :=
  let c := if p.trackMissTypes then c.clearMissTypeTrackingSets address else c
  let c := if p.trackMissTypes then { c with fetched := insert address c.fetched } else c
  c.updateCacheLineStateCounters .invalid cstate

/-- The lines that have left come with their address and state. -/
def noteInserted (left : List (ℕ × CacheState)) (cstate : CacheState) : Except Fault Stats := do
  let c ← left.foldlM (fun c e => c.noteEviction p e.1 e.2) c
  pure (c.noteInsertion p address cstate)

def noteInfo (old new : CacheState) : Stats :=
  let c := c.updateCacheLineStateCounters old new
  if new = .invalid ∧ p.trackMissTypes then { c with invalidated := insert address c.invalidated }
  else c

def getMissType : MissType :=
  if address ∈ c.evicted then .capacity
  else if address ∈ c.invalidated then .sharing
  else if address ∈ c.fetched then .sharing
  else .cold

def updateMissTypeCounters (m : MissCounters) : MissType → Except Fault MissCounters
  | .cold => pure { m with cold := m.cold + 1 }
  | .capacity => pure { m with capacity := m.capacity + 1 }
  | .sharing => pure { m with sharing := m.sharing + 1 }
  | .invalid => throw .missType

def countAccess (m : MissCounters) (op : MemOp) : Except Fault MissCounters :=
  let m := { m with accesses := m.accesses + 1 }
  if op = .read ∨ op = .readEx then pure { m with readAccesses := m.readAccesses + 1 }
  else do
    check (p.isInstructionCache = false) .cacheCategory
    pure { m with writeAccesses := m.writeAccesses + 1 }

def countMiss (m : MissCounters) (op : MemOp) : MissCounters :=
  let m := { m with misses := m.misses + 1 }
  if op = .read ∨ op = .readEx then { m with readMisses := m.readMisses + 1 }
  else { m with writeMisses := m.writeMisses + 1 }

/-- Counts an access of the core; only a miss of an enabled cache that tracks them has a type. -/
def updateMissCounters (op : MemOp) (miss : Bool) : Except Fault (Stats × MissType) :=
  if c.enabled then do
    let m ← countAccess p c.counters op
    if miss then
      if p.trackMissTypes then do
        let type := c.getMissType address
        let m ← updateMissTypeCounters (countMiss m op) type
        pure ({ c with counters := m }, type)
      else pure ({ c with counters := countMiss m op }, .invalid)
    else pure ({ c with counters := m }, .invalid)
  else pure (c, .invalid)

end Stats

end Cache

structure Cache {n : ℕ} (P : Cache.Policy n) (ι : Type) extends Cache.Stats where
  sets : ℕ → Cache.CacheSet P ι

namespace Cache

variable {n : ℕ} {P : Policy n} {ι : Type}

def create [Inhabited ι] : Cache P ι := ⟨.create, fun _ => .create⟩

section Operations

variable (p : Params) (c : Cache P ι) (address : ℕ)

def getSet : CacheSet P ι := c.sets (p.setNum address)

def setSet (s : CacheSet P ι) : Cache P ι :=
  { c with sets := update c.sets (p.setNum address) s }

/-- `accessCacheLine` with `LOAD`. -/
def load (bytes : ℕ) : Except Fault (Cache P ι × List UInt8) :=
  match (c.getSet p address).find (p.getTag address) with
  | none => throw .lineAbsent
  | some w => do
    let (s, out) ← (c.getSet p address).readLine p.lineSize w (p.getLineOffset address) bytes
    pure (c.setSet p address s, out)

/-- `accessCacheLine` with `STORE`. -/
def store (buf : List UInt8) : Except Fault (Cache P ι) :=
  match (c.getSet p address).find (p.getTag address) with
  | none => throw .lineAbsent
  | some w => do
    let s ← (c.getSet p address).writeLine p.lineSize w (p.getLineOffset address) buf
    pure (c.setSet p address s)

/-- The address, the info and the contents of a line that has left. -/
abbrev Evicted (ι : Type) := ℕ × LineInfo ι × LineData

def insertCacheLine (info : LineInfo ι) (fillBuf : Option LineData) :
    Except Fault (Cache P ι × Option (Evicted ι)) := do
  let (s, out) ← (c.getSet p address).insert info fillBuf
  let evicted := out.map fun (i, d) => (p.getAddressFromTag i.tag, i, d)
  let stats ← c.toStats.noteInserted p address (evicted.toList.map fun e => (e.1, e.2.1.cstate))
    info.cstate
  check (c.enabled = true → ∀ e ∈ evicted, e.2.1.cstate ≠ .invalid) .evictedState
  pure ({ c.setSet p address s with toStats := stats }, evicted)

def getCacheLineInfo : Option (LineInfo ι) :=
  ((c.getSet p address).find (p.getTag address)).map (c.getSet p address).info

def setCacheLineInfo (updated : LineInfo ι) : Except Fault (Cache P ι) :=
  match (c.getSet p address).find (p.getTag address) with
  | none => throw .lineAbsent
  | some w =>
    let s := c.getSet p address
    let stats := c.toStats.noteInfo p address (s.info w).cstate updated.cstate
    pure { c.setSet p address (s.assign w updated) with toStats := stats }

def updateMissCounters (op : MemOp) (miss : Bool) : Except Fault (Cache P ι × MissType) := do
  let (stats, type) ← c.toStats.updateMissCounters p address op miss
  pure ({ c with toStats := stats }, type)

def insertedInfo (cstate : CacheState) (extra : ι) : LineInfo ι :=
  ⟨p.getTag address, cstate, 0, extra⟩

/-- The info a controller has read before it writes it back. -/
def readInfo [Inhabited ι] : LineInfo ι := (c.getCacheLineInfo p address).getD .create

end Operations

/-! ## The calls of the controllers -/

/-- A line is inserted under the tag of its address, its info is read, changed in all but the tag and
written back, or it is invalidated. -/
inductive Action (ι : Type)
  | insert (address : ℕ) (cstate : CacheState) (extra : ι) (fill : Option LineData)
  | load (address bytes : ℕ)
  | store (address : ℕ) (buf : List UInt8)
  | setInfo (address : ℕ) (cstate : CacheState) (extra : ι)
  | invalidate (address : ℕ)
  | count (address : ℕ) (op : MemOp) (miss : Bool)
  | enable (enabled : Bool)

def Action.address : Action ι → ℕ
  | .insert a _ _ _ | .load a _ | .store a _ | .setInfo a _ _ | .invalidate a | .count a _ _ => a
  | .enable _ => 0

inductive Event (ι : Type)
  | inserted (address : ℕ) (fill : Option LineData) (evicted : Option (Evicted ι))
  | loaded (address : ℕ) (out : List UInt8)
  | stored (address : ℕ) (buf : List UInt8)
  | invalidated (address : ℕ)
  | missed (address : ℕ) (type : MissType)

section Machine

variable (P ι) [Inhabited ι] (p : Params)

def step (c : Cache P ι) : Action ι → Except Fault (Cache P ι × List (Event ι))
  | .insert a cstate extra fill => do
    let (c, evicted) ← c.insertCacheLine p a (insertedInfo p a cstate extra) fill
    pure (c, [.inserted a fill evicted])
  | .load a bytes => do
    let (c, out) ← c.load p a bytes
    pure (c, [.loaded a out])
  | .store a buf => do
    let c ← c.store p a buf
    pure (c, [.stored a buf])
  | .setInfo a cstate extra => do
    let info := c.readInfo p a
    let c ← c.setCacheLineInfo p a { info with cstate := cstate, extra := extra }
    pure (c, if cstate = .invalid then [.invalidated a] else [])
  | .invalidate a => do
    let c ← c.setCacheLineInfo p a (c.readInfo p a).invalidate
    pure (c, [.invalidated a])
  | .count a op miss => do
    let (c, type) ← c.updateMissCounters p a op miss
    pure (c, if miss then [.missed a type] else [])
  | .enable b => pure ({ c with enabled := b }, [])

/-- Addresses have 64 bits, and only an absent line is inserted. -/
def machine : System (Cache P ι) (Action ι) Fault (Event ι) where
  init c := c = .create
  enabled c
    | .insert a _ _ _ => a < 2 ^ 64 ∧ (c.getCacheLineInfo p a).isNone
    | action => action.address < 2 ^ 64
  step := step P ι p

instance (c : Cache P ι) : DecidablePred ((machine P ι p).enabled c) := fun a => by
  cases a <;> dsimp only [machine] <;> infer_instance

end Machine

end Cache

end Graphite
