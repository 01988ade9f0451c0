import Graphite.Sync.Threads

/-! # The synchronization server

Mutexes, condition variables and barriers of the MCP and the handlers of its requests, one at a time. A
handler writes down what it sends and what it does to mutexes and threads, in order; between requests
this record is empty. A run starts with the mutexes, condition variables and barriers it uses.
-/

namespace Graphite.Sync

open Outcome

inductive Request
  | mutexLock (mux time : ℕ)
  | mutexUnlock (mux time : ℕ)
  | condWait (cond mux time : ℕ)
  | condSignal (cond time : ℕ)
  | condBroadcast (cond time : ℕ)
  | barrierWait (barrier time : ℕ)
  deriving DecidableEq, Repr

/-- The responses. `COND_WAIT_RESPONSE` is `MUTEX_LOCK_RESPONSE`. -/
inductive Reply
  | mutexLock (time : ℕ)
  | mutexUnlock
  | condSignal
  | condBroadcast
  | barrierWait (time : ℕ)
  deriving DecidableEq, Repr

/-- What happens while a request is handled. A mutex is `granted` to a core that finds it free and
`handed` to the first of its queue when its owner has `released` it. -/
inductive Event (N : ℕ)
  | request (c : Fin N) (r : Request)
  | reply (c : Fin N) (r : Reply)
  | granted (mux : ℕ) (c : Fin N)
  | queued (mux : ℕ) (c : Fin N)
  | released (mux : ℕ) (c : Fin N)
  | handed (mux : ℕ) (c : Fin N)
  | resumed (c : Fin N)
  deriving DecidableEq, Repr

variable {N : ℕ}

structure SimMutex (N : ℕ) where
  waiting : List (Fin N) := []
  owner : Option (Fin N) := none
  deriving DecidableEq, Repr

/-- `CondWaiter`. Its `StableIterator` is an index into the vector of mutexes. -/
structure CondWaiter (N : ℕ) where
  core : Fin N
  mutex : ℕ
  arrivalTime : ℕ
  deriving DecidableEq, Repr

structure SimCond (N : ℕ) where
  waiting : List (CondWaiter N) := []
  deriving DecidableEq, Repr

structure SimBarrier (N : ℕ) where
  count : ℕ
  waiting : List (Fin N) := []
  maxTime : ℕ := 0
  deriving DecidableEq, Repr

/-- Memberwise assignment. `StableIterator::operator=` leaves its target as it is and returns a copy
of its argument, so the mutex stays. -/
def CondWaiter.assign (w src : CondWaiter N) : CondWaiter N := { src with mutex := w.mutex }

/-- `erase` of the first element of a vector: each element is assigned its successor, and the last
one is destroyed. -/
def eraseBegin : List (CondWaiter N) → List (CondWaiter N)
  | [] | [_] => []
  | w :: w' :: ws => w.assign w' :: eraseBegin (w' :: ws)

structure Server (N : ℕ) where
  mutexes : List (SimMutex N)
  conds : List (SimCond N)
  barriers : List (SimBarrier N)
  threads : Threads N
  out : List (Event N) := []

namespace Server

variable (s : Server N)

def emit (e : Event N) : Server N := { s with out := s.out ++ [e] }

def stallThread (c : Fin N) : Except Fault (Server N) := do
  let T ← s.threads.stallThread c
  pure { s with threads := T }

def resumeThread (c : Fin N) : Except Fault (Server N) := do
  let T ← s.threads.resumeThread c
  pure ({ s with threads := T }.emit (.resumed c))

def setMutex (mux : ℕ) (m : SimMutex N) : Server N := { s with mutexes := s.mutexes.set mux m }

def setCond (cond : ℕ) (v : SimCond N) : Server N := { s with conds := s.conds.set cond v }

def setBarrier (barrier : ℕ) (b : SimBarrier N) : Server N :=
  { s with barriers := s.barriers.set barrier b }

/-- `netSend` of a response. -/
def netSend (c : Fin N) (r : Reply) : Server N := s.emit (.reply c r)

end Server

def at? {α : Type} (l : List α) (i : ℕ) : Except Fault α :=
  match l[i]? with
  | some x => pure x
  | none => throw .outOfBounds

/-! ## Mutexes -/

namespace SimMutex

variable (s : Server N) (mux : ℕ) (c : Fin N)

/-- Returns whether `c` now owns the mutex. -/
def lock : Except Fault (Server N × Bool) := do
  let m ← at? s.mutexes mux
  match m.owner with
  | none => pure ((s.setMutex mux { m with owner := some c }).emit (.granted mux c), true)
  | some _ =>
    let s ← s.stallThread c
    pure ((s.setMutex mux { m with waiting := m.waiting ++ [c] }).emit (.queued mux c), false)

def unlock : Except Fault (Server N × Option (Fin N)) := do
  let m ← at? s.mutexes mux
  check (m.owner = some c) .notOwner
  let s := s.emit (.released mux c)
  match m.waiting with
  | [] => pure (s.setMutex mux { m with owner := none }, none)
  | d :: ds =>
    let s ← ((s.setMutex mux ⟨ds, some d⟩).emit (.handed mux d)).resumeThread d
    pure (s, some d)

end SimMutex

/-! ## Condition variables -/

namespace SimCond

variable (s : Server N) (cond : ℕ)

def wait (c : Fin N) (time mux : ℕ) : Except Fault (Server N × Option (Fin N)) := do
  let s ← s.stallThread c
  let v ← at? s.conds cond
  SimMutex.unlock (s.setCond cond ⟨v.waiting ++ [⟨c, mux, time⟩]⟩) mux c

/-- Resumes a waiter that has left its queue and locks its mutex; returns whether it owns it. -/
def wake (w : CondWaiter N) : Except Fault (Server N × Bool) := do
  let s ← s.resumeThread w.core
  SimMutex.lock s w.mutex w.core

def signal : Except Fault (Server N × Option (Fin N)) := do
  let v ← at? s.conds cond
  match v.waiting with
  | [] => pure (s, none)
  | woken :: _ =>
    let (s, locked) ← wake (s.setCond cond ⟨eraseBegin v.waiting⟩) woken
    pure (s, if locked then some woken.core else none)

/-- The loop of `broadcast`; collects the cores that own their mutex. -/
def wakeAll : List (CondWaiter N) → Server N → List (Fin N) →
    Except Fault (Server N × List (Fin N))
  | [], s, woken => pure (s, woken)
  | w :: ws, s, woken => do
    let (s, locked) ← wake s w
    wakeAll ws s (if locked then woken ++ [w.core] else woken)

def broadcast : Except Fault (Server N × List (Fin N)) := do
  let v ← at? s.conds cond
  let (s, woken) ← wakeAll v.waiting s []
  pure (s.setCond cond ⟨[]⟩, woken)

end SimCond

/-! ## Barriers -/

namespace SimBarrier

/-- The loop over the woken cores. `resumed` has a bit for each tile that was resumed already. -/
def resumeWoken : List (Fin N) → List Bool → Server N → Except Fault (Server N)
  | [], _, s => pure s
  | c :: cs, resumed, s => do
    if ← at? resumed c then
      resumeWoken cs resumed s
    else
      let s ← s.resumeThread c
      resumeWoken cs (resumed.set c true) s

def wait (s : Server N) (barrier : ℕ) (c : Fin N) (time : ℕ) :
    Except Fault (Server N × List (Fin N)) := do
  let b ← at? s.barriers barrier
  let waiting := b.waiting ++ [c]
  let s ← s.stallThread c
  check (waiting.length ≤ b.count) .barrierOverfull
  let maxTime := if waiting.length = 1 then time else if time > b.maxTime then time else b.maxTime
  if waiting.length = b.count then
    let s ← resumeWoken waiting (List.replicate waiting.length false) s
    pure (s.setBarrier barrier ⟨b.count, [], maxTime⟩, waiting)
  else
    pure (s.setBarrier barrier ⟨b.count, waiting, maxTime⟩, [])

end SimBarrier

/-! ## The handlers of the server -/

namespace SyncServer

variable (s : Server N) (c : Fin N)

def notifyOwner (time : ℕ) : Option (Fin N) → Server N
  | some d => s.netSend d (.mutexLock time)
  | none => s

def mutexLock (mux time : ℕ) : Except Fault (Server N) := do
  check (mux < s.mutexes.length) .badMutex
  let (s, locked) ← SimMutex.lock s mux c
  pure (if locked then s.netSend c (.mutexLock time) else s)

def mutexUnlock (mux time : ℕ) : Except Fault (Server N) := do
  check (mux < s.mutexes.length) .badMutex
  let (s, newOwner) ← SimMutex.unlock s mux c
  pure ((notifyOwner s time newOwner).netSend c .mutexUnlock)

def condWait (cond mux time : ℕ) : Except Fault (Server N) := do
  check (mux < s.mutexes.length) .badMutex
  check (cond < s.conds.length) .badCond
  let (s, newOwner) ← SimCond.wait s cond c time mux
  pure (notifyOwner s time newOwner)

def condSignal (cond time : ℕ) : Except Fault (Server N) := do
  check (cond < s.conds.length) .badCond
  let (s, woken) ← SimCond.signal s cond
  pure ((notifyOwner s time woken).netSend c .condSignal)

def condBroadcast (cond time : ℕ) : Except Fault (Server N) := do
  check (cond < s.conds.length) .badCond
  let (s, woken) ← SimCond.broadcast s cond
  pure ((woken.foldl (fun s d => s.netSend d (.mutexLock time)) s).netSend c .condBroadcast)

def barrierWait (barrier time : ℕ) : Except Fault (Server N) := do
  check (barrier < s.barriers.length) .badBarrier
  let (s, woken) ← SimBarrier.wait s barrier c time
  let b ← at? s.barriers barrier
  pure (woken.foldl (fun s d => s.netSend d (.barrierWait b.maxTime)) s)

def handle : Request → Except Fault (Server N)
  | .mutexLock mux time => mutexLock s c mux time
  | .mutexUnlock mux time => mutexUnlock s c mux time
  | .condWait cond mux time => condWait s c cond mux time
  | .condSignal cond time => condSignal s c cond time
  | .condBroadcast cond time => condBroadcast s c cond time
  | .barrierWait barrier time => barrierWait s c barrier time

/-- Handles a request and takes the record of what happened. -/
def serve (r : Request) : Except Fault (Server N × List (Event N)) := do
  let s ← handle { s with out := [.request c r] } c r
  pure ({ s with out := [] }, s.out)

end SyncServer

end Graphite.Sync
