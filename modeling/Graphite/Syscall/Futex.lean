import Graphite.Sync.Threads

/-! # The futex server

The system call server of the MCP keeps a queue of cores for every address. A core that waits is
stalled in the thread table; a wake resumes cores from the front of a queue and answers them, and a
requeue moves them to another queue without an answer. In the middle of a request `Inv` knows the
queue of each core and the cores that are owed a reply.
-/

namespace Graphite.Futex

open Outcome Function List
open Sync (Threads)

/-- The error branches of the futex calls, and those of the thread manager. -/
inductive Fault
  | unhandledOp | unhandledCmp
  | threads (e : Sync.Fault)
  deriving DecidableEq, Repr

abbrev Addr := BitVec 64

/-- The memory of the application, as the server reads and writes it. -/
abbrev Memory := Addr → BitVec 8

/-- An `int` in memory. -/
def readInt (m : Memory) (addr : Addr) : BitVec 32 :=
  m (addr + 3) ++ m (addr + 2) ++ m (addr + 1) ++ m addr

def writeInt (m : Memory) (addr : Addr) (val : BitVec 32) : Memory :=
  update (update (update (update m
    addr (val.extractLsb' 0 8)) (addr + 1) (val.extractLsb' 8 8)) (addr + 2) (val.extractLsb' 16 8))
    (addr + 3) (val.extractLsb' 24 8)

/-- The futex calls with their arguments; `time` is the time of the caller. -/
inductive Request
  | wait (addr : Addr) (val : BitVec 32) (time : ℕ)
  | wake (addr : Addr) (val : BitVec 32) (time : ℕ)
  | wakeOp (addr₁ : Addr) (val₁ val₂ : BitVec 32) (addr₂ : Addr) (val₃ : BitVec 32) (time : ℕ)
  | cmpRequeue (addr₁ : Addr) (val₁ val₂ : BitVec 32) (addr₂ : Addr) (val₃ : BitVec 32) (time : ℕ)
  deriving DecidableEq, Repr

/-- A response carries the result of the call and a time. -/
inductive Event (N : ℕ)
  | request (c : Fin N) (r : Request)
  | reply (c : Fin N) (val : ℤ) (time : ℕ)
  | enqueued (addr : Addr) (c : Fin N)
  | dequeued (addr : Addr) (c : Fin N)
  deriving DecidableEq, Repr

variable {N : ℕ}

structure Server (N : ℕ) where
  futexes : Addr → List (Fin N)
  memory : Memory
  threads : Threads N
  out : List (Event N) := []

def liftThreads {α : Type} (x : Except Sync.Fault α) : Except Fault α := x.mapError .threads

namespace Server

variable (s : Server N)

def emit (e : Event N) : Server N := { s with out := s.out ++ [e] }

/-- `netSend` of a response. -/
def netSend (c : Fin N) (val : ℤ) (time : ℕ) : Server N := s.emit (.reply c val time)

def setQueue (addr : Addr) (q : List (Fin N)) : Server N :=
  { s with futexes := update s.futexes addr q }

end Server

namespace SimFutex

variable (s : Server N) (addr : Addr)

def enqueueWaiter (c : Fin N) : Except Fault (Server N) := do
  let T ← liftThreads (s.threads.stallThread c)
  pure (({ s with threads := T }.setQueue addr (s.futexes addr ++ [c])).emit (.enqueued addr c))

def dequeueWaiter : Except Fault (Server N × Option (Fin N)) :=
  match s.futexes addr with
  | [] => pure (s, none)
  | c :: q => do
    let T ← liftThreads (s.threads.resumeThread c)
    pure (({ s with threads := T }.setQueue addr q).emit (.dequeued addr c), some c)

end SimFutex

namespace SyscallServer

open SimFutex

variable (s : Server N) (c : Fin N)

def ewouldblock : ℤ := 11

/-- The number of iterations of a loop that counts up to an `int`. -/
def iterations (val : BitVec 32) : ℕ := val.toInt.toNat

/-- The loop of `__futexWake`; `woken` cores were woken up before. -/
def wakeLoop (addr : Addr) (time : ℕ) : ℕ → Server N → ℕ → Except Fault (Server N × ℕ)
  | 0, s, woken => pure (s, woken)
  | n + 1, s, woken => do
    let (s, waiter) ← dequeueWaiter s addr
    match waiter with
    | none => pure (s, woken)
    | some w => wakeLoop addr time n (s.netSend w 0 time) (woken + 1)

/-- `__futexWake`: returns the number of cores that were woken up. -/
def wakeUpTo (addr : Addr) (val : BitVec 32) (time : ℕ) : Except Fault (Server N × ℕ) :=
  wakeLoop addr time (iterations val) s 0

def futexWait (addr : Addr) (val : BitVec 32) (time : ℕ) : Except Fault (Server N) :=
  if val ≠ readInt s.memory addr then pure (s.netSend c (-ewouldblock) time)
  else enqueueWaiter s addr c

def futexWake (addr : Addr) (val : BitVec 32) (time : ℕ) : Except Fault (Server N) := do
  let (s, woken) ← wakeUpTo s addr val time
  pure (s.netSend c woken time)

/-- The new value of the second futex of a FUTEX_WAKE_OP. -/
def wakeOpValue (val₃ oldval : BitVec 32) : Except Fault (BitVec 32) :=
  let oparg := val₃.sshiftRight 12 &&& 0xfff
  match (val₃.sshiftRight 28 &&& 0xf).toNat with
  | 0 => pure oparg
  | 1 => pure (oldval + oparg)
  | 2 => pure (oldval ||| oparg)
  | 3 => pure (oldval &&& ~~~oparg)
  | 4 => pure (oldval ^^^ oparg)
  | _ => throw .unhandledOp

/-- Whether a FUTEX_WAKE_OP wakes up cores of the second futex. -/
def wakeOpCondition (val₃ oldval : BitVec 32) : Except Fault Bool :=
  let cmparg := val₃ &&& 0xfff
  match (val₃.sshiftRight 24 &&& 0xf).toNat with
  | 0 => pure (oldval == cmparg)
  | 1 => pure (oldval != cmparg)
  | 2 => pure (oldval.slt cmparg)
  | 3 => pure (oldval.sle cmparg)
  | 4 => pure (cmparg.slt oldval)
  | 5 => pure (cmparg.sle oldval)
  | _ => throw .unhandledCmp

def futexWakeOp (addr₁ : Addr) (val₁ val₂ : BitVec 32) (addr₂ : Addr) (val₃ : BitVec 32)
    (time : ℕ) : Except Fault (Server N) := do
  let oldval := readInt s.memory addr₂
  let newval ← wakeOpValue val₃ oldval
  let s := { s with memory := writeInt s.memory addr₂ newval }
  let (s, woken₁) ← wakeUpTo s addr₁ val₁ time
  let condition ← wakeOpCondition val₃ oldval
  let (s, woken₂) ← if condition then wakeUpTo s addr₂ val₂ time else pure (s, 0)
  pure (s.netSend c (woken₁ + woken₂ : ℕ) time)

/-- The loop that moves cores from one queue to another; returns how many were moved. -/
def requeueLoop (addr₁ addr₂ : Addr) : ℕ → Server N → ℕ → Except Fault (Server N × ℕ)
  | 0, s, moved => pure (s, moved)
  | n + 1, s, moved => do
    let (s, waiter) ← dequeueWaiter s addr₁
    match waiter with
    | none => pure (s, moved)
    | some w =>
      let s ← enqueueWaiter s addr₂ w
      requeueLoop addr₁ addr₂ n s (moved + 1)

def futexCmpRequeue (addr₁ : Addr) (val₁ val₂ : BitVec 32) (addr₂ : Addr) (val₃ : BitVec 32)
    (time : ℕ) : Except Fault (Server N) := do
  if val₃ ≠ readInt s.memory addr₁ then
    pure (s.netSend c (-ewouldblock) time)
  else
    let (s, woken) ← wakeUpTo s addr₁ val₁ time
    let (s, count) ← requeueLoop addr₁ addr₂ (iterations val₂) s woken
    pure (s.netSend c count time)

def handle : Request → Except Fault (Server N)
  | .wait addr val time => futexWait s c addr val time
  | .wake addr val time => futexWake s c addr val time
  | .wakeOp addr₁ val₁ val₂ addr₂ val₃ time => futexWakeOp s c addr₁ val₁ val₂ addr₂ val₃ time
  | .cmpRequeue addr₁ val₁ val₂ addr₂ val₃ time =>
    futexCmpRequeue s c addr₁ val₁ val₂ addr₂ val₃ time

/-- Handles a request and takes the record of what happened. -/
def serve (r : Request) : Except Fault (Server N × List (Event N)) := do
  let s ← handle { s with out := [.request c r] } c r
  pure ({ s with out := [] }, s.out)

end SyscallServer

/-- The server, and for each core whether it waits for a response. -/
structure State (N : ℕ) where
  server : Server N
  pending : Fin N → Bool

/-- A futex call of a core, or a store of the application. -/
inductive Action (N : ℕ)
  | request (c : Fin N) (r : Request)
  | store (addr : Addr) (byte : BitVec 8)

def replied (out : List (Event N)) (c : Fin N) : Bool :=
  out.any fun e => match e with
    | .reply d _ _ => d = c
    | _ => false

/-- A run starts with empty queues and one running thread on each core. A core waits for the
response to a request before it sends the next one. -/
def futexes (N : ℕ) : System (State N) (Action N) Fault (Event N) where
  init s := s.server.out = [] ∧ (∀ addr, s.server.futexes addr = []) ∧
    (∀ c, s.server.threads.Row c .running) ∧ ∀ c, s.pending c = false
  enabled s
    | .request c _ => s.pending c = false
    | .store _ _ => True
  step s
    | .request c r => do
      let (server, out) ← SyscallServer.serve s.server c r
      pure (⟨server, fun d => (s.pending d || d = c) && !replied out d⟩, out)
    | .store addr byte =>
      pure ({ s with server := { s.server with
        memory := update s.server.memory addr byte } }, [])

instance (s : State N) : DecidablePred ((futexes N).enabled s)
  | .request c _ => inferInstanceAs (Decidable (s.pending c = false))
  | .store _ _ => .isTrue trivial

/-! ## Histories -/

def requester : Event N → Option (Fin N)
  | .request c _ => some c
  | _ => none

def receiver : Event N → Option (Fin N)
  | .reply c _ _ => some c
  | _ => none

def enqueuedOn (addr : Addr) : Event N → Option (Fin N)
  | .enqueued a c => if a = addr then some c else none
  | _ => none

def dequeuedOn (addr : Addr) : Event N → Option (Fin N)
  | .dequeued a c => if a = addr then some c else none
  | _ => none

def requests (log : List (Event N)) (c : Fin N) : ℕ := (log.filterMap requester).count c

def replies (log : List (Event N)) (c : Fin N) : ℕ := (log.filterMap receiver).count c

/-! ## The invariant -/

/-- The server in the middle of a run with history `tr`, after the requests of `asked`. The place of
`c` is the address whose queue `c` is in; `owed` are the cores with a request that is neither in a
queue nor answered. -/
structure Inv (tr : List (Event N)) (asked : List (Fin N)) (s : Server N)
    (place : Fin N → Option Addr) (owed : List (Fin N)) : Prop where
  seat : ∀ addr c, (s.futexes addr).count c = if place c = some addr then 1 else 0
  row : ∀ c, s.threads.Row c (if place c = none then .running else .stalled)
  order : ∀ addr, (tr ++ s.out).filterMap (enqueuedOn addr) =
    (tr ++ s.out).filterMap (dequeuedOn addr) ++ s.futexes addr
  answered : ∀ c, requests (tr ++ s.out) c =
    replies (tr ++ s.out) c + (if place c = none then 0 else 1) + owed.count c
  asked : s.out.filterMap requester = asked

section Operations

variable {tr : List (Event N)} {asked : List (Fin N)} {s : Server N} {place : Fin N → Option Addr}
  {owed : List (Fin N)} {addr : Addr} {c : Fin N} {time : ℕ}

theorem sat_liftThreads {α : Type} {x : Except Sync.Fault α} {Q : α → Prop}
    (h : Returns x Q) : Returns (liftThreads x) Q := by
  cases x with
  | ok a => exact h
  | error e => exact h.elim

theorem filterMap_concat {β : Type} (f : Event N → Option β) (log : List (Event N)) (e : Event N) :
    (log ++ [e]).filterMap f = log.filterMap f ++ (f e).toList := by
  cases he : f e <;> simp [he]

theorem requests_concat (e : Event N) (log : List (Event N)) :
    requests (log ++ [e]) c = requests log c + if requester e = some c then 1 else 0 := by
  cases he : requester e <;> simp [requests, he, count_singleton]

theorem replies_concat (e : Event N) (log : List (Event N)) :
    replies (log ++ [e]) c = replies log c + if receiver e = some c then 1 else 0 := by
  cases he : receiver e <;> simp [replies, he, count_singleton]

theorem Inv.reply {val : ℤ} (h : Inv tr asked s place (c :: owed)) :
    Inv tr asked (s.netSend c val time) place owed where
  seat := h.seat
  row := h.row
  order a := by
    simp only [Server.netSend, Server.emit]
    rw [← append_assoc, filterMap_concat, filterMap_concat, h.order a]
    simp [enqueuedOn, dequeuedOn]
  answered d := by
    have := h.answered d
    simp only [Server.netSend, Server.emit]
    rw [← append_assoc, requests_concat, replies_concat]
    simp only [count_cons, beq_iff_eq] at this
    simp only [requester, receiver, Option.some.injEq, reduceCtorEq, if_false]
    omega
  asked := by
    simp only [Server.netSend, Server.emit]
    rw [filterMap_concat, h.asked]
    simp [requester]

theorem Inv.enqueue (h : Inv tr asked s place (c :: owed)) (hc : place c = none) :
    Returns (SimFutex.enqueueWaiter s addr c) fun s' =>
      s'.out = s.out ++ [.enqueued addr c] ∧
      s'.futexes = update s.futexes addr (s.futexes addr ++ [c]) ∧
      Inv tr asked s' (update place c (some addr)) owed := by
  have hrow := h.row c
  rw [if_pos hc] at hrow
  refine (sat_liftThreads (Threads.stallThread_sat hrow)).bind fun T ⟨hT, hsame⟩ => ?_
  refine ⟨rfl, rfl, fun a d => ?_, fun d => ?_, fun a => ?_, fun d => ?_, ?_⟩
  · have hseat := h.seat a d
    simp only [Server.emit, Server.setQueue]
    rcases eq_or_ne d c with rfl | hd
    · rw [hc] at hseat
      rcases eq_or_ne a addr with rfl | ha
      · simp_all
      · simp_all [ha.symm]
    · rcases eq_or_ne a addr with rfl | ha
      · simpa [hd, count_singleton, hd.symm] using hseat
      · simpa [hd, ha] using hseat
  · rcases eq_or_ne d c with rfl | hd
    · rw [update_self]
      exact hT
    · rw [update_of_ne hd]
      exact hsame.row hd (h.row d)
  · simp only [Server.emit, Server.setQueue]
    rw [← append_assoc, filterMap_concat, filterMap_concat, h.order a]
    rcases eq_or_ne a addr with rfl | ha
    · simp [enqueuedOn, dequeuedOn]
    · simp [enqueuedOn, dequeuedOn, ha, ha.symm]
  · have hans := h.answered d
    simp only [Server.emit, Server.setQueue]
    rw [← append_assoc, requests_concat, replies_concat]
    rcases eq_or_ne d c with rfl | hd
    · simp [hc, requester, receiver] at hans ⊢
      omega
    · simpa [requester, receiver, hd, hd.symm, count_cons] using hans
  · simp only [Server.emit, Server.setQueue]
    rw [filterMap_concat, h.asked]
    simp [requester]

theorem Inv.dequeue (h : Inv tr asked s place owed) :
    Returns (SimFutex.dequeueWaiter s addr) fun r =>
      match r.2 with
      | none => r.1 = s ∧ s.futexes addr = []
      | some w => r.1.out = s.out ++ [.dequeued addr w] ∧ place w = some addr ∧
        (∃ q, s.futexes addr = w :: q ∧ r.1.futexes = update s.futexes addr q) ∧
        Inv tr asked r.1 (update place w none) (w :: owed) := by
  unfold SimFutex.dequeueWaiter
  split
  · next hq => exact ⟨rfl, hq⟩
  · next w q hq =>
    have hplace : place w = some addr := by
      have := h.seat addr w
      by_contra hne
      simp [hq, hne] at this
    have hrow := h.row w
    rw [hplace, if_neg (by simp)] at hrow
    refine (sat_liftThreads (Threads.resumeThread_sat hrow)).bind fun T ⟨hT, hsame⟩ => ?_
    refine ⟨rfl, hplace, ⟨q, hq, rfl⟩, fun a d => ?_, fun d => ?_, fun a => ?_, fun d => ?_, ?_⟩
    · have hseat := h.seat a d
      simp only [Server.emit, Server.setQueue]
      rcases eq_or_ne a addr with rfl | ha
      · rw [hq] at hseat
        rcases eq_or_ne d w with rfl | hd
        · simpa [hplace] using hseat
        · simpa [hd, count_cons, hd.symm] using hseat
      · rcases eq_or_ne d w with rfl | hd
        · simpa [hplace, ha, ha.symm] using hseat
        · simpa [hd, ha] using hseat
    · rcases eq_or_ne d w with rfl | hd
      · rw [update_self]
        exact hT
      · rw [update_of_ne hd]
        exact hsame.row hd (h.row d)
    · have horder := h.order a
      simp only [Server.emit, Server.setQueue]
      rw [← append_assoc, filterMap_concat, filterMap_concat, horder]
      rcases eq_or_ne a addr with rfl | ha
      · simp [enqueuedOn, dequeuedOn, hq]
      · simp [enqueuedOn, dequeuedOn, ha, ha.symm]
    · have hans := h.answered d
      simp only [Server.emit, Server.setQueue]
      rw [← append_assoc, requests_concat, replies_concat]
      rcases eq_or_ne d w with rfl | hd
      · simp [hplace, requester, receiver] at hans ⊢
        omega
      · simpa [requester, receiver, hd, hd.symm, count_cons] using hans
    · simp only [Server.emit, Server.setQueue]
      rw [filterMap_concat, h.asked]
      simp [requester]

end Operations

/-! ## The requests -/

section Requests

open SyscallServer

variable {tr : List (Event N)} {asked : List (Fin N)} {s : Server N} {place : Fin N → Option Addr}
  {owed : List (Fin N)} {addr addr₂ : Addr} {c : Fin N} {time : ℕ}

/-- What a wake shows of the cores that it wakes up. -/
def woken (addr : Addr) (time : ℕ) (q : List (Fin N)) : List (Event N) :=
  q.flatMap fun w => [.dequeued addr w, .reply w 0 time]

/-- The `k` cores in front of the queue of `addr` are woken up, and nothing else changes. -/
structure Woke (addr : Addr) (time k : ℕ) (s s' : Server N) : Prop where
  out : s'.out = s.out ++ woken addr time ((s.futexes addr).take k)
  queue : s'.futexes = update s.futexes addr ((s.futexes addr).drop k)

theorem Woke.refl : Woke addr time 0 s s where
  out := by simp [woken]
  queue := by simp

theorem Inv.wakeLoop (h : Inv tr asked s place owed) (n m : ℕ) :
    Returns (wakeLoop addr time n s m) fun r =>
      r.2 = m + min n (s.futexes addr).length ∧
      Woke addr time (min n (s.futexes addr).length) s r.1 ∧
      ∃ place', (∀ d, place d = none → place' d = none) ∧ Inv tr asked r.1 place' owed := by
  induction n generalizing s place m with
  | zero =>
    rw [Nat.zero_min]
    exact ⟨rfl, .refl, place, fun _ => id, h⟩
  | succ n ih =>
    refine h.dequeue.bind fun ⟨s₁, waiter⟩ hr => ?_
    cases waiter with
    | none =>
      obtain ⟨rfl, hq⟩ := hr
      rw [hq, length_nil, Nat.min_zero]
      exact ⟨rfl, .refl, place, fun _ => id, h⟩
    | some w =>
      obtain ⟨hout, -, ⟨q, hq, hfut⟩, hinv⟩ := hr
      dsimp only at hout hfut hinv
      -- after the reply the queue is the rest `q`
      have hq₁ : (s₁.netSend w 0 time).futexes addr = q := by
        simp [Server.netSend, Server.emit, hfut]
      refine (ih hinv.reply (m + 1)).mono fun r ⟨hm, hwoke, place', hplace, hinv'⟩ => ?_
      rw [hq₁] at hm hwoke
      have hk : min (n + 1) (s.futexes addr).length = min n q.length + 1 := by
        rw [hq, length_cons, Nat.add_min_add_right]
      rw [hk]
      refine ⟨by omega, ⟨?_, ?_⟩, place', fun d hd => hplace d ?_, hinv'⟩
      · rw [hwoke.out, hq₁, hq]
        simp [Server.netSend, Server.emit, hout, woken]
      · rw [hwoke.queue, hq₁, hq]
        simp [Server.netSend, Server.emit, hfut]
      · rcases eq_or_ne d w with rfl | hdw
        · exact update_self ..
        · rw [update_of_ne hdw]
          exact hd

/-- What a requeue shows of the cores that it moves. -/
def moved (addr addr₂ : Addr) (q : List (Fin N)) : List (Event N) :=
  q.flatMap fun w => [.dequeued addr w, .enqueued addr₂ w]

/-- The queues with some more cores at the back of the queue of `addr`. -/
def appendTo (addr : Addr) (q : List (Fin N)) (futexes : Addr → List (Fin N)) : Addr → List (Fin N) :=
  update futexes addr (futexes addr ++ q)

/-- The `k` cores in front of the queue of `addr` are moved to the back of the queue of `addr₂`. -/
structure Moved (addr addr₂ : Addr) (k : ℕ) (s s' : Server N) : Prop where
  out : s'.out = s.out ++ moved addr addr₂ ((s.futexes addr).take k)
  queue : s'.futexes = appendTo addr₂ ((s.futexes addr).take k)
    (update s.futexes addr ((s.futexes addr).drop k))

theorem Moved.refl : Moved addr addr₂ 0 s s where
  out := by simp [moved]
  queue := by simp [appendTo]

/-- One core is moved, and then `k` more. In one and the same queue there must be as many. -/
theorem Moved.cons {w : Fin N} {q : List (Fin N)} {k : ℕ} {s₁ s' : Server N}
    (hq : s.futexes addr = w :: q) (hk : k ≤ q.length)
    (hout : s₁.out = s.out ++ [.dequeued addr w, .enqueued addr₂ w])
    (hqueue : s₁.futexes = appendTo addr₂ [w] (update s.futexes addr q))
    (h : Moved addr addr₂ k s₁ s') : Moved addr addr₂ (k + 1) s s' := by
  rcases eq_or_ne addr addr₂ with rfl | hne
  · have hq₁ : s₁.futexes addr = q ++ [w] := by simp [hqueue, appendTo]
    refine ⟨?_, ?_⟩
    · rw [h.out, hq₁, take_append_of_le_length hk, hout, hq]
      simp [moved]
    · rw [h.queue, hq₁, take_append_of_le_length hk, drop_append_of_le_length hk, hqueue, hq]
      simp [appendTo]
  · have hq₁ : s₁.futexes addr = q := by simp [hqueue, appendTo, hne]
    refine ⟨?_, ?_⟩
    · rw [h.out, hq₁, hout, hq]
      simp [moved]
    · rw [h.queue, hq₁, hqueue, hq]
      funext a
      rcases eq_or_ne a addr₂ with rfl | ha
      · simp [appendTo, hne.symm]
      · rcases eq_or_ne a addr with rfl | ha'
        · simp [appendTo, ha]
        · simp [appendTo, ha, ha']

/-- A requeue moves cores from one place to another. With one and the same queue it has to end
before it comes to a core that it has moved, or it moves as many as it may. -/
theorem Inv.requeueLoop (h : Inv tr asked s place owed) (n m : ℕ) :
    Returns (requeueLoop addr addr₂ n s m) fun r =>
      (∃ place', (∀ d, place d = none → place' d = none) ∧ Inv tr asked r.1 place' owed) ∧
      ((addr = addr₂ → n ≤ (s.futexes addr).length ∨ s.futexes addr = []) →
        r.2 = m + min n (s.futexes addr).length ∧
        Moved addr addr₂ (min n (s.futexes addr).length) s r.1) ∧
      (addr = addr₂ → s.futexes addr ≠ [] → r.2 = m + n) := by
  induction n generalizing s place m with
  | zero =>
    rw [Nat.zero_min]
    exact ⟨⟨place, fun _ => id, h⟩, fun _ => ⟨rfl, .refl⟩, fun _ _ => rfl⟩
  | succ n ih =>
    refine h.dequeue.bind fun ⟨s₁, waiter⟩ hr => ?_
    cases waiter with
    | none =>
      obtain ⟨rfl, hq⟩ := hr
      rw [hq, length_nil, Nat.min_zero]
      exact ⟨⟨place, fun _ => id, h⟩, fun _ => ⟨rfl, .refl⟩, fun _ hne => absurd rfl hne⟩
    | some w =>
      obtain ⟨hout, hw, ⟨q, hq, hfut⟩, hinv⟩ := hr
      dsimp only at hout hfut hinv
      refine (hinv.enqueue (update_self ..)).bind fun s₂ ⟨hout₂, hfut₂, hinv₂⟩ => ?_
      have hqueue : s₂.futexes = appendTo addr₂ [w] (update s.futexes addr q) := by
        rw [hfut₂, hfut]
        rfl
      refine (ih hinv₂ (m + 1)).mono fun r ⟨⟨place', hplace, hinv'⟩, hmoved, hall⟩ => ?_
      refine ⟨⟨place', fun d hd => ?_, hinv'⟩, fun hcond => ?_, fun heq _ => ?_⟩
      · have hdw : d ≠ w := by
          rintro rfl
          rw [hw] at hd
          cases hd
        exact hplace d (by simpa [hdw] using hd)
      · have hk : min (n + 1) (s.futexes addr).length = min n q.length + 1 := by
          rw [hq, length_cons, Nat.add_min_add_right]
        have hle : addr = addr₂ → n ≤ q.length := by simpa [hq] using hcond
        -- the queue that is left, with the core that was moved if it is the same queue
        have hrest : (s₂.futexes addr).length = q.length + if addr = addr₂ then 1 else 0 := by
          rw [hqueue, appendTo]
          split
          · next heq => simp [heq]
          · next hne => simp [hne]
        have hmin : min n (s₂.futexes addr).length = min n q.length := by
          rw [hrest]
          split
          · next heq =>
            have := hle heq
            omega
          · rfl
        obtain ⟨hm, hmv⟩ := hmoved fun heq => by
          have := hle heq
          omega
        rw [hmin] at hm hmv
        rw [hk]
        refine ⟨by omega, .cons hq (Nat.min_le_right ..) ?_ hqueue hmv⟩
        rw [hout₂, hout]
        simp
      · subst heq
        rw [hall rfl (by simp [hqueue, appendTo])]
        omega

/-- The error branches that a FUTEX_WAKE_OP can reach. -/
def Unhandled (e : Fault) : Prop := e = .unhandledOp ∨ e = .unhandledCmp

theorem wakeOpValue_sat (val₃ oldval : BitVec 32) :
    Sat (wakeOpValue val₃ oldval) Unhandled fun _ => True := by
  unfold wakeOpValue
  split <;> simp [Unhandled]

theorem wakeOpCondition_sat (val₃ oldval : BitVec 32) :
    Sat (wakeOpCondition val₃ oldval) Unhandled fun _ => True := by
  unfold wakeOpCondition
  split <;> simp [Unhandled]

theorem Inv.setMemory (h : Inv tr asked s place owed) (m : Memory) :
    Inv tr asked { s with memory := m } place owed := ⟨h.seat, h.row, h.order, h.answered, h.asked⟩

theorem Inv.handle (h : Inv tr asked s place [c]) (hc : place c = none) (r : Request) :
    Sat (handle s c r) Unhandled fun s' => ∃ place', Inv tr asked s' place' [] := by
  have hno : ∀ e, False → Unhandled e := fun _ => False.elim
  cases r with
  | wait addr val time =>
    simp only [SyscallServer.handle, futexWait]
    split
    · exact ⟨place, h.reply⟩
    · exact (h.enqueue hc).imp hno fun s' hs => ⟨_, hs.2.2⟩
  | wake addr val time =>
    refine ((h.wakeLoop _ _).imp hno fun _ => id).bind fun r ⟨_, _, place', _, hinv⟩ => ?_
    exact ⟨place', hinv.reply⟩
  | wakeOp addr₁ val₁ val₂ addr₂ val₃ time =>
    refine (wakeOpValue_sat _ _).bind fun newval _ => ?_
    refine (((h.setMemory _).wakeLoop _ _).imp hno fun _ => id).bind
      fun r ⟨_, _, place₁, _, h₁⟩ => ?_
    refine (wakeOpCondition_sat _ _).bind fun condition _ => ?_
    cases condition with
    | false => exact ⟨place₁, h₁.reply⟩
    | true =>
      refine ((h₁.wakeLoop _ _).imp hno fun _ => id).bind fun r ⟨_, _, place₂, _, h₂⟩ => ?_
      exact ⟨place₂, h₂.reply⟩
  | cmpRequeue addr₁ val₁ val₂ addr₂ val₃ time =>
    simp only [SyscallServer.handle, futexCmpRequeue]
    split
    · exact ⟨place, h.reply⟩
    · refine ((h.wakeLoop _ _).imp hno fun _ => id).bind fun r ⟨_, _, place₁, _, h₁⟩ => ?_
      refine ((h₁.requeueLoop _ _).imp hno fun _ => id).bind fun r ⟨⟨place₂, _, h₂⟩, _⟩ => ?_
      exact ⟨place₂, h₂.reply⟩

theorem Inv.request (h : Inv tr [] s place []) (hout : s.out = []) (r : Request) :
    Inv tr [c] { s with out := [.request c r] } place [c] where
  seat := h.seat
  row := h.row
  order a := by
    have := h.order a
    rw [hout, append_nil] at this
    rw [filterMap_concat, filterMap_concat, this]
    simp [enqueuedOn, dequeuedOn]
  answered d := by
    have := h.answered d
    rw [hout, append_nil, count_nil] at this
    rw [requests_concat, replies_concat, count_singleton]
    simp only [requester, receiver, Option.some.injEq, reduceCtorEq, if_false, beq_iff_eq]
    omega
  asked := rfl

theorem Inv.commit (h : Inv tr asked s place []) :
    Inv (tr ++ s.out) [] { s with out := [] } place [] where
  seat := h.seat
  row := h.row
  order a := by
    rw [append_nil]
    exact h.order a
  answered d := by
    rw [append_nil]
    exact h.answered d
  asked := rfl

section

variable (h : Inv tr [] s place []) (hout : s.out = [])
include h hout

theorem Inv.serve (hc : place c = none) (r : Request) :
    Sat (serve s c r) Unhandled fun x => x.1.out = [] ∧ x.2.filterMap requester = [c] ∧
      ∃ place', Inv (tr ++ x.2) [] x.1 place' [] :=
  ((h.request hout r).handle hc r).bind fun _ ⟨place', hinv⟩ =>
    ⟨rfl, hinv.asked, place', hinv.commit⟩

theorem serve_wake (c : Fin N) (addr : Addr) (val : BitVec 32) (time : ℕ) :
    ∃ s' k, k = min (iterations val) (s.futexes addr).length ∧
      serve s c (.wake addr val time) = .ok (s', .request c (.wake addr val time) ::
        woken addr time ((s.futexes addr).take k) ++ [.reply c k time]) ∧
      s'.futexes = update s.futexes addr ((s.futexes addr).drop k) := by
  have hloop : Returns (SyscallServer.wakeLoop addr time (iterations val)
      { s with out := [.request c (.wake addr val time)] } 0) _ :=
    (h.request hout (.wake addr val time)).wakeLoop _ _
  obtain ⟨⟨s₁, k⟩, hx, hk, hwoke, -⟩ := hloop.exists_ok
  dsimp only at hk hwoke
  rw [Nat.zero_add] at hk
  rw [← hk] at hwoke
  refine ⟨{ s₁.netSend c k time with out := [] }, k, hk, ?_, hwoke.queue⟩
  simp only [serve, handle, futexWake, wakeUpTo, hx, ok_bind, pure_eq_ok, Server.netSend, Server.emit,
    hwoke.out]
  rfl

theorem serve_cmpRequeue (c : Fin N) (addr addr₂ : Addr) (val₁ val₂ : BitVec 32) (time : ℕ) :
    ∃ s' out k m, k = min (iterations val₁) (s.futexes addr).length ∧
      m = min (iterations val₂) ((s.futexes addr).length - k) ∧
      serve s c (.cmpRequeue addr val₁ val₂ addr₂ (readInt s.memory addr) time) = .ok (s', out) ∧
      ((addr = addr₂ → iterations val₂ ≤ (s.futexes addr).length - iterations val₁ ∨
          (s.futexes addr).length ≤ iterations val₁) →
        out = .request c (.cmpRequeue addr val₁ val₂ addr₂ (readInt s.memory addr) time) ::
          woken addr time ((s.futexes addr).take k) ++
          moved addr addr₂ (((s.futexes addr).drop k).take m) ++ [.reply c (k + m : ℕ) time] ∧
        s'.futexes = appendTo addr₂ (((s.futexes addr).drop k).take m)
          (update s.futexes addr (((s.futexes addr).drop k).drop m))) ∧
      (addr = addr₂ → iterations val₁ < (s.futexes addr).length →
        ∃ pre, out = pre ++ [.reply c (k + iterations val₂ : ℕ) time]) := by
  generalize hr : Request.cmpRequeue addr val₁ val₂ addr₂ (readInt s.memory addr) time = r
  have hwake : Returns (SyscallServer.wakeLoop addr time (iterations val₁)
      { s with out := [.request c r] } 0) _ := (h.request hout r).wakeLoop _ _
  obtain ⟨⟨s₁, k⟩, hx, hk, hwoke, place₁, -, h₁⟩ := hwake.exists_ok
  dsimp only at hk hwoke h₁
  rw [Nat.zero_add] at hk
  rw [← hk] at hwoke
  have hq₁ : s₁.futexes addr = (s.futexes addr).drop k := by
    rw [hwoke.queue, update_self]
  have hlen : (s₁.futexes addr).length = (s.futexes addr).length - k := by
    rw [hq₁, length_drop]
  have hrequeue : Returns (requeueLoop addr addr₂ (iterations val₂) s₁ k) _ :=
    h₁.requeueLoop _ _
  obtain ⟨⟨s₂, count⟩, hy, -, hmoved, hall⟩ := hrequeue.exists_ok
  dsimp only at hmoved hall
  generalize hm : min (iterations val₂) (s₁.futexes addr).length = m at hmoved
  rw [hlen] at hm
  subst hr
  refine ⟨{ s₂.netSend c count time with out := [] }, s₂.out ++ [.reply c count time], k, m, hk, hm.symm,
    ?_, fun hcond => ?_, fun heq hlt => ?_⟩
  · simp only [serve, handle, futexCmpRequeue, wakeUpTo, ne_eq, not_true_eq_false, if_false, hx, ok_bind,
      hy, pure_eq_ok, Server.netSend, Server.emit]
  · obtain ⟨hcount, hmv⟩ := hmoved fun heq => by
      rw [← length_eq_zero_iff, hlen]
      have := hcond heq
      omega
    constructor
    · simp [hmv.out, hwoke.out, hq₁, hcount]
    · simp only [Server.netSend, Server.emit, hmv.queue, hq₁, hwoke.queue, update_idem]
  · have hne : s₁.futexes addr ≠ [] := by
      rw [← length_pos_iff, hlen]
      omega
    exact ⟨s₂.out, by rw [hall heq hne]⟩

end

end Requests

/-! ## Runs -/

section Runs

variable {tr : List (Event N)} {s : State N} {out : List (Event N)} {server : Server N}

def RunInv (tr : List (Event N)) (s : State N) : Prop :=
  s.server.out = [] ∧ ∃ place, Inv tr [] s.server place [] ∧
    ∀ c, s.pending c = true ↔ place c ≠ none

theorem replies_append (l₁ l₂ : List (Event N)) (c : Fin N) :
    replies (l₁ ++ l₂) c = replies l₁ c + replies l₂ c := by
  simp [replies]

theorem requests_append (l₁ l₂ : List (Event N)) (c : Fin N) :
    requests (l₁ ++ l₂) c = requests l₁ c + requests l₂ c := by
  simp [requests]

theorem replied_iff (out : List (Event N)) (c : Fin N) : replied out c = true ↔ 0 < replies out c := by
  rw [replies, count_pos_iff, mem_filterMap, replied, any_eq_true]
  refine exists_congr fun e => and_congr_right fun _ => ?_
  cases e <;> simp [receiver]

/-- A request of `c` is answered, put into a queue, or left in one, for each core once. -/
theorem Inv.pending {c : Fin N}
    {place place' : Fin N → Option Addr} (h : Inv tr [] s.server place []) (hs : s.server.out = [])
    (hp : ∀ c, s.pending c = true ↔ place c ≠ none) (hc : s.pending c = false)
    (h' : Inv (tr ++ out) [] server place' []) (hs' : server.out = [])
    (hreq : out.filterMap requester = [c]) (d : Fin N) :
    ((s.pending d || d = c) && !replied out d) = true ↔ place' d ≠ none := by
  have hbefore := h.answered d
  have hafter := h'.answered d
  have hd : requests out d = if c = d then 1 else 0 := by
    simp [requests, hreq, count_singleton]
  rw [hs, append_nil, count_nil] at hbefore
  rw [hs', append_nil, requests_append, replies_append, count_nil, hd] at hafter
  have hcn : place c = none := by
    have := hp c
    simpa [hc] using this
  rw [Bool.and_eq_true, Bool.or_eq_true, hp, decide_eq_true_eq, Bool.not_eq_true', ← Bool.not_eq_true,
    replied_iff]
  grind

theorem runInv_init (s : State N) (hs : (futexes N).init s) : RunInv [] s := by
  obtain ⟨hout, hempty, hrow, hpending⟩ := hs
  refine ⟨hout, fun _ => none, ⟨fun addr c => ?_, fun c => ?_, fun addr => ?_, fun c => ?_, ?_⟩, ?_⟩
  · simp [hempty]
  · simpa using hrow c
  · simp [hout, hempty]
  · simp [hout, requests, replies]
  · simp [hout]
  · simp [hpending]

theorem runInv_step (h : RunInv tr s) (a : Action N) (ha : (futexes N).enabled s a) :
    Sat ((futexes N).step s a) Unhandled fun r => RunInv (tr ++ r.2) r.1 := by
  obtain ⟨hout, place, hinv, hp⟩ := h
  cases a with
  | request c r =>
    have hc : place c = none := by
      have := hp c
      rw [show s.pending c = false from ha] at this
      simpa using this
    refine (hinv.serve hout hc r).bind fun ⟨server, out⟩ ⟨hout', hreq, place', hinv'⟩ => ?_
    exact ⟨hout', place', hinv', hinv.pending hout hp ha hinv' hout' hreq⟩
  | store addr byte =>
    rw [show (futexes N).step s (.store addr byte) = .ok (_, []) from rfl, sat_ok, append_nil]
    exact ⟨hout, place, hinv.setMemory _, hp⟩

theorem step_request {c : Fin N} {r : Request}
    (h : SyscallServer.serve s.server c r = .ok (server, out)) :
    (futexes N).step s (.request c r) =
      .ok (⟨server, fun d => (s.pending d || d = c) && !replied out d⟩, out) := by
  simp only [futexes, h, ok_bind, pure_eq_ok]

/-- The queues of the server, the cores that wait and the thread table agree. -/
structure Queued (tr : List (Event N)) (s : State N) : Prop where
  /-- A core that waits for a response is in one queue, once, and no other core is in a queue. -/
  once : ∀ c, s.pending c = true ↔ ∃! addr, c ∈ s.server.futexes addr
  count : ∀ c addr, c ∈ s.server.futexes addr → s.pending c = true ∧ (s.server.futexes addr).count c = 1
  stalled : ∀ c, s.server.threads.isCoreStalled c = true ↔ s.pending c = true
  order : ∀ addr, tr.filterMap (enqueuedOn addr) =
    tr.filterMap (dequeuedOn addr) ++ s.server.futexes addr
  answered : ∀ c, requests tr c = replies tr c + if s.pending c then 1 else 0

theorem RunInv.queued (h : RunInv tr s) : Queued tr s := by
  obtain ⟨hout, place, hinv, hp⟩ := h
  have hmem : ∀ c addr, c ∈ s.server.futexes addr ↔ place c = some addr := by
    intro c addr
    rw [← count_pos_iff, hinv.seat]
    split <;> simp [*]
  refine ⟨fun c => ?_, fun c addr hc => ?_, fun c => ?_, fun addr => ?_, fun c => ?_⟩
  · simp only [hp, hmem]
    cases place c <;> simp [ExistsUnique]
  · rw [hmem] at hc
    exact ⟨(hp c).mpr (by simp [hc]), by rw [hinv.seat, if_pos hc]⟩
  · rw [Threads.isCoreStalled_row (hinv.row c) (by split <;> simp), hp]
    split <;> simp [*]
  · have := hinv.order addr
    rwa [hout, append_nil] at this
  · have := hinv.answered c
    rw [hout, append_nil, count_nil, Nat.add_zero] at this
    rw [this]
    by_cases hc : place c = none
    · have : s.pending c = false := by
        rw [← Bool.not_eq_true, hp]
        exact not_not.mpr hc
      simp [hc, this]
    · simp [hc, (hp c).mpr hc]

/-- A request ends in an error branch only for an operation or a comparison that FUTEX_WAKE_OP does
not have. Otherwise every core that waits is stalled in one queue, and every other request is
answered. A wake of `val` answers the first `val` cores of the queue (none if `val` is negative), or
all if there are fewer, and reports how many. -/
theorem futex_server (N : ℕ) :
    (∀ e, (futexes N).Fails (fun _ => True) e → e = .unhandledOp ∨ e = .unhandledCmp) ∧
      ∀ tr s, (futexes N).Run (fun _ => True) tr s → Queued tr s ∧
        ∀ c addr val time, s.pending c = false → ∃ s' k,
          k = min val.toInt.toNat (s.server.futexes addr).length ∧
          (futexes N).step s (.request c (.wake addr val time)) =
            .ok (s', .request c (.wake addr val time) ::
              woken addr time ((s.server.futexes addr).take k) ++ [.reply c k time]) ∧
          s'.server.futexes =
            Function.update s.server.futexes addr ((s.server.futexes addr).drop k) := by
  have hstep : ∀ tr s a, RunInv tr s → True → (futexes N).enabled s a →
      Sat ((futexes N).step s a) Unhandled fun r => RunInv (tr ++ r.2) r.1 :=
    fun tr s a h _ ha => runInv_step h a ha
  refine ⟨fun e he => he.allowed runInv_init hstep, fun tr s hrun => ?_⟩
  have hinv : RunInv tr s := hrun.invariant runInv_init hstep
  refine ⟨hinv.queued, fun c addr val time _ => ?_⟩
  obtain ⟨hout, place, hinv, -⟩ := hinv
  obtain ⟨server, k, hk, hserve, hqueue⟩ := serve_wake hinv hout c addr val time
  exact ⟨_, k, hk, step_request hserve, hqueue⟩

/-- A requeue with the value in memory answers the first `val₁` cores of the queue, or all if there
are fewer, moves the next `val₂` of those that are left to the back of the other queue, in order and
each once, and reports how many it has answered and moved, exactly if the queues differ, or there are
`val₂` cores left, or none. -/
theorem cmp_requeue (N : ℕ) {tr : List (Event N)} {s : State N}
    (hr : (futexes N).Run (fun _ => True) tr s) (c : Fin N) (addr addr₂ : Addr) (val₁ val₂ : BitVec 32)
    (time : ℕ) :
    (s.server.futexes addr).Nodup ∧ ((∃ s' k m,
      k = min val₁.toInt.toNat (s.server.futexes addr).length ∧
      m = min val₂.toInt.toNat ((s.server.futexes addr).length - k) ∧
      k + m ≤ (s.server.futexes addr).length ∧
      (futexes N).step s
          (.request c (.cmpRequeue addr val₁ val₂ addr₂ (readInt s.server.memory addr) time)) =
        .ok (s', .request c (.cmpRequeue addr val₁ val₂ addr₂ (readInt s.server.memory addr) time) ::
          woken addr time ((s.server.futexes addr).take k) ++
          moved addr addr₂ (((s.server.futexes addr).drop k).take m) ++
          [.reply c (k + m : ℕ) time]) ∧
      s'.server.futexes = appendTo addr₂ (((s.server.futexes addr).drop k).take m)
        (Function.update s.server.futexes addr (((s.server.futexes addr).drop k).drop m))) ↔
      (addr = addr₂ → val₂.toInt.toNat ≤ (s.server.futexes addr).length - val₁.toInt.toNat ∨
        (s.server.futexes addr).length ≤ val₁.toInt.toNat)) := by
  have hinv : RunInv tr s := hr.invariant runInv_init fun tr s a h _ ha => runInv_step h a ha
  refine ⟨nodup_iff_count_eq_one.mpr fun d hd => (hinv.queued.count d addr hd).2, ?_⟩
  obtain ⟨hout, place, hinv, -⟩ := hinv
  obtain ⟨server, out, k, m, hk, hm, hserve, hright, hsame⟩ :=
    serve_cmpRequeue hinv hout c addr addr₂ val₁ val₂ time
  constructor
  · rintro ⟨s', k', m', hk', hm', -, hstep, -⟩ heq
    by_contra hno
    rw [not_or, Nat.not_le, Nat.not_le] at hno
    -- the cores left are moved again, and the reply counts each move
    obtain ⟨pre, rfl⟩ := hsame heq hno.2
    rw [step_request hserve] at hstep
    have hlast := (append_inj' (congrArg Prod.snd (Except.ok.inj hstep)) rfl).2
    simp only [cons.injEq, Event.reply.injEq, SyscallServer.iterations] at hk hlast
    omega
  · intro hcond
    obtain ⟨rfl, hqueue⟩ := hright hcond
    exact ⟨_, k, m, hk, hm, by omega, step_request hserve, hqueue⟩

def oneCore : State 1 where
  server := { futexes := fun _ => [], memory := fun _ => 0, threads := ⟨fun _ => [.running], fun _ => none⟩ }
  pending _ := false

theorem oneCore_init : (futexes 1).init oneCore :=
  ⟨rfl, fun _ => rfl, fun _ => ⟨[], [], rfl, by simp, fun h => by cases h⟩, fun _ => rfl⟩

/-- FUTEX_WAKE_OP has no operation 5: the request is never answered. -/
theorem wakeOp_unanswered : (futexes 1).Fails (fun _ => True) .unhandledOp :=
  .of_stops (.start oneCore_init) [.request 0 (.wakeOp 0 1 1 64 0x50000000 0)]

def threeCores : State 3 where
  server := { futexes := fun _ => [], memory := fun _ => 0, threads := ⟨fun _ => [.running], fun _ => none⟩ }
  pending _ := false

theorem threeCores_init : (futexes 3).init threeCores :=
  ⟨rfl, fun _ => rfl, fun _ => ⟨[], [], rfl, by simp, fun h => by cases h⟩, fun _ => rfl⟩

/-- Two cores wait; one is woken up and the other is moved. -/
theorem cmp_requeue_three : ∃ tr s s' out, (futexes 3).Run (fun _ => True) tr s ∧
    (futexes 3).step s (.request 2 (.cmpRequeue 0 1 1 64 (readInt s.server.memory 0) 7)) = .ok (s', out) ∧
    .reply 2 2 7 ∈ out ∧ s'.server.futexes 64 = [1] := by
  obtain ⟨tr, s, h, hq, hq'⟩ := (System.Run.start threeCores_init).of_reaches (P := fun _ => True)
    (Q := fun _ s => s.server.futexes 0 = [0, 1] ∧ s.server.futexes 64 = [])
    [.request 0 (.wait 0 0 1), .request 1 (.wait 0 0 2)]
  obtain ⟨s', k, m, hk, hm, -, hstep, hqueue⟩ :=
    (cmp_requeue 3 h 2 0 64 1 1 7).2.mpr fun h => by cases h
  rw [hq] at hk hm hstep hqueue
  have hk : k = 1 := hk
  subst hk
  have hm : m = 1 := hm
  subst hm
  refine ⟨tr, s, s', _, h, hstep, by simp, ?_⟩
  rw [hqueue, appendTo, update_self, update_of_ne (by decide), hq']
  rfl

/-- A requeue of up to five cores to the same queue moves the only core there five times and reports
five. -/
theorem requeued_again : ∃ tr s s' out, (futexes 3).Run (fun _ => True) tr s ∧
    s.server.futexes 0 = [0] ∧
    (futexes 3).step s (.request 1 (.cmpRequeue 0 0 5 0 (readInt s.server.memory 0) 7)) = .ok (s', out) ∧
    .reply 1 5 7 ∈ out ∧ out.count (.enqueued 0 0) = 5 := by
  obtain ⟨tr, s, h, hq, ⟨s', out⟩, hstep, hm⟩ := (System.Run.start threeCores_init).of_reaches
    (P := fun _ => True) (Q := fun _ s => s.server.futexes 0 = [0] ∧ ∃ r,
      (futexes 3).step s (.request 1 (.cmpRequeue 0 0 5 0 (readInt s.server.memory 0) 7)) = .ok r ∧
      .reply 1 5 7 ∈ r.2 ∧ r.2.count (.enqueued 0 0) = 5) [.request 0 (.wait 0 0 1)]
  exact ⟨tr, s, s', out, h, hq, hstep, hm⟩

end Runs

end Graphite.Futex
