import Graphite.Library.Dialogue
import Graphite.Sync.Threads

/-! # Point-to-point synchronization

Every core asks a random other core for its clock from time to time, and sleeps if it is far ahead
of that core, or of one that has asked it. The user thread and the network thread of a core share a
queue under a lock; each step is what one of them does while it holds the lock. Times are naturals:
no sum in the code reaches `2 ^ 64`.
-/

namespace Graphite.LaxP2P

open Outcome Function List
open Sync (CoreState)

inductive Fault
  | maxTime | early | strange | unrecognized | notRequest
  | timeWentBack | badQueue | noAck | zeroTime
  deriving DecidableEq, Repr

inductive MsgType
  | req | ack | wait
  deriving DecidableEq, Repr

structure SyncMsg (n : ℕ) where
  sender : Fin n
  type : MsgType
  time : ℕ
  deriving DecidableEq, Repr

structure Packet (n : ℕ) where
  receiver : Fin n
  msg : SyncMsg n
  deriving DecidableEq, Repr

/-- The user thread runs the application, waits for an ACK, or sleeps. -/
inductive Phase
  | running | waiting | sleeping
  deriving DecidableEq, Repr

/-- `LaxP2PSyncClient` with the state and the clock of its core; `futx` is the word of the condition
variable. -/
structure Client (n : ℕ) where
  coreState : CoreState
  clock : ℕ
  enabled : Bool
  lastSyncTime : ℕ
  msgQueue : List (SyncMsg n)
  futx : Bool
  phase : Phase

/-- A request of `t` and the response to it are sent; `t` has received the response, has queued a
WAIT for itself, and goes on with the wait time that it has computed. -/
inductive Event (n : ℕ)
  | req (t receiver : Fin n) (time : ℕ)
  | ack (t sender : Fin n) (time : ℕ)
  | received (t : Fin n) (time : ℕ)
  | wait (t : Fin n) (time : ℕ)
  | resumed (t : Fin n) (waitTime : ℕ)
  deriving DecidableEq, Repr

structure State (n : ℕ) where
  client : Fin n → Client n
  net : List (Packet n)
  out : List (Event n) := []

/-- `clock_skew_management/lax_p2p`. -/
structure Config where
  quantum : ℕ
  slack : ℕ

def maxTime : ℕ := 2 ^ 60

variable {n : ℕ} (cfg : Config)

namespace State

variable (s : State n) (t : Fin n)

def emit (e : Event n) : State n := { s with out := s.out ++ [e] }

def setClient (c : Client n) : State n := { s with client := Function.update s.client t c }

def netSend (p : Packet n) : State n := { s with net := s.net ++ [p] }

def sendAck (receiver : Fin n) (time : ℕ) : State n :=
  (s.netSend ⟨receiver, t, .ack, time⟩).emit (.ack receiver t time)

/-- `_cond.signal`. -/
def signal : State n := s.setClient t { s.client t with futx := true }

/-- `_msg_queue.push_back`. -/
def pushBack (msg : SyncMsg n) : State n :=
  s.setClient t { s.client t with msgQueue := (s.client t).msgQueue ++ [msg] }

end State

namespace LaxP2PSyncClient

variable (s : State n) (t : Fin n)

def processSyncReq (msg : SyncMsg n) (sleeping : Bool) : Except Fault (State n) := do
  check (cfg.slack ≤ msg.time) .early
  let currTime := (s.client t).clock
  check (currTime < maxTime) .maxTime
  if msg.time + cfg.slack < currTime then
    let s := s.sendAck t msg.sender 0
    if sleeping then pure s
    else do
      check (currTime - msg.time < maxTime) .maxTime
      pure ((s.pushBack t ⟨t, .wait, currTime - msg.time⟩).emit (.wait t (currTime - msg.time)))
  else if currTime ≤ msg.time + cfg.slack ∧ msg.time - cfg.slack ≤ currTime then
    pure (s.sendAck t msg.sender 0)
  else if currTime < msg.time - cfg.slack then do
    check (msg.time - currTime < maxTime) .maxTime
    pure (s.sendAck t msg.sender (msg.time - currTime))
  else throw .strange

def netProcessSyncMsg (msg : SyncMsg n) : Except Fault (State n) := do
  check (msg.time < maxTime) .maxTime
  match (s.client t).coreState with
  | .running =>
    match msg.type with
    | .req => processSyncReq cfg s t msg false
    | .ack => pure (((s.pushBack t msg).signal t).emit (.received t msg.time))
    | .wait => throw .unrecognized
  | .sleeping => do
    check (msg.type = .req) .notRequest
    processSyncReq cfg s t msg true
  | _ => do
    check (msg.type = .req) .notRequest
    pure (s.sendAck t msg.sender 0)

/-- The receiver of a request is `offset` places after `t`. -/
def receiver (offset : ℕ) : Fin n :=
  ⟨(t.val + offset) % n, Nat.mod_lt _ (Nat.lt_of_le_of_lt (Nat.zero_le _) t.isLt)⟩

def sendRandomSyncMsg (offset currTime : ℕ) : Except Fault (State n) := do
  check (currTime < maxTime) .maxTime
  pure ((s.netSend ⟨receiver t offset, t, .req, currTime⟩).emit (.req t (receiver t offset) currTime))

/-- Called by the user thread; ends in `_cond.wait` if the core has to synchronize. -/
def synchronize (offset : ℕ) : Except Fault (State n) := do
  if (s.client t).enabled then
    let c := s.client t
    let c := if c.coreState = .wakingUp then { c with coreState := .running } else c
    let currTime := c.clock
    check (c.lastSyncTime ≤ currTime) .timeWentBack
    check (currTime < maxTime) .maxTime
    if cfg.quantum ≤ currTime - c.lastSyncTime then
      let lastSyncTime := currTime / cfg.quantum * cfg.quantum
      check (lastSyncTime < maxTime) .maxTime
      let s := s.setClient t { c with lastSyncTime, futx := false, phase := .waiting }
      sendRandomSyncMsg s t offset currTime
    else pure (s.setClient t c)
  else pure s

/-- The loop of `userProcessSyncMsgList`. -/
def scanQueue : List (SyncMsg n) → Bool → ℕ → Except Fault (Bool × ℕ)
  | [], ackPresent, maxWaitTime => pure (ackPresent, maxWaitTime)
  | msg :: rest, ackPresent, maxWaitTime => do
    check (msg.time < maxTime) .maxTime
    check (msg.type = .wait ∨ msg.type = .ack) .badQueue
    scanQueue rest (ackPresent || decide (msg.type = .ack))
      (if maxWaitTime ≤ msg.time then msg.time else maxWaitTime)

def gotoSleep (sleepTime : ℕ) : Except Fault (State n) := do
  check (sleepTime < maxTime) .maxTime
  if 0 < sleepTime then do
    check ((s.client t).clock ≠ 0) .zeroTime
    pure (s.setClient t { s.client t with coreState := .sleeping, phase := .sleeping })
  else pure (s.setClient t { s.client t with phase := .running })

/-- `synchronize` after `_cond.wait`, up to the sleep. -/
def userProcessSyncMsgList : Except Fault (State n) := do
  let (ackPresent, waitTime) ← scanQueue (s.client t).msgQueue false 0
  check (ackPresent = true) .noAck
  gotoSleep ((s.setClient t { s.client t with msgQueue := [] }).emit (.resumed t waitTime)) t waitTime

end LaxP2PSyncClient

/-- `tick` is the simulated time that goes on, and `setCoreState` a change of the state of a core by
other parts of the simulator; a packet may be delivered at any time. -/
inductive Action (n : ℕ)
  | synchronize (t : Fin n) (offset : ℕ)
  | wake (t : Fin n)
  | wakeUp (t : Fin n)
  | deliver (p : Packet n)
  | tick (t : Fin n) (time : ℕ)
  | setCoreState (t : Fin n) (st : CoreState)

def record (x : Except Fault (State n)) : Except Fault (State n × List (Event n)) := do
  let s ← x
  pure ({ s with out := [] }, s.out)

open LaxP2PSyncClient in
/-- The constructor asserts that there are three tiles or more. The clock of a core is a 64-bit
count of picoseconds, read in nanoseconds. -/
def laxP2P (n : ℕ) : System (State n) (Action n) Fault (Event n) where
  init s := 3 ≤ n ∧ s.net = [] ∧ s.out = [] ∧ ∀ t, (s.client t).coreState ≠ .sleeping ∧
    (s.client t).clock = 0 ∧ (s.client t).lastSyncTime = 0 ∧ (s.client t).msgQueue = [] ∧
    (s.client t).phase = .running
  enabled s
    | .synchronize t offset => (s.client t).phase = .running ∧ 1 ≤ offset ∧ offset ≤ (n - 1) / 2
    | .wake t => (s.client t).phase = .waiting ∧ (s.client t).futx = true
    | .wakeUp t => (s.client t).phase = .sleeping
    | .deliver p => p ∈ s.net
    | .tick t time => (s.client t).clock ≤ time ∧ time ≤ 2 ^ 64 / 1000 + 1
    | .setCoreState t st => (s.client t).phase = .running ∧ st ≠ .sleeping
  step s
    | .synchronize t offset => record (synchronize cfg s t offset)
    | .wake t => record (userProcessSyncMsgList s t)
    | .wakeUp t =>
      pure (s.setClient t { s.client t with coreState := .running, phase := .running }, [])
    | .deliver p => record (netProcessSyncMsg cfg { s with net := s.net.erase p } p.receiver p.msg)
    | .tick t time => pure (s.setClient t { s.client t with clock := time }, [])
    | .setCoreState t st => pure (s.setClient t { s.client t with coreState := st }, [])

instance (s : State n) : DecidablePred ((laxP2P cfg n).enabled s) := fun a => by
  cases a <;> dsimp only [laxP2P] <;> infer_instance

/-- A thread synchronizes only on a core that runs, or that is about to. -/
def Awake (s : State n) : Action n → Prop
  | .synchronize t _ => (s.client t).coreState = .running ∨ (s.client t).coreState = .wakingUp
  | _ => True

/-! ## Histories -/

/-- The threads ask with the time of a request; `reply` says what counts as the answer. -/
def requests (reply : Event n → Option (Fin n)) : Dialogue (Event n) (Fin n) ℕ where
  request
    | .req t _ time => some (t, time)
    | _ => none
  reply := reply

def acks : Dialogue (Event n) (Fin n) ℕ := requests fun
  | .ack t _ _ => some t
  | _ => none

def receipts : Dialogue (Event n) (Fin n) ℕ := requests fun
  | .received t _ => some t
  | _ => none

def synchronizations : Dialogue (Event n) (Fin n) ℕ := requests fun
  | .resumed t _ => some t
  | _ => none

/-- What an event makes of the times queued by `t` since it last went on. -/
def enqueue (t : Fin n) (l : List ℕ) : Event n → List ℕ
  | .received t' time => if t' = t then l ++ [time] else l
  | .wait t' time => if t' = t then l ++ [time] else l
  | .resumed t' _ => if t' = t then [] else l
  | _ => l

/-- The times that `t` has queued since it last went on. -/
def queued (tr : List (Event n)) (t : Fin n) : List ℕ := tr.foldl (enqueue t) []

def SentBefore (pre : List (Event n)) : Event n → Prop
  | .received t _ => acks.outstanding pre t = none
  | _ => True

/-- A thread goes on only after its ACK has come, with the largest of the times queued. -/
def LargestOfQueued (pre : List (Event n)) : Event n → Prop
  | .resumed t waitTime =>
    receipts.outstanding pre t = none ∧ waitTime ∈ queued pre t ∧ ∀ x ∈ queued pre t, x ≤ waitTime
  | _ => True

/-- Every request has one ACK, which comes to its sender once, and the sender goes on after that. -/
structure SyncsAnswered (tr : List (Event n)) : Prop where
  acks : acks.Answered (fun _ _ _ => True) tr
  receipts : receipts.Answered (fun pre _ e => SentBefore pre e) tr
  synchronizations : synchronizations.Answered (fun pre _ e => LargestOfQueued pre e) tr

theorem SyncsAnswered.nil : SyncsAnswered ([] : List (Event n)) := ⟨.nil, .nil, .nil⟩

/-- The requests of a thread that are open in the three dialogues. -/
structure Open where
  ack : Option ℕ
  receipt : Option ℕ
  synchronization : Option ℕ

def openRequests (tr : List (Event n)) (t : Fin n) : Open :=
  ⟨acks.outstanding tr t, receipts.outstanding tr t, synchronizations.outstanding tr t⟩

section Histories

variable {tr : List (Event n)} {t : Fin n} {a : ℕ}

@[simp] theorem queued_concat (e : Event n) : queued (tr ++ [e]) t = enqueue t (queued tr t) e := by
  simp [queued]

theorem openRequests_concat (e : Event n) : openRequests (tr ++ [e]) t =
    ⟨acks.track t (acks.outstanding tr t) e, receipts.track t (receipts.outstanding tr t) e,
      synchronizations.track t (synchronizations.outstanding tr t) e⟩ := by
  simp [openRequests, Dialogue.outstanding_append]

@[simp] theorem openRequests_req (u r : Fin n) (time : ℕ) :
    openRequests (tr ++ [.req u r time]) t =
      if u = t then ⟨some time, some time, some time⟩ else openRequests tr t := by
  rw [openRequests_concat]
  split <;> simp_all [acks, receipts, synchronizations, requests, Dialogue.track, openRequests]

@[simp] theorem openRequests_ack (u r : Fin n) (time : ℕ) :
    openRequests (tr ++ [.ack u r time]) t =
      if u = t then { openRequests tr t with ack := none } else openRequests tr t := by
  rw [openRequests_concat]
  split <;> simp_all [acks, receipts, synchronizations, requests, Dialogue.track, openRequests]

@[simp] theorem openRequests_received (u : Fin n) (time : ℕ) :
    openRequests (tr ++ [.received u time]) t =
      if u = t then { openRequests tr t with receipt := none } else openRequests tr t := by
  rw [openRequests_concat]
  split <;> simp_all [acks, receipts, synchronizations, requests, Dialogue.track, openRequests]

@[simp] theorem openRequests_wait (u : Fin n) (time : ℕ) :
    openRequests (tr ++ [.wait u time]) t = openRequests tr t := by
  rw [openRequests_concat]
  simp [acks, receipts, synchronizations, requests, Dialogue.track, openRequests]

@[simp] theorem openRequests_resumed (u : Fin n) (time : ℕ) :
    openRequests (tr ++ [.resumed u time]) t =
      if u = t then { openRequests tr t with synchronization := none } else openRequests tr t := by
  rw [openRequests_concat]
  split <;> simp_all [acks, receipts, synchronizations, requests, Dialogue.track, openRequests]

section

variable (h : SyncsAnswered tr)
include h

theorem SyncsAnswered.req (r : Fin n) (time : ℕ)
    (ho : openRequests tr t = ⟨none, none, none⟩) : SyncsAnswered (tr ++ [.req t r time]) where
  acks := h.acks.ask rfl rfl (congrArg Open.ack ho)
  receipts := h.receipts.ask rfl rfl (congrArg Open.receipt ho)
  synchronizations := h.synchronizations.ask rfl rfl (congrArg Open.synchronization ho)

theorem SyncsAnswered.ack (r : Fin n) (time : ℕ)
    (ho : (openRequests tr t).ack = some a) : SyncsAnswered (tr ++ [.ack t r time]) where
  acks := h.acks.answer rfl rfl ho trivial
  receipts := h.receipts.other rfl rfl
  synchronizations := h.synchronizations.other rfl rfl

theorem SyncsAnswered.received (time : ℕ)
    (ho : (openRequests tr t).receipt = some a) (hsent : (openRequests tr t).ack = none) :
    SyncsAnswered (tr ++ [.received t time]) where
  acks := h.acks.other rfl rfl
  receipts := h.receipts.answer rfl rfl ho hsent
  synchronizations := h.synchronizations.other rfl rfl

theorem SyncsAnswered.wait (time : ℕ) : SyncsAnswered (tr ++ [.wait t time]) where
  acks := h.acks.other rfl rfl
  receipts := h.receipts.other rfl rfl
  synchronizations := h.synchronizations.other rfl rfl

theorem SyncsAnswered.resumed {waitTime : ℕ}
    (ho : (openRequests tr t).synchronization = some a) (hcome : (openRequests tr t).receipt = none)
    (hmem : waitTime ∈ queued tr t) (hmax : ∀ x ∈ queued tr t, x ≤ waitTime) :
    SyncsAnswered (tr ++ [.resumed t waitTime]) where
  acks := h.acks.other rfl rfl
  receipts := h.receipts.other rfl rfl
  synchronizations := h.synchronizations.answer rfl rfl ho ⟨hcome, hmem, hmax⟩

end

end Histories

/-! ## The invariant -/

def isRequestOf (t : Fin n) (p : Packet n) : Bool := decide (p.msg.type = .req ∧ p.msg.sender = t)

def isAckTo (t : Fin n) (p : Packet n) : Bool := decide (p.msg.type = .ack ∧ p.receiver = t)

/-- Where a synchronization of `t` is, in the client and in the network. -/
inductive Stage (c : Client n) (net : List (Packet n)) (t : Fin n) : Open → Prop
  | outside : c.phase ≠ .waiting → net.countP (isRequestOf t) = 0 → net.countP (isAckTo t) = 0 →
      Stage c net t ⟨none, none, none⟩
  | requested {time : ℕ} : c.phase = .waiting → c.futx = false → net.countP (isRequestOf t) = 1 →
      net.countP (isAckTo t) = 0 → Stage c net t ⟨some time, some time, some time⟩
  | answered {time : ℕ} : c.phase = .waiting → c.futx = false → net.countP (isRequestOf t) = 0 →
      net.countP (isAckTo t) = 1 → Stage c net t ⟨none, some time, some time⟩
  | received {time : ℕ} : c.phase = .waiting → c.futx = true → net.countP (isRequestOf t) = 0 →
      net.countP (isAckTo t) = 0 → (∃ m ∈ c.msgQueue, m.type = .ack) →
      Stage c net t ⟨none, none, some time⟩

/-- A message that the assertions accept. -/
structure SyncMsg.Sound (slack : ℕ) (m : SyncMsg n) : Prop where
  time : m.time < maxTime
  type : m.type ≠ .wait
  early : m.type = .req → slack ≤ m.time

structure Client.Sound (c : Client n) : Prop where
  clock : c.clock < maxTime
  last : c.lastSyncTime ≤ c.clock
  queue : ∀ m ∈ c.msgQueue, m.time < maxTime ∧ m.type ≠ .req
  sleeping : c.coreState = .sleeping → c.phase = .sleeping
  waiting : c.phase = .waiting → c.coreState = .running ∧ 0 < c.clock

structure Inv (tr : List (Event n)) (s : State n) : Prop where
  packet : ∀ p ∈ s.net, p.msg.Sound cfg.slack
  client : ∀ t, (s.client t).Sound
  stage : ∀ t, Stage (s.client t) s.net t (openRequests tr t)
  queue : ∀ t, queued tr t = (s.client t).msgQueue.map SyncMsg.time
  history : SyncsAnswered tr

section Invariant

variable {cfg} {tr : List (Event n)} {s : State n} {t : Fin n} {p : Packet n} {q : Packet n → Bool}
  {net : List (Packet n)}

@[simp] theorem setClient_self (c : Client n) : (s.setClient t c).client t = c :=
  update_self ..

@[simp] theorem setClient_of_ne {x : Fin n} (h : x ≠ t) (c : Client n) :
    (s.setClient t c).client x = s.client x := update_of_ne h ..

@[simp] theorem pushBack_out (m : SyncMsg n) : (s.pushBack t m).out = s.out := rfl

theorem Stage.congr {c c' : Client n} {net net' : List (Packet n)} {o : Open} (h : Stage c net t o)
    (hphase : c'.phase = c.phase) (hfutx : c'.futx = c.futx)
    (hqueue : ∀ m ∈ c.msgQueue, m ∈ c'.msgQueue)
    (hreq : net'.countP (isRequestOf t) = net.countP (isRequestOf t))
    (hack : net'.countP (isAckTo t) = net.countP (isAckTo t)) : Stage c' net' t o := by
  cases h with
  | outside hp hr ha => exact .outside (by rwa [hphase]) (by rw [hreq, hr]) (by rw [hack, ha])
  | requested hp hf hr ha =>
    exact .requested (by rw [hphase, hp]) (by rw [hfutx, hf]) (by rw [hreq, hr]) (by rw [hack, ha])
  | answered hp hf hr ha =>
    exact .answered (by rw [hphase, hp]) (by rw [hfutx, hf]) (by rw [hreq, hr]) (by rw [hack, ha])
  | received hp hf hr ha hm =>
    obtain ⟨m, hm, htype⟩ := hm
    exact .received (by rw [hphase, hp]) (by rw [hfutx, hf]) (by rw [hreq, hr]) (by rw [hack, ha])
      ⟨m, hqueue m hm, htype⟩

theorem Inv.frame {s' : State n} {tr' : List (Event n)} (h : Inv cfg tr s)
    (hpacket : ∀ p ∈ s'.net, p.msg.Sound cfg.slack) (hc : (s'.client t).Sound)
    (hstage : Stage (s'.client t) s'.net t (openRequests tr' t))
    (hqueue : queued tr' t = (s'.client t).msgQueue.map SyncMsg.time) (hhistory : SyncsAnswered tr')
    (hclient : ∀ x, x ≠ t → s'.client x = s.client x)
    (htrace : ∀ x, x ≠ t → openRequests tr' x = openRequests tr x ∧ queued tr' x = queued tr x)
    (hnet : ∀ x, x ≠ t → s'.net.countP (isRequestOf x) = s.net.countP (isRequestOf x) ∧
      s'.net.countP (isAckTo x) = s.net.countP (isAckTo x)) : Inv cfg tr' s' := by
  refine ⟨hpacket, fun x => ?_, fun x => ?_, fun x => ?_, hhistory⟩
  all_goals
    rcases eq_or_ne x t with rfl | hx
  · exact hc
  · rw [hclient x hx]
    exact h.client x
  · exact hstage
  · rw [hclient x hx, (htrace x hx).1]
    exact (h.stage x).congr rfl rfl (fun _ hm => hm) (hnet x hx).1 (hnet x hx).2
  · exact hqueue
  · rw [hclient x hx, (htrace x hx).2]
    exact h.queue x

theorem Inv.setClient {c : Client n} (h : Inv cfg tr s) (hphase : c.phase = (s.client t).phase)
    (hfutx : c.futx = (s.client t).futx) (hqueue : c.msgQueue = (s.client t).msgQueue)
    (hc : c.Sound) : Inv cfg tr (s.setClient t c) := by
  refine h.frame (t := t) h.packet ?_ ?_ ?_ h.history (fun x hx => setClient_of_ne hx _)
    (fun _ _ => ⟨rfl, rfl⟩) fun _ _ => ⟨rfl, rfl⟩
  all_goals rw [setClient_self]
  · exact hc
  · exact (h.stage t).congr hphase hfutx (fun m hm => by rwa [hqueue]) rfl rfl
  · rw [hqueue]
    exact h.queue t

/-! ### The network thread -/

theorem countP_erase (hp : p ∈ net) :
    net.countP q = (net.erase p).countP q + if q p then 1 else 0 := by
  rw [(perm_cons_erase hp).countP_eq, countP_cons]

theorem countP_pos_of_mem (hp : p ∈ net)
    (hq : q p = true) : 0 < net.countP q := countP_pos_iff.mpr ⟨p, hp, hq⟩

section

variable (h : Inv cfg tr s)
include h

/-- The request in the network is that of its sender, which has not been answered. -/
theorem Inv.requested (hp : p ∈ s.net) (hreq : p.msg.type = .req) :
    ∃ time, openRequests tr p.msg.sender = ⟨some time, some time, some time⟩ ∧
      (s.client p.msg.sender).phase = .waiting ∧ (s.client p.msg.sender).futx = false ∧
      s.net.countP (isRequestOf p.msg.sender) = 1 ∧ s.net.countP (isAckTo p.msg.sender) = 0 := by
  have hpos := countP_pos_of_mem (q := isRequestOf p.msg.sender) hp (by simp [isRequestOf, hreq])
  have hstage := h.stage p.msg.sender
  generalize openRequests tr p.msg.sender = o at hstage
  cases hstage with
  | outside _ hr _ => omega
  | requested hw hf hr ha => exact ⟨_, rfl, hw, hf, hr, ha⟩
  | answered _ _ hr _ => omega
  | received _ _ hr _ _ => omega

/-- An ACK in the network is the only one to its receiver, which waits for it. -/
theorem Inv.acked (hp : p ∈ s.net) (hack : p.msg.type = .ack) :
    ∃ time, openRequests tr p.receiver = ⟨none, some time, some time⟩ ∧
      (s.client p.receiver).phase = .waiting ∧ (s.client p.receiver).futx = false ∧
      s.net.countP (isRequestOf p.receiver) = 0 ∧ s.net.countP (isAckTo p.receiver) = 1 := by
  have hpos := countP_pos_of_mem (q := isAckTo p.receiver) hp (by simp [isAckTo, hack])
  have hstage := h.stage p.receiver
  generalize openRequests tr p.receiver = o at hstage
  cases hstage with
  | outside _ _ ha => omega
  | requested _ _ _ ha => omega
  | answered hw hf hr ha => exact ⟨_, rfl, hw, hf, hr, ha⟩
  | received _ _ _ ha _ => omega

theorem Inv.sendAck (hp : p ∈ s.net) (hreq : p.msg.type = .req)
    (r : Fin n) {time : ℕ} (htime : time < maxTime) :
    Inv cfg (tr ++ [.ack p.msg.sender r time])
      (State.sendAck { s with net := s.net.erase p } r p.msg.sender time) := by
  obtain ⟨a, ho, hw, hf, hr, ha⟩ := h.requested hp hreq
  have hnet : (State.sendAck { s with net := s.net.erase p } r p.msg.sender time).net =
      s.net.erase p ++ [⟨p.msg.sender, r, .ack, time⟩] := rfl
  refine h.frame (t := p.msg.sender) (forall_mem_append.mpr ⟨fun q hq => ?_, ?_⟩) (h.client _) ?_ ?_
    (h.history.ack r time (by rw [ho])) (fun _ _ => rfl) (fun x hx => ?_) fun x hx => ?_
  · exact h.packet q (mem_of_mem_erase hq)
  · exact forall_mem_singleton.mpr ⟨htime, by simp, by simp⟩
  · rw [hnet, openRequests_ack, if_pos rfl, ho]
    rw [countP_erase hp] at hr ha
    refine .answered hw hf ?_ ?_
    · simpa [isRequestOf, hreq] using hr
    · simpa [isAckTo, hreq] using ha
  · rw [queued_concat]
    exact h.queue _
  · simp [enqueue, Ne.symm hx]
  · rw [hnet, countP_erase hp, countP_erase hp]
    simp [isRequestOf, isAckTo, hreq, Ne.symm hx]

theorem Inv.pushWait (t : Fin n) {time : ℕ} (htime : time < maxTime) :
    Inv cfg (tr ++ [.wait t time]) ((s.pushBack t ⟨t, .wait, time⟩).emit (.wait t time)) := by
  have hclient : ((s.pushBack t ⟨t, .wait, time⟩).emit (.wait t time)).client t =
      { s.client t with msgQueue := (s.client t).msgQueue ++ [⟨t, .wait, time⟩] } := setClient_self _
  have hc := h.client t
  refine h.frame (t := t) h.packet ?_ ?_ ?_ (h.history.wait time)
    (fun x hx => setClient_of_ne hx _) (fun x hx => ?_) fun _ _ => ⟨rfl, rfl⟩
  · rw [hclient]
    exact { hc with queue := forall_mem_append.mpr ⟨hc.queue, by simpa using htime⟩ }
  · rw [hclient, openRequests_wait]
    exact (h.stage t).congr rfl rfl (fun m hm => mem_append_left _ hm) rfl rfl
  · rw [hclient]
    simp [enqueue, h.queue]
  · simp [enqueue, Ne.symm hx]

theorem Inv.receiveAck (hp : p ∈ s.net) (hack : p.msg.type = .ack) :
    Inv cfg (tr ++ [.received p.receiver p.msg.time])
      (((State.pushBack { s with net := s.net.erase p } p.receiver p.msg).signal p.receiver).emit
        (.received p.receiver p.msg.time)) := by
  obtain ⟨a, ho, hw, hf, hr, ha⟩ := h.acked hp hack
  have hclient : (((State.pushBack { s with net := s.net.erase p } p.receiver p.msg).signal
      p.receiver).emit (.received p.receiver p.msg.time)).client p.receiver =
      { s.client p.receiver with
        msgQueue := (s.client p.receiver).msgQueue ++ [p.msg], futx := true } := by
    simp [State.emit, State.signal, State.pushBack]
  have hnet : (((State.pushBack { s with net := s.net.erase p } p.receiver p.msg).signal
      p.receiver).emit (.received p.receiver p.msg.time)).net = s.net.erase p := rfl
  have hc := h.client p.receiver
  refine h.frame (t := p.receiver) (fun q hq => h.packet q (mem_of_mem_erase hq)) ?_ ?_ ?_
    (h.history.received _ (by rw [ho]) (by rw [ho])) (fun x hx => ?_) (fun x hx => ?_) fun x hx => ?_
  · rw [hclient]
    refine { hc with queue := forall_mem_append.mpr ⟨hc.queue, ?_⟩ }
    simpa [hack] using (h.packet p hp).time
  · rw [hclient, hnet, openRequests_received, if_pos rfl, ho]
    rw [countP_erase hp] at hr ha
    refine .received hw rfl ?_ ?_ ⟨p.msg, by simp, hack⟩
    · simpa [isRequestOf, hack] using hr
    · simpa [isAckTo, hack] using ha
  · rw [hclient]
    simp [enqueue, h.queue]
  · simp [State.emit, State.signal, State.pushBack, hx]
  · simp [enqueue, Ne.symm hx]
  · rw [hnet, countP_erase hp, countP_erase hp]
    simp [isRequestOf, isAckTo, hack, Ne.symm hx]

end

/-- What the handlers do to the record of what happened. -/
def Shown (cfg : Config) (tr : List (Event n)) (s : State n) : Prop := Inv cfg (tr ++ s.out) s

theorem processSyncReq_sat (h : Inv cfg tr s) (hout : s.out = []) (hp : p ∈ s.net)
    (hreq : p.msg.type = .req) (r : Fin n) (sleeping : Bool) :
    Sat (LaxP2PSyncClient.processSyncReq cfg { s with net := s.net.erase p } r p.msg sleeping)
      (fun _ => False) (Shown cfg tr) := by
  have hsound := h.packet p hp
  have hclock := (h.client r).clock
  have hack : ∀ time, time < maxTime → Shown cfg tr
      (State.sendAck { s with net := s.net.erase p } r p.msg.sender time) := by
    intro time htime
    have := h.sendAck hp hreq r htime
    simpa [Shown, State.sendAck, State.emit, State.netSend, hout] using this
  have hzero : 0 < maxTime := by decide
  unfold LaxP2PSyncClient.processSyncReq
  rw [check_pos (hsound.early hreq), ok_bind]
  dsimp only
  rw [check_pos hclock, ok_bind]
  split
  · cases sleeping with
    | true => exact hack 0 hzero
    | false =>
      have hlt : (s.client r).clock - p.msg.time < maxTime := by omega
      rw [if_neg (by simp), check_pos hlt, ok_bind, sat_pure]
      have := Inv.pushWait (hack 0 hzero) r hlt
      simpa [Shown, State.emit] using this
  · split
    · exact hack 0 hzero
    · rw [if_pos (by omega)]
      have hlt : p.msg.time - (s.client r).clock < maxTime := by
        have := hsound.time
        omega
      rw [check_pos hlt, ok_bind, sat_pure]
      exact hack _ hlt

theorem netProcessSyncMsg_sat (h : Inv cfg tr s) (hout : s.out = []) (hp : p ∈ s.net) :
    Sat (LaxP2PSyncClient.netProcessSyncMsg cfg { s with net := s.net.erase p } p.receiver p.msg)
      (fun _ => False) (Shown cfg tr) := by
  have hsound := h.packet p hp
  unfold LaxP2PSyncClient.netProcessSyncMsg
  rw [check_pos hsound.time, ok_bind]
  cases htype : p.msg.type with
  | wait => exact absurd htype hsound.type
  | ack =>
    -- the receiver waits for it, so its core runs
    obtain ⟨a, ho, hw, -⟩ := h.acked hp htype
    rw [((h.client p.receiver).waiting hw).1]
    dsimp only
    rw [sat_pure]
    have := h.receiveAck hp htype
    simpa [Shown, State.pushBack, State.signal, State.emit, State.setClient, hout] using this
  | req =>
    have hzero : Shown cfg tr (State.sendAck { s with net := s.net.erase p } p.receiver p.msg.sender 0) := by
      have := h.sendAck hp htype p.receiver (show 0 < maxTime by decide)
      simpa [Shown, State.sendAck, State.emit, State.netSend, hout] using this
    dsimp only
    cases (s.client p.receiver).coreState with
    | running => exact processSyncReq_sat h hout hp htype _ _
    | sleeping => exact processSyncReq_sat h hout hp htype _ _
    | _ => exact hzero

/-! ### The user thread -/

theorem scanQueue_ok (l : List (SyncMsg n)) (hl : ∀ m ∈ l, m.time < maxTime ∧ m.type ≠ .req)
    (ackPresent : Bool) (maxWaitTime : ℕ) :
    ∃ b w, LaxP2PSyncClient.scanQueue l ackPresent maxWaitTime = .ok (b, w) ∧
      (ackPresent = true ∨ (∃ m ∈ l, m.type = .ack) → b = true) ∧
      (w = maxWaitTime ∨ w ∈ l.map SyncMsg.time) ∧ maxWaitTime ≤ w ∧ ∀ x ∈ l.map SyncMsg.time, x ≤ w := by
  induction l generalizing ackPresent maxWaitTime with
  | nil => exact ⟨ackPresent, maxWaitTime, rfl, by simp, .inl rfl, Nat.le_refl _, by simp⟩
  | cons m l ih =>
    rw [forall_mem_cons] at hl
    obtain ⟨⟨htime, htype⟩, hl⟩ := hl
    have hor : m.type = .wait ∨ m.type = .ack := by
      cases h : m.type with
      | req => exact absurd h htype
      | ack => exact .inr rfl
      | wait => exact .inl rfl
    obtain ⟨b, w, heq, hb, hw, hle, hmax⟩ := ih hl (ackPresent || decide (m.type = .ack))
      (if maxWaitTime ≤ m.time then m.time else maxWaitTime)
    refine ⟨b, w, ?_, fun h => hb ?_, ?_, ?_, ?_⟩
    · rw [LaxP2PSyncClient.scanQueue, check_pos htime, ok_bind, check_pos hor, ok_bind, heq]
    · rcases h with h | ⟨m', hm', hack⟩
      · simp [h]
      · rcases mem_cons.mp hm' with rfl | hm'
        · simp [hack]
        · exact .inr ⟨m', hm', hack⟩
    · rw [map_cons, mem_cons]
      rcases hw with hw | hw
      · split at hw
        · exact .inr (.inl hw)
        · exact .inl hw
      · exact .inr (.inr hw)
    · split at hle <;> omega
    · rw [map_cons, forall_mem_cons]
      refine ⟨?_, hmax⟩
      split at hle <;> omega

/-- The thread goes on, and sleeps if it has to wait. -/
def resumedClient (c : Client n) (waitTime : ℕ) : Client n where
  coreState := if 0 < waitTime then .sleeping else c.coreState
  clock := c.clock
  enabled := c.enabled
  lastSyncTime := c.lastSyncTime
  msgQueue := []
  futx := c.futx
  phase := if 0 < waitTime then .sleeping else .running

theorem gotoSleep_eq {waitTime : ℕ} (hlt : waitTime < maxTime) (hclock : (s.client t).clock ≠ 0)
    (hqueue : (s.client t).msgQueue = []) :
    LaxP2PSyncClient.gotoSleep s t waitTime =
      .ok (s.setClient t (resumedClient (s.client t) waitTime)) := by
  unfold LaxP2PSyncClient.gotoSleep
  rw [check_pos hlt, ok_bind]
  split
  · next hpos =>
    rw [check_pos hclock, ok_bind]
    simp [resumedClient, hpos, hqueue]
  · next hpos => simp [resumedClient, hpos, hqueue]

theorem Inv.resume (h : Inv cfg tr s) {a waitTime : ℕ} (hw : (s.client t).phase = .waiting)
    (ho : openRequests tr t = ⟨none, none, some a⟩) (hr : s.net.countP (isRequestOf t) = 0)
    (ha : s.net.countP (isAckTo t) = 0) (hmem : waitTime ∈ queued tr t)
    (hmax : ∀ x ∈ queued tr t, x ≤ waitTime) {s' : State n}
    (hs' : s'.client = update s.client t (resumedClient (s.client t) waitTime))
    (hnet : s'.net = s.net) : Inv cfg (tr ++ [.resumed t waitTime]) s' := by
  have hclient : s'.client t = resumedClient (s.client t) waitTime := by rw [hs', update_self]
  have hc := h.client t
  refine h.frame (t := t) (by rw [hnet]; exact h.packet) ?_ ?_ ?_
    (h.history.resumed (by rw [ho]) (by rw [ho]) hmem hmax)
    (fun x hx => by rw [hs', update_of_ne hx]) (fun x hx => ?_) fun x _ => by rw [hnet]; simp
  · rw [hclient]
    refine ⟨hc.clock, hc.last, by simp [resumedClient], fun hsleep => ?_, fun hwait => ?_⟩
    · unfold resumedClient at hsleep ⊢
      split at hsleep
      · next hpos => simp [hpos]
      · simp [(hc.waiting hw).1] at hsleep
    · unfold resumedClient at hwait
      split at hwait <;> simp at hwait
  · rw [hclient, hnet, openRequests_resumed, if_pos rfl, ho]
    refine .outside ?_ hr ha
    unfold resumedClient
    split <;> simp
  · rw [hclient]
    simp [enqueue, resumedClient]
  · simp [enqueue, Ne.symm hx]

theorem userProcessSyncMsgList_ok (h : Inv cfg tr s) (hout : s.out = [])
    (hw : (s.client t).phase = .waiting) (hf : (s.client t).futx = true) :
    ∃ waitTime s', LaxP2PSyncClient.userProcessSyncMsgList s t = .ok s' ∧
      s'.out = [.resumed t waitTime] ∧ s'.client t = resumedClient (s.client t) waitTime ∧
      Inv cfg (tr ++ [.resumed t waitTime]) s' := by
  obtain ⟨a, ho, hr, ha, hack⟩ : ∃ a, openRequests tr t = ⟨none, none, some a⟩ ∧
      s.net.countP (isRequestOf t) = 0 ∧ s.net.countP (isAckTo t) = 0 ∧
      ∃ m ∈ (s.client t).msgQueue, m.type = .ack := by
    have hstage := h.stage t
    generalize openRequests tr t = o at hstage
    cases hstage with
    | outside hp _ _ => exact absurd hw hp
    | requested _ hf' _ _ => simp [hf] at hf'
    | answered _ hf' _ _ => simp [hf] at hf'
    | received _ _ hr ha hack => exact ⟨_, rfl, hr, ha, hack⟩
  have hc := h.client t
  obtain ⟨b, w, heq, hb, hmem, -, hmax⟩ := scanQueue_ok (s.client t).msgQueue hc.queue false 0
  -- the ACK is in the queue, so zero is the largest only if it is there
  have hmem : w ∈ (s.client t).msgQueue.map SyncMsg.time := by
    rcases hmem with rfl | hmem
    · obtain ⟨m, hm, -⟩ := hack
      have hin : m.time ∈ (s.client t).msgQueue.map SyncMsg.time := mem_map_of_mem hm
      rwa [Nat.le_zero.mp (hmax _ hin)] at hin
    · exact hmem
  have hlt : w < maxTime := by
    obtain ⟨m, hm, rfl⟩ := mem_map.mp hmem
    exact (hc.queue m hm).1
  have hclock := (hc.waiting hw).2
  unfold LaxP2PSyncClient.userProcessSyncMsgList
  rw [heq, ok_bind]
  dsimp only
  rw [check_pos (hb (.inr hack)), ok_bind, gotoSleep_eq hlt (by simp [State.emit]; omega)
    (by simp [State.emit])]
  have hqueue := h.queue t
  refine ⟨w, _, rfl, by simp [State.setClient, State.emit, hout], ?_, ?_⟩
  · simp [State.emit, resumedClient]
  · refine h.resume hw ho hr ha (by rwa [hqueue]) (by rwa [hqueue]) ?_ rfl
    simp [State.setClient, State.emit, resumedClient]

theorem Inv.outside (h : Inv cfg tr s) (hw : (s.client t).phase ≠ .waiting) :
    openRequests tr t = ⟨none, none, none⟩ ∧ s.net.countP (isRequestOf t) = 0 ∧
      s.net.countP (isAckTo t) = 0 := by
  have hstage := h.stage t
  generalize openRequests tr t = o at hstage
  cases hstage with
  | outside _ hr ha => exact ⟨rfl, hr, ha⟩
  | requested hp _ _ _ | answered hp _ _ _ | received hp _ _ _ _ => exact absurd hp hw

/-- The client that waits for the ACK to its request. -/
def waitingClient (c : Client n) (lastSyncTime : ℕ) : Client n :=
  { c with coreState := .running, lastSyncTime, futx := false, phase := .waiting }

theorem Inv.request (h : Inv cfg tr s) (hw : (s.client t).phase = .running) (r : Fin n) {last : ℕ}
    (hlast : last ≤ (s.client t).clock) (hpos : 0 < (s.client t).clock)
    (hslack : cfg.slack ≤ (s.client t).clock) {u : State n}
    (hu : u.client = update s.client t (waitingClient (s.client t) last))
    (hnet : u.net = s.net ++ [⟨r, t, .req, (s.client t).clock⟩]) :
    Inv cfg (tr ++ [.req t r (s.client t).clock]) u := by
  have hclient : u.client t = waitingClient (s.client t) last := by rw [hu, update_self]
  have hc := h.client t
  obtain ⟨ho, hr, ha⟩ := h.outside (t := t) (by simp [hw])
  refine h.frame (t := t) ?_ ?_ ?_ ?_ (h.history.req r _ ho)
    (fun x hx => by rw [hu, update_of_ne hx]) (fun x hx => ?_) fun x hx => ?_
  · rw [hnet]
    exact forall_mem_append.mpr
      ⟨h.packet, forall_mem_singleton.mpr ⟨hc.clock, by simp, fun _ => hslack⟩⟩
  · rw [hclient]
    exact ⟨hc.clock, hlast, hc.queue, by simp [waitingClient], fun _ => ⟨rfl, hpos⟩⟩
  · rw [hclient, hnet, openRequests_req, if_pos rfl]
    refine .requested rfl rfl ?_ ?_
    · simp [isRequestOf, countP_append, hr]
    · simp [isAckTo, countP_append, ha]
  · rw [hclient, queued_concat]
    exact h.queue t
  · simp [enqueue, Ne.symm hx]
  · rw [hnet]
    simp [isRequestOf, isAckTo, countP_append, Ne.symm hx]

theorem synchronize_sat (hq : 0 < cfg.quantum) (hs : cfg.slack ≤ cfg.quantum) (h : Inv cfg tr s)
    (hout : s.out = []) (hw : (s.client t).phase = .running)
    (hcore : (s.client t).coreState = .running ∨ (s.client t).coreState = .wakingUp) (offset : ℕ) :
    Sat (LaxP2PSyncClient.synchronize cfg s t offset) (fun _ => False) (Shown cfg tr) := by
  have hc := h.client t
  -- the core runs from here on
  have hrun : (if (s.client t).coreState = .wakingUp then
      { s.client t with coreState := .running } else s.client t) =
      { s.client t with coreState := .running } := by
    split
    · rfl
    · next hne => rw [← hcore.resolve_right hne]
  unfold LaxP2PSyncClient.synchronize
  dsimp only
  split
  · rw [hrun]
    dsimp only
    rw [check_pos hc.last, ok_bind, check_pos hc.clock, ok_bind]
    split
    · next hge =>
      have hle : (s.client t).clock / cfg.quantum * cfg.quantum ≤ (s.client t).clock :=
        Nat.div_mul_le_self ..
      rw [check_pos (Nat.lt_of_le_of_lt hle hc.clock), ok_bind, LaxP2PSyncClient.sendRandomSyncMsg,
        check_pos hc.clock, ok_bind, sat_pure]
      have := h.request (u := ((s.setClient t (waitingClient (s.client t)
        ((s.client t).clock / cfg.quantum * cfg.quantum))).netSend
          ⟨LaxP2PSyncClient.receiver t offset, t, .req, (s.client t).clock⟩).emit
            (.req t (LaxP2PSyncClient.receiver t offset) (s.client t).clock))
        hw (LaxP2PSyncClient.receiver t offset) hle (by omega) (by omega) rfl rfl
      simpa [Shown, State.emit, State.netSend, State.setClient, waitingClient, hout] using this
    · rw [sat_pure]
      show Inv cfg (tr ++ s.out) _
      rw [hout, append_nil]
      exact h.setClient rfl rfl rfl ⟨hc.clock, hc.last, hc.queue, by simp, fun hp => by simp [hw] at hp⟩
  · rw [sat_pure, Shown, hout, append_nil]
    exact h

theorem Inv.wakeUp (h : Inv cfg tr s) (hw : (s.client t).phase = .sleeping) :
    Inv cfg tr (s.setClient t { s.client t with coreState := .running, phase := .running }) := by
  have hc := h.client t
  refine h.frame (t := t) h.packet ?_ ?_ ?_ h.history (fun x hx => setClient_of_ne hx _)
    (fun _ _ => ⟨rfl, rfl⟩) fun _ _ => ⟨rfl, rfl⟩
  all_goals rw [setClient_self]
  · exact ⟨hc.clock, hc.last, hc.queue, by simp, by simp⟩
  · obtain ⟨ho, hr, ha⟩ := h.outside (t := t) (by simp [hw])
    rw [ho]
    exact .outside (by simp) hr ha
  · exact h.queue t

def Between (cfg : Config) (tr : List (Event n)) (s : State n) : Prop := Inv cfg tr s ∧ s.out = []

theorem record_sat {x : Except Fault (State n)} (h : Returns x (Shown cfg tr)) :
    Returns (record x) fun r => Between cfg (tr ++ r.2) r.1 := by
  refine h.bind fun s' hs' => ?_
  exact ⟨⟨hs'.packet, hs'.client, hs'.stage, hs'.queue, hs'.history⟩, rfl⟩

theorem init_between (hinit : (laxP2P cfg n).init s) : Between cfg [] s := by
  obtain ⟨-, hnet, hout, hall⟩ := hinit
  refine ⟨⟨by simp [hnet], fun t => ?_, fun t => ?_, fun t => ?_, .nil⟩, hout⟩
  all_goals obtain ⟨hcore, hclock, hlast, hqueue, hphase⟩ := hall t
  · exact ⟨by rw [hclock]; decide, by omega, by simp [hqueue], fun hs => absurd hs hcore,
      fun hw => by simp [hphase] at hw⟩
  · exact .outside (by simp [hphase]) (by simp [hnet]) (by simp [hnet])
  · simp [queued, hqueue]

theorem step_between (hq : 0 < cfg.quantum) (hs : cfg.slack ≤ cfg.quantum) (h : Between cfg tr s)
    {a : Action n} (he : ((laxP2P cfg n).restrict Awake).enabled s a) :
    Sat ((laxP2P cfg n).step s a) (fun _ => False) fun r => Between cfg (tr ++ r.2) r.1 := by
  obtain ⟨hinv, hout⟩ := h
  obtain ⟨he, hawake⟩ := he
  cases a with
  | synchronize t offset => exact record_sat (synchronize_sat hq hs hinv hout he.1 hawake offset)
  | wake t =>
    obtain ⟨w, s', heq, hout', -, hinv'⟩ := userProcessSyncMsgList_ok hinv hout he.1 he.2
    refine record_sat ?_
    rw [heq]
    change Inv cfg (tr ++ s'.out) s'
    rwa [hout']
  | wakeUp t =>
    refine ⟨?_, hout⟩
    rw [append_nil]
    exact hinv.wakeUp he
  | deliver p => exact record_sat (netProcessSyncMsg_sat hinv hout he)
  | tick t time =>
    have hc := hinv.client t
    obtain ⟨hge, hlt⟩ : (s.client t).clock ≤ time ∧ time ≤ 2 ^ 64 / 1000 + 1 := he
    refine ⟨?_, hout⟩
    rw [append_nil]
    refine hinv.setClient rfl rfl rfl ⟨?_, ?_, hc.queue, hc.sleeping, fun hw => ⟨?_, ?_⟩⟩
    · exact Nat.lt_of_le_of_lt hlt (by decide)
    · exact Nat.le_trans hc.last hge
    · exact (hc.waiting hw).1
    · exact Nat.lt_of_lt_of_le (hc.waiting hw).2 hge
  | setCoreState t st =>
    have hc := hinv.client t
    obtain ⟨hw, hst⟩ : (s.client t).phase = .running ∧ st ≠ .sleeping := he
    refine ⟨?_, hout⟩
    rw [append_nil]
    exact hinv.setClient rfl rfl rfl ⟨hc.clock, hc.last, hc.queue, fun hsleep => absurd hsleep hst,
      fun hwait => by simp [hw] at hwait⟩

/-! ### Answers -/

theorem processSyncReq_out (s : State n) (r : Fin n) (msg : SyncMsg n) (sleeping : Bool)
    (hout : s.out = []) :
    Ensures (LaxP2PSyncClient.processSyncReq cfg s r msg sleeping)
      fun s' => ∃ time rest, s'.out = .ack msg.sender r time :: rest := by
  have hack : ∀ time, (s.sendAck r msg.sender time).out = [.ack msg.sender r time] := by
    simp [State.sendAck, State.emit, State.netSend, hout]
  unfold LaxP2PSyncClient.processSyncReq
  refine ensures_bind fun _ => ensures_bind fun _ => ?_
  split
  · split
    · exact ⟨0, [], hack 0⟩
    · refine ensures_bind fun _ => ⟨0, [.wait r ((s.client r).clock - msg.time)], ?_⟩
      simp [State.emit, hack]
  · split
    · exact ⟨0, [], hack 0⟩
    · split
      · exact ensures_bind fun _ => ⟨_, [], hack _⟩
      · trivial

theorem netProcessSyncMsg_out (cfg : Config) (s : State n) (r : Fin n) {msg : SyncMsg n} (hout : s.out = [])
    (hreq : msg.type = .req) :
    Ensures (LaxP2PSyncClient.netProcessSyncMsg cfg s r msg)
      fun s' => ∃ time rest, s'.out = .ack msg.sender r time :: rest := by
  unfold LaxP2PSyncClient.netProcessSyncMsg
  refine ensures_bind fun _ => ?_
  split
  · rw [hreq]
    exact processSyncReq_out s r msg false hout
  · exact ensures_bind fun _ => processSyncReq_out s r msg true hout
  · refine ensures_bind fun _ => ⟨0, [], ?_⟩
    simp [State.sendAck, State.emit, State.netSend, hout]

end Invariant

/-- Nothing that a thread waits for gets lost: the request, the ACK or the wake-up is there to be
taken. -/
structure OnItsWay (cfg : Config) (tr : List (Event n)) (s : State n) (t : Fin n) : Prop where
  request : (acks.outstanding tr t).isSome → ∃ p ∈ s.net, p.msg.type = .req ∧ p.msg.sender = t
  ack : acks.outstanding tr t = none → (receipts.outstanding tr t).isSome →
    ∃ p ∈ s.net, p.msg.type = .ack ∧ p.receiver = t
  wake : receipts.outstanding tr t = none → (synchronizations.outstanding tr t).isSome →
    (laxP2P cfg n).enabled s (.wake t)

/-- A request that is delivered is answered, and a thread that goes on has the wait time to sleep
for. -/
structure Responds (cfg : Config) (s : State n) : Prop where
  request : ∀ p ∈ s.net, p.msg.type = .req → ∃ s' time rest,
    (laxP2P cfg n).step s (.deliver p) = .ok (s', .ack p.msg.sender p.receiver time :: rest)
  wake : ∀ t, (laxP2P cfg n).enabled s (.wake t) → ∃ s' waitTime,
    (laxP2P cfg n).step s (.wake t) = .ok (s', [.resumed t waitTime]) ∧
      s'.client t = resumedClient (s.client t) waitTime

section Answers

variable {cfg} {tr : List (Event n)} {s : State n}

theorem Inv.onItsWay (h : Inv cfg tr s) (t : Fin n) : OnItsWay cfg tr s t := by
  have hfind : ∀ {q : Packet n → Bool}, s.net.countP q = 1 → ∃ p ∈ s.net, q p = true := by
    intro q hq
    exact countP_pos_iff.mp (by omega)
  have hstage := h.stage t
  unfold openRequests at hstage
  generalize hack : acks.outstanding tr t = a at hstage
  generalize hrec : receipts.outstanding tr t = b at hstage
  generalize hsync : synchronizations.outstanding tr t = c at hstage
  constructor
  · rw [hack]
    cases hstage with
    | requested _ _ hr _ => simpa [isRequestOf] using hfind hr
    | _ => simp
  · rw [hack, hrec]
    cases hstage with
    | answered _ _ _ ha => simpa [isAckTo] using hfind ha
    | _ => simp
  · rw [hrec, hsync]
    cases hstage with
    | received hp hf _ _ _ => exact fun _ _ => ⟨hp, hf⟩
    | _ => simp

theorem Between.responds (h : Between cfg tr s) : Responds cfg s := by
  obtain ⟨hinv, hout⟩ := h
  constructor
  · intro p hp hreq
    have hsat := (netProcessSyncMsg_sat hinv hout hp).and
      (netProcessSyncMsg_out cfg { s with net := s.net.erase p } p.receiver hout hreq)
    simp only [laxP2P, record]
    generalize LaxP2PSyncClient.netProcessSyncMsg cfg _ p.receiver p.msg = x at hsat
    cases x with
    | error e => exact hsat.1.elim
    | ok s' =>
      obtain ⟨-, time, rest, hs'⟩ := hsat
      exact ⟨_, time, rest, by rw [ok_bind, hs']; rfl⟩
  · intro t ht
    obtain ⟨w, s', heq, hout', hclient, -⟩ := userProcessSyncMsgList_ok hinv hout ht.1 ht.2
    exact ⟨{ s' with out := [] }, w, by simp only [laxP2P, record, heq, ok_bind, hout']; rfl, hclient⟩

end Answers

theorem point_to_point_sync (hq : 0 < cfg.quantum) (hs : cfg.slack ≤ cfg.quantum) :
    (∀ e, ¬ ((laxP2P cfg n).restrict Awake).Fails (fun _ => True) e) ∧
    ∀ tr s, ((laxP2P cfg n).restrict Awake).Run (fun _ => True) tr s →
      SyncsAnswered tr ∧ Responds cfg s ∧ ∀ t, OnItsWay cfg tr s t := by
  have hinit : ∀ s, ((laxP2P cfg n).restrict Awake).init s → Between cfg [] s :=
    fun s h => init_between h
  have hstep : ∀ tr s a, Between cfg tr s → True → ((laxP2P cfg n).restrict Awake).enabled s a →
      Returns (((laxP2P cfg n).restrict Awake).step s a) fun r => Between cfg (tr ++ r.2) r.1 :=
    fun tr s a h _ he => step_between hq hs h he
  refine ⟨fun e h => h.allowed hinit hstep, fun tr s h => ?_⟩
  have hb := h.invariant hinit hstep
  exact ⟨hb.1.history, hb.responds, hb.1.onItsWay⟩

/-- A core that runs, and one that nothing has set running. -/
def freshClient (st : CoreState) : Client n := ⟨st, 0, true, 0, [], false, .running⟩

def threeCores (st : CoreState) : State 3 := ⟨fun _ => freshClient st, [], []⟩

theorem init_threeCores (cfg : Config) (st : CoreState) (h : st ≠ .sleeping) :
    (laxP2P cfg 3).init (threeCores st) :=
  ⟨Nat.le_refl 3, rfl, rfl, fun _ => ⟨h, rfl, rfl, rfl, rfl⟩⟩

instance (s : State n) : DecidablePred (Awake s) := fun a => by
  cases a <;> dsimp only [Awake] <;> infer_instance

instance (s : State n) : DecidablePred (((laxP2P cfg n).restrict Awake).enabled s) :=
  fun a => inferInstanceAs (Decidable ((laxP2P cfg n).enabled s a ∧ Awake s a))

/-- The core of tile 0 is 20 ns ahead of tile 1, which asks it to wait. -/
theorem point_to_point_sync_sleeps : ∃ tr s,
    ((laxP2P ⟨10, 5⟩ 3).restrict Awake).Run (fun _ => True) tr s ∧
      .resumed 0 20 ∈ tr ∧ SyncsAnswered tr :=
  System.Run.of_reaches_imp (Q := fun tr _ => .resumed 0 20 ∈ tr)
    (.start (init_threeCores ⟨10, 5⟩ .running (by decide)))
    [.tick 0 20, .synchronize 0 1, .deliver ⟨1, 0, .req, 20⟩, .deliver ⟨0, 1, .ack, 20⟩, .wake 0]
    fun tr s h hq => ⟨hq, ((point_to_point_sync ⟨10, 5⟩ (by decide) (by decide)).2 tr s h).1⟩

/-- A quantum smaller than the slack lets a request out whose time is smaller than the slack. On a
core that nothing has set running a thread can send a request, but its ACK is not expected there. -/
theorem early_request_and_idle_core : (laxP2P ⟨1, 100⟩ 3).Fails (fun _ => True) .early ∧
      (laxP2P ⟨100, 100⟩ 3).Fails (fun _ => True) .notRequest := by
  constructor
  · exact .of_stops (.start (init_threeCores _ .running (by decide)))
      [.tick 0 1, .synchronize 0 1, .deliver ⟨1, 0, .req, 1⟩]
  · exact .of_stops (.start (init_threeCores _ .idle (by decide)))
      [.tick 0 100, .synchronize 0 1, .deliver ⟨1, 0, .req, 100⟩, .deliver ⟨0, 1, .ack, 0⟩]

end Graphite.LaxP2P
