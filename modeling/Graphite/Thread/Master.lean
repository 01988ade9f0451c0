import Graphite.Sync.Threads

/-! # Spawning and joining threads

The master's side of spawn, start, exit and join: the thread manager with its slots and its map from
identifiers to slots, and the thread scheduler with the waiter queue of every tile. Around it, the
threads that are alive and what each is waiting for. A request and its answer are one step.
-/

namespace Graphite.Thread

open Outcome Function List
open Sync (Threads CoreState)

inductive SimulationMode
  | full | lite
  deriving DecidableEq, Repr

/-- Tiles `0` to `applicationTiles - 1` run the application. They are followed, in full mode, by the
thread spawner of every process, and by the MCP. -/
structure Config (N : ℕ) where
  applicationTiles : ℕ
  processes : ℕ
  mode : SimulationMode
  maxThreadsPerCore : ℕ
  application_pos : 0 < applicationTiles
  processes_pos : 0 < processes
  total : N = applicationTiles + (if mode = .full then processes else 0) + 1

namespace Config

variable {N : ℕ} (cfg : Config N)

theorem application_lt : cfg.applicationTiles < N := by
  have := cfg.total
  omega

theorem pos (cfg : Config N) : 0 < N := Nat.lt_of_le_of_lt (Nat.zero_le _) cfg.application_lt

/-- Tile `0`, where `main` runs. -/
def getMainThreadTileNum : Fin N := ⟨0, cfg.pos⟩

def getMCPTileNum : Fin N := ⟨N - 1, Nat.sub_lt cfg.pos (by decide)⟩

/-- The thread spawner of the process that the MCP is in, process `0`. -/
def getCurrentThreadSpawnerTileNum : Option (Fin N) :=
  if cfg.mode = .full then
    some ⟨N - (1 + cfg.processes), by have := cfg.pos; have := cfg.processes_pos; omega⟩
  else none

def isThreadSpawner (t : Fin N) : Prop := cfg.mode = .full ∧ N - cfg.processes - 1 ≤ t.val ∧ t.val ≤ N - 2
deriving Decidable

/-- The tile that is `i` places after `t` among the application tiles. -/
def target (t : Fin N) (i : ℕ) : Fin N :=
  ⟨(t.val + i) % cfg.applicationTiles,
    Nat.lt_trans (Nat.mod_lt _ cfg.application_pos) cfg.application_lt⟩

end Config

inductive Fault
  | notInitializing | notRunning | stillRunning
  | noCores | noThreads | tidOverflow | notIdle | notStartable | emptyQueue
  | unknownThread | multipleJoin
  | threads (e : Sync.Fault)
  deriving DecidableEq, Repr

/-- `ThreadSpawnRequest`, once its destination is known. -/
structure SpawnRequest (N : ℕ) where
  requester : Fin N
  requesterTidx : ℕ
  destination : Fin N
  destinationTidx : ℕ
  destinationTid : ℕ
  deriving DecidableEq, Repr

/-- The messages of the master, and two requests to it. A thread that exits has an identifier if it
was spawned. -/
inductive Event (N : ℕ)
  | started (t : Fin N) (tidx tid : ℕ)
  | spawnReply (t : Fin N) (destination : Fin N) (tidx tid : ℕ)
  | exited (t : Fin N) (tid : Option ℕ)
  | exitReply (t : Fin N) (next : Option ℕ)
  | joinRequest (t : Fin N) (tid : ℕ)
  | joinReply (t : Fin N) (time : ℕ)
  deriving DecidableEq, Repr

/-- The tables of the thread manager, with the status of every slot in `threads`, and the waiter
queues of the scheduler. -/
structure Master (N : ℕ) where
  threads : Threads N
  waiter : Fin N → ℕ → Option (Fin N × ℕ)
  threadId : Fin N → ℕ → Option ℕ
  completionTime : Fin N → ℕ → ℕ
  tidCounter : ℕ
  tidToCore : List (Fin N × ℕ)
  waiterQueue : Fin N → List (SpawnRequest N)
  out : List (Event N)

variable {N : ℕ}

def liftThreads {α : Type} (x : Except Sync.Fault α) : Except Fault α := x.mapError .threads

def setSlot {α : Type} (f : Fin N → ℕ → α) (t : Fin N) (i : ℕ) (a : α) : Fin N → ℕ → α :=
  update f t (update (f t) i a)

namespace Master

variable (m : Master N) (t : Fin N) (i : ℕ)

def emit (e : Event N) : Master N := { m with out := m.out ++ [e] }

def getThreadState : Except Fault CoreState :=
  match (m.threads.status t)[i]? with
  | some st => pure st
  | none => throw (.threads .outOfBounds)

def setThreadState (st : CoreState) : Except Fault (Master N) := do
  let T ← liftThreads (m.threads.setStatus t i st)
  pure { m with threads := T }

def stallThreadAt : Except Fault (Master N) := do
  let T ← liftThreads (m.threads.stallThreadAt t i)
  pure { m with threads := T }

/-- `stallThread` of the running thread of a core. -/
def stallThread : Except Fault (Master N) := do
  let T ← liftThreads (m.threads.stallThread t)
  pure { m with threads := T }

/-- `resumeThread` of the thread that was stalled last. -/
def resumeThread : Except Fault (Master N) := do
  let T ← liftThreads (m.threads.resumeThread t)
  pure { m with threads := T }

def isCoreRunning : Except Fault (Option ℕ) := liftThreads (m.threads.isCoreRunning t)

def isCoreInitializing : Bool := (m.threads.status t).any fun st => st = .initializing

def getIdleThread : Option ℕ := (m.threads.status t).findIdx? fun st => st = .idle

end Master

/-! ## The thread scheduler -/

namespace ThreadScheduler

variable (cfg : Config N) (m : Master N)

/-- Asks the process of the tile to create the thread in front of the queue. -/
def masterStartThread (t : Fin N) : Except Fault (Master N) :=
  match m.waiterQueue t with
  | [] => throw .emptyQueue
  | req :: _ => do
    let st ← m.getThreadState req.destination req.destinationTidx
    check (st = .initializing ∨ st = .stalled) .notStartable
    pure (m.emit (.started req.destination req.destinationTidx req.destinationTid))

/-- Whether a thread can start at once: a requester on the same tile goes on running there. -/
def isThreadStartable (req : SpawnRequest N) : Except Fault Bool := do
  if req.requester = req.destination then pure false
  else
    match ← m.isCoreRunning req.destination with
    | some _ => pure false
    | none => pure (!m.isCoreInitializing req.destination && !m.threads.isCoreStalled req.destination)

def masterScheduleThread (req : SpawnRequest N) : Except Fault (Master N) := do
  let st ← m.getThreadState req.destination req.destinationTidx
  let m :=
    if some req.destination ≠ cfg.getCurrentThreadSpawnerTileNum then
      { m with waiterQueue :=
        Function.update m.waiterQueue req.destination (m.waiterQueue req.destination ++ [req]) }
    else m
  let startable ← isThreadStartable m req
  check (st = .idle) .notIdle
  let m ← m.setThreadState req.destination req.destinationTidx .initializing
  if startable then masterStartThread m req.destination else pure m

/-- Starts or resumes the thread in front of the queue of `t`; returns its slot. -/
def startNext (t : Fin N) : Except Fault (Master N × Option ℕ) :=
  match m.waiterQueue t with
  | [] => pure (m, none)
  | req :: _ => do
    let st ← m.getThreadState t req.destinationTidx
    let m ← if st = .initializing then masterStartThread m t
      else m.setThreadState t req.destinationTidx .running
    pure (m, some req.destinationTidx)

def masterOnThreadExit (t : Fin N) : Except Fault (Master N) := do
  let running ← m.isCoreRunning t
  check (running = none) .stillRunning
  let m :=
    if some t ≠ cfg.getCurrentThreadSpawnerTileNum ∧ t ≠ cfg.getMCPTileNum then
      { m with waiterQueue := update m.waiterQueue t (m.waiterQueue t).tail }
    else m
  let (m, next) ← startNext m t
  pure (m.emit (.exitReply t next))

end ThreadScheduler

/-! ## The thread manager -/

namespace ThreadManager

variable (cfg : Config N) (m : Master N)

def resize (l : List (Fin N × ℕ)) (n : ℕ) : List (Fin N × ℕ) :=
  l.take n ++ replicate (n - l.length) (cfg.getMainThreadTileNum, 0)

/-- The map grows to twice the new identifier, which is computed as an `int`. -/
def getNewThreadId (t : Fin N) (i : ℕ) : Except Fault (Master N × ℕ) := do
  let tid := m.tidCounter + 1
  let map ←
    if m.tidToCore.length ≤ tid then do
      check (2 * tid < 2 ^ 31) .tidOverflow
      pure (resize cfg m.tidToCore (2 * tid))
    else pure m.tidToCore
  check (tid < map.length) (.threads .outOfBounds)
  pure ({ m with
    tidCounter := tid
    tidToCore := map.set tid (t, i)
    threadId := setSlot m.threadId t i (some tid) }, tid)

/-- The first application tile after `t`, tile `0` excepted, whose slot `j` is idle. -/
def findTile (t : Fin N) (j : ℕ) : List ℕ → Except Fault (Option (Fin N))
  | [] => pure none
  | i :: rest =>
    if cfg.target t i = cfg.getMainThreadTileNum then findTile t j rest
    else do
      let st ← m.getThreadState (cfg.target t i) j
      if st = .idle then pure (some (cfg.target t i)) else findTile t j rest

/-- The slot for a thread without a destination. The search goes on after a tile is found for `j`.
-/
def findSlot (t : Fin N) : List ℕ → Option (Fin N × ℕ) → Except Fault (Option (Fin N × ℕ))
  | [], found => pure found
  | j :: rest, found => do
    match ← findTile cfg m t j (range' 1 cfg.applicationTiles) with
    | some d => findSlot t rest (some (d, j))
    | none => findSlot t rest found

def findDestination (t : Fin N) : Option (Fin N) → Except Fault (Fin N × ℕ)
  | none => do
    match ← findSlot cfg m t (range cfg.maxThreadsPerCore) none with
    | some slot => pure slot
    | none => throw .noCores
  | some d =>
    match m.getIdleThread d with
    | some j => pure (d, j)
    | none => throw .noThreads

def masterSpawnThreadReply (req : SpawnRequest N) : Except Fault (Master N) := do
  let m ← m.resumeThread req.requester
  pure (m.emit (.spawnReply req.requester req.destination req.destinationTidx req.destinationTid))

def masterSpawnThread (t : Fin N) (i : ℕ) (destination : Option (Fin N)) : Except Fault (Master N) := do
  let m ← m.stallThreadAt t i
  let (d, j) ← findDestination cfg m t destination
  let (m, tid) ← getNewThreadId cfg m d j
  let req := ⟨t, i, d, j, tid⟩
  let m ← ThreadScheduler.masterScheduleThread cfg m req
  masterSpawnThreadReply m req

def masterOnThreadStart (t : Fin N) (i : ℕ) : Except Fault (Master N) := do
  let st ← m.getThreadState t i
  check (st = .initializing) .notInitializing
  m.setThreadState t i .running

/-- Answers the thread that joins slot `i` of `t`, if there is one. -/
def wakeUpWaiter (t : Fin N) (i time : ℕ) : Except Fault (Master N) :=
  match m.waiter t i with
  | none => pure m
  | some (w, j) => do
    let m ← m.setThreadState w j .running
    pure ({ m with waiter := setSlot m.waiter t i none }.emit (.joinReply w time))

def masterOnThreadExit (t : Fin N) (i time : ℕ) : Except Fault (Master N) := do
  let st ← m.getThreadState t i
  check (st = .running) .notRunning
  let m ← m.setThreadState t i .idle
  let m := { m with completionTime := setSlot m.completionTime t i time }
  let m ← wakeUpWaiter m t i time
  ThreadScheduler.masterOnThreadExit cfg m t

/-- An entry of the map; before the first one there is none. -/
def slotOf (tid : Int32) : Except Fault (Fin N × ℕ) :=
  match tid.toInt with
  | .ofNat k => (m.tidToCore[k]?).elim (throw (.threads .outOfBounds)) pure
  | .negSucc _ => throw (.threads .outOfBounds)

/-- An identifier is an `int`, and the check only bounds it from above. -/
def masterJoinThread (t : Fin N) (i : ℕ) (tid : Int32) : Except Fault (Master N) := do
  check (tid.toInt < m.tidToCore.length) .unknownThread
  let (d, j) ← slotOf m tid
  check (m.waiter d j = none) .multipleJoin
  let m := { m with waiter := setSlot m.waiter d j (some (t, i)) }
  let m ← m.stallThread t
  let st ← m.getThreadState d j
  if st = .idle then wakeUpWaiter m d j (m.completionTime d j) else pure m

end ThreadManager

/-! ## The threads -/

/-- A thread whose creation has been asked for, that runs, that is blocked in some other server, or
that joins another thread. -/
inductive Phase
  | starting | running | blocked
  | joining (tid : ℕ)
  deriving DecidableEq, Repr

/-- A thread that is alive: its identifier, if it was spawned, and its slot. -/
structure Live where
  tid : Option ℕ
  tidx : ℕ
  phase : Phase
  deriving DecidableEq, Repr

structure State (N : ℕ) where
  master : Master N
  live : Fin N → List Live

def Live.resumed (τ : Live) : Live :=
  match τ.phase with
  | .joining _ => { τ with phase := .running }
  | _ => τ

/-- What the messages of the master do: a thread is created, or a join returns. -/
def deliver (live : Fin N → List Live) : Event N → Fin N → List Live
  | .started t tidx tid => update live t (live t ++ [⟨some tid, tidx, .starting⟩])
  | .joinReply t _ => update live t ((live t).map Live.resumed)
  | _ => live

namespace State

variable (s : State N)

def setPhase (t : Fin N) (τ : Live) (ph : Phase) : State N :=
  { s with live := update s.live t ((s.live t).replace τ { τ with phase := ph }) }

/-- The master has handled a request that shows `request`. -/
def answered (m : Master N) (request : List (Event N)) : State N × List (Event N) :=
  ({ master := { m with out := [] }, live := m.out.foldl deliver s.live }, request ++ m.out)

end State

/-- Each action is taken by a thread `τ` that is alive on tile `t`; `resume` is taken for it. -/
inductive Action (N : ℕ)
  | spawn (t : Fin N) (τ : Live) (destination : Option (Fin N))
  | start (t : Fin N) (τ : Live)
  | stall (t : Fin N) (τ : Live)
  | resume (t : Fin N) (τ : Live)
  | exit (t : Fin N) (τ : Live) (time : ℕ)
  | join (t : Fin N) (τ : Live) (tid : Int32)

variable (cfg : Config N)

def initialStatus (t : Fin N) : CoreState :=
  if t = cfg.getMainThreadTileNum ∨ cfg.isThreadSpawner t ∨ t = cfg.getMCPTileNum then .running
  else .idle

def initialMaster : Master N where
  threads := ⟨fun t => (replicate cfg.maxThreadsPerCore .idle).set 0 (initialStatus cfg t), fun _ => none⟩
  waiter _ _ := none
  threadId _ _ := none
  completionTime _ _ := 0
  tidCounter := 0
  tidToCore := []
  waiterQueue _ := []
  out := []

def initialState : State N where
  master := initialMaster cfg
  live t := if initialStatus cfg t = .running then [⟨none, 0, .running⟩] else []

/-- A join names an identifier that some spawn has returned. The MCP does not exit. -/
def threads : System (State N) (Action N) Fault (Event N) where
  init s := s = initialState cfg
  enabled s
    | .spawn t τ _ => τ ∈ s.live t ∧ τ.phase = .running
    | .start t τ => τ ∈ s.live t ∧ τ.phase = .starting
    | .stall t τ => τ ∈ s.live t ∧ τ.phase = .running
    | .resume t τ => τ ∈ s.live t ∧ τ.phase = .blocked
    | .exit t τ _ => τ ∈ s.live t ∧ τ.phase = .running ∧ t ≠ cfg.getMCPTileNum
    | .join t τ tid =>
      τ ∈ s.live t ∧ τ.phase = .running ∧ 1 ≤ tid.toInt ∧ tid.toInt ≤ s.master.tidCounter
  step s
    | .spawn t τ destination => do
      let m ← ThreadManager.masterSpawnThread cfg s.master t τ.tidx destination
      pure (s.answered m [])
    | .start t τ => do
      let m ← ThreadManager.masterOnThreadStart s.master t τ.tidx
      pure ((s.setPhase t τ .running).answered m [])
    | .stall t τ => do
      let m ← s.master.stallThread t
      pure ((s.setPhase t τ .blocked).answered m [])
    | .resume t τ => do
      let m ← s.master.resumeThread t
      pure ((s.setPhase t τ .running).answered m [])
    | .exit t τ time => do
      let m ← ThreadManager.masterOnThreadExit cfg s.master t τ.tidx time
      pure ({ s with live := update s.live t ((s.live t).erase τ) }.answered m [.exited t τ.tid])
    | .join t τ tid => do
      let m ← ThreadManager.masterJoinThread s.master t τ.tidx tid
      pure ((s.setPhase t τ (.joining tid.toNatClampNeg)).answered m
        [.joinRequest t tid.toNatClampNeg])

instance (s : State N) : DecidablePred ((threads cfg).enabled s) := fun a => by
  cases a <;> dsimp only [threads] <;> infer_instance

end Graphite.Thread
