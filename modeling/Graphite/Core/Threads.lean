import Graphite.Core.Access

/-! # The threads of a tile and the lock of its memory manager

Each tile has an application thread, which carries out the accesses of the core, and a sim thread,
which handles the messages of the network, both under one lock that is not recursive. On a miss the
application thread gives the lock up and waits for the sim thread, which in turn waits until the
application thread has taken the lock back (`waitForSimThread`, `wakeUpAppThread`,
`waitForAppThread` and `wakeUpSimThread`).

`Memory` is the memory system, whose steps are atomic. The threads take its steps without asking
whether they are enabled; the lock makes sure of it, so every run of the threads is one of the memory
system.
-/

namespace Graphite.Core

open Outcome PrL2

/-- A memory system as the threads of its tiles see it: where the application threads are, whether the
replacement policies can pick the ways of a choice, whether a message has arrived, and whether the L1
cache permits an access. -/
structure Memory (σ ω : Type) (N : ℕ) where
  system : System σ (PrL2.Action ℕ N) Fault ω
  app : σ → Fin N → App ℕ
  lineSize : ℕ
  hasWays : Fin N → Choice → Bool
  arrived : σ → Fin N → Fin N → Bool
  permissible : σ → Fin N → Access ℕ → Bool

inductive Thread
  | app | sim
  deriving DecidableEq, Repr

/-- Where the application thread is: in its program, in `waitForSimThread`, or before
`wakeUpSimThread`. -/
inductive AppPc
  | running | blocked | woken
  deriving DecidableEq, Repr

/-- Where the sim thread is: between messages, before a message is handled, in `waitForAppThread` with
the semaphore and then with the lock to come, or before it gives the lock back. -/
inductive SimPc
  | idle | handling | blocked | woken | finishing
  deriving DecidableEq, Repr

/-- The threads of a tile, the lock and the semaphores; `ops` is what the application thread still
has to do. -/
structure Threads where
  lock : Option Thread
  appThreadSem : ℕ
  simThreadSem : ℕ
  app : AppPc
  ops : List Op
  sim : SimPc

def Threads.initial : Threads := ⟨none, 0, 0, .running, [], .idle⟩

structure State (σ : Type) (N : ℕ) where
  mem : σ
  threads : Fin N → Threads

/-- What the core asks for: an access to a part of one line, or an atomic read-modify-write of any
operand. Without a lock prefix the pieces of an operand are accesses of their own. -/
inductive Command
  | access (acc : Access ℕ)
  | readModifyWrite (address : ℕ) (old new : List UInt8)

def Command.program (lineSize : ℕ) : Command → Option (List Op)
  | .access acc => some (coreInitiateMemoryAccess acc)
  | .readModifyWrite address old new => Core.readModifyWrite lineSize address old new

/-- What a thread has done with the lock, an access that is complete, and whether it hit in the L1
cache, or a message that has been handled. -/
inductive Mark
  | acquire | release | handOver | takeBack | done (acc : Access ℕ) (hit : Bool) | handled

inductive Event (N : ℕ)
  | start (t : Fin N) (cmd : Command)
  | mark (t : Fin N) (m : Mark)

inductive Action (N : ℕ)
  | start (t : Fin N) (cmd : Command)
  | app (t : Fin N) (ch : Choice)
  | sim (t src : Fin N) (ch : Choice)

variable {σ ω : Type} {N : ℕ}

namespace State

def set (s : State σ N) (t : Fin N) (τ : Threads) : State σ N :=
  { s with threads := Function.update s.threads t τ }

end State

namespace Threads

variable (M : Memory σ ω N) (s : State σ N) (t : Fin N)

/-- After an attempt at access `acc` that has left the memory system in `mem`. -/
def attempted (τ : Threads) (acc : Access ℕ) (ops : List Op) (hit : Bool) (mem : σ) :
    State σ N × List (Event N) :=
  match M.app mem t with
  | .waiting _ _ =>
    (State.set ⟨mem, s.threads⟩ t { τ with lock := none, app := .blocked }, [.mark t .handOver])
  | _ => (State.set ⟨mem, s.threads⟩ t { τ with app := .running, ops := ops }, [.mark t (.done acc hit)])

def appStep (ch : Choice) : Except Fault (State σ N × List (Event N)) :=
  let τ := s.threads t
  match τ.app, τ.ops with
  | .running, .acquire :: ops =>
    pure (s.set t { τ with lock := some .app, ops := ops }, [.mark t .acquire])
  | .running, .release :: ops =>
    pure (s.set t { τ with lock := none, ops := ops }, [.mark t .release])
  | .running, .access acc :: ops => do
    let (mem, _) ← M.system.step s.mem (.access t acc ch)
    pure (attempted M s t τ acc ops (M.permissible s.mem t acc) mem)
  | .blocked, _ =>
    pure (s.set t { τ with appThreadSem := τ.appThreadSem - 1, app := .woken }, [])
  | .woken, .access acc :: ops => do
    let (mem, _) ← M.system.step s.mem (.resume t ch)
    let (s, out) := attempted M s t
      { τ with lock := some .app, simThreadSem := τ.simThreadSem + 1 } acc ops false mem
    pure (s, .mark t .takeBack :: out)
  | _, _ => pure (s, [])

def simStep (src : Fin N) (ch : Choice) : Except Fault (State σ N × List (Event N)) :=
  let τ := s.threads t
  match τ.sim with
  | .idle => pure (s.set t { τ with lock := some .sim, sim := .handling }, [])
  | .handling => do
    let (mem, _) ← M.system.step s.mem (.deliver src t ch)
    let τ' : Threads := match M.app mem t with
      | .granted _ _ => { τ with lock := none, appThreadSem := τ.appThreadSem + 1, sim := .blocked }
      | _ => { τ with sim := .finishing }
    pure (State.set ⟨mem, s.threads⟩ t τ', [.mark t .handled])
  | .blocked => pure (s.set t { τ with simThreadSem := τ.simThreadSem - 1, sim := .woken }, [])
  | .woken => pure (s.set t { τ with lock := some .sim, sim := .finishing }, [])
  | .finishing => pure (s.set t { τ with lock := none, sim := .idle }, [])

end Threads

def Plain (lineSize : ℕ) (acc : Access ℕ) : Prop :=
  acc.component = .l1DCache ∧ acc.lock = .none ∧ acc.offset + acc.buf.length ≤ lineSize ∧ acc.buf ≠ []
deriving Decidable

/-- The core may start a command: the last one has been carried out. -/
def Command.Startable (lineSize : ℕ) (τ : Threads) (cmd : Command) : Prop :=
  τ.app = .running ∧ τ.ops = [] ∧ (cmd.program lineSize).isSome ∧
    match cmd with
    | .access acc => Plain lineSize acc
    | .readModifyWrite _ old new => new.length = old.length

def Threads.AppReady (M : Memory σ ω N) (t : Fin N) (ch : Choice) (τ : Threads) : Prop :=
  match τ.app, τ.ops with
  | .running, .acquire :: _ => τ.lock = none
  | .running, .access _ :: _ => M.hasWays t ch = true
  | .running, .release :: _ => True
  | .running, [] => False
  | .blocked, _ => 0 < τ.appThreadSem
  | .woken, _ => τ.lock = none ∧ M.hasWays t ch = true

def Threads.SimReady (M : Memory σ ω N) (mem : σ) (t src : Fin N) (ch : Choice) (τ : Threads) : Prop :=
  match τ.sim with
  | .idle => M.arrived mem src t = true ∧ τ.lock = none
  | .handling => M.arrived mem src t = true ∧ M.hasWays t ch = true
  | .blocked => 0 < τ.simThreadSem
  | .woken => τ.lock = none
  | .finishing => True

/-- The threads of all tiles over the memory system `M`. -/
def threads (M : Memory σ ω N) : System (State σ N) (Action N) Fault (Event N) where
  init s := M.system.init s.mem ∧ s.threads = fun _ => .initial
  enabled s
    | .start t cmd => cmd.Startable M.lineSize (s.threads t)
    | .app t ch => (s.threads t).AppReady M t ch
    | .sim t src ch => (s.threads t).SimReady M s.mem t src ch
  step s
    | .start t cmd => pure (s.set t { s.threads t with ops := (cmd.program M.lineSize).getD [] },
        [.start t cmd])
    | .app t ch => Threads.appStep M s t ch
    | .sim t src ch => Threads.simStep M s t src ch

section Decide

variable (M : Memory σ ω N) {n : ℕ}

instance (τ : Threads) (cmd : Command) : Decidable (cmd.Startable n τ) := by
  have : Decidable (τ.ops = []) := decidable_of_iff (τ.ops.isEmpty = true) List.isEmpty_iff
  unfold Command.Startable
  cases cmd <;> infer_instance

instance (t : Fin N) (ch : Choice) (τ : Threads) : Decidable (τ.AppReady M t ch) := by
  unfold Threads.AppReady
  split <;> infer_instance

instance (mem : σ) (t src : Fin N) (ch : Choice) (τ : Threads) :
    Decidable (τ.SimReady M mem t src ch) := by
  unfold Threads.SimReady
  split <;> infer_instance

instance (s : State σ N) : DecidablePred ((threads M).enabled s) := fun a => by
  cases a <;> dsimp only [threads] <;> infer_instance

end Decide

/-! ## Laws of a memory system -/

/-- When the memory system takes a step for a thread. -/
def Memory.Offers (M : Memory σ ω N) (s : σ) : PrL2.Action ℕ N → Prop
  | .access t acc ch => (acc.offset + acc.buf.length ≤ M.lineSize ∧ acc.buf ≠ [] ∧
      (acc.lock = .lock → acc.op = .readEx) ∧ (acc.lock = .unlock → acc.op = .write)) ∧
      M.hasWays t ch = true ∧ (M.app s t).Accepts acc
  | .resume t ch => M.hasWays t ch = true ∧ (M.app s t).Woken
  | .deliver src t ch => M.hasWays t ch = true ∧ M.arrived s src t = true ∧ (M.app s t).Open

/-- The memory system takes the steps of its threads, and an access never makes it stop. -/
structure Memory.Lawful (M : Memory σ ω N) : Prop where
  init {s : σ} : M.system.init s → ∀ t, M.app s t = .idle
  enabled {s : σ} {act : PrL2.Action ℕ N} : DataOnly act → M.Offers s act → M.system.enabled s act
  step {tr : List ω} {s : σ} {act : PrL2.Action ℕ N} : M.system.Run DataOnly tr s → DataOnly act →
    M.system.enabled s act →
    Sat (M.system.step s act) (fun _ => act.IsDeliver) fun r => AppStep (M.app s) (M.app r.1) act
  /-- Between the halves of an atomic read-modify-write its line is writable in the L1 cache. -/
  hit {tr : List ω} {s : σ} {t : Fin N} {acc : Access ℕ} : M.system.Run DataOnly tr s →
    M.app s t = .locked acc.address → acc.component = .l1DCache → acc.op = .write →
    M.permissible s t acc = true

end Graphite.Core
