import Graphite.Library.Dialogue
import Graphite.Sync.Threads

/-! # Lax barrier synchronization

The clients of the cores wait at a barrier of simulated time; the server at the MCP lets them go
when every running core has come to it, and then moves the barrier on until it can let some client
go. Stalls and exits of threads make the server look again. The status of the threads may change in
any way that leaves a core with one running thread at most. Times are naturals: clocks are
nanoseconds made of 64-bit picoseconds, and the barrier is at most an interval beyond a clock.
-/

namespace Graphite.LaxBarrier

open Outcome Function List
open Sync (Threads CoreState)

/-- The assertions of the server and of the thread manager; `diverges` is a release that does not
end. -/
inductive Fault
  | notActive | diverges
  | threads (e : Sync.Fault)
  deriving DecidableEq, Repr

/-- A client reports its clock; the server lets it go, with the barrier at the given time. -/
inductive Event (n : ℕ)
  | wait (t : Fin n) (time : ℕ)
  | release (t : Fin n) (barrier : ℕ)
  deriving DecidableEq, Repr

/-- `LaxBarrierSyncServer`, for the application tiles. -/
structure Server (n : ℕ) where
  nextBarrierTime : ℕ
  localClock : Fin n → ℕ
  barrierAcquire : Fin n → Bool
  out : List (Event n) := []

variable {n : ℕ}

def liftThreads {α : Type} (x : Except Sync.Fault α) : Except Fault α := x.mapError .threads

def invalidThreadId : ℤ := -1

/-- The assertion that a core runs or initializes. `isCoreInitializing` returns a `bool`, which is
compared with the invalid thread. -/
def assertActive (T : Threads n) (t : Fin n) : Except Fault Unit := do
  let running ← liftThreads (T.isCoreRunning t)
  let initializing : ℤ := if (T.status t).any fun st => st = .initializing then 1 else 0
  check (running ≠ none ∨ initializing ≠ invalidThreadId) .notActive

namespace Server

variable (interval : ℕ) (T : Threads n) (s : Server n)

/-- `netSend` of BARRIER_RELEASE. -/
def sendRelease (t : Fin n) : Server n := { s with out := s.out ++ [.release t s.nextBarrierTime] }

/-- A client that has acquired the barrier is let go. -/
def letGo (t : Fin n) : Server n where
  nextBarrierTime := s.nextBarrierTime
  localClock := s.localClock
  barrierAcquire := update s.barrierAcquire t false
  out := (s.sendRelease t).out

/-- The loop of `isBarrierReached`; `single` tells whether some thread has reached the barrier. -/
def reachedLoop : List (Fin n) → Bool → Except Fault Bool
  | [], single => pure single
  | t :: rest, single =>
    if s.localClock t < s.nextBarrierTime then do
      match ← liftThreads (T.isCoreRunning t) with
      | some _ => pure false
      | none => reachedLoop rest single
    else do
      assertActive T t
      reachedLoop rest true

def isBarrierReached : Except Fault Bool := reachedLoop T s (finRange n) false

/-- The inner loop of `barrierRelease`; `resumed` tells whether some thread was resumed. -/
def releaseTiles : List (Fin n) → Server n → Bool → Except Fault (Server n × Bool)
  | [], s, resumed => pure (s, resumed)
  | t :: rest, s, resumed =>
    if s.localClock t < s.nextBarrierTime ∧ s.barrierAcquire t = true then do
      assertActive T t
      releaseTiles rest (s.letGo t) true
    else releaseTiles rest s resumed

/-- The outer loop of `barrierRelease`. -/
def releaseLoop : ℕ → Server n → Except Fault (Server n)
  | 0, _ => throw .diverges
  | fuel + 1, s => do
    let (s, resumed) ← releaseTiles T (finRange n)
      { s with nextBarrierTime := s.nextBarrierTime + interval } false
    if resumed then pure s else releaseLoop fuel s

def rounds : ℕ := (finRange n).foldr (fun t b => max (s.localClock t) b) 0 + 1

def barrierRelease : Except Fault (Server n) := releaseLoop interval T s.rounds s

def signal : Except Fault (Server n) := do
  if ← isBarrierReached T s then barrierRelease interval T s else pure s

def barrierWait (t : Fin n) (time : ℕ) : Except Fault (Server n) := do
  assertActive T t
  if time < s.nextBarrierTime then pure (s.sendRelease t)
  else
    signal interval T { s with
      localClock := update s.localClock t time
      barrierAcquire := update s.barrierAcquire t true }

end Server

/-- `LaxBarrierSyncClient`, with the clock that it has reported and waits on. -/
structure Client where
  nextSyncTime : ℕ
  waiting : Option ℕ
  deriving DecidableEq, Repr

/-- The wait messages on their way to the server, and how many releases are on their way to each
client. -/
structure State (n : ℕ) where
  server : Server n
  threads : Threads n
  client : Fin n → Client
  toServer : Fin n → List ℕ
  toClient : Fin n → ℕ

/-- `synchronize` of a client with its clock, the server's handling of its message, the receipt of
the release, and a change of the status of thread `i` of a core. -/
inductive Action (n : ℕ)
  | synchronize (t : Fin n) (time : ℕ)
  | process (t : Fin n)
  | receive (t : Fin n)
  | setStatus (t : Fin n) (i : ℕ) (st : CoreState)

def releases (out : List (Event n)) (t : Fin n) : ℕ :=
  out.countP fun e => match e with
    | .release t' _ => t' = t
    | _ => false

def State.answered (s : State n) (server : Server n) : State n × List (Event n) :=
  ({ s with
    server := { server with out := [] }
    toClient := fun t => s.toClient t + releases server.out t }, server.out)

variable (interval n)

/-- `stallThread` and `masterOnThreadExit` signal the server. -/
def laxBarrier : System (State n) (Action n) Fault (Event n) where
  init s := s.server = ⟨interval, fun _ => 0, fun _ => false, []⟩ ∧
    (∀ t, (s.threads.status t).count .running ≤ 1) ∧ (∀ t, s.client t = ⟨interval, none⟩) ∧
    (∀ t, s.toServer t = []) ∧ ∀ t, s.toClient t = 0
  enabled s
    | .synchronize t _ => (s.client t).waiting = none
    | .process t => s.toServer t ≠ []
    | .receive t => (s.client t).waiting ≠ none ∧ 0 < s.toClient t
    | .setStatus t i st =>
      i < (s.threads.status t).length ∧ ((s.threads.status t).set i st).count .running ≤ 1
  step s
    | .synchronize t time =>
      if (s.client t).nextSyncTime ≤ time then
        pure ({ s with
          client := update s.client t { s.client t with waiting := some time }
          toServer := update s.toServer t (s.toServer t ++ [time]) }, [.wait t time])
      else pure (s, [])
    | .process t =>
      match s.toServer t with
      | [] => pure (s, [])
      | time :: rest => do
        let server ← s.server.barrierWait interval s.threads t time
        pure ({ s with toServer := update s.toServer t rest }.answered server)
    | .receive t =>
      match (s.client t).waiting with
      | none => pure (s, [])
      | some time => pure ({ s with
          client := update s.client t ⟨time / interval * interval + interval, none⟩
          toClient := update s.toClient t (s.toClient t - 1) }, [])
    | .setStatus t i st => do
      let T ← liftThreads (s.threads.setStatus t i st)
      let server ←
        if st = .stalled ∨ st = .idle then s.server.signal interval T else pure s.server
      pure ({ s with threads := T }.answered server)

variable {interval n} {server : Server n}

instance (s : State n) : DecidablePred ((laxBarrier n interval).enabled s) := fun a => by
  cases a <;> dsimp only [laxBarrier] <;> infer_instance

/-! ## The server -/

def OneRunning (T : Threads n) : Prop := ∀ t, (T.status t).count .running ≤ 1

/-- Some thread of `t` runs. -/
def Running (T : Threads n) (t : Fin n) : Prop := .running ∈ T.status t

section Server

variable {T : Threads n} {s : Server n} {t : Fin n}

theorem findRunning_ok (l : List CoreState) (j : ℕ) (found : Option ℕ)
    (h : l.count .running + (if found = none then 0 else 1) ≤ 1) :
    ∃ r, Threads.findRunning l j found = .ok r ∧ (r = none ↔ found = none ∧ .running ∉ l) := by
  induction l generalizing j found with
  | nil => exact ⟨found, rfl, by simp⟩
  | cons st rest ih =>
    unfold Threads.findRunning
    by_cases hst : st = .running
    · subst hst
      cases found with
      | some i => simp at h
      | none =>
        rw [if_pos rfl]
        obtain ⟨r, hr, hiff⟩ := ih (j + 1) (some j) (by simpa using h)
        exact ⟨r, hr, by simpa using hiff⟩
    · rw [if_neg hst]
      rw [count_cons_of_ne (by simpa using hst)] at h
      obtain ⟨r, hr, hiff⟩ := ih (j + 1) found h
      exact ⟨r, hr, by simpa [Ne.symm hst] using hiff⟩

theorem isCoreRunning_ok (hT : OneRunning T) (t : Fin n) :
    ∃ r, liftThreads (T.isCoreRunning t) = .ok r ∧ (r = none ↔ ¬ Running T t) := by
  obtain ⟨r, hr, hiff⟩ := findRunning_ok (T.status t) 0 none (by simpa using hT t)
  exact ⟨r, by simp [liftThreads, Threads.isCoreRunning, hr, Except.mapError],
    by simpa [Running] using hiff⟩

theorem assertActive_ok (hT : OneRunning T) (t : Fin n) : assertActive T t = .ok () := by
  obtain ⟨r, hr, -⟩ := isCoreRunning_ok hT t
  rw [assertActive, hr, ok_bind]
  refine check_pos (.inr ?_)
  split <;> decide

theorem reachedLoop_ok (hT : OneRunning T) (l : List (Fin n)) (single : Bool) :
    ∃ b, s.reachedLoop T l single = .ok b ∧ (b = true →
      (∀ t ∈ l, Running T t → s.nextBarrierTime ≤ s.localClock t) ∧
      (single = true ∨ ∃ t ∈ l, s.nextBarrierTime ≤ s.localClock t)) := by
  induction l generalizing single with
  | nil => exact ⟨single, rfl, fun h => ⟨by simp, .inl h⟩⟩
  | cons t rest ih =>
    unfold Server.reachedLoop
    split
    · next hlt =>
      obtain ⟨r, hr, hiff⟩ := isCoreRunning_ok hT t
      rw [hr, ok_bind]
      cases r with
      | some i => exact ⟨false, rfl, by simp⟩
      | none =>
        obtain ⟨b, hb, himp⟩ := ih single
        refine ⟨b, hb, fun h => ?_⟩
        obtain ⟨hall, hsingle⟩ := himp h
        refine ⟨forall_mem_cons.mpr ⟨fun hrun => absurd hrun (hiff.mp rfl), hall⟩, ?_⟩
        exact hsingle.imp_right fun ⟨x, hx, hle⟩ => ⟨x, mem_cons_of_mem _ hx, hle⟩
    · next hge =>
      rw [assertActive_ok hT, ok_bind]
      obtain ⟨b, hb, himp⟩ := ih true
      refine ⟨b, hb, fun h => ?_⟩
      obtain ⟨hall, -⟩ := himp h
      exact ⟨forall_mem_cons.mpr ⟨fun _ => by omega, hall⟩, .inr ⟨t, mem_cons_self, by omega⟩⟩

/-- Whether `t` is let go when the barrier is at `b`. -/
def goes (s : Server n) (b : ℕ) (t : Fin n) : Bool := s.barrierAcquire t && decide (s.localClock t < b)

theorem goes_eq_true {b : ℕ} : goes s b t = true ↔ s.barrierAcquire t = true ∧ s.localClock t < b := by
  simp [goes]

theorem letGo_acquire (x : Fin n) :
    (s.letGo t).barrierAcquire x = if x = t then false else s.barrierAcquire x :=
  update_apply ..

theorem releaseTiles_ok (hT : OneRunning T) (l : List (Fin n)) (hl : l.Nodup) (resumed : Bool) :
    ∃ s' b, Server.releaseTiles T l s resumed = .ok (s', b) ∧
      s'.nextBarrierTime = s.nextBarrierTime ∧ s'.localClock = s.localClock ∧
      (∀ t, s'.barrierAcquire t =
        if t ∈ l ∧ goes s s.nextBarrierTime t then false else s.barrierAcquire t) ∧
      s'.out = s.out ++ (l.filter (goes s s.nextBarrierTime)).map (.release · s.nextBarrierTime) ∧
      (b = true ↔ resumed = true ∨ ∃ t ∈ l, goes s s.nextBarrierTime t) := by
  induction l generalizing s resumed with
  | nil => exact ⟨s, resumed, rfl, rfl, rfl, by simp, by simp, by simp⟩
  | cons t rest ih =>
    rw [nodup_cons] at hl
    unfold Server.releaseTiles
    split
    · next h =>
      have hgo : goes s s.nextBarrierTime t = true := goes_eq_true.mpr h.symm
      rw [assertActive_ok hT, ok_bind]
      obtain ⟨s', b, heq, hnext, hclock, hacq, hout, hb⟩ := ih (s := s.letGo t) hl.2 true
      -- the tiles of the rest are not touched
      have hrest : ∀ x ∈ rest, goes (s.letGo t) (s.letGo t).nextBarrierTime x =
          goes s s.nextBarrierTime x := by
        intro x hx
        have hxt : x ≠ t := by
          rintro rfl
          exact hl.1 hx
        show (update s.barrierAcquire t false x && _) = _
        rw [update_of_ne hxt]
        rfl
      refine ⟨s', b, heq, hnext, hclock, fun x => ?_, ?_, ?_⟩
      · rw [hacq]
        rcases eq_or_ne x t with rfl | hx
        · simp [hgo, letGo_acquire]
        · by_cases hmem : x ∈ rest
          · simp [hmem, hrest x hmem, letGo_acquire, hx]
          · simp [hmem, letGo_acquire, hx]
      · rw [hout, filter_cons_of_pos hgo, filter_congr hrest]
        simp [Server.letGo, Server.sendRelease]
      · simp [hb, hgo]
    · next h =>
      have hgo : ¬ goes s s.nextBarrierTime t = true := fun hg => h (goes_eq_true.mp hg).symm
      obtain ⟨s', b, heq, hnext, hclock, hacq, hout, hb⟩ := ih (s := s) hl.2 resumed
      refine ⟨s', b, heq, hnext, hclock, fun x => ?_, ?_, ?_⟩
      · rw [hacq]
        rcases eq_or_ne x t with rfl | hx
        · simp [hgo]
        · simp [hx]
      · rw [hout, filter_cons_of_neg hgo]
      · simp [hb, hgo]

/-- The barrier has moved on to the first time at which some client can be let go. -/
structure Released (interval : ℕ) (s s' : Server n) : Prop where
  rounds : ∃ k, s'.nextBarrierTime = s.nextBarrierTime + (k + 1) * interval
  clock : s'.localClock = s.localClock
  bound : ∀ t, s.barrierAcquire t = true → s'.nextBarrierTime ≤ s.localClock t + interval
  acquire : ∀ t, s'.barrierAcquire t =
    if goes s s'.nextBarrierTime t then false else s.barrierAcquire t
  out : s'.out = s.out ++
    ((finRange n).filter (goes s s'.nextBarrierTime)).map (.release · s'.nextBarrierTime)

/-- The tables after a round with the barrier at `b`. -/
def Server.releasedAt (s : Server n) (b : ℕ) : Server n where
  nextBarrierTime := b
  localClock := s.localClock
  barrierAcquire t := if goes s b t then false else s.barrierAcquire t
  out := s.out ++ ((finRange n).filter (goes s b)).map (.release · b)

theorem releaseTiles_eq (hT : OneRunning T) (s : Server n) (b : ℕ) :
    ∃ resumed, Server.releaseTiles T (finRange n) { s with nextBarrierTime := b } false =
      .ok (s.releasedAt b, resumed) ∧ (resumed = true ↔ ∃ t, goes s b t) := by
  obtain ⟨⟨next, clock, acquire, out⟩, resumed, heq, hnext, hclock, hacq, hout, hres⟩ := releaseTiles_ok
    (s := { s with nextBarrierTime := b }) hT (finRange n) (nodup_finRange n) false
  dsimp only at hnext hclock hacq hout hres
  have hacq' : acquire = (s.releasedAt b).barrierAcquire := by
    funext t
    rw [hacq]
    simp [Server.releasedAt, goes]
  subst hnext hclock hout hacq'
  exact ⟨resumed, heq, hres.trans (by simp [goes])⟩

/-- Nobody is let go before the barrier has passed the smallest clock of those who wait. -/
theorem releasedAt_early {b : ℕ} (h : ∀ x, s.barrierAcquire x = true → b ≤ s.localClock x) :
    (∀ x, goes s b x = false) ∧ s.releasedAt b = { s with nextBarrierTime := b } := by
  have hgo : ∀ x, goes s b x = false := by
    intro x
    rw [Bool.eq_false_iff]
    intro hg
    obtain ⟨hx, hlt⟩ := goes_eq_true.mp hg
    exact Nat.not_le_of_gt hlt (h x hx)
  refine ⟨hgo, ?_⟩
  simp [Server.releasedAt, hgo]

theorem releaseLoop_eq (hT : OneRunning T) {k : ℕ} (fuel : ℕ) (ht : s.barrierAcquire t = true)
    (hmin : ∀ x, s.barrierAcquire x = true → s.localClock t ≤ s.localClock x)
    (hge : s.nextBarrierTime + k * interval ≤ s.localClock t)
    (hlt : s.localClock t < s.nextBarrierTime + (k + 1) * interval) (hfuel : k < fuel) :
    Server.releaseLoop interval T fuel s =
      .ok (s.releasedAt (s.nextBarrierTime + (k + 1) * interval)) := by
  induction k generalizing s fuel with
  | zero =>
    obtain ⟨fuel, rfl⟩ := Nat.exists_eq_add_one_of_ne_zero (Nat.ne_of_gt hfuel)
    obtain ⟨resumed, heq, hres⟩ := releaseTiles_eq hT s (s.nextBarrierTime + interval)
    rw [Nat.zero_add, Nat.one_mul] at hlt ⊢
    unfold Server.releaseLoop
    rw [heq, ok_bind, hres.mpr ⟨t, goes_eq_true.mpr ⟨ht, hlt⟩⟩]
    rfl
  | succ k ih =>
    obtain ⟨fuel, rfl⟩ := Nat.exists_eq_add_one_of_ne_zero (Nat.ne_of_gt (Nat.zero_lt_of_lt hfuel))
    obtain ⟨resumed, heq, hres⟩ := releaseTiles_eq hT s (s.nextBarrierTime + interval)
    rw [Nat.add_mul, Nat.one_mul] at hge
    rw [Nat.add_mul (k + 1), Nat.one_mul] at hlt ⊢
    obtain ⟨hgo, hsame⟩ := releasedAt_early (s := s) (b := s.nextBarrierTime + interval) fun x hx => by
      have := hmin x hx
      omega
    have hnot : resumed = false := by
      rw [Bool.eq_false_iff]
      intro h
      obtain ⟨x, hx⟩ := hres.mp h
      simp [hgo] at hx
    unfold Server.releaseLoop
    rw [heq, ok_bind, hnot, hsame]
    have hrest := ih (s := { s with nextBarrierTime := s.nextBarrierTime + interval }) fuel ht
      hmin (by dsimp only; omega) (by dsimp only; omega) (by omega)
    dsimp only at hrest
    rw [Nat.add_assoc, Nat.add_comm interval] at hrest
    exact hrest

theorem exists_round (hI : 0 < interval) {b c : ℕ} (h : b ≤ c) :
    ∃ k, b + k * interval ≤ c ∧ c < b + (k + 1) * interval := by
  refine ⟨(c - b) / interval, ?_, ?_⟩
  · have := Nat.div_mul_le_self (c - b) interval
    omega
  · have := Nat.lt_mul_of_div_lt (Nat.lt_add_one ((c - b) / interval)) hI
    omega

theorem exists_smallest (ht : s.barrierAcquire t = true) : ∃ t, s.barrierAcquire t = true ∧
    ∀ x, s.barrierAcquire x = true → s.localClock t ≤ s.localClock x := by
  obtain ⟨m, hm, hmin⟩ := (Finset.univ.filter fun x => s.barrierAcquire x = true).exists_min_image
    s.localClock ⟨t, by simpa using ht⟩
  exact ⟨m, by simpa using hm, fun x hx => hmin x (by simpa using hx)⟩

theorem Released.at {k : ℕ}
    (hmin : ∀ x, s.barrierAcquire x = true → s.localClock t ≤ s.localClock x)
    (hge : s.nextBarrierTime + k * interval ≤ s.localClock t) :
    Released interval s (s.releasedAt (s.nextBarrierTime + (k + 1) * interval)) where
  rounds := ⟨k, rfl⟩
  clock := rfl
  bound x hx := by
    have := hmin x hx
    dsimp only [Server.releasedAt]
    rw [Nat.add_mul, Nat.one_mul]
    omega
  acquire _ := rfl
  out := rfl

theorem localClock_lt_rounds (s : Server n) (t : Fin n) : s.localClock t < s.rounds := by
  have h : ∀ l : List (Fin n), t ∈ l → s.localClock t ≤ l.foldr (fun t b => max (s.localClock t) b) 0 := by
    intro l
    induction l with
    | nil => simp
    | cons x l ih =>
      intro ht
      rw [foldr_cons]
      rcases mem_cons.mp ht with rfl | ht
      · exact Nat.le_max_left ..
      · exact Nat.le_trans (ih ht) (Nat.le_max_right ..)
  exact Nat.lt_succ_of_le (h _ (mem_finRange t))

/-- The smallest clock of those who wait is passed in round `k`, and the release then ends. -/
theorem barrierRelease_ok (hI : 0 < interval) (hT : OneRunning T)
    (hacq : ∀ t, s.barrierAcquire t = true ↔ s.nextBarrierTime ≤ s.localClock t)
    (hsome : ∃ t, s.nextBarrierTime ≤ s.localClock t) :
    ∃ t k, s.barrierAcquire t = true ∧
      (∀ x, s.barrierAcquire x = true → s.localClock t ≤ s.localClock x) ∧
      s.nextBarrierTime + k * interval ≤ s.localClock t ∧
      s.localClock t < s.nextBarrierTime + (k + 1) * interval ∧
      (∀ fuel, k < fuel → Server.releaseLoop interval T fuel s =
        .ok (s.releasedAt (s.nextBarrierTime + (k + 1) * interval))) ∧
      s.barrierRelease interval T =
        .ok (s.releasedAt (s.nextBarrierTime + (k + 1) * interval)) := by
  obtain ⟨x, hx⟩ := hsome
  obtain ⟨t, ht, hmin⟩ := exists_smallest ((hacq x).mpr hx)
  obtain ⟨k, hge, hlt⟩ := exists_round hI ((hacq t).mp ht)
  have hloop := fun fuel => releaseLoop_eq hT fuel ht hmin hge hlt
  refine ⟨t, k, ht, hmin, hge, hlt, hloop, hloop _ ?_⟩
  calc k ≤ k * interval := Nat.le_mul_of_pos_right _ hI
    _ ≤ s.localClock t := by omega
    _ < s.rounds := localClock_lt_rounds s t

theorem reached_ok (hT : OneRunning T) : ∃ b, s.isBarrierReached T = .ok b ∧ (b = true →
    (∀ t, Running T t → s.nextBarrierTime ≤ s.localClock t) ∧
      ∃ t, s.nextBarrierTime ≤ s.localClock t) := by
  obtain ⟨b, hb, himp⟩ := reachedLoop_ok (s := s) hT (finRange n) false
  refine ⟨b, hb, fun h => ?_⟩
  obtain ⟨hall, hsome⟩ := himp h
  obtain ⟨t, -, ht⟩ := hsome.resolve_left (by simp)
  exact ⟨fun x => hall x (mem_finRange x), t, ht⟩

theorem signal_ok (hI : 0 < interval) (hT : OneRunning T)
    (hacq : ∀ t, s.barrierAcquire t = true ↔ s.nextBarrierTime ≤ s.localClock t) :
    ∃ s', s.signal interval T = .ok s' ∧ (s' = s ∨
      ((∀ t, Running T t → s.nextBarrierTime ≤ s.localClock t) ∧ Released interval s s')) := by
  obtain ⟨b, hb, himp⟩ := reached_ok (s := s) hT
  unfold Server.signal
  rw [hb, ok_bind]
  cases b with
  | false => exact ⟨s, rfl, .inl rfl⟩
  | true =>
    obtain ⟨hall, hsome⟩ := himp rfl
    obtain ⟨t, k, ht, hmin, hge, -, -, heq⟩ := barrierRelease_ok hI hT hacq hsome
    exact ⟨_, heq, .inr ⟨hall, .at hmin hge⟩⟩

end Server

/-! ## Histories -/

/-- A client asks with its clock, and a release is the answer. -/
def waits : Dialogue (Event n) (Fin n) ℕ where
  request
    | .wait t time => some (t, time)
    | _ => none
  reply
    | .release t _ => some t
    | _ => none

/-- A release was sent with the barrier beyond `time`. -/
def Beyond (time : ℕ) : Event n → Prop
  | .release _ barrier => time < barrier
  | _ => True

/-- Waits and releases alternate, and a release is sent only with the barrier beyond the clock that
was reported. -/
def WaitsAnswered (tr : List (Event n)) : Prop := waits.Answered (fun _ time e => Beyond time e) tr

section Histories

variable {tr : List (Event n)} {t : Fin n}

@[simp] theorem track_wait (a : Option ℕ) (x : Fin n) (time : ℕ) :
    waits.track t a (.wait x time) = if x = t then some time else a := rfl

@[simp] theorem track_release (a : Option ℕ) (x : Fin n) (b : ℕ) :
    waits.track t a (.release x b) = if x = t then none else a := rfl

theorem releases_map (l : List (Fin n)) (b : ℕ) (t : Fin n) :
    releases (l.map (.release · b)) t = l.count t := by
  induction l with
  | nil => rfl
  | cons x l ih =>
    unfold releases at ih ⊢
    rw [map_cons, countP_cons, count_cons, ih]
    simp

theorem outstanding_releases (l : List (Fin n)) (b : ℕ) (t : Fin n) :
    waits.outstanding (tr ++ l.map (.release · b)) t =
      if t ∈ l then none else waits.outstanding tr t := by
  induction l generalizing tr with
  | nil => simp
  | cons x l ih =>
    rw [map_cons, append_cons, ih, Dialogue.outstanding_append]
    rcases eq_or_ne x t with rfl | hx
    · simp
    · simp [hx, Ne.symm hx]

theorem WaitsAnswered.releases {l : List (Fin n)} {b : ℕ} {clock : Fin n → ℕ} (h : WaitsAnswered tr)
    (hl : l.Nodup) (ho : ∀ t ∈ l, waits.outstanding tr t = some (clock t))
    (hb : ∀ t ∈ l, clock t < b) : WaitsAnswered (tr ++ l.map (.release · b)) := by
  induction l generalizing tr with
  | nil => simpa using h
  | cons x l ih =>
    rw [nodup_cons] at hl
    rw [map_cons, append_cons]
    refine ih (h.answer rfl rfl (ho x (by simp)) (hb x (by simp))) hl.2 (fun t ht => ?_)
      fun t ht => hb t (by simp [ht])
    have hx : x ≠ t := by
      rintro rfl
      exact hl.1 ht
    rw [Dialogue.outstanding_append]
    simp [hx, ho t (by simp [ht])]

end Histories

def FlagsRight (server : Server n) : Prop :=
  ∀ t, server.barrierAcquire t = true ↔ server.nextBarrierTime ≤ server.localClock t

theorem FlagsRight.wait (h : FlagsRight server) {t : Fin n} {time : ℕ}
    (htime : server.nextBarrierTime ≤ time) : FlagsRight { server with
      localClock := update server.localClock t time
      barrierAcquire := update server.barrierAcquire t true } := by
  intro x
  dsimp only
  rcases eq_or_ne x t with rfl | hx
  · simp [htime]
  · rw [update_of_ne hx, update_of_ne hx]
    exact h x

theorem OneRunning.setStatus {T T' : Threads n} (h : OneRunning T) {t : Fin n} {i : ℕ} {st : CoreState}
    (hi : i < (T.status t).length) (hone : ((T.status t).set i st).count .running ≤ 1)
    (heq : T.setStatus t i st = .ok T') : OneRunning T' := by
  rw [Threads.setStatus_sat hi] at heq
  cases heq
  intro x
  dsimp only
  rcases eq_or_ne x t with rfl | hx
  · rw [update_self]
    exact hone
  · rw [update_of_ne hx]
    exact h x

/-! ## The invariant -/

/-- Where the dialogue of `t` with the server is; the last argument is the request that has not been
answered. -/
inductive Link (s : State n) (t : Fin n) : Option ℕ → Prop
  | free : (s.client t).waiting = none → s.toServer t = [] → s.toClient t = 0 →
      s.server.localClock t < s.server.nextBarrierTime → Link s t none
  | sent {time : ℕ} : (s.client t).waiting = some time → s.toServer t = [time] → s.toClient t = 0 →
      s.server.localClock t < s.server.nextBarrierTime → Link s t (some time)
  | held {time : ℕ} : (s.client t).waiting = some time → s.toServer t = [] → s.toClient t = 0 →
      s.server.localClock t = time → s.server.nextBarrierTime ≤ time → Link s t (some time)
  | freed {time : ℕ} : (s.client t).waiting = some time → s.toServer t = [] → s.toClient t = 1 →
      s.server.localClock t < s.server.nextBarrierTime → time < s.server.nextBarrierTime → Link s t none

structure Inv (interval : ℕ) (tr : List (Event n)) (s : State n) : Prop where
  out : s.server.out = []
  one : OneRunning s.threads
  multiple : interval ∣ s.server.nextBarrierTime
  acquire : ∀ t, s.server.barrierAcquire t = true ↔ s.server.nextBarrierTime ≤ s.server.localClock t
  sync : ∀ t, (s.client t).nextSyncTime ≤ s.server.nextBarrierTime
  link : ∀ t, Link s t (waits.outstanding tr t)
  history : WaitsAnswered tr

section Invariant

variable {tr : List (Event n)} {s s' : State n} {T : Threads n} {t : Fin n}

/-- A tile whose clock is at the barrier or beyond has reported it and waits. -/
theorem Inv.reported (h : Inv interval tr s)
    (ht : s.server.nextBarrierTime ≤ s.server.localClock t) :
    waits.outstanding tr t = some (s.server.localClock t) := by
  have hlink := h.link t
  generalize waits.outstanding tr t = a at hlink
  cases hlink with
  | free _ _ _ hlt => omega
  | sent _ _ _ hlt => omega
  | held _ _ _ htime _ => rw [htime]
  | freed _ _ _ hlt _ => omega

theorem Link.congr {a : Option ℕ} (h : Link s t a) (hclient : s'.client t = s.client t)
    (hserver : s'.toServer t = s.toServer t) (htoClient : s'.toClient t = s.toClient t)
    (hclock : s'.server.localClock t = s.server.localClock t)
    (hnext : s'.server.nextBarrierTime = s.server.nextBarrierTime) : Link s' t a := by
  cases h with
  | free hw hs hc hlt => exact .free (hclient ▸ hw) (hserver ▸ hs) (htoClient ▸ hc) (by omega)
  | sent hw hs hc hlt => exact .sent (hclient ▸ hw) (hserver ▸ hs) (htoClient ▸ hc) (by omega)
  | held hw hs hc htime hle =>
    exact .held (hclient ▸ hw) (hserver ▸ hs) (htoClient ▸ hc) (by omega) (by omega)
  | freed hw hs hc hlt htime =>
    exact .freed (hclient ▸ hw) (hserver ▸ hs) (htoClient ▸ hc) (by omega) (by omega)

theorem Inv.released {server : Server n} (h : Inv interval tr s) (hT : OneRunning T)
    (hr : Released interval s.server server) :
    Inv interval (tr ++ server.out) ({ s with threads := T }.answered server).1 := by
  obtain ⟨k, hk⟩ := hr.rounds
  have hle : s.server.nextBarrierTime ≤ server.nextBarrierTime := by omega
  have hout : server.out = ((finRange n).filter (goes s.server server.nextBarrierTime)).map
      (.release · server.nextBarrierTime) := by
    rw [hr.out, h.out, nil_append]
  have hmem : ∀ t, t ∈ (finRange n).filter (goes s.server server.nextBarrierTime) ↔
      s.server.nextBarrierTime ≤ s.server.localClock t ∧
        s.server.localClock t < server.nextBarrierTime := by
    intro t
    rw [mem_filter, goes_eq_true, h.acquire]
    simp
  have hnodup : ((finRange n).filter (goes s.server server.nextBarrierTime)).Nodup :=
    (nodup_finRange n).filter _
  have hcount : ∀ t, releases server.out t = if s.server.nextBarrierTime ≤ s.server.localClock t ∧
      s.server.localClock t < server.nextBarrierTime then 1 else 0 := by
    intro t
    rw [hout, releases_map]
    split
    · next hin => exact count_eq_one_of_mem hnodup ((hmem t).mpr hin)
    · next hin => exact count_eq_zero.mpr fun hm => hin ((hmem t).mp hm)
  refine ⟨rfl, hT, ?_, fun t => ?_, fun t => Nat.le_trans (h.sync t) hle, fun t => ?_, ?_⟩
  · show interval ∣ server.nextBarrierTime
    rw [hk]
    exact Nat.dvd_add h.multiple (Nat.dvd_mul_left ..)
  · show server.barrierAcquire t = true ↔ server.nextBarrierTime ≤ server.localClock t
    rw [hr.acquire, hr.clock]
    by_cases hg : goes s.server server.nextBarrierTime t = true
    · have := (goes_eq_true.mp hg).2
      simp only [hg, if_true, Bool.false_eq_true, false_iff]
      omega
    · rw [if_neg hg, h.acquire]
      rw [goes_eq_true, h.acquire] at hg
      omega
  · rw [hout, outstanding_releases]
    have hlink := h.link t
    have hcount := hcount t
    simp only [hmem]
    generalize waits.outstanding tr t = a at hlink
    cases hlink with
    | free hw hs hc hlt =>
      rw [if_neg (by omega)] at hcount ⊢
      exact .free hw hs (by simp [State.answered, hc, hcount])
        (by simp only [State.answered, hr.clock]; omega)
    | sent hw hs hc hlt =>
      rw [if_neg (by omega)] at hcount ⊢
      exact .sent hw hs (by simp [State.answered, hc, hcount])
        (by simp only [State.answered, hr.clock]; omega)
    | held hw hs hc htime hge =>
      split
      · next hin =>
        rw [if_pos hin] at hcount
        exact .freed hw hs (by simp [State.answered, hc, hcount])
          (by simp only [State.answered, hr.clock]; omega) (by simp only [State.answered]; omega)
      · next hin =>
        rw [if_neg hin] at hcount
        exact .held hw hs (by simp [State.answered, hc, hcount])
          (by simp only [State.answered, hr.clock, htime]) (by simp only [State.answered]; omega)
    | freed hw hs hc hlt htime =>
      rw [if_neg (by omega)] at hcount ⊢
      exact .freed hw hs (by simp [State.answered, hc, hcount])
        (by simp only [State.answered, hr.clock]; omega) (by simp only [State.answered]; omega)
  · rw [hout]
    exact h.history.releases hnodup (fun t ht => h.reported ((hmem t).mp ht).1)
      fun t ht => ((hmem t).mp ht).2

/-- Where the barrier is moved on from `s` to `s'`, every running core waits with a clock at the
barrier or beyond, and no later than the last round but one. -/
def Advances (interval : ℕ) (tr : List (Event n)) (s s' : State n) : Prop :=
  s.server.nextBarrierTime ≤ s'.server.nextBarrierTime ∧
    (s'.server.nextBarrierTime ≠ s.server.nextBarrierTime → ∀ t, Running s'.threads t →
      waits.outstanding tr t = some (s'.server.localClock t) ∧
      s.server.nextBarrierTime ≤ s'.server.localClock t ∧
      s'.server.nextBarrierTime ≤ s'.server.localClock t + interval)

theorem Advances.of_eq (h : s'.server.nextBarrierTime = s.server.nextBarrierTime) :
    Advances interval tr s s' := ⟨Nat.le_of_eq h.symm, fun hne => absurd h hne⟩

def Kept (interval : ℕ) (tr : List (Event n)) (s : State n) (r : State n × List (Event n)) : Prop :=
  Inv interval (tr ++ r.2) r.1 ∧ Advances interval tr s r.1

/-- The server, asked to look at the barrier, moves it only if every running core waits there. -/
theorem Inv.signal (hI : 0 < interval) (h : Inv interval tr s) (hT : OneRunning T) :
    ∃ server, s.server.signal interval T = .ok server ∧
      Kept interval tr s ({ s with threads := T }.answered server) := by
  obtain ⟨server, heq, hor⟩ := signal_ok hI hT h.acquire
  refine ⟨server, heq, ?_⟩
  rcases hor with rfl | ⟨hall, hr⟩
  · refine ⟨?_, .of_eq rfl⟩
    simp only [State.answered, h.out, append_nil]
    refine ⟨rfl, hT, h.multiple, h.acquire, h.sync, fun t => ?_, h.history⟩
    exact (h.link t).congr rfl rfl (by simp [releases]) rfl rfl
  · obtain ⟨k, hk⟩ := hr.rounds
    refine ⟨h.released hT hr, by simp only [State.answered]; omega, fun _ t ht => ?_⟩
    simp only [State.answered, hr.clock]
    exact ⟨h.reported (hall t ht), hall t ht, hr.bound t ((h.acquire t).mpr (hall t ht))⟩

theorem Inv.synchronize (h : Inv interval tr s) (ht : (s.client t).waiting = none) (time : ℕ) :
    Returns ((laxBarrier n interval).step s (.synchronize t time)) (Kept interval tr s) := by
  simp only [laxBarrier]
  split
  · refine ⟨?_, .of_eq rfl⟩
    have hfree : waits.outstanding tr t = none ∧ s.toServer t = [] ∧ s.toClient t = 0 ∧
        s.server.localClock t < s.server.nextBarrierTime := by
      have hlink := h.link t
      generalize waits.outstanding tr t = a at hlink
      cases hlink with
      | free _ hs hc hlt => exact ⟨rfl, hs, hc, hlt⟩
      | sent hw => simp [ht] at hw
      | held hw => simp [ht] at hw
      | freed hw => simp [ht] at hw
    obtain ⟨ho, hs, hc, hlt⟩ := hfree
    refine ⟨h.out, h.one, h.multiple, h.acquire, fun x => ?_, fun x => ?_, h.history.ask rfl rfl ho⟩
    · dsimp only
      rcases eq_or_ne x t with rfl | hx
      · rw [update_self]
        exact h.sync x
      · rw [update_of_ne hx]
        exact h.sync x
    · rw [Dialogue.outstanding_append, foldl_cons, foldl_nil, track_wait]
      rcases eq_or_ne x t with rfl | hx
      · rw [if_pos rfl]
        exact .sent (by simp) (by simp [hs]) hc hlt
      · rw [if_neg (Ne.symm hx)]
        exact (h.link x).congr (by simp [hx]) (by simp [hx]) rfl rfl rfl
  · refine ⟨?_, .of_eq rfl⟩
    rw [append_nil]
    exact h

section

variable (hI : 0 < interval) (h : Inv interval tr s)
include hI h

theorem Inv.receive (ht : (s.client t).waiting ≠ none ∧ 0 < s.toClient t) :
    Returns ((laxBarrier n interval).step s (.receive t)) (Kept interval tr s) := by
  have hfreed : waits.outstanding tr t = none ∧ s.toServer t = [] ∧ s.toClient t = 1 ∧
      s.server.localClock t < s.server.nextBarrierTime ∧
      ∃ time, (s.client t).waiting = some time ∧ time < s.server.nextBarrierTime := by
    have hlink := h.link t
    generalize waits.outstanding tr t = a at hlink
    cases hlink with
    | free _ _ hc _ => omega
    | sent _ _ hc _ => omega
    | held _ _ hc _ _ => omega
    | freed hw hs hc hlt htime => exact ⟨rfl, hs, hc, hlt, _, hw, htime⟩
  obtain ⟨ho, hs, hc, hlt, time, hw, htime⟩ := hfreed
  simp only [laxBarrier, hw, sat_pure]
  refine ⟨?_, .of_eq rfl⟩
  rw [append_nil]
  refine ⟨h.out, h.one, h.multiple, h.acquire, fun x => ?_, fun x => ?_, h.history⟩
  · dsimp only
    rcases eq_or_ne x t with rfl | hx
    · rw [update_self]
      -- both sides are multiples of the interval
      obtain ⟨k, hk⟩ := h.multiple
      have hlt' : time / interval < k := by
        rw [Nat.div_lt_iff_lt_mul hI, Nat.mul_comm]
        omega
      calc time / interval * interval + interval = (time / interval + 1) * interval := by
            rw [Nat.add_mul, Nat.one_mul]
        _ ≤ k * interval := Nat.mul_le_mul_right _ hlt'
        _ = s.server.nextBarrierTime := by rw [hk, Nat.mul_comm]
    · rw [update_of_ne hx]
      exact h.sync x
  · rcases eq_or_ne x t with rfl | hx
    · rw [ho]
      exact .free (by simp) hs (by simp [hc]) hlt
    · exact (h.link x).congr (by simp [hx]) rfl (by simp [hx]) rfl rfl

theorem Inv.process (ht : s.toServer t ≠ []) :
    Sat ((laxBarrier n interval).step s (.process t)) (fun _ => False) (Kept interval tr s) := by
  have hsent : ∃ time, waits.outstanding tr t = some time ∧ (s.client t).waiting = some time ∧
      s.toServer t = [time] ∧ s.toClient t = 0 ∧
      s.server.localClock t < s.server.nextBarrierTime := by
    have hlink := h.link t
    generalize waits.outstanding tr t = a at hlink
    cases hlink with
    | free _ hs _ _ => exact absurd hs ht
    | sent hw hs hc hlt => exact ⟨_, rfl, hw, hs, hc, hlt⟩
    | held _ hs _ _ _ => exact absurd hs ht
    | freed _ hs _ _ _ => exact absurd hs ht
  obtain ⟨time, ho, hw, hs, hc, hlt⟩ := hsent
  simp only [laxBarrier, hs, Server.barrierWait, assertActive_ok h.one, ok_bind]
  split
  · next hearly =>
    refine ⟨?_, .of_eq rfl⟩
    simp only [State.answered, Server.sendRelease, h.out, nil_append]
    refine ⟨rfl, h.one, h.multiple, h.acquire, h.sync, fun x => ?_, h.history.answer rfl rfl ho hearly⟩
    rw [Dialogue.outstanding_append, foldl_cons, foldl_nil, track_release]
    rcases eq_or_ne x t with rfl | hx
    · rw [if_pos rfl]
      exact .freed hw (by simp) (by simp [hc, releases]) hlt hearly
    · rw [if_neg (Ne.symm hx)]
      exact (h.link x).congr rfl (by simp [hx]) (by simp [releases, Ne.symm hx]) rfl rfl
  · next hlate =>
    -- the server holds the client, and then looks at the barrier
    have hheld : Inv interval tr { s with
        toServer := update s.toServer t []
        server := { s.server with
          localClock := update s.server.localClock t time
          barrierAcquire := update s.server.barrierAcquire t true } } := by
      refine ⟨h.out, h.one, h.multiple, FlagsRight.wait h.acquire (Nat.le_of_not_lt hlate), h.sync,
        fun x => ?_, h.history⟩
      rcases eq_or_ne x t with rfl | hx
      · rw [ho]
        exact .held hw (by simp) hc (by simp) (by dsimp only; omega)
      · exact (h.link x).congr rfl (by simp [hx]) rfl (by simp [hx]) rfl
    obtain ⟨server, heq, hk⟩ := hheld.signal hI h.one
    dsimp only at heq
    rw [heq, ok_bind, sat_pure]
    exact hk

theorem Inv.setStatus {i : ℕ} {st : CoreState} (hi : i < (s.threads.status t).length)
    (hone : ((s.threads.status t).set i st).count .running ≤ 1) :
    Sat ((laxBarrier n interval).step s (.setStatus t i st)) (fun _ => False)
      (Kept interval tr s) := by
  have hT := h.one.setStatus hi hone (Threads.setStatus_sat hi)
  simp only [laxBarrier, Threads.setStatus_sat hi, liftThreads, Except.mapError, ok_bind]
  split
  · obtain ⟨server, heq, hk⟩ := h.signal hI hT
    rw [heq, ok_bind, sat_pure]
    exact hk
  · rw [pure_eq_ok, ok_bind, sat_pure]
    refine ⟨?_, .of_eq rfl⟩
    simp only [State.answered, h.out, append_nil]
    exact ⟨rfl, hT, h.multiple, h.acquire, h.sync,
      fun x => (h.link x).congr rfl rfl (by simp [releases]) rfl rfl, h.history⟩

theorem Inv.step {a : Action n} (ha : (laxBarrier n interval).enabled s a) :
    Returns ((laxBarrier n interval).step s a) (Kept interval tr s) := by
  cases a with
  | synchronize t time => exact h.synchronize ha time
  | process t => exact h.process hI ha
  | receive t => exact h.receive hI ha
  | setStatus t i st => exact h.setStatus hI ha.1 ha.2

end

theorem init_inv (hI : 0 < interval) (hs : (laxBarrier n interval).init s) : Inv interval [] s := by
  obtain ⟨hserver, hone, hclient, hto, hfrom⟩ := hs
  refine ⟨by rw [hserver], hone, ?_, fun t => ?_, fun t => ?_, fun t => ?_, .nil⟩
  · have hnext : s.server.nextBarrierTime = interval := by rw [hserver]
    exact ⟨1, by rw [hnext, Nat.mul_one]⟩
  · rw [hserver]
    exact ⟨nofun, fun hle => absurd hle (Nat.not_le_of_gt hI)⟩
  · rw [hserver, hclient]
  · exact .free (by rw [hclient]) (hto t) (hfrom t) (by rw [hserver]; exact hI)

end Invariant

def twoTiles : State 2 where
  server := ⟨100, fun _ => 0, fun _ => false, []⟩
  threads := ⟨fun _ => [.running], fun _ => none⟩
  client _ := ⟨100, none⟩
  toServer _ := []
  toClient _ := 0

/-- The thread table and the server when the server looks at the barrier. -/
inductive Looks (interval : ℕ) (s : State n) : Threads n → Server n → Prop
  | wait {t : Fin n} {time : ℕ} {rest : List ℕ} : s.toServer t = time :: rest →
      s.server.nextBarrierTime ≤ time → Looks interval s s.threads { s.server with
        localClock := update s.server.localClock t time
        barrierAcquire := update s.server.barrierAcquire t true }
  | status {t : Fin n} {i : ℕ} {st : CoreState} {T : Threads n} :
      (laxBarrier n interval).enabled s (.setStatus t i st) → st = .stalled ∨ st = .idle →
      s.threads.setStatus t i st = .ok T → Looks interval s T s.server

theorem Looks.right {tr : List (Event n)} {s : State n} {T : Threads n}
    (hl : Looks interval s T server) (h : Inv interval tr s) :
    OneRunning T ∧ FlagsRight server ∧ interval ∣ server.nextBarrierTime := by
  cases hl with
  | wait _ htime => exact ⟨h.one, FlagsRight.wait h.acquire htime, h.multiple⟩
  | status ha _ heq => exact ⟨h.one.setStatus ha.1 ha.2 heq, h.acquire, h.multiple⟩

/-- The first multiple of the interval beyond a clock, from another multiple on. -/
theorem isLeast_round {b c k : ℕ} (hb : interval ∣ b) (hge : b + k * interval ≤ c)
    (hlt : c < b + (k + 1) * interval) :
    IsLeast {m | interval ∣ m ∧ c < m} (b + (k + 1) * interval) := by
  obtain ⟨j, rfl⟩ := hb
  refine ⟨⟨Nat.dvd_add (Nat.dvd_mul_right ..) (Nat.dvd_mul_left ..), hlt⟩, ?_⟩
  rintro _ ⟨⟨m, rfl⟩, hm⟩
  have hjk : interval * (j + k) < interval * m := by
    rw [Nat.mul_add, Nat.mul_comm interval k]
    omega
  have hle : interval * (j + (k + 1)) ≤ interval * m :=
    Nat.mul_le_mul_left _ (Nat.lt_of_mul_lt_mul_left hjk)
  rw [Nat.mul_add, Nat.mul_comm interval (k + 1)] at hle
  exact hle

/-- A tile's flag is set exactly when its clock is at the barrier or beyond, also when the server
looks at the barrier. If the barrier is reached, the release ends after `k + 1` rounds: those who wait
with a clock before the new barrier have been let go and nobody else, and the barrier is at the first
multiple of the interval beyond the smallest clock of those who waited. -/
theorem barrier_release (n : ℕ) {interval : ℕ} (hI : 0 < interval) {tr : List (Event n)} {s : State n}
    (hr : (laxBarrier n interval).Run (fun _ => True) tr s) :
    FlagsRight s.server ∧ ∀ T server, Looks interval s T server → FlagsRight server ∧
      (server.isBarrierReached T = .ok true → ∃ k server',
        (∀ fuel, k < fuel → Server.releaseLoop interval T fuel server = .ok server') ∧
        server.barrierRelease interval T = .ok server' ∧
        server'.nextBarrierTime = server.nextBarrierTime + (k + 1) * interval ∧
        server'.localClock = server.localClock ∧
        (∀ t, server'.barrierAcquire t = true ↔
          server.barrierAcquire t = true ∧ server'.nextBarrierTime ≤ server.localClock t) ∧
        server'.out = server.out ++ ((List.finRange n).filter
          (goes server server'.nextBarrierTime)).map (.release · server'.nextBarrierTime) ∧
        ∃ t, server.barrierAcquire t = true ∧
          (∀ x, server.barrierAcquire x = true → server.localClock t ≤ server.localClock x) ∧
          IsLeast {b | interval ∣ b ∧ server.localClock t < b} server'.nextBarrierTime) := by
  have h : Inv interval tr s := hr.invariant (fun s => init_inv hI)
    fun tr s a h _ ha => (h.step hI ha).mono fun r hr => hr.1
  refine ⟨h.acquire, fun T server hlook => ?_⟩
  obtain ⟨hT, hflags, hmul⟩ := hlook.right h
  refine ⟨hflags, fun hreached => ?_⟩
  obtain ⟨b, hb, himp⟩ := reached_ok (s := server) hT
  cases hreached.symm.trans hb
  obtain ⟨t, k, ht, hmin, hge, hlt, hloop, hrelease⟩ :=
    barrierRelease_ok hI hT hflags (himp rfl).2
  refine ⟨k, _, hloop, hrelease, rfl, rfl, fun x => ?_, rfl, t, ht, hmin, isLeast_round hmul hge hlt⟩
  simp only [Server.releasedAt]
  split
  · next hg =>
    have := (goes_eq_true.mp hg).2
    simp only [Bool.false_eq_true, false_iff]
    omega
  · next hg =>
    rw [goes_eq_true] at hg
    refine ⟨fun hx => ⟨hx, ?_⟩, And.left⟩
    by_contra hlt
    exact hg ⟨hx, by omega⟩

/-- Both tiles have come to the barrier, and the second one is let go. -/
theorem barrier_release_two : ∃ tr s T server, (laxBarrier 2 100).Run (fun _ => True) tr s ∧
    Looks 100 s T server ∧ server.isBarrierReached T = .ok true ∧
    ∃ k server', (∀ fuel, k < fuel → Server.releaseLoop 100 T fuel server = .ok server') ∧
      server'.nextBarrierTime = server.nextBarrierTime + (k + 1) * 100 := by
  obtain ⟨tr, s, h, hto, hnext, hreached⟩ := System.Run.of_reaches (S := laxBarrier 2 100)
    (Q := fun _ s => s.toServer 1 = [370] ∧ s.server.nextBarrierTime = 100 ∧
      Server.isBarrierReached s.threads { s.server with
        localClock := update s.server.localClock 1 370
        barrierAcquire := update s.server.barrierAcquire 1 true } = .ok true)
    (P := fun _ => True)
    (.start (s := twoTiles) ⟨rfl, by decide, fun _ => rfl, fun _ => rfl, fun _ => rfl⟩)
    [.synchronize 0 430, .process 0, .synchronize 1 370]
  have hlook : Looks 100 s s.threads _ := .wait hto (by rw [hnext]; decide)
  obtain ⟨k, server', hloop, -, hb, -⟩ := ((barrier_release 2 (by decide) h).2 _ _ hlook).2 hreached
  exact ⟨tr, s, _, _, h, hlook, hreached, k, server', hloop, hb⟩

end Graphite.LaxBarrier
