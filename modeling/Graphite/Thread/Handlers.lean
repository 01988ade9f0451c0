import Graphite.Thread.Master

/-! # The handlers of the master

What the handlers do to the tables when every core has one slot. A spawn finds an idle slot, or fails
for one of a few reasons; an exit answers the thread that joins the slot; a join is answered at once
if the slot is idle.
-/

namespace Graphite.Thread

open Outcome Function List Master
open Sync (Threads CoreState)

variable {N : ℕ}

/-! ## One slot per tile -/

section Slots

variable {α : Type} {f : Fin N → ℕ → α} {t d : Fin N} {i : ℕ} {a : α}

@[simp] theorem setSlot_self : setSlot f t i a t i = a := by simp [setSlot]

theorem setSlot_of_ne (h : d ≠ t) (j : ℕ) : setSlot f t i a d j = f d j := by simp [setSlot, h]

theorem setSlot_apply : setSlot f t i a d i = if d = t then a else f d i := by
  by_cases h : d = t
  · subst h
    simp
  · rw [setSlot_of_ne h, if_neg h]

end Slots

namespace Master

variable {m : Master N} {t : Fin N} {st : CoreState}

/-- The status of the only slot of `t` is written. -/
def put (m : Master N) (t : Fin N) (st : CoreState) : Master N :=
  { m with threads := { m.threads with status := update m.threads.status t [st] } }

/-- The only slot of `t` is stalled. -/
def stalled (m : Master N) (t : Fin N) : Master N :=
  { m.put t .stalled with threads := { (m.put t .stalled).threads with
    lastStalled := update m.threads.lastStalled t (some 0) } }

section

variable (h : m.threads.status t = [st])
include h

theorem getThreadState_eq : m.getThreadState t 0 = .ok st := by
  simp [getThreadState, h]

theorem setThreadState_eq (st' : CoreState) : m.setThreadState t 0 st' = .ok (m.put t st') := by
  rw [setThreadState, Threads.setStatus_sat (by simp [h])]
  simp only [liftThreads, Except.mapError, ok_bind, h]
  rfl

theorem stallThreadAt_eq : m.stallThreadAt t 0 = .ok (m.stalled t) := by
  rw [stallThreadAt, Threads.stallThreadAt, Threads.setStatus_sat (by simp [h])]
  simp only [liftThreads, ok_bind, pure_eq_ok, Except.mapError, h]
  rfl

theorem isCoreRunning_eq : m.isCoreRunning t = .ok (if st = .running then some 0 else none) := by
  simp only [isCoreRunning, liftThreads, Threads.isCoreRunning, h, Threads.findRunning]
  split <;> rfl

end

theorem stallThread_eq (h : m.threads.status t = [.running]) :
    m.stallThread t = .ok (m.stalled t) := by
  have hrun : m.threads.isCoreRunning t = .ok (some 0) := by
    simp [Threads.isCoreRunning, h, Threads.findRunning]
  have hat : m.threads.stallThread t = m.threads.stallThreadAt t 0 := by
    rw [Threads.stallThread, hrun]
    rfl
  rw [stallThread, hat]
  exact stallThreadAt_eq h

theorem resumeThread_eq (h : m.threads.status t = [st]) (hl : m.threads.lastStalled t = some 0) :
    m.resumeThread t = .ok (m.put t .running) := by
  rw [resumeThread, Threads.resumeThread, hl]
  simp only [Threads.setStatus_sat (show 0 < (m.threads.status t).length by simp [h]), liftThreads,
    Except.mapError, ok_bind, h]
  rfl

theorem getIdleThread_eq (h : m.threads.status t = [st]) :
    m.getIdleThread t = if st = .idle then some 0 else none := by
  simp [getIdleThread, h, findIdx?_cons]

@[simp] theorem put_status (d : Fin N) :
    (m.put t st).threads.status d = if d = t then [st] else m.threads.status d := by
  simp [put, update_apply]

@[simp] theorem put_lastStalled : (m.put t st).threads.lastStalled = m.threads.lastStalled := rfl

@[simp] theorem stalled_status (d : Fin N) :
    (m.stalled t).threads.status d = if d = t then [.stalled] else m.threads.status d :=
  put_status d

@[simp] theorem stalled_lastStalled (d : Fin N) : (m.stalled t).threads.lastStalled d =
    if d = t then some 0 else m.threads.lastStalled d := by
  simp [stalled, update_apply]

end Master

/-! ## Finding a slot -/

section Find

open ThreadManager

variable {cfg : Config N} {m : Master N} {t d : Fin N}

theorem findTile_sat (hone : ∀ t, ∃ st, m.threads.status t = [st]) (l : List ℕ) :
    Returns (findTile cfg m t 0 l) fun r =>
      match r with
      | some d => d.val < cfg.applicationTiles ∧ m.threads.status d = [.idle]
      | none => ∀ i ∈ l, cfg.target t i ≠ cfg.getMainThreadTileNum →
        m.threads.status (cfg.target t i) ≠ [.idle] := by
  induction l with
  | nil => simp [findTile]
  | cons i rest ih =>
    obtain ⟨st, hst⟩ := hone (cfg.target t i)
    unfold findTile
    split
    · next hmain =>
      refine ih.mono fun r hr => ?_
      cases r with
      | some d => exact hr
      | none => exact forall_mem_cons.mpr ⟨fun h => absurd hmain h, hr⟩
    · rw [m.getThreadState_eq hst, ok_bind]
      split
      · next hidle => exact ⟨Nat.mod_lt _ cfg.application_pos, hidle ▸ hst⟩
      · next hidle =>
        refine ih.mono fun r hr => ?_
        cases r with
        | some d => exact hr
        | none => exact forall_mem_cons.mpr ⟨fun _ h => hidle (by simpa [hst] using h), hr⟩

theorem exists_target (cfg : Config N) (t : Fin N) (hd : d.val < cfg.applicationTiles) :
    ∃ i ∈ range' 1 cfg.applicationTiles, cfg.target t i = d := by
  have hn := cfg.application_pos
  have hlt : t.val % cfg.applicationTiles < cfg.applicationTiles := Nat.mod_lt _ hn
  have heq : (t.val % cfg.applicationTiles + cfg.applicationTiles * (t.val / cfg.applicationTiles)) =
      t.val := Nat.mod_add_div _ _
  rcases Nat.lt_or_ge (t.val % cfg.applicationTiles) d.val with h | h
  · refine ⟨d.val - t.val % cfg.applicationTiles, by simp; omega, Fin.ext ?_⟩
    show (t.val + (d.val - t.val % cfg.applicationTiles)) % cfg.applicationTiles = d.val
    have : t.val + (d.val - t.val % cfg.applicationTiles) =
        d.val + cfg.applicationTiles * (t.val / cfg.applicationTiles) := by omega
    rw [this, Nat.add_mul_mod_self_left, Nat.mod_eq_of_lt hd]
  · refine ⟨d.val + cfg.applicationTiles - t.val % cfg.applicationTiles, by simp; omega, Fin.ext ?_⟩
    show (t.val + (d.val + cfg.applicationTiles - t.val % cfg.applicationTiles)) %
      cfg.applicationTiles = d.val
    have : t.val + (d.val + cfg.applicationTiles - t.val % cfg.applicationTiles) =
        d.val + cfg.applicationTiles * (t.val / cfg.applicationTiles + 1) := by
      rw [Nat.mul_add]
      omega
    rw [this, Nat.add_mul_mod_self_left, Nat.mod_eq_of_lt hd]

/-- No application tile but tile `0` is idle. -/
def Full (cfg : Config N) (m : Master N) : Prop :=
  ∀ d : Fin N, d.val < cfg.applicationTiles → d ≠ cfg.getMainThreadTileNum →
    m.threads.status d ≠ [.idle]

theorem findDestination_sat (hK : cfg.maxThreadsPerCore = 1)
    (hone : ∀ t, ∃ st, m.threads.status t = [st]) (destination : Option (Fin N)) :
    Sat (findDestination cfg m t destination)
      (fun e => (destination = none ∧ e = .noCores ∧ Full cfg m) ∨
        (destination ≠ none ∧ e = .noThreads))
      fun r => r.2 = 0 ∧ m.threads.status r.1 = [.idle] ∧ (∀ d, destination = some d → r.1 = d) ∧
        (destination = none → r.1.val < cfg.applicationTiles) := by
  cases destination with
  | none =>
    have hfind : findSlot cfg m t (range cfg.maxThreadsPerCore) none =
        (findTile cfg m t 0 (range' 1 cfg.applicationTiles) >>= fun r =>
          pure (r.map fun d => (d, 0))) := by
      rw [hK, range_succ, range_zero, nil_append, findSlot]
      congr
      funext r
      cases r <;> rfl
    rw [findDestination, hfind, bind_assoc]
    refine ((findTile_sat hone _).imp (fun _ => False.elim) fun _ => id).bind fun r hr => ?_
    cases r with
    | some d => exact ⟨rfl, hr.2, fun _ h => (nomatch h), fun _ => hr.1⟩
    | none =>
      refine .inl ⟨rfl, rfl, fun d hd hmain => ?_⟩
      obtain ⟨i, hi, rfl⟩ := exists_target cfg t hd
      exact hr i hi hmain
  | some d =>
    obtain ⟨st, hst⟩ := hone d
    simp only [findDestination, m.getIdleThread_eq hst]
    by_cases h : st = .idle
    · simp only [h, if_true]
      exact ⟨rfl, h ▸ hst, fun _ h => Option.some.inj h, fun h => nomatch h⟩
    · simp only [h, if_false]
      exact .inr ⟨by simp, rfl⟩

/-- The map has an entry for every identifier that was given out. -/
def Mapped (m : Master N) : Prop := m.tidCounter = 0 ∨ m.tidCounter < m.tidToCore.length

theorem getNewThreadId_sat (hmap : Mapped m) (d : Fin N) :
    Sat (getNewThreadId cfg m d 0) (fun e => e = .tidOverflow ∧ 2 ^ 30 ≤ m.tidCounter + 1) fun r =>
      r.2 = m.tidCounter + 1 ∧ (∃ map, r.1 = { m with
        tidCounter := m.tidCounter + 1
        tidToCore := map
        threadId := setSlot m.threadId d 0 (some (m.tidCounter + 1)) }) ∧
      r.1.tidToCore[m.tidCounter + 1]? = some (d, 0) ∧
      ∀ tid, 1 ≤ tid → tid ≤ m.tidCounter → r.1.tidToCore[tid]? = m.tidToCore[tid]? := by
  have hset : ∀ map : List (Fin N × ℕ), m.tidCounter + 1 < map.length →
      (∀ tid, 1 ≤ tid → tid ≤ m.tidCounter → map[tid]? = m.tidToCore[tid]?) →
      (map.set (m.tidCounter + 1) (d, 0))[m.tidCounter + 1]? = some (d, 0) ∧
        ∀ tid, 1 ≤ tid → tid ≤ m.tidCounter →
          (map.set (m.tidCounter + 1) (d, 0))[tid]? = m.tidToCore[tid]? := by
    intro map hlen hold
    refine ⟨by simp [hlen], fun tid h1 h2 => ?_⟩
    rw [getElem?_set_ne (by omega)]
    exact hold tid h1 h2
  unfold getNewThreadId
  dsimp only
  split
  · next hle =>
    rw [sat_bind, sat_bind, sat_check]
    refine ⟨fun _ => ?_, fun h => ⟨rfl, by omega⟩⟩
    have hlen : (resize cfg m.tidToCore (2 * (m.tidCounter + 1))).length =
        2 * (m.tidCounter + 1) := by
      simp [resize]
      omega
    rw [sat_pure, check_pos (by omega), ok_bind, sat_pure]
    have := hset (resize cfg m.tidToCore (2 * (m.tidCounter + 1))) (by omega) fun tid h1 h2 => by
      rw [resize, take_of_length_le (by omega), getElem?_append_left]
      rcases hmap with h | h <;> omega
    exact ⟨rfl, ⟨_, rfl⟩, this⟩
  · next hgt =>
    rw [pure_eq_ok, ok_bind, check_pos (by omega), ok_bind, sat_pure]
    exact ⟨rfl, ⟨_, rfl⟩, hset _ (by omega) fun _ _ _ => rfl⟩

end Find

/-! ## Spawning -/

section Spawn

open ThreadManager ThreadScheduler

variable {cfg : Config N} {m : Master N} {t d : Fin N} {req : SpawnRequest N}

theorem isThreadStartable_eq (hst : m.threads.status req.destination = [.idle])
    (hne : req.requester ≠ req.destination) : isThreadStartable m req = .ok true := by
  rw [isThreadStartable, if_neg hne, m.isCoreRunning_eq hst, if_neg (by decide), ok_bind]
  simp [isCoreInitializing, Threads.isCoreStalled, hst]

section

variable (hst : m.threads.status req.destination = [.idle]) (hidx : req.destinationTidx = 0)
  (hne : req.requester ≠ req.destination) (hq : m.waiterQueue req.destination = [])
include hst hidx hne hq

theorem masterScheduleThread_eq
    (hspawner : some req.destination ≠ cfg.getCurrentThreadSpawnerTileNum) :
    masterScheduleThread cfg m req =
      .ok (({ m with waiterQueue := update m.waiterQueue req.destination [req] }.put
        req.destination .initializing).emit (.started req.destination 0 req.destinationTid)) := by
  rw [masterScheduleThread, hidx, m.getThreadState_eq hst, ok_bind, if_pos hspawner, hq]
  dsimp only
  rw [isThreadStartable_eq (by exact hst) hne, ok_bind, check_pos rfl, ok_bind,
    setThreadState_eq (by exact hst), ok_bind, if_pos rfl]
  simp [masterStartThread, put, getThreadState, hidx, check]

theorem masterScheduleThread_spawner
    (hspawner : some req.destination = cfg.getCurrentThreadSpawnerTileNum) :
    masterScheduleThread cfg m req = .error .emptyQueue := by
  rw [masterScheduleThread, hidx, m.getThreadState_eq hst, ok_bind, if_neg (not_not.mpr hspawner)]
  dsimp only
  rw [isThreadStartable_eq hst hne, ok_bind, check_pos rfl, ok_bind, setThreadState_eq hst,
    ok_bind, if_pos rfl]
  simp [masterStartThread, put, hq]
  rfl

end

/-- A thread on `t` has spawned one on `d`. -/
structure Spawned (cfg : Config N) (m : Master N) (t d : Fin N) (m' : Master N) : Prop where
  idle : m.threads.status d = [.idle]
  spawner : some d ≠ cfg.getCurrentThreadSpawnerTileNum
  status : ∀ x, m'.threads.status x = if x = d then [.initializing] else m.threads.status x
  last : ∀ x, x ≠ t → m'.threads.lastStalled x = m.threads.lastStalled x
  waiter : m'.waiter = m.waiter
  threadId : m'.threadId = setSlot m.threadId d 0 (some (m.tidCounter + 1))
  counter : m'.tidCounter = m.tidCounter + 1
  new : m'.tidToCore[m.tidCounter + 1]? = some (d, 0)
  old : ∀ tid, 1 ≤ tid → tid ≤ m.tidCounter → m'.tidToCore[tid]? = m.tidToCore[tid]?
  queue : m'.waiterQueue = update m.waiterQueue d [⟨t, 0, d, 0, m.tidCounter + 1⟩]
  out : m'.out = m.out ++ [.started d 0 (m.tidCounter + 1), .spawnReply t d 0 (m.tidCounter + 1)]

def SpawnFault (cfg : Config N) (m : Master N) (destination : Option (Fin N)) (e : Fault) : Prop :=
  (destination = none ∧ e = .noCores ∧ Full cfg m) ∨
    (e = .tidOverflow ∧ 2 ^ 30 ≤ m.tidCounter + 1) ∨
    (destination ≠ none ∧ (e = .noThreads ∨ e = .emptyQueue))

theorem full_of_stalled (ht : m.threads.status t = [.running]) (h : Full cfg (m.stalled t)) :
    Full cfg m := by
  intro d hd hmain
  have := h d hd hmain
  rw [stalled_status] at this
  rcases eq_or_ne d t with rfl | hne
  · simp [ht]
  · rwa [if_neg hne] at this

theorem masterSpawnThread_sat (hK : cfg.maxThreadsPerCore = 1)
    (hone : ∀ t, ∃ st, m.threads.status t = [st]) (hmap : Mapped m)
    (hq : ∀ d, m.threads.status d = [.idle] → m.waiterQueue d = [])
    (ht : m.threads.status t = [.running]) (destination : Option (Fin N)) :
    Sat (masterSpawnThread cfg m t 0 destination) (SpawnFault cfg m destination) fun m' =>
      ∃ d, (∀ d', destination = some d' → d = d') ∧ Spawned cfg m t d m' := by
  have hone' : ∀ x, ∃ st, (m.stalled t).threads.status x = [st] := by
    intro x
    rw [stalled_status]
    split
    · exact ⟨_, rfl⟩
    · exact hone x
  rw [masterSpawnThread, stallThreadAt_eq ht, ok_bind]
  refine ((findDestination_sat hK hone' destination).imp ?_ fun _ => id).bind ?_
  · rintro e (⟨h, he, hfull⟩ | ⟨h, he⟩)
    · exact .inl ⟨h, he, full_of_stalled ht hfull⟩
    · exact .inr (.inr ⟨h, .inl he⟩)
  rintro ⟨d, j⟩ ⟨hj, hidle, hdest, happ⟩
  obtain rfl : j = 0 := hj
  have hdt : d ≠ t := by
    rintro rfl
    simp at hidle
  rw [stalled_status, if_neg hdt] at hidle
  have hmap' : Mapped (m.stalled t) := hmap
  refine ((getNewThreadId_sat hmap' d).imp (fun e he => .inr (.inl he)) fun _ => id).bind ?_
  rintro ⟨m₂, tid⟩ ⟨htid, ⟨map, hm₂⟩, hnew, hold⟩
  dsimp only at htid hm₂ hnew hold ⊢
  have hidle₂ : m₂.threads.status d = [.idle] := by
    rw [hm₂]
    simpa [hdt] using hidle
  have hq₂ : m₂.waiterQueue d = [] := by
    rw [hm₂]
    exact hq d hidle
  by_cases hspawner : some d = cfg.getCurrentThreadSpawnerTileNum
  · rw [masterScheduleThread_spawner hidle₂ rfl (Ne.symm hdt) hq₂ hspawner]
    refine .inr (.inr ⟨fun h => ?_, .inr rfl⟩)
    have hlt : d.val < cfg.applicationTiles := happ h
    have htotal := cfg.total
    unfold Config.getCurrentThreadSpawnerTileNum at hspawner
    split at hspawner
    · next hfull =>
      rw [Option.some.injEq, Fin.ext_iff] at hspawner
      rw [if_pos hfull] at htotal
      dsimp only at hspawner
      omega
    · cases hspawner
  · have hlast₂ : m₂.threads.lastStalled t = some 0 := by simp [hm₂]
    have ht₂ : m₂.threads.status t = [.stalled] := by simp [hm₂]
    rw [masterScheduleThread_eq hidle₂ rfl (Ne.symm hdt) hq₂ hspawner, ok_bind, masterSpawnThreadReply,
      resumeThread_eq (show _ = [CoreState.stalled] by
        simpa [emit, Ne.symm hdt] using ht₂) (by simpa [emit] using hlast₂), ok_bind]
    refine ⟨d, hdest, ⟨hidle, hspawner, fun x => ?_, fun x hx => ?_, ?_, ?_, ?_, ?_, ?_, ?_, ?_⟩⟩
    · rcases eq_or_ne x t with rfl | hxt
      · simp [emit, Ne.symm hdt, ht]
      · simp [emit, hxt, hm₂]
    · simp [emit, hm₂, hx]
    · rw [hm₂]
      rfl
    · rw [hm₂]
      rfl
    · rw [hm₂]
      rfl
    · exact hnew
    · exact hold
    · subst htid
      rw [hm₂]
      rfl
    · subst htid
      rw [hm₂]
      exact append_assoc ..

end Spawn

/-! ## Exits and joins -/

section Exit

open ThreadManager

variable {cfg : Config N} {m : Master N} {t d : Fin N} {tid time : ℕ}

/-- The replies to the threads that join slot `0` of `t`. -/
def joinReplies (m : Master N) (t : Fin N) (time : ℕ) : List (Event N) :=
  match m.waiter t 0 with
  | none => []
  | some (w, _) => [.joinReply w time]

/-- The thread on `t` has exited, and the thread that joins it runs again. -/
structure Exited (m : Master N) (t : Fin N) (time : ℕ) (m' : Master N) : Prop where
  status : ∀ x, m'.threads.status x =
    if x = t then [.idle] else if m.waiter t 0 = some (x, 0) then [.running] else m.threads.status x
  last : m'.threads.lastStalled = m.threads.lastStalled
  waiter : m'.waiter = setSlot m.waiter t 0 none
  threadId : m'.threadId = m.threadId
  counter : m'.tidCounter = m.tidCounter
  map : m'.tidToCore = m.tidToCore
  queue : m'.waiterQueue = update m.waiterQueue t []
  out : m'.out = m.out ++ joinReplies m t time ++ [.exitReply t none]

theorem setSlot_eq_self {α : Type} {f : Fin N → ℕ → α} {i : ℕ} : setSlot f t i (f t i) = f := by
  simp [setSlot]

theorem schedulerExit_eq (ht : m.threads.status t = [.idle]) (hq : (m.waiterQueue t).tail = [])
    (hspawner : some t = cfg.getCurrentThreadSpawnerTileNum ∨ t = cfg.getMCPTileNum →
      m.waiterQueue t = []) :
    ThreadScheduler.masterOnThreadExit cfg m t =
      .ok ({ m with waiterQueue := update m.waiterQueue t [] }.emit (.exitReply t none)) := by
  rw [ThreadScheduler.masterOnThreadExit, m.isCoreRunning_eq ht, if_neg (by decide), ok_bind,
    check_pos rfl, ok_bind]
  by_cases h : some t ≠ cfg.getCurrentThreadSpawnerTileNum ∧ t ≠ cfg.getMCPTileNum
  · rw [if_pos h, hq]
    simp [ThreadScheduler.startNext]
  · have hnil : m.waiterQueue t = [] := hspawner (by
      rw [not_and_or, not_not, not_not] at h
      exact h)
    have hself : update m.waiterQueue t [] = m.waiterQueue := by
      rw [← hnil, update_eq_self]
    rw [if_neg h, hself]
    simp [ThreadScheduler.startNext, hnil]

theorem masterOnThreadExit_sat (ht : m.threads.status t = [.running])
    (hq : (m.waiterQueue t).tail = [])
    (hspawner : some t = cfg.getCurrentThreadSpawnerTileNum ∨ t = cfg.getMCPTileNum →
      m.waiterQueue t = [])
    (hw : ∀ w j, m.waiter t 0 = some (w, j) → j = 0 ∧ w ≠ t ∧ ∃ st, m.threads.status w = [st]) :
    Returns (masterOnThreadExit cfg m t 0 time) (Exited m t time) := by
  rw [masterOnThreadExit, m.getThreadState_eq ht, ok_bind, check_pos rfl, ok_bind,
    m.setThreadState_eq ht, ok_bind]
  dsimp only
  rw [wakeUpWaiter]
  cases hwait : m.waiter t 0 with
  | none =>
    have : (m.put t .idle).waiter t 0 = none := hwait
    simp only [this, pure_eq_ok, ok_bind]
    rw [schedulerExit_eq (by simp) (by exact hq) (by exact hspawner)]
    refine ⟨fun x => ?_, rfl, ?_, rfl, rfl, rfl, rfl, ?_⟩
    · simp [emit, hwait]
    · rw [← hwait, setSlot_eq_self]
      rfl
    · simp [joinReplies, hwait, emit, put]
  | some p =>
    obtain ⟨w, j⟩ := p
    obtain ⟨rfl, hwt, st, hst⟩ := hw w j hwait
    have : (m.put t .idle).waiter t 0 = some (w, 0) := hwait
    simp only [this]
    rw [setThreadState_eq (show _ = [st] by simpa [hwt] using hst), ok_bind, pure_eq_ok,
      ok_bind, schedulerExit_eq (by simp [emit, Ne.symm hwt]) (by exact hq) (by exact hspawner)]
    refine ⟨fun x => ?_, rfl, rfl, rfl, rfl, rfl, rfl, ?_⟩
    · rcases eq_or_ne x t with rfl | hxt
      · simp [emit, Ne.symm hwt]
      · rcases eq_or_ne x w with rfl | hxw
        · simp [emit, hxt, hwait]
        · simp [emit, hxt, hxw, Ne.symm hxw, hwait]
    · simp [joinReplies, hwait, emit, put]

/-- The master after a join by the thread on `t` of slot `0` of `d`: the join is answered at once if
the slot is idle. -/
structure Joined (m : Master N) (t d : Fin N) (m' : Master N) : Prop where
  free : m.waiter d 0 = none
  status : ∀ x, m'.threads.status x =
    if x = t ∧ m.threads.status d ≠ [.idle] then [.stalled] else m.threads.status x
  last : ∀ x, m'.threads.lastStalled x = if x = t then some 0 else m.threads.lastStalled x
  waiter : m'.waiter =
    if m.threads.status d = [.idle] then m.waiter else setSlot m.waiter d 0 (some (t, 0))
  threadId : m'.threadId = m.threadId
  counter : m'.tidCounter = m.tidCounter
  map : m'.tidToCore = m.tidToCore
  queue : m'.waiterQueue = m.waiterQueue
  out : m'.out = m.out ++
    if m.threads.status d = [.idle] then [.joinReply t (m.completionTime d 0)] else []

theorem slotOf_eq {tid : Int32} {x : Fin N × ℕ} (h0 : 0 ≤ tid.toInt)
    (hmap : m.tidToCore[tid.toNatClampNeg]? = some x) :
    tid.toInt < m.tidToCore.length ∧ slotOf m tid = .ok x := by
  obtain ⟨k, hk⟩ := Int.eq_ofNat_of_zero_le h0
  rw [Int32.toNatClampNeg, hk, Int.toNat_natCast] at hmap
  have hlt := (List.getElem?_eq_some_iff.mp hmap).1
  refine ⟨by omega, ?_⟩
  unfold slotOf
  rw [hk]
  simp only [hmap]
  rfl

theorem masterJoinThread_sat {tid : Int32} (ht : m.threads.status t = [.running]) (h0 : 0 ≤ tid.toInt)
    (hmap : m.tidToCore[tid.toNatClampNeg]? = some (d, 0)) (hd : ∃ st, m.threads.status d = [st]) :
    Sat (masterJoinThread m t 0 tid) (fun e => e = .multipleJoin ∧ m.waiter d 0 ≠ none)
      (Joined m t d) := by
  obtain ⟨st, hst⟩ := hd
  obtain ⟨hlt, hslot⟩ := slotOf_eq h0 hmap
  rw [masterJoinThread, check_pos hlt, ok_bind, hslot, ok_bind]
  refine sat_check_bind (fun hfree => ?_) fun h => ⟨rfl, h⟩
  dsimp only
  rw [stallThread_eq (by exact ht), ok_bind]
  rcases eq_or_ne d t with rfl | hdt
  · rw [getThreadState_eq (show _ = [CoreState.stalled] by simp), ok_bind, if_neg (by decide)]
    refine ⟨hfree, fun x => ?_, fun x => ?_, ?_, rfl, rfl, rfl, rfl, ?_⟩
    · simp [ht]
    · simp
    · simp [ht, stalled, put]
    · simp [ht, stalled, put]
  · rw [getThreadState_eq (show _ = [st] by simpa [hdt] using hst), ok_bind]
    by_cases hidle : st = .idle
    · subst hidle
      rw [if_pos rfl, wakeUpWaiter]
      simp only [stalled, put, setSlot_self]
      rw [setThreadState_eq (show _ = [CoreState.stalled] by simp), ok_bind]
      refine ⟨hfree, fun x => ?_, fun x => ?_, ?_, rfl, rfl, rfl, rfl, ?_⟩
      · rcases eq_or_ne x t with rfl | hxt
        · simp [emit, hst, ht]
        · simp [emit, hst, hxt]
      · simp [emit, update_apply]
      · simp only [emit, put, hst, if_true]
        funext x i
        rcases eq_or_ne x d with rfl | hxd
        · by_cases hi : i = 0
          · subst hi
            rw [setSlot_self, hfree]
          · simp [setSlot, hi]
        · rw [setSlot_of_ne hxd, setSlot_of_ne hxd]
      · simp [emit, put, hst]
    · rw [if_neg hidle]
      refine ⟨hfree, fun x => ?_, fun x => ?_, ?_, rfl, rfl, rfl, rfl, ?_⟩
      · simp [hst, hidle]
      · simp
      · simp [hst, hidle, stalled, put]
      · simp [hst, hidle, stalled, put]

end Exit

end Graphite.Thread
