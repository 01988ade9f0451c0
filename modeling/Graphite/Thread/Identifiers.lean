import Graphite.Thread.Placement

/-! # Thread identifiers

The map from identifiers to slots grows to twice the identifier that does not fit, so its size is the
first power of two above the last identifier. A join is refused if its identifier is not below that
size. Between the last identifier and the size no spawn has written an entry, and all of them name slot
`0` of tile `0`.
-/

namespace Graphite.Thread

open Outcome ThreadManager ThreadScheduler List

variable {N : ℕ}

/-! ## What the handlers leave alone -/

/-- The map is the same, and no spawn is answered. -/
structure SameIds (m m' : Master N) : Prop where
  counter : m'.tidCounter = m.tidCounter
  map : m'.tidToCore = m.tidToCore
  out : m'.out.filterMap spawnedId = m.out.filterMap spawnedId

section SameIds

variable {cfg : Config N} {m m₁ m₂ : Master N} {t : Fin N} {i : ℕ} {x : Except Fault (Master N)}

theorem SameIds.refl : SameIds m m := ⟨rfl, rfl, rfl⟩

theorem SameIds.trans (h : SameIds m m₁) (h' : SameIds m₁ m₂) : SameIds m m₂ :=
  ⟨h'.counter.trans h.counter, h'.map.trans h.map, h'.out.trans h.out⟩

theorem SameIds.emit (h : SameIds m m₁) {e : Event N} (he : spawnedId e = none) :
    SameIds m (m₁.emit e) := ⟨h.counter, h.map, by simp [Master.emit, he, h.out]⟩

/-- The handler leaves the identifiers of `m` alone. -/
def KeepsIds (m : Master N) (x : Except Fault (Master N)) : Prop := Ensures x (SameIds m)

theorem SameIds.keeps (h : SameIds m m₁) (hx : KeepsIds m₁ x) :
    KeepsIds m x := Sat.mono hx fun _ => h.trans

theorem KeepsIds.bind {f : Master N → Except Fault (Master N)}
    (hx : KeepsIds m x) (hf : ∀ m₁, SameIds m m₁ → KeepsIds m (f m₁)) : KeepsIds m (x >>= f) :=
  Sat.bind hx hf

theorem keepsIds_bind {α : Type} {x : Except Fault α} {f : α → Except Fault (Master N)}
    (hf : ∀ a, KeepsIds m (f a)) : KeepsIds m (x >>= f) :=
  ensures_bind hf

theorem keepsIds_threads {x : Except Sync.Fault (Sync.Threads N)} :
    KeepsIds m (liftThreads x >>= fun T => pure { m with threads := T }) :=
  keepsIds_bind fun _ => ⟨rfl, rfl, rfl⟩

theorem setThreadState_ids {st : Sync.CoreState} : KeepsIds m (m.setThreadState t i st) :=
  keepsIds_threads

theorem masterStartThread_ids : KeepsIds m (masterStartThread m t) := by
  unfold masterStartThread
  split
  · trivial
  · exact keepsIds_bind fun _ => keepsIds_bind fun _ => SameIds.refl.emit rfl

theorem masterScheduleThread_ids (req : SpawnRequest N) :
    KeepsIds m (masterScheduleThread cfg m req) := by
  refine keepsIds_bind fun st => ?_
  have hqueue : SameIds m (if some req.destination ≠ cfg.getCurrentThreadSpawnerTileNum then
      { m with waiterQueue :=
        Function.update m.waiterQueue req.destination (m.waiterQueue req.destination ++ [req]) }
      else m) := by
    split <;> exact ⟨rfl, rfl, rfl⟩
  refine hqueue.keeps (keepsIds_bind fun startable => keepsIds_bind fun _ => ?_)
  refine setThreadState_ids.bind fun m₁ h₁ => ?_
  cases startable with
  | true => exact h₁.keeps masterStartThread_ids
  | false => exact h₁

theorem wakeUpWaiter_ids {time : ℕ} : KeepsIds m (wakeUpWaiter m t i time) := by
  unfold wakeUpWaiter
  split
  · exact SameIds.refl
  · refine setThreadState_ids.bind fun m₁ h₁ => ?_
    have h₂ : SameIds m { m₁ with waiter := setSlot m₁.waiter t i none } :=
      ⟨h₁.counter, h₁.map, h₁.out⟩
    exact h₂.emit rfl

theorem startNext_ids : Ensures (startNext m t) fun r => SameIds m r.1 := by
  unfold startNext
  split
  · exact SameIds.refl
  · refine ensures_bind fun st => ?_
    split
    · exact Sat.bind masterStartThread_ids fun m₁ h₁ => h₁
    · exact Sat.bind setThreadState_ids fun m₁ h₁ => h₁

theorem schedulerExit_ids : KeepsIds m (ThreadScheduler.masterOnThreadExit cfg m t) := by
  refine keepsIds_bind fun running => keepsIds_bind fun _ => ?_
  have hqueue : SameIds m (if some t ≠ cfg.getCurrentThreadSpawnerTileNum ∧ t ≠ cfg.getMCPTileNum then
      { m with waiterQueue := Function.update m.waiterQueue t (m.waiterQueue t).tail } else m) := by
    split <;> exact ⟨rfl, rfl, rfl⟩
  exact hqueue.keeps (Sat.bind startNext_ids fun r hr => hr.emit rfl)

theorem masterOnThreadExit_ids {time : ℕ} :
    KeepsIds m (ThreadManager.masterOnThreadExit cfg m t i time) := by
  refine keepsIds_bind fun st => keepsIds_bind fun _ => setThreadState_ids.bind fun m₁ h₁ => ?_
  have h₂ : SameIds m { m₁ with completionTime := setSlot m₁.completionTime t i time } :=
    ⟨h₁.counter, h₁.map, h₁.out⟩
  exact h₂.keeps (wakeUpWaiter_ids.bind fun m₃ h₃ => h₃.keeps schedulerExit_ids)

theorem masterOnThreadStart_ids : KeepsIds m (masterOnThreadStart m t i) :=
  keepsIds_bind fun _ => keepsIds_bind fun _ => setThreadState_ids

theorem masterJoinThread_ids {tid : Int32} : KeepsIds m (masterJoinThread m t i tid) := by
  refine keepsIds_bind fun _ => keepsIds_bind fun ⟨d, j⟩ => keepsIds_bind fun _ => ?_
  have h₁ : SameIds m { m with waiter := setSlot m.waiter d j (some (t, i)) } := ⟨rfl, rfl, rfl⟩
  refine h₁.keeps (KeepsIds.bind keepsIds_threads fun m₂ h₂ => keepsIds_bind fun st => ?_)
  split
  · exact h₂.keeps wakeUpWaiter_ids
  · exact h₂

end SameIds

/-! ## The size of the map -/

/-- The size of the map after `k` spawns. -/
def mapSize (k : ℕ) : ℕ := if k = 0 then 0 else 2 ^ k.size

theorem mapSize_of_pos {k : ℕ} (hk : 0 < k) : mapSize k = 2 ^ k.size := if_neg (Nat.ne_of_gt hk)

theorem mapSize_succ (k : ℕ) :
    mapSize (k + 1) = if mapSize k ≤ k + 1 then 2 * (k + 1) else mapSize k := by
  rcases Nat.eq_zero_or_pos k with rfl | hk
  · rfl
  have hlt : k < 2 ^ k.size := Nat.lt_size_self k
  rw [mapSize_of_pos (Nat.add_one_pos k), mapSize_of_pos hk]
  split
  · next hle =>
    -- the new identifier is a power of two
    have heq : k + 1 = 2 ^ k.size := by omega
    rw [heq, Nat.size_pow, Nat.pow_succ, Nat.mul_comm]
  · next hgt =>
    have hle : (k + 1).size ≤ k.size := Nat.size_le.mpr (by omega)
    rw [Nat.le_antisymm hle (Nat.size_le_size (Nat.le_succ k))]

/-- A spawn has returned the next identifier. -/
structure NewId (m m' : Master N) : Prop where
  counter : m'.tidCounter = m.tidCounter + 1
  size : m'.tidToCore.length = if m.tidToCore.length ≤ m.tidCounter + 1 then 2 * (m.tidCounter + 1)
    else m.tidToCore.length
  out : m'.out.filterMap spawnedId = m.out.filterMap spawnedId ++ [m.tidCounter + 1]

section Spawn

variable {cfg : Config N} {m : Master N} {t : Fin N} {i : ℕ}

theorem getNewThreadId_size (d : Fin N) (j : ℕ) :
    Ensures (getNewThreadId cfg m d j) fun r => r.2 = m.tidCounter + 1 ∧
      r.1.tidCounter = m.tidCounter + 1 ∧ r.1.out = m.out ∧
      r.1.tidToCore.length = if m.tidToCore.length ≤ m.tidCounter + 1 then 2 * (m.tidCounter + 1)
        else m.tidToCore.length := by
  unfold getNewThreadId
  dsimp only
  split
  · refine ensures_bind fun _ => ?_
    rw [pure_eq_ok, ok_bind]
    refine ensures_bind fun _ => ⟨rfl, rfl, rfl, ?_⟩
    rw [length_set, resize, length_append, length_take, length_replicate]
    omega
  · rw [pure_eq_ok, ok_bind]
    exact ensures_bind fun _ => ⟨rfl, rfl, rfl, length_set ..⟩

theorem masterSpawnThread_newId (destination : Option (Fin N)) :
    Ensures (masterSpawnThread cfg m t i destination) (NewId m) := by
  refine Sat.bind (P := SameIds m) keepsIds_threads fun m₁ h₁ => ?_
  refine ensures_bind fun ⟨d, j⟩ => ?_
  refine (getNewThreadId_size d j).bind fun ⟨m₂, tid⟩ ⟨htid, hc, hout, hsize⟩ => ?_
  dsimp only at htid hc hout hsize
  subst htid
  refine Sat.bind (masterScheduleThread_ids _) fun m₃ h₃ => ?_
  refine Sat.bind (P := SameIds m₃) keepsIds_threads fun m₄ h₄ => ?_
  have h := h₃.trans h₄
  refine ⟨?_, ?_, ?_⟩
  · exact h.counter.trans (hc.trans (by rw [h₁.counter]))
  · rw [show (m₄.emit _).tidToCore = _ from h.map, hsize, h₁.map, h₁.counter]
  · simp [Master.emit, spawnedId, h.out, hout, h₁.out, h₁.counter]

end Spawn

/-! ## Runs -/

/-- The threads, with joins that may name any identifier. -/
def anyJoins (cfg : Config N) : System (State N) (Action N) Fault (Event N) where
  init := (threads cfg).init
  enabled s
    | .join t τ _ => τ ∈ s.live t ∧ τ.phase = .running
    | a => (threads cfg).enabled s a
  step := (threads cfg).step

instance (cfg : Config N) (s : State N) : DecidablePred ((anyJoins cfg).enabled s)
  | .join t τ _ => inferInstanceAs (Decidable (τ ∈ s.live t ∧ τ.phase = .running))
  | .spawn .. | .start .. | .stall .. | .resume .. | .exit .. => by
    dsimp only [anyJoins]; infer_instance

structure IdInv (tr : List (Event N)) (s : State N) : Prop where
  numbered : Numbered tr s
  size : s.master.tidToCore.length = mapSize s.master.tidCounter
  out : s.master.out = []

section Runs

variable {cfg : Config N} {tr : List (Event N)} {s s₁ : State N} {m : Master N}

theorem IdInv.same {request : List (Event N)} (h : IdInv tr s) (hm : SameIds s.master m)
    (hr : request.filterMap spawnedId = []) :
    IdInv (tr ++ (s₁.answered m request).2) (s₁.answered m request).1 := by
  refine ⟨?_, ?_, rfl⟩
  · show (tr ++ (request ++ m.out)).filterMap spawnedId = range' 1 m.tidCounter
    rw [filterMap_append, filterMap_append, hr, hm.out, h.out, hm.counter, h.numbered]
    simp
  · show m.tidToCore.length = mapSize m.tidCounter
    rw [hm.map, hm.counter, h.size]

theorem IdInv.new (h : IdInv tr s) (hm : NewId s.master m) :
    IdInv (tr ++ (s.answered m []).2) (s.answered m []).1 := by
  refine ⟨?_, ?_, rfl⟩
  · show (tr ++ m.out).filterMap spawnedId = range' 1 m.tidCounter
    rw [filterMap_append, hm.out, h.out, hm.counter, h.numbered, range'_1_concat, Nat.add_comm 1]
    rfl
  · show m.tidToCore.length = mapSize m.tidCounter
    rw [hm.size, hm.counter, h.size, mapSize_succ]

theorem IdInv.step (h : IdInv tr s) (a : Action N) :
    Ensures ((anyJoins cfg).step s a) fun r => IdInv (tr ++ r.2) r.1 := by
  cases a with
  | spawn t τ destination => exact Sat.bind (masterSpawnThread_newId destination) fun m hm => h.new hm
  | start t τ => exact Sat.bind masterOnThreadStart_ids fun m hm => h.same hm rfl
  | stall t τ => exact Sat.bind keepsIds_threads fun m hm => h.same hm rfl
  | resume t τ => exact Sat.bind keepsIds_threads fun m hm => h.same hm rfl
  | exit t τ time => exact Sat.bind masterOnThreadExit_ids fun m hm => h.same hm rfl
  | join t τ tid => exact Sat.bind masterJoinThread_ids fun m hm => h.same hm rfl

theorem liftThreads_known {α : Type} (x : Except Sync.Fault α) :
    Sat (liftThreads x) (· ≠ .unknownThread) fun _ => True := by
  cases x with
  | ok a => trivial
  | error e => exact nofun

theorem wakeUpWaiter_known {t : Fin N} {i time : ℕ} :
    Sat (wakeUpWaiter m t i time) (· ≠ .unknownThread) fun _ => True := by
  unfold wakeUpWaiter
  split
  · trivial
  · exact Sat.bind (P := fun _ => True) ((liftThreads_known _).bind fun _ _ => trivial) fun _ _ => trivial

theorem slotOf_known {tid : Int32} : Sat (slotOf m tid) (· ≠ .unknownThread) fun _ => True := by
  unfold slotOf
  split
  · next k _ =>
    cases m.tidToCore[k]? with
    | none => exact fun h => by cases h
    | some x => trivial
  · exact fun h => by cases h

theorem masterJoinThread_refused {t : Fin N} {i : ℕ} {tid : Int32} :
    masterJoinThread m t i tid = .error .unknownThread ↔ (m.tidToCore.length : ℤ) ≤ tid.toInt := by
  unfold masterJoinThread
  by_cases hlt : tid.toInt < m.tidToCore.length
  · refine iff_of_false (fun heq => ?_) (Int.not_le.mpr hlt)
    have hknown : Sat (masterJoinThread m t i tid) (· ≠ .unknownThread) fun _ => True := by
      rw [masterJoinThread, check_pos hlt]
      refine slotOf_known.bind fun x _ => ?_
      refine sat_check_bind (fun _ => ?_) fun _ h => by cases h
      refine Sat.bind (P := fun _ => True) ((liftThreads_known _).bind fun _ _ => trivial)
        fun m₁ _ => ?_
      refine Sat.bind (P := fun _ => True) ?_ fun st _ => ?_
      · unfold Master.getThreadState
        split
        · trivial
        · exact fun h => by cases h
      · split
        · exact wakeUpWaiter_known
        · trivial
    exact hknown.of_error heq rfl
  · rw [check, if_neg hlt]
    exact iff_of_true rfl (Int.not_lt.mp hlt)

/-- The identifiers that were returned are the numbers from one on. A join is refused because of
its identifier if that is not negative, and no thread was spawned or it has more binary digits than the
last one that was returned, and not otherwise. -/
theorem join_validation (cfg : Config N) {tr : List (Event N)} {s : State N}
    (hr : (anyJoins cfg).Run (fun _ => True) tr s) :
    (∀ tid, tid ∈ tr.filterMap spawnedId ↔ 1 ≤ tid ∧ tid ≤ s.master.tidCounter) ∧
      ∀ t i tid, masterJoinThread s.master t i tid = .error .unknownThread ↔ 0 ≤ tid.toInt ∧
          (s.master.tidCounter = 0 ∨ s.master.tidCounter.size < tid.toNatClampNeg.size) := by
  have h : IdInv tr s := hr.invariant (E := fun _ => True) (by rintro _ rfl; exact ⟨rfl, rfl, rfl⟩)
    fun _ _ a h _ _ => h.step a
  refine ⟨fun tid => ?_, fun t i tid => ?_⟩
  · rw [h.numbered, mem_range'_1]
    omega
  · have hle : ((mapSize s.master.tidCounter : ℕ) : ℤ) ≤ tid.toInt ↔
        0 ≤ tid.toInt ∧ mapSize s.master.tidCounter ≤ tid.toNatClampNeg := by
      unfold Int32.toNatClampNeg
      omega
    rw [masterJoinThread_refused, h.size, hle, mapSize]
    split
    · next hk => simp [hk]
    · next hk => simp [hk, Nat.lt_size]

/-- After one spawn a join of thread 2 is refused. -/
theorem join_validation_one : ∃ tr s, (anyJoins liteMachine).Run (fun _ => True) tr s ∧
    s.master.tidCounter = 1 ∧ masterJoinThread s.master 0 0 2 = .error .unknownThread := by
  refine System.Run.of_reaches_imp (Q := fun _ s => s.master.tidCounter = 1) (.start rfl)
    [.spawn 0 ⟨none, 0, .running⟩ none]
    fun tr s h hk => ⟨hk, ((join_validation liteMachine h).2 0 0 2).mpr ⟨by decide, .inr ?_⟩⟩
  rw [hk]
  decide

/-- After two spawns `main` joins thread 3, which was not spawned, and waits for itself. -/
theorem unspawned_joined : ∃ tr s s' out, (anyJoins liteMachine).Run (fun _ => True) tr s ∧
    3 ∉ tr.filterMap spawnedId ∧ (anyJoins liteMachine).enabled s (.join 0 ⟨none, 0, .running⟩ 3) ∧
    (anyJoins liteMachine).step s (.join 0 ⟨none, 0, .running⟩ 3) = .ok (s', out) ∧
    s'.master.waiter 0 0 = some (0, 0) := by
  obtain ⟨tr, s, h, hnew, hen, ⟨s', out⟩, hstep, hw⟩ := System.Run.of_reaches (S := anyJoins liteMachine)
    (P := fun _ => True) (Q := fun tr s => 3 ∉ tr.filterMap spawnedId ∧
      (anyJoins liteMachine).enabled s (.join 0 ⟨none, 0, .running⟩ 3) ∧
      ∃ r, (anyJoins liteMachine).step s (.join 0 ⟨none, 0, .running⟩ 3) = .ok r ∧
        r.1.master.waiter 0 0 = some (0, 0)) (.start rfl)
    [.spawn 0 ⟨none, 0, .running⟩ none, .start 1 ⟨some 1, 0, .starting⟩, .exit 1 ⟨some 1, 0, .running⟩ 7,
      .spawn 0 ⟨none, 0, .running⟩ none]
  exact ⟨tr, s, s', out, h, hnew, hen, hstep, hw⟩

end Runs

end Graphite.Thread
