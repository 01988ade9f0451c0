import Graphite.Sync.Mutex

/-! # Condition variables

The queue of a condition variable and the mutex of each core in it, as the requests of a run determine
them. The server agrees with this history as long as every signal finds the cores of its condition
waiting with one mutex. With two it does not, since the vector that keeps the waiting cores leaves
their mutexes in place when it shifts them.
-/

namespace Graphite.Sync

open Outcome List Sync.Server SyncServer

variable {N : ℕ} {tr : List (Event N)} {s : State N}

/-- The queue of a condition after one more event: the cores with the mutexes they passed. -/
def queueUp (cond : ℕ) (ws : List (Fin N × ℕ)) : Event N → List (Fin N × ℕ)
  | .request c (.condWait v mux _) => if v = cond then ws ++ [(c, mux)] else ws
  | .request _ (.condSignal v _) => if v = cond then ws.tail else ws
  | .request _ (.condBroadcast v _) => if v = cond then [] else ws
  | _ => ws

/-- The cores that wait for a condition, the longest first. -/
def waiters (cond : ℕ) (log : List (Event N)) : List (Fin N × ℕ) := log.foldl (queueUp cond) []

/-- The cores that a request takes from a condition. -/
def removed (log : List (Event N)) : Request → List (Fin N × ℕ)
  | .condSignal cond _ => (waiters cond log).take 1
  | .condBroadcast cond _ => waiters cond log
  | _ => []

def CondWaiter.pair (w : CondWaiter N) : Fin N × ℕ := (w.core, w.mutex)

theorem foldl_queueUp_plain (cond : ℕ) (out : List (Event N)) (ws : List (Fin N × ℕ)) :
    out.foldl (queueUp cond) ws = (out.filterMap plain).foldl (queueUp cond) ws := by
  induction out generalizing ws with
  | nil => rfl
  | cons e out ih =>
    cases e with
    | reply d r => cases r <;> exact ih _
    | _ => exact ih _

theorem waiters_append {out : List (Event N)} {c : Fin N} {r : Request}
    (h : out.filterMap plain = .request c r :: (r.reply?.map (Event.reply c)).toList) (cond : ℕ)
    (tr : List (Event N)) :
    waiters cond (tr ++ out) = queueUp cond (waiters cond tr) (.request c r) := by
  rw [waiters, foldl_append, foldl_queueUp_plain, h, foldl_cons]
  cases r.reply? <;> rfl

/-! ## What the handlers do to the conditions -/

section Conds

variable {s : Server N} {mux : ℕ} {c : Fin N} {r : Request}

theorem stallThread_frame : Ensures (s.stallThread c) fun s' =>
    s'.conds = s.conds ∧ s'.mutexes = s.mutexes ∧ s'.out = s.out := by
  unfold stallThread
  cases s.threads.stallThread c with
  | error e => trivial
  | ok T => exact ⟨rfl, rfl, rfl⟩

theorem resumeThread_frame : Ensures (s.resumeThread c) fun s' =>
    s'.conds = s.conds ∧ s.out ⊆ s'.out := by
  unfold resumeThread
  cases s.threads.resumeThread c with
  | error e => trivial
  | ok T => exact ⟨rfl, by simp [emit]⟩

def Settled (out : List (Event N)) (w : Fin N × ℕ) : Prop :=
  .granted w.2 w.1 ∈ out ∨ .queued w.2 w.1 ∈ out

theorem Settled.mono {out out' : List (Event N)} {w : Fin N × ℕ} (h : Settled out w)
    (hs : out ⊆ out') : Settled out' w :=
  h.imp (fun h => hs h) fun h => hs h

theorem lock_frame : Ensures (SimMutex.lock s mux c) fun r =>
    r.1.conds = s.conds ∧ s.out ⊆ r.1.out ∧ Settled r.1.out (c, mux) := by
  unfold SimMutex.lock
  cases at? s.mutexes mux with
  | error e => trivial
  | ok m =>
    cases ho : m.owner with
    | none =>
      simp only [ok_bind, ho, sat_pure]
      exact ⟨rfl, by simp [emit, setMutex], .inl (by simp [emit])⟩
    | some o =>
      simp only [ok_bind, ho]
      refine stallThread_frame.bind fun s' hs' => ?_
      exact ⟨hs'.1, by simp [emit, setMutex, hs'.2.2], .inr (by simp [emit])⟩

theorem unlock_frame : Ensures (SimMutex.unlock s mux c) fun r => r.1.conds = s.conds := by
  unfold SimMutex.unlock
  cases at? s.mutexes mux with
  | error e => trivial
  | ok m =>
    rw [ok_bind]
    refine ensures_bind fun _ => ?_
    cases m.waiting with
    | nil => exact rfl
    | cons d ds => exact resumeThread_frame.bind fun s' hs' => hs'.1

theorem wake_frame {w : CondWaiter N} : Ensures (SimCond.wake s w) fun r =>
    r.1.conds = s.conds ∧ s.out ⊆ r.1.out ∧ Settled r.1.out w.pair := by
  refine resumeThread_frame.bind fun s' hs' => ?_
  refine lock_frame.mono fun r hr => ?_
  exact ⟨hr.1.trans hs'.1, List.Subset.trans hs'.2 hr.2.1, hr.2.2⟩

theorem wakeAll_frame {ws : List (CondWaiter N)} {woken : List (Fin N)} :
    Ensures (SimCond.wakeAll ws s woken) fun r =>
      r.1.conds = s.conds ∧ s.out ⊆ r.1.out ∧ ∀ w ∈ ws, Settled r.1.out w.pair := by
  induction ws generalizing s woken with
  | nil => exact ⟨rfl, List.Subset.refl _, by simp⟩
  | cons w ws ih =>
    refine wake_frame.bind fun r hr => ?_
    refine ih.mono fun r' hr' => ?_
    refine ⟨hr'.1.trans hr.1, List.Subset.trans hr.2.1 hr'.2.1, fun u hu => ?_⟩
    rcases mem_cons.mp hu with rfl | hu
    · exact hr.2.2.mono hr'.2.1
    · exact hr'.2.2 u hu

/-- The conditions after request `r` of core `c`. -/
def CondsAfter (s : Server N) (c : Fin N) (r : Request) (s' : Server N) : Prop :=
  ∀ (cond : ℕ) (v' : SimCond N), s'.conds[cond]? = some v' → ∃ v, s.conds[cond]? = some v ∧
    v'.waiting.map CondWaiter.pair = queueUp cond (v.waiting.map CondWaiter.pair) (.request c r)

/-- The cores that request `r` takes from a condition, as the server has them. -/
def taken (s : Server N) : Request → List (CondWaiter N)
  | .condSignal cond _ => (s.conds[cond]?.getD {}).waiting.take 1
  | .condBroadcast cond _ => (s.conds[cond]?.getD {}).waiting
  | _ => []

theorem CondsAfter.of_eq {s' : Server N} (h : s'.conds = s.conds)
    (hr : ∀ cond ws, queueUp cond ws (.request c r) = ws) : CondsAfter s c r s' := by
  intro cond v hv
  exact ⟨v, h ▸ hv, (hr _ _).symm⟩

theorem CondsAfter.of_set {s' : Server N} {v : SimCond N} (cond : ℕ) (v' : SimCond N)
    (h : s'.conds = s.conds.set cond v') (hv : s.conds[cond]? = some v)
    (hr : ∀ cond', cond ≠ cond' → ∀ ws, queueUp cond' ws (.request c r) = ws)
    (hv' : v'.waiting.map CondWaiter.pair =
      queueUp cond (v.waiting.map CondWaiter.pair) (.request c r)) : CondsAfter s c r s' := by
  intro cond' u hu
  rw [h] at hu
  rcases getElem?_set_cases hu with ⟨rfl, rfl⟩ | ⟨hne, hu⟩
  · exact ⟨v, hv, hv'⟩
  · exact ⟨u, hu, (hr cond' hne _).symm⟩

theorem notifyOwner_conds (time : ℕ) (o : Option (Fin N)) : (notifyOwner s time o).conds = s.conds ∧
      s.out ⊆ (notifyOwner s time o).out := by
  cases o with
  | none => exact ⟨rfl, List.Subset.refl _⟩
  | some d => exact ⟨rfl, by simp [notifyOwner, netSend, emit]⟩

theorem notifyAll_conds (time : ℕ) (ow : List (Fin N)) :
    (ow.foldl (fun s d => s.netSend d (.mutexLock time)) s).conds = s.conds ∧
      s.out ⊆ (ow.foldl (fun s d => s.netSend d (.mutexLock time)) s).out := by
  induction ow generalizing s with
  | nil => exact ⟨rfl, List.Subset.refl _⟩
  | cons d ow ih =>
    obtain ⟨hc, ho⟩ := ih (s := s.netSend d (.mutexLock time))
    exact ⟨hc, List.Subset.trans (by simp [netSend, emit]) ho⟩

theorem handle_conds (hperm : Permitted s c r) (hone : OneMutex s r) :
    Ensures (handle s c r) fun s' =>
      CondsAfter s c r s' ∧ ∀ w ∈ taken s r, Settled s'.out w.pair := by
  cases r with
  | mutexLock mux time =>
    rw [handle, mutexLock]
    refine ensures_bind fun _ => lock_frame.bind fun r hr => ?_
    refine ⟨.of_eq ?_ fun _ _ => rfl, by simp [taken]⟩
    cases r.2 <;> exact hr.1
  | mutexUnlock mux time =>
    rw [handle, mutexUnlock]
    refine ensures_bind fun _ => unlock_frame.bind fun r hr => ?_
    exact ⟨.of_eq ((notifyOwner_conds time r.2).1.trans hr) fun _ _ => rfl, by simp [taken]⟩
  | condWait cond mux time =>
    simp only [handle, condWait, sat_bind, sat_check]
    refine ⟨fun _ => ⟨fun hcond => ?_, fun _ => trivial⟩, fun _ => trivial⟩
    obtain ⟨v, hv⟩ := exists_of_lt hcond
    refine stallThread_frame.bind fun s₁ hs₁ => ?_
    rw [at_of_getElem (hs₁.1 ▸ hv), ok_bind]
    refine unlock_frame.mono fun r hr => ?_
    refine ⟨.of_set cond ⟨v.waiting ++ [⟨c, mux, time⟩]⟩ ?_ hv
      (fun cond' hne ws => if_neg hne) ?_, by simp [taken]⟩
    · rw [(notifyOwner_conds time r.2).1, hr, setCond, hs₁.1]
    · simp [queueUp, CondWaiter.pair]
  | condSignal cond time =>
    simp only [handle, condSignal, sat_bind, sat_check]
    refine ⟨fun hcond => ?_, fun _ => trivial⟩
    obtain ⟨v, hv⟩ := exists_of_lt hcond
    have hne : ∀ cond', cond ≠ cond' → ∀ ws : List (Fin N × ℕ),
        queueUp cond' ws (.request c (.condSignal cond time)) = ws := fun cond' h ws => if_neg h
    rw [SimCond.signal, at_of_getElem hv, ok_bind]
    cases hw : v.waiting with
    | nil =>
      refine ⟨fun cond' u hu => ⟨u, hu, ?_⟩, by simp [taken, hv, hw]⟩
      rcases eq_or_ne cond cond' with rfl | h
      · obtain rfl : v = u := Option.some.inj (hv.symm.trans hu)
        simp [queueUp, hw]
      · rw [hne cond' h]
    | cons w ws =>
      refine wake_frame.bind fun r hr => ?_
      obtain ⟨hc, ho⟩ := notifyOwner_conds (s := r.1) time (if r.2 then some w.core else none)
      refine ⟨.of_set cond ⟨eraseBegin (w :: ws)⟩ (hc.trans hr.1) hv hne ?_, ?_⟩
      · rw [eraseBegin_same (hw ▸ hone v hv)]
        simp [queueUp, hw]
      · intro u hu
        obtain rfl : u = w := by simpa [taken, hv, hw] using hu
        exact hr.2.2.mono (List.Subset.trans ho (by simp [netSend, emit]))
  | condBroadcast cond time =>
    simp only [handle, condBroadcast, sat_bind, sat_check]
    refine ⟨fun hcond => ?_, fun _ => trivial⟩
    obtain ⟨v, hv⟩ := exists_of_lt hcond
    rw [SimCond.broadcast, at_of_getElem hv, ok_bind]
    refine wakeAll_frame.bind fun r hr => ?_
    obtain ⟨hc, ho⟩ := notifyAll_conds (s := r.1.setCond cond ⟨[]⟩) time r.2
    refine ⟨.of_set cond ⟨[]⟩ ?_ hv (fun cond' hne ws => if_neg hne) ?_, ?_⟩
    · rw [← hr.1]
      exact hc
    · simp [queueUp]
    · intro u hu
      have hu : u ∈ v.waiting := by simpa [taken, hv] using hu
      exact (hr.2.2 u hu).mono (List.Subset.trans ho (by simp [netSend, emit]))
  | barrierWait barrier time => exact hperm.elim

end Conds

/-! ## Runs in which the cores of a condition wait with one mutex -/

/-- The server as long as every signal finds the cores of its condition waiting with one mutex. -/
def oneMutexMonitors (N : ℕ) : System (State N) (Fin N × Request) Fault (Event N) :=
  (monitors N).restrict fun s a => OneMutex s.server a.2

structure CondInv (tr : List (Event N)) (s : State N) : Prop where
  run : RunInv True tr s
  conds : ∀ (cond : ℕ) (v : SimCond N), s.server.conds[cond]? = some v →
    v.waiting.map CondWaiter.pair = waiters cond tr

theorem CondInv.init (h : (monitors N).init s) : CondInv [] s := by
  refine ⟨.init h, fun cond v hv => ?_⟩
  simp [h.2.2.1 v (mem_of_getElem? hv), waiters]

theorem CondInv.taken (h : CondInv tr s) {c : Fin N} {r : Request}
    (hperm : Permitted s.server c r) :
    (Sync.taken s.server r).map CondWaiter.pair = removed tr r := by
  cases r with
  | condSignal cond time | condBroadcast cond time =>
    obtain ⟨v, hv⟩ := exists_of_lt hperm
    simp [Sync.taken, removed, hv, ← h.conds cond v hv, map_take]
  | _ => rfl

theorem CondInv.step {a : Fin N × Request} (h : CondInv tr s)
    (he : (oneMutexMonitors N).enabled s a) :
    Returns ((oneMutexMonitors N).step s a) fun r =>
      CondInv (tr ++ r.2) r.1 ∧ ∀ w ∈ removed tr a.2, Settled r.2 w := by
  obtain ⟨c, r⟩ := a
  obtain ⟨⟨hpend, hperm⟩, hone⟩ := he
  have hrun := h.run.step ⟨hpend, hperm⟩ fun _ => hone
  have hc : waits s.server c = 0 := by
    by_contra hne
    simp [(h.run.pending c).mpr hne] at hpend
  have hinv := h.run.inv.handle h.run.out hc hperm fun _ => hone
  have hconds := handle_conds (s := { s.server with out := [.request c r] }) hperm hone
  change Sat (serve s.server c r >>= _) _ _ at hrun ⊢
  rw [serve, sat_bind, sat_bind] at hrun ⊢
  refine ((hrun.and hinv).and hconds).imp (fun _ h => h.1.1) fun s' hs' => ?_
  obtain ⟨⟨hrun', hinv'⟩, hafter, hset⟩ := hs'
  refine ⟨⟨hrun', fun cond v hv => ?_⟩, ?_⟩
  · obtain ⟨u, hu, huv⟩ := hafter cond v hv
    rw [huv, waiters_append hinv'.said, ← h.conds cond u hu]
  · rw [← h.taken hperm]
    intro w hw
    obtain ⟨u, hu, rfl⟩ := mem_map.mp hw
    exact hset u hu

theorem oneMutex_inv {P : Fin N × Request → Prop}
    (h : (oneMutexMonitors N).Run P tr s) : CondInv tr s :=
  System.Run.invariant (S := oneMutexMonitors N) (fun _ => CondInv.init)
    (fun _ _ _ hi _ he => (hi.step he).mono fun _ hr => hr.1) h

/-- In every run in which each signal finds the cores of its condition waiting with one mutex, the
queue of a condition holds the cores that wait for it, in the order of their requests, with the
mutexes they passed: a signal removes the first and a broadcast all of them. Each removed core gets
or queues for the mutex it passed, and so does every other core that gets or queues for a mutex. A
core is told once that it has the mutex it asked for, when it gets it. -/
theorem condition_server {tr : List (Event N)} {s : State N}
    (hrun : (oneMutexMonitors N).Run (fun _ => True) tr s) :
    (∀ (cond : ℕ) (v : SimCond N), s.server.conds[cond]? = some v →
      v.waiting.map (fun w => (w.core, w.mutex)) = waiters cond tr) ∧
    (∀ a, (oneMutexMonitors N).enabled s a → ∃ s' out, (oneMutexMonitors N).step s a = .ok (s', out) ∧
      ∀ w ∈ removed tr a.2, .granted w.2 w.1 ∈ out ∨ .queued w.2 w.1 ∈ out) ∧
    OwnMutex tr ∧
    tr.filterMap grantee = tr.filterMap lockReply ∧
    ∀ c, (tr.filterMap (ask c)).length = (tr.filterMap lockReply).count c + waits s.server c := by
  have h := oneMutex_inv hrun
  have hinv := h.run.inv
  have htold := hinv.accounts.told
  have hown := (hinv.own trivial).own
  rw [h.run.out] at htold hown
  simp only [append_nil] at htold hown
  refine ⟨h.conds, fun a he => ?_, hown, htold, fun c => ?_⟩
  · obtain ⟨r, hs, -, hr⟩ := (h.step he).exists_ok
    exact ⟨r.1, r.2, hs, hr⟩
  · have := hinv.accounts.asked c
    simpa [h.run.out, seats, htold] using this

instance (s : Server N) : DecidablePred (OneMutex s)
  | .condSignal .. => by dsimp only [OneMutex]; infer_instance
  | .mutexLock .. | .mutexUnlock .. | .condWait .. | .condBroadcast .. | .barrierWait .. => .isTrue trivial

instance (s : State N) : DecidablePred ((oneMutexMonitors N).enabled s) := fun a =>
  inferInstanceAs (Decidable ((monitors N).enabled s a ∧ OneMutex s.server a.2))

/-- Two cores wait with mutex 0, and core 2 signals once. -/
theorem condition_server_signal : ∃ tr s, (oneMutexMonitors 3).Run (fun _ => True) tr s ∧
    waiters 0 tr = [(1, 0)] ∧ tr.filterMap lockReply = [0, 1, 0] :=
  System.Run.of_reaches_imp
    (Q := fun tr _ => waiters 0 tr = [(1, 0)] ∧ tr.filterMap grantee = [0, 1, 0])
    (.start (idle_init 3 1 1))
    [(0, .mutexLock 0 1), (0, .condWait 0 0 2), (1, .mutexLock 0 3), (1, .condWait 0 0 4),
      (2, .condSignal 0 5)] fun _ _ hrun hQ => ⟨hQ.1, (condition_server hrun).2.2.2.1 ▸ hQ.2⟩

/-- Cores 0 and 1 wait with mutexes 0 and 1. The first signal leaves core 1 in the queue with the
mutex of core 0, and the second makes it queue for mutex 0, which it never asked for. -/
theorem signal_swaps_mutex : ∃ tr s, (monitors 3).Run (fun _ => True) tr s ∧
    tr.filterMap (ask 1) = [1, 1] ∧ .queued 0 1 ∈ tr :=
  System.Run.of_reaches (.start (idle_init 3 2 1))
    [(0, .mutexLock 0 1), (1, .mutexLock 1 2), (0, .condWait 0 0 3), (1, .condWait 0 1 4),
      (2, .condSignal 0 5), (2, .condSignal 0 6)]

end Graphite.Sync
