import Graphite.Sync.Monitor

/-! # Barriers

Cores arrive at barriers, any number of rounds, while the scheduler passes a core from one of its
threads to another. A barrier of count `k` cuts its arrivals into rounds of `k`. The table in which the
server marks the tiles it has resumed has `k` bits, so the rounds complete as long as the tiles of the
arrivals are below `k`.
-/

namespace Graphite.Sync

open Outcome List Threads

variable {N : ℕ} {s : Server N} {c : Fin N} {tr : List (Event N)}

/-- A core arrives at a barrier, or one of its threads yields to another. -/
inductive BarrierAction (N : ℕ)
  | arrive (c : Fin N) (barrier time : ℕ)
  | yield (c : Fin N) (thread next : ℕ)

/-- `masterYieldThread`, as far as the thread table is concerned. -/
def yieldThread (T : Threads N) (c : Fin N) (thread next : ℕ) : Except Fault (Threads N) := do
  let T ← T.stallThreadAt c thread
  T.setStatus c next .running

def barriers (N : ℕ) : System (Server N) (BarrierAction N) Fault (Event N) where
  init s := s.out = [] ∧ ∀ b ∈ s.barriers, b.waiting = []
  enabled s
    | .arrive c barrier _ => barrier < s.barriers.length ∧
      (s.threads.isCoreRunning c).toOption.join.isSome
    | .yield c thread next =>
      thread < (s.threads.status c).length ∧ next < (s.threads.status c).length
  step s
    | .arrive c barrier time => SyncServer.serve s c (.barrierWait barrier time)
    | .yield c thread next => do
      let T ← yieldThread s.threads c thread next
      pure ({ s with threads := T }, [])

/-- The tile of an arrival is below the count of the barrier. -/
def InRange (s : Server N) : BarrierAction N → Prop
  | .arrive c barrier _ => ∀ b ∈ s.barriers[barrier]?, c < b.count
  | .yield _ _ _ => True

/-! ## Rounds -/

def arrivalAt (barrier : ℕ) : Event N → Option (Fin N × ℕ)
  | .request c (.barrierWait b time) => if b = barrier then some (c, time) else none
  | _ => none

/-- The arrivals of the last round, which is not complete. -/
def round {α : Type*} (k : ℕ) (l : List α) : List α := l.drop (l.length - l.length % k)

def latestTime (r : List (Fin N × ℕ)) : ℕ := (r.map Prod.snd).foldl max 0

section Round

variable {α : Type*} {k : ℕ} {l : List α}

@[simp] theorem round_nil : round k ([] : List α) = [] := by simp [round]

theorem length_round (k : ℕ) (l : List α) : (round k l).length = l.length % k := by
  have := Nat.mod_le l.length k
  rw [round, length_drop]
  omega

theorem add_one_mod {n : ℕ} (h : n % k + 1 < k) : (n + 1) % k = n % k + 1 := by
  rw [Nat.add_mod, Nat.mod_eq_of_lt (show 1 < k by omega), Nat.mod_eq_of_lt h]

theorem round_append (x : α) (h : (round k l).length + 1 < k) :
    round k (l ++ [x]) = round k l ++ [x] := by
  rw [length_round] at h
  have := Nat.mod_le l.length k
  rw [round, round, length_append, length_singleton, add_one_mod h,
    Nat.add_sub_add_right, drop_append_of_le_length (by omega)]

theorem round_complete (x : α) (h : (round k l).length + 1 = k) : round k (l ++ [x]) = [] := by
  rw [length_round] at h
  have hmod : (l.length + 1) % k = 0 := by
    rw [Nat.add_mod]
    rcases Nat.lt_or_ge 1 k with h1 | h1
    · rw [Nat.mod_eq_of_lt h1, h, Nat.mod_self]
    · obtain rfl : k = 1 := by omega
      exact Nat.mod_one _
  rw [round, length_append, length_singleton, hmod]
  simp

end Round

theorem latestTime_append (r : List (Fin N × ℕ)) (a : Fin N × ℕ) :
    latestTime (r ++ [a]) = max (latestTime r) a.2 := by
  simp [latestTime]

/-! ## The release of a round -/

/-- The thread of `c` that was stalled last exists. -/
def Resumable (T : Threads N) (c : Fin N) : Prop :=
  ∃ i, T.lastStalled c = some i ∧ i < (T.status c).length

/-- `T'` differs from `T` in the status of threads only. -/
def SameThreads (T T' : Threads N) : Prop :=
  ∀ c, (T'.status c).length = (T.status c).length ∧ (Resumable T c → Resumable T' c)

theorem SameThreads.trans {T T' T'' : Threads N} (h : SameThreads T T') (h' : SameThreads T' T'') :
    SameThreads T T'' :=
  fun c => ⟨(h' c).1.trans (h c).1, fun hc => (h' c).2 ((h c).2 hc)⟩

section Threads

variable {T : Threads N} {c : Fin N} {i : ℕ}

theorem setStatus_same {st : CoreState} (hi : i < (T.status c).length) :
    Returns (T.setStatus c i st) fun T' => SameThreads T T' := by
  rw [setStatus_sat hi]
  intro d
  rcases eq_or_ne d c with rfl | hd
  · simp [Resumable]
  · simp [Resumable, Function.update_of_ne hd]

theorem stallThreadAt_same (hi : i < (T.status c).length) :
    Returns (T.stallThreadAt c i) fun T' => SameThreads T T' ∧ Resumable T' c := by
  rw [stallThreadAt, setStatus_sat hi]
  refine ⟨fun d => ?_, i, by simp, by simpa using hi⟩
  rcases eq_or_ne d c with rfl | hd
  · simpa [Resumable] using fun _ _ _ => hi
  · simp [Resumable, Function.update_of_ne hd]

theorem findRunning_lt {l : List CoreState} {j : ℕ} {found : Option ℕ} (hf : ∀ k ∈ found, k < j)
    (h : findRunning l j found = .ok (some i)) : i < j + l.length := by
  induction l generalizing j found with
  | nil =>
    obtain rfl : found = some i := by simpa [findRunning] using h
    exact hf i rfl
  | cons st l ih =>
    unfold findRunning at h
    rw [length_cons]
    split at h
    · split at h
      · have := ih (by simp) h
        omega
      · cases h
    · have := ih (fun k hk => Nat.lt_succ_of_lt (hf k hk)) h
      omega

theorem stallThread_same (h : (T.isCoreRunning c).toOption.join.isSome) :
    Returns (T.stallThread c) fun T' => SameThreads T T' ∧ Resumable T' c := by
  obtain ⟨i, hi⟩ : ∃ i, T.isCoreRunning c = .ok (some i) := by
    cases hr : T.isCoreRunning c with
    | error e => simp [hr, Except.toOption] at h
    | ok o =>
      cases o with
      | none => simp [hr, Except.toOption] at h
      | some i => exact ⟨i, rfl⟩
  rw [stallThread, hi, ok_bind]
  exact stallThreadAt_same (by simpa using findRunning_lt (by simp) hi)

end Threads

section Release

variable {s : Server N} {c : Fin N}

theorem resumeThread_same (h : Resumable s.threads c) :
    Returns (s.resumeThread c) fun s' => SameThreads s.threads s'.threads ∧
      s'.barriers = s.barriers ∧ s'.out = s.out ++ [.resumed c] := by
  obtain ⟨i, hi, hlt⟩ := h
  have : s.threads.resumeThread c = s.threads.setStatus c i .running := by
    simp [resumeThread, hi]
  rw [Server.resumeThread, this]
  exact (setStatus_same hlt).bind fun T hT => ⟨hT, rfl, rfl⟩

theorem resumeWoken_sat {cs : List (Fin N)} {marks : List Bool}
    (hres : ∀ c ∈ cs, Resumable s.threads c) (hlt : ∀ c ∈ cs, c < marks.length) :
    Returns (SimBarrier.resumeWoken cs marks s) fun s' =>
      SameThreads s.threads s'.threads ∧ s'.barriers = s.barriers ∧
      ∃ woken : List (Fin N), s'.out = s.out ++ woken.map .resumed ∧ woken.Nodup ∧
        ∀ d, d ∈ woken ↔ d ∈ cs ∧ marks[d.val]? = some false := by
  induction cs generalizing s marks with
  | nil => exact ⟨fun _ => ⟨rfl, id⟩, rfl, [], by simp, by simp, by simp⟩
  | cons c cs ih =>
    have hres' : ∀ d ∈ cs, Resumable s.threads d := fun d hd => hres d (by simp [hd])
    have hlt' : ∀ d ∈ cs, d < marks.length := fun d hd => hlt d (by simp [hd])
    obtain ⟨mark, hmark⟩ := exists_of_lt (hlt c (by simp))
    rw [SimBarrier.resumeWoken, at_of_getElem hmark, ok_bind]
    cases mark with
    | true =>
      refine (ih hres' hlt').mono fun s' hs' => ?_
      obtain ⟨hsame, hb, woken, hout, hnd, hmem⟩ := hs'
      refine ⟨hsame, hb, woken, hout, hnd, fun d => ?_⟩
      rw [hmem, mem_cons]
      rcases eq_or_ne d c with rfl | hd
      · simp [hmark]
      · simp [hd]
    | false =>
      refine (resumeThread_same (hres c (by simp))).bind fun s₁ hs₁ => ?_
      obtain ⟨hsame₁, hb₁, hout₁⟩ := hs₁
      have hlt₁ : ∀ d ∈ cs, d < (marks.set c true).length := by simpa using hlt'
      refine (ih (fun d hd => (hsame₁ d).2 (hres' d hd)) hlt₁).mono fun s' hs' => ?_
      obtain ⟨hsame, hb, woken, hout, hnd, hmem⟩ := hs'
      have hc : c ∉ woken := by
        rw [hmem]
        rintro ⟨-, hm⟩
        rw [getElem?_set_self (hlt c (by simp))] at hm
        cases hm
      refine ⟨hsame₁.trans hsame, hb.trans hb₁, c :: woken, by simp [hout, hout₁],
        nodup_cons.mpr ⟨hc, hnd⟩, fun d => ?_⟩
      rw [mem_cons, hmem, mem_cons]
      rcases eq_or_ne d c with rfl | hd
      · simp [hmark]
      · have hne : c.val ≠ d.val := fun h => hd (Fin.ext h.symm)
        simp [hd, getElem?_set_ne hne]

theorem netSend_foldl (r : Reply) (cs : List (Fin N)) : cs.foldl (fun s d => s.netSend d r) s =
      { s with out := s.out ++ cs.map fun d => .reply d r } := by
  induction cs generalizing s with
  | nil => simp
  | cons d cs ih =>
    rw [foldl_cons, ih]
    simp [Server.netSend, Server.emit]

end Release

/-! ## Runs -/

/-- The state of a barrier after the arrivals `l`. -/
structure Rounds (b : SimBarrier N) (l : List (Fin N × ℕ)) : Prop where
  waiting : b.waiting = (round b.count l).map Prod.fst
  incomplete : l = [] ∨ (round b.count l).length < b.count
  latest : round b.count l ≠ [] → b.maxTime = latestTime (round b.count l)
  below : ∀ a ∈ round b.count l, a.1 < b.count

structure BarrierInv (tr : List (Event N)) (s : Server N) : Prop where
  out : s.out = []
  rounds : ∀ (i : ℕ) (b : SimBarrier N), s.barriers[i]? = some b →
    Rounds b (tr.filterMap (arrivalAt i))
  resumable : ∀ (i : ℕ) (b : SimBarrier N), s.barriers[i]? = some b →
    ∀ c ∈ b.waiting, Resumable s.threads c

/-- What an arrival at a barrier of count `k` does after the arrivals `l`. Before the round is
complete, nothing. Then each core of the round is resumed once, and each arrival is answered with
the largest time of the round. -/
def Arrival (k barrier : ℕ) (c : Fin N) (time : ℕ) (l : List (Fin N × ℕ)) (out : List (Event N)) :
    Prop :=
  let r := round k l ++ [(c, time)]
  (r.length < k ∧ out = [.request c (.barrierWait barrier time)]) ∨
  (r.length = k ∧ ∃ woken : List (Fin N), woken.Nodup ∧ (∀ d, d ∈ woken ↔ d ∈ r.map Prod.fst) ∧
    out = .request c (.barrierWait barrier time) :: (woken.map .resumed ++
      r.map fun a => .reply a.1 (.barrierWait (latestTime r))))

theorem Arrival.filterMap {k i time : ℕ} {l : List (Fin N × ℕ)} {out : List (Event N)}
    (h : Arrival k i c time l out) (j : ℕ) :
    out.filterMap (arrivalAt j) = if i = j then [(c, time)] else [] := by
  have hres : ∀ woken : List (Fin N),
      (woken.map Event.resumed).filterMap (arrivalAt j) = [] := fun woken => by
    simp [arrivalAt]
  have hrep : ∀ (r : List (Fin N × ℕ)) (t : ℕ), (r.map fun a => (.reply a.1 (.barrierWait t) :
      Event N)).filterMap (arrivalAt j) = [] := fun r t => by simp [arrivalAt]
  rcases h with ⟨-, rfl⟩ | ⟨-, woken, -, -, rfl⟩
  · by_cases hij : i = j <;> simp [arrivalAt, hij]
  · rw [filterMap_cons, filterMap_append, hres, hrep]
    by_cases hij : i = j <;> simp [arrivalAt, hij]

section Wait

variable {tr : List (Event N)} {s : Server N} {c : Fin N} {i time : ℕ} {b : SimBarrier N}
  {l : List (Fin N × ℕ)}

theorem Rounds.room (h : Rounds b l) (hc : c < b.count) : (round b.count l).length + 1 ≤ b.count := by
  rcases h.incomplete with rfl | hlt
  · simp only [round_nil, length_nil]
    omega
  · exact hlt

theorem Rounds.maxTime (h : Rounds b l) (c : Fin N) (time : ℕ) :
    (if (b.waiting ++ [c]).length = 1 then time else if time > b.maxTime then time else b.maxTime) =
      latestTime (round b.count l ++ [(c, time)]) := by
  rw [latestTime_append, h.waiting]
  by_cases h0 : round b.count l = []
  · simp [h0, latestTime]
  · have hlen : (round b.count l).length ≠ 0 := by simpa using h0
    rw [h.latest h0, if_neg (by simpa using hlen)]
    split <;> omega

theorem Rounds.arrive (h : Rounds b l) (hc : c < b.count)
    (hlen : (round b.count l).length + 1 < b.count) :
    Rounds ⟨b.count, b.waiting ++ [c], latestTime (round b.count l ++ [(c, time)])⟩
      (l ++ [(c, time)]) := by
  have hr : round b.count (l ++ [(c, time)]) = round b.count l ++ [(c, time)] := round_append _ hlen
  refine ⟨?_, .inr ?_, fun _ => ?_, fun a ha => ?_⟩
  · simp [hr, h.waiting]
  · simpa [hr] using hlen
  · rw [hr]
  · rw [hr] at ha
    rcases mem_append.mp ha with ha | ha
    · exact h.below a ha
    · obtain rfl := mem_singleton.mp ha
      exact hc

theorem Rounds.release (hc : c < b.count) (hlen : (round b.count l).length + 1 = b.count) (t : ℕ) :
    Rounds ⟨b.count, [], t⟩ (l ++ [(c, time)]) := by
  have hr : round b.count (l ++ [(c, time)]) = [] := round_complete _ hlen
  refine ⟨by simp [hr], .inr ?_, fun hne => absurd hr hne, fun a ha => ?_⟩
  · rw [hr]
    exact Nat.lt_of_le_of_lt (Nat.zero_le _) hc
  · rw [hr] at ha
    simp at ha

theorem serve_sat (h : BarrierInv tr s) (hb : s.barriers[i]? = some b)
    (hrun : (s.threads.isCoreRunning c).toOption.join.isSome) (hc : c < b.count) :
    Returns (SyncServer.serve s c (.barrierWait i time)) fun r =>
      SameThreads s.threads r.1.threads ∧ r.1.out = [] ∧ Resumable r.1.threads c ∧
      Arrival b.count i c time (tr.filterMap (arrivalAt i)) r.2 ∧
      ∃ b', r.1.barriers = s.barriers.set i b' ∧ b'.count = b.count ∧
        (b'.waiting ⊆ b.waiting ++ [c]) ∧ Rounds b' (tr.filterMap (arrivalAt i) ++ [(c, time)]) := by
  have hR := h.rounds i b hb
  have hres := h.resumable i b hb
  have hlt : i < s.barriers.length := (List.getElem?_eq_some_iff.mp hb).1
  generalize tr.filterMap (arrivalAt i) = l at hR
  have hroom := hR.room hc
  have hlen : (b.waiting ++ [c]).length = (round b.count l).length + 1 := by simp [hR.waiting]
  simp only [SyncServer.serve, SyncServer.handle, SyncServer.barrierWait, check_pos hlt, ok_bind,
    SimBarrier.wait, at_of_getElem hb, Server.stallThread, sat_bind]
  refine (stallThread_same hrun).mono fun T hT => ?_
  obtain ⟨hsame, hresc⟩ := hT
  rw [check_pos (by omega)]
  simp only [pure_eq_ok, sat_ok, hR.maxTime c time]
  rw [hlen]
  split
  · next hfull =>
    have hall : ∀ d ∈ b.waiting ++ [c], Resumable T d ∧ d < b.count := by
      intro d hd
      rcases mem_append.mp hd with hd | hd
      · refine ⟨(hsame d).2 (hres d hd), ?_⟩
        rw [hR.waiting] at hd
        obtain ⟨a, ha, rfl⟩ := mem_map.mp hd
        exact hR.below a ha
      · obtain rfl := mem_singleton.mp hd
        exact ⟨hresc, hc⟩
    refine (resumeWoken_sat (s := { s with threads := T, out := [.request c (.barrierWait i time)] })
      (fun d hd => (hall d hd).1) (fun d hd => ?_)).bind fun s' hs' => ?_
    · rw [length_replicate, hfull]
      exact (hall d hd).2
    obtain ⟨hsame', hbar, woken, hout, hnd, hmem⟩ := hs'
    simp only [Server.setBarrier, hbar, sat_ok]
    rw [at_of_getElem (x := ⟨b.count, [], latestTime (round b.count l ++ [(c, time)])⟩)
      (by simp [hlt])]
    simp only [sat_ok, netSend_foldl]
    refine ⟨hsame.trans hsame', trivial, (hsame' c).2 hresc,
      .inr ⟨by simpa using hfull, woken, hnd, ?_, ?_⟩, _, rfl, rfl, by simp,
      Rounds.release hc hfull _⟩
    · intro d
      rw [hmem, hR.waiting, map_append]
      refine and_iff_left_of_imp fun hd => ?_
      have hd' := (hall d (by simpa [hR.waiting] using hd)).2
      rw [getElem?_replicate, if_pos (by omega)]
    · simp [hout, hR.waiting]
  · next hnot =>
    simp only [sat_ok, Server.setBarrier]
    rw [at_of_getElem (x := ⟨b.count, b.waiting ++ [c], latestTime (round b.count l ++ [(c, time)])⟩)
      (by simp [hlt])]
    refine ⟨hsame, trivial, hresc, .inl ⟨by simp; omega, rfl⟩, _, rfl, rfl, by simp,
      hR.arrive hc (by omega)⟩

end Wait

theorem BarrierInv.init (h : (barriers N).init s) : BarrierInv [] s := by
  refine ⟨h.1, fun i b hb => ?_, fun i b hb c hc => ?_⟩
  · have hw := h.2 b (mem_of_getElem? hb)
    exact ⟨by simp [hw], .inl rfl, by simp, by simp⟩
  · simp [h.2 b (mem_of_getElem? hb)] at hc

theorem BarrierInv.arrive {i : ℕ}
    {b : SimBarrier N} (h : BarrierInv tr s) (hb : s.barriers[i]? = some b)
    (hrun : (s.threads.isCoreRunning c).toOption.join.isSome) (hc : c < b.count) (time : ℕ) :
    Returns ((barriers N).step s (.arrive c i time)) fun r =>
      BarrierInv (tr ++ r.2) r.1 ∧ Arrival b.count i c time (tr.filterMap (arrivalAt i)) r.2 ∧
      ∃ b', r.1.barriers[i]? = some b' ∧ b'.count = b.count := by
  refine (serve_sat h hb hrun hc).mono fun r hr => ?_
  obtain ⟨hsame, hout, hresc, harr, b', hbar, hcount, hsub, hR⟩ := hr
  have hlt : i < s.barriers.length := (List.getElem?_eq_some_iff.mp hb).1
  refine ⟨⟨hout, fun j u hu => ?_, fun j u hu d hd => ?_⟩, harr, b', by simp [hbar, hlt], hcount⟩
  · rw [filterMap_append, harr.filterMap]
    rw [hbar] at hu
    rcases getElem?_set_cases hu with ⟨rfl, rfl⟩ | ⟨hne, hu⟩
    · rw [if_pos rfl]
      exact hR
    · rw [if_neg hne, append_nil]
      exact h.rounds j u hu
  · rw [hbar] at hu
    rcases getElem?_set_cases hu with ⟨rfl, rfl⟩ | ⟨-, hu⟩
    · rcases mem_append.mp (hsub hd) with hd | hd
      · exact (hsame d).2 (h.resumable _ b hb d hd)
      · obtain rfl := mem_singleton.mp hd
        exact hresc
    · exact (hsame d).2 (h.resumable j u hu d hd)

theorem yieldThread_same {T : Threads N} {i j : ℕ} (hi : i < (T.status c).length)
    (hj : j < (T.status c).length) :
    Returns (yieldThread T c i j) fun T' => SameThreads T T' := by
  refine (stallThreadAt_same hi).bind fun T₁ h₁ => ?_
  exact (setStatus_same (by rwa [(h₁.1 c).1])).mono fun T₂ h₂ => h₁.1.trans h₂

def inRangeBarriers (N : ℕ) : System (Server N) (BarrierAction N) Fault (Event N) :=
  (barriers N).restrict InRange

theorem BarrierInv.step {a : BarrierAction N}
    (h : BarrierInv tr s) (he : (inRangeBarriers N).enabled s a) :
    Returns ((inRangeBarriers N).step s a) fun r => BarrierInv (tr ++ r.2) r.1 := by
  obtain ⟨he, hrange⟩ := he
  cases a with
  | arrive c i time =>
    obtain ⟨b, hb⟩ := exists_of_lt he.1
    exact (h.arrive hb he.2 (hrange b hb) time).mono fun r hr => hr.1
  | yield c i j =>
    refine (yieldThread_same he.1 he.2).bind fun T hT => ?_
    simp only [sat_pure, append_nil]
    exact ⟨h.out, h.rounds, fun i b hb d hd => (hT d).2 (h.resumable i b hb d hd)⟩

/-- In every run in which the tiles of the arrivals at a barrier are below its count, no assertion
fails and no index is out of bounds. A barrier keeps the cores of the incomplete round. An arrival
that does not complete it does nothing more. The one that does resumes each core of the round once
and answers each arrival with the largest time of the round, and the barrier is empty again. -/
theorem barrier_rounds : (∀ e, ¬ (inRangeBarriers N).Fails (fun _ => True) e) ∧
    ∀ tr s, (inRangeBarriers N).Run (fun _ => True) tr s →
      (∀ (i : ℕ) (b : SimBarrier N), s.barriers[i]? = some b →
        b.waiting = (round b.count (tr.filterMap (arrivalAt i))).map Prod.fst) ∧
      ∀ (c : Fin N) (i time : ℕ) (b : SimBarrier N), s.barriers[i]? = some b →
        (inRangeBarriers N).enabled s (.arrive c i time) →
        ∃ s' out b', (inRangeBarriers N).step s (.arrive c i time) = .ok (s', out) ∧
          Arrival b.count i c time (tr.filterMap (arrivalAt i)) out ∧
          s'.barriers[i]? = some b' ∧ b'.count = b.count ∧
          (b.waiting.length + 1 = b.count → b'.waiting = []) := by
  have hinit : ∀ s, (inRangeBarriers N).init s → BarrierInv [] s := fun s => BarrierInv.init
  have hstep : ∀ tr s a, BarrierInv tr s → True → (inRangeBarriers N).enabled s a →
      Returns ((inRangeBarriers N).step s a) fun r => BarrierInv (tr ++ r.2) r.1 :=
    fun tr s a h _ he => h.step he
  refine ⟨fun e he => he.allowed hinit hstep, fun tr s hrun => ?_⟩
  have h := hrun.invariant hinit hstep
  refine ⟨fun i b hb => (h.rounds i b hb).waiting, fun c i time b hb he => ?_⟩
  obtain ⟨r, hs, hnext, hout, b', hb', hcount⟩ := (h.arrive hb he.1.2 (he.2 b hb) time).exists_ok
  refine ⟨r.1, r.2, b', hs, hout, hb', hcount, fun hfull => ?_⟩
  have hw := (hnext.rounds i b' hb').waiting
  rw [hw, filterMap_append, hout.filterMap, if_pos rfl, hcount, round_complete]
  · rfl
  · rw [(h.rounds i b hb).waiting, length_map] at hfull
    exact hfull

instance (s : Server N) : DecidablePred ((barriers N).enabled s) := fun a => by
  cases a <;> dsimp only [barriers] <;> infer_instance

instance (s : Server N) : DecidablePred (InRange s) := fun a => by
  cases a <;> dsimp only [InRange] <;> infer_instance

instance (s : Server N) : DecidablePred ((inRangeBarriers N).enabled s) := fun a =>
  inferInstanceAs (Decidable ((barriers N).enabled s a ∧ InRange s a))

/-- A server with one barrier, and one running thread on every core. -/
def oneBarrier (N count : ℕ) : Server N where
  mutexes := []
  conds := []
  barriers := [{ count }]
  threads := ⟨fun _ => [.running], fun _ => none⟩

theorem oneBarrier_init (N count : ℕ) : (barriers N).init (oneBarrier N count) :=
  ⟨rfl, by simp [oneBarrier]⟩

/-- Two cores, in the order 1, 0, complete a round of a barrier of count two. -/
theorem barrier_rounds_two : ∃ tr s, (inRangeBarriers 2).Run (fun _ => True) tr s ∧
    tr.filterMap (arrivalAt 0) = [(1, 7), (0, 5)] ∧
      s.barriers[0]?.map SimBarrier.waiting = some [] := by
  refine System.Run.of_reaches_imp (Q := fun tr s => tr.filterMap (arrivalAt 0) = [(1, 7), (0, 5)] ∧
      s.barriers.map SimBarrier.count = [2]) (.start (oneBarrier_init 2 2))
    [.arrive 1 0 7, .arrive 0 0 5] fun tr s hrun hQ => ⟨hQ.1, ?_⟩
  obtain ⟨b, hb, hk⟩ := map_eq_singleton_iff.mp hQ.2
  have hw := (barrier_rounds.2 tr s hrun).1 0 b (by simp [hb])
  rw [hQ.1, hk] at hw
  simpa [hb, round] using hw

/-- With a barrier of count one, the arrival of tile 1 reads the second of the one bits that mark
the tiles the server has resumed. -/
theorem far_tile_fails : (barriers 2).Fails (fun _ => True) .outOfBounds :=
  .of_stops (.start (oneBarrier_init 2 1)) [.arrive 1 0 7]

end Graphite.Sync
