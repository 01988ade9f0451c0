import Graphite.Thread.Handlers

/-! # Where threads are placed

With one thread per core the tables of the master describe the threads that are alive: `Seat` says
what they hold for a tile. For each action one lemma says what the request shows, which threads it
changes, and that the invariant is kept.
-/

namespace Graphite.Thread

open Outcome Function List Phase State
open Sync (Threads CoreState)

variable {N : ℕ}

/-! ## The invariant -/

def Phase.status : Phase → CoreState
  | .starting => .initializing
  | .running => .running
  | .blocked => .stalled
  | .joining _ => .stalled

/-- What the queue of a tile and the map hold for a thread on it. -/
def Hosted (cfg : Config N) (m : Master N) (t : Fin N) : Option ℕ → Prop
  | none => m.waiterQueue t = []
  | some tid =>
    (∃ req, m.waiterQueue t = [req] ∧ req.destination = t ∧ req.destinationTid = tid) ∧
      (1 ≤ tid ∧ tid ≤ m.tidCounter) ∧ m.tidToCore[tid]? = some (t, 0) ∧
      some t ≠ cfg.getCurrentThreadSpawnerTileNum

/-- The tables agree with the threads on tile `t`, of which there is at most one. -/
inductive Seat (cfg : Config N) (m : Master N) (t : Fin N) : List Live → Prop
  | free : m.threads.status t = [.idle] → m.waiterQueue t = [] → Seat cfg m t []
  | taken {who : Option ℕ} {ph : Phase} : m.threads.status t = [ph.status] →
      (ph.status = .stalled → m.threads.lastStalled t = some 0) → m.threadId t 0 = who →
      Hosted cfg m t who → Seat cfg m t [⟨who, 0, ph⟩]

structure Inv (cfg : Config N) (s : State N) : Prop where
  out : s.master.out = []
  seat : ∀ t, Seat cfg s.master t (s.live t)
  mapped : Mapped s.master
  home : ∀ tid, 1 ≤ tid → tid ≤ s.master.tidCounter → ∃ t, s.master.tidToCore[tid]? = some (t, 0)
  waiter : ∀ t w j, s.master.waiter t 0 = some (w, j) → j = 0 ∧ ∃ who tid,
    s.live w = [⟨who, 0, .joining tid⟩] ∧ s.master.tidToCore[tid]? = some (t, 0)
  joining : ∀ w who tid, s.live w = [⟨who, 0, .joining tid⟩] →
    (1 ≤ tid ∧ tid ≤ s.master.tidCounter) ∧
      ∃ t, s.master.tidToCore[tid]? = some (t, 0) ∧ s.master.waiter t 0 = some (w, 0)
  mcp : s.live cfg.getMCPTileNum ≠ []

section Seats

variable {cfg : Config N} {m m' : Master N} {t : Fin N} {l : List Live} {s : State N} {τ : Live}

theorem Hosted.congr {who : Option ℕ} (h : Hosted cfg m t who)
    (hq : m'.waiterQueue t = m.waiterQueue t) (hc : m.tidCounter ≤ m'.tidCounter)
    (hm : ∀ tid, 1 ≤ tid → tid ≤ m.tidCounter → m'.tidToCore[tid]? = m.tidToCore[tid]?) :
    Hosted cfg m' t who := by
  cases who with
  | none => exact hq.trans h
  | some tid =>
    obtain ⟨hreq, ⟨h1, h2⟩, hmap, hspawner⟩ := h
    refine ⟨by rwa [hq], ⟨h1, Nat.le_trans h2 hc⟩, ?_, hspawner⟩
    rw [hm tid h1 h2, hmap]

section

variable (h : Seat cfg m t l)
include h

theorem Seat.congr (hs : m'.threads.status t = m.threads.status t)
    (hl : m.threads.status t = [.stalled] → m'.threads.lastStalled t = m.threads.lastStalled t)
    (hi : m'.threadId t 0 = m.threadId t 0)
    (hq : m'.waiterQueue t = m.waiterQueue t) (hc : m.tidCounter ≤ m'.tidCounter)
    (hm : ∀ tid, 1 ≤ tid → tid ≤ m.tidCounter → m'.tidToCore[tid]? = m.tidToCore[tid]?) :
    Seat cfg m' t l := by
  cases h with
  | free hst hnil => exact .free (hs.trans hst) (hq.trans hnil)
  | taken hst hlast hid hhost =>
    refine .taken (hs.trans hst) (fun h => ?_) (hi.trans hid) (hhost.congr hq hc hm)
    rw [hl (h ▸ hst)]
    exact hlast h

theorem Seat.status : ∃ st, m.threads.status t = [st] := by
  cases h with
  | free hst _ => exact ⟨_, hst⟩
  | taken hst _ _ _ => exact ⟨_, hst⟩

theorem Seat.idle_iff : m.threads.status t = [.idle] ↔ l = [] := by
  cases h with
  | free hst _ => simp [hst]
  | @taken _ ph hst _ _ _ => cases ph <;> simp [hst, Phase.status]

theorem Seat.queue_idle (hst : m.threads.status t = [.idle]) : m.waiterQueue t = [] := by
  have := h.idle_iff.mp hst
  subst this
  cases h with
  | free _ hq => exact hq

end

theorem Seat.status_eq (h : Seat cfg m t [τ]) : m.threads.status t = [τ.phase.status] := by
  cases h with
  | taken hst _ _ _ => exact hst

theorem Seat.queue (h : Seat cfg m t l) : (m.waiterQueue t).tail = [] ∧
    (some t = cfg.getCurrentThreadSpawnerTileNum → m.waiterQueue t = []) := by
  cases h with
  | free _ hq => simp [hq]
  | @taken who _ _ _ _ hhost =>
    cases who with
    | none => simp [show m.waiterQueue t = [] from hhost]
    | some tid =>
      obtain ⟨⟨req, hq, -⟩, -, -, hspawner⟩ := hhost
      exact ⟨by simp [hq], fun h => absurd h hspawner⟩

theorem Inv.live_eq (h : Inv cfg s) (hτ : τ ∈ s.live t) :
    s.live t = [τ] ∧ τ = ⟨τ.tid, 0, τ.phase⟩ := by
  have hseat := h.seat t
  generalize s.live t = l at hseat hτ
  cases hseat with
  | free => simp at hτ
  | taken =>
    rw [mem_singleton] at hτ
    exact ⟨by rw [hτ], by rw [hτ]⟩

theorem Inv.live_phase (h : Inv cfg s) {ph : Phase} (hτ : τ ∈ s.live t)
    (hph : τ.phase = ph) : s.live t = [⟨τ.tid, 0, ph⟩] ∧ τ = ⟨τ.tid, 0, ph⟩ := by
  subst hph
  obtain ⟨hl, heq⟩ := h.live_eq hτ
  exact ⟨by rw [hl, ← heq], heq⟩

end Seats

/-! ## The actions -/

section Actions

variable {cfg : Config N} {s : State N} {t : Fin N} {who : Option ℕ}

theorem setPhase_live {ph ph' : Phase} (hl : s.live t = [⟨who, 0, ph⟩]) :
    (s.setPhase t ⟨who, 0, ph⟩ ph').live = update s.live t [⟨who, 0, ph'⟩] := by
  simp [setPhase, hl]

/-- A request has changed nothing but the phase of the thread that made it. -/
structure Rephased (cfg : Config N) (s : State N) (t : Fin N) (τ : Live)
    (r : State N × List (Event N)) : Prop where
  out : r.2 = []
  live : r.1.live = update s.live t [τ]
  counter : r.1.master.tidCounter = s.master.tidCounter
  inv : Inv cfg r.1

section Rephase

variable (h : Inv cfg s) {ph ph' : Phase} {T : Threads N}
  (hl : s.live t = [⟨who, 0, ph⟩]) (hph : ∀ tid, ph ≠ .joining tid) (hph' : ∀ tid, ph' ≠ .joining tid)
  (hst : ∀ x, T.status x = if x = t then [ph'.status] else s.master.threads.status x)
  (hlast : ∀ x, x ≠ t → T.lastStalled x = s.master.threads.lastStalled x)
  (hlast' : ph'.status = .stalled → T.lastStalled t = some 0)
include h hl hph hph' hst hlast hlast'

theorem Inv.rephase :
    Inv cfg ⟨{ s.master with threads := T }, update s.live t [⟨who, 0, ph'⟩]⟩ where
  out := h.out
  seat x := by
    dsimp only
    rcases eq_or_ne x t with rfl | hx
    · rw [update_self]
      have hseat := h.seat x
      rw [hl] at hseat
      cases hseat with
      | taken _ _ hid hhost => exact .taken (by simp [hst]) hlast' hid hhost
    · rw [update_of_ne hx]
      exact (h.seat x).congr (by simp [hst, hx]) (fun _ => hlast x hx) rfl rfl (Nat.le_refl _)
        fun _ _ _ => rfl
  mapped := h.mapped
  home := h.home
  waiter x w j hw := by
    obtain ⟨hj, who', tid, hlive, hmap⟩ := h.waiter x w j hw
    refine ⟨hj, who', tid, ?_, hmap⟩
    rcases eq_or_ne w t with rfl | hwt
    · rw [hl] at hlive
      simp only [cons.injEq, Live.mk.injEq, and_true, true_and] at hlive
      exact absurd hlive.2 (hph tid)
    · dsimp only
      rw [update_of_ne hwt, hlive]
  joining w who' tid hlive := by
    dsimp only at hlive
    rcases eq_or_ne w t with rfl | hwt
    · rw [update_self] at hlive
      simp only [cons.injEq, Live.mk.injEq, and_true, true_and] at hlive
      exact absurd hlive.2 (hph' tid)
    · rw [update_of_ne hwt] at hlive
      exact h.joining w who' tid hlive
  mcp := by
    dsimp only
    rcases eq_or_ne cfg.getMCPTileNum t with heq | hne
    · rw [heq, update_self]
      simp
    · rw [update_of_ne hne]
      exact h.mcp

theorem Inv.rephased : Rephased cfg s t ⟨who, 0, ph'⟩
      ((s.setPhase t ⟨who, 0, ph⟩ ph').answered { s.master with threads := T } []) := by
  simp only [answered, h.out, foldl_nil, append_nil, setPhase_live hl]
  refine ⟨rfl, rfl, rfl, ?_⟩
  have := h.rephase hl hph hph' hst hlast hlast'
  simpa only [h.out] using this

end Rephase

theorem Inv.start (h : Inv cfg s) (hl : s.live t = [⟨who, 0, .starting⟩]) :
    Returns ((threads cfg).step s (.start t ⟨who, 0, .starting⟩))
      (Rephased cfg s t ⟨who, 0, .running⟩) := by
  have hseat := h.seat t
  rw [hl] at hseat
  have hst : s.master.threads.status t = [.initializing] := hseat.status_eq
  simp only [threads, ThreadManager.masterOnThreadStart, s.master.getThreadState_eq hst, ok_bind,
    check_pos, s.master.setThreadState_eq hst]
  exact h.rephased hl (by simp) (by simp) (by simp [status, update_apply])
    (fun _ _ => rfl) (by simp [status])

theorem Inv.stall (h : Inv cfg s) (hl : s.live t = [⟨who, 0, .running⟩]) :
    Returns ((threads cfg).step s (.stall t ⟨who, 0, .running⟩))
      (Rephased cfg s t ⟨who, 0, .blocked⟩) := by
  have hseat := h.seat t
  rw [hl] at hseat
  simp only [threads, s.master.stallThread_eq hseat.status_eq, ok_bind]
  exact h.rephased hl (by simp) (by simp) (by simp [status]) (fun x hx => by simp [hx]) (by simp)

theorem Inv.resume (h : Inv cfg s) (hl : s.live t = [⟨who, 0, .blocked⟩]) :
    Returns ((threads cfg).step s (.resume t ⟨who, 0, .blocked⟩))
      (Rephased cfg s t ⟨who, 0, .running⟩) := by
  have hseat := h.seat t
  rw [hl] at hseat
  have hlast : s.master.threads.lastStalled t = some 0 := by
    cases hseat with
    | taken _ hlast _ _ => exact hlast rfl
  simp only [threads, s.master.resumeThread_eq hseat.status_eq hlast, ok_bind]
  exact h.rephased hl (by simp) (by simp) (by simp [status, update_apply])
    (fun _ _ => rfl) (by simp [status])

/-- A thread was spawned on the free tile `d`. -/
structure Placed (cfg : Config N) (s : State N) (t d : Fin N) (r : State N × List (Event N)) :
    Prop where
  free : s.live d = []
  out : r.2 = [.started d 0 (s.master.tidCounter + 1), .spawnReply t d 0 (s.master.tidCounter + 1)]
  live : r.1.live = update s.live d [⟨some (s.master.tidCounter + 1), 0, .starting⟩]
  counter : r.1.master.tidCounter = s.master.tidCounter + 1
  inv : Inv cfg r.1

theorem Inv.spawn (h : Inv cfg s) (hK : cfg.maxThreadsPerCore = 1)
    (hl : s.live t = [⟨who, 0, .running⟩]) (destination : Option (Fin N)) :
    Sat ((threads cfg).step s (.spawn t ⟨who, 0, .running⟩ destination))
      (SpawnFault cfg s.master destination) fun r =>
        ∃ d, (∀ d', destination = some d' → d = d') ∧ Placed cfg s t d r := by
  have hseat := h.seat t
  rw [hl] at hseat
  refine (masterSpawnThread_sat hK (fun x => (h.seat x).status) h.mapped
    (fun x hx => (h.seat x).queue_idle hx) hseat.status_eq destination).bind fun m' ⟨d, hdest, hm⟩ => ?_
  have hfree : s.live d = [] := (h.seat d).idle_iff.mp hm.idle
  have hout : m'.out = [.started d 0 (s.master.tidCounter + 1),
      .spawnReply t d 0 (s.master.tidCounter + 1)] := by
    rw [hm.out, h.out, List.nil_append]
  have hlive : m'.out.foldl deliver s.live =
      update s.live d [⟨some (s.master.tidCounter + 1), 0, .starting⟩] := by
    simp [hout, deliver, hfree]
  have hne : ∀ {x : Fin N}, s.live x ≠ [] → x ≠ d := by
    rintro x hx rfl
    exact hx hfree
  refine ⟨d, hdest, hfree, hout, hlive, hm.counter, rfl, fun x => ?_, ?_, fun tid h1 h2 => ?_,
    fun x w j hw => ?_, fun w who' tid hw => ?_, ?_⟩
  · simp only [answered, hlive]
    rcases eq_or_ne x d with rfl | hx
    · rw [update_self]
      refine .taken (by simp [hm.status, status]) (by simp [status])
        (by simp [hm.threadId]) ⟨⟨⟨t, 0, x, 0, _⟩, by simp [hm.queue], rfl, rfl⟩, ⟨by omega, ?_⟩, hm.new, hm.spawner⟩
      simp [hm.counter]
    · rw [update_of_ne hx]
      refine (h.seat x).congr (by simp [hm.status, hx]) (fun hst => hm.last x ?_)
        (by simp [hm.threadId, setSlot_of_ne hx]) (by simp [hm.queue, hx]) (by simp [hm.counter]) hm.old
      rintro rfl
      rw [hseat.status_eq] at hst
      cases hst
  · right
    obtain ⟨hlt, -⟩ := List.getElem?_eq_some_iff.mp hm.new
    show m'.tidCounter < m'.tidToCore.length
    rwa [hm.counter]
  · simp only [answered, hm.counter] at h2 ⊢
    rcases Nat.lt_or_ge tid (s.master.tidCounter + 1) with hlt | hge
    · rw [hm.old tid h1 (by omega)]
      exact h.home tid h1 (by omega)
    · obtain rfl : tid = s.master.tidCounter + 1 := by omega
      exact ⟨d, hm.new⟩
  · have hw : s.master.waiter x 0 = some (w, j) := hm.waiter ▸ hw
    obtain ⟨hj, who', tid, hlw, hmap⟩ := h.waiter x w j hw
    obtain ⟨⟨h1, h2⟩, -⟩ := h.joining w who' tid hlw
    refine ⟨hj, who', tid, ?_, (hm.old tid h1 h2).trans hmap⟩
    simp only [answered, hlive]
    rw [update_of_ne (hne (by simp [hlw])), hlw]
  · simp only [answered, hlive] at hw
    have hwd : w ≠ d := by
      rintro rfl
      simp at hw
    rw [update_of_ne hwd] at hw
    obtain ⟨⟨h1, h2⟩, x, hmap, hwait⟩ := h.joining w who' tid hw
    refine ⟨⟨h1, ?_⟩, x, (hm.old tid h1 h2).trans hmap, hm.waiter ▸ hwait⟩
    show tid ≤ m'.tidCounter
    rw [hm.counter]
    omega
  · simp only [answered, hlive]
    rw [update_of_ne (hne h.mcp)]
    exact h.mcp

/-- A thread has exited from tile `t`, and the thread that joins its slot runs again. -/
structure Vacated (cfg : Config N) (s : State N) (t : Fin N) (who : Option ℕ) (time : ℕ)
    (r : State N × List (Event N)) : Prop where
  out : r.2 = .exited t who :: (joinReplies s.master t time ++ [.exitReply t none])
  live : ∀ x, r.1.live x = if x = t then [] else
    if s.master.waiter t 0 = some (x, 0) then (s.live x).map Live.resumed else s.live x
  counter : r.1.master.tidCounter = s.master.tidCounter
  inv : Inv cfg r.1

theorem foldl_joinReplies (h : ∀ w j, s.master.waiter t 0 = some (w, j) → j = 0)
    (live : Fin N → List Live) (time : ℕ) (x : Fin N) :
    (joinReplies s.master t time ++ [Event.exitReply t none]).foldl deliver live x =
      if s.master.waiter t 0 = some (x, 0) then (live x).map Live.resumed else live x := by
  unfold joinReplies
  split
  · next hw => simp [deliver, hw]
  · next w j hw =>
    obtain rfl := h w j hw
    rcases eq_or_ne x w with rfl | hx
    · simp [deliver, hw]
    · simp [deliver, hw, hx, Ne.symm hx]

theorem Inv.exit (h : Inv cfg s) (hl : s.live t = [⟨who, 0, .running⟩]) (ht : t ≠ cfg.getMCPTileNum)
    (time : ℕ) :
    Returns ((threads cfg).step s (.exit t ⟨who, 0, .running⟩ time))
      (Vacated cfg s t who time) := by
  have hseat := h.seat t
  rw [hl] at hseat
  have hjoins : ∀ w j, s.master.waiter t 0 = some (w, j) → j = 0 ∧ w ≠ t ∧
      ∃ who' tid, s.live w = [⟨who', 0, .joining tid⟩] ∧
        s.master.tidToCore[tid]? = some (t, 0) := by
    intro w j hw
    obtain ⟨hj, who', tid, hlw, hmap⟩ := h.waiter t w j hw
    refine ⟨hj, ?_, who', tid, hlw, hmap⟩
    rintro rfl
    simp [hl] at hlw
  refine (masterOnThreadExit_sat hseat.status_eq hseat.queue.1
    (fun hor => hor.elim hseat.queue.2 fun he => absurd he ht)
    fun w j hw => ⟨(hjoins w j hw).1, (hjoins w j hw).2.1, (h.seat w).status⟩).bind fun m' hm => ?_
  have hout : m'.out = joinReplies s.master t time ++ [.exitReply t none] := by
    rw [hm.out, h.out, nil_append]
  have hlive : ∀ x, m'.out.foldl deliver (update s.live t ((s.live t).erase ⟨who, 0, .running⟩)) x =
      if x = t then [] else
        if s.master.waiter t 0 = some (x, 0) then (s.live x).map Live.resumed else s.live x := by
    intro x
    rw [hout, foldl_joinReplies fun w j hw => (hjoins w j hw).1]
    rcases eq_or_ne x t with rfl | hx
    · simp [hl]
    · simp [hx]
  -- a thread other than the waiter of `t` keeps its phase
  have hkeep : ∀ {x : Fin N}, x ≠ t → s.master.waiter t 0 ≠ some (x, 0) →
      m'.out.foldl deliver (update s.live t ((s.live t).erase ⟨who, 0, .running⟩)) x =
        s.live x := fun hx hw => by rw [hlive, if_neg hx, if_neg hw]
  refine ⟨congrArg _ hout, hlive, hm.counter, rfl, fun x => ?_, ?_, fun tid h1 h2 => ?_,
    fun x w j hw => ?_, fun w who' tid hw => ?_, ?_⟩
  · have hstatus := hm.status x
    simp only [answered, hlive]
    rcases eq_or_ne x t with rfl | hx
    · rw [if_pos rfl]
      exact .free (by simpa using hstatus) (by simp [hm.queue])
    · rw [if_neg hx] at hstatus ⊢
      split
      · next hw =>
        rw [if_pos hw] at hstatus
        obtain ⟨-, -, who', tid, hlw, -⟩ := hjoins x 0 hw
        have hx' := h.seat x
        rw [hlw] at hx' ⊢
        cases hx' with
        | taken _ _ hid hhost =>
          refine .taken hstatus (by simp [status]) (by simpa [hm.threadId] using hid)
            (hhost.congr (by simp [hm.queue, hx]) (by simp [hm.counter]) (by simp [hm.map]))
      · next hw =>
        rw [if_neg hw] at hstatus
        exact (h.seat x).congr hstatus (by simp [hm.last]) (by simp [hm.threadId])
          (by simp [hm.queue, hx]) (by simp [hm.counter]) (by simp [hm.map])
  · simpa only [Mapped, answered, hm.counter, hm.map] using h.mapped
  · simp only [answered, hm.counter, hm.map] at h2 ⊢
    exact h.home tid h1 h2
  · simp only [answered, hm.waiter, setSlot_apply] at hw
    split at hw
    · cases hw
    · next hx =>
      obtain ⟨hj, who', tid, hlw, hmap⟩ := h.waiter x w j hw
      refine ⟨hj, who', tid, ?_, by simpa [answered, hm.map] using hmap⟩
      have hwt : w ≠ t := by
        rintro rfl
        simp [hl] at hlw
      simp only [answered]
      rw [hkeep hwt, hlw]
      intro hwt'
      obtain ⟨-, -, who₂, tid₂, hlw₂, hmap₂⟩ := hjoins w 0 hwt'
      rw [hlw] at hlw₂
      simp only [cons.injEq, Live.mk.injEq, joining.injEq, and_true, true_and] at hlw₂
      rw [← hlw₂.2, hmap] at hmap₂
      simp only [Option.some.injEq, Prod.mk.injEq, and_true] at hmap₂
      exact hx hmap₂
  · simp only [answered, hlive] at hw
    split at hw
    · simp at hw
    · split at hw
      · next hwait =>
        obtain ⟨-, -, who₂, tid₂, hlw₂, -⟩ := hjoins w 0 hwait
        simp [hlw₂, Live.resumed] at hw
      · next hwait =>
        obtain ⟨hb, x, hmap, hx⟩ := h.joining w who' tid hw
        have hxt : x ≠ t := by
          rintro rfl
          exact hwait hx
        refine ⟨by simpa [answered, hm.counter] using hb, x, ?_, ?_⟩
        · simpa [answered, hm.map] using hmap
        · simpa [answered, hm.waiter, setSlot_of_ne hxt] using hx
  · simp only [answered, hlive, if_neg (Ne.symm ht)]
    split
    · simpa using h.mcp
    · exact h.mcp

/-- A join of `tid`, whose slot is on `d`: it is answered at once if no thread is on `d`. -/
structure Joins (cfg : Config N) (s : State N) (t d : Fin N) (who : Option ℕ) (tid : ℕ)
    (r : State N × List (Event N)) : Prop where
  map : s.master.tidToCore[tid]? = some (d, 0)
  answered : s.live d = [] →
    (∃ time, r.2 = [.joinRequest t tid, .joinReply t time]) ∧ r.1.live = s.live
  waits : s.live d ≠ [] →
    r.2 = [.joinRequest t tid] ∧ r.1.live = update s.live t [⟨who, 0, .joining tid⟩]
  counter : r.1.master.tidCounter = s.master.tidCounter
  inv : Inv cfg r.1

theorem toNatClampNeg_bounds {tid : Int32} {k : ℕ} (h1 : 1 ≤ tid.toInt) (h2 : tid.toInt ≤ k) :
    1 ≤ tid.toNatClampNeg ∧ tid.toNatClampNeg ≤ k := by
  unfold Int32.toNatClampNeg
  omega

theorem Inv.join {tid : Int32} (h : Inv cfg s) (hl : s.live t = [⟨who, 0, .running⟩])
    (h1 : 1 ≤ tid.toInt) (h2 : tid.toInt ≤ s.master.tidCounter) :
    Sat ((threads cfg).step s (.join t ⟨who, 0, .running⟩ tid)) (fun e => e = .multipleJoin ∧
        ∃ d, s.master.tidToCore[tid.toNatClampNeg]? = some (d, 0) ∧ s.master.waiter d 0 ≠ none)
      fun r => ∃ d, Joins cfg s t d who tid.toNatClampNeg r := by
  have hseat := h.seat t
  rw [hl] at hseat
  have h0 : 0 ≤ tid.toInt := by omega
  obtain ⟨h1, h2⟩ := toNatClampNeg_bounds h1 h2
  obtain ⟨d, hmap⟩ := h.home _ h1 h2
  refine ((masterJoinThread_sat hseat.status_eq h0 hmap (h.seat d).status).imp
    (fun e he => ⟨he.1, d, hmap, he.2⟩) fun _ => id).bind fun m' hm => ⟨d, ?_⟩
  generalize tid.toNatClampNeg = tid at h1 h2 hmap ⊢
  have hidle := (h.seat d).idle_iff
  by_cases hd : s.live d = []
  · have hst : s.master.threads.status d = [.idle] := hidle.mpr hd
    have hout : m'.out = [.joinReply t (s.master.completionTime d 0)] := by
      rw [hm.out, h.out, if_pos hst, nil_append]
    have hlive : m'.out.foldl deliver
        (s.setPhase t ⟨who, 0, .running⟩ (.joining tid)).live = s.live := by
      rw [hout, setPhase_live hl]
      funext x
      rcases eq_or_ne x t with rfl | hx
      · simp [deliver, Live.resumed, hl]
      · simp [deliver, hx]
    have hwait : m'.waiter = s.master.waiter := by rw [hm.waiter, if_pos hst]
    refine ⟨hmap, fun _ => ⟨⟨_, by simp only [answered, hout]; rfl⟩, hlive⟩,
      fun hne => absurd hd hne, hm.counter, rfl, fun x => ?_, ?_, ?_, ?_, ?_, ?_⟩
    · simp only [answered, hlive]
      refine (h.seat x).congr (by simp [hm.status, hst]) (fun hstalled => ?_) (by simp [hm.threadId])
        (by simp [hm.queue]) (by simp [hm.counter]) (by simp [hm.map])
      rw [hm.last, if_neg]
      rintro rfl
      simp [hseat.status_eq, status] at hstalled
    · simpa only [Mapped, answered, hm.counter, hm.map] using h.mapped
    · simpa only [answered, hm.counter, hm.map] using h.home
    · simpa only [answered, hlive, hwait, hm.map] using h.waiter
    · simpa only [answered, hlive, hwait, hm.map, hm.counter] using h.joining
    · simpa only [answered, hlive] using h.mcp
  · have hst : s.master.threads.status d ≠ [.idle] := fun he => hd (hidle.mp he)
    have hout : m'.out = [] := by rw [hm.out, h.out, if_neg hst, nil_append]
    have hlive : m'.out.foldl deliver (s.setPhase t ⟨who, 0, .running⟩ (.joining tid)).live =
        update s.live t [⟨who, 0, .joining tid⟩] := by
      rw [hout, setPhase_live hl]
      rfl
    have hwait : m'.waiter = setSlot s.master.waiter d 0 (some (t, 0)) := by
      rw [hm.waiter, if_neg hst]
    refine ⟨hmap, fun he => absurd he hd, fun _ => ⟨by simp [answered, hout], hlive⟩, hm.counter,
      rfl, fun x => ?_, ?_, ?_, fun x w j hw => ?_, fun w who' tid' hw => ?_, ?_⟩
    · simp only [answered, hlive]
      rcases eq_or_ne x t with rfl | hx
      · rw [update_self]
        cases hseat with
        | taken _ _ hid hhost =>
          refine .taken (by simp [hm.status, hst, status]) (fun _ => by simp [hm.last])
            (by simpa [hm.threadId] using hid)
            (hhost.congr (by simp [hm.queue]) (by simp [hm.counter]) (by simp [hm.map]))
      · rw [update_of_ne hx]
        exact (h.seat x).congr (by simp [hm.status, hx]) (fun _ => by simp [hm.last, hx])
          (by simp [hm.threadId]) (by simp [hm.queue]) (by simp [hm.counter]) (by simp [hm.map])
    · simpa only [Mapped, answered, hm.counter, hm.map] using h.mapped
    · simpa only [answered, hm.counter, hm.map] using h.home
    · simp only [answered, hlive, hm.map]
      simp only [answered, hwait, setSlot_apply] at hw
      split at hw
      · next hx =>
        simp only [Option.some.injEq, Prod.mk.injEq] at hw
        obtain ⟨rfl, rfl⟩ := hw
        exact ⟨rfl, who, tid, update_self .., hx ▸ hmap⟩
      · obtain ⟨hj, who', tid', hlw, hmap'⟩ := h.waiter x w j hw
        have hwt : w ≠ t := by
          rintro rfl
          simp [hl] at hlw
        exact ⟨hj, who', tid', by rw [update_of_ne hwt, hlw], hmap'⟩
    · simp only [answered, hlive] at hw
      simp only [answered, hm.counter, hm.map, hwait, setSlot_apply]
      rcases eq_or_ne w t with rfl | hwt
      · rw [update_self] at hw
        simp only [cons.injEq, Live.mk.injEq, joining.injEq, and_true, true_and] at hw
        obtain ⟨-, rfl⟩ := hw
        exact ⟨⟨h1, h2⟩, d, hmap, if_pos rfl⟩
      · rw [update_of_ne hwt] at hw
        obtain ⟨hb, x, hmap', hx⟩ := h.joining w who' tid' hw
        refine ⟨hb, x, hmap', ?_⟩
        rw [if_neg, hx]
        rintro rfl
        rw [hm.free] at hx
        cases hx
    · simp only [answered, hlive]
      rcases eq_or_ne cfg.getMCPTileNum t with heq | hne
      · rw [heq, update_self]
        simp
      · rw [update_of_ne hne]
        exact h.mcp

end Actions

/-! ## Runs -/

section Runs

variable {cfg : Config N} {s : State N} {tr : List (Event N)} {a : Action N}
  {r : State N × List (Event N)}

def Stepped (cfg : Config N) (s : State N) : Action N → State N × List (Event N) → Prop
  | .spawn t _ destination, r => ∃ d, (∀ d', destination = some d' → d = d') ∧ Placed cfg s t d r
  | .start t τ, r => Rephased cfg s t { τ with phase := .running } r
  | .stall t τ, r => Rephased cfg s t { τ with phase := .blocked } r
  | .resume t τ, r => Rephased cfg s t { τ with phase := .running } r
  | .exit t τ time, r => Vacated cfg s t τ.tid time r
  | .join t τ tid, r => ∃ d, Joins cfg s t d τ.tid tid.toNatClampNeg r

def StepFault (cfg : Config N) (s : State N) : Action N → Fault → Prop
  | .spawn _ _ destination, e => SpawnFault cfg s.master destination e
  | .join _ _ tid, e => e = .multipleJoin ∧
    ∃ d, s.master.tidToCore[tid.toNatClampNeg]? = some (d, 0) ∧ s.master.waiter d 0 ≠ none
  | _, _ => False

theorem Inv.step (h : Inv cfg s) (hK : cfg.maxThreadsPerCore = 1) (ha : (threads cfg).enabled s a) :
    Sat ((threads cfg).step s a) (StepFault cfg s a) (Stepped cfg s a) := by
  cases a with
  | spawn t τ destination =>
    obtain ⟨hl, heq⟩ := h.live_phase ha.1 ha.2
    rw [heq]
    exact h.spawn hK hl destination
  | start t τ =>
    obtain ⟨hl, heq⟩ := h.live_phase ha.1 ha.2
    rw [heq]
    exact h.start hl
  | stall t τ =>
    obtain ⟨hl, heq⟩ := h.live_phase ha.1 ha.2
    rw [heq]
    exact h.stall hl
  | resume t τ =>
    obtain ⟨hl, heq⟩ := h.live_phase ha.1 ha.2
    rw [heq]
    exact h.resume hl
  | exit t τ time =>
    obtain ⟨hl, heq⟩ := h.live_phase ha.1 ha.2.1
    rw [heq]
    exact h.exit hl ha.2.2 time
  | join t τ tid =>
    obtain ⟨hl, heq⟩ := h.live_phase ha.1 ha.2.1
    rw [heq]
    exact h.join hl ha.2.2.1 ha.2.2.2

theorem Stepped.inv (h : Stepped cfg s a r) : Inv cfg r.1 := by
  cases a with
  | spawn => exact h.choose_spec.2.inv
  | start => exact Rephased.inv h
  | stall => exact Rephased.inv h
  | resume => exact Rephased.inv h
  | exit => exact Vacated.inv h
  | join => exact h.choose_spec.inv

theorem initial_inv (hK : cfg.maxThreadsPerCore = 1) : Inv cfg (initialState cfg) where
  out := rfl
  seat t := by
    have hst : (initialMaster cfg).threads.status t = [initialStatus cfg t] := by
      simp [initialMaster, hK]
    by_cases h : initialStatus cfg t = .running
    · simp only [initialState, h, if_true]
      exact .taken (by rw [hst, h]; rfl) (by simp [status]) rfl rfl
    · have hidle : initialStatus cfg t = .idle := by
        unfold initialStatus at h ⊢
        split at h
        · exact absurd rfl h
        · next hn => exact if_neg hn
      simp only [initialState, h, if_false]
      exact .free (by rw [hst, hidle]) rfl
  mapped := .inl rfl
  home tid h1 h2 := by
    simp only [initialState, initialMaster] at h2
    omega
  waiter t w j hw := by cases hw
  joining w who tid hw := by
    simp only [initialState] at hw
    split at hw <;> simp at hw
  mcp := by simp [initialState, initialStatus]

def spawnedId : Event N → Option ℕ
  | .spawnReply _ _ _ tid => some tid
  | _ => none

/-- The identifiers that were returned are the numbers from one on. -/
def Numbered (tr : List (Event N)) (s : State N) : Prop :=
  tr.filterMap spawnedId = List.range' 1 s.master.tidCounter

theorem Stepped.numbered (h : Stepped cfg s a r)
    (hn : Numbered tr s) : Numbered (tr ++ r.2) r.1 := by
  have hsame : r.2.filterMap spawnedId = [] → r.1.master.tidCounter = s.master.tidCounter →
      Numbered (tr ++ r.2) r.1 := by
    intro hout hc
    unfold Numbered at hn ⊢
    rw [filterMap_append, hn, hout, hc, append_nil]
  cases a with
  | spawn t τ destination =>
    obtain ⟨d, -, hp⟩ := h
    unfold Numbered at hn ⊢
    rw [filterMap_append, hn, hp.out, hp.counter, range'_1_concat, Nat.add_comm 1]
    rfl
  | start => exact hsame (by rw [Rephased.out h]; rfl) (Rephased.counter h)
  | stall => exact hsame (by rw [Rephased.out h]; rfl) (Rephased.counter h)
  | resume => exact hsame (by rw [Rephased.out h]; rfl) (Rephased.counter h)
  | exit t τ time =>
    refine hsame ?_ (Vacated.counter h)
    rw [Vacated.out h, joinReplies]
    split <;> simp [spawnedId]
  | join t τ tid =>
    obtain ⟨d, hj⟩ := h
    refine hsame ?_ hj.counter
    by_cases hd : s.live d = []
    · obtain ⟨⟨time, hout⟩, -⟩ := hj.answered hd
      simp [hout, spawnedId]
    · simp [(hj.waits hd).1, spawnedId]

theorem run_inv (hK : cfg.maxThreadsPerCore = 1) {P : Action N → Prop}
    (h : (threads cfg).Run P tr s) : Inv cfg s ∧ Numbered tr s := by
  refine h.invariant (E := fun _ => True) (I := fun tr s => Inv cfg s ∧ Numbered tr s) ?_ ?_
  · rintro s rfl
    exact ⟨initial_inv hK, rfl⟩
  · intro tr s a hi _ ha
    exact (hi.1.step hK ha).imp (fun _ _ => trivial) fun r hr => ⟨hr.inv, hr.numbered hi.2⟩

/-- The slot, the queue and the map agree with the threads that are alive: no tile has two threads,
and its queue is not empty exactly while the thread there is a spawned one. A spawn that succeeds
returns a new identifier and starts one thread, on a free tile. A spawn without a destination
succeeds if some application tile but tile `0` is idle, as long as there are identifiers left. -/
theorem thread_placement (cfg : Config N) (hK : cfg.maxThreadsPerCore = 1) (tr : List (Event N))
    (s : State N) (h : (threads cfg).Run (fun _ => True) tr s) :
    (∀ t, (s.live t).length ≤ 1) ∧ (∀ t, s.master.threads.status t = [.idle] ↔ s.live t = []) ∧
      (∀ t, s.master.waiterQueue t ≠ [] ↔ ∃ τ ∈ s.live t, τ.tid ≠ none) ∧
      ∀ t τ destination, (threads cfg).enabled s (.spawn t τ destination) →
        (∀ s' out, (threads cfg).step s (.spawn t τ destination) = .ok (s', out) →
          ∃ d tid, (∀ d', destination = some d' → d = d') ∧ tid ∉ tr.filterMap spawnedId ∧
            out = [.started d 0 tid, .spawnReply t d 0 tid] ∧ s.live d = [] ∧
            s'.live = Function.update s.live d [⟨some tid, 0, .starting⟩]) ∧
        (destination = none → (tr.filterMap spawnedId).length + 1 < 2 ^ 30 →
          (∃ d : Fin N, d.val < cfg.applicationTiles ∧ d ≠ cfg.getMainThreadTileNum ∧
            s.master.threads.status d = [.idle]) →
          ∃ r, (threads cfg).step s (.spawn t τ destination) = .ok r) := by
  obtain ⟨hi, hn⟩ := run_inv hK h
  refine ⟨fun t => ?_, fun t => (hi.seat t).idle_iff, fun t => ?_, fun t τ destination he => ⟨?_, ?_⟩⟩
  · have hseat := hi.seat t
    generalize s.live t = l at hseat
    cases hseat <;> simp
  · have hseat := hi.seat t
    generalize s.live t = l at hseat
    cases hseat with
    | free _ hq => simp [hq]
    | @taken who _ _ _ _ hhost =>
      cases who with
      | none => simp [show s.master.waiterQueue t = [] from hhost]
      | some tid =>
        obtain ⟨⟨req, hq, -⟩, -⟩ := hhost
        simp [hq]
  · intro s' out hs
    obtain ⟨d, hdest, hp⟩ := (hi.step hK he).of_ok hs
    refine ⟨d, s.master.tidCounter + 1, hdest, ?_, hp.out, hp.free, hp.live⟩
    rw [show tr.filterMap spawnedId = _ from hn, mem_range'_1]
    omega
  · rintro rfl hlen ⟨d, hd, hmain, hidle⟩
    rw [show tr.filterMap spawnedId = _ from hn, length_range'] at hlen
    have hsat := hi.step hK he
    cases hs : (threads cfg).step s (.spawn t τ none) with
    | ok r => exact ⟨r, rfl⟩
    | error e =>
      rcases hsat.of_error hs with ⟨-, -, hfull⟩ | ⟨-, hover⟩ | ⟨hne, -⟩
      · exact absurd hidle (hfull d hd hmain)
      · omega
      · exact absurd rfl hne

end Runs

/-! ## Two machines -/

def liteMachine : Config 3 := ⟨2, 1, .lite, 1, by decide, by decide, by decide⟩

/-- The thread that `main` has spawned has exited, and `main` spawns another one. -/
theorem thread_placement_lite : ∃ tr s s' out d tid, (threads liteMachine).Run (fun _ => True) tr s ∧
    (threads liteMachine).step s (.spawn 0 ⟨none, 0, .running⟩ none) = .ok (s', out) ∧
    .exited 1 (some 1) ∈ tr ∧ tid ∉ tr.filterMap spawnedId ∧ s.live d = [] ∧
    s'.live = Function.update s.live d [⟨some tid, 0, .starting⟩] := by
  obtain ⟨tr, s, h, hexit, hlen, hidle, hen⟩ := System.Run.of_reaches (S := threads liteMachine)
    (Q := fun tr s => .exited 1 (some 1) ∈ tr ∧ (tr.filterMap spawnedId).length = 1 ∧
      s.master.threads.status 1 = [.idle] ∧
      (threads liteMachine).enabled s (.spawn 0 ⟨none, 0, .running⟩ none))
    (P := fun _ => True) (.start rfl)
    [.spawn 0 ⟨none, 0, .running⟩ none, .start 1 ⟨some 1, 0, .starting⟩, .exit 1 ⟨some 1, 0, .running⟩ 7]
  obtain ⟨hspawn, hnone⟩ := (thread_placement liteMachine rfl tr s h).2.2.2 _ _ _ hen
  obtain ⟨⟨s', out⟩, hstep⟩ := hnone rfl (by rw [hlen]; decide) ⟨1, by decide, by decide, hidle⟩
  obtain ⟨d, tid, -, hnew, -, hfree, hlive⟩ := hspawn s' out hstep
  exact ⟨tr, s, s', out, d, tid, h, hstep, hexit, hnew, hfree, hlive⟩

/-- Two application tiles, the thread spawner of one process, and the MCP. -/
def fullMachine : Config 4 := ⟨2, 1, .full, 1, by decide, by decide, by decide⟩

/-- When `main` and the thread spawner have exited, the tile of the thread spawner is idle, but the
thread on tile 1 cannot spawn. -/
theorem spawner_tile_unused : ∃ tr s, (threads fullMachine).Run (fun _ => True) tr s ∧
    s.master.threads.status 2 = [.idle] ∧
    (threads fullMachine).enabled s (.spawn 1 ⟨some 1, 0, .running⟩ none) ∧
    ∀ r, (threads fullMachine).step s (.spawn 1 ⟨some 1, 0, .running⟩ none) ≠ .ok r := by
  refine System.Run.of_reaches_imp (Q := fun _ s => s.master.threads.status 2 = [.idle] ∧
      (threads fullMachine).enabled s (.spawn 1 ⟨some 1, 0, .running⟩ none) ∧
      ((threads fullMachine).step s (.spawn 1 ⟨some 1, 0, .running⟩ none)).isOk = false) (.start rfl)
    [.spawn 0 ⟨none, 0, .running⟩ none, .start 1 ⟨some 1, 0, .starting⟩, .exit 0 ⟨none, 0, .running⟩ 7,
      .exit 2 ⟨none, 0, .running⟩ 8] fun tr s h hq => ⟨hq.1, hq.2.1, fun r hr => ?_⟩
  simp [hr, Except.isOk, Except.toBool] at hq

end Graphite.Thread
