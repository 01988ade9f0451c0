import Graphite.Sync.Model

/-! # Mutexes and condition variables over whole runs

In the runs here every core has at most one request outstanding and gives up only mutexes it owns. What
a core and a mutex went through is read off the events of a run. `Inv` relates those histories to the
queues and the thread table in the middle of a handler as well: `Stage` says which cores are on their
way from one queue to another and which new owners have not been told yet.
-/

namespace Graphite.Sync

open Outcome List Sync.Server SyncServer

variable {N : ℕ} {e : Event N}

/-! ## Histories -/

/-- The mutex that `c` asks for with a request to lock it or to wait with it. -/
def ask (c : Fin N) : Event N → Option ℕ
  | .request d (.mutexLock mux _) | .request d (.condWait _ mux _) =>
    if d = c then some mux else none
  | _ => none

/-- The mutex that `c` asked for last. -/
def passed (c : Fin N) (log : List (Event N)) : Option ℕ := (log.filterMap (ask c)).getLast?

/-- A core that gets a mutex or a place in its queue. -/
def assignment : Event N → Option (Fin N × ℕ)
  | .granted mux c | .queued mux c | .handed mux c => some (c, mux)
  | _ => none

/-- Every core only gets, or queues for, the mutex that it asked for last. -/
def OwnMutex (log : List (Event N)) : Prop :=
  ∀ pre e post, log = pre ++ e :: post → ∀ c mux, assignment e = some (c, mux) →
    passed c pre = some mux

def grantee : Event N → Option (Fin N)
  | .granted _ c | .handed _ c => some c
  | _ => none

def lockReply : Event N → Option (Fin N)
  | .reply c (.mutexLock _) => some c
  | _ => none

/-- The requests, and the responses other than that a core has a mutex. -/
def plain : Event N → Option (Event N)
  | .request c r => some (.request c r)
  | .reply _ (.mutexLock _) => none
  | .reply c r => some (.reply c r)
  | _ => none

def onMutex : Event N → Option ℕ
  | .granted mux _ | .queued mux _ | .released mux _ | .handed mux _ => some mux
  | _ => none

def queuedOn (mux : ℕ) : Event N → Option (Fin N)
  | .queued m c => if m = mux then some c else none
  | _ => none

def handedOn (mux : ℕ) : Event N → Option (Fin N)
  | .handed m c => if m = mux then some c else none
  | _ => none

/-- The cores that hold a mutex after one more event. -/
def hold (mux : ℕ) (cs : List (Fin N)) : Event N → List (Fin N)
  | .granted m c | .handed m c => if m = mux then cs ++ [c] else cs
  | .released m c => if m = mux then cs.erase c else cs
  | _ => cs

/-- The cores that were given a mutex and have not released it. -/
def holders (mux : ℕ) (log : List (Event N)) : List (Fin N) := log.foldl (hold mux) []

@[simp] theorem holders_append (mux : ℕ) (log : List (Event N)) (e : Event N) :
    holders mux (log ++ [e]) = hold mux (holders mux log) e := by
  simp [holders]

@[simp] theorem filterMap_singleton_toList {α β : Type*} (f : α → Option β) (e : α) :
    [e].filterMap f = (f e).toList := by
  cases h : f e <;> simp [h]

theorem passed_append {c : Fin N} (h : ask c e = none) (log : List (Event N)) :
    passed c (log ++ [e]) = passed c log := by
  simp [passed, h]

theorem passed_append_ask {c : Fin N} {mux : ℕ} (h : ask c e = some mux)
    (log : List (Event N)) : passed c (log ++ [e]) = some mux := by
  simp [passed, h]

theorem OwnMutex.append {log : List (Event N)} (h : OwnMutex log)
    (he : ∀ c mux, assignment e = some (c, mux) → passed c log = some mux) :
    OwnMutex (log ++ [e]) := by
  intro pre e' post hlog c mux hc
  rcases eq_nil_or_concat post with rfl | ⟨post, e'', rfl⟩
  · obtain ⟨rfl, he'⟩ := append_inj' hlog rfl
    obtain rfl : e = e' := by simpa using he'
    exact he c mux hc
  · rw [concat_eq_append, ← cons_append, ← append_assoc] at hlog
    obtain ⟨rfl, -⟩ := append_inj' hlog rfl
    exact h pre e' post rfl c mux hc

/-! ## Queues -/

/-- How often `c` stands in a queue. -/
def waits (s : Server N) (c : Fin N) : ℕ :=
  (s.mutexes.map fun m => m.waiting.count c).sum +
    (s.conds.map fun v => (v.waiting.map CondWaiter.core).count c).sum

theorem sum_map_set {α : Type*} {l : List α} {i : ℕ} {x : α} (h : l[i]? = some x) (f : α → ℕ) (y : α) :
    ((l.set i y).map f).sum + f x = (l.map f).sum + f y := by
  induction l generalizing i with
  | nil => simp at h
  | cons z l ih =>
    cases i with
    | zero =>
      obtain rfl : z = x := by simpa using h
      simp
      omega
    | succ i =>
      have := ih (by simpa using h)
      simp only [set_cons_succ, map_cons, sum_cons]
      omega

theorem waits_setMutex {s : Server N} {mux : ℕ} {m : SimMutex N} (h : s.mutexes[mux]? = some m)
    (m' : SimMutex N) (c : Fin N) :
    waits (s.setMutex mux m') c + m.waiting.count c = waits s c + m'.waiting.count c := by
  have := sum_map_set h (fun m => m.waiting.count c) m'
  simp only [waits, setMutex]
  omega

theorem waits_setCond {s : Server N} {cond : ℕ} {v : SimCond N} (h : s.conds[cond]? = some v)
    (v' : SimCond N) (c : Fin N) :
    waits (s.setCond cond v') c + (v.waiting.map CondWaiter.core).count c =
      waits s c + (v'.waiting.map CondWaiter.core).count c := by
  have := sum_map_set h (fun v => (v.waiting.map CondWaiter.core).count c) v'
  simp only [waits, setCond]
  omega

theorem getElem?_set_cases {α : Type*} {l : List α} {i j : ℕ} {x y : α}
    (h : (l.set i x)[j]? = some y) : (i = j ∧ x = y) ∨ (i ≠ j ∧ l[j]? = some y) := by
  rcases eq_or_ne i j with rfl | hne
  · rw [getElem?_set_self'] at h
    cases hl : l[i]? with
    | none => simp [hl] at h
    | some z => exact .inl ⟨rfl, by simpa [hl] using h⟩
  · rw [getElem?_set_ne hne] at h
    exact .inr ⟨hne, h⟩

/-! ## The invariant -/

/-- Where a handler is: the cores it took from a condition and has not resumed, the core that runs
while its request is in no queue, the owners it has not told, and the other messages so far. -/
structure Stage (N : ℕ) where
  parked : List (CondWaiter N) := []
  moving : Option (Fin N) := none
  owed : List (Fin N) := []
  said : List (Event N) := []

def seats (s : Server N) (g : Stage N) (c : Fin N) : ℕ :=
  waits s c + (g.parked.map CondWaiter.core).count c

section Seats

variable {s : Server N} {g : Stage N} {c : Fin N}

theorem seats_of_mutex {mux : ℕ} {m : SimMutex N} (hm : s.mutexes[mux]? = some m)
    (hc : c ∈ m.waiting) : seats s g c ≠ 0 := by
  have := waits_setMutex hm { m with waiting := m.waiting.erase c } c
  have hpos := count_pos_iff.mpr hc
  simp only [count_erase_self] at this
  simp only [seats]
  omega

theorem seats_of_cond {cond : ℕ} {v : SimCond N} (hv : s.conds[cond]? = some v)
    (hc : c ∈ v.waiting.map CondWaiter.core) : seats s g c ≠ 0 := by
  have := waits_setCond hv ⟨[]⟩ c
  have hpos := count_pos_iff.mpr hc
  simp only [map_nil, count_nil] at this
  simp only [seats]
  omega

theorem seats_of_parked (hc : c ∈ g.parked.map CondWaiter.core) : seats s g c ≠ 0 := by
  have hpos := count_pos_iff.mpr hc
  simp only [seats]
  omega

variable {f f' : Fin N → ℕ} {l : List (Fin N)}

theorem seat_added (h0 : f c = 0) (h : ∀ d, f' d + l.count d = f d + (l ++ [c]).count d)
    (d : Fin N) : f' d = if d = c then 1 else f d := by
  have := h d
  rw [count_append, count_singleton] at this
  split
  · next hd => subst hd; simp at this; omega
  · next hd => rw [if_neg (by simpa using Ne.symm hd)] at this; omega

theorem seat_removed (h1 : f c = 1) (h : ∀ d, f' d + (c :: l).count d = f d + l.count d)
    (d : Fin N) : f' d = if d = c then 0 else f d := by
  have := h d
  rw [count_cons] at this
  split
  · next hd => subst hd; simp at this; omega
  · next hd => rw [if_neg (by simpa using Ne.symm hd)] at this; omega

end Seats

structure FairAt (mux : ℕ) (log : List (Event N)) (m : SimMutex N) : Prop where
  free : m.owner = none → m.waiting = []
  held : holders mux log = m.owner.toList
  fifo : log.filterMap (queuedOn mux) = log.filterMap (handedOn mux) ++ m.waiting

/-- Each core has at most one place in the queues, and is stalled exactly if it has one. -/
structure Seated (T : Threads N) (places : Fin N → ℕ) (moving : Option (Fin N)) : Prop where
  row : ∀ c, T.Row c (if places c = 0 then .running else .stalled)
  once : ∀ c, places c ≤ 1
  still : ∀ c, moving = some c → places c = 0

/-- Every mutex a core asked for was given to it, or it waits or moves. The owners were told in
order. -/
structure Accounts (log : List (Event N)) (places : Fin N → ℕ) (moving : Option (Fin N))
    (owed : List (Fin N)) : Prop where
  asked : ∀ c, (log.filterMap (ask c)).length =
    (log.filterMap grantee).count c + places c + if moving = some c then 1 else 0
  told : log.filterMap grantee = log.filterMap lockReply ++ owed

/-- Every core in a queue waits for the mutex it asked for. -/
structure Own (log : List (Event N)) (s : Server N) (g : Stage N) : Prop where
  own : OwnMutex log
  mutex : ∀ (mux : ℕ) (m : SimMutex N), s.mutexes[mux]? = some m →
    ∀ c ∈ m.waiting, passed c log = some mux
  cond : ∀ (cond : ℕ) (v : SimCond N), s.conds[cond]? = some v →
    ∀ w ∈ v.waiting, passed w.core log = some w.mutex
  parked : ∀ w ∈ g.parked, passed w.core log = some w.mutex

/-- The invariant of the server in the middle of a handler, after the events `tr` of earlier
requests. With `strict` it includes that no core lost the mutex it asked for. -/
structure Inv (strict : Prop) (tr : List (Event N)) (s : Server N) (g : Stage N) : Prop where
  seated : Seated s.threads (seats s g) g.moving
  fair : ∀ (mux : ℕ) (m : SimMutex N), s.mutexes[mux]? = some m → FairAt mux (tr ++ s.out) m
  accounts : Accounts (tr ++ s.out) (seats s g) g.moving g.owed
  bound : ∀ (cond : ℕ) (v : SimCond N), s.conds[cond]? = some v →
    ∀ w ∈ v.waiting, w.mutex < s.mutexes.length
  said : s.out.filterMap plain = g.said
  own : strict → Own (tr ++ s.out) s g

namespace Seated

variable {T T' : Threads N} {f f' : Fin N → ℕ} {moving : Option (Fin N)} {c : Fin N}

theorem running (h : Seated T f moving) (hc : f c = 0) : T.Row c .running := by
  simpa [hc] using h.row c

theorem stalled (h : Seated T f moving) (hc : f c ≠ 0) : T.Row c .stalled := by
  simpa [hc] using h.row c

theorem stall (h : Seated T f (some c)) (hs : T.SameBut c T') (hc : T'.Row c .stalled)
    (hf : ∀ d, f' d = if d = c then 1 else f d) : Seated T' f' none := by
  refine ⟨fun d => ?_, fun d => ?_, fun d hd => by cases hd⟩
  · rcases eq_or_ne d c with rfl | hd
    · simpa [hf] using hc
    · simpa [hf, hd] using hs.row hd (h.row d)
  · have := h.once d
    rw [hf d]
    split <;> omega

theorem resume (h : Seated T f moving) (hc0 : f c ≠ 0) (hs : T.SameBut c T')
    (hc : T'.Row c .running) (hf : ∀ d, f' d = if d = c then 0 else f d) {moving' : Option (Fin N)}
    (hm : moving' = moving ∨ moving' = some c) : Seated T' f' moving' := by
  refine ⟨fun d => ?_, fun d => ?_, fun d hd => ?_⟩
  · rcases eq_or_ne d c with rfl | hd
    · simpa [hf] using hc
    · simpa [hf, hd] using hs.row hd (h.row d)
  · have := h.once d
    rw [hf d]
    split <;> omega
  · rw [hf d]
    split
    · rfl
    · next hne =>
      rcases hm with rfl | rfl
      · exact h.still d hd
      · exact absurd (Option.some.inj hd).symm hne

theorem settle (h : Seated T f moving) : Seated T f none :=
  ⟨h.row, h.once, fun c hc => by cases hc⟩

end Seated

namespace Accounts

variable {log : List (Event N)} {f f' : Fin N → ℕ} {moving : Option (Fin N)} {owed : List (Fin N)}
  {c : Fin N} {mux : ℕ}

/-- An event that neither asks for a mutex, nor gives one away, nor tells an owner. -/
theorem frame (h : Accounts log f moving owed) {e : Event N} (ha : ∀ c, ask c e = none)
    (hg : grantee e = none) (hl : lockReply e = none) : Accounts (log ++ [e]) f moving owed :=
  ⟨fun c => by simpa [ha, hg] using h.asked c, by simpa [hg, hl] using h.told⟩

theorem granted (h : Accounts log f (some c) owed) :
    Accounts (log ++ [.granted mux c]) f none (owed ++ [c]) := by
  refine ⟨fun d => ?_, by simp [grantee, lockReply, h.told]⟩
  have := h.asked d
  rcases eq_or_ne d c with rfl | hd
  · simp [ask, grantee] at this ⊢
    omega
  · simpa [ask, grantee, hd, hd.symm] using this

theorem place (h : Accounts log f (some c) owed) (hc : f c = 0)
    (hf : ∀ d, f' d = if d = c then 1 else f d) : Accounts log f' none owed := by
  refine ⟨fun d => ?_, h.told⟩
  have := h.asked d
  rcases eq_or_ne d c with rfl | hd
  · simpa [hf, hc] using this
  · simpa [hf, hd, hd.symm] using this

theorem handed (h : Accounts log f moving owed) (hc : f c = 1)
    (hf : ∀ d, f' d = if d = c then 0 else f d) :
    Accounts (log ++ [.handed mux c]) f' moving (owed ++ [c]) := by
  refine ⟨fun d => ?_, by simp [grantee, lockReply, h.told]⟩
  have := h.asked d
  rcases eq_or_ne d c with rfl | hd
  · simp [ask, grantee, hf, hc] at this ⊢
    omega
  · simpa [ask, grantee, hf, hd, hd.symm] using this

theorem reply (h : Accounts log f moving (c :: owed)) (time : ℕ) :
    Accounts (log ++ [.reply c (.mutexLock time)]) f moving owed :=
  ⟨fun d => by simpa [ask, grantee] using h.asked d, by simp [grantee, lockReply, h.told]⟩

theorem move (h : Accounts log f none owed) (hc : f c = 1)
    (hf : ∀ d, f' d = if d = c then 0 else f d) : Accounts log f' (some c) owed := by
  refine ⟨fun d => ?_, h.told⟩
  have := h.asked d
  rcases eq_or_ne d c with rfl | hd
  · simpa [hf, hc] using this
  · simpa [hf, hd, hd.symm] using this

theorem ask (h : Accounts log f none owed) {e : Event N} (hc : (Sync.ask c e).isSome)
    (hd : ∀ d, d ≠ c → Sync.ask d e = none) (hg : grantee e = none) (hl : lockReply e = none) :
    Accounts (log ++ [e]) f (some c) owed := by
  obtain ⟨x, hx⟩ := Option.isSome_iff_exists.mp hc
  refine ⟨fun d => ?_, by simpa [hg, hl] using h.told⟩
  have := h.asked d
  rcases eq_or_ne d c with rfl | hne
  · simpa [hx, hg] using this
  · simpa [hd d hne, hg, hne.symm] using this

end Accounts

namespace Own

variable {log : List (Event N)} {s : Server N} {g : Stage N}

section

variable (h : Own log s g)
include h

theorem of_eq {s' : Server N} {g' : Stage N} (hm : s'.mutexes = s.mutexes)
    (hc : s'.conds = s.conds) (hp : g'.parked = g.parked) : Own log s' g' :=
  ⟨h.own, hm ▸ h.mutex, hc ▸ h.cond, hp ▸ h.parked⟩

theorem append {e : Event N} (ha : ∀ c, ask c e = none)
    (he : ∀ c mux, assignment e = some (c, mux) → passed c log = some mux) :
    Own (log ++ [e]) s g := by
  refine ⟨h.own.append he, fun mux m hm c hc => ?_, fun cond v hv w hw => ?_, fun w hw => ?_⟩
  · rw [passed_append (ha c)]
    exact h.mutex mux m hm c hc
  · rw [passed_append (ha _)]
    exact h.cond cond v hv w hw
  · rw [passed_append (ha _)]
    exact h.parked w hw

theorem request {c : Fin N} (hc : seats s g c = 0) (r : Request) :
    Own (log ++ [.request c r]) s g := by
  have hask : ∀ d, d ≠ c → ask d (.request c r) = none := by
    intro d hd
    cases r <;> simp [ask, hd.symm]
  refine ⟨h.own.append (by simp [assignment]), fun mux m hm d hd => ?_, fun cond v hv w hw => ?_,
    fun w hw => ?_⟩
  · rw [passed_append (hask d fun he => seats_of_mutex hm (he ▸ hd) hc)]
    exact h.mutex mux m hm d hd
  · rw [passed_append (hask _ fun he => seats_of_cond hv (he ▸ mem_map_of_mem hw) hc)]
    exact h.cond cond v hv w hw
  · rw [passed_append (hask _ fun he => seats_of_parked (he ▸ mem_map_of_mem hw) hc)]
    exact h.parked w hw

theorem setMutex (mux : ℕ) (m : SimMutex N)
    (hm : ∀ c ∈ m.waiting, passed c log = some mux) : Own log (s.setMutex mux m) g := by
  refine ⟨h.own, fun mux' m' hm' c hc => ?_, h.cond, h.parked⟩
  rcases getElem?_set_cases hm' with ⟨rfl, rfl⟩ | ⟨-, hm'⟩
  · exact hm c hc
  · exact h.mutex mux' m' hm' c hc

theorem setCond (cond : ℕ) (v : SimCond N) {ps : List (CondWaiter N)}
    (hv : ∀ w ∈ v.waiting, passed w.core log = some w.mutex)
    (hps : ∀ w ∈ ps, passed w.core log = some w.mutex) :
    Own log (s.setCond cond v) { g with parked := ps } := by
  refine ⟨h.own, h.mutex, fun cond' v' hv' w hw => ?_, hps⟩
  rcases getElem?_set_cases hv' with ⟨rfl, rfl⟩ | ⟨-, hv'⟩
  · exact hv w hw
  · exact h.cond cond' v' hv' w hw

end

end Own

namespace FairAt

variable {mux : ℕ} {log : List (Event N)} {m : SimMutex N} {c : Fin N}

section

variable (h : FairAt mux log m)
include h

theorem frame {e : Event N} (he : onMutex e ≠ some mux) : FairAt mux (log ++ [e]) m := by
  have hq : queuedOn mux e = none := by cases e <;> simp_all [onMutex, queuedOn]
  have hh : handedOn mux e = none := by cases e <;> simp_all [onMutex, handedOn]
  have ho : ∀ cs, hold mux cs e = cs := by cases e <;> simp_all [onMutex, hold]
  exact ⟨h.free, by simp [ho, h.held], by simp [hq, hh, h.fifo]⟩

theorem granted (ho : m.owner = none) :
    FairAt mux (log ++ [.granted mux c]) { m with owner := some c } :=
  ⟨by simp, by simp [hold, h.held, ho], by simp [queuedOn, handedOn, h.fifo]⟩

theorem queued (ho : m.owner ≠ none) :
    FairAt mux (log ++ [.queued mux c]) { m with waiting := m.waiting ++ [c] } :=
  ⟨fun hn => absurd hn ho, by simp [hold, h.held], by simp [queuedOn, handedOn, h.fifo]⟩

theorem released (ho : m.owner = some c) (hw : m.waiting = []) :
    FairAt mux (log ++ [.released mux c]) { m with owner := none } :=
  ⟨fun _ => hw, by simp [hold, h.held, ho], by simp [queuedOn, handedOn, h.fifo]⟩

theorem handed (ho : m.owner = some c) {d : Fin N} {ds : List (Fin N)} (hw : m.waiting = d :: ds) :
    FairAt mux (log ++ [.released mux c] ++ [.handed mux d]) ⟨ds, some d⟩ :=
  ⟨by simp, by rw [holders_append, holders_append]; simp [hold, h.held, ho],
    by simp only [filterMap_append, h.fifo, hw]; simp [queuedOn, handedOn]⟩

end

end FairAt

/-! ## What locking and unlocking do -/

section Effects

variable {s : Server N} {mux : ℕ} {m : SimMutex N} {c : Fin N}

theorem at_of_getElem {α : Type} {l : List α} {i : ℕ} {x : α} (h : l[i]? = some x) :
    at? l i = .ok x := by
  simp [at?, h]

theorem exists_of_lt {α : Type} {l : List α} {i : ℕ} (h : i < l.length) : ∃ x, l[i]? = some x :=
  ⟨_, getElem?_eq_getElem h⟩

theorem stallThread_sat (h : s.threads.Row c .running) : Returns (s.stallThread c) fun s' =>
      ∃ T, T.Row c .stalled ∧ s.threads.SameBut c T ∧ s' = { s with threads := T } := by
  refine (Threads.stallThread_sat h).bind fun T hT => ?_
  exact ⟨T, hT.1, hT.2, rfl⟩

theorem resumeThread_sat (h : s.threads.Row c .stalled) : Returns (s.resumeThread c) fun s' =>
      ∃ T, T.Row c .running ∧ s.threads.SameBut c T ∧
        s' = { s with threads := T }.emit (.resumed c) := by
  refine (Threads.resumeThread_sat h).bind fun T hT => ?_
  exact ⟨T, hT.1, hT.2, rfl⟩

theorem lock_sat (hm : s.mutexes[mux]? = some m) (hr : s.threads.Row c .running) :
    Returns (SimMutex.lock s mux c) fun r =>
      (m.owner = none ∧
        r = ((s.setMutex mux { m with owner := some c }).emit (.granted mux c), true)) ∨
      (m.owner ≠ none ∧ ∃ T, T.Row c .stalled ∧ s.threads.SameBut c T ∧
        r = (({ s with threads := T }.setMutex mux { m with waiting := m.waiting ++ [c] }).emit
          (.queued mux c), false)) := by
  unfold SimMutex.lock
  rw [at_of_getElem hm, ok_bind]
  cases ho : m.owner with
  | none => exact .inl ⟨rfl, rfl⟩
  | some o =>
    refine (stallThread_sat hr).bind fun s' hs' => ?_
    obtain ⟨T, hT, hsame, rfl⟩ := hs'
    exact .inr ⟨by simp, T, hT, hsame, by simp⟩

theorem unlock_sat (hm : s.mutexes[mux]? = some m) (ho : m.owner = some c)
    (hr : ∀ d ds, m.waiting = d :: ds → s.threads.Row d .stalled) :
    Returns (SimMutex.unlock s mux c) fun r =>
      (m.waiting = [] ∧
        r = ((s.emit (.released mux c)).setMutex mux { m with owner := none }, none)) ∨
      ∃ d ds T, m.waiting = d :: ds ∧ T.Row d .running ∧ s.threads.SameBut d T ∧
        r = ({ (((s.emit (.released mux c)).setMutex mux ⟨ds, some d⟩).emit (.handed mux d)) with
          threads := T }.emit (.resumed d), some d) := by
  unfold SimMutex.unlock
  rw [at_of_getElem hm, ok_bind, check_pos ho, ok_bind]
  cases hw : m.waiting with
  | nil => exact .inl ⟨rfl, by simp⟩
  | cons d ds =>
    refine (resumeThread_sat (s := ((s.emit (.released mux c)).setMutex mux ⟨ds, some d⟩).emit
      (.handed mux d)) (hr d ds hw)).bind fun s' hs' => ?_
    obtain ⟨T, hT, hsame, rfl⟩ := hs'
    exact .inr ⟨d, ds, T, rfl, hT, hsame, rfl⟩

end Effects

/-! ## The invariant in the middle of a handler -/

namespace Inv

variable {strict : Prop} {tr : List (Event N)} {s : Server N} {g : Stage N} {mux : ℕ}
  {m m' : SimMutex N} {c : Fin N} {ps : List (CondWaiter N)} {ow : List (Fin N)}

theorem fair_set {log es : List (Event N)} {M : List (SimMutex N)}
    (h : ∀ (mux : ℕ) (m : SimMutex N), M[mux]? = some m → FairAt mux log m)
    (hes : ∀ mux', mux' ≠ mux → ∀ m, FairAt mux' log m → FairAt mux' (log ++ es) m)
    (hm : FairAt mux (log ++ es) m') (mux' : ℕ) (m : SimMutex N)
    (hm' : (M.set mux m')[mux']? = some m) : FairAt mux' (log ++ es) m := by
  rcases getElem?_set_cases hm' with ⟨rfl, rfl⟩ | ⟨hne, hM⟩
  · exact hm
  · exact hes mux' hne.symm m (h mux' m hM)

theorem bound_set (h : Inv strict tr s g) (cond : ℕ) (v : SimCond N) (hv : s.conds[cond]? = some v)
    (w : CondWaiter N) (hw : w ∈ v.waiting) : w.mutex < (s.mutexes.set mux m').length := by
  simpa using h.bound cond v hv w hw

theorem lock (h : Inv strict tr s { g with moving := some c }) (hg : g.moving = none)
    (hmux : mux < s.mutexes.length) (hpass : strict → passed c (tr ++ s.out) = some mux) :
    Returns (SimMutex.lock s mux c) fun r =>
      Inv strict tr r.1 { g with owed := if r.2 then g.owed ++ [c] else g.owed } ∧
        r.1.mutexes.length = s.mutexes.length := by
  obtain ⟨m, hm⟩ := exists_of_lt hmux
  have h0 : seats s { g with moving := some c } c = 0 := h.seated.still c rfl
  have hown : ∀ (e : Event N) (m' : SimMutex N), strict →
      (∀ d ∈ m'.waiting, d = c ∨ d ∈ m.waiting) → (∀ d, ask d e = none) → assignment e = some (c, mux) →
      Own ((tr ++ s.out) ++ [e]) (s.setMutex mux m') g := by
    intro e m' hst hwait hask he
    have hOwn : Own (tr ++ s.out) s g := (h.own hst).of_eq rfl rfl rfl
    refine (hOwn.setMutex mux m' fun d hd => ?_).append hask fun d mux' hd => ?_
    · rcases hwait d hd with rfl | hd
      · exact hpass hst
      · exact hOwn.mutex mux m hm d hd
    · obtain ⟨rfl, rfl⟩ : c = d ∧ mux = mux' := by simpa [he] using hd
      exact hpass hst
  refine (lock_sat hm (h.seated.running h0)).mono fun r hr => ?_
  rcases hr with ⟨ho, rfl⟩ | ⟨ho, T, hT, hs, rfl⟩
  all_goals refine ⟨?_, by simp [emit, setMutex]⟩
  · have hw : seats (s.setMutex mux { m with owner := some c }) g = seats s g := by
      funext d
      have := waits_setMutex hm { m with owner := some c } d
      exact congrArg (· + (g.parked.map CondWaiter.core).count d) (Nat.add_right_cancel this)
    refine ⟨?_, ?_, ?_, h.bound_set, ?_, fun hst => ?_⟩
    · change Seated s.threads (seats (s.setMutex mux _) g) g.moving
      rw [hw, hg]
      exact h.seated.settle
    · simp only [emit, ← append_assoc]
      exact fair_set h.fair (fun mux' hne m hf => hf.frame (by simpa [onMutex] using hne.symm))
        ((h.fair mux m hm).granted ho)
    · change Accounts (tr ++ (s.out ++ [_])) (seats (s.setMutex mux _) g) g.moving (g.owed ++ [c])
      rw [hw, hg, ← append_assoc]
      exact h.accounts.granted
    · simpa [emit, setMutex, plain] using h.said
    · have := hown (.granted mux c) { m with owner := some c } hst
        (fun d hd => .inr hd) (fun _ => rfl) rfl
      rw [append_assoc] at this
      exact this.of_eq rfl rfl rfl
  · have hw : ∀ d, seats (s.setMutex mux { m with waiting := m.waiting ++ [c] }) g d =
        if d = c then 1 else seats s g d := by
      refine seat_added (l := m.waiting) h0 fun d => ?_
      have := waits_setMutex hm { m with waiting := m.waiting ++ [c] } d
      dsimp only [seats] at this ⊢
      omega
    refine ⟨?_, ?_, ?_, h.bound_set, ?_, fun hst => ?_⟩
    · change Seated T (seats (s.setMutex mux _) g) g.moving
      rw [hg]
      exact h.seated.stall hs hT hw
    · simp only [emit, ← append_assoc]
      exact fair_set h.fair (fun mux' hne m hf => hf.frame (by simpa [onMutex] using hne.symm))
        ((h.fair mux m hm).queued ho)
    · change Accounts (tr ++ (s.out ++ [_])) (seats (s.setMutex mux _) g) g.moving g.owed
      rw [hg, ← append_assoc]
      exact (h.accounts.place h0 hw).frame (fun _ => rfl) rfl rfl
    · simpa [emit, setMutex, plain] using h.said
    · have := hown (.queued mux c) { m with waiting := m.waiting ++ [c] } hst
        (fun d hd => by simpa [or_comm] using hd) (fun _ => rfl) rfl
      rw [append_assoc] at this
      exact this.of_eq rfl rfl rfl

/-- The first core in the queue becomes the owner of a mutex that is released. -/
theorem unlock (h : Inv strict tr s g) (hm : s.mutexes[mux]? = some m) (ho : m.owner = some c) :
    Returns (SimMutex.unlock s mux c) fun r =>
      Inv strict tr r.1 { g with owed := g.owed ++ r.2.toList } := by
  have hrow : ∀ d ds, m.waiting = d :: ds → s.threads.Row d .stalled := fun d ds hw =>
    h.seated.stalled (seats_of_mutex hm (by simp [hw]))
  refine (unlock_sat hm ho hrow).mono fun r hr => ?_
  rcases hr with ⟨hw, rfl⟩ | ⟨d, ds, T, hw, hT, hs, rfl⟩
  · have hseats : seats (s.setMutex mux { m with owner := none }) g = seats s g := by
      funext d
      have := waits_setMutex hm { m with owner := none } d
      exact congrArg (· + (g.parked.map CondWaiter.core).count d) (Nat.add_right_cancel this)
    refine ⟨?_, ?_, ?_, h.bound_set, ?_, fun hst => ?_⟩
    · change Seated s.threads (seats (s.setMutex mux _) g) g.moving
      rw [hseats]
      exact h.seated
    · simp only [emit, setMutex, ← append_assoc]
      exact fair_set h.fair (fun mux' hne m hf => hf.frame (by simpa [onMutex] using hne.symm))
        ((h.fair mux m hm).released ho hw)
    · change Accounts (tr ++ (s.out ++ [_])) (seats (s.setMutex mux _) g) g.moving (g.owed ++ [])
      rw [hseats, ← append_assoc, append_nil]
      exact h.accounts.frame (fun _ => rfl) rfl rfl
    · simpa [emit, setMutex, plain] using h.said
    · have := ((h.own hst).setMutex mux { m with owner := none }
        ((h.own hst).mutex mux m hm)).append (e := .released mux c) (fun _ => rfl)
        (by simp [assignment])
      rw [append_assoc] at this
      exact this.of_eq rfl rfl rfl
  · have h1 : seats s g d = 1 := by
      have := seats_of_mutex (g := g) hm (c := d) (by simp [hw])
      have := h.seated.once d
      omega
    have hseats : ∀ e, seats (s.setMutex mux ⟨ds, some d⟩) g e =
        if e = d then 0 else seats s g e := by
      refine seat_removed (l := ds) h1 fun e => ?_
      have := waits_setMutex hm ⟨ds, some d⟩ e
      rw [hw] at this
      dsimp only [seats] at this ⊢
      omega
    refine ⟨?_, ?_, ?_, h.bound_set, ?_, fun hst => ?_⟩
    · change Seated T (seats (s.setMutex mux _) g) g.moving
      exact h.seated.resume (by omega) hs hT hseats (.inl rfl)
    · simp only [emit, setMutex, ← append_assoc]
      intro mux' m' hm'
      refine FairAt.frame ?_ (by simp [onMutex])
      rw [append_assoc]
      refine fair_set h.fair (fun mux' hne m hf => ?_) ?_ mux' m' hm'
      · rw [← append_assoc]
        exact (hf.frame (by simpa [onMutex] using hne.symm)).frame
          (by simpa [onMutex] using hne.symm)
      · rw [← append_assoc]
        exact (h.fair mux m hm).handed ho hw
    · change Accounts (tr ++ (((s.out ++ [_]) ++ [_]) ++ [_])) (seats (s.setMutex mux _) g) g.moving
        (g.owed ++ [d])
      simp only [← append_assoc]
      exact ((h.accounts.frame (fun _ => rfl) rfl rfl).handed h1 hseats).frame (fun _ => rfl) rfl rfl
    · simpa [emit, setMutex, plain, filterMap_cons] using h.said
    · have hwait := (h.own hst).mutex mux m hm
      rw [hw] at hwait
      have := (((h.own hst).setMutex mux ⟨ds, some d⟩
        (fun e he => hwait e (by simp [he]))).append (e := .released mux c) (fun _ => rfl)
        (by simp [assignment])).append (e := .handed mux d) (fun _ => rfl) (by
          intro e mux' he
          obtain ⟨rfl, rfl⟩ : d = e ∧ mux = mux' := by simpa [assignment] using he
          rw [passed_append rfl]
          exact hwait d (by simp))
      have := this.append (e := .resumed d) (fun _ => rfl) (by simp [assignment])
      simp only [append_assoc] at this
      simp only [emit, setMutex, append_assoc]
      exact this.of_eq rfl rfl rfl

theorem park {cond : ℕ} {v v' : SimCond N} (h : Inv strict tr s g)
    (hg : g.parked = []) (hv : s.conds[cond]? = some v)
    (hcount : ∀ d, (v.waiting.map CondWaiter.core).count d =
      (v'.waiting.map CondWaiter.core).count d + (ps.map CondWaiter.core).count d)
    (hb : ∀ w ∈ v'.waiting, w.mutex < s.mutexes.length)
    (hsub : strict → ∀ w, w ∈ v'.waiting ∨ w ∈ ps → w ∈ v.waiting) :
    Inv strict tr (s.setCond cond v') { g with parked := ps } := by
  have hseats : seats (s.setCond cond v') { g with parked := ps } = seats s g := by
    funext d
    have := waits_setCond hv v' d
    have := hcount d
    simp only [seats, hg, map_nil, count_nil]
    omega
  refine ⟨?_, h.fair, ?_, fun cond' u hu w hw => ?_, h.said, fun hst => ?_⟩
  · rw [hseats]
    exact h.seated
  · rw [hseats]
    exact h.accounts
  · rcases getElem?_set_cases hu with ⟨rfl, rfl⟩ | ⟨-, hu⟩
    · exact hb w hw
    · exact h.bound cond' u hu w hw
  · have hpass := (h.own hst).cond cond v hv
    exact (h.own hst).setCond cond v' (fun w hw => hpass w (hsub hst w (.inl hw)))
      fun w hw => hpass w (hsub hst w (.inr hw))

/-- A core that was taken from a condition is resumed and gets its mutex or a place in its queue. -/
theorem wake {w : CondWaiter N}
    (h : Inv strict tr s { g with parked := w :: ps }) (hg : g.moving = none)
    (hw : w.mutex < s.mutexes.length) :
    Returns (SimCond.wake s w) fun r =>
      Inv strict tr r.1 { g with parked := ps, owed := if r.2 then g.owed ++ [w.core] else g.owed } ∧
        r.1.mutexes.length = s.mutexes.length := by
  have h1 : seats s { g with parked := w :: ps } w.core = 1 := by
    have := h.seated.once w.core
    have : seats s { g with parked := w :: ps } w.core ≠ 0 := seats_of_parked (by simp)
    omega
  have hseats : ∀ d, seats s { g with parked := ps, moving := some w.core } d =
      if d = w.core then 0 else seats s { g with parked := w :: ps } d := by
    refine seat_removed (l := ps.map CondWaiter.core) h1 fun d => ?_
    simp only [seats, map_cons]
    omega
  refine (resumeThread_sat (h.seated.stalled (by omega))).bind fun s' hs' => ?_
  obtain ⟨T, hT, hs, rfl⟩ := hs'
  refine lock (g := { g with parked := ps }) ⟨?_, ?_, ?_, h.bound, ?_, fun hst => ?_⟩ hg hw
    fun hst => ?_
  · exact h.seated.resume (by omega) hs hT hseats (.inr rfl)
  · simp only [emit, ← append_assoc]
    exact fun mux m hm => (h.fair mux m hm).frame (by simp [onMutex])
  · simp only [emit, ← append_assoc]
    have hacc := h.accounts
    rw [show ({ g with parked := w :: ps } : Stage N).moving = none from hg] at hacc
    exact (hacc.move h1 hseats).frame (fun _ => rfl) rfl rfl
  · simpa [emit, plain] using h.said
  · simp only [emit, ← append_assoc]
    have := (h.own hst).append (e := .resumed w.core) (fun _ => rfl) (by simp [assignment])
    exact ⟨this.own, this.mutex, this.cond, fun u hu => this.parked u (by simp [hu])⟩
  · simp only [emit, ← append_assoc]
    rw [passed_append rfl]
    exact (h.own hst).parked w (by simp)

theorem enqueue {cond : ℕ} {v : SimCond N} (h : Inv strict tr s { g with moving := some c })
    (time : ℕ) (hg : g.moving = none) (hv : s.conds[cond]? = some v) (hmux : mux < s.mutexes.length)
    (hpass : strict → passed c (tr ++ s.out) = some mux) :
    Returns (s.stallThread c) fun s' => s'.mutexes = s.mutexes ∧ s'.conds = s.conds ∧
      Inv strict tr (s'.setCond cond ⟨v.waiting ++ [⟨c, mux, time⟩]⟩) g := by
  have h0 : seats s { g with moving := some c } c = 0 := h.seated.still c rfl
  refine (stallThread_sat (h.seated.running h0)).mono fun s' hs' => ?_
  obtain ⟨T, hT, hs, rfl⟩ := hs'
  have hseats : ∀ d, seats (s.setCond cond ⟨v.waiting ++ [⟨c, mux, time⟩]⟩) g d =
      if d = c then 1 else seats s g d := by
    refine seat_added (l := v.waiting.map CondWaiter.core) h0 fun d => ?_
    have := waits_setCond hv ⟨v.waiting ++ [⟨c, mux, time⟩]⟩ d
    simp only [map_append, map_cons, map_nil] at this
    simp only [seats]
    omega
  refine ⟨rfl, rfl, ?_, h.fair, ?_, fun cond' u hu w hw => ?_, h.said, fun hst => ?_⟩
  · rw [hg]
    exact h.seated.stall hs hT hseats
  · rw [hg]
    exact h.accounts.place h0 hseats
  · rcases getElem?_set_cases hu with ⟨rfl, rfl⟩ | ⟨-, hu⟩
    · exact forall_mem_append.mpr ⟨h.bound _ v hv, by simpa⟩ w hw
    · exact h.bound cond' u hu w hw
  · have hwait := forall_mem_append.mpr ⟨(h.own hst).cond cond v hv,
      forall_mem_singleton.mpr (show passed (⟨c, mux, time⟩ : CondWaiter N).core _ = _ from hpass hst)⟩
    exact ((h.own hst).setCond cond ⟨_⟩ hwait (h.own hst).parked).of_eq rfl rfl rfl

theorem netSend_lock (h : Inv strict tr s { g with owed := c :: ow }) (time : ℕ) :
    Inv strict tr (s.netSend c (.mutexLock time)) { g with owed := ow } := by
  refine ⟨h.seated, ?_, ?_, h.bound, by simpa [netSend, emit, plain] using h.said, fun hst => ?_⟩
  all_goals simp only [netSend, emit, ← append_assoc]
  · exact fun mux m hm => (h.fair mux m hm).frame (by simp [onMutex])
  · exact h.accounts.reply time
  · exact ((h.own hst).append (fun _ => rfl) (by simp [assignment])).of_eq rfl rfl rfl

theorem netSend_other {r : Reply} (h : Inv strict tr s g)
    (hr : plain (.reply c r) = some (.reply c r)) :
    Inv strict tr (s.netSend c r) { g with said := g.said ++ [.reply c r] } := by
  refine ⟨h.seated, ?_, ?_, h.bound, by simp [netSend, emit, hr, h.said], fun hst => ?_⟩
  all_goals simp only [netSend, emit, ← append_assoc]
  · exact fun mux m hm => (h.fair mux m hm).frame (by simp [onMutex])
  · refine h.accounts.frame (fun _ => rfl) rfl ?_
    cases r <;> simp_all [plain, lockReply]
  · exact ((h.own hst).append (fun _ => rfl) (by simp [assignment])).of_eq rfl rfl rfl

theorem notifyOwner {o : Option (Fin N)} (h : Inv strict tr s { g with owed := o.toList }) (time : ℕ) :
    Inv strict tr (notifyOwner s time o) { g with owed := [] } := by
  cases o with
  | none => exact h
  | some d => exact h.netSend_lock time

theorem notifyAll (h : Inv strict tr s { g with owed := ow }) (time : ℕ) :
    Inv strict tr (ow.foldl (fun s d => s.netSend d (.mutexLock time)) s) { g with owed := [] } := by
  induction ow generalizing s with
  | nil => exact h
  | cons d ow ih => exact ih (h.netSend_lock time)

end Inv

/-! ## Broadcasts -/

theorem eraseBegin_core : ∀ l : List (CondWaiter N),
    (eraseBegin l).map CondWaiter.core = l.tail.map CondWaiter.core
  | [] | [_] => rfl
  | w :: w' :: ws => by
    simpa [eraseBegin, CondWaiter.assign] using eraseBegin_core (w' :: ws)

theorem eraseBegin_mutex : ∀ (l : List (CondWaiter N)), ∀ w ∈ eraseBegin l,
    ∃ w' ∈ l, w.mutex = w'.mutex
  | [], w, h | [_], w, h => by simp [eraseBegin] at h
  | w :: w' :: ws, u, h => by
    rcases mem_cons.mp h with rfl | h
    · exact ⟨w, by simp, rfl⟩
    · obtain ⟨x, hx, hm⟩ := eraseBegin_mutex (w' :: ws) u h
      exact ⟨x, mem_cons_of_mem _ hx, hm⟩

section Commute

variable {s : Server N} {cond : ℕ} {v : SimCond N}

theorem wake_setCond (w : CondWaiter N) : SimCond.wake (s.setCond cond v) w =
    (fun r => (r.1.setCond cond v, r.2)) <$> SimCond.wake s w := by
  unfold SimCond.wake resumeThread
  change (s.threads.resumeThread w.core >>= _) >>= _ = _
  cases s.threads.resumeThread w.core with
  | error e => rfl
  | ok T =>
    simp only [ok_bind, pure_eq_ok]
    unfold SimMutex.lock
    change at? s.mutexes w.mutex >>= _ = _
    change _ = _ <$> (at? s.mutexes w.mutex >>= _)
    cases at? s.mutexes w.mutex with
    | error e => rfl
    | ok m =>
      simp only [ok_bind]
      cases m.owner with
      | none => rfl
      | some o =>
        simp only [stallThread]
        change (T.stallThread w.core >>= _) >>= _ = _
        change _ = _ <$> ((T.stallThread w.core >>= _) >>= _)
        cases T.stallThread w.core <;> rfl

theorem wakeAll_setCond (ws : List (CondWaiter N)) (woken : List (Fin N)) :
    SimCond.wakeAll ws (s.setCond cond v) woken =
      (fun r => (r.1.setCond cond v, r.2)) <$> SimCond.wakeAll ws s woken := by
  induction ws generalizing s woken with
  | nil => rfl
  | cons w ws ih =>
    simp only [SimCond.wakeAll, wake_setCond]
    cases SimCond.wake s w with
    | error e => rfl
    | ok r => exact ih _

end Commute

/-- If all cores wait with the same mutex, it does not matter that the mutexes do not move along. -/
theorem eraseBegin_same : ∀ {l : List (CondWaiter N)},
    (∀ w ∈ l, ∀ w' ∈ l, w.mutex = w'.mutex) → eraseBegin l = l.tail
  | [], _ | [_], _ => rfl
  | w :: w' :: ws, h => by
    have hw : w.assign w' = w' := by
      rw [CondWaiter.assign, h w (by simp) w' (by simp)]
    rw [eraseBegin, hw, eraseBegin_same fun u hu u' hu' =>
      h u (mem_cons_of_mem _ hu) u' (mem_cons_of_mem _ hu')]
    rfl

/-! ## The requests of a run -/

def Request.asks : Request → Bool
  | .mutexLock _ _ | .condWait _ _ _ => true
  | _ => false

def Request.reply? : Request → Option Reply
  | .mutexUnlock _ _ => some .mutexUnlock
  | .condSignal _ _ => some .condSignal
  | .condBroadcast _ _ => some .condBroadcast
  | _ => none

/-- The requests a core may send: it unlocks and waits with mutexes it owns. -/
def Permitted (s : Server N) (c : Fin N) : Request → Prop
  | .mutexLock mux _ => mux < s.mutexes.length
  | .mutexUnlock mux _ => (s.mutexes[mux]?.bind SimMutex.owner) = some c
  | .condWait cond mux _ =>
    cond < s.conds.length ∧ (s.mutexes[mux]?.bind SimMutex.owner) = some c
  | .condSignal cond _ | .condBroadcast cond _ => cond < s.conds.length
  | .barrierWait _ _ => False

/-- A signal finds all cores of its condition waiting with the same mutex. -/
def OneMutex (s : Server N) : Request → Prop
  | .condSignal cond _ => ∀ v ∈ s.conds[cond]?, ∀ w ∈ v.waiting, ∀ w' ∈ v.waiting, w.mutex = w'.mutex
  | _ => True

namespace Inv

variable {strict : Prop} {tr : List (Event N)} {s : Server N} {g : Stage N} {c : Fin N}

theorem wakeAll {ws : List (CondWaiter N)} (woken : List (Fin N))
    (h : Inv strict tr s { g with parked := ws, owed := woken }) (hg : g.moving = none)
    (hws : ∀ w ∈ ws, w.mutex < s.mutexes.length) :
    Returns (SimCond.wakeAll ws s woken) fun r =>
      Inv strict tr r.1 { g with parked := [], owed := r.2 } := by
  induction ws generalizing s woken with
  | nil => exact h
  | cons w ws ih =>
    refine (wake (g := { g with owed := woken }) h hg (hws w (by simp))).bind fun r hr => ?_
    exact ih _ hr.1 fun w' hw' => hr.2 ▸ hws w' (by simp [hw'])

theorem request (h : Inv strict tr s {}) (hout : s.out = []) (hc : waits s c = 0) (r : Request) :
    Inv strict tr { s with out := [.request c r] }
      { moving := if r.asks then some c else none, said := [.request c r] } := by
  have hacc := h.accounts
  have hfair := h.fair
  have hown := h.own
  rw [hout, append_nil] at hacc hfair hown
  refine ⟨⟨h.seated.row, h.seated.once, fun d hd => ?_⟩, ?_, ?_, h.bound, rfl, fun hst => ?_⟩
  · obtain rfl : c = d := by cases hr : r.asks <;> simp_all
    exact hc
  · exact fun mux m hm => (hfair mux m hm).frame (by simp [onMutex])
  · cases r with
    | mutexLock mux time | condWait cond mux time =>
      exact hacc.ask (by simp [Sync.ask]) (fun d hd => by simp [Sync.ask, hd.symm]) rfl rfl
    | _ => exact hacc.frame (fun _ => rfl) rfl rfl
  · exact ((hown hst).request hc r).of_eq rfl rfl rfl

theorem owned {mux : ℕ} (h : (s.mutexes[mux]?.bind SimMutex.owner) = some c) :
    ∃ m, s.mutexes[mux]? = some m ∧ m.owner = some c ∧ mux < s.mutexes.length := by
  obtain ⟨m, hm, ho⟩ := Option.bind_eq_some_iff.mp h
  exact ⟨m, hm, ho, (List.getElem?_eq_some_iff.mp hm).1⟩

section Handlers

variable {es : List (Event N)} {cond mux time : ℕ}

theorem mutexLock (h : Inv strict tr s { moving := some c, said := es })
    (hmux : mux < s.mutexes.length) (hpass : strict → passed c (tr ++ s.out) = some mux) :
    Returns (mutexLock s c mux time) fun s' =>
      Inv strict tr s' { said := es } := by
  rw [SyncServer.mutexLock, check_pos hmux, ok_bind]
  refine (lock (g := { said := es }) h rfl hmux hpass).bind fun r hr => ?_
  obtain ⟨s', locked⟩ := r
  cases locked with
  | false => exact hr.1
  | true => exact netSend_lock (g := { said := es }) hr.1 time

theorem mutexUnlock (h : Inv strict tr s { said := es })
    (hmux : (s.mutexes[mux]?.bind SimMutex.owner) = some c) :
    Returns (mutexUnlock s c mux time) fun s' =>
      Inv strict tr s' { said := es ++ [.reply c .mutexUnlock] } := by
  obtain ⟨m, hm, ho, hlt⟩ := owned hmux
  rw [SyncServer.mutexUnlock, check_pos hlt, ok_bind]
  refine (unlock h hm ho).bind fun r hr => ?_
  exact (notifyOwner (g := { said := es }) hr time).netSend_other rfl

theorem condWait (h : Inv strict tr s { moving := some c, said := es })
    (hcond : cond < s.conds.length) (hmux : (s.mutexes[mux]?.bind SimMutex.owner) = some c)
    (hpass : strict → passed c (tr ++ s.out) = some mux) :
    Returns (condWait s c cond mux time) fun s' =>
      Inv strict tr s' { said := es } := by
  obtain ⟨m, hm, ho, hlt⟩ := owned hmux
  obtain ⟨v, hv⟩ := exists_of_lt hcond
  rw [SyncServer.condWait, check_pos hlt, ok_bind, check_pos hcond, ok_bind]
  refine sat_bind.mpr ((enqueue (g := { said := es }) h time rfl hv hlt hpass).bind
    fun s' hs' => ?_)
  obtain ⟨hM, hC, h'⟩ := hs'
  rw [at_of_getElem (hC ▸ hv), ok_bind]
  refine (unlock h' (hM ▸ hm) ho).mono fun r hr => ?_
  exact notifyOwner (g := { said := es }) hr time

theorem condSignal (h : Inv strict tr s { said := es }) (hcond : cond < s.conds.length)
    (hone : strict → OneMutex s (.condSignal cond time)) :
    Returns (condSignal s c cond time) fun s' =>
      Inv strict tr s' { said := es ++ [.reply c .condSignal] } := by
  obtain ⟨v, hv⟩ := exists_of_lt hcond
  rw [SyncServer.condSignal, check_pos hcond, ok_bind, SimCond.signal, at_of_getElem hv, ok_bind]
  cases hw : v.waiting with
  | nil => exact h.netSend_other rfl
  | cons w ws =>
    have hpark : Inv strict tr (s.setCond cond ⟨eraseBegin (w :: ws)⟩)
        { parked := [w], said := es } := by
      refine h.park rfl hv (fun d => ?_) (fun u hu => ?_) fun hst u hu => ?_
      · simp only [eraseBegin_core, hw, map_cons, tail_cons, count_cons, map_nil,
          count_nil, Nat.zero_add]
      · obtain ⟨u', hu', hm⟩ := eraseBegin_mutex _ u hu
        exact hm ▸ h.bound cond v hv u' (hw ▸ hu')
      · rw [eraseBegin_same (hw ▸ hone hst v hv)] at hu
        simpa [hw, or_comm] using hu
    refine sat_bind.mpr ((wake (g := { said := es }) hpark rfl
      (h.bound cond v hv w (by simp [hw]))).bind fun r hr => ?_)
    refine netSend_other (notifyOwner (g := { said := es }) ?_ time) rfl
    obtain ⟨s', locked⟩ := r
    cases locked <;> exact hr.1

theorem condBroadcast (h : Inv strict tr s { said := es }) (hcond : cond < s.conds.length) :
    Returns (condBroadcast s c cond time) fun s' =>
      Inv strict tr s' { said := es ++ [.reply c .condBroadcast] } := by
  obtain ⟨v, hv⟩ := exists_of_lt hcond
  rw [SyncServer.condBroadcast, check_pos hcond, ok_bind, SimCond.broadcast, at_of_getElem hv,
    ok_bind]
  have hpark : Inv strict tr (s.setCond cond ⟨[]⟩) { parked := v.waiting, said := es } :=
    h.park rfl hv (fun d => by simp) (by simp) (by simp)
  -- the queue is cleared after the loop, which does not look at it
  have hall := wakeAll (g := { said := es }) [] hpark rfl (h.bound cond v hv)
  rw [wakeAll_setCond] at hall
  refine sat_bind.mpr ((sat_map.mp hall).bind fun r hr => ?_)
  exact netSend_other (notifyAll (g := { said := es }) hr time) rfl

end Handlers

/-- A permitted request of a core that is in no queue is handled without an error. -/
theorem handle {r : Request} (h : Inv strict tr s {}) (hout : s.out = []) (hc : waits s c = 0)
    (hp : Permitted s c r) (hone : strict → OneMutex s r) :
    Returns (handle { s with out := [.request c r] } c r) fun s' =>
      Inv strict tr s' { said := .request c r :: (r.reply?.map (Event.reply c)).toList } := by
  have h := h.request hout hc r
  cases r with
  | mutexLock mux time => exact mutexLock h hp fun _ => passed_append_ask (by simp [ask]) tr
  | mutexUnlock mux time => exact mutexUnlock h hp
  | condWait cond mux time =>
    exact condWait h hp.1 hp.2 fun _ => passed_append_ask (by simp [ask]) tr
  | condSignal cond time => exact condSignal h hp hone
  | condBroadcast cond time => exact condBroadcast h hp
  | barrierWait barrier time => exact hp.elim

end Inv

end Graphite.Sync
