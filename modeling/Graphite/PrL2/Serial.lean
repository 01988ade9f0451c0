import Graphite.Library.Server
import Graphite.PrL2.Frame
import Graphite.PrL2.Views

/-! # The request queues of the directories

A directory controller is a server for each line: it keeps the requests for the line in a queue, works
on the one at the front and answers it. What it does is explained by a log of arrivals, messages and
completed requests; the log of a run is made of the logs of its steps.
-/

namespace Graphite.PrL2

open Outcome Server Function List Directory

variable {A : Type} [DecidableEq A] {N : ℕ} {R D : Type}

/-- A message and the tile it is sent to, or a request that arrives or is completed. -/
abbrev DirEvent (A : Type) (N : ℕ) := Server.Event (ShmemMsg A N) (Fin N × ShmemMsg A N)

def eventAddress : DirEvent A N → A
  | .arrive r | .finish r => r.address
  | .send s => s.2.address

def logOf (a : A) (L : List (DirEvent A N)) : List (DirEvent A N) :=
  L.filter fun e => eventAddress e = a

def sentTo (u : Fin N) (L : List (DirEvent A N)) : List (ShmemMsg A N) :=
  ((sent L).filter fun s => s.1 = u).map Prod.snd

/-- EX_REQ and SH_REQ want a reply. A message is sent for the request whose requester it carries, and the
reply goes to the requester. -/
def service : Service (ShmemMsg A N) (Fin N × ShmemMsg A N) where
  wants r := (requestOf r).isSome
  isAnswer s := (grantOf s.2).isSome
  serves r s := s.2.address = r.address ∧ s.2.requester = r.requester ∧ s.2.modeled = r.modeled ∧
    ((grantOf s.2).isSome → s.1 = r.requester ∧ grantOf s.2 = requestOf r)

section Explains

variable (msg : R → ShmemMsg A N)

def requests (x : Tile A N (Home A N R D)) (a : A) : List (ShmemMsg A N) := (x.home.reqQueue a).map msg

/-- Log `L` explains how a controller has got from `x` to `x'`; `f` and `f'` tell the lines whose front
request has been answered, and `new` are the requests of the clients that have arrived. -/
structure Explains (L : List (DirEvent A N)) (new : List (ShmemMsg A N)) (f : A → Bool)
    (x : Tile A N (Home A N R D)) (f' : A → Bool) (x' : Tile A N (Home A N R D)) : Prop where
  sends : ∀ u, x'.out u = x.out u ++ sentTo u L
  serves : ∀ a, Runs service ⟨requests msg x a, f a⟩ (logOf a L) ⟨requests msg x' a, f' a⟩
  arrivals : (arrivals L).filter service.wants = new

def Did (new : List (ShmemMsg A N)) (f : A → Bool) (x : Tile A N (Home A N R D)) (f' : A → Bool)
    (x' : Tile A N (Home A N R D)) : Prop := ∃ L, Explains msg L new f x f' x'

variable {msg} {x x' x'' : Tile A N (Home A N R D)} {f f' f'' : A → Bool} {m r : ShmemMsg A N} {a : A}
  {new new' q : List (ShmemMsg A N)} {u : Fin N} {L L' : List (DirEvent A N)} {rq : R}

theorem logOf_append : logOf a (L ++ L') = logOf a L ++ logOf a L' := by simp [logOf]

omit [DecidableEq A] in
theorem sentTo_append : sentTo u (L ++ L') = sentTo u L ++ sentTo u L' := by simp [sentTo, sent]

theorem Did.refl (ho : x'.out = x.out) (hq : ∀ a, requests msg x' a = requests msg x a) :
    Did msg [] f x f x' :=
  ⟨[], fun u => by simp [ho, sentTo, sent], fun a => by rw [hq]; exact .nil, rfl⟩

theorem Did.trans (h : Did msg new f x f' x') (h' : Did msg new' f' x' f'' x'') :
    Did msg (new ++ new') f x f'' x'' := by
  obtain ⟨L, h⟩ := h
  obtain ⟨L', h'⟩ := h'
  refine ⟨L ++ L', fun u => ?_, fun a => ?_, ?_⟩
  · rw [h'.sends, h.sends, sentTo_append, append_assoc]
  · rw [logOf_append]
    exact (h.serves a).append (h'.serves a)
  · rw [← h.arrivals, ← h'.arrivals]
    simp [Server.arrivals]

theorem Did.trans' (h : Did msg [] f x f' x') (h' : Did msg [] f' x' f'' x'') :
    Did msg [] f x f'' x'' := h.trans h'

theorem did_of_step {e : DirEvent A N} {b : Bool} (he : eventAddress e = a)
    (hs : ∀ u, x'.out u = x.out u ++ sentTo u [e])
    (hq : ∀ c ≠ a, requests msg x' c = requests msg x c)
    (hstep : Step service ⟨requests msg x a, f a⟩ e ⟨requests msg x' a, b⟩) :
    Did msg ((arrivals [e]).filter service.wants) f x (update f a b) x' := by
  refine ⟨[e], hs, fun c => ?_, rfl⟩
  by_cases hc : c = a
  · subst hc
    have : logOf c [e] = [e] := by simp [logOf, he]
    rw [this, update_self]
    exact .single hstep
  · have : logOf c [e] = [] := by simp [logOf, he, Ne.symm hc]
    rw [this, update_of_ne hc, hq c hc]
    exact .nil

theorem requests_enqueue {c : A} : requests msg (enqueue x a rq) c =
    if c = a then requests msg x c ++ [msg rq] else requests msg x c := by
  by_cases hc : c = a <;> simp [requests, enqueue, hc]

theorem requests_dequeue {c : A} : requests msg (dequeue x a) c =
    if c = a then (requests msg x c).tail else requests msg x c := by
  by_cases hc : c = a <;> simp [requests, dequeue, hc, map_tail]

theorem did_enqueue (rq : R) (ha : (msg rq).address = a) :
    Did msg ([msg rq].filter service.wants) f x f (enqueue x a rq) := by
  have hstep : Step service ⟨requests msg x a, f a⟩ (.arrive (msg rq))
      ⟨requests msg (enqueue x a rq) a, f a⟩ := by
    rw [requests_enqueue, if_pos rfl]
    exact .arrive _
  have := did_of_step (f := f) (e := .arrive (msg rq)) ha (fun u => by simp [enqueue, sentTo, sent])
    (fun c hc => by rw [requests_enqueue, if_neg hc]) hstep
  simpa [Server.arrivals] using this

theorem did_dequeue (hq : requests msg x a = r :: q) (ha : r.address = a)
    (hb : service.wants r = true → f a = true) (hf : update f a false = f') :
    Did msg [] f x f' (dequeue x a) := by
  subst hf
  refine did_of_step (e := .finish r) ha (fun u => by simp [dequeue, sentTo, sent])
    (fun c hc => by rw [requests_dequeue, if_neg hc]) ?_
  rw [requests_dequeue, if_pos rfl, hq]
  exact .finish hb

/-- Message `m` is sent for request `r`. -/
structure Serves (r m : ShmemMsg A N) : Prop where
  address : m.address = r.address
  requester : m.requester = r.requester
  modeled : m.modeled = r.modeled

omit [DecidableEq A] in
theorem out_send (w : Fin N) : (x.send u m).out w = x.out w ++ sentTo w [.send (u, m)] := by
  by_cases hw : w = u
  · subst hw; simp [Tile.send, sentTo, sent]
  · simp [Tile.send, sentTo, sent, hw, Ne.symm hw]

/-- No front request has been answered but is still queued. -/
abbrev calm : A → Bool := fun _ => false

/-- A controller has sent demands at most. -/
structure Demanded (msg : R → ShmemMsg A N) (x x' : Tile A N (Home A N R D)) : Prop where
  queue : ∀ a, requests msg x' a = requests msg x a
  did : Did msg [] calm x calm x'

theorem Demanded.trans (h : Demanded msg x x') (h' : Demanded msg x' x'') : Demanded msg x x'' :=
  ⟨fun a => (h'.queue a).trans (h.queue a), h.did.trans' h'.did⟩

theorem Demanded.of_home (hq : ∀ a, requests msg x' a = requests msg x a) (ho : x'.out = x.out) :
    Demanded msg x x' := ⟨hq, .refl ho hq⟩

section
omit [DecidableEq A]

theorem foldl_send_out (us : List (Fin N)) (w : Fin N) :
    (us.foldl (fun x u => x.send u m) x).out w = x.out w ++ replicate (us.count w) m := by
  induction us generalizing x with
  | nil => simp
  | cons u us ih =>
    rw [foldl_cons, ih]
    by_cases hw : u = w
    · subst hw; simp [Tile.send, replicate_succ]
    · simp [Tile.send, hw, Ne.symm hw]

theorem foldl_send_eq (us : List (Fin N)) :
    us.foldl (fun x u => x.send u m) x = { x with out := (us.foldl (fun x u => x.send u m) x).out } := by
  induction us generalizing x with
  | nil => rfl
  | cons u us ih => rw [foldl_cons, ih]; rfl

theorem broadcast_eq : x.broadcast m = (finRange N).foldl (fun x u => x.send u m) x := by
  rw [foldl_send_eq, Tile.broadcast]
  congr 1
  funext w
  rw [foldl_send_out, count_eq_one_of_mem (nodup_finRange N) (mem_finRange w)]
  rfl

end

section

variable (hq : requests msg x r.address = r :: q) (hm : Serves r m) (hg : grantOf m = none)
include hq hm hg

theorem Demanded.send : Demanded msg x (x.send u m) := by
  have hstep : Step service ⟨requests msg x r.address, false⟩ (.send (u, m))
      ⟨requests msg (x.send u m) r.address, false⟩ := by
    rw [show requests msg (x.send u m) r.address = _ from hq, hq]
    exact .demand ⟨hm.address, hm.requester, hm.modeled, by simp [hg]⟩ (by simp [service, hg])
  have := did_of_step (e := .send (u, m)) (f := calm) (a := r.address) hm.address out_send
    (fun _ _ => rfl) hstep
  exact ⟨fun _ => rfl, by rwa [update_eq_self] at this⟩

theorem Demanded.sends (us : List (Fin N)) :
    Demanded msg x (us.foldl (fun x u => x.send u m) x) := by
  induction us generalizing x with
  | nil => exact .of_home (fun _ => rfl) rfl
  | cons u us ih => exact (Demanded.send hq hm hg).trans (ih hq)

theorem Demanded.broadcast : Demanded msg x (x.broadcast m) := by
  rw [broadcast_eq]
  exact .sends hq hm hg _

theorem sendId_demanded {id : ℤ} : Ensures (x.sendId id m) (Demanded msg x) := by
  unfold Tile.sendId
  split
  · exact .send hq hm hg
  · trivial

end

theorem sendIds_demanded (hm : Serves r m) (hg : grantOf m = none) (ids : List ℤ)
    (hq : requests msg x r.address = r :: q) :
    Ensures (ids.foldlM (fun x id => x.sendId id m) x) (Demanded msg x) := by
  induction ids generalizing x with
  | nil => exact .of_home (fun _ => rfl) rfl
  | cons id ids ih =>
    rw [foldlM_cons]
    refine (sendId_demanded hq hm hg).bind fun x' hx => ?_
    exact (ih ((hx.queue _).trans hq)).mono fun x'' hx' => hx.trans hx'

def Addressed (msg : R → ShmemMsg A N) (x : Tile A N (Home A N R D)) : Prop :=
  ∀ a, ∀ r ∈ requests msg x a, r.address = a

theorem Addressed.enqueue (h : Addressed msg x) (ha : (msg rq).address = a) :
    Addressed msg (enqueue x a rq) := by
  intro c r hr
  rw [requests_enqueue] at hr
  split at hr
  · next hc =>
    rcases mem_append.mp hr with hr | hr
    · exact h c r hr
    · rw [mem_singleton.mp hr, ha, hc]
  · exact h c r hr

theorem Addressed.dequeue (h : Addressed msg x) : Addressed msg (dequeue x a) := by
  intro c r hr
  rw [requests_dequeue] at hr
  split at hr
  · exact h c r (mem_of_mem_tail hr)
  · exact h c r hr

omit [DecidableEq A] in
theorem Addressed.front {qs : List R} (h : Addressed msg x) (hq : x.home.reqQueue a = rq :: qs) :
    (msg rq).address = a ∧ requests msg x (msg rq).address = msg rq :: qs.map msg := by
  have hq' : requests msg x a = msg rq :: qs.map msg := by simp [requests, hq]
  have ha := h a (msg rq) (by rw [hq']; simp)
  exact ⟨ha, by rw [ha]; exact hq'⟩

/-- Request `r`, at the front, has been worked on; the flag says that it is complete. -/
structure Worked (msg : R → ShmemMsg A N) (r : ShmemMsg A N) (x : Tile A N (Home A N R D))
    (y : Tile A N (Home A N R D) × Bool) : Prop where
  addressed : Addressed msg y.1
  queue : requests msg y.1 r.address = requests msg x r.address
  did : Did msg [] calm x (Function.update calm r.address (y.2 && service.wants r)) y.1

section

variable (h : Demanded msg x x') (ha : Addressed msg x)
include h ha

theorem Demanded.addressed : Addressed msg x' := by
  intro a r hr
  rw [h.queue] at hr
  exact ha a r hr

theorem Demanded.worked {b : Bool}
    (hb : (b && service.wants r) = false) : Worked msg r x (x', b) where
  addressed := h.addressed ha
  queue := h.queue _
  did := by
    rw [hb, update_eq_self]
    exact h.did

theorem Demanded.answer
    (hq : requests msg x r.address = r :: q) (hm : Serves r m) (hr : (requestOf r).isSome)
    (hg : grantOf m = requestOf r) : Worked msg r x (x'.send r.requester m, true) where
  addressed := h.addressed ha
  queue := h.queue _
  did := by
    have hq' := (h.queue _).trans hq
    have hstep : Step service ⟨requests msg x' r.address, false⟩ (.send (r.requester, m))
        ⟨requests msg (x'.send r.requester m) r.address, true⟩ := by
      rw [show requests msg (x'.send r.requester m) r.address = _ from hq', hq']
      exact .answer ⟨hm.address, hm.requester, hm.modeled, fun _ => ⟨rfl, hg⟩⟩
        (by simpa [service, hg] using hr) hr
    have := did_of_step (e := .send (r.requester, m)) (f := calm) (a := r.address) hm.address out_send
      (fun _ _ => rfl) hstep
    rw [show (true && service.wants r) = true by simpa [service] using hr]
    exact h.did.trans' this

end

variable {y : Tile A N (Home A N R D) × Bool}

theorem Worked.after (h : Worked msg r x' y)
    (hq : requests msg x' r.address = requests msg x r.address) (hd : Did msg [] calm x calm x') :
    Worked msg r x y := ⟨h.addressed, h.queue.trans hq, hd.trans' h.did⟩

/-- The tile with which the work on request `r` goes on once its line has an entry. -/
structure Prepared (msg : R → ShmemMsg A N) (r : ShmemMsg A N) (x x' : Tile A N (Home A N R D)) :
    Prop where
  addressed : Addressed msg x'
  queue : requests msg x' r.address = requests msg x r.address
  did : Did msg [] calm x calm x'

theorem Prepared.after (h : Prepared msg r x' x'') (hx : Demanded msg x x') : Prepared msg r x x'' :=
  ⟨h.addressed, h.queue.trans (hx.queue _), hx.did.trans' h.did⟩

/-- A request `rq` for another line `b`, whose queue is empty, is enqueued and worked on with demands;
if it is complete it is dequeued. -/
theorem Demanded.prepared {b : A} (done : Bool)
    (hd : Demanded msg (enqueue x b rq) x') (ha : Addressed msg x)
    (hb : (msg rq).address = b) (hw : service.wants (msg rq) = false) (hq : requests msg x b = [])
    (hr : requests msg x r.address ≠ []) :
    Prepared msg r x (if done then dequeue x' b else x') := by
  have hne : r.address ≠ b := fun he => hr (he ▸ hq)
  have hq₁ : ∀ c, requests msg x' c = if c = b then [msg rq] else requests msg x c := by
    intro c
    rw [hd.queue, requests_enqueue]
    split
    · next hc => rw [hc, hq]; rfl
    · rfl
  have hdid : Did msg [] calm x calm x' := by
    have := did_enqueue (f := calm) (x := x) rq hb
    rw [filter_cons_of_neg (by simp [hw]), filter_nil] at this
    exact this.trans' hd.did
  cases done with
  | false =>
    refine ⟨fun c r' hr' => ?_, by rw [if_neg (by simp), hq₁, if_neg hne], hdid⟩
    rw [if_neg (by simp), hq₁] at hr'
    split at hr'
    · next hc => rw [mem_singleton.mp hr', hb, hc]
    · exact ha c r' hr'
  | true =>
    have hq₂ : ∀ c, requests msg (dequeue x' b) c = if c = b then [] else requests msg x c := by
      intro c
      rw [requests_dequeue, hq₁]
      split <;> rfl
    refine ⟨fun c r' hr' => ?_, by rw [if_pos rfl, hq₂, if_neg hne], ?_⟩
    · rw [if_pos rfl, hq₂] at hr'
      split at hr'
      · cases hr'
      · exact ha c r' hr'
    · refine hdid.trans' (did_dequeue (r := msg rq) (q := []) (by rw [hq₁, if_pos rfl]) hb (by simp [hw]) ?_)
      exact update_eq_self b calm

/-- A controller has gone from `x` to `x'`, with no answered request left in a queue. -/
def Handles (msg : R → ShmemMsg A N) (new : List (ShmemMsg A N)) (x x' : Tile A N (Home A N R D)) : Prop :=
  Addressed msg x' ∧ Did msg new calm x calm x'

theorem Demanded.handles (h : Demanded msg x x') (ha : Addressed msg x) : Handles msg [] x x' :=
  ⟨h.addressed ha, h.did⟩

theorem Handles.trans (h : Handles msg [] x x') (h' : Handles msg [] x' x'') : Handles msg [] x x'' :=
  ⟨h'.1, h.2.trans' h'.2⟩

theorem Handles.after (h : Handles msg [] x' x'') (hx : Demanded msg x x') : Handles msg [] x x'' :=
  ⟨h.1, hx.did.trans' h.2⟩

theorem Worked.waits (h : Worked msg r x y) (hy : ¬ y.2 = true) : Handles msg [] x y.1 := by
  have := h.did
  rw [show (y.2 && service.wants r) = false by simp [hy], update_eq_self] at this
  exact ⟨h.addressed, this⟩

theorem Worked.dequeued (h : Worked msg r x y) (hq : requests msg x r.address = r :: q) (hy : y.2 = true) :
    Handles msg [] x (dequeue y.1 r.address) :=
  ⟨h.addressed.dequeue, h.did.trans'
    (did_dequeue (h.queue.trans hq) rfl (fun hw => by simp [hy, hw]) (by simp))⟩

theorem putDataToDram_demanded (msg : R → ShmemMsg A N) {d : Option LineData} :
    Ensures (putDataToDram x a d) (Demanded msg x) := by
  unfold putDataToDram
  refine ensures_bind fun _ => ?_
  split
  · trivial
  · exact .of_home (fun _ => rfl) rfl

section
omit [DecidableEq A]

theorem wants_eq_false (h : r.type ≠ .exReq) (h' : r.type ≠ .shReq) : service.wants r = false := by
  simp [service, requestOf]

theorem filter_wants (h : r.type ≠ .exReq) (h' : r.type ≠ .shReq) : [r].filter service.wants = [] :=
  filter_cons_of_neg (by simp [wants_eq_false h h'])

end

/-- A request has arrived; it is served now if there is no other one for its line. -/
theorem handles_enqueue (rq : R) (ha : Addressed msg x) (hrq : msg rq = m)
    {y : Except Fault (Tile A N (Home A N R D))}
    (hy : Addressed msg (enqueue x m.address rq) →
      requests msg (enqueue x m.address rq) m.address = [m] →
      Ensures y (Handles msg [] (enqueue x m.address rq))) :
    Ensures (if ((enqueue x m.address rq).home.reqQueue m.address).length = 1 then y
      else pure (enqueue x m.address rq)) (Handles msg ([m].filter service.wants) x) := by
  have ha' : Addressed msg (enqueue x m.address rq) := ha.enqueue (by rw [hrq])
  have hdid : Did msg ([m].filter service.wants) calm x calm (enqueue x m.address rq) :=
    hrq ▸ did_enqueue rq (by rw [hrq])
  split
  · next hlen =>
    refine (hy ha' ?_).mono fun x' hx => ⟨hx.1, by simpa using hdid.trans hx.2⟩
    have hnil : x.home.reqQueue m.address = [] := by simpa [enqueue] using hlen
    rw [requests_enqueue, if_pos rfl, requests, hnil, hrq]
    rfl
  · exact ⟨ha', hdid⟩

end Explains

/-! ### Runs -/

section History

variable (msg : R → ShmemMsg A N) (p : Protocol) (cfg : Config A N)
  (handle : Fin N → Fin N → Choice → ShmemMsg A N → Tile A N (Home A N R D) →
    Except Fault (Tile A N (Home A N R D))) (init : Fin N → Home A N R D → Prop)

/-- The directories of a protocol serve their requests in order, and its caches leave them alone. -/
structure ServesInOrder : Prop where
  start {t : Fin N} {h : Home A N R D} : init t h → ∀ a, h.reqQueue a = []
  directory {t src : Fin N} {ch : Choice} {m : ShmemMsg A N} {x : Tile A N (Home A N R D)} :
    m.receiverComponent = .dramDirectory → Addressed msg x →
    Ensures (handle t src ch m x) (Handles msg ([m].filter service.wants) x)
  cache {t src : Fin N} {ch : Choice} {m : ShmemMsg A N} {x : Tile A N (Home A N R D)} :
    m.receiverComponent ≠ .dramDirectory →
    Ensures (handle t src ch m x) fun x' => x'.home = x.home

/-- Action `act` delivers message `m` to the directory of tile `dst`. -/
def ToDirectory (s : State A N (Home A N R D)) (act : Action A N) (dst : Fin N) (m : ShmemMsg A N) :
    Prop :=
  ∃ src ch ms, act = .deliver src dst ch ∧ (s src).out dst = m :: ms ∧
    m.receiverComponent = .dramDirectory

/-- `History P tr L s`: a run with trace `tr` ends in `s`, and log `L v` explains what the directory of
tile `v` did in it. -/
inductive History (P : Action A N → Prop) :
    List (Event A N) → (Fin N → List (DirEvent A N)) → State A N (Home A N R D) → Prop
  | start {s : State A N (Home A N R D)} :
      (system p cfg handle init).init s → History P [] (fun _ => []) s
  | directory {tr : List (Event A N)} {L : Fin N → List (DirEvent A N)} {l : List (DirEvent A N)}
      {s s' : State A N (Home A N R D)} {src dst : Fin N} {ch : Choice} {m : ShmemMsg A N}
      {ms : List (ShmemMsg A N)} {evs : List (Event A N)} :
      History P tr L s → P (.deliver src dst ch) → enabled cfg s (.deliver src dst ch) →
      step p cfg handle s (.deliver src dst ch) = .ok (s', evs) → (s src).out dst = m :: ms →
      m.receiverComponent = .dramDirectory →
      Explains msg l ([m].filter service.wants) calm (s.pop src dst dst) calm (s' dst) →
      History P (tr ++ evs) (Function.update L dst (L dst ++ l)) s'
  | cache {tr : List (Event A N)} {L : Fin N → List (DirEvent A N)} {act : Action A N}
      {s s' : State A N (Home A N R D)} {evs : List (Event A N)} :
      History P tr L s → P act → enabled cfg s act → step p cfg handle s act = .ok (s', evs) →
      (∀ dst m, ¬ ToDirectory s act dst m) → History P (tr ++ evs) L s'

variable {msg p cfg handle init} {P : Action A N → Prop} {tr : List (Event A N)}
  {L : Fin N → List (DirEvent A N)} {s s' : State A N (Home A N R D)} {evs : List (Event A N)}

/-- The log of a directory and its queues. -/
structure Kept (msg : R → ShmemMsg A N) (L : List (DirEvent A N)) (x : Tile A N (Home A N R D)) :
    Prop where
  addressed : Addressed msg x
  serves : ∀ a, Runs service ⟨[], false⟩ (logOf a L) ⟨requests msg x a, false⟩

theorem Kept.congr {l : List (DirEvent A N)} {x x' : Tile A N (Home A N R D)} (h : Kept msg l x)
    (hh : x'.home = x.home) : Kept msg l x' := by
  have hq : requests msg x' = requests msg x := by funext a; rw [requests, hh]; rfl
  exact ⟨by rw [Addressed, hq]; exact h.addressed, by rw [hq]; exact h.serves⟩

theorem home_of_cache (hS : ServesInOrder msg handle init) {act : Action A N} (hs : step p cfg handle s act = .ok (s', evs))
    (hno : ∀ dst m, ¬ ToDirectory s act dst m) (v : Fin N) : (s' v).home = (s v).home := by
  have hupd : ∀ {t : Fin N} {x : Tile A N (Home A N R D)}, x.home = (s t).home →
      (update s t x v).home = (s v).home := by
    intro t x hx
    by_cases hv : v = t
    · subst hv; simpa using hx
    · simp [hv]
  have hgo : Ensures (step p cfg handle s act) fun r => (r.1 v).home = (s v).home := by
    cases act with
    | access t acc ch => exact L1.processMemOpFromCore_home.bind fun y hy => hupd hy
    | resume t ch =>
      unfold step
      dsimp only
      split
      · exact L1.processMemOpFromCore_home.bind fun y hy => hupd hy
      · rfl
    | deliver src dst ch =>
      unfold step
      dsimp only
      split
      · rfl
      · next m ms hm =>
        have hr : m.receiverComponent ≠ .dramDirectory := fun hr => hno dst m ⟨src, ch, ms, rfl, hm, hr⟩
        refine (hS.cache hr).bind fun x hx => ?_
        rw [s.pop_home] at hx
        by_cases hv : v = dst
        · subst hv; simpa using hx
        · simpa [hv] using s.pop_home src dst v
  exact hgo.of_ok hs

theorem step_deliver {src dst : Fin N} {ch : Choice} {m : ShmemMsg A N} {ms : List (ShmemMsg A N)} (hm : (s src).out dst = m :: ms)
    (hs : step p cfg handle s (.deliver src dst ch) = .ok (s', evs)) :
    handle dst src ch m (s.pop src dst dst) = .ok (s' dst) ∧
      ∀ v ≠ dst, (s' v).home = (s v).home := by
  simp only [step, hm] at hs
  cases hh : handle dst src ch m (s.pop src dst dst) with
  | error e => simp [hh, bind, Except.bind] at hs
  | ok x =>
    rw [hh, ok_bind] at hs
    obtain ⟨rfl, -⟩ := Prod.mk.inj (Except.ok.inj hs)
    exact ⟨by simp, fun v hv => by simpa [hv] using s.pop_home src dst v⟩

omit [DecidableEq A] in
theorem requests_pop {src dst u : Fin N} : requests msg (s.pop src dst u) = requests msg (s u) := by
  funext a
  rw [requests, s.pop_home]
  rfl

theorem History.kept (hS : ServesInOrder msg handle init) (h : History msg p cfg handle init P tr L s)
    (v : Fin N) : Kept msg (L v) (s v) := by
  induction h with
  | @start s hs =>
    have hq : ∀ a, requests msg (s v) a = [] := fun a => by
      rw [requests, hS.start (hs v).1 a]
      rfl
    exact ⟨fun a r hr => by simp [hq] at hr, fun a => by rw [hq]; exact .nil⟩
  | @directory tr L l s s' src dst ch m ms evs _ _ _ hstep hm hr hex ih =>
    obtain ⟨hh, hother⟩ := step_deliver hm hstep
    by_cases hv : v = dst
    · subst hv
      have ha : Addressed msg (s.pop src v v) := by rw [Addressed, requests_pop]; exact ih.addressed
      refine ⟨((hS.directory hr ha).of_ok hh).1, fun a => ?_⟩
      rw [update_self, logOf_append]
      have := hex.serves a
      rw [requests_pop] at this
      exact (ih.serves a).append this
    · rw [update_of_ne hv]
      exact ih.congr (hother v hv)
  | cache _ _ _ hstep hno ih => exact ih.congr (home_of_cache hS hstep hno v)

theorem exists_history (hS : ServesInOrder msg handle init)
    (h : (system p cfg handle init).Run P tr s) : ∃ L, History msg p cfg handle init P tr L s := by
  induction h with
  | start hs => exact ⟨_, .start hs⟩
  | @step tr s s' act evs _ hP hen hstep ih =>
    have hstep : step p cfg handle s act = .ok (s', evs) := hstep
    obtain ⟨L, hL⟩ := ih
    by_cases hd : ∃ dst m, ToDirectory s act dst m
    · obtain ⟨dst, m, src, ch, ms, rfl, hm, hr⟩ := hd
      have ha : Addressed msg (s.pop src dst dst) := by
        rw [Addressed, requests_pop]
        exact (hL.kept hS dst).addressed
      obtain ⟨-, l, hl⟩ := (hS.directory hr ha).of_ok (step_deliver hm hstep).1
      exact ⟨_, hL.directory hP hen hstep hm hr hl⟩
    · exact ⟨L, hL.cache hP hen hstep fun dst m hd' => hd ⟨dst, m, hd'⟩⟩

/-- The requests for a line are served one at a time: they are completed in the order in which they
arrive, messages are sent for the one at the front only, and each completed EX_REQ or SH_REQ has got one
reply, sent to its requester. -/
structure Serialized (l : List (DirEvent A N)) (q : List (ShmemMsg A N)) : Prop where
  order : arrivals l = finished l ++ q
  front : Runs service ⟨[], false⟩ l ⟨q, false⟩
  replies : List.Forall₂ service.serves ((finished l).filter service.wants)
    ((sent l).filter service.isAnswer)

theorem History.serialized (hS : ServesInOrder msg handle init)
    (h : History msg p cfg handle init P tr L s) (v : Fin N) (a : A) :
    Serialized (logOf a (L v)) (requests msg (s v) a) := by
  have hr := (h.kept hS v).serves a
  exact ⟨by simpa using hr.arrivals_eq, hr, by simpa [State.current] using hr.answers⟩

variable (msg p cfg handle init)

/-- Every run has a history, and in every history the requests of each line are served one at a time. -/
def RequestsSerialized : Prop :=
  (∀ P tr s, (system p cfg handle init).Run P tr s → ∃ L, History msg p cfg handle init P tr L s) ∧
    ∀ P tr L s, History msg p cfg handle init P tr L s → ∀ v a,
      Serialized (logOf a (L v)) (requests msg (s v) a)

variable {msg p cfg handle init}

theorem ServesInOrder.requestsSerialized (hS : ServesInOrder msg handle init) :
    RequestsSerialized msg p cfg handle init :=
  ⟨fun _ _ _ h => exists_history hS h, fun _ _ _ _ h => h.serialized hS⟩

end History

end Graphite.PrL2
