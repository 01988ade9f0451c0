import Graphite.Sync.Monitor

/-! # Mutual exclusion, order and answers of the mutex server

The cores wait for the response to a request before they send the next one. In all runs a mutex has
one holder at most, the cores in its queue get it in the order in which they came, a core is stalled
while it is in a queue, and a core that asked for a mutex is told so when it gets it.
-/

namespace Graphite.Sync

open Outcome List

variable {N : ℕ}

/-- The server, and for each core whether it waits for a response. -/
structure State (N : ℕ) where
  server : Server N
  pending : Fin N → Bool

def replied (out : List (Event N)) (c : Fin N) : Bool :=
  out.any fun e => match e with
    | .reply d _ => d = c
    | _ => false

/-- A run starts with free mutexes, empty conditions and one running thread on each core. -/
def monitors (N : ℕ) : System (State N) (Fin N × Request) Fault (Event N) where
  init s := s.server.out = [] ∧ (∀ m ∈ s.server.mutexes, m = {}) ∧ (∀ v ∈ s.server.conds, v = {}) ∧
    (∀ c, s.server.threads.Row c .running) ∧ ∀ c, s.pending c = false
  enabled s a := s.pending a.1 = false ∧ Permitted s.server a.1 a.2
  step s a := do
    let (server, out) ← SyncServer.serve s.server a.1 a.2
    pure (⟨server, fun d => (s.pending d || d = a.1) && !replied out d⟩, out)

instance (s : Server N) (c : Fin N) : DecidablePred (Permitted s c) := fun a => by
  cases a <;> dsimp only [Permitted] <;> infer_instance

instance (s : State N) : DecidablePred ((monitors N).enabled s) := fun a =>
  inferInstanceAs (Decidable (s.pending a.1 = false ∧ Permitted s.server a.1 a.2))

structure RunInv (strict : Prop) (tr : List (Event N)) (s : State N) : Prop where
  inv : Inv strict tr s.server {}
  out : s.server.out = []
  pending : ∀ c, s.pending c = true ↔ waits s.server c ≠ 0

theorem waits_eq_zero {s : Server N} (hm : ∀ m ∈ s.mutexes, m = {}) (hv : ∀ v ∈ s.conds, v = {})
    (c : Fin N) : waits s c = 0 := by
  have h₁ : (s.mutexes.map fun m => m.waiting.count c).sum = 0 :=
    sum_eq_zero fun x hx => by
      obtain ⟨m, hmem, rfl⟩ := mem_map.mp hx
      simp [hm m hmem]
  have h₂ : (s.conds.map fun v => (v.waiting.map CondWaiter.core).count c).sum = 0 :=
    sum_eq_zero fun x hx => by
      obtain ⟨v, hmem, rfl⟩ := mem_map.mp hx
      simp [hv v hmem]
  rw [waits, h₁, h₂]

variable {s : State N}

theorem RunInv.init {strict : Prop} (h : (monitors N).init s) : RunInv strict [] s := by
  obtain ⟨hout, hm, hv, hrow, hp⟩ := h
  have h0 := waits_eq_zero hm hv
  refine ⟨⟨⟨fun c => ?_, fun c => ?_, fun c hc => by cases hc⟩, fun mux m hmux => ?_, ?_, ?_, ?_,
    fun _ => ⟨?_, fun mux m hmux => ?_, ?_, by simp⟩⟩,
    hout, fun c => by simp [hp, h0]⟩
  · simpa [seats, h0] using hrow c
  · simp [seats, h0]
  · obtain rfl := hm m (mem_of_getElem? hmux)
    exact ⟨fun _ => rfl, by simp [hout, holders], by simp [hout]⟩
  · exact ⟨fun c => by simp [hout, seats, h0], by simp [hout]⟩
  · intro cond v hcond w hw
    obtain rfl := hv v (mem_of_getElem? hcond)
    simp at hw
  · simp [hout]
  · intro pre e post hlog
    simp [hout] at hlog
  · simp [hm m (mem_of_getElem? hmux)]
  · intro cond v hcond
    simp [hv v (mem_of_getElem? hcond)]

theorem filterMap_ask (out : List (Event N)) (c : Fin N) :
    out.filterMap (ask c) = (out.filterMap plain).filterMap (ask c) := by
  rw [filterMap_filterMap]
  congr 1
  funext e
  cases e with
  | reply d r => cases r <;> rfl
  | _ => rfl

theorem replied_iff (out : List (Event N)) (c : Fin N) : replied out c = true ↔
    c ∈ out.filterMap lockReply ∨ ∃ r, .reply c r ∈ out.filterMap plain := by
  simp only [replied, any_eq_true, mem_filterMap]
  constructor
  · rintro ⟨e, he, hc⟩
    cases e with
    | reply d r =>
      obtain rfl : d = c := by simpa using hc
      cases r with
      | mutexLock time => exact .inl ⟨_, he, rfl⟩
      | _ => exact .inr ⟨_, _, he, rfl⟩
    | _ => simp at hc
  · rintro (⟨e, he, hc⟩ | ⟨r, e, he, hc⟩)
    · refine ⟨e, he, ?_⟩
      cases e with
      | reply d r => cases r <;> simp_all [lockReply]
      | _ => simp [lockReply] at hc
    · refine ⟨e, he, ?_⟩
      cases e with
      | reply d r => cases r <;> simp_all [plain]
      | _ => simp [plain] at hc

section Said

variable {out : List (Event N)} {c : Fin N} {r : Request}

theorem ask_of_said (h : out.filterMap plain = .request c r :: (r.reply?.map (Event.reply c)).toList)
    (d : Fin N) : (out.filterMap (ask d)).length = if d = c ∧ r.asks = true then 1 else 0 := by
  rw [filterMap_ask, h]
  rcases eq_or_ne d c with rfl | hd
  · cases r <;> simp [Request.reply?, Request.asks, ask, filterMap_cons]
  · cases r <;> simp [Request.reply?, ask, filterMap_cons, hd, hd.symm]

theorem replied_of_said
    (h : out.filterMap plain = .request c r :: (r.reply?.map (Event.reply c)).toList) (d : Fin N) :
    replied out d = true ↔ (out.filterMap lockReply).count d ≠ 0 ∨ d = c ∧ r.reply?.isSome := by
  rw [replied_iff, h, ← count_pos_iff, Nat.pos_iff_ne_zero]
  refine or_congr Iff.rfl ?_
  cases hr : r.reply? with
  | none => simp
  | some x => simp [eq_comm]

end Said

variable {tr : List (Event N)}

theorem RunInv.step {strict : Prop} {a : Fin N × Request}
    (h : RunInv strict tr s) (he : (monitors N).enabled s a)
    (hone : strict → OneMutex s.server a.2) :
    Returns ((monitors N).step s a) fun r => RunInv strict (tr ++ r.2) r.1 := by
  obtain ⟨c, r⟩ := a
  obtain ⟨hpend, hperm⟩ := he
  have hc : waits s.server c = 0 := by
    by_contra hne
    simp [(h.pending c).mpr hne] at hpend
  refine sat_bind.mpr (sat_bind.mpr ((h.inv.handle h.out hc hperm hone).mono fun s' h' => ?_))
  refine ⟨⟨h'.seated, ?_, ?_, h'.bound, rfl, fun hst => ?_⟩, rfl, fun d => ?_⟩
  · simpa using h'.fair
  · simp only [append_nil]
    exact h'.accounts
  · simp only [append_nil]
    exact (h'.own hst).of_eq rfl rfl rfl
  · -- what `d` asked for, got and waits for, before and after the request
    have hask := ask_of_said h'.said d
    have hrep := replied_of_said h'.said d
    have hold := h.inv.accounts.asked d
    have hnew := h'.accounts.asked d
    have honce := h.inv.seated.once d
    have honce' := h'.seated.once d
    rw [h.inv.accounts.told] at hold
    rw [h'.accounts.told] at hnew
    simp only [h.out, append_nil, filterMap_append, length_append, count_append,
      hask, seats, map_nil, count_nil, reduceCtorEq, if_false, Nat.add_zero]
      at hold hnew honce honce'
    have hasks : r.reply?.isSome = !r.asks := by
      cases r <;> first | rfl | exact hperm.elim
    simp only [Bool.and_eq_true, Bool.or_eq_true, decide_eq_true_eq, Bool.not_eq_true',
      ← Bool.not_eq_true, hrep, h.pending d, hasks]
    change _ ↔ waits s' d ≠ 0
    rcases eq_or_ne d c with rfl | hd
    · cases hr : r.asks <;> simp [hr] at hnew ⊢ <;> omega
    · simp only [hd, false_and, if_false, or_false] at hnew ⊢
      omega

/-! ## The mutex server -/

theorem run_inv {P : Fin N × Request → Prop} (h : (monitors N).Run P tr s) : RunInv False tr s :=
  h.invariant (fun _ => RunInv.init) fun _ _ _ hi _ he => hi.step he False.elim

/-- A machine with free mutexes and empty conditions, in which every core runs one thread. -/
def idle (N mutexes conds : ℕ) : State N where
  server := {
    mutexes := List.replicate mutexes {}
    conds := List.replicate conds {}
    barriers := []
    threads := ⟨fun _ => [.running], fun _ => none⟩ }
  pending := fun _ => false

theorem idle_init (N mutexes conds : ℕ) : (monitors N).init (idle N mutexes conds) := by
  refine ⟨rfl, fun m hm => (mem_replicate.mp hm).2, fun v hv => (mem_replicate.mp hv).2,
    fun c => ⟨[], [], rfl, by simp, fun h => by cases h⟩, fun c => rfl⟩

end Graphite.Sync
