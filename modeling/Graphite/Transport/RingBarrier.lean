import Graphite.Library.Outcome
import Mathlib.Data.List.Count
import Mathlib.Logic.Function.Basic

/-! # The barrier of the socket transport

A barrier takes two trips of a message around the ring of the processes: the first blocks them until
all have arrived, the second wakes them. The messages carry nothing, so a process only counts them, in
a semaphore that its update thread signals.
-/

namespace Graphite.Transport

open Outcome Function

/-- The tag of a message. All others are put into the buffer lists and do not concern the barrier.
-/
inductive Tag
  | barrier | data
  deriving DecidableEq, Repr

/-- Where a process is in `barrier`. -/
inductive Pc
  | outside | waitFirst | sendFirst | waitSecond | sendSecond | leaving
  deriving DecidableEq, Repr

inductive Fault
  | unexpectedProcess
  deriving DecidableEq, Repr

/-- A process enters or leaves the barrier, sends a barrier message, or gets past the semaphore. -/
inductive Event (n : ℕ)
  | enter (p : Fin n)
  | send (p : Fin n)
  | take (p : Fin n)
  | leave (p : Fin n)
  deriving DecidableEq, Repr

variable {n : ℕ}

/-- `sockets src dst` holds what `src` has sent to `dst` and the update thread of `dst` has not
read. -/
structure State (n : ℕ) where
  pc : Fin n → Pc
  sem : Fin n → ℕ
  sockets : Fin n → Fin n → List Tag

/-- The process that `p` sends barrier messages to. -/
def next (p : Fin n) : Fin n := ⟨(p + 1) % n, Nat.mod_lt _ p.pos⟩

/-- The process that `p` accepts barrier messages from. -/
def prev (p : Fin n) : Fin n := ⟨(p + n - 1) % n, Nat.mod_lt _ p.pos⟩

namespace State

variable (s : State n)

def setPc (p : Fin n) (pc : Pc) : State n := { s with pc := update s.pc p pc }

def signal (p : Fin n) : State n := { s with sem := update s.sem p (s.sem p + 1) }

def wait (p : Fin n) : State n := { s with sem := update s.sem p (s.sem p - 1) }

def setSocket (src dst : Fin n) (l : List Tag) : State n :=
  { s with sockets := update s.sockets src (update (s.sockets src) dst l) }

def send (src dst : Fin n) (tag : Tag) : State n :=
  s.setSocket src dst (s.sockets src dst ++ [tag])

end State

/-- The next step of process `p` in `barrier`. -/
def barrier (s : State n) (p : Fin n) : State n × List (Event n) :=
  match s.pc p with
  | .outside => (s.setPc p (if (p : ℕ) ≠ 0 then .waitFirst else .sendFirst), [.enter p])
  | .waitFirst => ((s.wait p).setPc p .sendFirst, [.take p])
  | .sendFirst => ((s.send p (next p) .barrier).setPc p .waitSecond, [.send p])
  | .waitSecond =>
    ((s.wait p).setPc p (if (p : ℕ) ≠ n - 1 then .sendSecond else .leaving), [.take p])
  | .sendSecond => ((s.send p (next p) .barrier).setPc p .leaving, [.send p])
  | .leaving => (s.setPc p .outside, [.leave p])

/-- The update thread of `dst` reads one message from the socket of `src`. -/
def updateBufferLists (s : State n) (src dst : Fin n) : Except Fault (State n) :=
  match s.sockets src dst with
  | [] => pure s
  | .barrier :: rest => do
    let s := (s.setSocket src dst rest).signal dst
    check (src = prev dst) .unexpectedProcess
    pure s
  | .data :: rest => pure (s.setSocket src dst rest)

inductive Action (n : ℕ)
  | run (p : Fin n)
  | post (src dst : Fin n)
  | update (src dst : Fin n)

def Ready (s : State n) (p : Fin n) : Prop :=
  s.pc p = .waitFirst ∨ s.pc p = .waitSecond → 0 < s.sem p
deriving Decidable

/-- The processes run through barriers, and send each other other messages as well. -/
def ring (n : ℕ) : System (State n) (Action n) Fault (Event n) where
  init s := ∀ p, s.pc p = .outside ∧ s.sem p = 0 ∧ ∀ q, s.sockets p q = []
  enabled s
    | .run p => Ready s p
    | .post _ _ => True
    | .update src dst => s.sockets src dst ≠ []
  step s
    | .run p => pure (barrier s p)
    | .post src dst => pure (s.send src dst .data, [])
    | .update src dst => do
      let s ← updateBufferLists s src dst
      pure (s, [])

instance (s : State n) : DecidablePred ((ring n).enabled s) := fun a => by
  cases a <;> dsimp only [ring] <;> infer_instance

/-! ## The ring -/

theorem prev_next (p : Fin n) : prev (next p) = p := by
  have hp := p.isLt
  apply Fin.ext
  simp only [prev, next]
  rcases Nat.lt_or_ge (p + 1) n with h | h
  · rw [Nat.mod_eq_of_lt h, show (p : ℕ) + 1 + n - 1 = p + n by omega, Nat.add_mod_right,
      Nat.mod_eq_of_lt hp]
  · rw [show (p : ℕ) + 1 = n by omega, Nat.mod_self, Nat.zero_add, Nat.mod_eq_of_lt (by omega)]
    omega

theorem prev_of_pos {p : Fin n} (h : (p : ℕ) ≠ 0) : (prev p : ℕ) = p - 1 := by
  have hp := p.isLt
  simp only [prev]
  rw [show (p : ℕ) + n - 1 = (p - 1) + n by omega, Nat.add_mod_right, Nat.mod_eq_of_lt (by omega)]

theorem prev_of_zero {p : Fin n} (h : (p : ℕ) = 0) : (prev p : ℕ) = n - 1 := by
  have hp := p.isLt
  simp only [prev, h]
  rw [Nat.zero_add, Nat.mod_eq_of_lt (by omega)]

theorem prev_injective : Function.Injective (prev (n := n)) := by
  intro p q h
  have hp := p.isLt
  have hq := q.isLt
  have hv : (prev p : ℕ) = prev q := congrArg Fin.val h
  apply Fin.ext
  by_cases h0 : (p : ℕ) = 0 <;> by_cases h1 : (q : ℕ) = 0
  · omega
  · rw [prev_of_zero h0, prev_of_pos h1] at hv; omega
  · rw [prev_of_pos h0, prev_of_zero h1] at hv; omega
  · rw [prev_of_pos h0, prev_of_pos h1] at hv; omega

/-! ## Counting messages -/

def waits (p : Fin n) : ℕ := if (p : ℕ) = 0 then 1 else 2

def sends (p : Fin n) : ℕ := if (p : ℕ) = n - 1 then 1 else 2

def entered (tr : List (Event n)) (p : Fin n) : ℕ := tr.count (.enter p)
def sent (tr : List (Event n)) (p : Fin n) : ℕ := tr.count (.send p)
def taken (tr : List (Event n)) (p : Fin n) : ℕ := tr.count (.take p)
def left (tr : List (Event n)) (p : Fin n) : ℕ := tr.count (.leave p)

section Counts

variable (tr : List (Event n)) (ev : Event n) (p : Fin n)

theorem count_append_singleton (e : Event n) :
    (tr ++ [ev]).count e = tr.count e + if ev = e then 1 else 0 := by
  simp [List.count_singleton]

@[simp] theorem entered_append :
    entered (tr ++ [ev]) p = entered tr p + if ev = .enter p then 1 else 0 :=
  count_append_singleton _ _ _

@[simp] theorem sent_append : sent (tr ++ [ev]) p = sent tr p + if ev = .send p then 1 else 0 :=
  count_append_singleton _ _ _

@[simp] theorem taken_append : taken (tr ++ [ev]) p = taken tr p + if ev = .take p then 1 else 0 :=
  count_append_singleton _ _ _

@[simp] theorem left_append : left (tr ++ [ev]) p = left tr p + if ev = .leave p then 1 else 0 :=
  count_append_singleton _ _ _

end Counts

/-- The barrier messages to `p` that it has not taken. -/
def unconsumed (s : State n) (p : Fin n) : ℕ := s.sem p + (s.sockets (prev p) p).count .barrier

/-- What a process has done, when it has left `l` barriers: it has entered `e`, sent `m` messages
and taken `k`. -/
def Progress (p : Fin n) (e m k l : ℕ) : Pc → Prop
  | .outside => e = l ∧ m = sends p * l ∧ k = waits p * l
  | .waitFirst => e = l + 1 ∧ m = sends p * l ∧ k = waits p * l ∧ (p : ℕ) ≠ 0
  | .sendFirst => e = l + 1 ∧ m = sends p * l ∧ k + 1 = waits p * (l + 1)
  | .waitSecond => e = l + 1 ∧ m = sends p * l + 1 ∧ k + 1 = waits p * (l + 1)
  | .sendSecond => e = l + 1 ∧ m + 1 = sends p * (l + 1) ∧ k = waits p * (l + 1) ∧ (p : ℕ) ≠ n - 1
  | .leaving => e = l + 1 ∧ m = sends p * (l + 1) ∧ k = waits p * (l + 1)

structure Inv (tr : List (Event n)) (s : State n) : Prop where
  progress : ∀ p, Progress p (entered tr p) (sent tr p) (taken tr p) (left tr p) (s.pc p)
  conserved : ∀ p, sent tr (prev p) = taken tr p + unconsumed s p
  source : ∀ src dst, .barrier ∈ s.sockets src dst → src = prev dst

section Steps

variable {tr : List (Event n)} {s : State n} {p src dst : Fin n}

theorem sockets_setSocket (l : List Tag) (a b : Fin n) :
    (s.setSocket src dst l).sockets a b = if a = src ∧ b = dst then l else s.sockets a b := by
  rcases eq_or_ne a src with rfl | ha
  · rcases eq_or_ne b dst with rfl | hb
    · simp [State.setSocket]
    · simp [State.setSocket, hb]
  · simp [State.setSocket, ha]

@[simp] theorem unconsumed_setPc (pc : Pc) (q : Fin n) :
    unconsumed (s.setPc p pc) q = unconsumed s q := rfl

theorem unconsumed_setSocket (l : List Tag) (q : Fin n) : unconsumed (s.setSocket src dst l) q =
    if prev q = src ∧ q = dst then s.sem q + l.count .barrier else unconsumed s q := by
  rw [unconsumed, sockets_setSocket]
  split <;> rfl

theorem Inv.init (h : (ring n).init s) : Inv [] s where
  progress p := by simp [(h p).1, Progress, entered, sent, taken, left]
  conserved p := by simp [unconsumed, (h p).2.1, (h (prev p)).2.2, sent, taken]
  source src dst hm := by simp [(h src).2.2] at hm

theorem progress_update {pc : Pc} {ev : Event n}
    (h : ∀ q, Progress q (entered tr q) (sent tr q) (taken tr q) (left tr q) (s.pc q))
    (hev : ∀ q ≠ p, ev ≠ .enter q ∧ ev ≠ .send q ∧ ev ≠ .take q ∧ ev ≠ .leave q)
    (hp : Progress p (entered (tr ++ [ev]) p) (sent (tr ++ [ev]) p) (taken (tr ++ [ev]) p)
      (left (tr ++ [ev]) p) pc) (q : Fin n) :
    Progress q (entered (tr ++ [ev]) q) (sent (tr ++ [ev]) q) (taken (tr ++ [ev]) q)
      (left (tr ++ [ev]) q) (update s.pc p pc q) := by
  rcases eq_or_ne q p with rfl | hq
  · rw [update_self]
    exact hp
  · obtain ⟨h₁, h₂, h₃, h₄⟩ := hev q hq
    rw [update_of_ne hq]
    simpa [h₁, h₂, h₃, h₄] using h q

section

variable (h : Inv tr s)
include h

variable {pc : Pc}

theorem Inv.enter (hp : Progress p (entered tr p + 1) (sent tr p) (taken tr p) (left tr p) pc) :
    Inv (tr ++ [.enter p]) (s.setPc p pc) where
  progress := progress_update h.progress (fun q hq => by simp [hq.symm]) (by simpa using hp)
  conserved q := by simpa using h.conserved q
  source := h.source

theorem Inv.leave (hp : Progress p (entered tr p) (sent tr p) (taken tr p) (left tr p + 1) pc) :
    Inv (tr ++ [.leave p]) (s.setPc p pc) where
  progress := progress_update h.progress (fun q hq => by simp [hq.symm]) (by simpa using hp)
  conserved q := by simpa using h.conserved q
  source := h.source

theorem Inv.wait (hsem : 0 < s.sem p)
    (hp : Progress p (entered tr p) (sent tr p) (taken tr p + 1) (left tr p) pc) :
    Inv (tr ++ [.take p]) ((s.wait p).setPc p pc) where
  progress := progress_update (s := s) h.progress (fun q hq => by simp [hq.symm]) (by simpa using hp)
  conserved q := by
    have := h.conserved q
    rcases eq_or_ne q p with rfl | hq
    · simp only [sent_append, taken_append, unconsumed, State.wait, State.setPc, update_self,
        reduceCtorEq, if_false, if_true] at this ⊢
      omega
    · simpa [unconsumed, State.wait, State.setPc, hq, hq.symm] using this
  source := h.source

theorem Inv.send (hp : Progress p (entered tr p) (sent tr p + 1) (taken tr p) (left tr p) pc) :
    Inv (tr ++ [.send p]) ((s.send p (next p) .barrier).setPc p pc) where
  progress := progress_update (s := s) h.progress (fun q hq => by simp [hq.symm]) (by simpa using hp)
  conserved q := by
    have := h.conserved q
    rw [sent_append, taken_append, unconsumed_setPc, State.send, unconsumed_setSocket]
    rcases eq_or_ne q (next p) with rfl | hq
    · simp only [unconsumed, prev_next] at this
      simp [prev_next]
      omega
    · have hne : prev q ≠ p := fun he => hq (prev_injective (he.trans (prev_next p).symm))
      simpa [hq, hne.symm] using this
  source a b hm := by
    simp only [State.send, State.setPc, sockets_setSocket] at hm
    split at hm
    · next hab => rw [hab.1, hab.2, prev_next]
    · exact h.source a b hm

theorem Inv.barrier (hready : Ready s p) : Inv (tr ++ (barrier s p).2) (barrier s p).1 := by
  have hprog := h.progress p
  unfold Transport.barrier
  cases hpc : s.pc p with
  | outside =>
    rw [hpc] at hprog
    obtain ⟨he, hm, hk⟩ := hprog
    refine h.enter ?_
    split
    · next hp => exact ⟨by omega, hm, hk, hp⟩
    · next hp =>
      refine ⟨by omega, hm, ?_⟩
      rw [hk, waits, if_pos (not_not.mp hp)]
      omega
  | waitFirst =>
    rw [hpc] at hprog
    obtain ⟨he, hm, hk, hp⟩ := hprog
    refine h.wait (hready (.inl hpc)) ⟨he, hm, ?_⟩
    rw [hk, waits, if_neg hp]
    omega
  | sendFirst =>
    rw [hpc] at hprog
    obtain ⟨he, hm, hk⟩ := hprog
    exact h.send ⟨he, by omega, hk⟩
  | waitSecond =>
    rw [hpc] at hprog
    obtain ⟨he, hm, hk⟩ := hprog
    refine h.wait (hready (.inr hpc)) ?_
    split
    · next hp =>
      refine ⟨he, ?_, hk, hp⟩
      rw [hm, sends, if_neg hp]
      omega
    · next hp =>
      refine ⟨he, ?_, hk⟩
      rw [hm, sends, if_pos (not_not.mp hp)]
      omega
  | sendSecond =>
    rw [hpc] at hprog
    obtain ⟨he, hm, hk, hp⟩ := hprog
    exact h.send ⟨he, hm, hk⟩
  | leaving =>
    rw [hpc] at hprog
    exact h.leave hprog

theorem Inv.post : Inv tr (s.send src dst .data) where
  progress := h.progress
  conserved q := by
    rw [State.send, unconsumed_setSocket]
    split
    · next hq =>
      obtain ⟨rfl, rfl⟩ := hq
      simpa [unconsumed] using h.conserved q
    · exact h.conserved q
  source a b hm := by
    simp only [State.send, sockets_setSocket] at hm
    split at hm
    · next hab => exact hab.1 ▸ hab.2 ▸ h.source src dst (by simpa using hm)
    · exact h.source a b hm

/-- The update thread moves a barrier message from the socket to the semaphore. -/
theorem Inv.update : Returns (updateBufferLists s src dst) fun s' => Inv tr s' := by
  have hsource : ∀ {tag : Tag} {rest : List Tag}, s.sockets src dst = tag :: rest → ∀ a b,
      .barrier ∈ (s.setSocket src dst rest).sockets a b → a = prev b := by
    intro tag rest hs a b hm
    rw [sockets_setSocket] at hm
    split at hm
    · next hab => exact hab.1 ▸ hab.2 ▸ h.source src dst (by simp [hs, hm])
    · exact h.source a b hm
  unfold updateBufferLists
  split
  · exact h
  · next rest hs =>
    obtain rfl := h.source src dst (by simp [hs])
    dsimp only
    rw [check_pos rfl]
    refine ⟨h.progress, fun q => ?_, hsource hs⟩
    have := h.conserved q
    rcases eq_or_ne q dst with rfl | hq
    · have hs' : unconsumed s q = s.sem q + (rest.count .barrier + 1) := by simp [unconsumed, hs]
      rw [this, hs', unconsumed]
      simp only [State.signal, State.setSocket, update_self]
      omega
    · have hsem : ((s.setSocket (prev dst) dst rest).signal dst).sem q = s.sem q := by
        simp [State.signal, State.setSocket, hq]
      have hsock : ((s.setSocket (prev dst) dst rest).signal dst).sockets (prev q) q =
          s.sockets (prev q) q := by
        simp only [State.signal, sockets_setSocket, hq, and_false, if_false]
      rw [unconsumed, hsem, hsock]
      exact this
  · next rest hs =>
    refine ⟨h.progress, fun q => ?_, hsource hs⟩
    rw [unconsumed_setSocket]
    split
    · next hq =>
      obtain ⟨rfl, rfl⟩ := hq
      simpa [unconsumed, hs] using h.conserved q
    · exact h.conserved q

theorem Inv.step {a : Action n} (he : (ring n).enabled s a) :
    Returns ((ring n).step s a) fun r => Inv (tr ++ r.2) r.1 := by
  cases a with
  | run p => exact h.barrier he
  | post src dst =>
    show Inv (tr ++ []) _
    simpa using h.post
  | update src dst => exact h.update.bind fun s' hs' => by simpa using hs'

end

end Steps

theorem ring_safe (e : Fault) : ¬ (ring n).Fails (fun _ => True) e :=
  fun h => h.allowed (fun _ => Inv.init) fun _ _ _ hi _ he => hi.step he

theorem run_inv {tr : List (Event n)} {s : State n} (h : (ring n).Run (fun _ => True) tr s) : Inv tr s :=
  h.invariant (fun _ => Inv.init) fun _ _ _ hi _ he => hi.step he

/-! ## Rounds -/

section Rounds

variable {p : Fin n} {e m k l L : ℕ} {pc : Pc}

theorem Progress.left_le_taken (h : Progress p e m k l pc) : waits p * l ≤ k := by
  have hw : waits p * (l + 1) = waits p * l + waits p := Nat.mul_succ _ _
  have hpos : 1 ≤ waits p := by unfold waits; split <;> omega
  cases pc <;> simp only [Progress] at h <;> omega

/-- A process that has sent both messages of the `L`-th barrier has taken the message of the second
trip. -/
theorem Progress.second (h : Progress p e m k l pc) (hp : (p : ℕ) ≠ n - 1) (hm : 2 * L ≤ m) :
    waits p * L ≤ k := by
  have hmono : ∀ {a b : ℕ}, a ≤ b → waits p * a ≤ waits p * b := fun h => Nat.mul_le_mul_left _ h
  have hk := h.left_le_taken
  cases pc <;> simp only [Progress, sends, if_neg hp] at h
  case leaving => exact h.2.2 ▸ hmono (by omega)
  all_goals exact Nat.le_trans (hmono (by omega)) hk

/-- A process that has sent the first message of the `L`-th barrier has entered it, and has taken
the message of the first trip. -/
theorem Progress.first (h : Progress p e m k l pc)
    (hm : if (p : ℕ) = n - 1 then L ≤ m else 2 * L ≤ m + 1) :
    L ≤ e ∧ ((p : ℕ) ≠ 0 → 2 * L ≤ k + 1) := by
  by_cases h0 : (p : ℕ) = 0
  · refine ⟨?_, fun hne => absurd h0 hne⟩
    by_cases hp : (p : ℕ) = n - 1
    · cases pc <;> simp only [Progress, sends, if_pos hp] at h hm <;> omega
    · cases pc <;> simp only [Progress, sends, if_neg hp] at h hm <;> omega
  · by_cases hp : (p : ℕ) = n - 1
    · cases pc <;> simp only [Progress, sends, waits, if_pos hp, if_neg h0] at h hm <;> omega
    · cases pc <;> simp only [Progress, sends, waits, if_neg hp, if_neg h0] at h hm <;> omega

end Rounds

section Safety

variable {tr : List (Event n)} {s : State n} {L : ℕ}

theorem Inv.taken_le_sent (h : Inv tr s) (p : Fin n) : taken tr p ≤ sent tr (prev p) := by
  rw [h.conserved p]
  exact Nat.le_add_right _ _

/-- If some process has taken the message of the second trip of the `L`-th barrier, the first one
has taken the message that came back to it. -/
theorem Inv.back_at_first (h : Inv tr s) (i : ℕ) (hi : i < n)
    (hk : waits ⟨i, hi⟩ * L ≤ taken tr ⟨i, hi⟩) : L ≤ taken tr ⟨0, by omega⟩ := by
  induction i with
  | zero => simpa [waits] using hk
  | succ i ih =>
    have hprev : prev (⟨i + 1, hi⟩ : Fin n) = ⟨i, by omega⟩ :=
      Fin.ext (prev_of_pos (p := ⟨i + 1, hi⟩) (by simp))
    have hm := h.taken_le_sent ⟨i + 1, hi⟩
    rw [hprev] at hm
    have hk : 2 * L ≤ taken tr ⟨i + 1, hi⟩ := by simpa [waits] using hk
    exact ih (by omega) ((h.progress _).second (by simp; omega) (by omega))

/-- If the message of the first trip of the `L`-th barrier has come back to the first process, all
have entered it. -/
theorem Inv.all_entered (h : Inv tr s) (hn : 0 < n) (hk : L ≤ taken tr ⟨0, hn⟩) (q : Fin n) :
    L ≤ entered tr q := by
  -- downwards from the last process, to the predecessor of a process that has taken the message
  have hsent : ∀ j (hj : j < n), if n - 1 - j = n - 1 then L ≤ sent tr ⟨n - 1 - j, by omega⟩
      else 2 * L ≤ sent tr ⟨n - 1 - j, by omega⟩ + 1 := by
    intro j
    induction j with
    | zero =>
      intro hj
      have hm := h.taken_le_sent ⟨0, hn⟩
      have hprev : prev (⟨0, hn⟩ : Fin n) = ⟨n - 1 - 0, by omega⟩ :=
        Fin.ext (prev_of_zero (p := ⟨0, hn⟩) rfl)
      rw [hprev] at hm
      rw [if_pos (by omega)]
      omega
    | succ j ih =>
      intro hj
      have hfirst := ((h.progress ⟨n - 1 - j, by omega⟩).first (L := L) (ih (by omega))).2
        (by simp; omega)
      have hm := h.taken_le_sent ⟨n - 1 - j, by omega⟩
      have hprev : prev (⟨n - 1 - j, by omega⟩ : Fin n) = ⟨n - 1 - (j + 1), by omega⟩ :=
        Fin.ext ((prev_of_pos (p := ⟨n - 1 - j, by omega⟩) (by simp; omega)).trans (by simp; omega))
      rw [hprev] at hm
      rw [if_neg (by omega)]
      omega
  have hq := q.isLt
  have := hsent (n - 1 - q) (by omega)
  simp only [show n - 1 - (n - 1 - (q : ℕ)) = q by omega] at this
  exact ((h.progress q).first this).1

theorem Inv.left_le_entered (h : Inv tr s) (p q : Fin n) : left tr p ≤ entered tr q :=
  h.all_entered p.pos (h.back_at_first p p.isLt (h.progress p).left_le_taken) q

theorem sends_prev (p : Fin n) : sends (prev p) = waits p := by
  have hp := p.isLt
  unfold sends waits
  by_cases h0 : (p : ℕ) = 0
  · rw [if_pos (prev_of_zero h0), if_pos h0]
  · rw [if_neg (by rw [prev_of_pos h0]; omega), if_neg h0]

/-- A process that has left `k` barriers has taken all that its predecessor sends in them. -/
theorem Inv.consumed (h : Inv tr s) {k : ℕ} {p : Fin n} (hk : k ≤ left tr p) :
    sends (prev p) * k ≤ taken tr p := by
  rw [sends_prev]
  exact Nat.le_trans (Nat.mul_le_mul_left _ hk) (h.progress p).left_le_taken

theorem Inv.sent_outside (h : Inv tr s) {p : Fin n} (hp : entered tr p = left tr p) :
    sent tr p = sends p * left tr p := by
  have := h.progress p
  cases hpc : s.pc p <;> rw [hpc] at this <;> simp only [Progress] at this
  case outside => exact this.2.1
  all_goals omega

theorem Inv.none_left (h : Inv tr s) (hout : ∀ p, entered tr p = left tr p) (p : Fin n) :
    unconsumed s p = 0 := by
  have hle : left tr (prev p) ≤ left tr p := hout p ▸ h.left_le_entered (prev p) p
  have hsent := h.sent_outside (hout (prev p))
  have htaken := h.consumed hle
  have := h.conserved p
  omega

end Safety

/-- No process leaves its `k`-th barrier before all have entered theirs, and barrier messages come
from the preceding process only. A process that has left `k` barriers has consumed all messages sent
in them, and no message is left over when all processes are outside. -/
theorem ring_barrier : (∀ e, ¬ (ring n).Fails (fun _ => True) e) ∧
    ∀ tr s, (ring n).Run (fun _ => True) tr s → (∀ p q, left tr p ≤ entered tr q) ∧
      (∀ src dst, .barrier ∈ s.sockets src dst → src = prev dst) ∧
      (∀ p, sent tr (prev p) = taken tr p + unconsumed s p) ∧
      (∀ p k, k ≤ left tr p → sends (prev p) * k ≤ taken tr p) ∧
      (∀ p, entered tr p = left tr p → sent tr p = sends p * left tr p) ∧
      ((∀ p, entered tr p = left tr p) → ∀ p, unconsumed s p = 0) := by
  refine ⟨ring_safe, fun tr s hrun => ?_⟩
  have h := run_inv hrun
  exact ⟨h.left_le_entered, h.source, h.conserved, fun _ _ hk => h.consumed hk,
    fun _ hp => h.sent_outside hp, h.none_left⟩

end Graphite.Transport
