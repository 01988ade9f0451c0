import Graphite.Library.Dialogue
import Graphite.Thread.Placement

/-! # Joins

A join waits for the slot of the identifier it names. If the slot has been reused, it waits for the
wrong thread. Where every join names the last thread of its slot, or the slot is idle, and no other
join waits there, each join is answered once, as soon as the thread it names has exited.
-/

namespace Graphite.Thread

open Outcome List Function

variable {N : ℕ}

/-! ## Histories -/

/-- A join is requested by the thread on a tile and names an identifier. -/
def joinCalls : Dialogue (Event N) (Fin N) ℕ where
  request
    | .joinRequest t tid => some (t, tid)
    | _ => none
  reply
    | .joinReply t _ => some t
    | _ => none

/-- Joins and their answers alternate, and an answer comes after the exit of the thread that was
named. -/
def JoinsAnswered (tr : List (Event N)) : Prop :=
  joinCalls.Answered (fun pre tid _ => ∃ t, .exited t (some tid) ∈ pre) tr

section Histories

variable {w t : Fin N} {a : Option ℕ}

@[simp] theorem track_joinRequest (tid : ℕ) :
    joinCalls.track w a (.joinRequest t tid) = if t = w then some tid else a := rfl

@[simp] theorem track_joinReply (time : ℕ) :
    joinCalls.track w a (.joinReply t time) = if t = w then none else a := rfl

@[simp] theorem track_exited (who : Option ℕ) : joinCalls.track w a (.exited t who) = a := rfl

@[simp] theorem track_exitReply (next : Option ℕ) : joinCalls.track w a (.exitReply t next) = a := rfl

end Histories

/-! ## The invariant -/

/-- The thread `tid` is alive on tile `t`. -/
def On (s : State N) (t : Fin N) (tid : ℕ) : Prop := ∃ τ ∈ s.live t, τ.tid = some tid

/-- The identifier that the thread among `l` joins. -/
def joined : List Live → Option ℕ
  | [⟨_, _, .joining tid⟩] => some tid
  | _ => none

structure JoinInv (tr : List (Event N)) (s : State N) : Prop where
  history : JoinsAnswered tr
  waiting : ∀ w, joinCalls.outstanding tr w = joined (s.live w)
  known : ∀ tid, 1 ≤ tid → tid ≤ s.master.tidCounter →
    (∃ t, On s t tid) ∨ ∃ t, .exited t (some tid) ∈ tr
  gone : ∀ t tid, .exited t (some tid) ∈ tr → tid ≤ s.master.tidCounter ∧ ∀ t', ¬ On s t' tid
  target : ∀ w tid, joined (s.live w) = some tid → ∃ t, On s t tid

/-- The last thread of the slot is `tid`, or the slot is idle, and no join waits there. -/
def LastOf (s : State N) (tid : ℕ) : Option (Fin N × ℕ) → Prop
  | some (d, j) => s.master.waiter d j = none ∧
    (s.master.threadId d j = some tid ∨ (s.master.threads.status d)[j]? = some .idle)
  | none => False

/-- A join names the last thread of its slot, or the slot is idle, and no other join waits there. -/
def NamesLast (s : State N) : Action N → Prop
  | .join _ _ tid => LastOf s tid.toNatClampNeg s.master.tidToCore[tid.toNatClampNeg]?
  | _ => True

section Invariant

variable {cfg : Config N} {s s' : State N} {tr : List (Event N)} {t d : Fin N} {tid : ℕ}
  {r : State N × List (Event N)} {who : Option ℕ}

theorem joined_eq_some {l : List Live} :
    joined l = some tid ↔ ∃ who i, l = [⟨who, i, .joining tid⟩] := by
  unfold joined
  split
  · simp
  · next h =>
    refine iff_of_false (by simp) ?_
    rintro ⟨who, i, rfl⟩
    exact h who i tid rfl

theorem Inv.on (h : Inv cfg s) (ho : On s t tid) :
    (1 ≤ tid ∧ tid ≤ s.master.tidCounter) ∧ s.master.tidToCore[tid]? = some (t, 0) ∧
      s.master.threadId t 0 = some tid := by
  obtain ⟨τ, hτ, htid⟩ := ho
  have hseat := h.seat t
  generalize s.live t = l at hseat hτ
  cases hseat with
  | free => simp at hτ
  | taken _ _ hid hhost =>
    rw [mem_singleton] at hτ
    subst hτ
    dsimp only at htid
    subst htid
    exact ⟨hhost.2.1, hhost.2.2.1, hid⟩

theorem Inv.on_tile (h : Inv cfg s) (ho : On s t tid)
    (hmap : s.master.tidToCore[tid]? = some (d, 0)) : t = d := by
  have := (h.on ho).2.1
  rw [hmap] at this
  simpa using this.symm

theorem Inv.joined_eq (h : Inv cfg s) {w : Fin N} (hj : joined (s.live w) = some tid) :
    ∃ who, s.live w = [⟨who, 0, .joining tid⟩] := by
  obtain ⟨who, i, hl⟩ := joined_eq_some.mp hj
  obtain ⟨-, heq⟩ := h.live_eq (show ⟨who, i, .joining tid⟩ ∈ s.live w by simp [hl])
  simp only [Live.mk.injEq, true_and, and_true] at heq
  exact ⟨who, by rw [hl, heq]⟩

theorem JoinInv.quiet (h : JoinInv tr s) (hj : ∀ w, joined (s'.live w) = joined (s.live w))
    (hon : ∀ t tid, On s' t tid ↔ On s t tid)
    (hc : s'.master.tidCounter = s.master.tidCounter) : JoinInv tr s' where
  history := h.history
  waiting w := (h.waiting w).trans (hj w).symm
  known tid h1 h2 := by
    simp only [hon]
    exact h.known tid h1 (hc ▸ h2)
  gone t tid hm := by
    simp only [hon, hc]
    exact h.gone t tid hm
  target w tid hw := by
    simp only [hon]
    exact h.target w tid (hj w ▸ hw)

theorem JoinInv.rephased {ph ph' : Phase}
    (h : JoinInv tr s) (hl : s.live t = [⟨who, 0, ph⟩]) (hph : ∀ tid, ph ≠ .joining tid)
    (hph' : ∀ tid, ph' ≠ .joining tid) (hr : Rephased cfg s t ⟨who, 0, ph'⟩ r) :
    JoinInv (tr ++ r.2) r.1 := by
  have hnone : ∀ ph : Phase, (∀ tid, ph ≠ .joining tid) → joined [⟨who, 0, ph⟩] = none := by
    intro ph hph
    cases hj : joined [⟨who, 0, ph⟩] with
    | none => rfl
    | some tid =>
      obtain ⟨who', i, heq⟩ := joined_eq_some.mp hj
      simp only [cons.injEq, Live.mk.injEq, and_true] at heq
      exact absurd heq.2.2 (hph tid)
  rw [hr.out, append_nil]
  refine h.quiet (fun w => ?_) (fun x tid => ?_) hr.counter
  · rcases eq_or_ne w t with rfl | hw
    · rw [hr.live, update_self, hl, hnone _ hph, hnone _ hph']
    · rw [hr.live, update_of_ne hw]
  · rcases eq_or_ne x t with rfl | hx
    · simp [On, hr.live, hl]
    · simp [On, hr.live, hx]

theorem JoinInv.placed (h : JoinInv tr s) (hr : Placed cfg s t d r) : JoinInv (tr ++ r.2) r.1 := by
  have hon : ∀ x tid, On r.1 x tid ↔ On s x tid ∨ (x = d ∧ tid = s.master.tidCounter + 1) := by
    intro x tid
    rcases eq_or_ne x d with rfl | hx
    · simp [On, hr.live, hr.free, eq_comm]
    · simp [On, hr.live, hx]
  have hjoined : ∀ w, joined (r.1.live w) = joined (s.live w) := by
    intro w
    rcases eq_or_ne w d with rfl | hw
    · simp [hr.live, hr.free, joined]
    · rw [hr.live, update_of_ne hw]
  have htr : tr ++ r.2 = tr ++ [.started d 0 (s.master.tidCounter + 1)] ++
      [.spawnReply t d 0 (s.master.tidCounter + 1)] := by
    rw [hr.out, append_assoc]
    rfl
  have hmem : ∀ x tid, .exited x (some tid) ∈ tr ++ r.2 ↔ .exited x (some tid) ∈ tr := by
    intro x tid
    simp [hr.out]
  refine ⟨?_, fun w => ?_, fun tid h1 h2 => ?_, fun x tid hx => ?_, fun w tid hw => ?_⟩
  · rw [htr]
    exact (h.history.other rfl rfl).other rfl rfl
  · rw [hr.out, Dialogue.outstanding_append, hjoined]
    exact h.waiting w
  · simp only [hon, hmem]
    rw [hr.counter] at h2
    rcases Nat.lt_or_ge s.master.tidCounter tid with hlt | hge
    · exact .inl ⟨d, .inr ⟨rfl, by omega⟩⟩
    · exact (h.known tid h1 hge).imp_left fun ⟨x, hx⟩ => ⟨x, .inl hx⟩
  · rw [hmem] at hx
    obtain ⟨hle, hno⟩ := h.gone x tid hx
    simp only [hon, hr.counter]
    refine ⟨by omega, fun y hy => ?_⟩
    rcases hy with hy | ⟨-, rfl⟩
    · exact hno y hy
    · omega
  · rw [hjoined] at hw
    obtain ⟨x, hx⟩ := h.target w tid hw
    exact ⟨x, (hon x tid).mpr (.inl hx)⟩

theorem Live.resumed_tid (τ : Live) : τ.resumed.tid = τ.tid := by
  unfold Live.resumed
  split <;> rfl

/-- Under this condition a join waits for the thread that it names, and the exit of that thread
answers it. -/
theorem JoinInv.vacated {time : ℕ}
    (h : JoinInv tr s) (hi : Inv cfg s) (hl : s.live t = [⟨who, 0, .running⟩])
    (hr : Vacated cfg s t who time r) : JoinInv (tr ++ r.2) r.1 := by
  have hon : ∀ x tid, On r.1 x tid ↔ On s x tid ∧ x ≠ t := by
    intro x tid
    simp only [On, hr.live]
    split
    · next hx => simp [hx]
    · next hx =>
      split
      · simp [hx, Live.resumed_tid]
      · simp [hx]
  have honly : ∀ tid, On s t tid ↔ who = some tid := by simp [On, hl]
  -- the thread that waits for the slot of `t` named the thread that exits
  have hwaiter : ∀ w j, s.master.waiter t 0 = some (w, j) →
      ∃ tid, who = some tid ∧ joined (s.live w) = some tid := by
    intro w j hw
    obtain ⟨-, who', tid, hlw, hmap⟩ := hi.waiter t w j hw
    have hj : joined (s.live w) = some tid := by rw [hlw]; rfl
    obtain ⟨x, hx⟩ := h.target w tid hj
    obtain rfl := hi.on_tile hx hmap
    exact ⟨tid, (honly tid).mp hx, hj⟩
  have hjoined : ∀ w, joined (r.1.live w) =
      if s.master.waiter t 0 = some (w, 0) then none else joined (s.live w) := by
    intro w
    rw [hr.live]
    split
    · next hw =>
      subst hw
      simp [hl, joined]
    · split
      · next hw =>
        obtain ⟨tid, -, hj⟩ := hwaiter w 0 hw
        obtain ⟨who', hlw⟩ := hi.joined_eq hj
        simp [hlw, Live.resumed, joined]
      · rfl
  have hmem : ∀ x tid, .exited x (some tid) ∈ tr ++ r.2 ↔
      .exited x (some tid) ∈ tr ∨ (x = t ∧ who = some tid) := by
    intro x tid
    simp only [hr.out, joinReplies, mem_append, mem_cons]
    split <;> simp [eq_comm]
  refine ⟨?_, fun w => ?_, fun tid h1 h2 => ?_, fun x tid hx => ?_, fun w tid hw => ?_⟩
  · have hexit : JoinsAnswered (tr ++ [.exited t who]) := h.history.other rfl rfl
    rw [hr.out, joinReplies]
    split
    · rw [nil_append, append_cons]
      exact hexit.other rfl rfl
    · next w j hw =>
      obtain ⟨tid, rfl, hj⟩ := hwaiter w j hw
      rw [append_cons, ← append_assoc]
      refine (hexit.answer (a := tid) rfl rfl ?_ ⟨t, by simp⟩).other rfl rfl
      rw [Dialogue.outstanding_append, h.waiting, hj]
      rfl
  · rw [hr.out, Dialogue.outstanding_append, h.waiting, hjoined, joinReplies]
    split
    · next hw => simp [hw]
    · next w' j hw =>
      obtain rfl := (hi.waiter t w' j hw).1
      simp [hw]
  · simp only [hon, hmem]
    rw [hr.counter] at h2
    rcases h.known tid h1 h2 with ⟨x, hx⟩ | ⟨x, hx⟩
    · rcases eq_or_ne x t with rfl | hxt
      · exact .inr ⟨x, .inr ⟨rfl, (honly tid).mp hx⟩⟩
      · exact .inl ⟨x, hx, hxt⟩
    · exact .inr ⟨x, .inl hx⟩
  · simp only [hon, hr.counter]
    rcases (hmem x tid).mp hx with hx | ⟨rfl, hwho⟩
    · obtain ⟨hle, hno⟩ := h.gone x tid hx
      exact ⟨hle, fun y hy => hno y hy.1⟩
    · obtain ⟨hb, hmap, -⟩ := hi.on ((honly tid).mpr hwho)
      exact ⟨hb.2, fun y hy => hy.2 (hi.on_tile hy.1 hmap)⟩
  · rw [hjoined] at hw
    split at hw
    · cases hw
    · next hne =>
      obtain ⟨x, hx⟩ := h.target w tid hw
      refine ⟨x, (hon x tid).mpr ⟨hx, ?_⟩⟩
      rintro rfl
      obtain ⟨who', hlw⟩ := hi.joined_eq hw
      obtain ⟨-, y, hmap, hwait⟩ := hi.joining w who' tid hlw
      exact hne (hi.on_tile hx hmap ▸ hwait)

theorem JoinInv.joins (h : JoinInv tr s) (hi : Inv cfg s) (hl : s.live t = [⟨who, 0, .running⟩]) (h1 : 1 ≤ tid)
    (h2 : tid ≤ s.master.tidCounter) (hlast : LastOf s tid s.master.tidToCore[tid]?)
    (hr : Joins cfg s t d who tid r) : JoinInv (tr ++ r.2) r.1 := by
  have hfree : joinCalls.outstanding tr t = none := by
    rw [h.waiting, hl]
    rfl
  have hreq : JoinsAnswered (tr ++ [.joinRequest t tid]) := h.history.ask rfl rfl hfree
  by_cases hd : s.live d = []
  · obtain ⟨⟨time, hout⟩, hlive⟩ := hr.answered hd
    -- no thread is on the tile of the slot, so the thread has exited
    have hexit : ∃ x, .exited x (some tid) ∈ tr := by
      refine (h.known tid h1 h2).resolve_left ?_
      rintro ⟨x, hx⟩
      obtain rfl := hi.on_tile hx hr.map
      obtain ⟨τ, hτ, -⟩ := hx
      simp [hd] at hτ
    have hon : ∀ x tid, On r.1 x tid ↔ On s x tid := by simp [On, hlive]
    have hmem : ∀ x tid, .exited x (some tid) ∈ tr ++ r.2 ↔ .exited x (some tid) ∈ tr := by
      simp [hout]
    refine ⟨?_, fun w => ?_, ?_, ?_, ?_⟩
    · rw [hout, append_cons]
      obtain ⟨x, hx⟩ := hexit
      exact hreq.answer (a := tid) rfl rfl (by simp [Dialogue.outstanding_append]) ⟨x, by simp [hx]⟩
    · rw [hout, Dialogue.outstanding_append, hlive, ← h.waiting]
      rcases eq_or_ne t w with rfl | hw
      · simp [hfree]
      · simp [hw]
    · simpa only [hon, hmem, hr.counter] using h.known
    · simpa only [hon, hmem, hr.counter] using h.gone
    · simpa only [hon, hlive] using h.target
  · obtain ⟨hout, hlive⟩ := hr.waits hd
    have hon : ∀ x tid, On r.1 x tid ↔ On s x tid := by
      intro x tid'
      rcases eq_or_ne x t with rfl | hx
      · simp [On, hlive, hl]
      · simp [On, hlive, hx]
    have hmem : ∀ x tid, .exited x (some tid) ∈ tr ++ r.2 ↔ .exited x (some tid) ∈ tr := by
      simp [hout]
    refine ⟨hout ▸ hreq, fun w => ?_, ?_, ?_, fun w tid' hw => ?_⟩
    · rw [hout, Dialogue.outstanding_append, hlive]
      rcases eq_or_ne t w with rfl | hw
      · simp [joined]
      · simpa [hw, Ne.symm hw] using h.waiting w
    · simpa only [hon, hmem, hr.counter] using h.known
    · simpa only [hon, hmem, hr.counter] using h.gone
    · simp only [hon]
      rcases eq_or_ne w t with rfl | hwt
      · -- the slot is not idle, so the thread in it is the one that is named
        obtain rfl : tid = tid' := by simpa [hlive, joined] using hw
        simp only [hr.map, LastOf] at hlast
        have hseat := hi.seat d
        have hst : (s.master.threads.status d)[0]? ≠ some .idle := by
          obtain ⟨st, hst⟩ := hseat.status
          intro hidle
          refine hd (hseat.idle_iff.mp ?_)
          simpa [hst] using hidle
        have hid : s.master.threadId d 0 = some tid := hlast.2.resolve_right hst
        refine ⟨d, ?_⟩
        unfold On
        generalize s.live d = l at hseat hd
        cases hseat with
        | free => exact absurd rfl hd
        | taken _ _ hid' _ => exact ⟨_, mem_singleton_self _, hid'.symm.trans hid⟩
      · rw [hlive, update_of_ne hwt] at hw
        exact h.target w tid' hw

theorem JoinInv.step {a : Action N} (h : JoinInv tr s)
    (hi : Inv cfg s) (he : (threads cfg).enabled s a) (ha : NamesLast s a)
    (hr : Stepped cfg s a r) : JoinInv (tr ++ r.2) r.1 := by
  cases a with
  | spawn t τ destination =>
    obtain ⟨d, -, hp⟩ := hr
    exact h.placed hp
  | start t τ =>
    obtain ⟨hl, heq⟩ := hi.live_phase he.1 he.2
    rw [heq] at hr
    exact h.rephased hl (by simp) (by simp) hr
  | stall t τ =>
    obtain ⟨hl, heq⟩ := hi.live_phase he.1 he.2
    rw [heq] at hr
    exact h.rephased hl (by simp) (by simp) hr
  | resume t τ =>
    obtain ⟨hl, heq⟩ := hi.live_phase he.1 he.2
    rw [heq] at hr
    exact h.rephased hl (by simp) (by simp) hr
  | exit t τ time => exact h.vacated hi (hi.live_phase he.1 he.2.1).1 hr
  | join t τ tid =>
    obtain ⟨d, hj⟩ := hr
    obtain ⟨h1, h2⟩ := toNatClampNeg_bounds he.2.2.1 he.2.2.2
    exact h.joins hi (hi.live_phase he.1 he.2.1).1 h1 h2 ha hj

theorem initial_joinInv : JoinInv [] (initialState cfg) := by
  refine ⟨⟨?_, ?_⟩, fun w => ?_, fun tid h1 h2 => ?_, fun t tid ht => ?_, fun w tid hw => ?_⟩
  · simp
  · simp
  · simp only [initialState]
    split <;> rfl
  · have : tid ≤ 0 := h2
    omega
  · simp at ht
  · simp only [initialState] at hw
    split at hw <;> simp [joined] at hw

end Invariant

/-! ## Runs -/

section Runs

variable {cfg : Config N}

/-- The runs in which every join names the last thread of its slot, or an idle slot, and no other
join waits there. -/
def joinThreads (cfg : Config N) : System (State N) (Action N) Fault (Event N) :=
  (threads cfg).restrict NamesLast

theorem joinThreads_init (hK : cfg.maxThreadsPerCore = 1) (s : State N)
    (hs : (joinThreads cfg).init s) : Inv cfg s ∧ JoinInv [] s := by
  obtain rfl : s = initialState cfg := hs
  exact ⟨initial_inv hK, initial_joinInv⟩

theorem joinThreads_step (hK : cfg.maxThreadsPerCore = 1) (tr : List (Event N)) (s : State N)
    (a : Action N) (h : Inv cfg s ∧ JoinInv tr s) (he : (joinThreads cfg).enabled s a) :
    Sat ((joinThreads cfg).step s a)
      (fun e => e = .noCores ∨ e = .noThreads ∨ e = .tidOverflow ∨ e = .emptyQueue)
      fun r => Inv cfg r.1 ∧ JoinInv (tr ++ r.2) r.1 := by
  obtain ⟨hi, hj⟩ := h
  refine (hi.step hK he.1).imp (fun e hfault => ?_) fun r hr => ⟨hr.inv, hj.step hi he.1 he.2 hr⟩
  cases a with
  | spawn t τ destination =>
    rcases hfault with ⟨-, rfl, -⟩ | ⟨rfl, -⟩ | ⟨-, rfl | rfl⟩ <;> simp
  | join t τ tid =>
    obtain ⟨-, d, hmap, hwait⟩ := hfault
    have hlast := he.2
    simp only [NamesLast, hmap, LastOf] at hlast
    exact absurd hlast.1 hwait
  | _ => exact hfault.elim

/-- No join fails, and every join is answered once and not before the thread that it names has
exited. A join that has not been answered names a thread that is alive, so a thread that has exited
is answered at once. -/
theorem joins_answered (cfg : Config N) (hK : cfg.maxThreadsPerCore = 1) :
    (∀ e, (joinThreads cfg).Fails (fun _ => True) e →
        e = .noCores ∨ e = .noThreads ∨ e = .tidOverflow ∨ e = .emptyQueue) ∧
      ∀ tr s, (joinThreads cfg).Run (fun _ => True) tr s → JoinsAnswered tr ∧
        ∀ w tid, joinCalls.outstanding tr w = some tid →
          (∀ t, .exited t (some tid) ∉ tr) ∧ ∃ t, ∃ τ ∈ s.live t, τ.tid = some tid := by
  have hstep : ∀ tr s a, (Inv cfg s ∧ JoinInv tr s) → True → (joinThreads cfg).enabled s a → _ :=
    fun tr s a h _ => joinThreads_step hK tr s a h
  refine ⟨fun e he => he.allowed (joinThreads_init hK) hstep, fun tr s hrun => ?_⟩
  obtain ⟨-, hj⟩ := hrun.invariant (S := joinThreads cfg) (joinThreads_init hK) hstep
  refine ⟨hj.history, fun w tid hw => ?_⟩
  rw [hj.waiting] at hw
  obtain ⟨t, ht⟩ := hj.target w tid hw
  exact ⟨fun x hx => (hj.gone x tid hx).2 t ht, t, ht⟩

instance (s : State N) (tid : ℕ) : DecidablePred (LastOf s tid) := fun a => by
  cases a <;> dsimp only [LastOf] <;> infer_instance

instance (s : State N) : DecidablePred (NamesLast s)
  | .join .. => by dsimp only [NamesLast]; infer_instance
  | .spawn .. | .start .. | .stall .. | .resume .. | .exit .. => .isTrue trivial

instance (s : State N) : DecidablePred ((joinThreads cfg).enabled s) := fun a =>
  inferInstanceAs (Decidable ((threads cfg).enabled s a ∧ NamesLast s a))

end Runs

/-- The thread on tile 1 exits while `main` joins it. -/
theorem joins_answered_exit : ∃ tr s, (joinThreads liteMachine).Run (fun _ => True) tr s ∧
    .joinReply 0 7 ∈ tr ∧ JoinsAnswered tr :=
  System.Run.of_reaches_imp (Q := fun tr _ => .joinReply 0 7 ∈ tr) (.start rfl)
    [.spawn 0 ⟨none, 0, .running⟩ none, .start 1 ⟨some 1, 0, .starting⟩,
      .join 0 ⟨none, 0, .running⟩ 1, .exit 1 ⟨some 1, 0, .running⟩ 7]
    fun tr s h hq => ⟨hq, ((joins_answered liteMachine rfl).2 tr s h).1⟩

/-- Thread 1 has exited from tile 1 and thread 2 was spawned there: a join of thread 1 is not
answered, and waits for thread 2. -/
theorem reused_tile_waits : ∃ tr s, (threads liteMachine).Run (fun _ => True) tr s ∧
    .exited 1 (some 1) ∈ tr ∧ joinCalls.outstanding tr 0 = some 1 ∧
    s.live 1 = [⟨some 2, 0, .running⟩] :=
  System.Run.of_reaches (.start rfl)
    [.spawn 0 ⟨none, 0, .running⟩ none, .start 1 ⟨some 1, 0, .starting⟩,
      .exit 1 ⟨some 1, 0, .running⟩ 7, .spawn 0 ⟨none, 0, .running⟩ none,
      .start 1 ⟨some 2, 0, .starting⟩, .join 0 ⟨none, 0, .running⟩ 1]

end Graphite.Thread
