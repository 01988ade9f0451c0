import Graphite.PrL2.Serial
import Graphite.PrL2.Home
import Graphite.Msi.Model

/-! # The request queues of the MSI directories

Each function of the directory controller that works on a request works on the one at the front of its
queue, replies to the requester exactly if it completes the request, and leaves the other queues
alone, save that it may enqueue a NULLIFY request for another line.
-/

namespace Graphite.Msi.Directory

open Outcome PrL2 PrL2.Directory

variable {A : Type} [DecidableEq A] {N : ℕ}

variable {cfg : Config A N} {rnd : ℕ} {x x' : Tile A N} {a : A} {r m : ShmemMsg A N}
  {q : List (ShmemMsg A N)} {e : DirectoryEntry N} {sender : Fin N} {cached : Option LineData}
  {d : Option LineData}

omit [DecidableEq A] in
theorem serves_toL2 {k : MsgType} :
    Serves r (toL2 k r.requester r.address d r.modeled) := ⟨rfl, rfl, rfl⟩

section

variable (hq : requests id x r.address = r :: q)
include hq

theorem sendToOwner_demanded (hm : Serves r m)
    (hg : grantOf m = none) : Ensures (sendToOwner x e m) (Demanded id x) := by
  unfold sendToOwner
  split
  · trivial
  · exact .send hq hm hg

theorem sendInvReq_demanded (hm : Serves r m)
    (hg : grantOf m = none) : Ensures (sendInvReq x e m) (Demanded id x) := by
  unfold sendInvReq
  refine ensures_bind fun ⟨all, ids⟩ => ?_
  dsimp only
  split
  · exact .broadcast hq hm hg
  · exact sendIds_demanded hm hg ids hq

theorem processNullifyReq_demanded :
    Ensures (processNullifyReq cfg x r) fun y => Demanded id x y.1 := by
  unfold processNullifyReq
  split
  · trivial
  · next d e _ =>
    have hx : Demanded id x (withDirectory x d) := .of_home (fun _ => rfl) rfl
    dsimp only
    split
    · refine Sat.bind (sendToOwner_demanded hq serves_toL2 rfl) fun x' hx' => ?_
      exact hx.trans hx'
    · refine Sat.bind (sendInvReq_demanded hq serves_toL2 rfl) fun x' hx' => ?_
      exact hx.trans hx'
    · refine ensures_bind fun d' => ?_
      exact .of_home (fun _ => rfl) rfl
    · trivial

end

theorem processDirectoryEntryAllocationReq_prepared (ha : Addressed id x)
    (hq : requests id x r.address = r :: q) :
    Ensures (processDirectoryEntryAllocationReq cfg x r) fun y => Prepared id r x y.1 := by
  unfold processDirectoryEntryAllocationReq
  refine ensures_bind fun cands => ?_
  split
  · trivial
  · next b e hcand =>
    refine ensures_bind fun d => ?_
    have hqb : requests id (withDirectory x d) b = [] := by
      rw [requests, show (withDirectory x d).home.reqQueue b = [] from (replacementCandidate_spec hcand).2]
      rfl
    have hqr : requests id (withDirectory x d) r.address ≠ [] := by
      rw [show requests id (withDirectory x d) r.address = _ from hq]
      simp
    dsimp only
    refine ensures_bind fun _ => ?_
    refine Sat.bind (processNullifyReq_demanded (q := []) ?_) fun y hy => ?_
    · rw [requests_enqueue, if_pos rfl, hqb]
      rfl
    · exact (hy.prepared y.2 ha rfl rfl hqb hqr).after (.of_home (fun _ => rfl) rfl)

theorem entryFor_prepared (ha : Addressed id x) (hq : requests id x r.address = r :: q) :
    Ensures (entryFor cfg x r) fun y => Prepared id r x y.1 := by
  unfold entryFor
  split
  · exact ⟨ha, rfl, .refl rfl fun _ => rfl⟩
  · exact processDirectoryEntryAllocationReq_prepared ha hq

section
omit [DecidableEq A]

theorem grantOf_toL2_ex (hr : r.type = .exReq) :
    grantOf (toL2 .exRep r.requester r.address d r.modeled) = requestOf r := by
  simp [grantOf, toL2, requestOf, ticket, hr]

theorem grantOf_toL2_sh (hr : r.type = .shReq) :
    grantOf (toL2 .shRep r.requester r.address d r.modeled) = requestOf r := by
  simp [grantOf, toL2, requestOf, ticket, hr]

end

theorem Prepared.retrieve {k : MsgType} (h : Prepared id r x x') (hq : requests id x r.address = r :: q)
    (hr : (requestOf r).isSome)
    (hg : ∀ d, grantOf (toL2 k r.requester r.address d r.modeled) = requestOf r) :
    Worked id r x (retrieveDataAndSendToL2Cache (setEntry cfg x' r.address e) r.address k r.requester
      cached r.modeled, true) := by
  have hq' := h.queue.trans hq
  refine Worked.after ?_ h.queue h.did
  unfold retrieveDataAndSendToL2Cache
  split
  · exact Demanded.answer (.of_home (fun _ => rfl) rfl) h.addressed hq' serves_toL2 hr (hg _)
  · exact Demanded.answer (.of_home (fun _ => rfl) rfl) h.addressed hq' serves_toL2 hr (hg _)

section

variable (ha : Addressed id x) (hq : requests id x r.address = r :: q)
include ha hq

theorem processExReqFromL2Cache_worked (hr : r.type = .exReq) :
    Ensures (processExReqFromL2Cache cfg x r cached) (Worked id r x) := by
  unfold processExReqFromL2Cache
  refine (entryFor_prepared ha hq).bind fun y hy => ?_
  have hq' := hy.queue.trans hq
  dsimp only
  split
  · refine ensures_bind fun _ => Sat.bind (sendToOwner_demanded hq' serves_toL2 rfl) fun x' hx' => ?_
    exact (hx'.worked hy.addressed rfl).after hy.queue hy.did
  · refine ensures_bind fun _ => Sat.bind (sendInvReq_demanded hq' serves_toL2 rfl) fun x' hx' => ?_
    exact (hx'.worked hy.addressed rfl).after hy.queue hy.did
  · refine ensures_bind fun _ => ensures_bind fun _ => ensures_bind fun _ => ?_
    exact Prepared.retrieve hy hq (by simp [requestOf, hr]) fun _ => grantOf_toL2_ex hr
  · trivial

theorem processShReqFromL2Cache_worked (hr : r.type = .shReq) :
    Ensures (processShReqFromL2Cache cfg rnd x r cached) (Worked id r x) := by
  unfold processShReqFromL2Cache
  refine (entryFor_prepared ha hq).bind fun y hy => ?_
  have hq' := hy.queue.trans hq
  have hans : (requestOf r).isSome := by simp [requestOf, hr]
  dsimp only
  split
  · refine ensures_bind fun _ => Sat.bind (sendToOwner_demanded hq' serves_toL2 rfl) fun x' hx' => ?_
    exact (hx'.worked hy.addressed rfl).after hy.queue hy.did
  · refine ensures_bind ?_
    rintro ⟨e', added⟩
    dsimp only
    split
    · exact Prepared.retrieve hy hq hans fun _ => grantOf_toL2_sh hr
    · refine ensures_bind fun sharer => ?_
      have hx : Demanded id y.1 (setEntry cfg y.1 r.address e') := .of_home (fun _ => rfl) rfl
      refine Sat.bind (sendId_demanded ((hx.queue _).trans hq') serves_toL2 rfl) fun x' hx' => ?_
      exact ((hx.trans hx').worked hy.addressed rfl).after hy.queue hy.did
  · refine ensures_bind fun _ => ensures_bind fun _ => ?_
    exact Prepared.retrieve hy hq hans fun _ => grantOf_toL2_sh hr
  · trivial

theorem processReq_worked : Ensures (processReq cfg rnd x r) (Worked id r x) := by
  unfold processReq
  split
  · next hr => exact processExReqFromL2Cache_worked ha hq hr
  · next hr => exact processShReqFromL2Cache_worked ha hq hr
  · trivial

end

/-! ### Queues -/

/-- The request at the front is complete; the next one follows. -/
theorem processNextReqFromL2Cache_handles {Q : List (ShmemMsg A N)} {y : Tile A N × Bool}
    (hq : requests id x r.address = r :: q) (hy : Worked id r x y) (hdone : y.2 = true)
    (hQ : requests id y.1 r.address = Q) :
    Ensures (processNextReqFromL2Cache cfg rnd r.address Q y.1) (Handles id [] x) := by
  induction Q generalizing x y r q with
  | nil => trivial
  | cons r₀ Q ih =>
    have hdeq := hy.dequeued hq hdone
    cases Q with
    | nil => exact hdeq
    | cons r' Q =>
      have hq' : requests id (dequeue y.1 r.address) r.address = r' :: Q := by
        rw [requests_dequeue, if_pos rfl, hQ]; rfl
      have har : r'.address = r.address := hdeq.1 _ r' (by simp [hq'])
      rw [← har] at hq' hdeq ⊢
      refine (processReq_worked hdeq.1 hq').bind fun y' hy' => ?_
      dsimp only
      split
      · next hdone' =>
        exact (ih hq' hy' hdone' (hy'.queue.trans hq')).mono fun _ => hdeq.trans
      · next hdone' => exact hdeq.trans (hy'.waits hdone')

theorem finish_handles {y : Tile A N × Bool} (hq : requests id x r.address = r :: q)
    (hy : Worked id r x y) : Ensures (finish cfg rnd r.address y) (Handles id [] x) := by
  unfold finish
  split
  · next hdone => exact processNextReqFromL2Cache_handles hq hy hdone (by simp [requests])
  · next hdone => exact hy.waits hdone

section Replies

variable {x₀ : Tile A N} (hx : Demanded id x₀ x) (ha : Addressed id x₀)
  (hq : requests id x r.address = r :: q)
include hx ha hq

theorem restart_ex (hr : r.type = .exReq) : Ensures (do
    finish cfg rnd r.address (← processExReqFromL2Cache cfg x r cached)) (Handles id [] x₀) :=
  (processExReqFromL2Cache_worked (hx.addressed ha) hq hr).bind fun _ hy =>
    (finish_handles hq hy).mono fun _ h => h.after hx

theorem restart_sh (hr : r.type = .shReq) : Ensures (do
    finish cfg rnd r.address (← processShReqFromL2Cache cfg rnd x r cached)) (Handles id [] x₀) :=
  (processShReqFromL2Cache_worked (hx.addressed ha) hq hr).bind fun _ hy =>
    (finish_handles hq hy).mono fun _ h => h.after hx

theorem restart_nullify (hr : service.wants r = false) : Ensures (do
    finish cfg rnd r.address (← processNullifyReq cfg x r)) (Handles id [] x₀) :=
  (processNullifyReq_demanded hq).bind fun _ hy =>
    (finish_handles hq (hy.worked (hx.addressed ha) (by simp [hr]))).mono fun _ h => h.after hx

end Replies

section

variable (ha : Addressed id x)
include ha

theorem processInvRepFromL2Cache_handles :
    Ensures (processInvRepFromL2Cache cfg rnd x sender m) (Handles id [] x) := by
  unfold processInvRepFromL2Cache
  split
  · trivial
  · next d e _ =>
    dsimp only
    refine ensures_bind fun _ => ensures_bind fun e => ?_
    generalize (if e.sharers.getNumSharers = 0 then { e with dstate := .uncached } else e) = e'
    have hx : Demanded id x (setEntry cfg (withDirectory x d) m.address e') :=
      .of_home (fun _ => rfl) rfl
    generalize setEntry cfg (withDirectory x d) m.address e' = x₁ at hx ⊢
    split
    · exact hx.handles ha
    · next r q hq =>
      obtain ⟨har, hq'⟩ := (hx.addressed ha).front hq
      rw [← har]
      split
      · next hr =>
        split
        · exact restart_ex hx ha hq' hr
        · exact hx.handles ha
      · next hr => exact restart_sh hx ha hq' hr
      · next h₁ h₂ =>
        split
        · exact restart_nullify hx ha hq' (wants_eq_false h₁ h₂)
        · exact hx.handles ha

theorem processFlushRepFromL2Cache_handles :
    Ensures (processFlushRepFromL2Cache cfg rnd x sender m) (Handles id [] x) := by
  unfold processFlushRepFromL2Cache
  split
  · trivial
  · next d e _ =>
    dsimp only
    refine ensures_bind fun _ => ensures_bind fun _ => ensures_bind fun e => ?_
    have hx : Demanded id x (setEntry cfg (withDirectory x d) m.address { e with dstate := .uncached }) :=
      .of_home (fun _ => rfl) rfl
    generalize setEntry cfg (withDirectory x d) m.address { e with dstate := .uncached } = x₁ at hx ⊢
    split
    · exact (putDataToDram_demanded id).mono fun _ h => (hx.trans h).handles ha
    · next r q hq =>
      obtain ⟨har, hq'⟩ := (hx.addressed ha).front hq
      rw [← har]
      split
      · next hr => exact restart_ex hx ha hq' hr
      · next hr =>
        refine (putDataToDram_demanded id).bind fun x₂ hx₂ => ?_
        exact restart_sh (hx.trans hx₂) ha ((hx₂.queue _).trans hq') hr
      · next h₁ h₂ =>
        refine (putDataToDram_demanded id).bind fun x₂ hx₂ => ?_
        exact restart_nullify (hx.trans hx₂) ha ((hx₂.queue _).trans hq') (wants_eq_false h₁ h₂)

theorem processWbRepFromL2Cache_handles :
    Ensures (processWbRepFromL2Cache cfg rnd x sender m) (Handles id [] x) := by
  unfold processWbRepFromL2Cache
  split
  · trivial
  · next d e _ =>
    dsimp only
    refine ensures_bind fun _ => ensures_bind fun _ => ensures_bind fun e => ?_
    have hx : Demanded id x (setEntry cfg (withDirectory x d) m.address { e with dstate := .shared }) :=
      .of_home (fun _ => rfl) rfl
    generalize setEntry cfg (withDirectory x d) m.address { e with dstate := .shared } = x₁ at hx ⊢
    split
    · trivial
    · next r q hq =>
      obtain ⟨har, hq'⟩ := (hx.addressed ha).front hq
      rw [← har]
      refine (putDataToDram_demanded id).bind fun x₂ hx₂ => ?_
      refine sat_check_bind (fun hr => ?_) fun _ => trivial
      exact restart_sh (hx.trans hx₂) ha ((hx₂.queue _).trans hq') hr

/-- One message is handled: a request is enqueued, and requests are served from the front of their
queues. -/
theorem handleMsgFromL2Cache_handles : Ensures (handleMsgFromL2Cache cfg rnd x sender m)
      (Handles id ([m].filter service.wants) x) := by
  have hreq : Ensures (queueReq cfg rnd x m) (Handles id ([m].filter service.wants) x) := by
    refine ensures_bind fun _ => handles_enqueue m ha rfl fun ha' hq => ?_
    exact (processReq_worked ha' hq).bind fun y hy => finish_handles hq hy
  unfold handleMsgFromL2Cache
  split
  · exact hreq
  · exact hreq
  · next hm =>
    rw [filter_wants (by simp [hm]) (by simp [hm])]
    exact processInvRepFromL2Cache_handles ha
  · next hm =>
    rw [filter_wants (by simp [hm]) (by simp [hm])]
    exact processFlushRepFromL2Cache_handles ha
  · next hm =>
    rw [filter_wants (by simp [hm]) (by simp [hm])]
    exact processWbRepFromL2Cache_handles ha
  · trivial

end

end Graphite.Msi.Directory

namespace Graphite.Msi

open Outcome PrL2

variable {A : Type} [DecidableEq A] {N : ℕ}

namespace L2

variable {cfg : Config A N} {t : Fin N} {ch : Choice} {sender : Fin N} {m : ShmemMsg A N} {x : Tile A N}

theorem keepsHome_handleMsgFromL1Cache : KeepsHome x (handleMsgFromL1Cache cfg t m x) := by
  refine after_check rfl fun _ => after_check rfl fun _ => ?_
  dsimp only
  split
  · unfold processExReqFromL1Cache
    dsimp only
    refine after_check rfl fun _ => ?_
    split
    · exact Sat.bind L2.keepsHome_setInfo fun _ h => h
    · rfl
  · rfl
  · exact rfl

theorem keepsHome_reply {cstate : CacheState} :
    KeepsHome x (do finishReply (← processRepFromDramDirectory cfg t ch m x cstate)) := by
  unfold processRepFromDramDirectory
  split
  · exact rfl
  · exact Sat.bind L2.keepsHome_insertCacheLineInHierarchy fun _ h =>
      (keepsHome_wakeUpAppThread).mono fun _ h' => h'.trans h

theorem keepsHome_processInvReq : KeepsHome x (processInvReqFromDramDirectory cfg t sender m x) := by
  unfold processInvReqFromDramDirectory
  dsimp only
  split
  · exact after_check rfl fun _ => Sat.bind L2.keepsHome_invalidateCacheLineInL1 fun _ h₁ =>
      Sat.bind L2.keepsHome_setInfo fun _ h₂ => h₂.trans h₁
  · rfl

theorem keepsHome_processFlushReq : KeepsHome x (processFlushReqFromDramDirectory cfg t sender m x) := by
  unfold processFlushReqFromDramDirectory
  dsimp only
  split
  · exact after_check rfl fun _ => Sat.bind L2.keepsHome_invalidateCacheLineInL1 fun _ h₁ =>
      quiet_readLine.bind fun _ => Sat.bind L2.keepsHome_setInfo fun _ h₂ => h₂.trans h₁
  · rfl

theorem keepsHome_processWbReq : KeepsHome x (processWbReqFromDramDirectory cfg t sender m x) := by
  unfold processWbReqFromDramDirectory
  dsimp only
  split
  · exact after_check rfl fun _ => Sat.bind L2.keepsHome_setCacheLineStateInL1 fun _ h₁ =>
      quiet_readLine.bind fun _ => Sat.bind L2.keepsHome_setInfo fun _ h₂ => h₂.trans h₁
  · rfl

theorem keepsHome_handleMsgFromDramDirectory :
    KeepsHome x (handleMsgFromDramDirectory cfg t ch sender m x) := by
  unfold handleMsgFromDramDirectory
  split
  · exact keepsHome_reply
  · exact keepsHome_reply
  · exact keepsHome_processInvReq
  · exact keepsHome_processFlushReq
  · exact keepsHome_processWbReq
  · exact rfl

end L2

theorem servesInOrder (cfg : Config A N) (dram : Fin N → A → Option LineData) :
    ServesInOrder id (handle cfg) fun t h => h = ⟨.empty, fun _ => [], dram t, ()⟩ where
  start h a := by rw [h]
  directory hr ha := by
    simp only [handle, hr]
    split
    · contradiction
    · contradiction
    · contradiction
    · exact Directory.handleMsgFromL2Cache_handles ha
    · trivial
  cache hr := by
    unfold handle
    split
    · exact ensures_bind fun _ => L2.keepsHome_handleMsgFromL1Cache.ensures
    · exact ensures_bind fun _ => L2.keepsHome_handleMsgFromL1Cache.ensures
    · exact L2.keepsHome_handleMsgFromDramDirectory.ensures
    · next h _ => exact absurd h hr
    · trivial

end Graphite.Msi
