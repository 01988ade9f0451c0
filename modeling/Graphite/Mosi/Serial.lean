import Graphite.PrL2.Serial
import Graphite.PrL2.Home
import Graphite.Mosi.Model

/-! # The request queues of the MOSI directories

As for MSI, the controller works on the request at the front of a queue only, and replies to its
requester exactly if it completes the request. A request that waits for a tile keeps the number of
this tile, which is not part of the message.
-/

namespace Graphite.Mosi.Directory

open Outcome PrL2 PrL2.Directory
open ShmemReq (shmemMsg)

variable {A : Type} [DecidableEq A] {N : ℕ}

variable {cfg : Config A N} {rnd : ℕ} {x x' : Tile A N} {a : A} {r m : ShmemMsg A N}
  {rq : ShmemReq A N} {q : List (ShmemMsg A N)} {qs : List (ShmemReq A N)} {e : DirectoryEntry N}
  {sender : Fin N} {d : Option LineData} {k : MsgType}

omit [DecidableEq A] in
theorem serves_toL2 : Serves r (toL2 k r.requester r.address d r.modeled) := ⟨rfl, rfl, rfl⟩

theorem setSharerTileId_demanded {id : ℤ} : Demanded shmemMsg x (setSharerTileId x a id) := by
  refine .of_home (fun c => ?_) rfl
  by_cases hc : c = a
  · subst hc
    cases h : x.home.reqQueue c with
    | nil => simp [requests, setSharerTileId, h]
    | cons r q => simp [requests, setSharerTileId, h]
  · simp [requests, setSharerTileId, hc]

theorem insertData_demanded : Ensures (insertData cfg x a d) (Demanded shmemMsg x) :=
  ensures_bind fun _ => .of_home (fun _ => rfl) rfl

theorem eraseData_demanded : Ensures (eraseData x a) (Demanded shmemMsg x) :=
  ensures_bind fun _ => .of_home (fun _ => rfl) rfl

theorem sendToOwner_demanded (hq : requests shmemMsg x r.address = r :: q) (hm : Serves r m)
    (hg : grantOf m = none) : Ensures (sendToOwner x e m) (Demanded shmemMsg x) := by
  unfold sendToOwner
  split
  · trivial
  · exact .send hq hm hg

theorem sendShmemMsg_demanded {sr : Option (Fin N)} (hq : requests shmemMsg x r.address = r :: q)
    (hk : k = .invReq ∨ k = .invFlushCombinedReq) :
    Ensures (sendShmemMsg cfg x r.address k r.requester sr e r.modeled) (Demanded shmemMsg x) := by
  have hg : ∀ b, grantOf (⟨k, .dramDirectory, .l2Cache, r.requester, r.address, none, r.modeled, sr, b⟩ :
      ShmemMsg A N) = none := by
    intro b
    rcases hk with rfl | rfl <;> rfl
  have hs : ∀ b, Serves r (⟨k, .dramDirectory, .l2Cache, r.requester, r.address, none, r.modeled, sr, b⟩ :
      ShmemMsg A N) := fun _ => ⟨rfl, rfl, rfl⟩
  unfold sendShmemMsg
  refine ensures_bind fun ⟨all, ids⟩ => ?_
  dsimp only
  split
  · exact .broadcast hq (hs _) (hg _)
  · exact sendIds_demanded (hs _) (hg _) ids hq

theorem processNullifyReq_demanded (hq : requests shmemMsg x r.address = r :: q) :
    Ensures (processNullifyReq cfg x r) fun y => Demanded shmemMsg x y.1 := by
  unfold processNullifyReq
  split
  · trivial
  · next d e _ =>
    have hx : Demanded shmemMsg x (withDirectory x d) := .of_home (fun _ => rfl) rfl
    dsimp only
    split
    · refine Sat.bind (sendToOwner_demanded hq serves_toL2 rfl) fun x' hx' => ?_
      exact hx.trans hx'
    · refine ensures_bind fun _ => Sat.bind (sendShmemMsg_demanded hq (.inr rfl)) fun x' hx' => ?_
      exact hx.trans hx'
    · refine ensures_bind fun _ => Sat.bind (sendShmemMsg_demanded hq (.inl rfl)) fun x' hx' => ?_
      exact hx.trans hx'
    · split
      · rw [pure_eq_ok, ok_bind]
        refine ensures_bind fun d' => ?_
        exact .of_home (fun _ => rfl) rfl
      · refine Sat.bind (putDataToDram_demanded shmemMsg) fun x₁ hx₁ => ?_
        refine Sat.bind eraseData_demanded fun x₂ hx₂ => ?_
        refine ensures_bind fun d' => ?_
        exact hx.trans (hx₁.trans (hx₂.trans (.of_home (fun _ => rfl) rfl)))
    · trivial

theorem processDirectoryEntryAllocationReq_prepared (ha : Addressed shmemMsg x)
    (hq : requests shmemMsg x r.address = r :: q) :
    Ensures (processDirectoryEntryAllocationReq cfg x r) fun y => Prepared shmemMsg r x y.1 := by
  unfold processDirectoryEntryAllocationReq
  refine ensures_bind fun cands => ?_
  split
  · trivial
  · next b e hcand =>
    refine ensures_bind fun d => ?_
    have hqb : requests shmemMsg (withDirectory x d) b = [] := by
      rw [requests, show (withDirectory x d).home.reqQueue b = [] from (replacementCandidate_spec hcand).2]
      rfl
    have hqr : requests shmemMsg (withDirectory x d) r.address ≠ [] := by
      rw [show requests shmemMsg (withDirectory x d) r.address = _ from hq]
      simp
    dsimp only
    refine ensures_bind fun _ => ?_
    refine Sat.bind (processNullifyReq_demanded (q := []) ?_) fun y hy => ?_
    · rw [requests_enqueue, if_pos rfl, hqb]
      rfl
    · have hprep : ∀ done : Bool, Prepared shmemMsg r x (if done then dequeue y.1 b else y.1) := fun done =>
        (hy.prepared done ha rfl rfl hqb hqr).after (.of_home (fun _ => rfl) rfl)
      split
      · refine ensures_bind fun _ => ?_
        exact hprep true
      · exact hprep false

theorem entryFor_prepared (ha : Addressed shmemMsg x) (hq : requests shmemMsg x r.address = r :: q) :
    Ensures (entryFor cfg x r) fun y => Prepared shmemMsg r x y.1 := by
  unfold entryFor
  split
  · exact ⟨ha, rfl, .refl rfl fun _ => rfl⟩
  · exact processDirectoryEntryAllocationReq_prepared ha hq

section
omit [DecidableEq A]

theorem grantOf_toL2_ex (hr : r.type = .exReq) (hk : k = .exRep ∨ k = .upgradeRep) :
    grantOf (toL2 k r.requester r.address d r.modeled) = requestOf r := by
  rcases hk with rfl | rfl <;> simp [grantOf, toL2, requestOf, ticket, hr]

theorem grantOf_toL2_sh (hr : r.type = .shReq) :
    grantOf (toL2 .shRep r.requester r.address d r.modeled) = requestOf r := by
  simp [grantOf, toL2, requestOf, ticket, hr]

end

section

variable (ha : Addressed shmemMsg x) (hq : requests shmemMsg x r.address = r :: q)
include ha hq

theorem retrieve_worked {k : MsgType} (hr : (requestOf r).isSome)
    (hg : ∀ d, grantOf (toL2 k r.requester r.address d r.modeled) = requestOf r) :
    Ensures (retrieveDataAndSendToL2Cache (setEntry cfg x r.address e) r.address k r.requester r.modeled) fun x' => Worked shmemMsg r x (x', true) := by
  have h : Demanded shmemMsg x (setEntry cfg x r.address e) := .of_home (fun _ => rfl) rfl
  unfold retrieveDataAndSendToL2Cache
  split
  · next data _ =>
    have hw := h.answer ha hq serves_toL2 hr (hg (some data))
    refine ensures_bind fun l => ?_
    exact ⟨hw.addressed, hw.queue, hw.did.trans' (.refl rfl fun _ => rfl)⟩
  · exact Demanded.answer (h.trans (.of_home (fun _ => rfl) rfl)) ha hq serves_toL2 hr (hg _)

theorem processExReqFromL2Cache_worked (hr : r.type = .exReq) :
    Ensures (processExReqFromL2Cache cfg rnd x r) (Worked shmemMsg r x) := by
  unfold processExReqFromL2Cache
  refine (entryFor_prepared ha hq).bind fun y hy => ?_
  have hq' := hy.queue.trans hq
  have hans : (requestOf r).isSome := by simp [requestOf, hr]
  have hup : ∀ e : DirectoryEntry N, Worked shmemMsg r x
      ((setEntry cfg y.1 r.address e).send r.requester
        (toL2 .upgradeRep r.requester r.address none r.modeled), true) := by
    intro e
    refine Worked.after ?_ hy.queue hy.did
    exact Demanded.answer (.of_home (fun _ => rfl) rfl) hy.addressed hq' serves_toL2 hans
      (grantOf_toL2_ex hr (.inr rfl))
  dsimp only
  split
  · refine Sat.bind (sendToOwner_demanded hq' serves_toL2 rfl) fun x' hx' => ?_
    exact (hx'.worked hy.addressed rfl).after hy.queue hy.did
  · split
    · exact hup _
    · refine Sat.bind (sendShmemMsg_demanded hq' (.inr rfl)) fun x' hx' => ?_
      exact (hx'.worked hy.addressed rfl).after hy.queue hy.did
  · refine ensures_bind fun _ => ?_
    split
    · refine ensures_bind fun e => ?_
      exact hup _
    · refine ensures_bind fun sharer => ?_
      refine Sat.bind (sendShmemMsg_demanded hq' (.inr rfl)) fun x' hx' => ?_
      exact (hx'.worked hy.addressed rfl).after hy.queue hy.did
  · refine ensures_bind fun _ => ensures_bind fun _ => ensures_bind fun _ =>
      ensures_bind fun e => ?_
    refine Sat.bind (retrieve_worked hy.addressed hq' hans
      fun _ => grantOf_toL2_ex hr (.inl rfl)) fun x' hx' => ?_
    exact hx'.after hy.queue hy.did
  · trivial

theorem processShReqSharers_worked (hr : r.type = .shReq) :
    Ensures (processShReqSharers cfg rnd x r e) (Worked shmemMsg r x) := by
  unfold processShReqSharers
  refine ensures_bind fun _ => ensures_bind fun sharer =>
    ensures_bind fun ⟨e', added⟩ => ?_
  dsimp only
  split
  · refine ensures_bind fun _ => ?_
    have hx : Demanded shmemMsg x (setEntry cfg x r.address e') := .of_home (fun _ => rfl) rfl
    refine Sat.bind (sendId_demanded ((hx.queue _).trans hq) serves_toL2 rfl) fun x' hx' => ?_
    exact ((hx.trans hx').trans setSharerTileId_demanded).worked ha rfl
  · split
    · refine ensures_bind fun e' => ?_
      have hx : Demanded shmemMsg x (setEntry cfg x r.address e') := .of_home (fun _ => rfl) rfl
      refine Sat.bind (sendId_demanded ((hx.queue _).trans hq) serves_toL2 rfl) fun x' hx' => ?_
      exact ((hx.trans hx').trans setSharerTileId_demanded).worked ha rfl
    · refine Sat.bind (retrieve_worked ha hq (by simp [requestOf, hr])
        fun _ => grantOf_toL2_sh hr) fun x' hx' => ?_
      exact hx'

theorem processShReqFromL2Cache_worked (hr : r.type = .shReq) :
    Ensures (processShReqFromL2Cache cfg rnd x r) (Worked shmemMsg r x) := by
  unfold processShReqFromL2Cache
  refine (entryFor_prepared ha hq).bind fun y hy => ?_
  have hq' := hy.queue.trans hq
  have hsh : Ensures (processShReqSharers cfg rnd y.1 r y.2) (Worked shmemMsg r x) :=
    (processShReqSharers_worked hy.addressed hq' hr).mono fun _ h => h.after hy.queue hy.did
  dsimp only
  split
  · refine Sat.bind (sendToOwner_demanded hq' serves_toL2 rfl) fun x' hx' => ?_
    exact ((hx'.trans setSharerTileId_demanded).worked hy.addressed rfl).after hy.queue hy.did
  · exact hsh
  · exact hsh
  · refine ensures_bind fun _ => ensures_bind fun _ => ?_
    refine Sat.bind (retrieve_worked hy.addressed hq'
      (by simp [requestOf, hr]) fun _ => grantOf_toL2_sh hr) fun x' hx' => ?_
    exact hx'.after hy.queue hy.did
  · trivial

theorem processReq_worked : Ensures (processReq cfg rnd x r) (Worked shmemMsg r x) := by
  unfold processReq
  split
  · next hr => exact processExReqFromL2Cache_worked ha hq hr
  · next hr => exact processShReqFromL2Cache_worked ha hq hr
  · trivial

end

/-! ### Queues -/

/-- The request at the front is complete; the next one follows. -/
theorem processNextReqFromL2Cache_handles {Q : List (ShmemReq A N)} {y : Tile A N × Bool}
    (hq : requests shmemMsg x r.address = r :: q) (hy : Worked shmemMsg r x y) (hdone : y.2 = true)
    (hQ : requests shmemMsg y.1 r.address = Q.map shmemMsg) :
    Ensures (processNextReqFromL2Cache cfg rnd r.address Q y.1) (Handles shmemMsg [] x) := by
  induction Q generalizing x y r q with
  | nil => trivial
  | cons r₀ Q ih =>
    have hdeq := hy.dequeued hq hdone
    cases Q with
    | nil => exact ensures_bind fun _ => hdeq
    | cons r' Q =>
      have hq' : requests shmemMsg (dequeue y.1 r.address) r.address = shmemMsg r' :: Q.map shmemMsg := by
        rw [requests_dequeue, if_pos rfl, hQ]; rfl
      have har : (shmemMsg r').address = r.address := hdeq.1 _ _ (by rw [hq']; simp)
      rw [← har] at hq' hdeq ⊢
      refine ensures_bind fun _ => (processReq_worked hdeq.1 hq').bind fun y' hy' => ?_
      dsimp only
      split
      · next hdone' =>
        exact (ih hq' hy' hdone' (hy'.queue.trans hq')).mono fun _ => hdeq.trans
      · next hdone' => exact hdeq.trans (hy'.waits hdone')

theorem finish_handles {y : Tile A N × Bool} (hq : requests shmemMsg x r.address = r :: q)
    (hy : Worked shmemMsg r x y) :
    Ensures (finish cfg rnd r.address y) (Handles shmemMsg [] x) := by
  unfold finish
  split
  · next hdone => exact processNextReqFromL2Cache_handles hq hy hdone rfl
  · next hdone => exact hy.waits hdone

section

variable {x₀ : Tile A N} {dstate : DirectoryState} (hx : Demanded shmemMsg x₀ x)
  (ha : Addressed shmemMsg x₀)
include hx ha

theorem restartShmemReq_handles (hq' : requests shmemMsg x a = rq.shmemMsg :: q) :
    Ensures (restartShmemReq cfg rnd x a sender rq dstate) (Handles shmemMsg [] x₀) := by
  refine Sat.mono ?_ fun _ h => Handles.after h hx
  have ha := hx.addressed ha
  have har : rq.shmemMsg.address = a := ha a _ (by rw [hq']; simp)
  have hno : Handles shmemMsg [] x x := Demanded.handles (.of_home (fun _ => rfl) rfl) ha
  subst har
  unfold restartShmemReq
  split
  · next hr =>
    split
    · exact (processExReqFromL2Cache_worked ha hq' hr).bind fun _ hy => finish_handles hq' hy
    · exact hno
  · next hr =>
    refine ensures_bind fun _ => ?_
    dsimp only
    split
    · have hx : Demanded shmemMsg x (setSharerTileId x rq.shmemMsg.address invalidTileId) :=
        setSharerTileId_demanded
      have hq₁ := (hx.queue _).trans hq'
      refine (processShReqFromL2Cache_worked (hx.addressed ha) hq₁ hr).bind fun _ hy => ?_
      exact (finish_handles hq₁ hy).mono fun _ h => h.after hx
    · exact hno
  · next hr =>
    split
    · refine (processNullifyReq_demanded hq').bind fun _ hy => finish_handles hq' (hy.worked ha ?_)
      simp [service, requestOf, hr]
    · exact hno
  · trivial

theorem restartFront_handles :
    Ensures (restartFront cfg rnd x a sender dstate) (Handles shmemMsg [] x₀) := by
  unfold restartFront
  split
  · exact hx.handles ha
  · next rq qs hq => exact restartShmemReq_handles (q := qs.map shmemMsg) hx ha (by simp [requests, hq])

end

section

variable (ha : Addressed shmemMsg x)
include ha

theorem processInvRepFromL2Cache_handles :
    Ensures (processInvRepFromL2Cache cfg rnd x sender m) (Handles shmemMsg [] x) := by
  unfold processInvRepFromL2Cache
  split
  · trivial
  · next d e _ =>
    refine ensures_bind fun e => ?_
    have hx : Demanded shmemMsg x (setEntry cfg (withDirectory x d) m.address e) :=
      .of_home (fun _ => rfl) rfl
    exact restartFront_handles hx ha

theorem processFlushRepFromL2Cache_handles :
    Ensures (processFlushRepFromL2Cache cfg rnd x sender m) (Handles shmemMsg [] x) := by
  unfold processFlushRepFromL2Cache
  split
  · trivial
  · next d e _ =>
    refine ensures_bind fun e' => ?_
    have hx : Demanded shmemMsg x (setEntry cfg (withDirectory x d) m.address e') :=
      .of_home (fun _ => rfl) rfl
    dsimp only
    generalize setEntry cfg (withDirectory x d) m.address e' = x₁ at hx ⊢
    split
    · exact (putDataToDram_demanded shmemMsg).mono fun _ h => (hx.trans h).handles ha
    · next rq qs hq =>
      have hq₁ : requests shmemMsg x₁ m.address = rq.shmemMsg :: qs.map shmemMsg := by
        simp [requests, hq]
      refine Sat.bind insertData_demanded fun x₂ hx₂ => ?_
      have hq₂ := (hx₂.queue _).trans hq₁
      split
      · refine Sat.bind (putDataToDram_demanded shmemMsg) fun x₃ hx₃ => ?_
        exact restartShmemReq_handles ((hx.trans hx₂).trans hx₃) ha ((hx₃.queue _).trans hq₂)
      · exact restartShmemReq_handles (hx.trans hx₂) ha hq₂

theorem processWbRepFromL2Cache_handles :
    Ensures (processWbRepFromL2Cache cfg rnd x sender m) (Handles shmemMsg [] x) := by
  unfold processWbRepFromL2Cache
  split
  · trivial
  · next d e _ =>
    refine ensures_bind fun _ => ensures_bind fun e' => ?_
    have hx : Demanded shmemMsg x (setEntry cfg (withDirectory x d) m.address e') :=
      .of_home (fun _ => rfl) rfl
    dsimp only
    generalize setEntry cfg (withDirectory x d) m.address e' = x₁ at hx ⊢
    split
    · trivial
    · next rq qs hq =>
      have hq₁ : requests shmemMsg x₁ m.address = rq.shmemMsg :: qs.map shmemMsg := by
        simp [requests, hq]
      refine Sat.bind insertData_demanded fun x₂ hx₂ => ?_
      exact restartShmemReq_handles (hx.trans hx₂) ha ((hx₂.queue _).trans hq₁)

/-- One message is handled: a request is enqueued, and requests are served from the front of their
queues. -/
theorem handleMsgFromL2Cache_handles : Ensures (handleMsgFromL2Cache cfg rnd x sender m)
      (Handles shmemMsg ([m].filter service.wants) x) := by
  have hreq : Ensures (queueReq cfg rnd x m) (Handles shmemMsg ([m].filter service.wants) x) := by
    refine ensures_bind fun _ => handles_enqueue ⟨m, invalidTileId⟩ ha rfl fun ha' hq => ?_
    exact ensures_bind fun _ => (processReq_worked ha' hq).bind fun y hy => finish_handles hq hy
  unfold handleMsgFromL2Cache
  split
  · exact hreq
  · exact hreq
  · next hm =>
    rw [filter_wants (by simp [hm]) (by simp [hm])]
    exact processInvRepFromL2Cache_handles ha
  · next hm =>
    rw [filter_wants (by simp [hm]) (by simp [hm])]
    exact processFlushRepFromL2Cache_handles ha
  · next hm =>
    rw [filter_wants (by simp [hm]) (by simp [hm])]
    exact processWbRepFromL2Cache_handles ha
  · trivial

end

end Graphite.Mosi.Directory

namespace Graphite.Mosi

open Outcome PrL2

variable {A : Type} [DecidableEq A] {N : ℕ}

namespace L2

variable {cfg : Config A N} {t : Fin N} {ch : Choice} {sender : Fin N} {m : ShmemMsg A N} {x : Tile A N}

section
omit [DecidableEq A]

theorem keepsHome_handleMsgFromL1Cache : KeepsHome x (handleMsgFromL1Cache cfg t m x) :=
  after_check rfl fun _ => after_check rfl fun _ => rfl

theorem keepsHome_finishReply : KeepsHome x (finishReply m x) := by
  unfold finishReply
  split
  · exact rfl
  · exact after_check rfl fun _ => (keepsHome_wakeUpAppThread).mono fun _ h => h

end

theorem keepsHome_processRep {cstate : CacheState} :
    KeepsHome x (processRepFromDramDirectory cfg t ch m x cstate) := by
  unfold processRepFromDramDirectory
  split
  · exact rfl
  · exact L2.keepsHome_insertCacheLineInHierarchy

theorem keepsHome_processUpgradeRep : KeepsHome x (processUpgradeRepFromDramDirectory cfg t ch m x) := by
  unfold processUpgradeRepFromDramDirectory
  dsimp only
  refine after_check rfl fun _ => ?_
  split
  · exact rfl
  · refine after_check rfl fun _ => after_check rfl fun _ => ?_
    split
    · exact quiet_readLine.bind fun _ => L2.keepsHome_insertCacheLineInL1.bind fun _ =>
        L2.keepsHome_setInfo
    · exact L2.keepsHome_setCacheLineStateInL1.bind fun _ => L2.keepsHome_setInfo

omit [DecidableEq A] in
theorem home_replyIfExpected : (replyIfExpected sender m x).home = x.home := by
  unfold replyIfExpected
  split <;> rfl

theorem keepsHome_processInvReq : KeepsHome x (processInvReqFromDramDirectory cfg t sender m x) := by
  unfold processInvReqFromDramDirectory
  dsimp only
  split
  · exact after_check rfl fun _ => Sat.bind L2.keepsHome_invalidateCacheLineInL1 fun _ h₁ =>
      Sat.bind L2.keepsHome_setInfo fun _ h₂ => h₂.trans h₁
  · exact home_replyIfExpected

theorem keepsHome_processFlushReq : KeepsHome x (processFlushReqFromDramDirectory cfg t sender m x) := by
  unfold processFlushReqFromDramDirectory
  dsimp only
  split
  · exact Sat.bind L2.keepsHome_invalidateCacheLineInL1 fun _ h₁ => quiet_readLine.bind fun _ =>
      Sat.bind L2.keepsHome_setInfo fun _ h₂ => h₂.trans h₁
  · exact home_replyIfExpected

theorem keepsHome_processWbReq : KeepsHome x (processWbReqFromDramDirectory cfg t sender m x) := by
  refine after_check rfl fun _ => ?_
  dsimp only
  split
  · exact Sat.bind L2.keepsHome_setCacheLineStateInL1 fun _ h₁ => quiet_readLine.bind fun _ =>
      Sat.bind L2.keepsHome_setInfo fun _ h₂ => h₂.trans h₁
  · rfl

theorem keepsHome_handleMsgFromDramDirectory :
    KeepsHome x (handleMsgFromDramDirectory cfg t ch sender m x) := by
  unfold handleMsgFromDramDirectory
  split
  · exact keepsHome_processRep.bind fun _ => keepsHome_finishReply
  · exact keepsHome_processRep.bind fun _ => keepsHome_finishReply
  · exact keepsHome_processUpgradeRep.bind fun _ => keepsHome_finishReply
  · exact keepsHome_processInvReq
  · exact keepsHome_processFlushReq
  · exact keepsHome_processWbReq
  · unfold processInvFlushCombinedReqFromDramDirectory
    split
    · exact keepsHome_processFlushReq
    · exact keepsHome_processInvReq
  · exact rfl

end L2

theorem servesInOrder (cfg : Config A N) (dram : Fin N → A → Option LineData) :
    ServesInOrder ShmemReq.shmemMsg (handle cfg) fun t h => h = ⟨.empty, fun _ => [], dram t, .empty⟩ where
  start h a := by rw [h]
  directory hr ha := by
    simp only [handle, hr]
    split
    · contradiction
    · contradiction
    · contradiction
    · exact Directory.handleMsgFromL2Cache_handles ha
    · trivial
  cache hr := by
    unfold handle
    split
    · exact ensures_bind fun _ => L2.keepsHome_handleMsgFromL1Cache.ensures
    · exact ensures_bind fun _ => L2.keepsHome_handleMsgFromL1Cache.ensures
    · exact L2.keepsHome_handleMsgFromDramDirectory.ensures
    · next h _ => exact absurd h hr
    · trivial

end Graphite.Mosi
