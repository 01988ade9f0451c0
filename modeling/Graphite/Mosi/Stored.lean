import Graphite.Mosi.Serial

/-! # The data list of a MOSI directory

Data are put into the list of a controller only when a FLUSH_REP or a WB_REP comes for a line with a
queued request, and only there the list can be full. All other programs of the controllers leave the
list alone or remove data from it.
-/

namespace Graphite

open Outcome Limited

/-! ## Programs that do not put data into a list -/

section Entries

variable {N : ℕ} {l : Limited} {e : Sharers N} {d : DirectoryEntry N} {t : Fin N} {id : ℤ} {b : Bool}

theorem quiet_addSharer : Quiet (l.addSharer id) := by
  refine after_check rfl fun _ => ?_
  split <;> trivial

theorem quiet_removeSharer : Quiet (l.removeSharer id) := by
  unfold removeSharer
  split
  · trivial
  · exact rfl

theorem quiet_getSharersList : Quiet l.getSharersList := after_check rfl fun _ => trivial

theorem Sharers.quiet_addSharer : Quiet (e.addSharer t) := by
  unfold Sharers.addSharer
  split
  · exact after_check rfl fun _ => trivial
  · exact quiet_addSharer.bind fun _ => trivial
  · trivial
  · refine quiet_addSharer.bind fun y => ?_
    dsimp only
    split
    · trivial
    · exact after_check rfl fun _ => trivial
  · trivial
  · refine quiet_addSharer.bind fun y => ?_
    dsimp only
    split
    · trivial
    · exact after_check rfl fun _ => trivial
  · exact after_check rfl fun _ => trivial
  · refine quiet_addSharer.bind fun y => ?_
    dsimp only
    split
    · trivial
    · refine Quiet.bind (after_check rfl fun _ => trivial) fun _ => ?_
      exact after_check rfl fun _ => trivial

theorem Sharers.quiet_removeSharer : Quiet (e.removeSharer t b) := by
  unfold Sharers.removeSharer
  split
  · exact after_check rfl fun _ => after_check rfl fun _ => trivial
  · exact after_check rfl fun _ => quiet_removeSharer.bind fun _ => trivial
  · have hrest : ∀ (l : Limited) (g : Bool) (n : ℤ), Quiet (if b then do
          check (g = true) .broadcastDisabled
          if n - 1 = 0 then
            check (l.numTracked = 0) .trackedCount
            pure (limitedBroadcast l false (n - 1))
          else pure (limitedBroadcast l g (n - 1))
        else pure (limitedBroadcast l g n) : Except Fault (Sharers N)) := by
      intro l g n
      split
      · refine after_check rfl fun _ => ?_
        split
        · exact after_check rfl fun _ => trivial
        · trivial
      · trivial
    dsimp only
    split
    · exact hrest _ _ _
    · exact quiet_removeSharer.bind fun _ => hrest _ _ _
  · refine after_check rfl fun _ => ?_
    split
    · refine after_check rfl fun _ => ?_
      split
      · exact quiet_removeSharer.bind fun _ => trivial
      · trivial
    · exact quiet_removeSharer.bind fun _ => trivial
  · exact after_check rfl fun _ => after_check rfl fun _ => trivial
  · exact after_check rfl fun _ => quiet_removeSharer.bind fun _ => trivial

theorem Sharers.quiet_getSharersList : Quiet e.getSharersList := by
  unfold Sharers.getSharersList
  split
  · trivial
  · trivial
  all_goals exact quiet_getSharersList.bind fun _ => trivial

theorem Sharers.quiet_getOneSharer {rnd : ℕ} : Quiet (e.getOneSharer rnd) :=
  Sharers.quiet_getSharersList.bind fun _ => trivial

theorem DirectoryEntry.quiet_setOwner {owner : Option (Fin N)} : Quiet (d.setOwner owner) :=
  after_check rfl fun _ => trivial

theorem DirectoryEntry.quiet_addSharer : Quiet (d.addSharer t) :=
  Sharers.quiet_addSharer.bind fun _ => trivial

theorem DirectoryEntry.quiet_removeSharer : Quiet (d.removeSharer t b) :=
  Sharers.quiet_removeSharer.bind fun _ => trivial

end Entries

section DirectoryCache

variable {A : Type} [DecidableEq A] {N : ℕ} {dc : DirectoryConfig A} {c : DirectoryCache A N} {a b : A}

theorem DirectoryCache.quiet_getReplacementCandidates : Quiet (c.getReplacementCandidates dc a) :=
  after_check rfl fun _ => trivial

theorem DirectoryCache.quiet_replaceDirectoryEntry : Quiet (c.replaceDirectoryEntry dc b a) := by
  unfold DirectoryCache.replaceDirectoryEntry
  split
  · exact rfl
  · trivial

theorem DirectoryCache.quiet_invalidateDirectoryEntry : Quiet (c.invalidateDirectoryEntry a) := by
  unfold DirectoryCache.invalidateDirectoryEntry
  split
  · trivial
  · exact rfl

end DirectoryCache

end Graphite

namespace Graphite.Mosi

open Outcome PrL2 PrL2.Directory

variable {A : Type} [DecidableEq A] {N : ℕ}

/-! ## The list -/

namespace DataList

variable {l l' : DataList A} {a : A}

def Sized (l : DataList A) : Prop :=
  ∃ as : List A, as.Nodup ∧ (∀ a, a ∈ as ↔ l.lookup a ≠ none) ∧ as.length = l.size

omit [DecidableEq A] in
theorem sized_empty : (empty : DataList A).Sized := ⟨[], .nil, by simp [empty], rfl⟩

theorem Sized.insert (h : l.Sized) (ha : l.lookup a = none) (d : LineData) :
    Sized ⟨Function.update l.lookup a (some d), l.size + 1⟩ := by
  obtain ⟨as, hnd, hmem, hlen⟩ := h
  refine ⟨a :: as, List.nodup_cons.mpr ⟨fun hin => (hmem a).mp hin ha, hnd⟩, fun b => ?_, by simp [hlen]⟩
  rcases eq_or_ne b a with rfl | hb
  · simp
  · simp [hb, hmem]

theorem Sized.erase (h : l.Sized) (ha : l.lookup a ≠ none) :
    Sized ⟨Function.update l.lookup a none, l.size - 1⟩ := by
  obtain ⟨as, hnd, hmem, hlen⟩ := h
  refine ⟨as.erase a, hnd.erase a, fun b => ?_, by rw [List.length_erase_of_mem ((hmem a).mpr ha), hlen]⟩
  rw [hnd.mem_erase_iff, hmem]
  rcases eq_or_ne b a with rfl | hb
  · simp
  · simp [hb]

end DataList

/-- From `x` to `x'` no data are added. -/
structure Drops (x x' : Tile A N) : Prop where
  sized : x.home.dataList.Sized → x'.home.dataList.Sized
  data : ∀ b, x'.home.dataList.lookup b ≠ none → x.home.dataList.lookup b ≠ none

/-- From `x` to `x'` data are added for line `a` at most. -/
structure Adds (a : A) (x x' : Tile A N) : Prop where
  sized : x'.home.dataList.Sized
  data : ∀ b, x'.home.dataList.lookup b ≠ none → b = a ∨ x.home.dataList.lookup b ≠ none

/-- A request is queued for line `a`, and there are data for too many lines, those for `a` included. -/
def Overfull (a : A) (x : Tile A N) : Prop :=
  x.home.reqQueue a ≠ [] ∧ ∃ as : List A, as.Nodup ∧
    (∀ b ∈ as, b = a ∨ x.home.dataList.lookup b ≠ none) ∧ N < as.length

section Lists

variable {x x' x'' : Tile A N} {a : A} {d : Option LineData} {cfg : Config A N}

section
omit [DecidableEq A]

theorem Drops.of_eq (h : x'.home.dataList = x.home.dataList) : Drops x x' := by
  constructor <;> simp [h]

theorem Drops.of_list (h : Drops x' x'') (hlist : x'.home.dataList = x.home.dataList) : Drops x x'' := by
  obtain ⟨hs, hd⟩ := h
  rw [hlist] at hs hd
  exact ⟨hs, hd⟩

theorem Drops.trans (h : Drops x x') (h' : Drops x' x'') : Drops x x'' :=
  ⟨fun hs => h'.sized (h.sized hs), fun b hb => h.data b (h'.data b hb)⟩

theorem Drops.adds (h : Drops x x') (hs : x.home.dataList.Sized) : Adds a x x' :=
  ⟨h.sized hs, fun b hb => .inr (h.data b hb)⟩

theorem Adds.drops (h : Adds a x x') (h' : Drops x' x'') : Adds a x x'' :=
  ⟨h'.sized h.sized, fun b hb => h.data b (h'.data b hb)⟩

end

namespace Directory

theorem eraseData_drops : Sat (eraseData x a) NotFull (Drops x) := by
  refine sat_bind.mpr (sat_check_bind (fun ha => ?_) fun _ => by decide)
  refine ⟨fun hs => hs.erase (Option.ne_none_iff_isSome.mpr ha), fun b hb => ?_⟩
  rcases eq_or_ne b a with rfl | hne
  · simp [withDataList] at hb
  · simpa [withDataList, hne] using hb

/-- The list is full only if there are data for as many lines as there are tiles, and for this one. -/
theorem insertData_adds (hs : x.home.dataList.Sized) (hq : x.home.reqQueue a ≠ []) :
    Sat (insertData cfg x a d) (fun e => e = .dataListFull → Overfull a x) (Adds a x) := by
  obtain ⟨as, hnd, hmem, hlen⟩ := hs
  unfold insertData DataList.insert
  cases d with
  | none => exact fun h => by cases h
  | some d =>
    cases ha : x.home.dataList.lookup a with
    | none =>
      simp only [pure_eq_ok, ok_bind]
      refine sat_bind.mpr (sat_check_bind (fun _ => ⟨?_, fun b hb => ?_⟩) fun hfull _ => ?_)
      · exact DataList.Sized.insert ⟨as, hnd, hmem, hlen⟩ ha d
      · rcases eq_or_ne b a with rfl | hne
        · exact .inl rfl
        · exact .inr (by simpa [withDataList, hne] using hb)
      · refine ⟨hq, a :: as, List.nodup_cons.mpr ⟨fun hin => (hmem a).mp hin ha, hnd⟩, fun b hb => ?_, ?_⟩
        · exact (List.mem_cons.mp hb).imp_right (hmem b).mp
        · simpa [hlen] using hfull
    | some d' =>
      refine sat_bind.mpr (sat_check_bind (fun _ => ?_) fun _ h => by cases h)
      simp only [pure_eq_ok, ok_bind]
      refine sat_check_bind (fun _ => ⟨⟨as, hnd, hmem, hlen⟩, fun b hb => .inr hb⟩) fun hfull _ => ⟨hq, as, hnd, fun b hb => .inr ((hmem b).mp hb), ?_⟩
      simpa [hlen] using hfull

end Directory

end Lists

/-! ## The directory controller -/

namespace Directory

variable {cfg : Config A N} {rnd : ℕ} {x x' : Tile A N} {a : A} {r m : ShmemMsg A N} {rq : ShmemReq A N}
  {e : DirectoryEntry N} {sender : Fin N}

theorem putDataToDram_drops {d : Option LineData} : Sat (putDataToDram x a d) NotFull (Drops x) := by
  refine after_check rfl fun _ => ?_
  split
  · exact rfl
  · exact .of_eq rfl

section
omit [DecidableEq A]

theorem keepsHome_sendToOwner : KeepsHome x (sendToOwner x e m) := by
  unfold sendToOwner
  split
  · exact rfl
  · rfl

theorem keepsHome_sendId {id : ℤ} : KeepsHome x (x.sendId id m) := by
  unfold Tile.sendId
  split
  · rfl
  · exact rfl

theorem keepsHome_sendIds (ids : List ℤ) : KeepsHome x (ids.foldlM (fun x id => x.sendId id m) x) := by
  induction ids generalizing x with
  | nil => rfl
  | cons id ids ih =>
    rw [List.foldlM_cons]
    exact keepsHome_sendId.bind fun _ => ih

theorem keepsHome_sendShmemMsg {k : MsgType} {t : Fin N} {sr : Option (Fin N)} {b : Bool} :
    KeepsHome x (sendShmemMsg cfg x a k t sr e b) := by
  refine Sharers.quiet_getSharersList.bind fun ⟨all, ids⟩ => ?_
  dsimp only
  split
  · rfl
  · exact keepsHome_sendIds ids

theorem drops_of_home {y : Except Fault (Tile A N)} (h : KeepsHome x y) : Sat y NotFull (Drops x) :=
  h.mono fun _ hx => .of_eq (congrArg Home.dataList hx)

end

theorem retrieveDataAndSendToL2Cache_drops {k : MsgType} {t : Fin N} {b : Bool} :
    Sat (retrieveDataAndSendToL2Cache x a k t b) NotFull (Drops x) := by
  unfold retrieveDataAndSendToL2Cache
  split
  · exact eraseData_drops.mono fun _ h => h.of_list rfl
  · exact .of_eq rfl

theorem processNullifyReq_drops : Sat (processNullifyReq cfg x r) NotFull fun y => Drops x y.1 := by
  unfold processNullifyReq
  split
  · exact rfl
  · next d e _ =>
    have hx : Drops x (withDirectory x d) := .of_eq rfl
    dsimp only
    split
    · exact (drops_of_home keepsHome_sendToOwner).bind fun _ h => hx.trans h
    · exact after_check rfl fun _ => (drops_of_home keepsHome_sendShmemMsg).bind fun _ h => hx.trans h
    · exact after_check rfl fun _ => (drops_of_home keepsHome_sendShmemMsg).bind fun _ h => hx.trans h
    · have hinv : ∀ x₁, Drops x x₁ → Sat (do
          pure (withDirectory x₁ (← x₁.home.directory.invalidateDirectoryEntry r.address), true))
          NotFull fun y => Drops x y.1 := fun x₁ h₁ =>
        DirectoryCache.quiet_invalidateDirectoryEntry.bind fun _ => h₁.trans (.of_eq rfl)
      split
      · exact hinv _ hx
      · refine putDataToDram_drops.bind fun x₁ h₁ => eraseData_drops.bind fun x₂ h₂ => ?_
        exact hinv x₂ (hx.trans (h₁.trans h₂))
    · exact rfl

theorem processDirectoryEntryAllocationReq_drops :
    Sat (processDirectoryEntryAllocationReq cfg x r) NotFull fun y => Drops x y.1 := by
  refine DirectoryCache.quiet_getReplacementCandidates.bind fun cands => ?_
  split
  · exact rfl
  · refine DirectoryCache.quiet_replaceDirectoryEntry.bind fun d => after_check rfl fun _ => ?_
    refine processNullifyReq_drops.bind fun y hy => ?_
    have hx : Drops x y.1 := hy.of_list rfl
    dsimp only
    split
    · exact after_check rfl fun _ => hx.trans (.of_eq rfl)
    · exact hx

theorem entryFor_drops : Sat (entryFor cfg x r) NotFull fun y => Drops x y.1 := by
  unfold entryFor
  split
  · exact .of_eq rfl
  · exact processDirectoryEntryAllocationReq_drops

theorem processExReqFromL2Cache_drops :
    Sat (processExReqFromL2Cache cfg rnd x r) NotFull fun y => Drops x y.1 := by
  refine entryFor_drops.bind fun ⟨x₁, e⟩ h₁ => ?_
  dsimp only at h₁ ⊢
  split
  · exact (drops_of_home keepsHome_sendToOwner).bind fun _ h => h₁.trans h
  · split
    · exact h₁.trans (.of_eq rfl)
    · exact (drops_of_home keepsHome_sendShmemMsg).bind fun _ h => h₁.trans h
  · refine after_check rfl fun _ => ?_
    split
    · exact DirectoryEntry.quiet_setOwner.bind fun _ => h₁.trans (.of_eq rfl)
    · exact Sharers.quiet_getOneSharer.bind fun _ => (drops_of_home keepsHome_sendShmemMsg).bind fun _ h => h₁.trans h
  · refine after_check rfl fun _ => DirectoryEntry.quiet_addSharer.bind fun _ =>
      after_check rfl fun _ => DirectoryEntry.quiet_setOwner.bind fun _ => ?_
    exact retrieveDataAndSendToL2Cache_drops.bind fun _ h => h₁.trans (h.of_list rfl)
  · exact rfl

theorem processShReqSharers_drops :
    Sat (processShReqSharers cfg rnd x r e) NotFull fun y => Drops x y.1 := by
  refine after_check rfl fun _ => Sharers.quiet_getOneSharer.bind fun sharer =>
    DirectoryEntry.quiet_addSharer.bind fun y => ?_
  dsimp only
  split
  · refine after_check rfl fun _ => (drops_of_home keepsHome_sendId).bind fun x₁ h₁ => ?_
    exact Drops.of_list (h₁.trans (.of_eq rfl)) rfl
  · split
    · refine DirectoryEntry.quiet_removeSharer.bind fun e' => (drops_of_home keepsHome_sendId).bind fun x₁ h₁ => ?_
      exact Drops.of_list (h₁.trans (.of_eq rfl)) rfl
    · exact retrieveDataAndSendToL2Cache_drops.bind fun _ h => h.of_list rfl

theorem processShReqFromL2Cache_drops :
    Sat (processShReqFromL2Cache cfg rnd x r) NotFull fun y => Drops x y.1 := by
  refine entryFor_drops.bind fun ⟨x₁, e⟩ h₁ => ?_
  have hsharers : Sat (processShReqSharers cfg rnd x₁ r e) NotFull fun y => Drops x y.1 :=
    processShReqSharers_drops.mono fun y hy => h₁.trans hy
  dsimp only at h₁ ⊢
  split
  · exact (drops_of_home keepsHome_sendToOwner).bind fun _ h => h₁.trans (h.trans (.of_eq rfl))
  · exact hsharers
  · exact hsharers
  · refine DirectoryEntry.quiet_addSharer.bind fun _ => after_check rfl fun _ => ?_
    exact retrieveDataAndSendToL2Cache_drops.bind fun _ h => h₁.trans (h.of_list rfl)
  · exact rfl

theorem processReq_drops : Sat (processReq cfg rnd x r) NotFull fun y => Drops x y.1 := by
  unfold processReq
  split
  · exact processExReqFromL2Cache_drops
  · exact processShReqFromL2Cache_drops
  · exact rfl

theorem processNextReqFromL2Cache_drops (q : List (ShmemReq A N)) :
    Sat (processNextReqFromL2Cache cfg rnd a q x) NotFull (Drops x) := by
  induction q generalizing x with
  | nil => exact rfl
  | cons r₀ q ih =>
    cases q with
    | nil => exact after_check rfl fun _ => .of_eq rfl
    | cons r q =>
      refine after_check rfl fun _ => processReq_drops.bind fun ⟨x₁, done⟩ h₁ => ?_
      have hx : Drops x x₁ := h₁.of_list rfl
      dsimp only
      split
      · exact ih.mono fun _ h => hx.trans h
      · exact hx

theorem finish_drops {y : Tile A N × Bool} : Sat (finish cfg rnd a y) NotFull (Drops y.1) := by
  unfold finish
  split
  · exact processNextReqFromL2Cache_drops _
  · exact .of_eq rfl

theorem restartShmemReq_drops {dstate : DirectoryState} :
    Sat (restartShmemReq cfg rnd x a sender rq dstate) NotFull (Drops x) := by
  unfold restartShmemReq
  split
  · split
    · exact processExReqFromL2Cache_drops.bind fun _ h => finish_drops.mono fun _ h' => h.trans h'
    · exact .of_eq rfl
  · refine after_check rfl fun _ => ?_
    split
    · refine processShReqFromL2Cache_drops.bind fun _ h => finish_drops.mono fun _ h' => ?_
      exact Drops.of_list (h.trans h') rfl
    · exact .of_eq rfl
  · split
    · exact processNullifyReq_drops.bind fun _ h => finish_drops.mono fun _ h' => h.trans h'
    · exact .of_eq rfl
  · exact rfl

section
omit [DecidableEq A]

theorem quiet_invRepEntry : Quiet (invRepEntry sender m e) := by
  unfold invRepEntry
  split
  · exact after_check rfl fun _ => DirectoryEntry.quiet_removeSharer.bind fun _ =>
      after_check rfl fun _ => trivial
  · exact after_check rfl fun _ => DirectoryEntry.quiet_removeSharer.bind fun _ => trivial
  · exact rfl

theorem quiet_flushRepEntry : Quiet (flushRepEntry sender m e) := by
  unfold flushRepEntry
  split
  · exact after_check rfl fun _ => after_check rfl fun _ =>
      DirectoryEntry.quiet_removeSharer.bind fun _ => DirectoryEntry.quiet_setOwner.bind fun _ => trivial
  · refine after_check rfl fun _ => DirectoryEntry.quiet_removeSharer.bind fun e₁ => ?_
    split
    · exact DirectoryEntry.quiet_setOwner.bind fun _ => trivial
    · trivial
  · exact after_check rfl fun _ => DirectoryEntry.quiet_removeSharer.bind fun _ => trivial
  · exact rfl

end

theorem quiet_wbRepEntry {pending : Bool} : Quiet (wbRepEntry sender pending e) := by
  unfold wbRepEntry
  split
  · exact after_check rfl fun _ => after_check rfl fun _ => trivial
  · exact after_check rfl fun _ => trivial
  · exact after_check rfl fun _ => after_check rfl fun _ => trivial
  · exact rfl

/-- The controller handles a message about line `m.address`. -/
def Stores (m : ShmemMsg A N) (x : Tile A N) (y : Except Fault (Tile A N)) : Prop :=
  Sat y (fun e => e = .dataListFull → Overfull m.address x) (Adds m.address x)

section
omit [DecidableEq A]

theorem stores_of_drops {y : Except Fault (Tile A N)} (hs : x.home.dataList.Sized)
    (h : Sat y NotFull (Drops x)) : Stores m x y :=
  h.imp (fun _ he hfull => absurd hfull (ne_of_beq_false he)) fun _ hx => hx.adds hs

theorem stores_bind {β : Type} {y : Except Fault β} {f : β → Except Fault (Tile A N)} (hy : Quiet y)
    (hf : ∀ b, Stores m x (f b)) : Stores m x (y >>= f) :=
  Sat.bind (hy.imp (fun _ he hfull => absurd hfull (ne_of_beq_false he)) fun _ h => h) fun b _ => hf b

end

section

variable (hs : x.home.dataList.Sized)
include hs

theorem processInvRepFromL2Cache_stores :
    Stores m x (processInvRepFromL2Cache cfg rnd x sender m) := by
  unfold processInvRepFromL2Cache
  split
  · exact nofun
  · refine stores_bind quiet_invRepEntry fun e => stores_of_drops hs ?_
    unfold restartFront
    dsimp only
    split
    · exact .of_eq rfl
    · exact restartShmemReq_drops.mono fun _ h => h.of_list rfl

theorem insertData_stores {x₁ : Tile A N} {d : Option LineData} {f : Tile A N → Except Fault (Tile A N)} (hlist : x₁.home.dataList = x.home.dataList)
    (hqueue : x₁.home.reqQueue = x.home.reqQueue) (hq : x₁.home.reqQueue m.address ≠ [])
    (hf : ∀ x₂, Sat (f x₂) NotFull (Drops x₂)) :
    Stores m x (insertData cfg x₁ m.address d >>= f) := by
  have hins : Sat (insertData cfg x₁ m.address d) (fun e => e = .dataListFull → Overfull m.address x₁)
      (Adds m.address x₁) := insertData_adds (hlist ▸ hs) hq
  simp only [Overfull, hlist, hqueue] at hins
  refine Sat.bind hins fun x₂ h₂ => (hf x₂).imp (fun _ he hfull => absurd hfull (ne_of_beq_false he)) fun x₃ h₃ => ?_
  obtain ⟨hsized, hdata⟩ := h₂.drops h₃
  rw [hlist] at hdata
  exact ⟨hsized, hdata⟩

theorem processFlushRepFromL2Cache_stores :
    Stores m x (processFlushRepFromL2Cache cfg rnd x sender m) := by
  unfold processFlushRepFromL2Cache
  split
  · exact nofun
  · next d e _ =>
    refine stores_bind quiet_flushRepEntry fun e' => ?_
    dsimp only
    split
    · exact stores_of_drops hs (putDataToDram_drops.mono fun _ h => h.of_list rfl)
    · next rq qs hq =>
      refine insertData_stores hs rfl rfl (by rw [hq]; simp) fun x₂ => ?_
      split
      · exact putDataToDram_drops.bind fun _ h => restartShmemReq_drops.mono fun _ h' => h.trans h'
      · exact restartShmemReq_drops

theorem processWbRepFromL2Cache_stores :
    Stores m x (processWbRepFromL2Cache cfg rnd x sender m) := by
  unfold processWbRepFromL2Cache
  split
  · exact nofun
  · next d e _ =>
    refine stores_bind (quiet_check (by decide)) fun _ => stores_bind quiet_wbRepEntry fun e' => ?_
    dsimp only
    split
    · exact nofun
    · next rq qs hq =>
      exact insertData_stores hs rfl rfl (by rw [hq]; simp) fun x₂ => restartShmemReq_drops

theorem queueReq_stores : Stores m x (queueReq cfg rnd x m) := by
  refine stores_of_drops hs (after_check rfl fun _ => ?_)
  dsimp only
  split
  · refine after_check rfl fun _ => processReq_drops.bind fun _ h =>
      finish_drops.mono fun _ h' => ?_
    exact Drops.of_list (h.trans h') rfl
  · exact .of_eq rfl

theorem handleMsgFromL2Cache_stores : Stores m x (handleMsgFromL2Cache cfg rnd x sender m) := by
  unfold handleMsgFromL2Cache
  split
  · exact queueReq_stores hs
  · exact queueReq_stores hs
  · exact processInvRepFromL2Cache_stores hs
  · exact processFlushRepFromL2Cache_stores hs
  · exact processWbRepFromL2Cache_stores hs
  · exact fun h => by cases h

end

end Directory

/-- Data are put into the list, or found not to fit, only when a tile handles a message to its directory. -/
theorem handle_stores {cfg : Config A N} {t sender : Fin N} {ch : Choice} {m : ShmemMsg A N}
    {x : Tile A N} (hs : x.home.dataList.Sized) : Sat (handle cfg t sender ch m x)
      (fun e => e = .dataListFull → m.receiverComponent = .dramDirectory ∧ Overfull m.address x)
      fun x' => x'.home.dataList.Sized ∧ ∀ b, x'.home.dataList.lookup b ≠ none →
        m.receiverComponent = .dramDirectory ∧ b = m.address ∨ x.home.dataList.lookup b ≠ none := by
  have hcache : ∀ {y}, KeepsHome x y → Sat y
      (fun e => e = .dataListFull → m.receiverComponent = .dramDirectory ∧ Overfull m.address x)
      fun x' => x'.home.dataList.Sized ∧ ∀ b, x'.home.dataList.lookup b ≠ none →
        m.receiverComponent = .dramDirectory ∧ b = m.address ∨ x.home.dataList.lookup b ≠ none := by
    intro y hhome
    refine hhome.imp (fun _ he hfull => absurd hfull (ne_of_beq_false he)) fun x' hx => ?_
    rw [hx]
    exact ⟨hs, fun b hb => .inr hb⟩
  unfold handle
  split
  · exact hcache (after_check rfl fun _ => L2.keepsHome_handleMsgFromL1Cache)
  · exact hcache (after_check rfl fun _ => L2.keepsHome_handleMsgFromL1Cache)
  · exact hcache L2.keepsHome_handleMsgFromDramDirectory
  · next hr _ =>
    exact (Directory.handleMsgFromL2Cache_stores hs).imp (fun _ he hfull => ⟨hr, he hfull⟩)
      fun x' hx => ⟨hx.sized, fun b hb => (hx.data b hb).imp_left fun h => ⟨hr, h⟩⟩
  · exact fun h => by cases h

end Graphite.Mosi
