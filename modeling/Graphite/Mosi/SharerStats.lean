import Graphite.Library.Histogram
import Graphite.Mosi.Model

/-! # Sharer statistics of the MOSI directory

With full_map entries the directory counts how many entries have how many sharers. The controller's
`addSharer` and `removeSharer` report each change to `updateSharerStats` before they make it. The
functions here list these reports, in order and as far as the controller gets, and `handleStats`
carries them out. The machine is otherwise that of `Mosi.system`.
-/

namespace Graphite.Mosi

open Outcome SetAssoc PrL2 PrL2.Directory

variable {A : Type} [DecidableEq A] {N : ℕ}

/-- `_sharer_count_vec`, whose entries go up to the number of tiles. -/
abbrev SharerCounts := ℕ → ℕ

def updateSharerStats (totalTiles : ℕ) (v : SharerCounts) (old new : ℤ) :
    Except Fault SharerCounts := do
  check (0 ≤ old ∧ old ≤ totalTiles) .sharerCountRange
  check (0 ≤ new ∧ new ≤ totalTiles) .sharerCountRange
  if 0 < old then
    check (0 < v old.toNat) .sharerCountZero
  let v := if 0 < old then Function.update v old.toNat (v old.toNat - 1) else v
  pure (if 0 < new then Function.update v new.toNat (v new.toNat + 1) else v)

/-- A call of `updateSharerStats`: the old and the new number of sharers. -/
abbrev StatsCall := ℤ × ℤ

namespace Directory

variable (cfg : Config A N) (rnd : ℕ) (x : Tile A N) (a : A)

/-- The call of the controller's `addSharer`. -/
def addSharerCalls (e : DirectoryEntry N) : List StatsCall :=
  if cfg.directory.type = .fullMap then
    [(e.sharers.getNumSharers, e.sharers.getNumSharers + 1)]
  else []

/-- The call of the controller's `removeSharer`. -/
def removeSharerCalls (e : DirectoryEntry N) : List StatsCall :=
  if cfg.directory.type = .fullMap then
    [(e.sharers.getNumSharers, e.sharers.getNumSharers - 1)]
  else []

def processExReqCalls (r : ShmemMsg A N) : List StatsCall :=
  followedBy [] (entryFor cfg x r) fun y =>
    if y.2.dstate = .uncached ∧ y.2.sharers.getNumSharers = 0 then addSharerCalls cfg y.2 else []

/-- A requester whose request is not complete is added and removed again. -/
def processShReqSharersCalls (r : ShmemMsg A N) (e : DirectoryEntry N) : List StatsCall :=
  if e.sharers.getNumSharers > 0 then
    followedBy [] (e.sharers.getOneSharer rnd) fun sharer =>
      followedBy (addSharerCalls cfg e) (e.addSharer r.requester) fun y =>
        if y.2 = true ∧ cachedData x r.address = none ∧ sharer ≠ invalidTileId then
          removeSharerCalls cfg y.1
        else []
  else []

def processShReqCalls (r : ShmemMsg A N) : List StatsCall :=
  followedBy [] (entryFor cfg x r) fun y =>
    match y.2.dstate with
    | .owned | .shared => processShReqSharersCalls cfg rnd y.1 r y.2
    | .uncached => addSharerCalls cfg y.2
    | _ => []

def processReqCalls (r : ShmemMsg A N) : List StatsCall :=
  match r.type with
  | .exReq => processExReqCalls cfg x r
  | .shReq => processShReqCalls cfg rnd x r
  | _ => []

def processNextReqCalls (a : A) : List (ShmemReq A N) → Tile A N → List StatsCall
  | _ :: r :: q, x =>
    if (cachedData x a).isNone then
      followedBy (processReqCalls cfg rnd (dequeue x a) r.shmemMsg)
        (processReq cfg rnd (dequeue x a) r.shmemMsg) fun y =>
          if y.2 then processNextReqCalls a (r :: q) y.1 else []
    else []
  | _, _ => []

def finishCalls (a : A) (y : Tile A N × Bool) : List StatsCall :=
  if y.2 then processNextReqCalls cfg rnd a (y.1.home.reqQueue a) y.1 else []

variable (sender : Fin N) (m : ShmemMsg A N)

def restartShmemReqCalls (r : ShmemReq A N) (dstate : DirectoryState) : List StatsCall :=
  match r.shmemMsg.type with
  | .exReq =>
    if dstate = .uncached then
      followedBy (processExReqCalls cfg x r.shmemMsg)
        (processExReqFromL2Cache cfg rnd x r.shmemMsg) (finishCalls cfg rnd a)
    else []
  | .shReq =>
    if r.sharerTileId ≠ invalidTileId ∧ tileId sender = r.sharerTileId then
      followedBy (processShReqCalls cfg rnd (setSharerTileId x a invalidTileId) r.shmemMsg)
        (processShReqFromL2Cache cfg rnd (setSharerTileId x a invalidTileId) r.shmemMsg)
        (finishCalls cfg rnd a)
    else []
  | .nullifyReq =>
    if dstate = .uncached then
      followedBy [] (processNullifyReq cfg x r.shmemMsg) (finishCalls cfg rnd a)
    else []
  | _ => []

def restartFrontCalls (dstate : DirectoryState) : List StatsCall :=
  match x.home.reqQueue a with
  | [] => []
  | r :: _ => restartShmemReqCalls cfg rnd x a sender r dstate

def invRepEntryCalls (e : DirectoryEntry N) : List StatsCall :=
  match e.dstate with
  | .owned =>
    if e.owner ≠ some sender ∧ e.sharers.getNumSharers > 0 then removeSharerCalls cfg e else []
  | .shared =>
    if e.owner = none ∧ e.sharers.getNumSharers > 0 then removeSharerCalls cfg e else []
  | _ => []

def processInvRepCalls : List StatsCall :=
  match x.home.directory.getDirectoryEntry cfg.directory m.address with
  | (_, none) => []
  | (d, some e) =>
    followedBy (invRepEntryCalls cfg sender e) (invRepEntry sender m e) fun e =>
      restartFrontCalls cfg rnd (setEntry cfg (withDirectory x d) m.address e) m.address sender
        e.dstate

def flushRepEntryCalls (e : DirectoryEntry N) : List StatsCall :=
  match e.dstate with
  | .modified =>
    if e.owner = some sender ∧ m.replyExpected = false then removeSharerCalls cfg e else []
  | .owned =>
    if e.owner.isSome ∧ e.sharers.getNumSharers > 0 then removeSharerCalls cfg e else []
  | .shared =>
    if e.owner = none ∧ e.sharers.getNumSharers > 0 then removeSharerCalls cfg e else []
  | _ => []

def processFlushRepCalls : List StatsCall :=
  match x.home.directory.getDirectoryEntry cfg.directory m.address with
  | (_, none) => []
  | (d, some e) =>
    followedBy (flushRepEntryCalls cfg sender m e) (flushRepEntry sender m e) fun e' =>
      let x := setEntry cfg (withDirectory x d) m.address e'
      match x.home.reqQueue m.address with
      | [] => []
      | r :: _ =>
        followedBy [] (insertData cfg x m.address m.dataBuf) fun x =>
          followedBy [] (if r.shmemMsg.type = .shReq ∧ (e.dstate = .modified ∨ e.dstate = .owned) ∧
              (e'.dstate = .shared ∨ e'.dstate = .uncached) then putDataToDram x m.address m.dataBuf
            else pure x) fun x =>
              restartShmemReqCalls cfg rnd x m.address sender r e'.dstate

def processWbRepCalls : List StatsCall :=
  match x.home.directory.getDirectoryEntry cfg.directory m.address with
  | (_, none) => []
  | (d, some e) =>
    if m.replyExpected = false then
      followedBy [] (wbRepEntry sender (!(x.home.reqQueue m.address).isEmpty) e) fun e =>
        let x := setEntry cfg (withDirectory x d) m.address e
        match x.home.reqQueue m.address with
        | [] => []
        | r :: _ =>
          followedBy [] (insertData cfg x m.address m.dataBuf) fun x =>
            restartShmemReqCalls cfg rnd x m.address sender r e.dstate
    else []

def queueReqCalls : List StatsCall :=
  let x := enqueue x m.address ⟨m, invalidTileId⟩
  if m.dataBuf.isNone ∧ (x.home.reqQueue m.address).length = 1 ∧ (cachedData x m.address).isNone then
    followedBy (processReqCalls cfg rnd x m) (processReq cfg rnd x m) (finishCalls cfg rnd m.address)
  else []

/-- The calls of `updateSharerStats` while the controller handles a message. -/
def handleMsgCalls : List StatsCall :=
  match m.type with
  | .exReq | .shReq => queueReqCalls cfg rnd x m
  | .invRep => processInvRepCalls cfg rnd x sender m
  | .flushRep => processFlushRepCalls cfg rnd x sender m
  | .wbRep => processWbRepCalls cfg rnd x sender m
  | _ => []

end Directory

/-! ## The machine with counters -/

/-- The directory controller of a tile with the counters of its directory. -/
structure StatsHome (A : Type) (N : ℕ) where
  home : Home A N
  counts : SharerCounts

def bare (x : PrL2.Tile A N (StatsHome A N)) : Tile A N :=
  ⟨x.l1i, x.l1d, x.l2, x.outstanding, x.app, x.home.home, x.out⟩

def counted (x : Tile A N) (v : SharerCounts) : PrL2.Tile A N (StatsHome A N) :=
  ⟨x.l1i, x.l1d, x.l2, x.outstanding, x.app, ⟨x.home, v⟩, x.out⟩

/-- The calls while a tile handles a message; only the directory controller makes any. -/
def handleCalls (cfg : Config A N) (sender : Fin N) (ch : Choice) (m : ShmemMsg A N)
    (x : Tile A N) : List StatsCall :=
  match m.receiverComponent, m.senderComponent with
  | .dramDirectory, .l2Cache => Directory.handleMsgCalls cfg ch.rnd x sender m
  | _, _ => []

def handleStats (cfg : Config A N) (t sender : Fin N) (ch : Choice) (m : ShmemMsg A N)
    (x : PrL2.Tile A N (StatsHome A N)) : Except Fault (PrL2.Tile A N (StatsHome A N)) := do
  let calls := handleCalls cfg sender ch m (bare x)
  let v ← calls.foldlM (fun v c => updateSharerStats N v c.1 c.2) x.home.counts
  let y ← handle cfg t sender ch m (bare x)
  pure (counted y v)

/-- `Mosi.system` with the counters of `initializeSharerStats`. -/
def statsSystem (cfg : Config A N) (dram : Fin N → A → Option LineData) :
    System (State A N (StatsHome A N)) (Action A N) Fault (Event A N) :=
  PrL2.system .mosi cfg (handleStats cfg) fun t h =>
    h = ⟨⟨.empty, fun _ => [], dram t, .empty⟩, fun _ => 0⟩

/-- The entries of a directory with `k` sharers: those in its ways, and those that were replaced and
await nullification. -/
noncomputable def entriesWith (dc : DirectoryConfig A) (d : DirectoryCache A N) (k : ℕ) : ℕ :=
  {p : ℕ × ℕ | p.2 < dc.geometry.ways ∧ ∃ l, d.directory p.1 p.2 = some l ∧
    l.data.sharers.getNumSharers = k}.ncard +
  d.replaced.countP fun p => p.2.sharers.getNumSharers = (k : ℤ)

end Graphite.Mosi
