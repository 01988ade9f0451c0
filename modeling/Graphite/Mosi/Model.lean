import Graphite.PrL2.Model
import Mathlib

/-! # The private-L2 MOSI protocol

The L2 cache controller and the DRAM directory controller of `pr_l1_pr_l2_dram_directory_mosi`. As in
the MSI protocol, a directory function that ends by starting the next request of its line returns
`true`.
-/

namespace Graphite.Mosi

open Outcome SetAssoc PrL2 PrL2.Directory Function

variable {A : Type} [DecidableEq A] {N : ℕ}

/-- `ShmemReq`: a queued request and the sharer it waits for. -/
structure ShmemReq (A : Type) (N : ℕ) where
  shmemMsg : ShmemMsg A N
  sharerTileId : ℤ := invalidTileId

/-- `DataList`, a map from addresses to line contents and its size. -/
structure DataList (A : Type) where
  lookup : A → Option LineData
  size : ℕ

namespace DataList

def empty : DataList A := ⟨fun _ => none, 0⟩

/-- Data for an address that is present has to be equal on the bytes of the line. -/
def insert (lineSize totalTiles : ℕ) (l : DataList A) (a : A) (data : Option LineData) :
    Except Fault (DataList A) :=
  match data with
  | none => throw .dataAbsent
  | some d => do
    let l ← match l.lookup a with
      | none => pure ⟨update l.lookup a (some d), l.size + 1⟩
      | some d' => do
        check (readBytes d 0 lineSize = readBytes d' 0 lineSize) .dataMismatch
        pure l
    check (l.size ≤ totalTiles) .dataListFull
    pure l

def erase (l : DataList A) (a : A) : Except Fault (DataList A) := do
  check (l.lookup a).isSome .dataAbsent
  pure ⟨update l.lookup a none, l.size - 1⟩

end DataList

abbrev Home (A : Type) (N : ℕ) := PrL2.Home A N (ShmemReq A N) (DataList A)

abbrev Tile (A : Type) (N : ℕ) := PrL2.Tile A N (Home A N)

/-! ## The L2 cache controller -/

namespace L2

variable (cfg : Config A N) (t : Fin N) (ch : Choice) (sender : Fin N) (m : ShmemMsg A N)
  (x : Tile A N)

/-- A message of the L2 controller to the directory. -/
def toDirectory (type : MsgType) (requester : Fin N) (replyExpected : Bool) (a : A)
    (data : Option LineData) (modeled : Bool) : ShmemMsg A N :=
  ⟨type, .l2Cache, .dramDirectory, requester, a, data, modeled, none, replyExpected⟩

def handleMsgFromL1Cache : Except Fault (Tile A N) := do
  check m.dataBuf.isNone .dataPresent
  check x.outstanding.isNone .outstandingPending
  let x := { x with outstanding := some m }
  pure (x.send (cfg.home m.address) (toDirectory m.type t false m.address none m.modeled))

/-- `processExRepFromDramDirectory` and `processShRepFromDramDirectory`. -/
def processRepFromDramDirectory (cstate : CacheState) : Except Fault (Tile A N) :=
  match m.dataBuf with
  | none => throw .dataAbsent
  | some data => L2.insertCacheLineInHierarchy .mosi cfg t x m.address ch.l1Way ch.l2Way cstate data

def processUpgradeRepFromDramDirectory : Except Fault (Tile A N) := do
  let info := L2.getInfo cfg t x m.address
  check (info.cstate = .shared ∨ info.cstate = .owned) .upgradeState
  match x.outstanding with
  | none => throw .outstandingAddress
  | some req =>
    check (m.address = req.address) .outstandingAddress
    check (req.senderComponent = .l1DCache) .outstandingComponent
    if info.cachedLoc = .invalid then
      let data ← L2.readCacheLine cfg t x m.address
      let x ← L2.insertCacheLineInL1 cfg t x req.senderComponent m.address
        (ch.l1Way req.senderComponent) .modified data
      L2.setInfo cfg t x m.address (some ⟨.modified, req.senderComponent⟩)
    else
      let x ← L2.setCacheLineStateInL1 cfg t x req.senderComponent m.address .modified
      L2.setInfo cfg t x m.address (some { info with cstate := .modified })

/-- The answer of an L2 without the line to a demand that expects a reply. -/
def replyIfExpected : Tile A N :=
  if m.replyExpected then
    x.send sender (toDirectory .invRep m.requester true m.address none m.modeled)
  else x

def processInvReqFromDramDirectory : Except Fault (Tile A N) := do
  let info := L2.getInfo cfg t x m.address
  if info.cstate ≠ .invalid then
    check (info.cstate = .shared) .invReqState
    let x ← L2.invalidateCacheLineInL1 .mosi cfg t x info.cachedLoc m.address
    let x ← L2.invalidateCacheLine cfg t x m.address
    pure (x.send sender (toDirectory .invRep m.requester m.replyExpected m.address none m.modeled))
  else
    pure (replyIfExpected sender m x)

def processFlushReqFromDramDirectory : Except Fault (Tile A N) := do
  let info := L2.getInfo cfg t x m.address
  if info.cstate ≠ .invalid then
    let x ← L2.invalidateCacheLineInL1 .mosi cfg t x info.cachedLoc m.address
    let data ← L2.readCacheLine cfg t x m.address
    let x ← L2.invalidateCacheLine cfg t x m.address
    pure (x.send sender
      (toDirectory .flushRep m.requester m.replyExpected m.address (some data) m.modeled))
  else
    pure (replyIfExpected sender m x)

def processWbReqFromDramDirectory : Except Fault (Tile A N) := do
  check (m.replyExpected = false) .wbReqReplyExpected
  let info := L2.getInfo cfg t x m.address
  if info.cstate ≠ .invalid then
    let cstate := if info.cstate = .modified then .owned else info.cstate
    let x ← L2.setCacheLineStateInL1 cfg t x info.cachedLoc m.address cstate
    let data ← L2.readCacheLine cfg t x m.address
    let x ← L2.setInfo cfg t x m.address (some { info with cstate })
    pure (x.send sender (toDirectory .wbRep m.requester false m.address (some data) m.modeled))
  else
    pure x

/-- The single receiver flushes the line, and the other tiles invalidate it. -/
def processInvFlushCombinedReqFromDramDirectory : Except Fault (Tile A N) :=
  if m.singleReceiver = some t then
    processFlushReqFromDramDirectory cfg t sender { m with type := .flushReq } x
  else
    processInvReqFromDramDirectory cfg t sender { m with type := .invReq } x

/-- The reply to the outstanding request has been handled: wakes up the application thread. -/
def finishReply (x : Tile A N) : Except Fault (Tile A N) :=
  match x.outstanding with
  | none => throw .outstandingModeled
  | some req => do
    check (req.modeled = m.modeled) .outstandingModeled
    Tile.wakeUpAppThread { x with outstanding := none }

def handleMsgFromDramDirectory : Except Fault (Tile A N) :=
  match m.type with
  | .exRep => do finishReply m (← processRepFromDramDirectory cfg t ch m x .modified)
  | .shRep => do finishReply m (← processRepFromDramDirectory cfg t ch m x .shared)
  | .upgradeRep => do finishReply m (← processUpgradeRepFromDramDirectory cfg t ch m x)
  | .invReq => processInvReqFromDramDirectory cfg t sender m x
  | .flushReq => processFlushReqFromDramDirectory cfg t sender m x
  | .wbReq => processWbReqFromDramDirectory cfg t sender m x
  | .invFlushCombinedReq => processInvFlushCombinedReqFromDramDirectory cfg t sender m x
  | _ => throw .unrecognizedMsg

end L2

/-! ## The DRAM directory controller -/

namespace Directory

variable (cfg : Config A N) (rnd : ℕ) (x : Tile A N) (a : A)

def cachedData : Option LineData := x.home.dataList.lookup a

def withDataList (l : DataList A) : Tile A N := { x with home := { x.home with dataList := l } }

def insertData (data : Option LineData) : Except Fault (Tile A N) := do
  pure (withDataList x (← x.home.dataList.insert cfg.lineSize N a data))

def eraseData : Except Fault (Tile A N) := do
  pure (withDataList x (← x.home.dataList.erase a))

/-- `setSharerTileId` of the request at the front of the queue. -/
def setSharerTileId (id : ℤ) : Tile A N :=
  let queue := (x.home.reqQueue a).modifyHead fun r => { r with sharerTileId := id }
  { x with home := { x.home with reqQueue := update x.home.reqQueue a queue } }

/-- A message of the directory to one L2 controller. -/
def toL2 (type : MsgType) (requester : Fin N) (a : A) (data : Option LineData) (modeled : Bool) :
    ShmemMsg A N :=
  ⟨type, .dramDirectory, .l2Cache, requester, a, data, modeled, none, false⟩

/-- A tile number as the single receiver of a message. -/
def receiver (id : ℤ) : Option (Fin N) :=
  if h : 0 ≤ id ∧ id < N then some ⟨id.toNat, Tile.toNat_lt h⟩ else none

def sendToOwner (e : DirectoryEntry N) (m : ShmemMsg A N) : Except Fault (Tile A N) :=
  match e.owner with
  | none => throw .badReceiver
  | some o => pure (x.send o m)

/-- `sendShmemMsg` to all tiles, or to the sharers on the list. -/
def sendShmemMsg (type : MsgType) (requester : Fin N) (singleReceiver : Option (Fin N))
    (e : DirectoryEntry N) (modeled : Bool) : Except Fault (Tile A N) := do
  let (allTilesSharers, sharersList) ← e.sharers.getSharersList
  if allTilesSharers then
    let replyExpected := decide (cfg.directory.type = .limitedBroadcast)
    pure (x.broadcast
      ⟨type, .dramDirectory, .l2Cache, requester, a, none, modeled, singleReceiver, replyExpected⟩)
  else
    sharersList.foldlM (fun x id => x.sendId id
      ⟨type, .dramDirectory, .l2Cache, requester, a, none, modeled, singleReceiver, false⟩) x

def retrieveDataAndSendToL2Cache (type : MsgType) (receiver : Fin N) (modeled : Bool) :
    Except Fault (Tile A N) :=
  match cachedData x a with
  | some data => eraseData (x.send receiver (toL2 type receiver a (some data) modeled)) a
  | none =>
    let data := getDataFromDram x a
    pure ((setDram x a (some data)).send receiver (toL2 type receiver a (some data) modeled))

def processNullifyReq (r : ShmemMsg A N) : Except Fault (Tile A N × Bool) :=
  match x.home.directory.getDirectoryEntry cfg.directory r.address with
  | (_, none) => throw .entryMissing
  | (d, some e) => do
    let x := withDirectory x d
    match e.dstate with
    | .modified =>
      pure (← sendToOwner x e (toL2 .flushReq r.requester r.address none r.modeled), false)
    | .owned =>
      check e.owner.isSome .reqState
      pure (← sendShmemMsg cfg x r.address .invFlushCombinedReq r.requester e.owner e r.modeled, false)
    | .shared =>
      check e.owner.isNone .reqState
      pure (← sendShmemMsg cfg x r.address .invReq r.requester none e r.modeled, false)
    | .uncached =>
      let x ← match cachedData x r.address with
        | none => pure x
        | some data => do eraseData (← putDataToDram x r.address (some data)) r.address
      pure (withDirectory x (← x.home.directory.invalidateDirectoryEntry r.address), true)
    | _ => throw .unsupportedDState

/-- Replaces an entry and nullifies its line. The queue of this line holds the NULLIFY request only, so
no request follows when it completes at once. -/
def processDirectoryEntryAllocationReq (r : ShmemMsg A N) :
    Except Fault (Tile A N × DirectoryEntry N) := do
  let cands ← x.home.directory.getReplacementCandidates cfg.directory r.address
  match replacementCandidate x cands with
  | none => throw .noReplacementCandidate
  | some (b, _) =>
    let x := withDirectory x (← x.home.directory.replaceDirectoryEntry cfg.directory b r.address)
    let nullify : ShmemMsg A N :=
      ⟨.nullifyReq, .dramDirectory, .dramDirectory, r.requester, b, none, true, none, false⟩
    let x := enqueue x b ⟨nullify, invalidTileId⟩
    check ((x.home.reqQueue b).length = 1) .nullifyCount
    let (x, done) ← processNullifyReq cfg x nullify
    let x ← if done then do
        check (cachedData x b).isNone .cachedDataPresent
        pure (dequeue x b)
      else pure x
    pure (x, .create N cfg.directory.type cfg.directory.maxHwSharers)

/-- The entry of the line of `r`, allocated if there is none. -/
def entryFor (r : ShmemMsg A N) : Except Fault (Tile A N × DirectoryEntry N) :=
  match x.home.directory.getDirectoryEntry cfg.directory r.address with
  | (d, some e) => pure (withDirectory x d, e)
  | (_, none) => processDirectoryEntryAllocationReq cfg x r

def processExReqFromL2Cache (r : ShmemMsg A N) : Except Fault (Tile A N × Bool) := do
  let (x, e) ← entryFor cfg x r
  match e.dstate with
  | .modified =>
    pure (← sendToOwner x e (toL2 .flushReq r.requester r.address none r.modeled), false)
  | .owned =>
    if e.owner = some r.requester ∧ e.sharers.getNumSharers = 1 then
      let x := setEntry cfg x r.address { e with dstate := .modified }
      pure (x.send r.requester (toL2 .upgradeRep r.requester r.address none r.modeled), true)
    else
      pure (← sendShmemMsg cfg x r.address .invFlushCombinedReq r.requester e.owner e r.modeled, false)
  | .shared =>
    check (e.sharers.getNumSharers > 0) .reqState
    if e.sharers.hasSharer r.requester = true ∧ e.sharers.getNumSharers = 1 then
      let e ← e.setOwner (some r.requester)
      let x := setEntry cfg x r.address { e with dstate := .modified }
      pure (x.send r.requester (toL2 .upgradeRep r.requester r.address none r.modeled), true)
    else
      let sharer ← e.sharers.getOneSharer rnd
      pure (← sendShmemMsg cfg x r.address .invFlushCombinedReq r.requester (receiver sharer) e
        r.modeled, false)
  | .uncached =>
    check (e.sharers.getNumSharers = 0) .reqState
    let (e, added) ← e.addSharer r.requester
    check (added = true) .addSharerFailed
    let e ← e.setOwner (some r.requester)
    let x := setEntry cfg x r.address { e with dstate := .modified }
    pure (← retrieveDataAndSendToL2Cache x r.address .exRep r.requester r.modeled, true)
  | _ => throw .unsupportedDState

/-- SH_REQ in state OWNED or SHARED: the data come from a sharer, or from the controller. -/
def processShReqSharers (r : ShmemMsg A N) (e : DirectoryEntry N) : Except Fault (Tile A N × Bool) := do
  check (e.sharers.getNumSharers > 0) .reqState
  let sharer ← e.sharers.getOneSharer rnd
  let (e', added) ← e.addSharer r.requester
  if added = false then
    check (sharer ≠ invalidTileId) .addSharerFailed
    let x := setEntry cfg x r.address e'
    let x ← x.sendId sharer (toL2 .flushReq r.requester r.address none r.modeled)
    pure (setSharerTileId x r.address sharer, false)
  else if cachedData x r.address = none ∧ sharer ≠ invalidTileId then
    -- the request is not complete, so the requester is no sharer yet
    let e' ← e'.removeSharer r.requester false
    let x := setEntry cfg x r.address e'
    let x ← x.sendId sharer (toL2 .wbReq r.requester r.address none r.modeled)
    pure (setSharerTileId x r.address sharer, false)
  else
    let x := setEntry cfg x r.address e'
    pure (← retrieveDataAndSendToL2Cache x r.address .shRep r.requester r.modeled, true)

def processShReqFromL2Cache (r : ShmemMsg A N) : Except Fault (Tile A N × Bool) := do
  let (x, e) ← entryFor cfg x r
  match e.dstate with
  | .modified =>
    let x ← sendToOwner x e (toL2 .wbReq r.requester r.address none r.modeled)
    pure (setSharerTileId x r.address (e.owner.elim invalidTileId tileId), false)
  | .owned | .shared => processShReqSharers cfg rnd x r e
  | .uncached =>
    let (e, added) ← e.addSharer r.requester
    check (added = true) .addSharerFailed
    let x := setEntry cfg x r.address { e with dstate := .shared }
    pure (← retrieveDataAndSendToL2Cache x r.address .shRep r.requester r.modeled, true)
  | _ => throw .unsupportedDState

def processReq (r : ShmemMsg A N) : Except Fault (Tile A N × Bool) :=
  match r.type with
  | .exReq => processExReqFromL2Cache cfg rnd x r
  | .shReq => processShReqFromL2Cache cfg rnd x r
  | _ => throw .unrecognizedReq

/-- Dequeues the completed request and starts the next one. The list is the queue of `a`, which the
functions it calls leave alone. -/
def processNextReqFromL2Cache (a : A) : List (ShmemReq A N) → Tile A N → Except Fault (Tile A N)
  | [], _ => throw .queueEmpty
  | [_], x => do
    check (cachedData x a).isNone .cachedDataPresent
    pure (dequeue x a)
  | _ :: r :: q, x => do
    check (cachedData x a).isNone .cachedDataPresent
    let (x, done) ← processReq cfg rnd (dequeue x a) r.shmemMsg
    if done then processNextReqFromL2Cache a (r :: q) x else pure x

def finish (a : A) (y : Tile A N × Bool) : Except Fault (Tile A N) :=
  if y.2 then processNextReqFromL2Cache cfg rnd a (y.1.home.reqQueue a) y.1 else pure y.1

variable (sender : Fin N) (m : ShmemMsg A N)

def restartShmemReq (r : ShmemReq A N) (dstate : DirectoryState) : Except Fault (Tile A N) :=
  match r.shmemMsg.type with
  | .exReq =>
    if dstate = .uncached then do
      finish cfg rnd a (← processExReqFromL2Cache cfg rnd x r.shmemMsg)
    else pure x
  | .shReq => do
    check (r.sharerTileId ≠ invalidTileId) .reqState
    if tileId sender = r.sharerTileId then
      let x := setSharerTileId x a invalidTileId
      finish cfg rnd a (← processShReqFromL2Cache cfg rnd x r.shmemMsg)
    else pure x
  | .nullifyReq =>
    if dstate = .uncached then do
      finish cfg rnd a (← processNullifyReq cfg x r.shmemMsg)
    else pure x
  | _ => throw .unrecognizedReq

/-- Restarts the request at the front of the queue, if there is one. -/
def restartFront (dstate : DirectoryState) : Except Fault (Tile A N) :=
  match x.home.reqQueue a with
  | [] => pure x
  | r :: _ => restartShmemReq cfg rnd x a sender r dstate

def invRepEntry (e : DirectoryEntry N) : Except Fault (DirectoryEntry N) :=
  match e.dstate with
  | .owned => do
    check (e.owner ≠ some sender ∧ e.sharers.getNumSharers > 0) .invRepState
    let e ← e.removeSharer sender m.replyExpected
    check (e.sharers.getNumSharers > 0) .invRepState
    pure e
  | .shared => do
    check (e.owner = none ∧ e.sharers.getNumSharers > 0) .invRepState
    let e ← e.removeSharer sender m.replyExpected
    pure (if e.sharers.getNumSharers = 0 then { e with dstate := .uncached } else e)
  | _ => throw .invRepState

def processInvRepFromL2Cache : Except Fault (Tile A N) :=
  match x.home.directory.getDirectoryEntry cfg.directory m.address with
  | (_, none) => throw .entryMissing
  | (d, some e) => do
    let e ← invRepEntry sender m e
    let x := setEntry cfg (withDirectory x d) m.address e
    restartFront cfg rnd x m.address sender e.dstate

def flushRepEntry (e : DirectoryEntry N) : Except Fault (DirectoryEntry N) :=
  match e.dstate with
  | .modified => do
    check (e.owner = some sender) .flushRepState
    check (m.replyExpected = false) .flushRepState
    let e ← e.removeSharer sender false
    let e ← e.setOwner none
    pure { e with dstate := .uncached }
  | .owned => do
    check (e.owner.isSome ∧ e.sharers.getNumSharers > 0) .flushRepState
    let e ← e.removeSharer sender m.replyExpected
    if e.owner = some sender then
      let e ← e.setOwner none
      pure { e with dstate := if e.sharers.getNumSharers > 0 then .shared else .uncached }
    else pure e
  | .shared => do
    check (e.owner = none ∧ e.sharers.getNumSharers > 0) .flushRepState
    let e ← e.removeSharer sender m.replyExpected
    pure (if e.sharers.getNumSharers = 0 then { e with dstate := .uncached } else e)
  | _ => throw .flushRepState

def processFlushRepFromL2Cache : Except Fault (Tile A N) :=
  match x.home.directory.getDirectoryEntry cfg.directory m.address with
  | (_, none) => throw .entryMissing
  | (d, some e) => do
    let e' ← flushRepEntry sender m e
    let x := setEntry cfg (withDirectory x d) m.address e'
    match x.home.reqQueue m.address with
    | [] => putDataToDram x m.address m.dataBuf
    | r :: _ =>
      let x ← insertData cfg x m.address m.dataBuf
      -- a reader must not find stale data in DRAM
      let x ← if r.shmemMsg.type = .shReq ∧ (e.dstate = .modified ∨ e.dstate = .owned) ∧
          (e'.dstate = .shared ∨ e'.dstate = .uncached) then putDataToDram x m.address m.dataBuf
        else pure x
      restartShmemReq cfg rnd x m.address sender r e'.dstate

def wbRepEntry (pending : Bool) (e : DirectoryEntry N) : Except Fault (DirectoryEntry N) :=
  match e.dstate with
  | .modified => do
    check (e.owner = some sender) .wbRepState
    check (pending = true) .wbRepNoReq
    pure { e with dstate := .owned }
  | .owned => do
    check (e.sharers.hasSharer sender = true) .wbRepSharer
    pure e
  | .shared => do
    check (e.owner = none) .wbRepState
    check (e.sharers.hasSharer sender = true) .wbRepSharer
    pure e
  | _ => throw .wbRepState

def processWbRepFromL2Cache : Except Fault (Tile A N) :=
  match x.home.directory.getDirectoryEntry cfg.directory m.address with
  | (_, none) => throw .entryMissing
  | (d, some e) => do
    check (m.replyExpected = false) .wbRepState
    let e ← wbRepEntry sender (!(x.home.reqQueue m.address).isEmpty) e
    let x := setEntry cfg (withDirectory x d) m.address e
    match x.home.reqQueue m.address with
    | [] => throw .wbRepNoReq
    | r :: _ =>
      let x ← insertData cfg x m.address m.dataBuf
      restartShmemReq cfg rnd x m.address sender r e.dstate

/-- Queues a request, which has no payload, and serves it if no other one waits. -/
def queueReq : Except Fault (Tile A N) := do
  check m.dataBuf.isNone .dataPresent
  let x := enqueue x m.address ⟨m, invalidTileId⟩
  if (x.home.reqQueue m.address).length = 1 then
    check (cachedData x m.address).isNone .cachedDataPresent
    finish cfg rnd m.address (← processReq cfg rnd x m)
  else pure x

def handleMsgFromL2Cache : Except Fault (Tile A N) :=
  match m.type with
  | .exReq | .shReq => queueReq cfg rnd x m
  | .invRep => processInvRepFromL2Cache cfg rnd x sender m
  | .flushRep => processFlushRepFromL2Cache cfg rnd x sender m
  | .wbRep => processWbRepFromL2Cache cfg rnd x sender m
  | _ => throw .unrecognizedMsg

end Directory

/-- `handleMsgFromNetwork` of tile `t`. -/
def handle (cfg : Config A N) (t sender : Fin N) (ch : Choice) (m : ShmemMsg A N) (x : Tile A N) :
    Except Fault (Tile A N) :=
  match m.receiverComponent, m.senderComponent with
  | .l2Cache, .l1ICache | .l2Cache, .l1DCache => do
    check (sender = t) .senderTile
    L2.handleMsgFromL1Cache cfg t m x
  | .l2Cache, .dramDirectory => L2.handleMsgFromDramDirectory cfg t ch sender m x
  | .dramDirectory, .l2Cache => Directory.handleMsgFromL2Cache cfg ch.rnd x sender m
  | _, _ => throw .unrecognizedComponent

/-- The machine. Initially no line is cached, the directories have no entries and no data; the DRAM
contents are arbitrary. -/
def system (cfg : Config A N) (dram : Fin N → A → Option LineData) :
    System (State A N (Home A N)) (Action A N) Fault (Event A N) :=
  PrL2.system .mosi cfg (handle cfg) fun t h => h = ⟨.empty, fun _ => [], dram t, .empty⟩

end Graphite.Mosi
