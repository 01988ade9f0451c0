import Graphite.PrL2.Model

/-! # The private-L2 MSI protocol

The L2 cache controller and the DRAM directory controller of `pr_l1_pr_l2_dram_directory_msi`. A
directory function that ends by starting the next request of its line returns `true`, and the caller
then runs `processNextReqFromL2Cache`.
-/

namespace Graphite.Msi

open Outcome SetAssoc PrL2 PrL2.Directory

variable {A : Type} [DecidableEq A] {N : ℕ}

/-- The directory controller of a tile. A queued `ShmemReq` is its message, and no data are kept. -/
abbrev Home (A : Type) (N : ℕ) := PrL2.Home A N (ShmemMsg A N) Unit

abbrev Tile (A : Type) (N : ℕ) := PrL2.Tile A N (Home A N)

/-! ## The L2 cache controller -/

namespace L2

variable (cfg : Config A N) (t : Fin N) (ch : Choice) (sender : Fin N) (m : ShmemMsg A N)
  (x : Tile A N)

/-- A message of the L2 controller of tile `t` to the directory. -/
def toDirectory (type : MsgType) (requester : Fin N) (a : A) (data : Option LineData)
    (modeled : Bool) : ShmemMsg A N :=
  ⟨type, .l2Cache, .dramDirectory, requester, a, data, modeled, none, false⟩

def processExReqFromL1Cache : Except Fault (Tile A N) := do
  let info := L2.getInfo cfg t x m.address
  check (info.cstate = .invalid ∨ info.cstate = .shared) .l2ReqState
  if info.cstate = .shared then
    let x ← L2.invalidateCacheLine cfg t x m.address
    let x := x.send (cfg.home m.address) (toDirectory .invRep t m.address none m.modeled)
    pure (x.send (cfg.home m.address) (toDirectory .exReq t m.address none m.modeled))
  else
    pure (x.send (cfg.home m.address) (toDirectory .exReq t m.address none m.modeled))

def processShReqFromL1Cache : Tile A N :=
  x.send (cfg.home m.address) (toDirectory .shReq t m.address none m.modeled)

/-- Of the message only address and sender component are kept. -/
def handleMsgFromL1Cache : Except Fault (Tile A N) := do
  check m.dataBuf.isNone .dataPresent
  check x.outstanding.isNone .outstandingPending
  let x := { x with outstanding := some m }
  match m.type with
  | .exReq => processExReqFromL1Cache cfg t m x
  | .shReq => pure (processShReqFromL1Cache cfg t m x)
  | _ => throw .unrecognizedMsg

/-- `processExRepFromDramDirectory` and `processShRepFromDramDirectory`. -/
def processRepFromDramDirectory (cstate : CacheState) : Except Fault (Tile A N) :=
  match m.dataBuf with
  | none => throw .dataAbsent
  | some data => L2.insertCacheLineInHierarchy .msi cfg t x m.address ch.l1Way ch.l2Way cstate data

def processInvReqFromDramDirectory : Except Fault (Tile A N) := do
  let info := L2.getInfo cfg t x m.address
  if info.cstate ≠ .invalid then
    check (info.cstate = .shared) .invReqState
    let x ← L2.invalidateCacheLineInL1 .msi cfg t x info.cachedLoc m.address
    let x ← L2.invalidateCacheLine cfg t x m.address
    pure (x.send sender (toDirectory .invRep m.requester m.address none m.modeled))
  else
    pure x

def processFlushReqFromDramDirectory : Except Fault (Tile A N) := do
  let info := L2.getInfo cfg t x m.address
  if info.cstate ≠ .invalid then
    check (info.cstate = .modified) .flushReqState
    let x ← L2.invalidateCacheLineInL1 .msi cfg t x info.cachedLoc m.address
    let data ← L2.readCacheLine cfg t x m.address
    let x ← L2.invalidateCacheLine cfg t x m.address
    pure (x.send sender (toDirectory .flushRep m.requester m.address (some data) m.modeled))
  else
    pure x

def processWbReqFromDramDirectory : Except Fault (Tile A N) := do
  let info := L2.getInfo cfg t x m.address
  if info.cstate ≠ .invalid then
    check (info.cstate = .modified) .wbReqState
    let x ← L2.setCacheLineStateInL1 cfg t x info.cachedLoc m.address .shared
    let data ← L2.readCacheLine cfg t x m.address
    let x ← L2.setInfo cfg t x m.address (some { info with cstate := .shared })
    pure (x.send sender (toDirectory .wbRep m.requester m.address (some data) m.modeled))
  else
    pure x

/-- The reply to the outstanding request has been handled: wakes up the application thread. -/
def finishReply (x : Tile A N) : Except Fault (Tile A N) :=
  Tile.wakeUpAppThread { x with outstanding := none }

def handleMsgFromDramDirectory : Except Fault (Tile A N) :=
  match m.type with
  | .exRep => do finishReply (← processRepFromDramDirectory cfg t ch m x .modified)
  | .shRep => do finishReply (← processRepFromDramDirectory cfg t ch m x .shared)
  | .invReq => processInvReqFromDramDirectory cfg t sender m x
  | .flushReq => processFlushReqFromDramDirectory cfg t sender m x
  | .wbReq => processWbReqFromDramDirectory cfg t sender m x
  | _ => throw .unrecognizedMsg

end L2

/-! ## The DRAM directory controller -/

namespace Directory

variable (cfg : Config A N) (rnd : ℕ) (x : Tile A N) (a : A)

/-- A message of the directory to the L2 controllers. -/
def toL2 (type : MsgType) (requester : Fin N) (a : A) (data : Option LineData) (modeled : Bool) :
    ShmemMsg A N :=
  ⟨type, .dramDirectory, .l2Cache, requester, a, data, modeled, none, false⟩

def sendToOwner (e : DirectoryEntry N) (m : ShmemMsg A N) : Except Fault (Tile A N) :=
  match e.owner with
  | none => throw .badReceiver
  | some o => pure (x.send o m)

/-- INV_REQ to all tiles, or to the sharers on the list. -/
def sendInvReq (e : DirectoryEntry N) (m : ShmemMsg A N) : Except Fault (Tile A N) := do
  let (allTilesSharers, sharersList) ← e.sharers.getSharersList
  if allTilesSharers then pure (x.broadcast m)
  else sharersList.foldlM (fun x id => x.sendId id m) x

def retrieveDataAndSendToL2Cache (type : MsgType) (receiver : Fin N) (cached : Option LineData)
    (modeled : Bool) : Tile A N :=
  match cached with
  | some data => x.send receiver (toL2 type receiver a (some data) modeled)
  | none =>
    let data := getDataFromDram x a
    (setDram x a (some data)).send receiver (toL2 type receiver a (some data) modeled)

def processNullifyReq (r : ShmemMsg A N) : Except Fault (Tile A N × Bool) :=
  match x.home.directory.getDirectoryEntry cfg.directory r.address with
  | (_, none) => throw .entryMissing
  | (d, some e) => do
    let x := withDirectory x d
    match e.dstate with
    | .modified =>
      pure (← sendToOwner x e (toL2 .flushReq r.requester r.address none r.modeled), false)
    | .shared =>
      pure (← sendInvReq x e (toL2 .invReq r.requester r.address none r.modeled), false)
    | .uncached =>
      pure (withDirectory x (← x.home.directory.invalidateDirectoryEntry r.address), true)
    | _ => throw .unsupportedDState

/-- Replaces an entry and nullifies its line. The queue of this line holds the NULLIFY request only, so
no request follows when it completes at once. -/
def processDirectoryEntryAllocationReq (r : ShmemMsg A N) :
    Except Fault (Tile A N × DirectoryEntry N) := do
  let cands ← x.home.directory.getReplacementCandidates cfg.directory r.address
  match replacementCandidate x cands with
  | none => throw .noReplacementCandidate
  | some (b, _) =>
    let x := withDirectory x (← x.home.directory.replaceDirectoryEntry cfg.directory b r.address)
    let nullify : ShmemMsg A N :=
      ⟨.nullifyReq, .dramDirectory, .dramDirectory, r.requester, b, none, true, none, false⟩
    let x := enqueue x b nullify
    check ((x.home.reqQueue b).length = 1) .nullifyCount
    let (x, done) ← processNullifyReq cfg x nullify
    pure (if done then dequeue x b else x, .create N cfg.directory.type cfg.directory.maxHwSharers)

/-- The entry of the line of `r`, allocated if there is none. -/
def entryFor (r : ShmemMsg A N) : Except Fault (Tile A N × DirectoryEntry N) :=
  match x.home.directory.getDirectoryEntry cfg.directory r.address with
  | (d, some e) => pure (withDirectory x d, e)
  | (_, none) => processDirectoryEntryAllocationReq cfg x r

def processExReqFromL2Cache (r : ShmemMsg A N) (cached : Option LineData) :
    Except Fault (Tile A N × Bool) := do
  let (x, e) ← entryFor cfg x r
  match e.dstate with
  | .modified =>
    check cached.isNone .cachedDataPresent
    pure (← sendToOwner x e (toL2 .flushReq r.requester r.address none r.modeled), false)
  | .shared =>
    check cached.isNone .cachedDataPresent
    pure (← sendInvReq x e (toL2 .invReq r.requester r.address none r.modeled), false)
  | .uncached =>
    let (e, added) ← e.addSharer r.requester
    check (added = true) .addSharerFailed
    let e ← e.setOwner (some r.requester)
    let x := setEntry cfg x r.address { e with dstate := .modified }
    pure (retrieveDataAndSendToL2Cache x r.address .exRep r.requester cached r.modeled, true)
  | _ => throw .unsupportedDState

def processShReqFromL2Cache (r : ShmemMsg A N) (cached : Option LineData) :
    Except Fault (Tile A N × Bool) := do
  let (x, e) ← entryFor cfg x r
  match e.dstate with
  | .modified =>
    check cached.isNone .cachedDataPresent
    pure (← sendToOwner x e (toL2 .wbReq r.requester r.address none r.modeled), false)
  | .shared =>
    let (e', added) ← e.addSharer r.requester
    if added then
      let x := setEntry cfg x r.address e'
      pure (retrieveDataAndSendToL2Cache x r.address .shRep r.requester cached r.modeled, true)
    else
      -- make room by invalidating another sharer
      let sharer ← e'.sharers.getOneSharer rnd
      let x := setEntry cfg x r.address e'
      pure (← x.sendId sharer (toL2 .invReq r.requester r.address none r.modeled), false)
  | .uncached =>
    let (e, added) ← e.addSharer r.requester
    check (added = true) .addSharerFailed
    let x := setEntry cfg x r.address { e with dstate := .shared }
    pure (retrieveDataAndSendToL2Cache x r.address .shRep r.requester cached r.modeled, true)
  | _ => throw .unsupportedDState

def processReq (r : ShmemMsg A N) : Except Fault (Tile A N × Bool) :=
  match r.type with
  | .exReq => processExReqFromL2Cache cfg x r none
  | .shReq => processShReqFromL2Cache cfg rnd x r none
  | _ => throw .unrecognizedReq

/-- Dequeues the completed request and starts the next one. The list is the queue of `a`, which the
functions it calls leave alone. -/
def processNextReqFromL2Cache (a : A) : List (ShmemMsg A N) → Tile A N → Except Fault (Tile A N)
  | [], _ => throw .queueEmpty
  | [_], x => pure (dequeue x a)
  | _ :: r :: q, x => do
    let (x, done) ← processReq cfg rnd (dequeue x a) r
    if done then processNextReqFromL2Cache a (r :: q) x else pure x

def finish (a : A) (y : Tile A N × Bool) : Except Fault (Tile A N) :=
  if y.2 then processNextReqFromL2Cache cfg rnd a (y.1.home.reqQueue a) y.1 else pure y.1

variable (sender : Fin N) (m : ShmemMsg A N)

def processInvRepFromL2Cache : Except Fault (Tile A N) :=
  match x.home.directory.getDirectoryEntry cfg.directory m.address with
  | (_, none) => throw .entryMissing
  | (d, some e) => do
    let x := withDirectory x d
    check (e.dstate = .shared) .invRepState
    let e ← e.removeSharer sender false
    let e := if e.sharers.getNumSharers = 0 then { e with dstate := .uncached } else e
    let x := setEntry cfg x m.address e
    match x.home.reqQueue m.address with
    | [] => pure x
    | r :: _ =>
      match r.type with
      | .exReq =>
        if e.dstate = .uncached then
          finish cfg rnd m.address (← processExReqFromL2Cache cfg x r none)
        else pure x
      | .shReq => finish cfg rnd m.address (← processShReqFromL2Cache cfg rnd x r none)
      | _ =>
        if e.dstate = .uncached then
          finish cfg rnd m.address (← processNullifyReq cfg x r)
        else pure x

def processFlushRepFromL2Cache : Except Fault (Tile A N) :=
  match x.home.directory.getDirectoryEntry cfg.directory m.address with
  | (_, none) => throw .entryMissing
  | (d, some e) => do
    let x := withDirectory x d
    check (e.dstate = .modified) .flushRepState
    let e ← e.removeSharer sender false
    let e ← e.setOwner none
    let x := setEntry cfg x m.address { e with dstate := .uncached }
    match x.home.reqQueue m.address with
    | [] => putDataToDram x m.address m.dataBuf
    | r :: _ =>
      match r.type with
      | .exReq => finish cfg rnd m.address (← processExReqFromL2Cache cfg x r m.dataBuf)
      | .shReq =>
        let x ← putDataToDram x m.address m.dataBuf
        finish cfg rnd m.address (← processShReqFromL2Cache cfg rnd x r m.dataBuf)
      | _ =>
        let x ← putDataToDram x m.address m.dataBuf
        finish cfg rnd m.address (← processNullifyReq cfg x r)

def processWbRepFromL2Cache : Except Fault (Tile A N) :=
  match x.home.directory.getDirectoryEntry cfg.directory m.address with
  | (_, none) => throw .entryMissing
  | (d, some e) => do
    let x := withDirectory x d
    check (e.dstate = .modified) .wbRepState
    check (e.sharers.hasSharer sender = true) .wbRepSharer
    let e ← e.setOwner none
    let x := setEntry cfg x m.address { e with dstate := .shared }
    match x.home.reqQueue m.address with
    | [] => throw .wbRepNoReq
    | r :: _ =>
      let x ← putDataToDram x m.address m.dataBuf
      check (r.type = .shReq) .wbRepReq
      finish cfg rnd m.address (← processShReqFromL2Cache cfg rnd x r m.dataBuf)

/-- Queues a request, which has no payload, and serves it if no other one waits. -/
def queueReq : Except Fault (Tile A N) := do
  check m.dataBuf.isNone .dataPresent
  let x := enqueue x m.address m
  if (x.home.reqQueue m.address).length = 1 then
    finish cfg rnd m.address (← processReq cfg rnd x m)
  else pure x

def handleMsgFromL2Cache : Except Fault (Tile A N) :=
  match m.type with
  | .exReq | .shReq => queueReq cfg rnd x m
  | .invRep => processInvRepFromL2Cache cfg rnd x sender m
  | .flushRep => processFlushRepFromL2Cache cfg rnd x sender m
  | .wbRep => processWbRepFromL2Cache cfg rnd x sender m
  | _ => throw .unrecognizedMsg

end Directory

/-- `handleMsgFromNetwork` of tile `t`. -/
def handle (cfg : Config A N) (t sender : Fin N) (ch : Choice) (m : ShmemMsg A N) (x : Tile A N) :
    Except Fault (Tile A N) :=
  match m.receiverComponent, m.senderComponent with
  | .l2Cache, .l1ICache | .l2Cache, .l1DCache => do
    check (sender = t) .senderTile
    L2.handleMsgFromL1Cache cfg t m x
  | .l2Cache, .dramDirectory => L2.handleMsgFromDramDirectory cfg t ch sender m x
  | .dramDirectory, .l2Cache => Directory.handleMsgFromL2Cache cfg ch.rnd x sender m
  | _, _ => throw .unrecognizedComponent

/-- The machine. Initially no line is cached and the directories have no entries; the DRAM contents
are arbitrary. -/
def system (cfg : Config A N) (dram : Fin N → A → Option LineData) :
    System (State A N (Home A N)) (Action A N) Fault (Event A N) :=
  PrL2.system .msi cfg (handle cfg) fun t h => h = ⟨.empty, fun _ => [], dram t, ()⟩

end Graphite.Msi
