import Graphite.Directory.Cache

/-! # Private L1 and L2 caches

What the two protocols with private L2 caches share: the messages, the state of a tile, the L1
controllers, the parts of the L2 controller between L1 and L2, and the steps of a machine whose tiles
handle one message or memory access at a time, under the lock of the memory manager. A channel from
one tile to another is a FIFO list kept with the sender. Timing and event counters are left out.
-/

namespace Graphite.PrL2

open Outcome SetAssoc Function

/-- `ShmemMsg::Type` of both protocols. -/
inductive MsgType
  | exReq | shReq | invReq | flushReq | wbReq | invFlushCombinedReq | exRep | shRep | upgradeRep
  | invRep | flushRep | wbRep | nullifyReq
  deriving DecidableEq, Repr

/-- `ShmemMsg`. The MSI protocol has no `single_receiver` and `reply_expected`. -/
structure ShmemMsg (A : Type) (N : ℕ) where
  type : MsgType
  senderComponent : MemComponent
  receiverComponent : MemComponent
  requester : Fin N
  address : A
  dataBuf : Option LineData := none
  modeled : Bool
  singleReceiver : Option (Fin N) := none
  replyExpected : Bool := false

/-- `PrL2CacheLineInfo` of a valid line. -/
structure L2Info where
  cstate : CacheState
  cachedLoc : MemComponent
  deriving DecidableEq, Repr

/-- The info `getCacheLineInfo` leaves in place when the line is not found. -/
def L2Info.default : L2Info := ⟨.invalid, .invalid⟩

/-- A memory access of the core to one line. For a load only the length of `buf` counts. -/
structure Access (A : Type) where
  component : MemComponent
  lock : LockSignal
  op : MemOp
  address : A
  offset : ℕ
  buf : List UInt8

/-- Where the application thread of a tile is: between accesses, between the two halves of an atomic
read-modify-write, waiting for the sim thread, or woken up by it. The number is `access_num`. -/
inductive App (A : Type)
  | idle
  | locked (a : A)
  | waiting (acc : Access A) (accessNum : ℕ)
  | granted (acc : Access A) (accessNum : ℕ)

/-- The state of a tile: its caches, the message its L2 waits for, its application thread, the
directory controller it is home of, and the channels to the other tiles. -/
structure Tile (A : Type) (N : ℕ) (H : Type) where
  l1i : Store A CacheState LineData
  l1d : Store A CacheState LineData
  l2 : Store A L2Info LineData
  outstanding : Option (ShmemMsg A N)
  app : App A
  home : H
  out : Fin N → List (ShmemMsg A N)

/-- The directory controller of a tile and its DRAM. `R` is the type of the queued requests and `D` that
of the data a controller keeps while it works on a line. -/
structure Home (A : Type) (N : ℕ) (R D : Type) where
  directory : DirectoryCache A N
  reqQueue : A → List R
  dram : A → Option LineData
  dataList : D

/-- A completed access, with the bytes it read or wrote. -/
inductive Event (A : Type) (N : ℕ)
  | load (t : Fin N) (a : A) (offset : ℕ) (bytes : List UInt8)
  | store (t : Fin N) (a : A) (offset : ℕ) (bytes : List UInt8)

structure Config (A : Type) (N : ℕ) where
  home : A → Fin N
  l1i : Fin N → Geometry A
  l1d : Fin N → Geometry A
  l2 : Fin N → Geometry A
  directory : DirectoryConfig A
  isApplicationTile : Fin N → Bool
  lineSize : ℕ

/-- The two protocols; their L1 and L2 controllers differ in a few places. -/
inductive Protocol
  | msi | mosi
  deriving DecidableEq, Repr

variable {A : Type} [DecidableEq A] {N : ℕ} {H I : Type}

/-! ## Caches -/

section Cache

variable (g : Geometry A) (c : Store A I LineData) (a : A)

def getCacheLineInfo : Option I := (get g c a).map Line.info

/-- Overwrites the info of a line; `none` is an info that was invalidated. -/
def setCacheLineInfo (info : Option I) : Except Fault (Store A I LineData) :=
  match get g c a with
  | none => throw .lineAbsent
  | some l => pure (assign g c a (info.map fun i => ⟨a, i, l.data⟩))

/-- `accessCacheLine` with `LOAD` of the whole line. -/
def readLine : Except Fault LineData :=
  match get g c a with
  | none => throw .lineAbsent
  | some l => pure l.data

/-- `accessCacheLine` with `STORE`. -/
def writeLine (lineSize offset : ℕ) (buf : List UInt8) : Except Fault (Store A I LineData) :=
  match get g c a with
  | none => throw .lineAbsent
  | some l => do
    check (offset + buf.length ≤ lineSize) .lineBounds
    pure (assign g c a (some ⟨a, l.info, writeBytes l.data offset buf⟩))

/-- Fills way `w` of the set of `a`, the way the replacement policy chose, and returns the line that
was evicted from it. -/
def insertLine (w : ℕ) (info : I) (data : LineData) :
    Store A I LineData × Option (Line A I LineData) :=
  (put g c a w (some ⟨a, info, data⟩), c (g.set a) w)

end Cache

namespace Tile

variable (x : Tile A N H)

def send (dst : Fin N) (m : ShmemMsg A N) : Tile A N H :=
  { x with out := update x.out dst (x.out dst ++ [m]) }

def broadcast (m : ShmemMsg A N) : Tile A N H :=
  { x with out := fun dst => x.out dst ++ [m] }

theorem toNat_lt {id : ℤ} (h : 0 ≤ id ∧ id < N) : id.toNat < N := by omega

def sendId (id : ℤ) (m : ShmemMsg A N) : Except Fault (Tile A N H) :=
  if h : 0 ≤ id ∧ id < N then pure (x.send ⟨id.toNat, toNat_lt h⟩ m) else throw .badReceiver

/-- `wakeUpAppThread`, after which the sim thread waits for the application thread. -/
def wakeUpAppThread : Except Fault (Tile A N H) :=
  match x.app with
  | .waiting acc n => pure { x with app := .granted acc n }
  | _ => throw .appThreadNotWaiting

end Tile

/-! ## The L1 controllers -/

namespace L1

variable (p : Protocol) (cfg : Config A N) (t : Fin N) (x : Tile A N H) (comp : MemComponent) (a : A)

def getL1Cache : Except Fault (Store A CacheState LineData) :=
  match comp with
  | .l1ICache => pure x.l1i
  | .l1DCache => pure x.l1d
  | _ => throw .l1Component

def setL1Cache (c : Store A CacheState LineData) : Tile A N H :=
  match comp with
  | .l1ICache => { x with l1i := c }
  | _ => { x with l1d := c }

def geometry : Geometry A :=
  match comp with
  | .l1ICache => cfg.l1i t
  | _ => cfg.l1d t

def getCacheLineState : Except Fault CacheState := do
  let c ← getL1Cache x comp
  pure ((getCacheLineInfo (geometry cfg t comp) c a).getD .invalid)

def setCacheLineState (cstate : CacheState) : Except Fault (Tile A N H) := do
  let c ← getL1Cache x comp
  check ((getCacheLineInfo (geometry cfg t comp) c a).getD .invalid ≠ .invalid) .l1StateInvalid
  let c ← setCacheLineInfo (geometry cfg t comp) c a (some cstate)
  pure (setL1Cache x comp c)

/-- The MOSI controller invalidates without looking whether the line is valid. -/
def invalidateCacheLine : Except Fault (Tile A N H) := do
  let c ← getL1Cache x comp
  if p = .msi ∧ (getCacheLineInfo (geometry cfg t comp) c a).isNone then
    pure x
  else
    let c ← setCacheLineInfo (geometry cfg t comp) c a none
    pure (setL1Cache x comp c)

def insertCacheLine (w : ℕ) (cstate : CacheState) (fill : LineData) :
    Except Fault (Tile A N H × Option A) := do
  let c ← getL1Cache x comp
  let (c, evicted) := insertLine (geometry cfg t comp) c a w cstate fill
  pure (setL1Cache x comp c, evicted.map Line.tag)

end L1

/-! ## The L2 controller towards L1 -/

namespace L2

variable (p : Protocol) (cfg : Config A N) (t : Fin N) (x : Tile A N H) (comp : MemComponent) (a : A)

def getInfo : L2Info := (getCacheLineInfo (cfg.l2 t) x.l2 a).getD .default

def setInfo (info : Option L2Info) : Except Fault (Tile A N H) := do
  let c ← setCacheLineInfo (cfg.l2 t) x.l2 a info
  pure { x with l2 := c }

def readCacheLine : Except Fault LineData := readLine (cfg.l2 t) x.l2 a

def writeCacheLine (offset : ℕ) (buf : List UInt8) : Except Fault (Tile A N H) := do
  let c ← writeLine (cfg.l2 t) x.l2 a cfg.lineSize offset buf
  pure { x with l2 := c }

def invalidateCacheLine : Except Fault (Tile A N H) := setInfo cfg t x a none

def setCacheLineStateInL1 (cstate : CacheState) : Except Fault (Tile A N H) :=
  if comp ≠ .invalid then L1.setCacheLineState cfg t x comp a cstate else pure x

def invalidateCacheLineInL1 : Except Fault (Tile A N H) :=
  if comp ≠ .invalid then L1.invalidateCacheLine p cfg t x comp a else pure x

/-- The message that gives an evicted line back to its home. -/
def evictionMsg (l : Line A L2Info LineData) : Except Fault (ShmemMsg A N) := do
  let modeled := cfg.isApplicationTile t
  if l.info.cstate = .modified ∨ (p = .mosi ∧ l.info.cstate = .owned) then
    pure ⟨.flushRep, .l2Cache, .dramDirectory, t, l.tag, some l.data, modeled, none, false⟩
  else
    check (l.info.cstate = .shared) .evictedState
    pure ⟨.invRep, .l2Cache, .dramDirectory, t, l.tag, none, modeled, none, false⟩

def insertCacheLine (w : ℕ) (cstate : CacheState) (fill : LineData) :
    Except Fault (Tile A N H) := do
  check (p = .msi → comp ≠ .invalid) .cachedLocSet
  let (c, evicted) := insertLine (cfg.l2 t) x.l2 a w (⟨cstate, comp⟩ : L2Info) fill
  let x := { x with l2 := c }
  match evicted with
  | none => pure x
  | some l =>
    let x ← invalidateCacheLineInL1 p cfg t x l.info.cachedLoc l.tag
    let m ← evictionMsg p cfg t l
    pure (x.send (cfg.home l.tag) m)

def insertCacheLineInL1 (w : ℕ) (cstate : CacheState) (fill : LineData) :
    Except Fault (Tile A N H) := do
  check (comp ≠ .invalid) .l1Component
  let (x, evicted) ← L1.insertCacheLine cfg t x comp a w cstate fill
  match evicted with
  | none => pure x
  | some b =>
    -- clear the present bit of the evicted line
    let info := getInfo cfg t x b
    if info.cachedLoc ≠ comp then
      check (comp = .l1ICache) .evictedCachedLoc
      setInfo cfg t x b (some info)
    else
      setInfo cfg t x b (some { info with cachedLoc := .invalid })

def insertCacheLineInHierarchy (wL1 : MemComponent → ℕ) (wL2 : ℕ) (cstate : CacheState) (fill : LineData) :
    Except Fault (Tile A N H) := do
  match x.outstanding with
  | none => throw .outstandingAddress
  | some req =>
    check (a = req.address) .outstandingAddress
    let x ← insertCacheLine p cfg t x req.senderComponent a wL2 cstate fill
    insertCacheLineInL1 cfg t x req.senderComponent a (wL1 req.senderComponent) cstate fill

/-- The new cached location of a line that L1 component `comp` fetches from the L2. -/
def newCachedLoc (info : L2Info) : Except Fault MemComponent :=
  if info.cachedLoc ≠ .invalid then do
    check (info.cachedLoc ≠ comp) .cachedLocSet
    check (info.cstate = .shared) .cachedLocState
    pure .l1DCache
  else do
    check (comp ≠ .invalid) .cachedLocSet
    pure comp

/-- Serves a miss of an L1 cache from the L2 if it can; returns whether the L2 misses too. -/
def processShmemRequestFromL1Cache (w : ℕ) (op : MemOp) : Except Fault (Tile A N H × Bool) := do
  let info := getInfo cfg t x a
  if op.permissible info.cstate then
    let data ← readCacheLine cfg t x a
    let x ← insertCacheLineInL1 cfg t x comp a w info.cstate data
    let loc ← newCachedLoc comp info
    let x ← setInfo cfg t x a (some { info with cachedLoc := loc })
    pure (x, false)
  else
    pure (x, true)

end L2

/-! ## Memory accesses of the core -/

namespace L1

variable (p : Protocol) (cfg : Config A N) (t : Fin N) (x : Tile A N H)

def getShmemMsgType (op : MemOp) : MsgType :=
  match op with
  | .read => .shReq
  | .readEx | .write => .exReq

/-- Reads or writes the L1 line; the L1 caches write through to the L2. -/
def accessCache (acc : Access A) : Except Fault (Tile A N H × Event A N) := do
  let c ← getL1Cache x acc.component
  match acc.op with
  | .read | .readEx =>
    let d ← readLine (geometry cfg t acc.component) c acc.address
    check (acc.offset + acc.buf.length ≤ cfg.lineSize) .lineBounds
    pure (x, .load t acc.address acc.offset (readBytes d acc.offset acc.buf.length))
  | .write =>
    let c ← writeLine (geometry cfg t acc.component) c acc.address cfg.lineSize acc.offset acc.buf
    let x ← L2.writeCacheLine cfg t (setL1Cache x acc.component c) acc.address acc.offset acc.buf
    pure (x, .store t acc.address acc.offset acc.buf)

/-- The thread's state after an access; the lock stays held after one that locks. -/
def after (acc : Access A) : App A :=
  if acc.lock = .lock then .locked acc.address else .idle

/-- One iteration of the loop of `processMemOpFromCore`. -/
def processMemOpFromCore (w : ℕ) (acc : Access A) (accessNum : ℕ) :
    Except Fault (Tile A N H × List (Event A N)) := do
  check (accessNum = 1 ∨ accessNum = 2) .accessNum
  let cstate ← getCacheLineState cfg t x acc.component acc.address
  if acc.op.permissible cstate then
    let (x, ev) ← accessCache cfg t x acc
    pure ({ x with app := after acc }, [ev])
  else
    check (acc.lock ≠ .unlock) .unlockMiss
    -- the MSI controller drops its copy before it asks the L2
    let x ← if p = .msi then invalidateCacheLine p cfg t x acc.component acc.address else pure x
    let (x, miss) ← L2.processShmemRequestFromL1Cache cfg t x acc.component acc.address w acc.op
    if miss then
      let m : ShmemMsg A N := ⟨getShmemMsgType acc.op, acc.component, .l2Cache, t, acc.address, none,
        cfg.isApplicationTile t, none, false⟩
      pure ({ x.send t m with app := .waiting acc accessNum }, [])
    else
      let (x, ev) ← accessCache cfg t x acc
      pure ({ x with app := after acc }, [ev])

end L1

/-! ## The home of a line -/

namespace Directory

variable {R D : Type} (cfg : Config A N) (x : Tile A N (Home A N R D)) (a : A)

def enqueue (r : R) : Tile A N (Home A N R D) :=
  { x with home := { x.home with
      reqQueue := update x.home.reqQueue a (x.home.reqQueue a ++ [r]) } }

def dequeue : Tile A N (Home A N R D) :=
  { x with home := { x.home with
      reqQueue := update x.home.reqQueue a (x.home.reqQueue a).tail } }

def withDirectory (d : DirectoryCache A N) : Tile A N (Home A N R D) :=
  { x with home := { x.home with directory := d } }

def setEntry (e : DirectoryEntry N) : Tile A N (Home A N R D) :=
  withDirectory x (x.home.directory.setDirectoryEntry cfg.directory a e)

def setDram (data : Option LineData) : Tile A N (Home A N R D) :=
  { x with home := { x.home with dram := update x.home.dram a data } }

/-- `getDataFromDram` creates a zero line for an address without one. -/
def getDataFromDram : LineData := (x.home.dram a).getD zeroLine

def putDataToDram (data : Option LineData) : Except Fault (Tile A N (Home A N R D)) := do
  check (x.home.dram a).isSome .dramLineAbsent
  match data with
  | none => throw .dataAbsent
  | some d => pure (setDram x a (some d))

/-- The candidate with the fewest sharers among those without a pending request. -/
def replacementCandidate (cands : List (A × DirectoryEntry N)) : Option (A × DirectoryEntry N) :=
  cands.foldl (fun best c =>
    if (best.all fun b => b.2.sharers.getNumSharers > c.2.sharers.getNumSharers) ∧
        (x.home.reqQueue c.1).isEmpty then some c else best) none

end Directory

/-! ## The machine -/

/-- The choices a step leaves open: the ways the replacement policies pick, and a random draw of the
directory. -/
structure Choice where
  l1iWay : ℕ
  l1dWay : ℕ
  l2Way : ℕ
  rnd : ℕ

/-- The way of the L1 cache that is filled. -/
def Choice.l1Way (ch : Choice) : MemComponent → ℕ
  | .l1ICache => ch.l1iWay
  | _ => ch.l1dWay

inductive Action (A : Type) (N : ℕ)
  | access (t : Fin N) (acc : Access A) (ch : Choice)
  | resume (t : Fin N) (ch : Choice)
  | deliver (src dst : Fin N) (ch : Choice)

abbrev State (A : Type) (N : ℕ) (H : Type) := Fin N → Tile A N H

/-- The accesses the core issues: inside a line and not empty, fetches only read, and only the load
of an atomic read-modify-write locks. -/
def Access.WellFormed (cfg : Config A N) (acc : Access A) : Prop :=
  acc.offset + acc.buf.length ≤ cfg.lineSize ∧ acc.buf ≠ [] ∧
  (acc.component = .l1DCache ∨ acc.component = .l1ICache ∧ acc.op = .read ∧ acc.lock = .none) ∧
  (acc.lock = .lock → acc.op = .readEx) ∧ (acc.lock = .unlock → acc.op = .write)
deriving Decidable

/-- The ways the replacement policies of tile `t` pick exist. -/
def Choice.Ok (cfg : Config A N) (t : Fin N) (ch : Choice) : Prop :=
  ch.l1iWay < (cfg.l1i t).ways ∧ ch.l1dWay < (cfg.l1d t).ways ∧ ch.l2Way < (cfg.l2 t).ways
deriving Decidable

def App.Accepts (acc : Access A) : App A → Prop
  | .idle => acc.lock ≠ .unlock
  | .locked a => acc.lock = .unlock ∧ acc.address = a
  | _ => False

def App.Woken : App A → Prop
  | .granted _ _ => True
  | _ => False

/-- The sim thread may run: the application thread is between accesses or waits. -/
def App.Open : App A → Prop
  | .idle | .waiting _ _ => True
  | _ => False

section Machine

variable (p : Protocol) (cfg : Config A N)
  (handle : Fin N → Fin N → Choice → ShmemMsg A N → Tile A N H → Except Fault (Tile A N H))

/-- What can happen next. While the application thread holds the lock of its tile, or has been woken up
but has not run yet, the sim thread of the tile handles no message. -/
def enabled (s : State A N H) : Action A N → Prop
  | .access t acc ch => acc.WellFormed cfg ∧ ch.Ok cfg t ∧ (s t).app.Accepts acc
  | .resume t ch => ch.Ok cfg t ∧ (s t).app.Woken
  | .deliver src dst ch => ch.Ok cfg dst ∧ (s src).out dst ≠ [] ∧ (s dst).app.Open

/-- `s` without the first message on the channel from `src` to `dst`. -/
def State.pop (s : State A N H) (src dst : Fin N) : State A N H :=
  update s src
    { s src with out := update (s src).out dst ((s src).out dst).tail }

def step (s : State A N H) : Action A N → Except Fault (State A N H × List (Event A N))
  | .access t acc ch => do
    let (x, evs) ← L1.processMemOpFromCore p cfg t (s t) (ch.l1Way acc.component) acc 1
    pure (update s t x, evs)
  | .resume t ch =>
    match (s t).app with
    | .granted acc n => do
      let (x, evs) ← L1.processMemOpFromCore p cfg t (s t) (ch.l1Way acc.component) acc (n + 1)
      pure (update s t x, evs)
    | _ => pure (s, [])
  | .deliver src dst ch =>
    match (s src).out dst with
    | [] => pure (s, [])
    | m :: _ => do
      let s := s.pop src dst
      let x ← handle dst src ch m (s dst)
      pure (update s dst x, [])

def system (init : Fin N → H → Prop) :
    System (State A N H) (Action A N) Fault (Event A N) where
  init s := ∀ t, init t (s t).home ∧ (s t).l1i = SetAssoc.empty ∧ (s t).l1d = SetAssoc.empty ∧
    (s t).l2 = SetAssoc.empty ∧ (s t).outstanding = none ∧ (s t).app = .idle ∧
    (s t).out = fun _ => []
  enabled := enabled cfg
  step := step p cfg handle

end Machine

section Decide

variable (cfg : Config A N)

instance (acc : Access A) : DecidablePred (App.Accepts acc) := fun a => by
  cases a <;> dsimp only [App.Accepts] <;> infer_instance

instance : DecidablePred (App.Woken (A := A)) := fun a => by
  cases a <;> dsimp only [App.Woken] <;> infer_instance

instance : DecidablePred (App.Open (A := A)) := fun a => by
  cases a <;> dsimp only [App.Open] <;> infer_instance

instance (s : State A N H) : DecidablePred (enabled cfg s) := fun a => by
  cases a <;> dsimp only [enabled] <;> infer_instance

end Decide

/-- The memory accesses of a run are loads and stores of data, not instruction fetches. -/
def DataOnly : Action A N → Prop
  | .access _ acc _ => acc.component = .l1DCache
  | _ => True

instance : DecidablePred (DataOnly : Action A N → Prop) := fun a => by
  cases a <;> dsimp only [DataOnly] <;> infer_instance

end Graphite.PrL2
