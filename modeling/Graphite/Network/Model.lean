import Graphite.Library.Outcome
import Mathlib.Data.List.FinRange

/-! # The network of the simulator

A packet is routed from tile to tile by the network models of the tiles. A model returns the next hops
of a packet; a hop is handed to the transport, or, if all tiles share one memory, routed further at
once. The routers and links only matter for the time: their state is arbitrary and may change between
two steps.
-/

namespace Graphite.Network

open Outcome

inductive Fault
  | notSender | notRoutable | unrecognizedNode | badPort | invalidTile
  | notReceiveTile | wrongReceiver | notInCluster | noHub | divisionByZero | noLaserMode | badClusterSize | notFound
  deriving DecidableEq, Repr

/-- The application tiles come first, then the thread spawners and the MCP. -/
structure Tiles where
  application : ℕ
  total : ℕ
  le : application ≤ total

abbrev Tiles.Tile (T : Tiles) := Fin T.total

inductive Receiver (T : Tiles)
  | tile (t : T.Tile)
  | broadcast
  deriving DecidableEq

/-- SEND_TILE, RECEIVE_TILE and the node types of a model. -/
inductive Node (κ : Type)
  | sendTile | receiveTile
  | inner (k : κ)
  deriving DecidableEq

structure NetPacket (T : Tiles) (κ : Type) where
  sender : T.Tile
  receiver : Receiver T
  node : Node κ
  time : ℕ
  zeroLoadDelay : ℕ
  contentionDelay : ℕ
  data : ℕ
  deriving DecidableEq

structure Hop (T : Tiles) (κ : Type) where
  nextTile : T.Tile
  nextNode : Node κ
  time : ℕ
  zeroLoadDelay : ℕ
  contentionDelay : ℕ

variable {T : Tiles} {κ ρ : Type}

def Hop.make (pkt : NetPacket T κ) (t : T.Tile) (node : Node κ) (zeroLoadDelay contentionDelay : ℕ) :
    Hop T κ where
  nextTile := t
  nextNode := node
  time := pkt.time + contentionDelay + zeroLoadDelay
  zeroLoadDelay := pkt.zeroLoadDelay + zeroLoadDelay
  contentionDelay := pkt.contentionDelay + contentionDelay

def isApplicationTile (t : T.Tile) : Prop := t.val < T.application
deriving Decidable

def isSystemTile (t : T.Tile) : Prop := T.application ≤ t.val
deriving Decidable

def Receiver.routable : Receiver T → Bool
  | .tile r => decide (isApplicationTile r)
  | .broadcast => true

/-- The virtual functions of a network model; the last two depend on the state of the simulator. -/
structure NetworkModel (T : Tiles) (κ ρ : Type) where
  hasBroadcastCapability : Bool
  routePacket : T.Tile → NetPacket T κ → ρ → Except Fault (List (Hop T κ) × ρ)
  isModelEnabled : T.Tile → NetPacket T κ → ρ → Bool
  serialization : T.Tile → NetPacket T κ → ρ → ℕ

namespace NetworkModel

/-- The hops that bypass the model, and whether they are all. -/
def processCornerCases (t : T.Tile) (pkt : NetPacket T κ) : Except Fault (Bool × List (Hop T κ)) := do
  check (pkt.sender = t) .notSender
  let direct (t : T.Tile) : Hop T κ := .make pkt t .receiveTile 0 0
  if pkt.receiver = .tile pkt.sender then pure (true, [direct pkt.sender])
  else if isSystemTile pkt.sender then
    match pkt.receiver with
    | .broadcast => pure (true, (List.finRange T.total).map direct)
    | .tile r => pure (true, [direct r])
  else
    match pkt.receiver with
    | .tile r =>
      if isSystemTile r then pure (true, [direct r])
      else do
        check (isApplicationTile pkt.sender ∧ isApplicationTile r) .notRoutable
        pure (false, [])
    | .broadcast => do
      check (isApplicationTile pkt.sender) .notRoutable
      pure (false, ((List.finRange T.total).filter fun t => isSystemTile t).map direct)

variable [DecidableEq κ] (M : NetworkModel T κ ρ)

def _routePacket (t : T.Tile) (pkt : NetPacket T κ) (r : ρ) : Except Fault (List (Hop T κ) × ρ) := do
  let (processed, direct) ←
    if pkt.node = .sendTile then do
      check (pkt.sender = t) .notSender
      processCornerCases t pkt
    else pure (false, [])
  if processed then pure (direct, r)
  else do
    check (isApplicationTile pkt.sender ∧ pkt.receiver.routable ∧ pkt.receiver ≠ .tile pkt.sender)
      .notRoutable
    let (hops, r) ← M.routePacket t pkt r
    pure (direct ++ hops, r)

/-- The packet as it is received; the time for its flits is added. -/
def _processReceivedPacket (t : T.Tile) (pkt : NetPacket T κ) (r : ρ) :
    Except Fault (NetPacket T κ) := do
  check (pkt.node = .receiveTile) .notReceiveTile
  if isSystemTile pkt.sender ∨ isSystemTile t ∨ pkt.receiver = .tile pkt.sender ∨
      ¬ M.isModelEnabled t pkt r then pure pkt
  else do
    check (pkt.receiver = .broadcast ∨ pkt.receiver = .tile t) .wrongReceiver
    let latency := M.serialization t pkt r
    pure { pkt with
      time := pkt.time + latency
      zeroLoadDelay := pkt.zeroLoadDelay + latency }

end NetworkModel

/-- The routers and links of a model, named by `γ`: the delays in cycles that they add for a packet and its
output ports, and how long a number of cycles is. -/
structure Timing (T : Tiles) (κ γ ρ : Type) where
  process : γ → NetPacket T κ → List ℕ → ρ → (ℕ × ℕ) × ρ
  latency : T.Tile → ℕ → ρ → ℕ
  isModelEnabled : T.Tile → NetPacket T κ → ρ → Bool
  serialization : T.Tile → NetPacket T κ → ρ → ℕ

namespace Timing

variable {γ : Type} (timing : Timing T κ γ ρ) (t : T.Tile) (pkt : NetPacket T κ)

/-- `RouterModel::processPacket`: the zero-load delay and the contention delay. -/
def router (c : γ) (numOutputPorts : ℕ) (outputPorts : List ℕ) (r : ρ) : Except Fault ((ℕ × ℕ) × ρ) :=
  if timing.isModelEnabled t pkt r then do
    check (1 ≤ outputPorts.length ∧ outputPorts.length ≤ numOutputPorts ∧
      ∀ p ∈ outputPorts, p < numOutputPorts) .badPort
    pure (timing.process c pkt outputPorts r)
  else pure ((0, 0), r)

/-- `processPacket` of a link, which adds to the zero-load delay only. -/
def link (c : γ) (r : ρ) : ℕ × ρ :=
  if timing.isModelEnabled t pkt r then ((timing.process c pkt [] r).1.1, (timing.process c pkt [] r).2)
  else (0, r)

end Timing

/-- A packet on its way to a tile. -/
abbrev Flight (T : Tiles) (κ : Type) := T.Tile × NetPacket T κ

def NetPacket.take (pkt : NetPacket T κ) (hop : Hop T κ) : Flight T κ :=
  (hop.nextTile, { pkt with
    node := hop.nextNode
    time := hop.time
    zeroLoadDelay := hop.zeroLoadDelay
    contentionDelay := hop.contentionDelay })

/-- A thread in `forwardPacket` at `tile`, with its queue of hops and the packets that it has to forward
after that. -/
structure Forward (T : Tiles) (κ : Type) where
  tile : T.Tile
  rest : List (NetPacket T κ)
  queue : List (Flight T κ)
  deriving DecidableEq

/-- A packet is sent by the application, takes a hop from a tile, and is received. -/
inductive Event (T : Tiles) (κ : Type)
  | sent (pkt : NetPacket T κ)
  | hop (t : T.Tile) (f : Flight T κ)
  | received (t : T.Tile) (pkt : NetPacket T κ)
  deriving DecidableEq

structure State (T : Tiles) (κ ρ : Type) where
  forwards : List (Forward T κ)
  transport : List (Flight T κ)
  timing : ρ

/-- `next` starts with a packet, `advance` is one round of the loop over the hops, and `pull` takes a
packet from the transport. -/
inductive Action (T : Tiles) (κ ρ : Type)
  | send (pkt : NetPacket T κ)
  | next (f : Forward T κ)
  | advance (f : Forward T κ)
  | pull (f : Flight T κ)
  | environment (timing : ρ)

variable [DecidableEq κ] (shortcut : Bool) (M : NetworkModel T κ ρ)

/-- The packets that a call of `netSend` forwards. -/
def netSend (pkt : NetPacket T κ) : List (NetPacket T κ) :=
  if pkt.receiver = .broadcast ∧ M.hasBroadcastCapability = false then
    (List.finRange T.total).map fun i => { pkt with receiver := .tile i }
  else [pkt]

def route (f : Flight T κ) (r : ρ) : Except Fault (List (Flight T κ) × ρ) := do
  let (hops, r) ← M._routePacket f.1 f.2 r
  pure (hops.map f.2.take, r)

/-- The thread `f` becomes `f'`. -/
def State.resume (s : State T κ ρ) (f f' : Forward T κ) (r : ρ) : State T κ ρ :=
  { s with forwards := f' :: s.forwards.erase f, timing := r }

/-- The user networks or the memory networks of all tiles, with or without the shared memory shortcut. -/
def network : System (State T κ ρ) (Action T κ ρ) Fault (Event T κ) where
  init s := s.forwards = [] ∧ s.transport = []
  enabled s
    | .send pkt => pkt.node = .sendTile ∧ pkt.zeroLoadDelay = 0 ∧ pkt.contentionDelay = 0
    | .next f => f ∈ s.forwards ∧ f.queue = [] ∧ f.rest ≠ []
    | .advance f => f ∈ s.forwards ∧ f.queue ≠ []
    | .pull f => f ∈ s.transport
    | .environment _ => True
  step s
    | .send pkt =>
      pure ({ s with forwards := ⟨pkt.sender, netSend M pkt, []⟩ :: s.forwards }, [.sent pkt])
    | .next f =>
      match f.rest with
      | [] => pure (s, [])
      | pkt :: rest => do
        let (hops, r) ← route M (f.tile, pkt) s.timing
        pure (s.resume f ⟨f.tile, rest, hops⟩ r, hops.map (.hop f.tile))
    | .advance f =>
      match f.queue with
      | [] => pure (s, [])
      | hop :: queue =>
        if hop.2.node ≠ .receiveTile ∧ shortcut = true then do
          let (hops, r) ← route M hop s.timing
          pure (s.resume f ⟨f.tile, f.rest, queue ++ hops⟩ r, hops.map (.hop hop.1))
        else
          pure ({ s.resume f ⟨f.tile, f.rest, queue⟩ s.timing with
            transport := s.transport ++ [hop] }, [])
    | .pull (t, pkt) =>
      if pkt.node = .receiveTile then do
        let pkt' ← M._processReceivedPacket t pkt s.timing
        pure ({ s with transport := s.transport.erase (t, pkt) }, [.received t pkt'])
      else
        pure ({ s with
          transport := s.transport.erase (t, pkt)
          forwards := ⟨t, [pkt], []⟩ :: s.forwards }, [])
    | .environment r => pure ({ s with timing := r }, [])

instance (s : State T κ ρ) : DecidablePred ((network shortcut M).enabled s) := fun a => by
  cases a <;> dsimp only [network] <;> infer_instance

end Graphite.Network
