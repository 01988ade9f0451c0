import Graphite.Network.Clusters

/-! # The ATAC network

A packet stays on the electrical mesh, or goes from the access point of its sender to the hub of the
cluster, over the optical link to other hubs, and from there to the tiles of their clusters.
-/

namespace Graphite.Network

open Outcome List
open Grid (ind ind_pos ind_neg ind_congr)

inductive AtacNode
  | emesh | sendHub | receiveHub
  deriving DecidableEq, Repr

/-- The routers and links of the tiles and of the hubs. -/
inductive AtacPart (T : Tiles)
  | injectionRouter (t : T.Tile)
  | enetRouter (t : T.Tile)
  | enetLink (t : T.Tile) (port : ℕ)
  | sendHubRouter (t : T.Tile)
  | opticalLink (t : T.Tile)
  | receiveHubRouter (t : T.Tile)
  | btreeLink (t : T.Tile) (receiveNet : ℕ)
  | starNetRouter (t : T.Tile) (receiveNet : ℕ)
  | starNetLink (t : T.Tile) (receiveNet port : ℕ)

inductive GlobalRoute
  | enet | onet
  deriving DecidableEq, Repr

namespace Atac

variable {T : Tiles} {ρ : Type} (A : Atac T) (timing : Timing T AtacNode (AtacPart T) ρ)

abbrev Packet (T : Tiles) := NetPacket T AtacNode

abbrev Hops (T : Tiles) (ρ : Type) := List (Hop T AtacNode) × ρ

def computeNumHopsOnENet (sender receiver : T.Tile) : ℕ := A.enet.dist sender receiver

def computeGlobalRoute (sender : T.Tile) : Receiver T → GlobalRoute
  | .broadcast => .onet
  | .tile receiver =>
    if A.getClusterID sender = A.getClusterID receiver then .enet
    else match A.globalRoutingStrategy with
      | .clusterBased => .onet
      | .distanceBased =>
        if (A.computeNumHopsOnENet sender receiver : ℤ) ≤ A.unicastDistanceThreshold then .enet else .onet

def toTile (n : ℕ) : Except Fault T.Tile :=
  if h : n < T.total then pure ⟨n, h⟩ else throw .invalidTile

def numEnetRouterPorts : ℕ := 5

/-- The output ports of the router on the electrical mesh: an access point has one to the hub. -/
def numEnetRouterOutputPorts (t : T.Tile) : ℕ := numEnetRouterPorts + if A.isAccessPoint t then 1 else 0

/-- The routers and links of a hub are on its tile only. -/
def HasHub (t : T.Tile) : Prop := t.val = A.getTileIDWithOpticalHub (A.getClusterID t)
deriving Decidable

def routePacketOnENet (t : T.Tile) (pkt : Packet T) (receiver : Receiver T) (r : ρ) :
    Except Fault (Hops T ρ) :=
  match receiver with
  | .broadcast => throw .notRoutable
  | .tile receiver => do
    let dest := A.enet.nextDest (.inner .emesh) t receiver
    check (dest.outputPort < A.numEnetRouterOutputPorts t) .badPort
    let ((routerDelay, contention), r) ←
      timing.router t pkt (.enetRouter t) (A.numEnetRouterOutputPorts t) [dest.outputPort] r
    let (linkDelay, r) := timing.link t pkt (.enetLink t dest.outputPort) r
    match dest.tile with
    | none => throw .invalidTile
    | some tile => pure ([.make pkt tile dest.node
        (timing.latency t (routerDelay + linkDelay) r) (timing.latency t contention r)], r)

def sendOptical (t : T.Tile) (pkt : Packet T) (r : ρ) : Except Fault ((ℕ × ℕ) × ρ) := do
  let ((routerDelay, contention), r) ← timing.router t pkt (.sendHubRouter t) 1 [0] r
  let (linkDelay, r) := timing.link t pkt (.opticalLink t) r
  pure ((timing.latency t (routerDelay + linkDelay) r, timing.latency t contention r), r)

def sendToEach (t : T.Tile) (pkt : Packet T) : List ℕ → ρ → Except Fault (Hops T ρ)
  | [], r => pure ([], r)
  | i :: clusters, r => do
    let ((zeroLoad, contention), r) ← sendOptical timing t pkt r
    let tile ← toTile (A.getTileIDWithOpticalHub i)
    let (hops, r) ← sendToEach t pkt clusters r
    pure (.make pkt tile (.inner .receiveHub) zeroLoad contention :: hops, r)

def computeReceiveNetID (sender : T.Tile) : Except Fault ℕ := do
  check (0 < A.numReceiveNetworksPerCluster) .divisionByZero
  pure (A.getClusterID sender % A.numReceiveNetworksPerCluster)

/-- The loop over the links of a star network, which keeps the largest delay. -/
def maxStarNetLinkDelay (t : T.Tile) (pkt : Packet T) (receiveNet : ℕ) : List ℕ → ℕ → ρ → ℕ × ρ
  | [], maxDelay, r => (maxDelay, r)
  | i :: ports, maxDelay, r =>
    let (delay, r) := timing.link t pkt (.starNetLink t receiveNet i) r
    maxStarNetLinkDelay t pkt receiveNet ports (max maxDelay delay) r

def processReceiveNet (t : T.Tile) (pkt : Packet T) (tiles : List T.Tile) (receiveNet : ℕ) (r : ρ) :
    Except Fault ((ℕ × ℕ) × ρ) :=
  match A.receiveNetType with
  | .btree =>
    let (delay, r) := timing.link t pkt (.btreeLink t receiveNet) r
    pure ((delay, 0), r)
  | .star =>
    match pkt.receiver with
    | .broadcast => do
      let ((routerDelay, contention), r) ←
        timing.router t pkt (.starNetRouter t receiveNet) A.clusterSize (range A.clusterSize) r
      let (linkDelay, r) := maxStarNetLinkDelay timing t pkt receiveNet (range A.clusterSize) 0 r
      pure ((routerDelay + linkDelay, contention), r)
    | .tile receiver =>
      match tiles.idxOf? receiver with
      | none => throw .notFound
      | some idx => do
        check (idx < A.clusterSize) .notFound
        let ((routerDelay, contention), r) ←
          timing.router t pkt (.starNetRouter t receiveNet) A.clusterSize [idx] r
        let (linkDelay, r) := timing.link t pkt (.starNetLink t receiveNet idx) r
        pure ((routerDelay + linkDelay, contention), r)

def routePacketOnONet (t : T.Tile) (pkt : Packet T) (r : ρ) : Except Fault (Hops T ρ) :=
  match pkt.node with
  | .inner .emesh => do
    check (A.getClusterID pkt.sender = A.getClusterID t) .notInCluster
    if A.isAccessPoint t then
      let ((routerDelay, contention), r) ← timing.router t pkt (.enetRouter t)
        (A.numEnetRouterOutputPorts t) [numEnetRouterPorts] r
      let (linkDelay, r) := timing.link t pkt (.enetLink t numEnetRouterPorts) r
      let tile ← toTile (A.getTileIDWithOpticalHub (A.getClusterID t))
      pure ([.make pkt tile (.inner .sendHub)
        (timing.latency t (routerDelay + linkDelay) r) (timing.latency t contention r)], r)
    else
      match A.getNearestAccessPoint pkt.sender with
      | none => throw .notFound
      | some accessPoint => do
        let accessPoint ← toTile accessPoint
        A.routePacketOnENet timing t pkt (.tile accessPoint) r
  | .inner .sendHub => do
    check (A.HasHub t) .noHub
    match pkt.receiver with
    | .broadcast =>
      if A.laserModes.broadcast then do
        let ((zeroLoad, contention), r) ← sendOptical timing t pkt r
        let tiles ← (range A.numClusters).mapM fun i => toTile (A.getTileIDWithOpticalHub i)
        pure (tiles.map (.make pkt · (.inner .receiveHub) zeroLoad contention), r)
      else if A.laserModes.unicast then A.sendToEach timing t pkt (range A.numClusters) r
      else throw .noLaserMode
    | .tile receiver => do
      let ((zeroLoad, contention), r) ← sendOptical timing t pkt r
      let tile ← toTile (A.getTileIDWithOpticalHub (A.getClusterID receiver))
      pure ([.make pkt tile (.inner .receiveHub) zeroLoad contention], r)
  | .inner .receiveHub => do
    let tiles ← A.getTileIDListInCluster (A.getClusterID t)
    check (A.clusterSize = tiles.length) .badClusterSize
    let receiveNet ← A.computeReceiveNetID pkt.sender
    check (A.HasHub t) .noHub
    let ((hubDelay, hubContention), r) ←
      timing.router t pkt (.receiveHubRouter t) A.numReceiveNetworksPerCluster [receiveNet] r
    let ((netDelay, netContention), r) ← A.processReceiveNet timing t pkt tiles receiveNet r
    let hop (tile : T.Tile) : Hop T AtacNode := .make pkt tile .receiveTile
      (timing.latency t (hubDelay + netDelay) r) (timing.latency t (hubContention + netContention) r)
    match pkt.receiver with
    | .broadcast => pure (tiles.map hop, r)
    | .tile receiver => pure ([hop receiver], r)
  | _ => throw .unrecognizedNode

def routePacket (t : T.Tile) (pkt : Packet T) (r : ρ) : Except Fault (Hops T ρ) :=
  if pkt.node = .sendTile then do
    check (pkt.sender = t) .notSender
    let ((zeroLoad, contention), r) ← timing.router t pkt (.injectionRouter t) 1 [0] r
    pure ([.make pkt t (.inner .emesh) (timing.latency t zeroLoad r) (timing.latency t contention r)], r)
  else
    match A.computeGlobalRoute pkt.sender pkt.receiver with
    | .enet => A.routePacketOnENet timing t pkt pkt.receiver r
    | .onet => A.routePacketOnONet timing t pkt r

def model : NetworkModel T AtacNode ρ where
  hasBroadcastCapability := true
  routePacket := A.routePacket timing
  isModelEnabled := timing.isModelEnabled
  serialization := timing.serialization

/-! ## Routes -/

def legs (s : T.Tile) (r : Receiver T) (l : Leg T AtacNode) : List (Leg T AtacNode) :=
  match l.2 with
  | .sendTile => [(l.1, .inner .emesh)]
  | .receiveTile => []
  | .inner .emesh =>
    match A.computeGlobalRoute s r, r with
    | .enet, .tile d => A.enet.unicastLegs (.inner .emesh) l.1 d
    | .enet, .broadcast => []
    | .onet, _ =>
      if A.isAccessPoint l.1 then [(A.hub (A.getClusterID l.1), .inner .sendHub)]
      else A.enet.unicastLegs (.inner .emesh) l.1 (A.accessPoint s)
  | .inner .sendHub =>
    match r with
    | .broadcast => (range A.numClusters).map (A.hub ·, .inner .receiveHub)
    | .tile d => [(A.hub (A.getClusterID d), .inner .receiveHub)]
  | .inner .receiveHub =>
    match r with
    | .broadcast => (A.clusterTiles (A.getClusterID l.1)).map (·, .receiveTile)
    | .tile d => [(d, .receiveTile)]

/-- A packet for the optical link does not leave the sub-cluster of its sender before the hub. -/
def Good (s : T.Tile) (r : Receiver T) (l : Leg T AtacNode) : Prop :=
  match l.2 with
  | .sendTile => l.1 = s
  | .receiveTile => False
  | .inner .emesh => isApplicationTile l.1 ∧ (A.computeGlobalRoute s r = .onet → A.SameCell l.1 s)
  | .inner .sendHub => A.computeGlobalRoute s r = .onet ∧ l.1 = A.hub (A.getClusterID s)
  | .inner .receiveHub => A.computeGlobalRoute s r = .onet ∧
      ∃ c < A.numClusters, l.1 = A.hub c ∧ ∀ d, r = .tile d → A.getClusterID d = c

/-- A hop from `t` to `l` for the optical link: within the cluster of the sender up to its access point,
from there to the send hub, and only then to the hubs of the receivers. -/
def ThroughAccessPoint (s : T.Tile) (r : Receiver T) (t : T.Tile) (l : Leg T AtacNode) : Prop :=
  match l.2 with
  | .inner .emesh => A.computeGlobalRoute s r = .onet → A.getClusterID l.1 = A.getClusterID s
  | .inner .sendHub => A.getNearestAccessPoint s = some t.val
  | .inner .receiveHub => t.val = A.getTileIDWithOpticalHub (A.getClusterID s)
  | _ => True

def dests (r : Receiver T) (l : Leg T AtacNode) (d : T.Tile) : ℕ :=
  match l.2, r with
  | .receiveTile, _ => ind (l.1 = d)
  | _, .tile x => ind (x = d)
  | .inner .receiveHub, .broadcast => ind (isApplicationTile d ∧ A.getClusterID d = A.getClusterID l.1)
  | _, .broadcast => ind (isApplicationTile d)

def receiveHubCost : Receiver T → ℕ
  | .tile _ => 4
  | .broadcast => 3 * A.clusterSize + 1

def sendHubCost : Receiver T → ℕ
  | .tile _ => 8
  | .broadcast => A.numClusters * (3 * A.clusterSize + 4) + 1

def emeshCost (s : T.Tile) (r : Receiver T) (t : T.Tile) : ℕ :=
  match A.computeGlobalRoute s r, r with
  | .enet, .tile d => 4 * (A.enet.dist t d + 1)
  | _, _ => 4 * (A.enet.dist t (A.accessPoint s) + 1) + A.sendHubCost r

def cost (s : T.Tile) (r : Receiver T) (l : Leg T AtacNode) : ℕ :=
  match l.2 with
  | .sendTile => A.emeshCost s r l.1 + 4
  | .receiveTile => 0
  | .inner .emesh => A.emeshCost s r l.1
  | .inner .sendHub => A.sendHubCost r
  | .inner .receiveHub => A.receiveHubCost r

/-- The hops lead to `legs`, and add their delays. -/
def Leads (pkt : Packet T) (legs : List (Leg T AtacNode)) (out : Hops T ρ) : Prop :=
  out.1.map Hop.leg = legs ∧ ∀ h ∈ out.1, h.Timed pkt

section Routing

variable {A} {timing} {s t d : T.Tile} {r : Receiver T} {l : Leg T AtacNode} {pkt : Packet T} {st : ρ}
  {node : Node AtacNode} {tiles : List T.Tile} {c : ℕ}

theorem leads_singleton {z c : ℕ} : Leads pkt [(d, node)] ([.make pkt d node z c], st) :=
  ⟨rfl, by simpa using ⟨_, _, rfl⟩⟩

theorem leads_map {z c : ℕ} :
    Leads pkt (tiles.map (·, node)) (tiles.map (.make pkt · node z c), st) := by
  constructor
  · rw [map_map]
    rfl
  · intro h hh
    obtain ⟨tile, -, rfl⟩ := mem_map.mp hh
    exact ⟨z, c, rfl⟩

/-- In a cell with an access point, a packet is there or comes closer within the cell. -/
theorem access_cases (hs : isApplicationTile s) (ht : isApplicationTile t) (hcell : A.SameCell t s) :
    (A.isAccessPoint t ∧ t = A.accessPoint s) ∨
    (¬ A.isAccessPoint t ∧ ∃ t', isApplicationTile t' ∧ A.SameCell t' s ∧
      A.enet.dist t' (A.accessPoint s) + 1 = A.enet.dist t (A.accessPoint s) ∧
      A.enet.unicastLegs (.inner AtacNode.emesh) t (A.accessPoint s) = [(t', .inner .emesh)]) := by
  rw [isAccessPoint_iff ht, hcell.accessPoint_eq]
  by_cases heq : t = A.accessPoint s
  · exact .inl ⟨heq, heq⟩
  · have hap := isApplicationTile_accessPoint (A := A) hs
    rcases A.enet.unicast_cases (.inner AtacNode.emesh) ht hap with
      ⟨h, -, -⟩ | ⟨t', dir, ht', hpos, hdir, hdist, -, hlegs⟩
    · exact absurd h heq
    · refine .inr ⟨heq, t', ht', ?_, hdist, hlegs⟩
      have hmem := sameCell_iff_mem.mp hcell
      have hmem' := sameCell_iff_mem.mp (sameCell_accessPoint (A := A) hs)
      rw [sameCell_iff_mem, hpos]
      exact hmem.move_toward hmem' hdir

theorem toTile_val (t : T.Tile) : toTile t.val = .ok t := dif_pos t.isLt

theorem toTile_hub (hc : c < A.numClusters) :
    toTile (A.getTileIDWithOpticalHub c) = .ok (A.hub c) := by
  rw [← (hub_spec hc).1, toTile_val]

theorem hasHub_hub (hc : c < A.numClusters) : A.HasHub (A.hub c) := by
  obtain ⟨hval, -, hcluster⟩ := hub_spec hc
  rw [HasHub, hcluster, hval]

theorem clusterSize_pos (A : Atac T) : 0 < A.clusterSize :=
  A.shape.cluster ▸ Nat.mul_pos A.clusterWidth_pos A.clusterHeight_pos

/-! ## The parts of a route -/

theorem routePacketOnENet_sat (ht : isApplicationTile t) (hd : isApplicationTile d) (st : ρ) :
    Returns (A.routePacketOnENet timing t pkt (.tile d) st)
      (Leads pkt (A.enet.unicastLegs (.inner .emesh) t d)) := by
  have hmove : ∃ t' p, ∃ node : Node AtacNode, A.enet.nextDest (.inner .emesh) t d = ⟨some t', p, node⟩ ∧
      p < numEnetRouterPorts ∧ A.enet.unicastLegs (.inner .emesh) t d = [(t', node)] := by
    rcases A.enet.unicast_cases (.inner AtacNode.emesh) ht hd with
      ⟨-, hdest, hlegs⟩ | ⟨t', dir, -, -, -, -, hdest, hlegs⟩
    · exact ⟨t, Mesh.self, .receiveTile, hdest, by decide, hlegs⟩
    · exact ⟨t', Mesh.port dir, .inner .emesh, hdest, Mesh.port_lt dir, hlegs⟩
  obtain ⟨t', p, node, hdest, hp, hlegs⟩ := hmove
  have hports : p < A.numEnetRouterOutputPorts t := Nat.lt_add_right _ hp
  unfold routePacketOnENet
  dsimp only
  rw [hdest, hlegs]
  dsimp only
  rw [check_pos hports, ok_bind]
  refine (Timing.router_sat ?_).bind fun ⟨⟨z, c⟩, st'⟩ _ => leads_singleton
  simpa using ⟨Nat.lt_of_le_of_lt (Nat.zero_le _) hports, hports⟩

theorem sendOptical_sat (st : ρ) : Returns (sendOptical timing t pkt st) fun _ => True :=
  (Timing.router_sat (by simp)).bind fun _ _ => trivial

theorem sendToEach_sat {clusters : List ℕ} (hc : ∀ c ∈ clusters, c < A.numClusters) (st : ρ) :
    Returns (A.sendToEach timing t pkt clusters st)
      (Leads pkt (clusters.map (A.hub ·, .inner .receiveHub))) := by
  induction clusters generalizing st with
  | nil => exact ⟨rfl, by simp⟩
  | cons c clusters ih =>
    rw [forall_mem_cons] at hc
    refine (sendOptical_sat st).bind fun ⟨⟨z, w⟩, st'⟩ _ => ?_
    dsimp only
    rw [toTile_hub hc.1, ok_bind]
    refine (ih hc.2 st').bind fun ⟨hops, st''⟩ ⟨hlegs, htimed⟩ => ?_
    constructor
    · rw [map_cons, map_cons, ← hlegs]
      rfl
    · exact forall_mem_cons.mpr ⟨⟨z, w, rfl⟩, htimed⟩

theorem processReceiveNet_sat (hsize : A.clusterSize = tiles.length)
    (hmem : ∀ d, pkt.receiver = .tile d → d ∈ tiles) (receiveNet : ℕ) (st : ρ) :
    Returns (A.processReceiveNet timing t pkt tiles receiveNet st) fun _ => True := by
  unfold processReceiveNet
  split
  · trivial
  · split
    · refine (Timing.router_sat ?_).bind fun _ _ => trivial
      simpa using Nat.succ_le_of_lt A.clusterSize_pos
    · next d hd =>
      cases hidx : tiles.idxOf? d with
      | none => exact absurd (hmem d hd) (idxOf?_eq_none_iff.mp hidx)
      | some i =>
        obtain ⟨hi, -⟩ := idxOf?_eq_some_iff.mp hidx
        rw [← hsize] at hi
        dsimp only
        rw [check_pos hi, ok_bind]
        refine (Timing.router_sat ?_).bind fun _ _ => trivial
        simpa using ⟨Nat.succ_le_of_lt A.clusterSize_pos, hi⟩

theorem computeGlobalRoute_enet (h : A.computeGlobalRoute s r = .enet) : ∃ d, r = .tile d := by
  cases r with
  | broadcast => cases h
  | tile d => exact ⟨d, rfl⟩

theorem isApplicationTile_of_routed (h : Routed s (.tile d)) : isApplicationTile d :=
  of_decide_eq_true h.2.1

theorem routeToHub_sat (hs : isApplicationTile pkt.sender) (hnode : pkt.node = .inner .emesh)
    (hroute : A.computeGlobalRoute pkt.sender pkt.receiver = .onet) (ht : isApplicationTile t)
    (hcell : A.SameCell t pkt.sender) (st : ρ) :
    Returns (A.routePacketOnONet timing t pkt st)
      (Leads pkt (A.legs pkt.sender pkt.receiver (t, .inner .emesh))) := by
  have hc := getClusterID_lt (A := A) ht
  simp only [routePacketOnONet, hnode, legs, hroute]
  rw [check_pos hcell.getClusterID_eq.symm, ok_bind]
  rcases access_cases hs ht hcell with ⟨haccess, -⟩ | ⟨haccess, -⟩
  · rw [if_pos haccess, if_pos haccess]
    have hports : numEnetRouterPorts < A.numEnetRouterOutputPorts t := by
      rw [numEnetRouterOutputPorts, if_pos haccess]
      exact Nat.lt_succ_self _
    refine (Timing.router_sat ?_).bind ?_
    · simpa using ⟨Nat.succ_le_of_lt (Nat.lt_of_le_of_lt (Nat.zero_le _) hports), hports⟩
    · rintro ⟨⟨z, c⟩, st'⟩ -
      dsimp only
      rw [toTile_hub hc, ok_bind]
      exact leads_singleton
  · rw [if_neg haccess, if_neg haccess, getNearestAccessPoint_eq hs]
    dsimp only
    rw [toTile_val, ok_bind]
    exact routePacketOnENet_sat ht (isApplicationTile_accessPoint hs) st

theorem routeFromSendHub_sat (hr : Routed pkt.sender pkt.receiver) (hnode : pkt.node = .inner .sendHub)
    (ht : t = A.hub (A.getClusterID pkt.sender)) (st : ρ) :
    Returns (A.routePacketOnONet timing t pkt st)
      (Leads pkt (A.legs pkt.sender pkt.receiver (t, .inner .sendHub))) := by
  have hhub : A.HasHub t := ht ▸ hasHub_hub (getClusterID_lt hr.1)
  simp only [routePacketOnONet, hnode, legs]
  rw [check_pos hhub, ok_bind]
  cases hrec : pkt.receiver with
  | broadcast =>
    dsimp only
    have hrange : ∀ c ∈ range A.numClusters, c < A.numClusters := fun c => mem_range.mp
    split
    · apply (sendOptical_sat st).bind
      rintro ⟨⟨z, c⟩, st'⟩ -
      dsimp only
      rw [mapM_eq_ok fun c hc => toTile_hub (hrange c hc), ok_bind]
      have hleads : Leads pkt (((range A.numClusters).map A.hub).map (·, .inner .receiveHub))
          (((range A.numClusters).map A.hub).map (.make pkt · (.inner .receiveHub) z c), st') := leads_map
      rwa [map_map] at hleads
    · split
      · exact sendToEach_sat hrange st
      · next hb hu =>
        have := A.laser
        cases hl : A.laserType <;> simp_all [LaserType.accepts]
  | tile d =>
    have hd : isApplicationTile d := isApplicationTile_of_routed (hrec ▸ hr)
    dsimp only
    apply (sendOptical_sat st).bind
    rintro ⟨⟨z, c⟩, st'⟩ -
    dsimp only
    rw [toTile_hub (getClusterID_lt hd), ok_bind]
    exact leads_singleton

theorem routeFromReceiveHub_sat (hn : 0 < A.numReceiveNetworksPerCluster)
    (hr : Routed pkt.sender pkt.receiver) (hnode : pkt.node = .inner .receiveHub)
    (hc : c < A.numClusters) (ht : t = A.hub c) (hrec : ∀ d, pkt.receiver = .tile d → A.getClusterID d = c)
    (st : ρ) :
    Returns (A.routePacketOnONet timing t pkt st)
      (Leads pkt (A.legs pkt.sender pkt.receiver (t, .inner .receiveHub))) := by
  subst ht
  have hcluster := (hub_spec hc).2.2
  have hsize := (length_clusterTiles A c).symm
  have hmem : ∀ d, pkt.receiver = .tile d → d ∈ A.clusterTiles c := by
    intro d hd
    rw [hd] at hr
    exact (mem_clusterTiles hc).mpr ⟨isApplicationTile_of_routed hr, hrec d hd⟩
  simp only [routePacketOnONet, hnode, legs, hcluster]
  rw [getTileIDListInCluster_eq hc, ok_bind, check_pos hsize, ok_bind, computeReceiveNetID, check_pos hn,
    ok_bind, pure_eq_ok, ok_bind, check_pos (hasHub_hub hc), ok_bind]
  refine (Timing.router_sat ?_).bind ?_
  · simpa using ⟨Nat.succ_le_of_lt hn, Nat.mod_lt _ hn⟩
  · rintro ⟨⟨z, w⟩, st'⟩ -
    apply (processReceiveNet_sat hsize hmem _ st').bind
    rintro ⟨⟨z', w'⟩, st''⟩ -
    dsimp only
    cases pkt.receiver with
    | broadcast => exact leads_map
    | tile d => exact leads_singleton

theorem routePacket_sat (hn : 0 < A.numReceiveNetworksPerCluster) (hr : Routed pkt.sender pkt.receiver)
    (hg : A.Good pkt.sender pkt.receiver (t, pkt.node)) (st : ρ) :
    Returns (A.routePacket timing t pkt st)
      (Leads pkt (A.legs pkt.sender pkt.receiver (t, pkt.node))) := by
  unfold routePacket
  match hnode : pkt.node, hg with
  | .sendTile, hg =>
    rw [if_pos rfl, check_pos (show pkt.sender = t from hg.symm), ok_bind]
    exact (Timing.router_sat (by simp)).bind fun _ _ => leads_singleton
  | .inner .emesh, hg =>
    obtain ⟨ht, hcell⟩ := hg
    rw [if_neg (by simp)]
    cases hroute : A.computeGlobalRoute pkt.sender pkt.receiver with
    | enet =>
      obtain ⟨d, hd⟩ := computeGlobalRoute_enet hroute
      rw [hd] at hr hroute
      simp only [legs, hd, hroute]
      exact routePacketOnENet_sat ht (isApplicationTile_of_routed hr) st
    | onet => exact routeToHub_sat hr.1 hnode hroute ht (hcell hroute) st
  | .inner .sendHub, hg =>
    obtain ⟨hroute, ht⟩ := hg
    rw [if_neg (by simp), hroute]
    exact routeFromSendHub_sat hr hnode ht st
  | .inner .receiveHub, hg =>
    obtain ⟨hroute, c, hc, ht, hrec⟩ := hg
    rw [if_neg (by simp), hroute]
    exact routeFromReceiveHub_sat hn hr hnode hc ht hrec st

/-! ## The contract -/

theorem legs_spec (hr : Routed s r) (hg : A.Good s r l) {l' : Leg T AtacNode} (hl' : l' ∈ A.legs s r l) :
    Within r (A.Good s r) l' ∧ A.ThroughAccessPoint s r l.1 l' := by
  obtain ⟨t, node⟩ := l
  match node, hg with
  | .sendTile, hg =>
    have ht : t = s := hg
    subst ht
    rw [mem_singleton.mp hl']
    exact ⟨⟨hr.1, fun _ => ⟨rfl, rfl⟩⟩, fun _ => rfl⟩
  | .inner .emesh, hg =>
    obtain ⟨ht, hcell⟩ := hg
    simp only [legs] at hl'
    cases hroute : A.computeGlobalRoute s r with
    | enet =>
      obtain ⟨d, rfl⟩ := computeGlobalRoute_enet hroute
      have hnot : A.computeGlobalRoute s (.tile d) ≠ .onet := by simp [hroute]
      simp only [hroute] at hl'
      rcases A.enet.unicast_cases (.inner AtacNode.emesh) ht (isApplicationTile_of_routed hr) with
        ⟨rfl, -, hlegs⟩ | ⟨t', -, ht', -, -, -, -, hlegs⟩
      · rw [hlegs, mem_singleton] at hl'
        rw [hl']
        exact ⟨.inr rfl, trivial⟩
      · rw [hlegs, mem_singleton] at hl'
        rw [hl']
        exact ⟨⟨ht', fun h => absurd h hnot⟩, fun h => absurd h hnot⟩
    | onet =>
      simp only [hroute] at hl'
      rcases access_cases hr.1 ht (hcell hroute) with
        ⟨haccess, heq⟩ | ⟨haccess, t', ht', hcell', -, hlegs⟩
      · rw [if_pos haccess, mem_singleton] at hl'
        rw [hl', (hcell hroute).getClusterID_eq]
        refine ⟨⟨hroute, rfl⟩, ?_⟩
        show A.getNearestAccessPoint s = some t.val
        rw [getNearestAccessPoint_eq hr.1]
        exact congrArg (fun x : T.Tile => some x.val) heq.symm
      · rw [if_neg haccess, hlegs, mem_singleton] at hl'
        rw [hl']
        exact ⟨⟨ht', fun _ => hcell'⟩, fun _ => hcell'.getClusterID_eq⟩
  | .inner .sendHub, hg =>
    obtain ⟨hroute, ht⟩ := hg
    have hthrough : t.val = A.getTileIDWithOpticalHub (A.getClusterID s) := by
      rw [show t = _ from ht]
      exact (hub_spec (getClusterID_lt hr.1)).1
    simp only [legs] at hl'
    cases r with
    | broadcast =>
      obtain ⟨c, hc, rfl⟩ := mem_map.mp hl'
      exact ⟨⟨hroute, c, mem_range.mp hc, rfl, fun d hd => by cases hd⟩, hthrough⟩
    | tile d =>
      rw [mem_singleton.mp hl']
      refine ⟨⟨hroute, A.getClusterID d, getClusterID_lt (isApplicationTile_of_routed hr), rfl, ?_⟩, hthrough⟩
      rintro _ ⟨⟩
      rfl
  | .inner .receiveHub, hg =>
    simp only [legs] at hl'
    cases r with
    | broadcast =>
      obtain ⟨d, -, rfl⟩ := mem_map.mp hl'
      exact ⟨.inl rfl, trivial⟩
    | tile d =>
      rw [mem_singleton.mp hl']
      exact ⟨.inr rfl, trivial⟩

theorem sum_hubs (d : T.Tile) : ((range A.numClusters).map fun c =>
    A.dests .broadcast (A.hub c, .inner .receiveHub) d).sum = ind (isApplicationTile d) := by
  have hcongr : ∀ c ∈ range A.numClusters, A.dests .broadcast (A.hub c, .inner .receiveHub) d =
      ind (isApplicationTile d ∧ A.getClusterID d = c) := by
    intro c hc
    simp only [dests, (hub_spec (mem_range.mp hc)).2.2]
  rw [map_congr_left hcongr]
  by_cases hd : isApplicationTile d
  · have heq : ∀ c, ind (isApplicationTile d ∧ A.getClusterID d = c) = ind (c = A.getClusterID d) :=
      fun c => ind_congr (by rw [and_iff_right hd, eq_comm])
    simp only [heq]
    rw [sum_ind_eq nodup_range, ind_pos hd, ind_pos (mem_range.mpr (getClusterID_lt hd))]
  · rw [ind_neg hd]
    apply sum_eq_zero
    intro x hx
    obtain ⟨c, -, rfl⟩ := mem_map.mp hx
    exact ind_neg fun h => hd h.1

theorem dests_legs (hr : Routed s r) (hg : A.Good s r l) :
    A.dests r l d = ((A.legs s r l).map (A.dests r · d)).sum := by
  obtain ⟨t, node⟩ := l
  match node, hg with
  | .sendTile, _ => cases r <;> simp [legs, dests]
  | .inner .emesh, hg =>
    obtain ⟨ht, hcell⟩ := hg
    simp only [legs]
    cases hroute : A.computeGlobalRoute s r with
    | enet =>
      obtain ⟨x, rfl⟩ := computeGlobalRoute_enet hroute
      rcases A.enet.unicast_cases (.inner AtacNode.emesh) ht (isApplicationTile_of_routed hr) with
        ⟨rfl, -, hlegs⟩ | ⟨t', -, -, -, -, -, -, hlegs⟩ <;> simp [hlegs, dests]
    | onet =>
      rcases access_cases hr.1 ht (hcell hroute) with ⟨haccess, -⟩ | ⟨haccess, t', -, -, -, hlegs⟩
      · cases r <;> simp [haccess, dests]
      · cases r <;> simp [haccess, hlegs, dests]
  | .inner .sendHub, hg =>
    simp only [legs]
    cases r with
    | broadcast =>
      rw [map_map]
      exact (sum_hubs d).symm
    | tile x => simp [dests]
  | .inner .receiveHub, hg =>
    obtain ⟨-, c, hc, rfl, -⟩ := hg
    simp only [legs]
    cases r with
    | broadcast =>
      rw [map_map, (hub_spec hc).2.2]
      show ind (_ ∧ A.getClusterID d = A.getClusterID (A.hub c)) =
        ((A.clusterTiles c).map fun x => ind (x = d)).sum
      rw [sum_ind_eq (nodup_clusterTiles hc), (hub_spec hc).2.2]
      exact ind_congr (mem_clusterTiles hc).symm
    | tile x => simp [dests]

theorem cost_legs (hr : Routed s r) (hg : A.Good s r l) :
    ((A.legs s r l).map (A.cost s r · + 3)).sum < A.cost s r l := by
  obtain ⟨t, node⟩ := l
  match node, hg with
  | .sendTile, _ => simp [legs, cost]
  | .inner .emesh, hg =>
    have ht : isApplicationTile t := hg.1
    have hcell := hg.2
    simp only [legs, cost]
    cases hroute : A.computeGlobalRoute s r with
    | enet =>
      obtain ⟨x, rfl⟩ := computeGlobalRoute_enet hroute
      rcases A.enet.unicast_cases (.inner AtacNode.emesh) ht (isApplicationTile_of_routed hr) with
        ⟨rfl, -, hlegs⟩ | ⟨t', -, -, -, -, hdist, -, hlegs⟩
      · simp only [hlegs, emeshCost, hroute, map_singleton, sum_singleton]
        omega
      · simp only [hlegs, emeshCost, hroute, map_singleton, sum_singleton]
        omega
    | onet =>
      rcases access_cases hr.1 ht (hcell hroute) with ⟨haccess, -⟩ | ⟨haccess, t', -, -, hdist, hlegs⟩
      · simp only [if_pos haccess, emeshCost, hroute, map_singleton, sum_singleton]
        omega
      · simp only [if_neg haccess, hlegs, emeshCost, hroute, map_singleton, sum_singleton]
        omega
  | .inner .sendHub, _ =>
    simp only [legs, cost]
    cases r with
    | broadcast =>
      simp only [map_map, Function.comp_def, receiveHubCost, sendHubCost, map_const',
        length_range, sum_replicate, smul_eq_mul]
      exact Nat.lt_succ_self _
    | tile x => simp [receiveHubCost, sendHubCost]
  | .inner .receiveHub, _ =>
    simp only [legs, cost]
    cases r with
    | broadcast =>
      simp only [map_map, Function.comp_def, receiveHubCost, map_const', length_clusterTiles,
        sum_replicate, smul_eq_mul]
      omega
    | tile x => simp [receiveHubCost]

end Routing

def contract (hn : 0 < A.numReceiveNetworksPerCluster) : Contract (A.model timing) where
  legs := A.legs
  Good := A.Good
  dests _ := A.dests
  size := A.cost
  refines st hr hg := routePacket_sat hn hr hg st
  start _ := rfl
  closed hr hg _ hl' := (legs_spec hr hg hl').1
  dests_receive := rfl
  dests_start {s r d} hr := by
    cases r with
    | tile x =>
      have hx := isApplicationTile_of_routed hr
      refine ind_congr ⟨?_, ?_⟩
      · rintro rfl
        exact ⟨hx, .inr rfl⟩
      · rintro ⟨-, h⟩
        simpa using h
    | broadcast => exact ind_congr (by simp)
  dests_legs := dests_legs
  size_receive := rfl
  size_legs := cost_legs

/-- Nothing gets lost or is received twice, and the optical network is entered through the access point of
the sender. -/
theorem atac_delivers (hn : 0 < A.numReceiveNetworksPerCluster) (shortcut : Bool) :
    Delivers shortcut (A.model timing) ∧
    ∀ tr s, (network shortcut (A.model timing)).Run (fun _ => True) tr s →
      ∀ t f, .hop t f ∈ tr → A.ThroughAccessPoint f.2.sender f.2.receiver t f.leg := by
  refine ⟨(A.contract timing hn).delivers shortcut, fun tr s h t f hf => ?_⟩
  rcases run_onLeg (A.contract timing hn) h _ hf with hnode | ⟨node, hr, hg, hmem⟩
  · unfold ThroughAccessPoint Flight.leg
    rw [hnode]
    trivial
  · exact (legs_spec hr hg hmem).2

def fourTiles (numReceiveNetworks : ℕ) : Atac ⟨4, 4, Nat.le_refl 4⟩ where
  clusterSize := 2
  numAccessPointsPerCluster := 1
  receiveNetType := .star
  numReceiveNetworksPerCluster := numReceiveNetworks
  globalRoutingStrategy := .clusterBased
  unicastDistanceThreshold := 4
  laserType := .throttled
  laserModes := ⟨true, true⟩
  accessPoints_le := by decide
  perfectSquare := by decide +kernel
  power2 := by decide
  clusterSize_power2 := by decide
  multiple := by decide
  clusters_gt_one := by decide
  accessPoints_power2 := by decide
  accessPoints_ne_zero := by decide
  laser := rfl

def noDelay : Timing T AtacNode (AtacPart T) Unit where
  process _ _ _ _ := ((0, 0), ())
  latency _ _ _ := 0
  isModelEnabled _ _ _ := true
  serialization _ _ _ := 0

theorem atac_delivers_four : 0 < (fourTiles 1).numReceiveNetworksPerCluster ∧
    Delivers true ((fourTiles 1).model noDelay) :=
  ⟨by decide, ((fourTiles 1).atac_delivers noDelay (by decide) true).1⟩

def toOtherCluster (node : Node AtacNode) : Packet ⟨4, 4, Nat.le_refl 4⟩ :=
  ⟨0, .tile 2, node, 0, 0, 0, 0⟩

/-- Without a receive network, the receive hub of the other cluster divides by zero. -/
theorem no_receive_network :
    (network true ((fourTiles 0).model noDelay)).Fails (fun _ => True) .divisionByZero :=
  .of_stops (.start (s := ⟨[], [], ()⟩) ⟨rfl, rfl⟩) [.send (toOtherCluster .sendTile),
      .next ⟨0, [toOtherCluster .sendTile], []⟩,
      .advance ⟨0, [], [(0, toOtherCluster (.inner .emesh))]⟩,
      .advance ⟨0, [], [(1, toOtherCluster (.inner .emesh))]⟩,
      .advance ⟨0, [], [(1, toOtherCluster (.inner .sendHub))]⟩,
      .advance ⟨0, [], [(3, toOtherCluster (.inner .receiveHub))]⟩]

end Atac

end Graphite.Network
