import Graphite.Network.Forwarding

/-! # The hop-by-hop mesh

The application tiles form a mesh. A packet to one tile goes along the row first; a
broadcast goes along the row of the sender and from there up and down each column.
-/

namespace Graphite.Network

open Outcome List Grid
open Grid (Pos Dir Rect ind ind_pos ind_neg ind_or ind_congr)

inductive MeshNode
  | emesh
  deriving DecidableEq, Repr

inductive MeshPart (T : Tiles)
  | injectionRouter (t : T.Tile)
  | meshRouter (t : T.Tile)
  | meshLink (t : T.Tile) (port : ℕ)

/-- The shape of the mesh, as `initializeEMeshTopologyParams` asserts it. -/
structure Mesh (T : Tiles) where
  width : ℕ
  height : ℕ
  size : width * height = T.application

namespace Mesh

variable {T : Tiles} {ρ : Type} (mesh : Mesh T)

def computePosition (t : T.Tile) : Pos := ⟨(t.val % mesh.width : ℕ), (t.val / mesh.width : ℕ)⟩

theorem tile_lt {x y : ℕ} (hx : x < mesh.width) (hy : y < mesh.height) :
    y * mesh.width + x < T.application := by
  have h := Nat.mul_le_mul_right mesh.width (Nat.succ_le_of_lt hy)
  rw [Nat.succ_mul, Nat.mul_comm mesh.height, mesh.size] at h
  omega

def computeTileID (x y : ℤ) : Option T.Tile :=
  if h : x < 0 ∨ y < 0 ∨ x ≥ mesh.width ∨ y ≥ mesh.height then none
  else some ⟨y.toNat * mesh.width + x.toNat,
    Nat.lt_of_lt_of_le (mesh.tile_lt (by omega) (by omega)) T.le⟩

structure NextDest (T : Tiles) (κ : Type) where
  tile : Option T.Tile
  outputPort : ℕ
  node : Node κ

/-- `OutputDirection`. -/
def self : ℕ := 0

def port : Dir → ℕ
  | .left => 1
  | .right => 2
  | .down => 3
  | .up => 4

/-- Where a packet to one tile goes from `t`; `emesh` is the node type of the routers. -/
def nextDest {κ : Type} (emesh : Node κ) (t receiver : T.Tile) : NextDest T κ :=
  let c := mesh.computePosition t
  let d := mesh.computePosition receiver
  if c.x > d.x then ⟨mesh.computeTileID (c.x - 1) c.y, port .left, emesh⟩
  else if c.x < d.x then ⟨mesh.computeTileID (c.x + 1) c.y, port .right, emesh⟩
  else if c.y > d.y then ⟨mesh.computeTileID c.x (c.y - 1), port .down, emesh⟩
  else if c.y < d.y then ⟨mesh.computeTileID c.x (c.y + 1), port .up, emesh⟩
  else ⟨some t, self, .receiveTile⟩

/-- Where a broadcast of `sender` goes from `t`, invalid tiles included. -/
def nextDests (sender t : T.Tile) : List (NextDest T MeshNode) :=
  let s := mesh.computePosition sender
  let c := mesh.computePosition t
  (if c.y ≥ s.y then [⟨mesh.computeTileID c.x (c.y + 1), port .up, .inner .emesh⟩] else []) ++
  (if c.y ≤ s.y then [⟨mesh.computeTileID c.x (c.y - 1), port .down, .inner .emesh⟩] else []) ++
  (if c.y = s.y then
    (if c.x ≥ s.x then [⟨mesh.computeTileID (c.x + 1) c.y, port .right, .inner .emesh⟩] else []) ++
    (if c.x ≤ s.x then [⟨mesh.computeTileID (c.x - 1) c.y, port .left, .inner .emesh⟩] else [])
  else []) ++
  [⟨some t, self, .receiveTile⟩]

variable (timing : Timing T MeshNode (MeshPart T) ρ)

abbrev Packet (T : Tiles) := NetPacket T MeshNode

/-- The loop over the links of a broadcast, which keeps the largest delay. -/
def maxLinkDelay (t : T.Tile) (pkt : Packet T) : List ℕ → ℕ → ρ → ℕ × ρ
  | [], maxDelay, r => (maxDelay, r)
  | outputPort :: ports, maxDelay, r =>
    let (delay, r) := timing.link t pkt (.meshLink t outputPort) r
    maxLinkDelay t pkt ports (max maxDelay delay) r

def numRouterPorts : ℕ := 5

def routePacket (t : T.Tile) (pkt : Packet T) (r : ρ) :
    Except Fault (List (Hop T MeshNode) × ρ) :=
  match pkt.node with
  | .sendTile => do
    let ((_, contention), r) ← timing.router t pkt (.injectionRouter t) 1 [0] r
    pure ([.make pkt t (.inner .emesh) (timing.latency t 0 r) (timing.latency t contention r)], r)
  | .inner .emesh =>
    match pkt.receiver with
    | .broadcast => do
      let dests := (mesh.nextDests pkt.sender t).filterMap fun dest =>
        dest.tile.map fun tile => (tile, dest.outputPort, dest.node)
      let ports := dests.map fun dest => dest.2.1
      let (linkDelay, r) := maxLinkDelay timing t pkt ports 0 r
      let ((routerDelay, contention), r) ←
        timing.router t pkt (.meshRouter t) numRouterPorts ports r
      pure (dests.map fun dest => .make pkt dest.1 dest.2.2
        (timing.latency t (linkDelay + routerDelay) r) (timing.latency t contention r), r)
    | .tile receiver => do
      let dest := mesh.nextDest (.inner .emesh) t receiver
      check (dest.outputPort < numRouterPorts) .badPort
      let ((routerDelay, contention), r) ←
        timing.router t pkt (.meshRouter t) numRouterPorts [dest.outputPort] r
      let (linkDelay, r) := timing.link t pkt (.meshLink t dest.outputPort) r
      match dest.tile with
      | none => throw .invalidTile
      | some tile => pure ([.make pkt tile dest.node
          (timing.latency t (routerDelay + linkDelay) r) (timing.latency t contention r)], r)
  | .receiveTile => throw .unrecognizedNode

/-- `NetworkModelEMeshHopByHop`; the broadcast tree can be switched off. -/
def model (broadcastTreeEnabled : Bool) : NetworkModel T MeshNode ρ where
  hasBroadcastCapability := broadcastTreeEnabled
  routePacket := mesh.routePacket timing
  isModelEnabled := timing.isModelEnabled
  serialization := timing.serialization

/-! ## Positions -/

def rect : Rect := ⟨0, mesh.width, 0, mesh.height⟩

def tileAt (c : Pos) : Option T.Tile := mesh.computeTileID c.x c.y

section Positions

variable {mesh} {t d : T.Tile} {c : Pos}

variable (mesh) in
theorem computePosition_mem (ht : isApplicationTile t) : mesh.rect.Mem (mesh.computePosition t) := by
  unfold isApplicationTile at ht
  rw [← mesh.size] at ht
  have hw : 0 < mesh.width := by
    rcases Nat.eq_zero_or_pos mesh.width with h | h
    · rw [h, Nat.zero_mul] at ht
      omega
    · exact h
  have hx := Nat.mod_lt t.val hw
  have hy := Nat.div_lt_of_lt_mul ht
  exact ⟨Int.natCast_nonneg _, Int.ofNat_lt.mpr hx, Int.natCast_nonneg _, Int.ofNat_lt.mpr hy⟩

theorem tileAt_eq_some : mesh.tileAt c = some t ↔ isApplicationTile t ∧ mesh.computePosition t = c := by
  unfold tileAt computeTileID
  constructor
  · intro h
    split at h
    · cases h
    · next hc =>
      obtain rfl := Option.some.inj h
      have hx : c.x.toNat < mesh.width := by omega
      have hw : 0 < mesh.width := Nat.lt_of_le_of_lt (Nat.zero_le _) hx
      refine ⟨mesh.tile_lt hx (by omega), Pos.ext ?_ ?_⟩
      · show ((c.y.toNat * mesh.width + c.x.toNat) % mesh.width : ℕ) = c.x
        rw [Nat.mul_add_mod_self_right, Nat.mod_eq_of_lt hx]
        omega
      · show ((c.y.toNat * mesh.width + c.x.toNat) / mesh.width : ℕ) = c.y
        rw [Nat.add_comm, Nat.add_mul_div_right _ _ hw, Nat.div_eq_of_lt hx, Nat.zero_add]
        omega
  · rintro ⟨ht, rfl⟩
    obtain ⟨h₁, h₂, h₃, h₄⟩ := mesh.computePosition_mem ht
    simp only [rect] at h₁ h₂ h₃ h₄
    rw [dif_neg (by omega), Option.some.injEq, Fin.ext_iff]
    simp only [computePosition, Int.toNat_natCast]
    rw [Nat.mul_comm]
    exact Nat.div_add_mod ..

variable (mesh) in
theorem tileAt_computePosition (ht : isApplicationTile t) :
    mesh.tileAt (mesh.computePosition t) = some t := tileAt_eq_some.mpr ⟨ht, rfl⟩

theorem tileAt_eq_none : mesh.tileAt c = none ↔ ¬ mesh.rect.Mem c := by
  unfold tileAt computeTileID Rect.Mem rect
  split
  · next h => simp only [true_iff]; omega
  · next h => simp only [reduceCtorEq, false_iff]; omega

theorem exists_tileAt (h : mesh.rect.Mem c) : ∃ t, mesh.tileAt c = some t :=
  Option.ne_none_iff_exists'.mp fun hn => tileAt_eq_none.mp hn h

theorem computePosition_injective (ht : isApplicationTile t) (hd : isApplicationTile d)
    (h : mesh.computePosition t = mesh.computePosition d) : t = d := by
  have := mesh.tileAt_computePosition ht
  rw [h, mesh.tileAt_computePosition hd] at this
  exact (Option.some.inj this).symm

end Positions

/-! ## Routes -/

/-- The next place of a packet to `d`. -/
def unicastLegs {κ : Type} (emesh : Node κ) (t d : T.Tile) : List (Leg T κ) :=
  match Grid.toward (mesh.computePosition t) (mesh.computePosition d) with
  | some dir => ((mesh.tileAt ((mesh.computePosition t).move dir)).map (·, emesh)).toList
  | none => [(t, .receiveTile)]

/-- The next places of a broadcast of `s`, apart from the receipt at `t` itself. -/
def branches (s t : T.Tile) : List T.Tile :=
  (Grid.spread (mesh.computePosition s) (mesh.computePosition t)).filterMap fun dir =>
    mesh.tileAt ((mesh.computePosition t).move dir)

def dist (t d : T.Tile) : ℕ := (mesh.computePosition t).dist (mesh.computePosition d)

/-- A broadcast of `s` comes to `d` through `t`. -/
def Below (s t d : T.Tile) : Prop := isApplicationTile d ∧
  Grid.Below (mesh.computePosition s) (mesh.computePosition t) (mesh.computePosition d)

instance (s t d : T.Tile) : Decidable (mesh.Below s t d) := by
  unfold Below
  infer_instance

/-- How many tiles a broadcast of `s` reaches through `t`. -/
def reach (s t : T.Tile) : ℕ := ∑ d, ind (mesh.Below s t d)

section Routes

variable {mesh} {κ : Type} {emesh : Node κ} {s t d : T.Tile}

theorem nextDest_eq (emesh : Node κ) (t d : T.Tile) : mesh.nextDest emesh t d =
    match toward (mesh.computePosition t) (mesh.computePosition d) with
    | some dir => ⟨mesh.tileAt ((mesh.computePosition t).move dir), port dir, emesh⟩
    | none => ⟨some t, self, .receiveTile⟩ := by
  unfold nextDest toward
  dsimp only
  split_ifs <;> rfl

theorem port_lt (dir : Dir) : port dir < numRouterPorts := by
  cases dir <;> decide

variable (mesh) in
theorem unicast_cases (emesh : Node κ) (ht : isApplicationTile t) (hd : isApplicationTile d) :
    (t = d ∧ mesh.nextDest emesh t d = ⟨some t, self, .receiveTile⟩ ∧
      mesh.unicastLegs emesh t d = [(t, .receiveTile)]) ∨
    ∃ t' dir, isApplicationTile t' ∧ mesh.computePosition t' = (mesh.computePosition t).move dir ∧
      toward (mesh.computePosition t) (mesh.computePosition d) = some dir ∧
      mesh.dist t' d + 1 = mesh.dist t d ∧
      mesh.nextDest emesh t d = ⟨some t', port dir, emesh⟩ ∧
      mesh.unicastLegs emesh t d = [(t', emesh)] := by
  rw [nextDest_eq, unicastLegs]
  cases hdir : toward (mesh.computePosition t) (mesh.computePosition d) with
  | none => exact .inl ⟨computePosition_injective ht hd (toward_eq_none.mp hdir), rfl, rfl⟩
  | some dir =>
    have hmem : mesh.rect.Mem ((mesh.computePosition t).move dir) :=
      (mesh.computePosition_mem ht).move_toward (mesh.computePosition_mem hd) hdir
    obtain ⟨t', ht'⟩ := exists_tileAt hmem
    obtain ⟨happ, hpos⟩ := tileAt_eq_some.mp ht'
    refine .inr ⟨t', dir, happ, hpos, rfl, ?_, by simp only [ht'], by simp [ht']⟩
    rw [dist, hpos]
    exact dist_move_toward hdir

theorem mem_branches : t ∈ mesh.branches s d ↔ isApplicationTile t ∧
    ∃ dir ∈ spread (mesh.computePosition s) (mesh.computePosition d),
      mesh.computePosition t = (mesh.computePosition d).move dir := by
  unfold branches
  rw [mem_filterMap]
  constructor
  · rintro ⟨dir, hdir, ht⟩
    obtain ⟨happ, hpos⟩ := tileAt_eq_some.mp ht
    exact ⟨happ, dir, hdir, hpos⟩
  · rintro ⟨happ, dir, hdir, hpos⟩
    exact ⟨dir, hdir, tileAt_eq_some.mpr ⟨happ, hpos⟩⟩

theorem sum_filterMap {α β : Type} {l : List α} {f : α → Option β} {g : α → ℕ} {h : β → ℕ}
    (hsome : ∀ a ∈ l, ∀ b, f a = some b → g a = h b) (hnone : ∀ a ∈ l, f a = none → g a = 0) :
    (l.map g).sum = ((l.filterMap f).map h).sum := by
  induction l with
  | nil => rfl
  | cons a l ih =>
    rw [forall_mem_cons] at hsome hnone
    rw [map_cons, sum_cons, ih hsome.2 hnone.2]
    cases hf : f a with
    | none => rw [filterMap_cons_none hf, hnone.1 hf, Nat.zero_add]
    | some b => rw [filterMap_cons_some hf, map_cons, sum_cons, hsome.1 b hf]

theorem ind_below (ht : isApplicationTile t) (d : T.Tile) : ind (mesh.Below s t d) =
    ind (t = d) + ((mesh.branches s t).map fun t' => ind (mesh.Below s t' d)).sum := by
  by_cases hd : isApplicationTile d
  · have hiff : ∀ x, mesh.Below s x d ↔
        Grid.Below (mesh.computePosition s) (mesh.computePosition x) (mesh.computePosition d) :=
      fun x => and_iff_right hd
    have heq : t = d ↔ mesh.computePosition t = mesh.computePosition d :=
      ⟨fun h => by rw [h], computePosition_injective ht hd⟩
    simp only [ind_congr (hiff _), ind_congr heq]
    rw [Grid.ind_below]
    congr 1
    refine sum_filterMap (fun dir _ t' ht' => ?_) fun dir hdir hnone => ?_
    · rw [(tileAt_eq_some.mp ht').2]
    · exact ind_neg (not_below_of_not_mem (mesh.computePosition_mem ht) (mesh.computePosition_mem hd) hdir
        (tileAt_eq_none.mp hnone))
  · have hnot : ∀ x, ¬ mesh.Below s x d := fun x h => hd h.1
    have hne : t ≠ d := fun h => hd (h ▸ ht)
    rw [ind_neg (hnot t), ind_neg hne]
    symm
    simp only [ind_neg (hnot _)]
    simp

theorem isApplicationTile_of_mem_branches (h : t ∈ mesh.branches s d) : isApplicationTile t :=
  (mem_branches.mp h).1

theorem ne_of_mem_branches (h : t ∈ mesh.branches s d) : t ≠ d := by
  obtain ⟨-, dir, -, hpos⟩ := mem_branches.mp h
  rintro rfl
  exact move_ne _ dir hpos.symm

variable (mesh) in
theorem reach_eq (ht : isApplicationTile t) :
    mesh.reach s t = ((mesh.branches s t).map (mesh.reach s)).sum + 1 := by
  have hself : ∑ d, ind (t = d) = 1 := by
    simp [ind]
  have hsum : ∀ l : List T.Tile, ∑ d, (l.map fun t' => ind (mesh.Below s t' d)).sum =
      (l.map (mesh.reach s)).sum := by
    intro l
    induction l with
    | nil => simp
    | cons x l ih => simp only [map_cons, sum_cons, Finset.sum_add_distrib, ih, reach]
  rw [reach, Finset.sum_congr rfl fun d _ => ind_below ht d, Finset.sum_add_distrib, hself, hsum,
    Nat.add_comm]

variable (mesh) in
theorem reach_pos (ht : isApplicationTile t) : 0 < mesh.reach s t := by
  rw [mesh.reach_eq ht]
  exact Nat.succ_pos _

end Routes

/-! ## The contract -/

def legs (s : T.Tile) (r : Receiver T) (l : Leg T MeshNode) : List (Leg T MeshNode) :=
  match l.2, r with
  | .sendTile, _ => [(l.1, .inner .emesh)]
  | .receiveTile, _ => []
  | .inner .emesh, .tile d => mesh.unicastLegs (.inner .emesh) l.1 d
  | .inner .emesh, .broadcast =>
    (mesh.branches s l.1).map (·, .inner .emesh) ++ [(l.1, .receiveTile)]

/-- A packet that is routed is at an application tile. -/
def Good (s : T.Tile) (l : Leg T MeshNode) : Prop :=
  match l.2 with
  | .sendTile => l.1 = s ∧ isApplicationTile s
  | .receiveTile => False
  | .inner .emesh => isApplicationTile l.1

/-- The copies that a packet at `t` becomes. -/
def dests (s : T.Tile) (r : Receiver T) (l : Leg T MeshNode) (d : T.Tile) : ℕ :=
  match l.2, r with
  | .receiveTile, _ => ind (l.1 = d)
  | _, .tile x => ind (x = d)
  | _, .broadcast => ind (mesh.Below s l.1 d)

def cost (s : T.Tile) (r : Receiver T) (l : Leg T MeshNode) : ℕ :=
  match l.2, r with
  | .receiveTile, _ => 0
  | .sendTile, .tile d => 4 * (mesh.dist l.1 d + 2)
  | .sendTile, .broadcast => 7 * mesh.reach s l.1 + 1
  | .inner .emesh, .tile d => 4 * (mesh.dist l.1 d + 1)
  | .inner .emesh, .broadcast => 7 * mesh.reach s l.1 - 3

section Contract

variable {mesh} {timing} {s t d : T.Tile} {r : Receiver T} {l : Leg T MeshNode}

theorem nextDests_eq (s t : T.Tile) : mesh.nextDests s t =
    (spread (mesh.computePosition s) (mesh.computePosition t)).map (fun dir =>
      ⟨mesh.tileAt ((mesh.computePosition t).move dir), port dir, .inner .emesh⟩) ++
      [⟨some t, self, .receiveTile⟩] := by
  unfold nextDests spread
  dsimp only
  congr 1
  simp only [map_append]
  split_ifs <;> rfl

variable (mesh) in
theorem validDests_spec (s t : T.Tile) :
    let dests := (mesh.nextDests s t).filterMap fun dest =>
      dest.tile.map fun tile => (tile, dest.outputPort, dest.node)
    dests.map (fun dest => (dest.1, dest.2.2)) =
        (mesh.branches s t).map (·, .inner .emesh) ++ [(t, .receiveTile)] ∧
      1 ≤ dests.length ∧ dests.length ≤ numRouterPorts ∧ ∀ dest ∈ dests, dest.2.1 < numRouterPorts := by
  intro dests
  have hdests : dests = (spread (mesh.computePosition s) (mesh.computePosition t)).filterMap
      (fun dir => (mesh.tileAt ((mesh.computePosition t).move dir)).map
        fun tile => (tile, port dir, .inner .emesh)) ++ [(t, self, .receiveTile)] := by
    simp only [dests, nextDests_eq, filterMap_append, filterMap_map]
    rfl
  rw [hdests]
  refine ⟨?_, ?_, ?_, ?_⟩
  · rw [map_append, map_filterMap, branches, map_filterMap]
    simp only [Option.map_map]
    rfl
  · simp
  · have hle := length_filterMap_le (fun dir =>
      (mesh.tileAt ((mesh.computePosition t).move dir)).map
        fun tile => (tile, port dir, (.inner .emesh : Node MeshNode)))
      (spread (mesh.computePosition s) (mesh.computePosition t))
    have := length_spread (mesh.computePosition s) (mesh.computePosition t)
    rw [length_append, length_singleton, numRouterPorts]
    omega
  · intro dest hdest
    rcases mem_append.mp hdest with hdest | hdest
    · obtain ⟨dir, -, hdir⟩ := mem_filterMap.mp hdest
      obtain ⟨tile, -, rfl⟩ := Option.map_eq_some_iff.mp hdir
      exact port_lt dir
    · rw [mem_singleton.mp hdest]
      exact show self < numRouterPorts by decide

theorem routePacket_sat {pkt : Packet T} (st : ρ) (hr : Routed pkt.sender pkt.receiver)
    (hg : Good pkt.sender (t, pkt.node)) :
    Returns (mesh.routePacket timing t pkt st) fun out =>
      out.1.map Hop.leg = mesh.legs pkt.sender pkt.receiver (t, pkt.node) ∧
        ∀ h ∈ out.1, h.Timed pkt := by
  unfold routePacket legs
  cases hnode : pkt.node with
  | sendTile =>
    refine (Timing.router_sat (by simp)).bind fun ⟨⟨z, c⟩, st'⟩ _ => ?_
    exact ⟨rfl, by simpa using ⟨_, _, rfl⟩⟩
  | receiveTile =>
    rw [hnode] at hg
    exact hg.elim
  | inner k =>
    obtain ⟨⟩ := k
    have ht : isApplicationTile t := by
      rw [hnode] at hg
      exact hg
    cases hrec : pkt.receiver with
    | broadcast =>
      obtain ⟨hlegs, hpos, hle, hports⟩ := mesh.validDests_spec pkt.sender t
      dsimp only
      generalize (mesh.nextDests pkt.sender t).filterMap (fun dest =>
        dest.tile.map fun tile => (tile, dest.outputPort, dest.node)) = dests at hlegs hpos hle hports
      refine (Timing.router_sat ?_).bind fun ⟨⟨z, c⟩, st'⟩ _ => ?_
      · refine ⟨by rwa [length_map], by rwa [length_map], fun p hp => ?_⟩
        obtain ⟨dest, hdest, rfl⟩ := mem_map.mp hp
        exact hports dest hdest
      · rw [sat_pure, ← hlegs, map_map]
        refine ⟨rfl, fun h hh => ?_⟩
        obtain ⟨dest, -, rfl⟩ := mem_map.mp hh
        exact ⟨_, _, rfl⟩
    | tile d =>
      have hd : isApplicationTile d := by
        have := hr.2.1
        rw [hrec] at this
        exact of_decide_eq_true this
      dsimp only
      have hmove : ∃ t' p, ∃ node : Node MeshNode, mesh.nextDest (.inner .emesh) t d = ⟨some t', p, node⟩ ∧
          p < numRouterPorts ∧ mesh.unicastLegs (.inner .emesh) t d = [(t', node)] := by
        rcases mesh.unicast_cases (.inner MeshNode.emesh) ht hd with
          ⟨-, hdest, hlegs⟩ | ⟨t', dir, -, -, -, -, hdest, hlegs⟩
        · exact ⟨t, self, .receiveTile, hdest, by decide, hlegs⟩
        · exact ⟨t', port dir, .inner .emesh, hdest, port_lt dir, hlegs⟩
      obtain ⟨t', p, node, hdest, hp, hlegs⟩ := hmove
      rw [hdest, hlegs]
      dsimp only
      rw [check_pos hp, ok_bind]
      refine (Timing.router_sat (by simpa using ⟨by decide, hp⟩)).bind fun ⟨⟨z, c⟩, st'⟩ _ => ?_
      exact ⟨rfl, by simpa using ⟨_, _, rfl⟩⟩

theorem isApplicationTile_of_routed (h : Routed s (.tile d)) : isApplicationTile d :=
  of_decide_eq_true h.2.1

section

variable (hr : Routed s r) (hg : Good s l)
include hr hg

theorem legs_within {l' : Leg T MeshNode} (hl' : l' ∈ mesh.legs s r l) : Within r (Good s) l' := by
  obtain ⟨t, node⟩ := l
  match node, r, hr, hg, hl' with
  | .sendTile, _, _, hg, hl' =>
    rw [mem_singleton.mp hl']
    obtain ⟨rfl, ht⟩ : t = s ∧ isApplicationTile s := hg
    exact ht
  | .inner .emesh, .tile d, hr, hg, hl' =>
    have ht : isApplicationTile t := hg
    rcases mesh.unicast_cases (.inner MeshNode.emesh) ht (isApplicationTile_of_routed hr) with
      ⟨rfl, -, hlegs⟩ | ⟨t', -, ht', -, -, -, -, hlegs⟩
    · simp only [legs, hlegs, mem_singleton] at hl'
      rw [hl']
      exact .inr rfl
    · simp only [legs, hlegs, mem_singleton] at hl'
      rw [hl']
      exact ht'
  | .inner .emesh, .broadcast, _, hg, hl' =>
    rcases mem_append.mp hl' with hl' | hl'
    · obtain ⟨t', ht', rfl⟩ := mem_map.mp hl'
      exact isApplicationTile_of_mem_branches ht'
    · rw [mem_singleton.mp hl']
      exact .inl rfl

theorem dests_legs : mesh.dests s r l d = ((mesh.legs s r l).map (mesh.dests s r · d)).sum := by
  obtain ⟨t, node⟩ := l
  match node, r, hr, hg with
  | .sendTile, .tile x, _, _ => simp [legs, dests]
  | .sendTile, .broadcast, _, _ => simp [legs, dests]
  | .inner .emesh, .tile x, hr, hg =>
    have ht : isApplicationTile t := hg
    rcases mesh.unicast_cases (.inner MeshNode.emesh) ht (isApplicationTile_of_routed hr) with
      ⟨rfl, -, hlegs⟩ | ⟨t', -, -, -, -, -, -, hlegs⟩ <;> simp [legs, hlegs, dests]
  | .inner .emesh, .broadcast, _, hg =>
    simp only [legs, map_append, sum_append, map_map, map_singleton, sum_singleton]
    show ind (mesh.Below s t d) = ((mesh.branches s t).map fun t' => ind (mesh.Below s t' d)).sum +
      ind (t = d)
    rw [ind_below hg, Nat.add_comm]

theorem cost_legs : ((mesh.legs s r l).map (mesh.cost s r · + 3)).sum < mesh.cost s r l := by
  obtain ⟨t, node⟩ := l
  match node, r, hr, hg with
  | .sendTile, .tile x, _, _ =>
    simp only [legs, cost, map_singleton, sum_singleton]
    omega
  | .sendTile, .broadcast, _, hg =>
    obtain ⟨rfl, ht⟩ : t = s ∧ isApplicationTile s := hg
    have := mesh.reach_pos (s := t) ht
    simp only [legs, cost, map_singleton, sum_singleton]
    omega
  | .inner .emesh, .tile x, hr, hg =>
    have ht : isApplicationTile t := hg
    rcases mesh.unicast_cases (.inner MeshNode.emesh) ht (isApplicationTile_of_routed hr) with
      ⟨rfl, -, hlegs⟩ | ⟨t', -, -, -, -, hdist, -, hlegs⟩
    · simp only [legs, hlegs, cost, map_singleton, sum_singleton]
      omega
    · simp only [legs, hlegs, cost, map_singleton, sum_singleton]
      omega
  | .inner .emesh, .broadcast, _, hg =>
    have hcongr : (mesh.branches s t).map (fun t' => 7 * mesh.reach s t' - 3 + 3) =
        (mesh.branches s t).map fun t' => 7 * mesh.reach s t' := by
      apply map_congr_left
      intro t' ht'
      have := mesh.reach_pos (s := s) (isApplicationTile_of_mem_branches ht')
      omega
    simp only [legs, cost, map_append, sum_append, map_map, map_singleton, sum_singleton]
    show ((mesh.branches s t).map fun t' => 7 * mesh.reach s t' - 3 + 3).sum + 3 < 7 * mesh.reach s t - 3
    have ht : isApplicationTile t := hg
    rw [hcongr, sum_map_mul_left, mesh.reach_eq ht]
    omega

end

end Contract

def contract (broadcastTreeEnabled : Bool) : Contract (mesh.model timing broadcastTreeEnabled) where
  legs := mesh.legs
  Good s _ l := Good s l
  dests := mesh.dests
  size := mesh.cost
  refines st hr hg := routePacket_sat st hr hg
  start hr := ⟨rfl, hr.1⟩
  closed hr hg _ hl' := legs_within hr hg hl'
  dests_receive := rfl
  dests_start {s r d} hr := by
    cases r with
    | tile x =>
      have hx := isApplicationTile_of_routed hr
      refine ind_congr ⟨?_, ?_⟩
      · rintro rfl
        exact ⟨hx, .inr rfl⟩
      · rintro ⟨-, h⟩
        simpa using h
    | broadcast => exact ind_congr (by simp [Below, Grid.below_source])
  dests_legs := dests_legs
  size_receive := rfl
  size_legs := cost_legs

/-! ## Links -/

def linksAhead (s : T.Tile) (r : Receiver T) (l : Leg T MeshNode) : ℕ :=
  match l.2, r with
  | .receiveTile, _ => 0
  | .sendTile, .tile d => if Routed s (.tile d) then mesh.dist l.1 d else 0
  | .sendTile, .broadcast => if Routed s .broadcast then mesh.reach s l.1 - 1 else 0
  | .inner .emesh, .tile d => mesh.dist l.1 d
  | .inner .emesh, .broadcast => mesh.reach s l.1 - 1

/-- A hop to the router of another tile crosses a link. -/
def crossing (t : T.Tile) (l : Leg T MeshNode) : ℕ := ind (l.1 ≠ t ∧ l.2 ≠ .receiveTile)

section Links

variable {mesh} {s t d : T.Tile} {r : Receiver T} {l : Leg T MeshNode}

@[simp] theorem crossing_receive (t d : T.Tile) : crossing t (d, .receiveTile) = 0 :=
  ind_neg fun h => h.2 rfl

@[simp] theorem crossing_self (t : T.Tile) (node : Node MeshNode) : crossing t (t, node) = 0 :=
  ind_neg fun h => h.1 rfl

theorem crossing_of_ne (h : d ≠ t) : crossing t (d, .inner .emesh) = 1 :=
  ind_pos ⟨h, by simp⟩

theorem linksAhead_direct (s : T.Tile) (r : Receiver T) : (((directTiles s r).map (·, .receiveTile)).map
    fun l' => mesh.linksAhead s r l' + crossing s l').sum = 0 := by
  apply sum_eq_zero
  intro x hx
  rw [map_map] at hx
  obtain ⟨d, -, rfl⟩ := mem_map.mp hx
  simp [linksAhead]

theorem linksAhead_legs (hr : Routed s r) (ht : isApplicationTile t) :
    mesh.linksAhead s r (t, .inner .emesh) = ((mesh.legs s r (t, .inner .emesh)).map
      fun l' => mesh.linksAhead s r l' + crossing t l').sum := by
  cases r with
  | tile x =>
    rcases mesh.unicast_cases (.inner MeshNode.emesh) ht (isApplicationTile_of_routed hr) with
      ⟨rfl, -, hlegs⟩ | ⟨t', dir, -, hpos, -, hdist, -, hlegs⟩
    · simp [legs, hlegs, linksAhead, dist, dist_eq_zero]
    · have hne : t' ≠ t := by
        rintro rfl
        exact move_ne _ dir hpos.symm
      simp only [legs, hlegs, linksAhead, map_singleton, sum_singleton, crossing_of_ne hne]
      exact hdist.symm
  | broadcast =>
    have hcongr : (mesh.branches s t).map (fun t' => mesh.reach s t' - 1 + crossing t (t', .inner .emesh)) =
        (mesh.branches s t).map (mesh.reach s) := by
      apply map_congr_left
      intro t' ht'
      have := mesh.reach_pos (s := s) (isApplicationTile_of_mem_branches ht')
      rw [crossing_of_ne (ne_of_mem_branches ht')]
      omega
    simp only [legs, map_append, sum_append, map_map, map_singleton,
      sum_singleton, crossing_receive]
    show mesh.reach s t - 1 = ((mesh.branches s t).map fun t' =>
      mesh.reach s t' - 1 + crossing t (t', .inner .emesh)).sum + 0
    rw [hcongr, mesh.reach_eq ht]
    omega

end Links

def linkTally (broadcastTreeEnabled : Bool) : Tally (mesh.contract timing broadcastTreeEnabled) where
  value := mesh.linksAhead
  hop := crossing
  receipt _ := 0
  split {s r l} h hrec := by
    obtain ⟨t, node⟩ := l
    match node, h, hrec with
    | .sendTile, h, _ =>
      have ht : t = s := h
      subst ht
      rw [Contract.next, if_pos rfl, List.map_append, List.sum_append, linksAhead_direct, Nat.zero_add]
      split
      · next hr => cases r <;> simp [linksAhead, hr, contract, legs]
      · next hr => cases r <;> simp [linksAhead, hr]
    | .inner .emesh, h, _ =>
      obtain ⟨hr, ht⟩ := h
      rw [Contract.next_of_ne (by simp)]
      exact linksAhead_legs hr ht
  done := rfl

/-- The links that a packet of `s` to `d` crosses. -/
def unicastLinks (s d : T.Tile) : ℕ :=
  if isApplicationTile s ∧ isApplicationTile d then mesh.dist s d else 0

/-- The links that the packets of one `netSend` cross. -/
def linkCount (broadcastTreeEnabled : Bool) (pkt : Packet T) : ℕ :=
  match pkt.receiver with
  | .tile d => mesh.unicastLinks pkt.sender d
  | .broadcast =>
    if broadcastTreeEnabled then
      if isApplicationTile pkt.sender then T.application - 1 else 0
    else ∑ d, mesh.unicastLinks pkt.sender d

/-- How often packets with the origin `o` have crossed a link. -/
def linksCrossed (tr : List (Event T MeshNode)) (o : Origin T) : ℕ :=
  tr.countP fun e => match e with
    | .hop t f => decide (f.2.origin = o ∧ f.1 ≠ t ∧ f.2.node ≠ .receiveTile)
    | _ => false

/-- The links that the packets sent with the origin `o` cross. -/
def linksDue (broadcastTreeEnabled : Bool) (tr : List (Event T MeshNode)) (o : Origin T) : ℕ :=
  (tr.map fun e => match e with
    | .sent pkt => if pkt.origin = o then mesh.linkCount broadcastTreeEnabled pkt else 0
    | _ => 0).sum

section Counts

variable {mesh} {timing} {tree : Bool}

theorem reach_source (s : T.Tile) : mesh.reach s s = T.application := by
  have heq : ∀ d, ind (mesh.Below s s d) = if d.val < T.application then 1 else 0 := by
    intro d
    exact ind_congr (by simp [Below, below_source, isApplicationTile])
  have hcard : ∑ d : Fin T.total, (if d.val < T.application then 1 else 0) = T.application := by
    rw [Finset.sum_boole, Fin.card_filter_val_lt, Nat.min_eq_right T.le]
    rfl
  rw [reach, Finset.sum_congr rfl fun d _ => heq d]
  exact hcard

theorem linksAhead_start (s d : T.Tile) :
    mesh.linksAhead s (.tile d) (s, .sendTile) = mesh.unicastLinks s d := by
  simp only [linksAhead, unicastLinks]
  split
  · next hr => rw [if_pos ⟨hr.1, isApplicationTile_of_routed hr⟩]
  · next hr =>
    split
    · next happ =>
      have hself : d = s := by
        by_contra hne
        exact hr ⟨happ.1, decide_eq_true happ.2, by simpa using hne⟩
      rw [hself, dist, dist_eq_zero.mpr rfl]
    · rfl

theorem due_linkTally (o : Origin T) (pkt : Packet T) : (mesh.linkTally timing tree).due o (.sent pkt) =
    if pkt.origin = o then mesh.linkCount tree pkt else 0 := by
  rw [Tally.due]
  congr 1
  cases hrec : pkt.receiver with
  | tile d => simp [netSend, hrec, linkTally, linksAhead_start, linkCount]
  | broadcast =>
    cases tree with
    | true =>
      have hrouted : Routed pkt.sender .broadcast ↔ isApplicationTile pkt.sender := by
        simp [Routed, Receiver.routable]
      simp [netSend, model, hrec, linkTally, linkCount, linksAhead, hrouted, reach_source]
    | false =>
      simp only [netSend, model, hrec, linkTally, linkCount, and_self, if_true, map_map,
        Bool.false_eq_true, if_false]
      rw [Fin.sum_univ_def]
      congr 1
      apply map_congr_left
      intro d _
      exact linksAhead_start pkt.sender d

theorem linksDue_eq (tr : List (Event T MeshNode)) (o : Origin T) :
    (tr.map ((mesh.linkTally timing tree).due o)).sum = mesh.linksDue tree tr o := by
  unfold linksDue
  congr 1
  apply map_congr_left
  intro e _
  cases e with
  | sent pkt => exact due_linkTally o pkt
  | hop t f => rfl
  | received t pkt => rfl

theorem linksCrossed_eq (tr : List (Event T MeshNode)) (o : Origin T) :
    (tr.map ((mesh.linkTally timing tree).paid o)).sum = linksCrossed tr o := by
  induction tr with
  | nil => rfl
  | cons e tr ih =>
    rw [map_cons, sum_cons, ih, linksCrossed, linksCrossed, countP_cons, Nat.add_comm]
    congr 1
    cases e with
    | sent pkt => rfl
    | hop t f =>
      by_cases ho : f.2.origin = o
      · simp [Tally.paid, linkTally, crossing, ho, ind, Flight.leg]
      · simp [Tally.paid, ho]
    | received t pkt => simp [Tally.paid, linkTally]

end Counts

/-- Nothing gets lost or is received twice, and every packet crosses as many links of the mesh as its
receiver is away; a broadcast on the tree crosses one for each other tile. -/
theorem hop_by_hop_mesh (broadcastTreeEnabled shortcut : Bool) :
    Delivers shortcut (mesh.model timing broadcastTreeEnabled) ∧
    ∀ tr s, (network shortcut (mesh.model timing broadcastTreeEnabled)).Run (fun _ => True) tr s →
      s.pending = [] → ∀ o, linksCrossed tr o = mesh.linksDue broadcastTreeEnabled tr o := by
  refine ⟨(mesh.contract timing broadcastTreeEnabled).delivers shortcut, fun tr s h hempty o => ?_⟩
  have hbalance := (mesh.linkTally timing broadcastTreeEnabled).balance o h
  rw [linksDue_eq, linksCrossed_eq, hempty] at hbalance
  simpa using hbalance.symm

end Mesh

end Graphite.Network
