import Graphite.Network.Mesh
import Graphite.Library.Tiling

/-! # The clusters of ATAC

The tiles form a square mesh that is divided into clusters with an optical hub, and every cluster into
sub-clusters with an access point. For all sizes that the constructor accepts, the cells at both
levels have the same size and cover the mesh.
-/

namespace Graphite.Network

open Outcome List Tiling
open Tiling (centre rows)

def isPower2 (n : ℕ) : Prop := n &&& (n - 1) = 0
deriving Decidable

def isPerfectSquare (n : ℕ) : Prop := n = Nat.sqrt n * Nat.sqrt n
deriving Decidable

/-- The smaller side of the arrangement of `n` cells. -/
def lowSide (n : ℕ) : ℕ := if n.log2 % 2 = 0 then Nat.sqrt n else Nat.sqrt (n / 2)

def highSide (n : ℕ) : ℕ := if n.log2 % 2 = 0 then Nat.sqrt n else Nat.sqrt (n * 2)

inductive ReceiveNetType
  | btree | star
  deriving DecidableEq, Repr

inductive GlobalRoutingStrategy
  | clusterBased | distanceBased
  deriving DecidableEq, Repr

inductive LaserType
  | standard | throttled
  deriving DecidableEq, Repr

structure LaserModes where
  unicast : Bool
  broadcast : Bool

def LaserType.accepts (m : LaserModes) : LaserType → Bool
  | .standard => m.unicast ^^ m.broadcast
  | .throttled => m.unicast || m.broadcast

/-- A configuration that passes the assertions of the constructors. Without access points it would divide
by zero already there. -/
structure Atac (T : Tiles) where
  clusterSize : ℕ
  numAccessPointsPerCluster : ℕ
  receiveNetType : ReceiveNetType
  numReceiveNetworksPerCluster : ℕ
  globalRoutingStrategy : GlobalRoutingStrategy
  unicastDistanceThreshold : ℤ
  laserType : LaserType
  laserModes : LaserModes
  accessPoints_le : numAccessPointsPerCluster ≤ clusterSize
  perfectSquare : isPerfectSquare T.application
  power2 : isPower2 T.application
  clusterSize_power2 : isPower2 clusterSize
  multiple : T.application % clusterSize = 0
  clusters_gt_one : T.application / clusterSize > 1
  accessPoints_power2 : isPower2 numAccessPointsPerCluster
  accessPoints_ne_zero : numAccessPointsPerCluster ≠ 0
  laser : laserType.accepts laserModes = true

namespace Atac

variable {T : Tiles} (A : Atac T)

def enetWidth (_ : Atac T) : ℕ := Nat.sqrt T.application

def numClusters : ℕ := T.application / A.clusterSize

def numXClusters : ℕ := lowSide A.numClusters

def numYClusters : ℕ := highSide A.numClusters

def clusterWidth : ℕ := A.enetWidth / A.numXClusters

def clusterHeight : ℕ := A.enetWidth / A.numYClusters

def numXSubClusters : ℕ := highSide A.numAccessPointsPerCluster

def numYSubClusters : ℕ := lowSide A.numAccessPointsPerCluster

def subClusterWidth : ℕ := A.clusterWidth / A.numXSubClusters

def subClusterHeight : ℕ := A.clusterHeight / A.numYSubClusters

/-- `computePositionOnENet`, with `row`. -/
def column (t : T.Tile) : ℕ := t.val % A.enetWidth

def row (t : T.Tile) : ℕ := t.val / A.enetWidth

structure Boundary where
  minX : ℕ
  maxX : ℕ
  minY : ℕ
  maxY : ℕ

structure ClusterInfo where
  boundary : Boundary
  accessPointList : List ℕ

def initializeAccessPointList (boundary : Boundary) : List ℕ :=
  rows A.numXSubClusters A.numYSubClusters fun x y =>
    let accessPointX := boundary.minX + x * A.subClusterWidth + A.subClusterWidth / 2
    let accessPointY := boundary.minY + y * A.subClusterHeight + A.subClusterHeight / 2
    accessPointY * A.enetWidth + accessPointX

def clusterBoundary (x y : ℕ) : Boundary where
  minX := x * A.clusterWidth
  maxX := (x + 1) * A.clusterWidth
  minY := y * A.clusterHeight
  maxY := (y + 1) * A.clusterHeight

/-- `initializeClusters`: the cluster in column `x` and row `y` is number `y * numXClusters + x`. -/
def clusterInfoList : List ClusterInfo :=
  rows A.numXClusters A.numYClusters fun x y =>
    ⟨A.clusterBoundary x y, A.initializeAccessPointList (A.clusterBoundary x y)⟩

def clusterMeshWidth : ℕ := A.enetWidth / A.clusterWidth

def getClusterID (t : T.Tile) : ℕ :=
  A.row t / A.clusterHeight * A.clusterMeshWidth + A.column t / A.clusterWidth

def getSubClusterID (t : T.Tile) : Option ℕ := do
  let info ← A.clusterInfoList[A.getClusterID t]?
  let posX := (A.column t - info.boundary.minX) / A.subClusterWidth
  let posY := (A.row t - info.boundary.minY) / A.subClusterHeight
  pure (posY * A.numXSubClusters + posX)

/-- The access point of the sub-cluster, if the tile is in one. -/
def getNearestAccessPoint (t : T.Tile) : Option ℕ := do
  let info ← A.clusterInfoList[A.getClusterID t]?
  let subClusterID ← A.getSubClusterID t
  info.accessPointList[subClusterID]?

def isAccessPoint (t : T.Tile) : Prop := A.getNearestAccessPoint t = some t.val
deriving Decidable

def getTileIDWithOpticalHub (clusterID : ℕ) : ℕ :=
  let clusterPosX := clusterID % A.clusterMeshWidth
  let clusterPosY := clusterID / A.clusterMeshWidth
  let opticalHubX := clusterPosX * A.clusterWidth + A.clusterWidth / 2
  let opticalHubY := clusterPosY * A.clusterHeight + A.clusterHeight / 2
  opticalHubY * A.enetWidth + opticalHubX

def clusterPositions (clusterID : ℕ) : List (ℕ × ℕ) :=
  let coreX := clusterID % A.clusterMeshWidth * A.clusterWidth
  let coreY := clusterID / A.clusterMeshWidth * A.clusterHeight
  (List.range' coreX A.clusterWidth).product (List.range' coreY A.clusterHeight)

def getTileIDListInCluster (clusterID : ℕ) : Except Fault (List T.Tile) :=
  (A.clusterPositions clusterID).mapM fun (i, j) =>
    if h : j * A.enetWidth + i < T.application then pure ⟨j * A.enetWidth + i, Nat.lt_of_lt_of_le h T.le⟩
    else throw .invalidTile

/-! ## Sizes -/

/-- The clusters tile the mesh, and the sub-clusters tile each cluster. -/
structure Shape : Prop where
  size : A.enetWidth * A.enetWidth = T.application
  columns : A.numXClusters * A.clusterWidth = A.enetWidth
  rows : A.numYClusters * A.clusterHeight = A.enetWidth
  clusters : A.numXClusters * A.numYClusters = A.numClusters
  cluster : A.clusterWidth * A.clusterHeight = A.clusterSize
  subColumns : A.numXSubClusters * A.subClusterWidth = A.clusterWidth
  subRows : A.numYSubClusters * A.subClusterHeight = A.clusterHeight
  numX_pos : 0 < A.numXClusters
  numXSub_pos : 0 < A.numXSubClusters
  numYSub_pos : 0 < A.numYSubClusters
  subWidth_pos : 0 < A.subClusterWidth
  subHeight_pos : 0 < A.subClusterHeight

theorem exists_two_pow_of_isPower2 {n : ℕ} (h : isPower2 n) (hn : n ≠ 0) : ∃ k, n = 2 ^ k :=
  (Nat.and_sub_one_eq_zero_iff_isPowerOfTwo hn).mp h

theorem two_pow_half {c : ℕ} (h : c % 2 = 0) : 2 ^ c = 2 ^ (c / 2 + c / 2) := by
  congr 1
  omega

theorem lowSide_two_pow (c : ℕ) : lowSide (2 ^ c) = 2 ^ (c / 2) := by
  rw [lowSide, Nat.log2_two_pow]
  split
  · next h => rw [two_pow_half h, sqrt_two_pow]
  · next h =>
    have hc : c = c / 2 + c / 2 + 1 := by omega
    conv_lhs => rw [hc, Nat.pow_succ, Nat.mul_div_cancel _ Nat.two_pos]
    exact sqrt_two_pow _

theorem highSide_two_pow (c : ℕ) : highSide (2 ^ c) = 2 ^ ((c + 1) / 2) := by
  rw [highSide, Nat.log2_two_pow]
  split
  · next h =>
    rw [two_pow_half h, sqrt_two_pow]
    congr 1
    omega
  · next h =>
    rw [← Nat.pow_succ, two_pow_half (by omega), sqrt_two_pow]

theorem exists_exponents : ∃ k m n, T.application = 2 ^ (k + k) ∧ A.clusterSize = 2 ^ m ∧
    A.numAccessPointsPerCluster = 2 ^ n ∧ n ≤ m ∧ m ≤ k + k := by
  have happ : T.application ≠ 0 := by
    intro h
    have := A.clusters_gt_one
    rw [h, Nat.zero_div] at this
    omega
  have hsize : A.clusterSize ≠ 0 := by
    have := A.accessPoints_le
    have := A.accessPoints_ne_zero
    omega
  obtain ⟨e, he⟩ := exists_two_pow_of_isPower2 A.power2 happ
  obtain ⟨m, hm⟩ := exists_two_pow_of_isPower2 A.clusterSize_power2 hsize
  obtain ⟨n, hn⟩ := exists_two_pow_of_isPower2 A.accessPoints_power2 A.accessPoints_ne_zero
  obtain ⟨k, -, rfl⟩ := exists_sqrt_eq_two_pow (A.perfectSquare.symm.trans he)
  refine ⟨k, m, n, he, hm, hn, ?_, ?_⟩
  · have := A.accessPoints_le
    rw [hn, hm] at this
    exact (Nat.pow_le_pow_iff_right Nat.one_lt_two).mp this
  · have := Nat.dvd_of_mod_eq_zero A.multiple
    rw [he, hm] at this
    exact (Nat.pow_dvd_pow_iff_le_right Nat.one_lt_two).mp this

theorem shape : A.Shape := by
  obtain ⟨k, m, n, happ, hsize, haccess, hnm, hmk⟩ := A.exists_exponents
  have hwidth : A.enetWidth = 2 ^ k := by rw [enetWidth, happ, sqrt_two_pow]
  have hnum : A.numClusters = 2 ^ (k + k - m) := by
    rw [numClusters, happ, hsize, Nat.pow_div hmk Nat.two_pos]
  have hnumX : A.numXClusters = 2 ^ ((k + k - m) / 2) := by rw [numXClusters, hnum, lowSide_two_pow]
  have hnumY : A.numYClusters = 2 ^ ((k + k - m + 1) / 2) := by rw [numYClusters, hnum, highSide_two_pow]
  have hcw : A.clusterWidth = 2 ^ (k - (k + k - m) / 2) := by
    rw [clusterWidth, hwidth, hnumX, Nat.pow_div (by omega) Nat.two_pos]
  have hch : A.clusterHeight = 2 ^ (k - (k + k - m + 1) / 2) := by
    rw [clusterHeight, hwidth, hnumY, Nat.pow_div (by omega) Nat.two_pos]
  have hsubX : A.numXSubClusters = 2 ^ ((n + 1) / 2) := by rw [numXSubClusters, haccess, highSide_two_pow]
  have hsubY : A.numYSubClusters = 2 ^ (n / 2) := by rw [numYSubClusters, haccess, lowSide_two_pow]
  have hsw : A.subClusterWidth = 2 ^ (k - (k + k - m) / 2 - (n + 1) / 2) := by
    rw [subClusterWidth, hcw, hsubX, Nat.pow_div (by omega) Nat.two_pos]
  have hsh : A.subClusterHeight = 2 ^ (k - (k + k - m + 1) / 2 - n / 2) := by
    rw [subClusterHeight, hch, hsubY, Nat.pow_div (by omega) Nat.two_pos]
  constructor
  case size => rw [hwidth, happ, Nat.pow_add]
  case columns => rw [hnumX, hcw, hwidth, ← Nat.pow_add]; congr 1; omega
  case rows => rw [hnumY, hch, hwidth, ← Nat.pow_add]; congr 1; omega
  case clusters => rw [hnumX, hnumY, hnum, ← Nat.pow_add]; congr 1; omega
  case cluster => rw [hcw, hch, hsize, ← Nat.pow_add]; congr 1; omega
  case subColumns => rw [hsubX, hsw, hcw, ← Nat.pow_add]; congr 1; omega
  case subRows => rw [hsubY, hsh, hch, ← Nat.pow_add]; congr 1; omega
  case numX_pos => rw [hnumX]; exact Nat.two_pow_pos _
  case numXSub_pos => rw [hsubX]; exact Nat.two_pow_pos _
  case numYSub_pos => rw [hsubY]; exact Nat.two_pow_pos _
  case subWidth_pos => rw [hsw]; exact Nat.two_pow_pos _
  case subHeight_pos => rw [hsh]; exact Nat.two_pow_pos _

theorem clusterWidth_pos : 0 < A.clusterWidth :=
  A.shape.subColumns ▸ Nat.mul_pos A.shape.numXSub_pos A.shape.subWidth_pos

theorem clusterHeight_pos : 0 < A.clusterHeight :=
  A.shape.subRows ▸ Nat.mul_pos A.shape.numYSub_pos A.shape.subHeight_pos

theorem enetWidth_pos : 0 < A.enetWidth :=
  A.shape.columns ▸ Nat.mul_pos A.shape.numX_pos A.clusterWidth_pos

theorem clusterMeshWidth_eq : A.clusterMeshWidth = A.numXClusters := by
  rw [clusterMeshWidth, ← A.shape.columns, Nat.mul_div_cancel _ A.clusterWidth_pos]

/-! ## Positions -/

def enet : Mesh T where
  width := A.enetWidth
  height := A.enetWidth
  size := A.shape.size

theorem computePosition_enet (t : T.Tile) : A.enet.computePosition t = ⟨A.column t, A.row t⟩ := rfl

theorem total_pos (A : Atac T) : 0 < T.total := by
  have := Nat.mul_pos A.enetWidth_pos A.enetWidth_pos
  rw [A.shape.size] at this
  exact Nat.lt_of_lt_of_le this T.le

/-- The tile with the number `n`, if there is one. -/
def tile (n : ℕ) : T.Tile := ⟨n % T.total, Nat.mod_lt _ A.total_pos⟩

def place (x y : ℕ) : T.Tile := A.tile (y * A.enetWidth + x)

section Positions

variable {A} {t d : T.Tile} {x y : ℕ}

theorem column_lt (A : Atac T) (t : T.Tile) : A.column t < A.enetWidth := Nat.mod_lt _ A.enetWidth_pos

theorem row_lt (ht : isApplicationTile t) : A.row t < A.enetWidth := by
  unfold isApplicationTile at ht
  rw [← A.shape.size] at ht
  exact Nat.div_lt_of_lt_mul ht

theorem val_eq (A : Atac T) (t : T.Tile) : t.val = A.row t * A.enetWidth + A.column t := by
  rw [row, column, Nat.mul_comm]
  exact (Nat.div_add_mod ..).symm

section

variable (hx : x < A.enetWidth) (hy : y < A.enetWidth)
include hx hy

theorem position_lt : y * A.enetWidth + x < T.application :=
  A.enet.tile_lt hx hy

theorem place_val : (A.place x y).val = y * A.enetWidth + x :=
  Nat.mod_eq_of_lt (Nat.lt_of_lt_of_le (position_lt hx hy) T.le)

theorem isApplicationTile_place : isApplicationTile (A.place x y) := by
  unfold isApplicationTile
  rw [place_val hx hy]
  exact position_lt hx hy

theorem column_place : A.column (A.place x y) = x := by
  rw [column, place_val hx hy, Nat.mul_add_mod_self_right, Nat.mod_eq_of_lt hx]

theorem row_place : A.row (A.place x y) = y := by
  rw [row, place_val hx hy, mul_add_div_eq A.enetWidth_pos _ hx]

end

theorem place_column_row (ht : isApplicationTile t) : A.place (A.column t) (A.row t) = t := by
  rw [Fin.ext_iff, place_val (column_lt A t) (row_lt ht), ← val_eq]

theorem clusterX_lt (A : Atac T) (t : T.Tile) : A.column t / A.clusterWidth < A.numXClusters := by
  rw [Nat.div_lt_iff_lt_mul A.clusterWidth_pos, A.shape.columns]
  exact column_lt A t

theorem clusterY_lt (ht : isApplicationTile t) : A.row t / A.clusterHeight < A.numYClusters := by
  rw [Nat.div_lt_iff_lt_mul A.clusterHeight_pos, A.shape.rows]
  exact row_lt ht

theorem getClusterID_eq_iff {c : ℕ} : A.getClusterID t = c ↔
    A.column t / A.clusterWidth = c % A.numXClusters ∧ A.row t / A.clusterHeight = c / A.numXClusters := by
  have hx := clusterX_lt A t
  rw [getClusterID, clusterMeshWidth_eq]
  constructor
  · rintro rfl
    rw [Nat.mul_add_mod_self_right, Nat.mod_eq_of_lt hx, mul_add_div_eq A.shape.numX_pos _ hx]
    exact ⟨rfl, rfl⟩
  · rintro ⟨hcol, hrow⟩
    rw [hcol, hrow, Nat.mul_comm]
    exact Nat.div_add_mod ..

theorem getClusterID_lt (ht : isApplicationTile t) : A.getClusterID t < A.numClusters := by
  have hx := clusterX_lt A t
  have hy := Nat.mul_le_mul_right A.numXClusters (Nat.succ_le_of_lt (clusterY_lt (A := A) ht))
  rw [Nat.succ_mul, Nat.mul_comm A.numYClusters, A.shape.clusters] at hy
  rw [getClusterID, clusterMeshWidth_eq]
  omega

end Positions

/-! ## Access points -/

def SameCell (t d : T.Tile) : Prop :=
  A.column t / A.subClusterWidth = A.column d / A.subClusterWidth ∧
    A.row t / A.subClusterHeight = A.row d / A.subClusterHeight

def accessPoint (t : T.Tile) : T.Tile :=
  A.place (centre A.subClusterWidth (A.column t)) (centre A.subClusterHeight (A.row t))

section AccessPoints

variable {A} {t d : T.Tile}

theorem SameCell.getClusterID_eq (h : A.SameCell t d) : A.getClusterID t = A.getClusterID d := by
  rw [getClusterID, getClusterID, ← A.shape.subColumns, ← A.shape.subRows, div_mul_congr h.1,
    div_mul_congr h.2]

theorem SameCell.accessPoint_eq (h : A.SameCell t d) : A.accessPoint t = A.accessPoint d := by
  rw [accessPoint, accessPoint, centre_congr h.1, centre_congr h.2]

theorem width_eq (A : Atac T) :
    A.enetWidth = A.numXClusters * A.numXSubClusters * A.subClusterWidth := by
  rw [Nat.mul_assoc, A.shape.subColumns, A.shape.columns]

theorem height_eq (A : Atac T) :
    A.enetWidth = A.numYClusters * A.numYSubClusters * A.subClusterHeight := by
  rw [Nat.mul_assoc, A.shape.subRows, A.shape.rows]

theorem centre_column_lt (A : Atac T) (t : T.Tile) :
    centre A.subClusterWidth (A.column t) < A.enetWidth := by
  have h := column_lt A t
  rw [width_eq] at h ⊢
  exact lt_of_div_eq A.shape.subWidth_pos (centre_div A.shape.subWidth_pos) h

section

variable (ht : isApplicationTile t)
include ht

theorem centre_row_lt : centre A.subClusterHeight (A.row t) < A.enetWidth := by
  have h := row_lt (A := A) ht
  rw [height_eq] at h ⊢
  exact lt_of_div_eq A.shape.subHeight_pos (centre_div A.shape.subHeight_pos) h

theorem isApplicationTile_accessPoint : isApplicationTile (A.accessPoint t) :=
  isApplicationTile_place (centre_column_lt A t) (centre_row_lt ht)

theorem sameCell_accessPoint : A.SameCell (A.accessPoint t) t := by
  have hx := centre_column_lt A t
  have hy := centre_row_lt (A := A) ht
  constructor
  · rw [accessPoint, column_place hx hy, centre_div A.shape.subWidth_pos]
  · rw [accessPoint, row_place hx hy, centre_div A.shape.subHeight_pos]

theorem getNearestAccessPoint_eq : A.getNearestAccessPoint t = some (A.accessPoint t).val := by
  let boundary := A.clusterBoundary (A.column t / A.clusterWidth) (A.row t / A.clusterHeight)
  have hcluster : A.clusterInfoList[A.getClusterID t]? =
      some ⟨boundary, A.initializeAccessPointList boundary⟩ := by
    rw [getClusterID, clusterMeshWidth_eq]
    exact getElem?_rows (clusterX_lt A t) (clusterY_lt ht)
  have hsubX : (A.column t - A.column t / A.clusterWidth * A.clusterWidth) / A.subClusterWidth <
      A.numXSubClusters := by
    rw [← A.shape.subColumns]
    exact sub_div_lt A.shape.numXSub_pos
  have hsubY : (A.row t - A.row t / A.clusterHeight * A.clusterHeight) / A.subClusterHeight <
      A.numYSubClusters := by
    rw [← A.shape.subRows]
    exact sub_div_lt A.shape.numYSub_pos
  have hx := add_sub_div (A.column t) A.numXSubClusters A.subClusterWidth
  have hy := add_sub_div (A.row t) A.numYSubClusters A.subClusterHeight
  rw [A.shape.subColumns] at hx
  rw [A.shape.subRows] at hy
  rw [getNearestAccessPoint, getSubClusterID, hcluster]
  simp only [Option.bind_eq_bind, Option.bind_some, Option.pure_def, initializeAccessPointList, boundary,
    clusterBoundary]
  rw [getElem?_rows hsubX hsubY, accessPoint, place_val (centre_column_lt A t) (centre_row_lt ht)]
  simp only [hx, hy, centre]

theorem isAccessPoint_iff : A.isAccessPoint t ↔ t = A.accessPoint t := by
  rw [isAccessPoint, getNearestAccessPoint_eq ht, Option.some.injEq, Fin.ext_iff, eq_comm]

end

theorem sameCell_iff_mem : A.SameCell d t ↔ (cell A.subClusterWidth A.subClusterHeight
    (A.column t / A.subClusterWidth) (A.row t / A.subClusterHeight)).Mem (A.enet.computePosition d) := by
  rw [computePosition_enet, mem_cell A.shape.subWidth_pos A.shape.subHeight_pos]
  rfl

end AccessPoints

/-! ## Hubs -/

def hub (clusterID : ℕ) : T.Tile := A.tile (A.getTileIDWithOpticalHub clusterID)

def clusterTiles (clusterID : ℕ) : List T.Tile :=
  (A.clusterPositions clusterID).map fun p => A.place p.1 p.2

section Hubs

variable {A} {t d : T.Tile} {c : ℕ}

theorem lt_enetWidth_of_clusterX {x : ℕ} (h : x / A.clusterWidth = c % A.numXClusters) :
    x < A.enetWidth := by
  rw [← A.shape.columns, ← Nat.div_lt_iff_lt_mul A.clusterWidth_pos, h]
  exact Nat.mod_lt _ A.shape.numX_pos

theorem lt_enetWidth_of_clusterY (hc : c < A.numClusters) {y : ℕ}
    (h : y / A.clusterHeight = c / A.numXClusters) : y < A.enetWidth := by
  rw [← A.shape.rows, ← Nat.div_lt_iff_lt_mul A.clusterHeight_pos, h]
  apply Nat.div_lt_of_lt_mul
  rwa [A.shape.clusters]

theorem hub_spec (hc : c < A.numClusters) : (A.hub c).val = A.getTileIDWithOpticalHub c ∧
    isApplicationTile (A.hub c) ∧ A.getClusterID (A.hub c) = c := by
  have hx := mul_add_div_eq A.clusterWidth_pos (c % A.numXClusters) (half_lt A.clusterWidth_pos)
  have hy := mul_add_div_eq A.clusterHeight_pos (c / A.numXClusters) (half_lt A.clusterHeight_pos)
  have hxlt := lt_enetWidth_of_clusterX hx
  have hylt := lt_enetWidth_of_clusterY hc hy
  have hat : A.hub c = A.place (c % A.numXClusters * A.clusterWidth + A.clusterWidth / 2)
      (c / A.numXClusters * A.clusterHeight + A.clusterHeight / 2) := by
    rw [hub, getTileIDWithOpticalHub, clusterMeshWidth_eq]
    rfl
  refine ⟨?_, ?_, ?_⟩
  · rw [hat, place_val hxlt hylt, getTileIDWithOpticalHub, clusterMeshWidth_eq]
  · rw [hat]
    exact isApplicationTile_place hxlt hylt
  · rw [getClusterID_eq_iff, hat, column_place hxlt hylt, row_place hxlt hylt]
    exact ⟨hx, hy⟩

theorem mem_clusterPositions {p : ℕ × ℕ} : p ∈ A.clusterPositions c ↔
    p.1 / A.clusterWidth = c % A.numXClusters ∧ p.2 / A.clusterHeight = c / A.numXClusters := by
  have hrange : ∀ {a s z : ℕ}, 0 < s → (z ∈ range' (a * s) s ↔ z / s = a) := by
    intro a s z hs
    rw [mem_range'_1, ← Nat.succ_mul, ← Nat.le_div_iff_mul_le hs, ← Nat.div_lt_iff_lt_mul hs]
    omega
  obtain ⟨x, y⟩ := p
  rw [clusterPositions, clusterMeshWidth_eq]
  exact mem_product.trans (and_congr (hrange A.clusterWidth_pos) (hrange A.clusterHeight_pos))

theorem position_of_mem (hc : c < A.numClusters) {p : ℕ × ℕ} (hp : p ∈ A.clusterPositions c) :
    p.1 < A.enetWidth ∧ p.2 < A.enetWidth :=
  have h := mem_clusterPositions.mp hp
  ⟨lt_enetWidth_of_clusterX h.1, lt_enetWidth_of_clusterY hc h.2⟩

theorem mem_clusterTiles (hc : c < A.numClusters) :
    t ∈ A.clusterTiles c ↔ isApplicationTile t ∧ A.getClusterID t = c := by
  rw [clusterTiles, mem_map, getClusterID_eq_iff]
  constructor
  · rintro ⟨p, hp, rfl⟩
    obtain ⟨hx, hy⟩ := position_of_mem hc hp
    rw [column_place hx hy, row_place hx hy]
    exact ⟨isApplicationTile_place hx hy, mem_clusterPositions.mp hp⟩
  · rintro ⟨ht, hpos⟩
    exact ⟨(A.column t, A.row t), mem_clusterPositions.mpr hpos, place_column_row ht⟩

theorem length_clusterTiles (A : Atac T) (c : ℕ) : (A.clusterTiles c).length = A.clusterSize := by
  rw [clusterTiles, length_map, clusterPositions, ← A.shape.cluster]
  exact (length_product _ _).trans (by rw [length_range', length_range'])

theorem nodup_clusterTiles (hc : c < A.numClusters) : (A.clusterTiles c).Nodup := by
  have hpos : (A.clusterPositions c).Nodup := List.Nodup.product nodup_range' nodup_range'
  refine List.Nodup.map_on ?_ hpos
  intro p hp q hq h
  obtain ⟨hx, hy⟩ := position_of_mem hc hp
  obtain ⟨hx', hy'⟩ := position_of_mem hc hq
  have hcol := congrArg A.column h
  have hrow := congrArg A.row h
  rw [column_place hx hy, column_place hx' hy'] at hcol
  rw [row_place hx hy, row_place hx' hy'] at hrow
  exact Prod.ext hcol hrow

theorem getTileIDListInCluster_eq (hc : c < A.numClusters) :
    A.getTileIDListInCluster c = .ok (A.clusterTiles c) := by
  apply mapM_eq_ok
  intro (i, j) hp
  obtain ⟨hx, hy⟩ := position_of_mem hc hp
  dsimp only at hx hy ⊢
  rw [dif_pos (position_lt hx hy), pure_eq_ok, Except.ok.injEq, Fin.ext_iff, place_val hx hy]

end Hubs

end Atac

end Graphite.Network
