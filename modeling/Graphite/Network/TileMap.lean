import Graphite.Library.Outcome
import Graphite.Library.Tiling

/-! # Controllers and processes on the mesh

Where the hop-by-hop mesh puts the memory controllers, and how it hands the tiles out to the
processes. Controllers get distinct tiles unless their grid is higher than the mesh; the processes
divide the tiles among them in any case.
-/

namespace Graphite.Tiles

open Outcome Tiling List

/-- The sides of a mesh, as `initializeEMeshTopologyParams` takes them. -/
def meshWidth (tileCount : ℕ) : ℕ := Nat.sqrt tileCount

def meshHeight (tileCount : ℕ) : ℕ :=
  (tileCount + meshWidth tileCount - 1) / meshWidth tileCount

def isTileCountPermissible (tileCount : ℕ) : Prop :=
  tileCount = meshWidth tileCount * meshHeight tileCount
deriving Decidable

section Sides

variable {n T : ℕ}

theorem meshWidth_pos (hn : 1 ≤ n) : 0 < meshWidth n := Nat.sqrt_pos.mpr hn

/-- The last row of a grid for `n` is not empty, and the grid has room for all. -/
theorem grid_bounds (hn : 1 ≤ n) :
    meshWidth n * (meshHeight n - 1) < n ∧ n ≤ meshWidth n * meshHeight n ∧ 0 < meshHeight n := by
  have hw := meshWidth_pos hn
  have hdiv := Nat.div_add_mod (n + meshWidth n - 1) (meshWidth n)
  have hmod := Nat.mod_lt (n + meshWidth n - 1) hw
  have hpos : 0 < meshHeight n := Nat.div_pos (by omega) hw
  change meshWidth n * meshHeight n + _ = _ at hdiv
  rw [Nat.mul_sub_one]
  have hle := Nat.le_mul_of_pos_right (meshWidth n) hpos
  omega

theorem tile_lt {x y : ℕ} (hT : isTileCountPermissible T) (hx : x < meshWidth T)
    (hy : y < meshHeight T) : x + y * meshWidth T < T := by
  have h := Nat.mul_le_mul_left (meshWidth T) (Nat.succ_le_of_lt hy)
  rw [← hT, Nat.mul_succ, Nat.mul_comm] at h
  omega

end Sides

/-! ## Memory controllers -/

/-- The tile of the controller in column `i` and row `j` of `n` controllers. -/
def controllerTile (n tileCount i j : ℕ) : ℕ :=
  let posX := base (meshWidth tileCount) (meshWidth n) i +
    size (meshWidth tileCount) (meshWidth n) i / 2
  let posY := base (meshHeight tileCount) (meshHeight n) j +
    size (meshHeight tileCount) (meshHeight n) j / 2
  posX + posY * meshWidth tileCount

/-- Row by row, until there are `n` controllers. -/
def computeMemoryControllerPositions (n tileCount : ℕ) : List ℕ :=
  (rows (meshWidth n) (meshHeight n) (controllerTile n tileCount)).take n

/-- `n` distinct application tiles. -/
structure Positions (n tileCount : ℕ) (l : List ℕ) : Prop where
  length : l.length = n
  nodup : l.Nodup
  tiles : ∀ t ∈ l, t < tileCount

section Controllers

variable {n T i j i' j' w m : ℕ}

theorem middle_lt (hm : 0 < m) (h : m ≤ w) (hi : i < m) : base w m i ≤ base w m i + size w m i / 2 ∧
      base w m i + size w m i / 2 < base w m i + size w m i :=
  ⟨Nat.le_add_right _ _, Nat.add_lt_add_left (half_lt (size_pos hm h hi)) _⟩

theorem controllerTile_inj (hn : 1 ≤ n) (hle : n ≤ T) (hh : meshHeight n ≤ meshHeight T)
    (hi : i < meshWidth n) (hj : j < meshHeight n) (hi' : i' < meshWidth n) (hj' : j' < meshHeight n)
    (heq : controllerTile n T i j = controllerTile n T i' j') : i = i' ∧ j = j' := by
  have hw := meshWidth_pos hn
  have hx := middle_lt hw (Nat.sqrt_le_sqrt hle) hi
  have hx' := middle_lt hw (Nat.sqrt_le_sqrt hle) hi'
  have hwT := base_add_size_le_all (w := meshWidth T) hi
  have hwT' := base_add_size_le_all (w := meshWidth T) hi'
  obtain ⟨hposX, hposY⟩ := eq_and_eq_of_add_mul (hx.2.trans_le hwT) (hx'.2.trans_le hwT') heq
  constructor
  · exact block_unique hi hi' hx (hposX ▸ hx')
  · have hy := middle_lt (Nat.lt_of_le_of_lt (Nat.zero_le _) hj) hh hj
    exact block_unique hj hj' hy (hposY ▸ middle_lt (Nat.lt_of_le_of_lt (Nat.zero_le _) hj) hh hj')

/-- If the grid is higher than the mesh, its first two rows get the same tiles. -/
theorem controllerTile_eq (hT : isTileCountPermissible T) (hn : 1 ≤ n) (hle : n ≤ T)
    (hh : meshHeight T < meshHeight n) : controllerTile n T 0 0 = controllerTile n T 0 1 := by
  have hrows : 3 ≤ meshHeight n := by
    obtain ⟨-, -, hpos⟩ := grid_bounds (hn.trans hle)
    rcases Nat.lt_or_eq_of_le hpos with h2 | h1
    · omega
    · -- a mesh of one row has one tile
      exfalso
      unfold isTileCountPermissible at hT
      have hsq := Nat.sqrt_le T
      change meshWidth T * meshWidth T ≤ T at hsq
      rw [← h1, Nat.mul_one] at hT
      have hT1 : T = 1 := by
        have h2 : T * T ≤ T * 1 := by rw [Nat.mul_one]; rwa [← hT] at hsq
        exact le_antisymm (Nat.le_of_mul_le_mul_left h2 (by omega)) (by omega)
      obtain rfl : n = 1 := by omega
      subst hT1
      omega
  have hzero : meshHeight T / meshHeight n = 0 := Nat.div_eq_of_lt hh
  simp [controllerTile, base, size, hzero, show (0 : ℕ) ≠ meshHeight n - 1 by omega,
    show (1 : ℕ) ≠ meshHeight n - 1 by omega]

/-- The controllers are on distinct tiles exactly if their grid is not higher than the mesh. -/
theorem positions_iff (T n : ℕ) (hT : isTileCountPermissible T) (hn : 1 ≤ n) (hle : n ≤ T) :
    Positions n T (computeMemoryControllerPositions n T) ↔ meshHeight n ≤ meshHeight T := by
  have hw := meshWidth_pos hn
  obtain ⟨hrow, hroom, hpos⟩ := grid_bounds hn
  constructor
  · intro h
    by_contra hh
    rw [not_le] at hh
    have heq := controllerTile_eq hT hn hle hh
    have hpos' := (grid_bounds (hn.trans hle)).2.2
    have hlt : meshWidth n < n := by
      have hle := Nat.le_mul_of_pos_right (meshWidth n) (show 0 < meshHeight n - 1 by omega)
      omega
    -- the first tile and the first one of the second row
    have hget : ∀ j < 2, (computeMemoryControllerPositions n T)[j * meshWidth n + 0]? =
        some (controllerTile n T 0 j) := by
      intro j hj
      rw [computeMemoryControllerPositions, getElem?_take_of_lt, getElem?_rows hw (by omega)]
      obtain rfl | rfl : j = 0 ∨ j = 1 := by omega
      all_goals omega
    have hsame := (hget 0 (by omega)).trans (heq ▸ (hget 1 (by omega)).symm)
    have hindex := (getElem?_inj (by rw [h.length]; omega) h.nodup).mp hsame
    omega
  · intro hh
    constructor
    · rw [computeMemoryControllerPositions, length_take, length_rows, Nat.mul_comm]
      exact Nat.min_eq_left hroom
    · apply List.Nodup.sublist (take_sublist _ _)
      apply nodup_rows
      intro i hi j hj i' hi' j' hj'
      exact controllerTile_inj hn hle hh hi hj hi' hj'
    · intro t ht
      obtain ⟨i, hi, j, hj, rfl⟩ := mem_rows.mp (mem_of_mem_take ht)
      have hx := (middle_lt hw (Nat.sqrt_le_sqrt hle) hi).2.trans_le (base_add_size_le_all hi)
      have hy := (middle_lt hpos hh hj).2.trans_le (base_add_size_le_all hj)
      exact tile_lt hT hx hy

/-- Four controllers on a mesh of sixteen tiles. -/
theorem positions_iff_four : Positions 4 16 (computeMemoryControllerPositions 4 16) :=
  (positions_iff 16 4 (by decide +kernel) (by decide) (by decide)).mpr (by decide +kernel)

/-- Three controllers on a mesh of four tiles: two of them are on tile 1. -/
theorem controllers_collide : isTileCountPermissible 4 ∧
    computeMemoryControllerPositions 3 4 = [1, 1, 3] ∧
    ¬ Positions 3 4 (computeMemoryControllerPositions 3 4) := by
  have heq : computeMemoryControllerPositions 3 4 = [1, 1, 3] := by decide +kernel
  refine ⟨by decide +kernel, heq, fun h => ?_⟩
  have hnodup := h.nodup
  rw [heq] at hnodup
  simp at hnodup

end Controllers

/-! ## Processes -/

/-- The tiles of a part of the mesh, column by column. -/
def tilesOf (meshWidth baseX sizeX baseY sizeY : ℕ) : List ℕ :=
  rows sizeY sizeX fun jj ii => baseX + ii + (baseY + jj) * meshWidth

section Mapping

variable (processCount tileCount : ℕ)

def procMeshWidth : ℕ := Nat.sqrt processCount

def procMeshHeight : ℕ := processCount / procMeshWidth processCount

/-- The processes that form a grid. -/
def gridProcs : ℕ := procMeshWidth processCount * procMeshHeight processCount

/-- The rows of the mesh for the grid of processes. -/
def meshHeightL : ℕ := meshHeight tileCount * gridProcs processCount / processCount

/-- The tiles of process `p`: process `i + j * procMeshWidth` is in column `i` and row `j` of the grid,
and the processes that are left share the rows that are left. -/
def processTiles (p : ℕ) : List ℕ :=
  let width := meshWidth tileCount
  let heightL := meshHeightL processCount tileCount
  if p < gridProcs processCount then
    let i := p % procMeshWidth processCount
    let j := p / procMeshWidth processCount
    tilesOf width (base width (procMeshWidth processCount) i) (size width (procMeshWidth processCount) i)
      (base heightL (procMeshHeight processCount) j) (size heightL (procMeshHeight processCount) j)
  else
    let procsLeft := processCount - gridProcs processCount
    let i := p - gridProcs processCount
    tilesOf width (base width procsLeft i) (size width procsLeft i) heightL
      (meshHeight tileCount - heightL)

def computeProcessToTileMapping : List (List ℕ) :=
  (range processCount).map (processTiles processCount tileCount)

end Mapping

/-- `x` is in block `i` of `m` blocks of the numbers below `w`. -/
def InBlock (w m i x : ℕ) : Prop := base w m i ≤ x ∧ x < base w m i + size w m i

section Tiles

variable {w bx sx by' sy t P T p q : ℕ}

theorem mem_tilesOf (hx : bx + sx ≤ w) : t ∈ tilesOf w bx sx by' sy ↔
    (bx ≤ t % w ∧ t % w < bx + sx) ∧ by' ≤ t / w ∧ t / w < by' + sy := by
  rw [tilesOf, mem_rows]
  constructor
  · rintro ⟨jj, hjj, ii, hii, rfl⟩
    have hlt : bx + ii < w := by omega
    rw [Nat.add_mul_mod_self_right, Nat.mod_eq_of_lt hlt, Nat.add_mul_div_right _ _ (by omega),
      Nat.div_eq_of_lt hlt]
    omega
  · rintro ⟨⟨h1, h2⟩, h3, h4⟩
    refine ⟨t / w - by', by omega, t % w - bx, by omega, ?_⟩
    rw [Nat.add_sub_cancel' h1, Nat.add_sub_cancel' h3]
    exact Nat.mod_add_div' t w

theorem nodup_tilesOf (hx : bx + sx ≤ w) : (tilesOf w bx sx by' sy).Nodup := by
  apply nodup_rows
  intro jj hjj ii hii jj' hjj' ii' hii' heq
  obtain ⟨h1, h2⟩ := eq_and_eq_of_add_mul (by omega) (by omega) heq
  omega

theorem procMesh_pos (hP : 1 ≤ P) : 0 < procMeshWidth P ∧ 0 < procMeshHeight P :=
  ⟨Nat.sqrt_pos.mpr hP, Nat.div_pos (Nat.sqrt_le_self P) (Nat.sqrt_pos.mpr hP)⟩

theorem gridProcs_le (P : ℕ) : gridProcs P ≤ P := Nat.mul_div_le P _

theorem grid_lt (hP : 1 ≤ P) (hp : p < gridProcs P) :
    p % procMeshWidth P < procMeshWidth P ∧ p / procMeshWidth P < procMeshHeight P :=
  ⟨Nat.mod_lt _ (procMesh_pos hP).1,
    (Nat.div_lt_iff_lt_mul (procMesh_pos hP).1).mpr (by rwa [Nat.mul_comm])⟩

/-- The tiles of a process by their columns and rows. -/
theorem mem_processTiles (hP : 1 ≤ P) (hp : p < P) : t ∈ processTiles P T p ↔
    if p < gridProcs P then
      InBlock (meshWidth T) (procMeshWidth P) (p % procMeshWidth P) (t % meshWidth T) ∧
      InBlock (meshHeightL P T) (procMeshHeight P) (p / procMeshWidth P) (t / meshWidth T)
    else
      InBlock (meshWidth T) (P - gridProcs P) (p - gridProcs P) (t % meshWidth T) ∧
      meshHeightL P T ≤ t / meshWidth T ∧
        t / meshWidth T < meshHeightL P T + (meshHeight T - meshHeightL P T) := by
  unfold processTiles
  split
  · next hgrid => exact mem_tilesOf (base_add_size_le_all (grid_lt hP hgrid).1)
  · exact mem_tilesOf (base_add_size_le_all (by omega))

theorem nodup_processTiles (hP : 1 ≤ P) (hp : p < P) : (processTiles P T p).Nodup := by
  unfold processTiles
  split
  · next hgrid => exact nodup_tilesOf (base_add_size_le_all (grid_lt hP hgrid).1)
  · exact nodup_tilesOf (base_add_size_le_all (by omega))

theorem meshHeightL_le (P T : ℕ) : meshHeightL P T ≤ meshHeight T := by
  apply Nat.div_le_of_le_mul
  rw [Nat.mul_comm P]
  exact Nat.mul_le_mul_left _ (gridProcs_le P)

/-- No rows are left if no processes are. -/
theorem gridProcs_lt (hP : 1 ≤ P) (h : meshHeightL P T < meshHeight T) : gridProcs P < P := by
  refine (gridProcs_le P).lt_of_ne fun heq => h.ne ?_
  rw [meshHeightL, heq, Nat.mul_div_cancel _ hP]

theorem processTiles_lt (hT : isTileCountPermissible T) (hP : 1 ≤ P) (hp : p < P)
    (ht : t ∈ processTiles P T p) : t < T := by
  have hle := meshHeightL_le P T
  have hxy : t % meshWidth T < meshWidth T ∧ t / meshWidth T < meshHeight T := by
    rw [mem_processTiles hP hp] at ht
    split at ht
    · next hgrid =>
      obtain ⟨hi, hj⟩ := grid_lt hP hgrid
      exact ⟨ht.1.2.trans_le (base_add_size_le_all hi),
        (ht.2.2.trans_le (base_add_size_le_all hj)).trans_le hle⟩
    · exact ⟨ht.1.2.trans_le (base_add_size_le_all (by omega)), by omega⟩
  have hlt := tile_lt hT hxy.1 hxy.2
  rwa [Nat.mod_add_div'] at hlt

theorem exists_process (hT : isTileCountPermissible T) (hP : 1 ≤ P) (ht : t < T) :
    ∃ p < P, t ∈ processTiles P T p := by
  have hw : 0 < meshWidth T := meshWidth_pos (by omega)
  have hx : t % meshWidth T < meshWidth T := Nat.mod_lt t hw
  have hy : t / meshWidth T < meshHeight T := by
    rw [Nat.div_lt_iff_lt_mul hw, Nat.mul_comm, ← hT]
    exact ht
  obtain ⟨hpw, hph⟩ := procMesh_pos hP
  rcases Nat.lt_or_ge (t / meshWidth T) (meshHeightL P T) with hlow | hhigh
  · obtain ⟨i, hi, hxi⟩ := exists_block hpw hx
    obtain ⟨j, hj, hyj⟩ := exists_block hph hlow
    have hgrid : i + j * procMeshWidth P < gridProcs P := by
      have := Nat.mul_le_mul_right (procMeshWidth P) (Nat.succ_le_of_lt hj)
      rw [Nat.succ_mul] at this
      rw [gridProcs, Nat.mul_comm (procMeshWidth P)]
      omega
    have hp := hgrid.trans_le (gridProcs_le P)
    refine ⟨i + j * procMeshWidth P, hp, ?_⟩
    rw [mem_processTiles hP hp, if_pos hgrid, Nat.add_mul_mod_self_right, Nat.mod_eq_of_lt hi,
      Nat.add_mul_div_right _ _ hpw, Nat.div_eq_of_lt hi, Nat.zero_add]
    exact ⟨hxi, hyj⟩
  · have hleft := gridProcs_lt (T := T) hP (by omega)
    obtain ⟨i, hi, hxi⟩ := exists_block (m := P - gridProcs P) (by omega) hx
    refine ⟨gridProcs P + i, by omega, ?_⟩
    rw [mem_processTiles hP (by omega), if_neg (by omega), Nat.add_sub_cancel_left]
    exact ⟨hxi, hhigh, by omega⟩

theorem process_unique (hP : 1 ≤ P) (hp : p < P) (hq : q < P) (htp : t ∈ processTiles P T p)
    (htq : t ∈ processTiles P T q) : p = q := by
  rw [mem_processTiles hP hp] at htp
  rw [mem_processTiles hP hq] at htq
  have hlow : ∀ {r}, r < gridProcs P →
      InBlock (meshHeightL P T) (procMeshHeight P) (r / procMeshWidth P) (t / meshWidth T) →
      t / meshWidth T < meshHeightL P T := fun hr h =>
    h.2.trans_le (base_add_size_le_all (grid_lt hP hr).2)
  split at htp <;> split at htq
  · next hgp hgq =>
    have hmod := block_unique (grid_lt hP hgp).1 (grid_lt hP hgq).1 htp.1 htq.1
    have hdiv := block_unique (grid_lt hP hgp).2 (grid_lt hP hgq).2 htp.2 htq.2
    rw [← Nat.mod_add_div p (procMeshWidth P), hmod, hdiv, Nat.mod_add_div]
  · next hgp _ => exact absurd (hlow hgp htp.2) (by omega)
  · next _ hgq => exact absurd (hlow hgq htq.2) (by omega)
  · have := block_unique (m := P - gridProcs P) (by omega) (by omega) htp.1 htq.1
    omega

end Tiles

/-! ## The tile map -/

inductive SimulationMode
  | full
  | lite

/-- `Config::m_total_tiles`: the application tiles, the thread spawners and the MCP. -/
def totalTiles (applicationTiles processes : ℕ) : SimulationMode → ℕ
  | .full => applicationTiles + processes + 1
  | .lite => applicationTiles + 1

structure TileMap where
  tileToProc : List ℕ
  procToTileList : List (List ℕ)
  procToApplicationTileList : List (List ℕ)

namespace TileMap

def addTile (m : TileMap) (tile proc : ℕ) : TileMap :=
  { m with
    tileToProc := m.tileToProc.set tile proc
    procToTileList := m.procToTileList.modify proc (· ++ [tile]) }

def addApplicationTile (m : TileMap) (tile proc : ℕ) : TileMap :=
  { m.addTile tile proc with
    procToApplicationTileList := m.procToApplicationTileList.modify proc (· ++ [tile]) }

end TileMap

/-- `Config::GenerateTileMap`; it has no result if one of its assertions fails. -/
def generateTileMap (mode : SimulationMode) (processes applicationTiles : ℕ)
    (mapping : List (List ℕ)) : Option TileMap :=
  let total := totalTiles applicationTiles processes mode
  if mapping.length = processes ∧ ∀ tiles ∈ mapping, ∀ tile ∈ tiles, tile < applicationTiles then
    let m : TileMap := ⟨.replicate total 0, .replicate processes [], .replicate processes []⟩
    let m := (range processes).foldl (fun (m : TileMap) i =>
      (mapping.getD i []).foldl (fun m tile => m.addApplicationTile tile i) m) m
    let m := match mode with
      | .full =>
        (range processes).foldl (fun (m : TileMap) i => m.addTile (applicationTiles + i) i) m
      | .lite => m
    some (m.addTile (total - 1) 0)
  else
    none

/-- The lists of the processes divide the application tiles. -/
structure Partition (processes tiles : ℕ) (mapping : List (List ℕ)) : Prop where
  length : mapping.length = processes
  lt : ∀ l ∈ mapping, ∀ t ∈ l, t < tiles
  nodup : ∀ l ∈ mapping, l.Nodup
  process : ∀ t < tiles, ∃! p : ℕ, ∃ l, mapping[p]? = some l ∧ t ∈ l

/-- The table and the lists of the tiles below `total` are inverses of each other. -/
structure Inverse (total processes : ℕ) (m : TileMap) : Prop where
  table_length : m.tileToProc.length = total
  lists_length : m.procToTileList.length = processes
  nodup : ∀ l ∈ m.procToTileList, l.Nodup
  mem_iff : ∀ t p : ℕ, m.tileToProc[t]? = some p ↔ ∃ l, m.procToTileList[p]? = some l ∧ t ∈ l

/-- The map has the pairs of a tile and its process in `xs`. -/
structure Holds (total processes : ℕ) (m : TileMap) (xs : List (ℕ × ℕ)) : Prop where
  table_length : m.tileToProc.length = total
  lists_length : m.procToTileList.length = processes
  lt : ∀ x ∈ xs, x.2 < processes
  table : ∀ x ∈ xs, m.tileToProc[x.1]? = some x.2
  list : ∀ p < processes, ∃ l, m.procToTileList[p]? = some l ∧ l.Nodup ∧ ∀ t, t ∈ l ↔ (t, p) ∈ xs

section Holds

variable {total processes : ℕ} {m : TileMap} {xs : List (ℕ × ℕ)} {y : ℕ × ℕ}

theorem Holds.addTile (h : Holds total processes m xs) (ht : y.1 < total) (hp : y.2 < processes)
    (hnew : ∀ x ∈ xs, x.1 ≠ y.1) : Holds total processes (m.addTile y.1 y.2) (xs ++ [y]) := by
  constructor
  · exact length_set.trans h.table_length
  · exact (length_modify ..).trans h.lists_length
  · intro x hx
    rcases mem_append.mp hx with hx | hx
    · exact h.lt x hx
    · rwa [mem_singleton.mp hx]
  · intro x hx
    rw [TileMap.addTile]
    rcases mem_append.mp hx with hx | hx
    · rw [getElem?_set_ne (hnew x hx).symm]
      exact h.table x hx
    · obtain rfl := mem_singleton.mp hx
      exact getElem?_set_self (h.table_length ▸ ht)
  · intro q hq
    obtain ⟨l, hget, hnodup, hmem⟩ := h.list q hq
    rcases eq_or_ne y.2 q with rfl | hne
    · refine ⟨l ++ [y.1], by simp [TileMap.addTile, hget], ?_, by simp [hmem, Prod.ext_iff]⟩
      apply hnodup.append (nodup_singleton _)
      rw [disjoint_singleton]
      exact fun hy => hnew _ ((hmem _).mp hy) rfl
    · refine ⟨l, by simp [TileMap.addTile, hget, hne], hnodup, fun t => ?_⟩
      simp [hmem, Prod.ext_iff, hne.symm]

theorem Holds.foldl (ys : List (ℕ × ℕ)) {f : TileMap → ℕ × ℕ → TileMap}
    (hf : ∀ {m xs y}, Holds total processes m xs → y.1 < total → y.2 < processes →
      (∀ x ∈ xs, x.1 ≠ y.1) → Holds total processes (f m y) (xs ++ [y]))
    (h : Holds total processes m xs) (hlt : ∀ y ∈ ys, y.1 < total ∧ y.2 < processes)
    (hnodup : (ys.map Prod.fst).Nodup) (hnew : ∀ x ∈ xs, ∀ y ∈ ys, x.1 ≠ y.1) :
    Holds total processes (ys.foldl f m) (xs ++ ys) := by
  induction ys generalizing m xs with
  | nil => simpa using h
  | cons y ys ih =>
    rw [map_cons, nodup_cons] at hnodup
    rw [foldl_cons, append_cons]
    obtain ⟨ht, hp⟩ := hlt y (by simp)
    apply ih (hf h ht hp fun x hx => hnew x hx y (by simp)) (fun z hz => hlt z (by simp [hz])) hnodup.2
    intro x hx z hz
    rcases mem_append.mp hx with hx | hx
    · exact hnew x hx z (by simp [hz])
    · obtain rfl := mem_singleton.mp hx
      intro heq
      exact hnodup.1 (heq ▸ mem_map_of_mem hz)

theorem Holds.inverse (h : Holds total processes m xs)
    (hall : ∀ t < total, ∃ p, (t, p) ∈ xs) : Inverse total processes m := by
  constructor
  · exact h.table_length
  · exact h.lists_length
  · intro l hl
    obtain ⟨p, hp⟩ := mem_iff_getElem?.mp hl
    obtain ⟨l', hget, hnodup, -⟩ := h.list p (h.lists_length ▸ (List.getElem?_eq_some_iff.mp hp).1)
    rw [hp, Option.some.injEq] at hget
    exact hget ▸ hnodup
  · intro t p
    constructor
    · intro ht
      obtain ⟨q, hq⟩ := hall t (h.table_length ▸ (List.getElem?_eq_some_iff.mp ht).1)
      have hpq := (h.table _ hq).symm.trans ht
      rw [Option.some.injEq] at hpq
      subst hpq
      obtain ⟨l, hget, -, hmem⟩ := h.list _ (h.lt _ hq)
      exact ⟨l, hget, (hmem t).mpr hq⟩
    · rintro ⟨l, hl, ht⟩
      obtain ⟨l', hget, -, hmem⟩ := h.list p (h.lists_length ▸ (List.getElem?_eq_some_iff.mp hl).1)
      rw [hl, Option.some.injEq] at hget
      subst hget
      exact h.table _ ((hmem t).mp ht)

end Holds

/-! ## The mapping of the mesh -/

theorem partition_computeProcessToTileMapping {P T : ℕ} (hT : isTileCountPermissible T)
    (hP : 1 ≤ P) : Partition P T (computeProcessToTileMapping P T) := by
  have hget : ∀ {p l}, (computeProcessToTileMapping P T)[p]? = some l ↔
      p < P ∧ l = processTiles P T p := by
    intro p l
    simp only [computeProcessToTileMapping, getElem?_eq_some_iff, length_map,
      length_range, getElem_map, getElem_range, exists_prop]
    rw [eq_comm (a := l)]
  constructor
  · simp [computeProcessToTileMapping]
  · intro l hl
    obtain ⟨p, hpl⟩ := mem_iff_getElem?.mp hl
    obtain ⟨hp, rfl⟩ := hget.mp hpl
    exact fun t => processTiles_lt hT hP hp
  · intro l hl
    obtain ⟨p, hpl⟩ := mem_iff_getElem?.mp hl
    obtain ⟨hp, rfl⟩ := hget.mp hpl
    exact nodup_processTiles hP hp
  · intro t ht
    obtain ⟨p, hp, htp⟩ := exists_process hT hP ht
    refine ⟨p, ⟨_, hget.mpr ⟨hp, rfl⟩, htp⟩, ?_⟩
    rintro q ⟨l, hql, htq⟩
    obtain ⟨hq, rfl⟩ := hget.mp hql
    exact process_unique hP hq hp htq htp

def pairs (processes : ℕ) (mapping : List (List ℕ)) : List (ℕ × ℕ) :=
  (range processes).flatMap fun p => (mapping.getD p []).map (·, p)

section Generate

variable {P T t p : ℕ} {mapping : List (List ℕ)}

theorem mem_pairs (h : Partition P T mapping) :
    (t, p) ∈ pairs P mapping ↔ ∃ l, mapping[p]? = some l ∧ t ∈ l := by
  simp only [pairs, mem_flatMap, mem_range, mem_map, Prod.mk.injEq]
  constructor
  · rintro ⟨p, hp, t, ht, rfl, rfl⟩
    exact ⟨_, (getElem?_eq_getElem (h.length ▸ hp)), by simpa [h.length, hp] using ht⟩
  · rintro ⟨l, hl, ht⟩
    exact ⟨p, h.length ▸ (List.getElem?_eq_some_iff.mp hl).1, t, by simpa [hl] using ht, rfl, rfl⟩

theorem nodup_pairs (h : Partition P T mapping) : ((pairs P mapping).map Prod.fst).Nodup := by
  have hget : ∀ {p}, p < P → ∃ l, mapping[p]? = some l ∧ l ∈ mapping := fun hp =>
    have hlt := h.length ▸ hp
    ⟨_, getElem?_eq_getElem hlt, getElem_mem hlt⟩
  rw [pairs, map_flatMap, nodup_flatMap]
  constructor
  · intro p hp
    obtain ⟨l, hl, hmem⟩ := hget (mem_range.mp hp)
    simpa [hl, Function.comp_def] using h.nodup l hmem
  · apply nodup_range.imp_of_mem
    intro p q hp hq hne t htp htq
    obtain ⟨l, hl, hmem⟩ := hget (mem_range.mp hp)
    obtain ⟨l', hl', -⟩ := hget (mem_range.mp hq)
    replace htp : t ∈ l := by simpa [hl] using htp
    replace htq : t ∈ l' := by simpa [hl'] using htq
    exact hne ((h.process t (h.lt l hmem t htp)).unique ⟨l, hl, htp⟩ ⟨l', hl', htq⟩)

theorem generateTileMap_inverse (mode : SimulationMode) (hP : 1 ≤ P) (h : Partition P T mapping) :
    ∃ m, generateTileMap mode P T mapping = some m ∧ Inverse (totalTiles T P mode) P m := by
  have hpair : ∀ x ∈ pairs P mapping, x.1 < T ∧ x.2 < P := by
    rintro ⟨t, p⟩ hx
    obtain ⟨l, hl, ht⟩ := (mem_pairs h).mp hx
    exact ⟨h.lt l (List.mem_of_getElem? hl) t ht, h.length ▸ (List.getElem?_eq_some_iff.mp hl).1⟩
  have htotal : T < totalTiles T P mode := by
    cases mode <;> simp only [totalTiles] <;> omega
  have hempty : Holds (totalTiles T P mode) P
      ⟨.replicate (totalTiles T P mode) 0, .replicate P [], .replicate P []⟩ [] := by
    constructor <;> simp
    exact fun p hp => ⟨[], by simp [hp]⟩
  have happ := hempty.foldl (pairs P mapping) (f := fun m y => m.addApplicationTile y.1 y.2)
    (fun h ht hp hnew =>
      have h := h.addTile ht hp hnew
      ⟨h.table_length, h.lists_length, h.lt, h.table, h.list⟩)
    (fun y hy => ⟨(hpair y hy).1.trans htotal, (hpair y hy).2⟩) (nodup_pairs h) (by simp)
  rw [pairs, foldl_flatMap, ← pairs] at happ
  simp only [foldl_map, nil_append] at happ
  have hall : ∀ t < T, ∃ p, (t, p) ∈ pairs P mapping := fun t ht =>
    have ⟨p, hp⟩ := (h.process t ht).exists
    ⟨p, (mem_pairs h).mpr hp⟩
  rw [generateTileMap]
  simp only [h.length, true_and, if_pos h.lt]
  refine ⟨_, rfl, ?_⟩
  cases mode with
  | lite =>
    apply (happ.addTile (y := (T, 0)) htotal hP fun x hx => (hpair x hx).1.ne).inverse
    intro t ht
    rcases Nat.lt_succ_iff_lt_or_eq.mp ht with ht | rfl
    · obtain ⟨p, hp⟩ := hall t ht
      exact ⟨p, by simp [hp]⟩
    · exact ⟨0, by simp⟩
  | full =>
    have hspawn := happ.foldl ((range P).map fun i => (T + i, i)) Holds.addTile
      (by simp [totalTiles]; omega)
      (by simpa [Function.comp_def] using nodup_range.map (add_right_injective T))
      (by simpa using fun t p hx i hi => ((hpair _ hx).1.trans_le (Nat.le_add_right T i)).ne)
    rw [foldl_map] at hspawn
    have hlt : ∀ x ∈ pairs P mapping ++ (range P).map fun i => (T + i, i), x.1 ≠ T + P := by
      rintro x hx
      rcases mem_append.mp hx with hx | hx
      · have := (hpair x hx).1
        omega
      · obtain ⟨i, hi, rfl⟩ := mem_map.mp hx
        rw [mem_range] at hi
        dsimp only
        omega
    apply (hspawn.addTile (y := (T + P, 0)) (Nat.lt_succ_self _) hP hlt).inverse
    intro t ht
    rcases Nat.lt_succ_iff_lt_or_eq.mp ht with ht | rfl
    · rcases Nat.lt_or_ge t T with htT | htT
      · obtain ⟨p, hp⟩ := hall t htT
        exact ⟨p, by simp [hp]⟩
      · exact ⟨t - T, by simp; omega⟩
    · exact ⟨0, by simp⟩

end Generate

/-- Every application tile is in the list of exactly one process, and the table and the lists
of the tile map are inverses of each other. -/
theorem tile_map_inverse (mode : SimulationMode) (P T : ℕ) (hT : isTileCountPermissible T)
    (hP : 1 ≤ P) : Partition P T (computeProcessToTileMapping P T) ∧
    ∃ m, generateTileMap mode P T (computeProcessToTileMapping P T) = some m ∧
      Inverse (totalTiles T P mode) P m :=
  have h := partition_computeProcessToTileMapping hT hP
  ⟨h, generateTileMap_inverse mode hP h⟩

/-- Three processes on a mesh of four tiles. -/
theorem tile_map_inverse_three : Partition 3 4 (computeProcessToTileMapping 3 4) ∧
    ∃ m, generateTileMap .full 3 4 (computeProcessToTileMapping 3 4) = some m ∧
      Inverse (totalTiles 4 3 .full) 3 m :=
  tile_map_inverse .full 3 4 (by decide +kernel) (by decide)

end Graphite.Tiles
