import Mathlib.Data.List.Basic
import Mathlib.Order.Basic
import Mathlib.Order.Lattice

/-! # Height-balanced trees

Binary trees whose nodes store a height, and the way from a subtree up to the root. A tree is balanced
if the stored heights are right and the heights of siblings differ by at most one. It stands for the
list of its values from left to right. After a subtree has become higher or lower by one, rotations
on the way up restore the balance.
-/

namespace AvlTree

open List

inductive Side
  | left | right
  deriving DecidableEq, Repr

def Side.flip : Side → Side
  | .left => .right
  | .right => .left

inductive HTree (α : Type)
  | nil
  | node (left : HTree α) (value : α) (height : ℕ) (right : HTree α)
  deriving DecidableEq, Repr

/-- A node on the way to the root: the side of the subtree below, and the rest of the node. -/
structure Frame (α : Type) where
  side : Side
  value : α
  height : ℕ
  other : HTree α

/-- The way to the root. -/
abbrev UpPath (α : Type) := List (Frame α)

variable {α : Type}

namespace HTree

def height : HTree α → ℕ
  | nil => 0
  | node _ _ h _ => h

def inorder : HTree α → List α
  | nil => []
  | node l a _ r => l.inorder ++ a :: r.inorder

def map (f : α → α) : HTree α → HTree α
  | nil => nil
  | node l a h r => node (l.map f) (f a) h (r.map f)

/-- A node with `near` on the side `s`. -/
def build (s : Side) (near : HTree α) (a : α) (h : ℕ) (far : HTree α) : HTree α :=
  match s with
  | .left => node near a h far
  | .right => node far a h near

def make (s : Side) (near : HTree α) (a : α) (far : HTree α) : HTree α :=
  build s near a (max near.height far.height + 1) far

/-- The tree below a frame, with the node of the frame. -/
def attach (t : HTree α) (f : Frame α) : HTree α := build f.side t f.value f.height f.other

def zip (t : HTree α) : UpPath α → HTree α
  | [] => t
  | f :: path => (t.attach f).zip path

end HTree

def before : UpPath α → List α
  | [] => []
  | f :: path => before path ++ match f.side with
    | .left => []
    | .right => f.other.inorder ++ [f.value]

def after : UpPath α → List α
  | [] => []
  | f :: path => (match f.side with
    | .left => f.value :: f.other.inorder
    | .right => []) ++ after path

def Close (m n : ℕ) : Prop := m ≤ n + 1 ∧ n ≤ m + 1
deriving Decidable

def HeightBalanced : HTree α → Prop
  | .nil => True
  | .node l _ h r => HeightBalanced l ∧ HeightBalanced r ∧ Close l.height r.height ∧ h = max l.height r.height + 1

/-- The tree is balanced if a balanced subtree of height `h` is put in. -/
def BalancedAbove (h : ℕ) : UpPath α → Prop
  | [] => True
  | f :: path => HeightBalanced f.other ∧ Close h f.other.height ∧ f.height = max h f.other.height + 1 ∧
      BalancedAbove f.height path

section Lemmas

variable {t near far : HTree α} {a : α} {h : ℕ} {f : Frame α} {path : UpPath α} {s : Side}

theorem build_flip : HTree.build s.flip near a h far = HTree.build s far a h near := by
  cases s <;> rfl

@[simp] theorem height_build : (HTree.build s near a h far).height = h := by
  cases s <;> rfl

@[simp] theorem height_make : (HTree.make s near a far).height = max near.height far.height + 1 :=
  height_build

theorem close_comm {m n : ℕ} : Close m n ↔ Close n m := And.comm

theorem balanced_build : HeightBalanced (HTree.build s near a h far) ↔ HeightBalanced near ∧ HeightBalanced far ∧
    Close near.height far.height ∧ h = max near.height far.height + 1 := by
  cases s with
  | left => rfl
  | right =>
    rw [HTree.build, HeightBalanced, close_comm, Nat.max_comm]
    tauto

@[simp] theorem mem_inorder_build {b : α} : b ∈ (HTree.build s near a h far).inorder ↔
    b = a ∨ b ∈ near.inorder ∨ b ∈ far.inorder := by
  cases s with
  | left =>
    rw [HTree.build, HTree.inorder, mem_append, mem_cons]
    tauto
  | right =>
    rw [HTree.build, HTree.inorder, mem_append, mem_cons]
    tauto

theorem balanced_make : HeightBalanced (HTree.make s near a far) ↔
    HeightBalanced near ∧ HeightBalanced far ∧ Close near.height far.height := by
  simp [HTree.make, balanced_build]

theorem inorder_zip (t : HTree α) (path : UpPath α) :
    (t.zip path).inorder = before path ++ t.inorder ++ after path := by
  induction path generalizing t with
  | nil => simp [HTree.zip, before, after]
  | cons f path ih =>
    rw [HTree.zip, ih]
    cases hs : f.side <;> simp [HTree.attach, HTree.build, before, after, hs, HTree.inorder]

theorem inorder_zip_congr {t' : HTree α} (h : t'.inorder = t.inorder) (path : UpPath α) :
    (t'.zip path).inorder = (t.zip path).inorder := by
  rw [inorder_zip, inorder_zip, h]

theorem balanced_zip : HeightBalanced (t.zip path) ↔ HeightBalanced t ∧ BalancedAbove t.height path := by
  induction path generalizing t with
  | nil => simp [HTree.zip, BalancedAbove]
  | cons f path ih =>
    rw [HTree.zip, ih, HTree.attach, balanced_build, height_build, BalancedAbove]
    tauto

theorem exists_zip (ha : a ∈ t.inorder) (path : UpPath α) :
    ∃ l h r path', t.zip path = (HTree.node l a h r).zip path' := by
  induction t generalizing path with
  | nil => simp [HTree.inorder] at ha
  | node l b h r ihl ihr =>
    rw [HTree.inorder, mem_append, mem_cons] at ha
    obtain ha | rfl | ha := ha
    · exact ihl ha (⟨.left, b, h, r⟩ :: path)
    · exact ⟨l, h, r, path, rfl⟩
    · exact ihr ha (⟨.right, b, h, l⟩ :: path)

@[simp] theorem inorder_map (g : α → α) (t : HTree α) : (t.map g).inorder = t.inorder.map g := by
  induction t with
  | nil => rfl
  | node l a h r ihl ihr => simp [HTree.map, HTree.inorder, ihl, ihr]

@[simp] theorem height_map (g : α → α) (t : HTree α) : (t.map g).height = t.height := by
  cases t <;> rfl

theorem balanced_map (g : α → α) (h : HeightBalanced t) : HeightBalanced (t.map g) := by
  induction t with
  | nil => trivial
  | node l a h r ihl ihr =>
    obtain ⟨hl, hr, hc, hh⟩ := h
    exact ⟨ihl hl, ihr hr, by rwa [height_map, height_map], by rwa [height_map, height_map]⟩

theorem exists_build (s : Side) (h : HeightBalanced t) (hpos : 0 < t.height) : ∃ near a far,
    t = .build s near a t.height far ∧ HeightBalanced near ∧ HeightBalanced far ∧ Close near.height far.height ∧
      t.height = max near.height far.height + 1 := by
  cases t with
  | nil => exact absurd hpos (Nat.lt_irrefl 0)
  | node l a k r =>
    obtain ⟨hl, hr, hc, hk⟩ := h
    cases s with
    | left => exact ⟨l, a, r, rfl, hl, hr, hc, hk⟩
    | right => exact ⟨r, a, l, rfl, hr, hl, hc.symm, hk.trans (by rw [Nat.max_comm])⟩

end Lemmas

/-! ## Rebalancing -/

namespace HTree

/-- The child on the side `s` comes up. -/
def rotate : Side → HTree α → HTree α
  | .left, node (node a x _ b) y _ c => make .left a x (make .left b y c)
  | .right, node c y _ (node b x _ a) => make .right a x (make .right b y c)
  | _, t => t

/-- The subtree that is not on the side `s` is the higher one. -/
def leansIn : Side → HTree α → Bool
  | .left, node l _ _ r => decide (l.height < r.height)
  | .right, node l _ _ r => decide (r.height < l.height)
  | _, nil => false

/-- One or two rotations bring up `near`, or its child that leans in. -/
def lift (s : Side) (near : HTree α) (z : α) (h : ℕ) (far : HTree α) : HTree α :=
  if leansIn s near then rotate s (build s (rotate s.flip near) z h far) else rotate s (build s near z h far)

def rebalanceNode : HTree α → HTree α
  | nil => nil
  | node l a h r =>
    if Close l.height r.height then make .left l a r
    else if r.height < l.height then lift .left l a h r
    else lift .right r a h l

/-- Goes up from the node above `t`, as long as heights change. -/
def rebalance (t : HTree α) : UpPath α → HTree α
  | [] => t
  | f :: path =>
    let root := rebalanceNode (t.attach f)
    if root.height ≠ f.height then rebalance root path else root.zip path

end HTree

section Rebalance

variable {t near far a b c : HTree α} {x y z : α} {h hx hy : ℕ} {f : Frame α} {path : UpPath α} {s : Side}

theorem rotate_build :
    HTree.rotate s (.build s (.build s a x hx b) y hy c) = .make s a x (.make s b y c) := by
  cases s <;> rfl

theorem leansIn_build : HTree.leansIn s (.build s a x hx b) = decide (a.height < b.height) := by
  cases s <;> rfl

theorem inorder_rotate (hx hy : ℕ) : (HTree.make s a x (.make s b y c)).inorder =
    (HTree.build s (.build s a x hx b) y hy c).inorder := by
  cases s <;> simp [HTree.make, HTree.build, HTree.inorder]

theorem inorder_build_congr {t' : HTree α} (ht : t'.inorder = t.inorder) :
    (HTree.build s t' x h c).inorder = (HTree.build s t x h c).inorder := by
  cases s <;> simp [HTree.build, HTree.inorder, ht]

theorem rotate_flip_build : HTree.rotate s.flip (.build s a y hy (.build s.flip b x hx c)) =
    .build s (.make s.flip c y a) x (max b.height (HTree.make s.flip c y a).height + 1) b := by
  have heq : HTree.build s a y hy (.build s.flip b x hx c) =
      .build s.flip (.build s.flip b x hx c) y hy a := build_flip.symm
  rw [heq, rotate_build, ← build_flip]
  rfl

/-- The tree `t` has the values `vs`, is balanced, and its height is `m` or `m + 1`. -/
structure Rebalanced (vs : List α) (m : ℕ) (t : HTree α) : Prop where
  inorder : t.inorder = vs
  balanced : HeightBalanced t
  height_ge : m ≤ t.height
  height_le : t.height ≤ m + 1

theorem rebalanced_lift (hn : HeightBalanced near) (hf : HeightBalanced far) (hgap : near.height = far.height + 2) :
    Rebalanced (HTree.build s near z h far).inorder near.height (HTree.lift s near z h far) := by
  obtain ⟨a, y, b, heq, ha, hb, hclose, hheight⟩ := exists_build s hn (by omega)
  unfold Close at hclose
  rw [HTree.lift]
  generalize near.height = k at *
  subst heq
  rw [leansIn_build]
  by_cases hlean : a.height < b.height
  · obtain ⟨p, x, q, heq, hp, hq, hclose', hheight'⟩ := exists_build s.flip hb (by omega)
    unfold Close at hclose'
    generalize b.height = k' at *
    subst heq
    rw [if_pos (decide_eq_true hlean), rotate_flip_build, rotate_build]
    constructor
    case inorder =>
      rw [inorder_rotate 0 h]
      apply inorder_build_congr
      cases s <;> simp [HTree.make, HTree.build, HTree.inorder, Side.flip]
    case balanced =>
      simp only [balanced_make, ha, hp, hq, hf, true_and, height_make, Close]
      omega
    case height_ge =>
      simp only [height_make]
      omega
    case height_le =>
      simp only [height_make]
      omega
  · rw [if_neg (by simpa using hlean), rotate_build]
    constructor
    case inorder => exact inorder_rotate k h
    case balanced =>
      simp only [balanced_make, ha, hb, hf, true_and, height_make, Close]
      omega
    case height_ge =>
      simp only [height_make]
      omega
    case height_le =>
      simp only [height_make]
      omega

/-- A node whose children are balanced and whose heights differ by at most two. -/
theorem rebalanced_node {l r : HTree α} (hl : HeightBalanced l) (hr : HeightBalanced r)
    (hgap : l.height ≤ r.height + 2 ∧ r.height ≤ l.height + 2) :
    Rebalanced (HTree.node l z h r).inorder (max l.height r.height)
      (HTree.rebalanceNode (.node l z h r)) ∧
    (Close l.height r.height →
      (HTree.rebalanceNode (.node l z h r)).height = max l.height r.height + 1) := by
  rw [HTree.rebalanceNode]
  by_cases hc : Close l.height r.height
  · rw [if_pos hc]
    exact ⟨⟨rfl, balanced_make.mpr ⟨hl, hr, hc⟩, Nat.le_succ _, Nat.le_refl _⟩, fun _ => rfl⟩
  · have hgap' := hc
    unfold Close at hgap'
    rw [if_neg hc]
    refine ⟨?_, fun h => absurd h hc⟩
    split
    · next hlt =>
      rw [Nat.max_eq_left hlt.le]
      exact rebalanced_lift (s := .left) hl hr (by omega)
    · next hge =>
      rw [Nat.max_eq_right (by omega)]
      exact rebalanced_lift (s := .right) hr hl (by omega)

/-- The tree `t` is balanced, in a place where a subtree of height `h` would fit. -/
structure Loose (h : ℕ) (path : UpPath α) (t : HTree α) : Prop where
  balanced : HeightBalanced t
  above : BalancedAbove h path
  close : Close t.height h

theorem Loose.children (ht : Loose h (f :: path) t) : ∃ l r, t.attach f = .node l f.value f.height r ∧
    HeightBalanced l ∧ HeightBalanced r ∧ max l.height r.height = max t.height f.other.height ∧
    (Close l.height r.height ↔ Close t.height f.other.height) ∧
    l.height ≤ r.height + 2 ∧ r.height ≤ l.height + 2 := by
  obtain ⟨hother, hclose, -, -⟩ := ht.above
  have hh := ht.close
  unfold Close at hh hclose
  unfold HTree.attach Close
  cases f.side with
  | left => exact ⟨t, f.other, rfl, ht.balanced, hother, rfl, Iff.rfl, by omega, by omega⟩
  | right => exact ⟨f.other, t, rfl, hother, ht.balanced, Nat.max_comm .., And.comm, by omega, by omega⟩

theorem Loose.step (ht : Loose h (f :: path) t) : Loose f.height path (HTree.rebalanceNode (t.attach f)) ∧
    0 < (HTree.rebalanceNode (t.attach f)).height ∧
    (HTree.rebalanceNode (t.attach f)).inorder = (t.attach f).inorder := by
  obtain ⟨l, r, hattach, hl, hr, hmax, hiff, hgap⟩ := ht.children
  obtain ⟨-, hclose, hheight, hpath⟩ := ht.above
  have hh := ht.close
  unfold Close at hh hclose
  obtain ⟨hre, hsame⟩ := rebalanced_node (h := f.height) (z := f.value) hl hr hgap
  rw [← hattach, hmax] at hre hsame
  have hge := hre.height_ge
  have hle := hre.height_le
  have hnear : 0 < (HTree.rebalanceNode (t.attach f)).height ∧
      Close (HTree.rebalanceNode (t.attach f)).height f.height := by
    by_cases hc : Close t.height f.other.height
    · have := hsame (hiff.mpr hc)
      unfold Close
      omega
    · unfold Close at hc ⊢
      omega
  exact ⟨⟨hre.balanced, hpath, hnear.2⟩, hnear.1, hre.inorder⟩

theorem Loose.rebalance (ht : Loose h path t) :
    HeightBalanced (t.rebalance path) ∧ (t.rebalance path).inorder = (t.zip path).inorder := by
  induction path generalizing t h with
  | nil => exact ⟨ht.balanced, rfl⟩
  | cons f path ih =>
    obtain ⟨hstep, -, hinorder⟩ := ht.step
    rw [HTree.rebalance, HTree.zip, ← inorder_zip_congr hinorder]
    split
    · exact ih hstep
    · next heq =>
      rw [ne_eq, not_not] at heq
      exact ⟨balanced_zip.mpr ⟨hstep.balanced, heq ▸ hstep.above⟩, rfl⟩

end Rebalance

end AvlTree
