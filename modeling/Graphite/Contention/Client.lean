import Graphite.Contention.Operations

/-! # Users of the interval tree

The owner of the nodes inserts and removes them in any order. A node that goes in is a new one, with
a key that no other node has.
-/

namespace Graphite.Contention

open Outcome AvlTree IntervalTree List

/-! ## Traversal -/

namespace IntervalTree

def Present (s : IntervalTree) (p : ℕ) : Prop := ∃ l, s.inOrderTraversal = .ok l ∧ p ∈ l

instance (s : IntervalTree) (p : ℕ) : Decidable (s.Present p) :=
  match h : s.inOrderTraversal with
  | .ok l => decidable_of_iff (p ∈ l) (by simp [Present, h])
  | .error _ => isFalse (by simp [Present, h])

variable {s : IntervalTree} {T : HTree Entry} {p : ℕ}

theorem inOrderTraversalTree_eq {parent : Option ℕ} {t : HTree Entry} {fuel : ℕ} (ht : Rep s.nodes parent t)
    (hfuel : t.inorder.length ≤ fuel) : s.inOrderTraversalTree fuel (ptr t) = .ok (t.inorder.map Entry.ptr) := by
  induction t generalizing parent fuel with
  | nil => cases fuel <;> rfl
  | node l e h r ihl ihr =>
    obtain ⟨he, hl, hr⟩ := ht
    rw [HTree.inorder, length_append, length_cons] at hfuel
    obtain ⟨fuel, rfl⟩ : ∃ k, fuel = k + 1 := ⟨fuel - 1, by omega⟩
    have hleft : (s.nodes e.ptr).left = ptr l := by rw [he]; rfl
    have hright : (s.nodes e.ptr).right = ptr r := by rw [he]; rfl
    rw [ptr_node, inOrderTraversalTree, hleft, hright, ihl hl (by omega), ok_bind, ihr hr (by omega)]
    simp [HTree.inorder]

theorem Valid.inOrderTraversal (hs : Valid s T) : s.inOrderTraversal = .ok (T.inorder.map Entry.ptr) := by
  rw [IntervalTree.inOrderTraversal, hs.holds.root, hs.size]
  exact inOrderTraversalTree_eq hs.holds.rep (Nat.le_refl _)

theorem Valid.present (hs : Valid s T) : s.Present p ↔ ∃ e ∈ T.inorder, e.ptr = p := by
  simp only [Present, hs.inOrderTraversal, Except.ok.injEq, exists_eq_left', mem_map]

end IntervalTree

/-! ## Sequences of insertions and removals -/

/-- The tree, and the pairs that were inserted and not removed. -/
structure Client where
  tree : IntervalTree
  pairs : List (ℕ × Interval)

inductive Command
  | insert (node : ℕ) (interval : Interval)
  | remove (node : ℕ)
  deriving DecidableEq, Repr

namespace Client

def start (nodes : ℕ → Node) (node : ℕ) (interval : Interval) : Client where
  tree := ⟨Function.update nodes node (Node.initializeWith interval), some node, 1⟩
  pairs := [(interval.first, interval)]

def Enabled (c : Client) : Command → Prop
  | .insert node interval => ¬ c.tree.Present node ∧ interval.first ∉ c.pairs.map Prod.fst
  | .remove node => c.tree.Present node

instance (c : Client) : DecidablePred c.Enabled := fun a => by
  cases a <;> dsimp only [Enabled] <;> infer_instance

def run (c : Client) : Command → Except Fault Client
  | .insert node interval => do
    let tree ← (c.tree.modify node fun _ => Node.initializeWith interval).insert node
    pure ⟨tree, (interval.first, interval) :: c.pairs⟩
  | .remove node => do
    let (tree, _) ← c.tree.remove node
    pure ⟨tree, c.pairs.erase (c.tree.nodes node).pair⟩

def clients : System Client Command Fault Unit where
  init c := ∃ nodes node interval, c = start nodes node interval
  enabled := Enabled
  step c a := do
    let c ← c.run a
    pure (c, [])

instance (c : Client) : DecidablePred (clients.enabled c) := inferInstanceAs (DecidablePred c.Enabled)

def NotEmpty (c : Client) : Command → Prop
  | .insert _ _ => c.pairs ≠ []
  | .remove _ => True

/-- The pointers form a balanced search tree with exactly the given pairs. -/
structure Sound (c : Client) : Prop where
  valid : ∃ T, Valid c.tree T ∧ (T.inorder.map Entry.pair).Perm c.pairs
  size : c.tree.size = c.pairs.length
  /-- A removed node is no longer in the tree and holds what was removed. -/
  remove : ∀ node, c.tree.Present node → ∃ tree q, c.tree.remove node = .ok (tree, q) ∧
    ¬ tree.Present q ∧ (tree.nodes q).pair = (c.tree.nodes node).pair

variable {c : Client} {T : HTree Entry}

theorem sound_of_valid (hT : Valid c.tree T) (hpairs : (T.inorder.map Entry.pair).Perm c.pairs) : Sound c where
  valid := ⟨T, hT, hpairs⟩
  size := by rw [hT.size, ← hpairs.length_eq, length_map]
  remove := by
    intro node hnode
    obtain ⟨e, he, rfl⟩ := hT.present.mp hnode
    obtain ⟨tree, T', q, hrun, hr⟩ := remove_sat hT he
    refine ⟨tree, q, hrun, ?_, hr.returned.trans (hT.holds.rep.node_pair he).symm⟩
    rw [hr.valid.present]
    rintro ⟨a, ha, rfl⟩
    have hnodup : (T.inorder.map Entry.ptr).Nodup := pairwise_map.mpr hT.holds.distinct
    have hnot := (nodup_cons.mp (hr.ptrs.nodup_iff.mpr hnodup)).1
    exact hnot (mem_map_of_mem ha)

theorem sound_start (nodes : ℕ → Node) (node : ℕ) (interval : Interval) : Sound (start nodes node interval) := by
  have hvalid : Valid (start nodes node interval).tree (leaf ⟨node, interval.first, interval⟩) := by
    refine ⟨⟨⟨?_, trivial, trivial⟩, rfl, pairwise_singleton ..⟩, pairwise_singleton ..,
      ⟨trivial, trivial, by decide, rfl⟩, rfl⟩
    exact Function.update_self ..
  exact sound_of_valid hvalid (List.Perm.refl _)

theorem insert_sound (hc : Sound c) {node : ℕ} {interval : Interval} (hen : c.Enabled (.insert node interval))
    (hne : c.pairs ≠ []) : ∃ c', c.run (.insert node interval) = .ok c' ∧ Sound c' := by
  obtain ⟨T, hT, hpairs⟩ := hc.valid
  obtain ⟨hnode, hkey⟩ := hen
  let n : Entry := ⟨node, interval.first, interval⟩
  have hptr : ∀ a ∈ T.inorder, a.ptr ≠ node := fun a ha h => hnode (hT.present.mpr ⟨a, ha, h⟩)
  have hT₁ : Valid (c.tree.modify node fun _ => Node.initializeWith interval) T :=
    ⟨hT.holds.modify_of_ne hptr, hT.ordered, hT.balanced, hT.size⟩
  have hn : Fresh (c.tree.modify node fun _ => Node.initializeWith interval) T n := by
    refine ⟨?_, hptr, fun a ha h => hkey ?_⟩
    · rw [nodes_modify, if_pos rfl]
      rfl
    · replace h : a.key = interval.first := h
      rw [← h, ← (hpairs.map Prod.fst).mem_iff, map_map]
      exact mem_map_of_mem (f := Prod.fst ∘ Entry.pair) ha
  have hT' : T ≠ .nil := by
    rintro rfl
    exact hne (nil_perm.mp hpairs)
  obtain ⟨tree, T', hrun, hins⟩ := insert_sat hT₁ hn hT'
  obtain ⟨l₁, l₂, hl, hl'⟩ := hins.inorder
  refine ⟨⟨tree, (interval.first, interval) :: c.pairs⟩, ?_, sound_of_valid hins.valid ?_⟩
  · rw [run, hrun]
    rfl
  · rw [hl]  at hpairs
    rw [hl', map_append, map_cons]
    rw [map_append] at hpairs
    exact perm_middle.trans (hpairs.cons _)

theorem remove_sound (hc : Sound c) {node : ℕ} (hen : c.Enabled (.remove node)) :
    ∃ c', c.run (.remove node) = .ok c' ∧ Sound c' := by
  obtain ⟨T, hT, hpairs⟩ := hc.valid
  obtain ⟨e, he, rfl⟩ := hT.present.mp hen
  obtain ⟨tree, T', q, hrun, hr⟩ := remove_sat hT he
  obtain ⟨l₁, l₂, hl, hl'⟩ := hr.entries
  refine ⟨⟨tree, c.pairs.erase e.pair⟩, ?_, sound_of_valid hr.valid ?_⟩
  · rw [run, hrun, hT.holds.rep.node_pair he]
    rfl
  · rw [hl, map_append, map_cons] at hpairs
    rw [hl', map_append]
    exact (cons_perm_iff_perm_erase.mp (perm_middle.symm.trans hpairs)).2

theorem run_sound (hc : Sound c) {a : Command} (hen : c.Enabled a) (hne : c.NotEmpty a) :
    ∃ c', c.run a = .ok c' ∧ Sound c' := by
  cases a with
  | insert node interval => exact insert_sound hc hen hne
  | remove node => exact remove_sound hc hen

theorem step_sound (hc : Sound c) {a : Command} (hen : (clients.restrict NotEmpty).enabled c a) :
    Returns ((clients.restrict NotEmpty).step c a) fun r => Sound r.1 := by
  obtain ⟨c', hrun, hc'⟩ := run_sound hc hen.1 hen.2
  have hstep : (clients.restrict NotEmpty).step c a = .ok (c', []) := by
    change (c.run a >>= _) = _
    rw [hrun]
    rfl
  rw [hstep]
  exact hc'

instance (c : Client) : DecidablePred c.NotEmpty := fun a => by
  cases a <;> dsimp only [NotEmpty] <;> infer_instance

instance (c : Client) : DecidablePred ((clients.restrict NotEmpty).enabled c) := fun a =>
  inferInstanceAs (Decidable (c.Enabled a ∧ c.NotEmpty a))

/-- In every run that inserts nothing into the empty tree, the tree is sound and no command fails. -/
theorem interval_tree_run (tr : List Unit) (c : Client) (hr : (clients.restrict NotEmpty).Run (fun _ => True) tr c) :
    Sound c ∧ ∀ a, (clients.restrict NotEmpty).enabled c a → ∃ c', c.run a = .ok c' := by
  have hsound : Sound c := by
    refine hr.invariant (E := fun _ => False) (I := fun _ c => Sound c) ?_ fun _ c a hc _ hen => step_sound hc hen
    rintro c ⟨nodes, node, interval, rfl⟩
    exact sound_start nodes node interval
  refine ⟨hsound, fun a hen => ?_⟩
  obtain ⟨c', hrun, -⟩ := run_sound hsound hen.1 hen.2
  exact ⟨c', hrun⟩

/-- Insertions with a double rotation, and a removal of a node with two children. -/
theorem interval_tree_run_three : ∃ tr c, (clients.restrict NotEmpty).Run (fun _ => True) tr c ∧
    decide (c.pairs.length = 3) = true ∧ Sound c :=
  System.Run.of_reaches_imp (Q := fun _ c => decide (c.pairs.length = 3) = true)
    (.start (s := start (fun _ => Node.initializeWith ⟨0, 1⟩) 0 ⟨0, 1⟩) ⟨_, _, _, rfl⟩)
    [.insert 1 ⟨8, 9⟩, .insert 2 ⟨4, 5⟩, .insert 3 ⟨6, 7⟩, .remove 2]
    fun tr c hr hc => ⟨hc, (interval_tree_run tr c hr).1⟩

/-- The only node is removed and another one inserted: the insertion follows the null root. -/
theorem insert_empty_tree : clients.Fails (fun _ => True) .nullPointer :=
  .of_stops (.start ⟨fun _ => Node.initializeWith ⟨0, 1⟩, 0, ⟨0, 1⟩, rfl⟩) [.remove 0, .insert 0 ⟨0, 1⟩]

end Client

end Graphite.Contention
