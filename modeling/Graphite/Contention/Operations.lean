import Graphite.Contention.Rebalancing

/-! # Insertion and removal

The tree behind the pointers after an insertion or a removal is again ordered and balanced. A node
with two children is not unlinked: its successor is, and the two exchange what they hold.
-/

namespace Graphite.Contention

namespace IntervalTree

open Outcome AvlTree HTree Option

/-- The pointers of `s` form the balanced search tree `T`. -/
structure Valid (s : IntervalTree) (T : HTree Entry) : Prop where
  holds : Holds s T
  ordered : Ordered T.inorder
  balanced : HeightBalanced T
  size : s.size = T.inorder.length

/-! ## Insertion -/

/-- The tree `T` has become `T'`, with the new entry `n`. -/
structure Inserted (s : IntervalTree) (T : HTree Entry) (n : Entry) (s' : IntervalTree) (T' : HTree Entry) : Prop where
  valid : Valid s' T'
  inorder : ∃ l₁ l₂, T.inorder = l₁ ++ l₂ ∧ T'.inorder = l₁ ++ n :: l₂
  frame : ∀ p, p ≠ n.ptr → (∀ a ∈ T.inorder, a.ptr ≠ p) → s'.nodes p = s.nodes p

section Insert

variable {s : IntervalTree} {T t : HTree Entry} {n : Entry} {f : Frame Entry} {path : UpPath Entry}

/-- The entry `n` is in no node, and its node is a new one. -/
structure Fresh (s : IntervalTree) (T : HTree Entry) (n : Entry) : Prop where
  node : s.nodes n.ptr = n.link .left none none none 1
  ptr : ∀ a ∈ T.inorder, a.ptr ≠ n.ptr
  key : ∀ a ∈ T.inorder, a.key ≠ n.key

def leaf (n : Entry) : HTree Entry := .node .nil n 1 .nil

def attachNode (s : IntervalTree) (p : ℕ) (side : Side) (node : ℕ) : IntervalTree :=
  (s.modify p (·.setChild side (some node))).modify node (·.setParent (some p))

theorem length_le_around (path : UpPath Entry) : path.length ≤ (around path).length := by
  induction path with
  | nil => exact Nat.zero_le _
  | cons f path ih =>
    rw [(around_cons f path).length_eq, List.length_cons, List.length_cons, List.length_append]
    omega

theorem Holds.attachNode (hs : Holds s (zip .nil (f :: path))) (hn : Fresh s (zip .nil (f :: path)) n) :
    Holds (s.attachNode f.value.ptr f.side n.ptr) ((leaf n).zip (f :: path)) := by
  obtain ⟨hrep, hroot, hdistinct⟩ := hs
  have hperm := inorder_zip_perm .nil (f :: path)
  rw [inorder, List.nil_append] at hperm
  have hfresh : ∀ a ∈ around (f :: path), a.ptr ≠ n.ptr := fun a ha => hn.ptr a (hperm.mem_iff.mpr ha)
  have hf := hfresh f.value (mem_around_cons.mpr (.inl rfl))
  have hd := hdistinct.perm hperm
  have hnode : (s.attachNode f.value.ptr f.side n.ptr).nodes n.ptr =
      n.link .left (some f.value.ptr) none none 1 := by
    rw [IntervalTree.attachNode, nodes_modify, if_pos rfl, nodes_modify, if_neg hf.symm, hn.node, setParent_link]
  refine ⟨?_, ?_, ?_⟩
  · rw [rep_zip] at hrep ⊢
    refine ⟨⟨hnode, trivial, trivial⟩, repAbove_relink hrep.2 hd ?_ ?_⟩
    · rintro f' hf'
      obtain rfl := some.inj hf'
      rw [IntervalTree.attachNode, nodes_modify, if_neg hf, nodes_modify, if_pos rfl]
      rfl
    · intro e he hne
      rw [IntervalTree.attachNode, nodes_modify, if_neg (hfresh e he), nodes_modify,
        if_neg fun h => hne (congrArg some h.symm)]
  · exact hroot.trans ptr_zip_cons
  · refine Distinct.perm ?_ (inorder_zip_perm (leaf n) (f :: path)).symm
    exact List.pairwise_cons.mpr ⟨fun a ha => (hfresh a ha).symm, hd⟩

theorem Ordered.insert {l₁ l₂ : List Entry} (h : Ordered (l₁ ++ l₂)) (h₁ : ∀ a ∈ l₁, a.key < n.key)
    (h₂ : ∀ a ∈ l₂, n.key < a.key) : Ordered (l₁ ++ n :: l₂) := by
  unfold Ordered at *
  rw [List.pairwise_append] at h ⊢
  obtain ⟨hl₁, hl₂, hlt⟩ := h
  refine ⟨hl₁, List.pairwise_cons.mpr ⟨h₂, hl₂⟩, fun a ha b hb => ?_⟩
  obtain rfl | hb := List.mem_cons.mp hb
  · exact h₁ a ha
  · exact hlt a ha b hb

theorem inorder_nil_zip (path : UpPath Entry) : (zip .nil path).inorder = before path ++ after path := by
  rw [inorder_zip, inorder, List.append_nil]

theorem inorder_leaf_zip (n : Entry) (path : UpPath Entry) :
    ((leaf n).zip path).inorder = before path ++ n :: after path := by
  rw [inorder_zip]
  simp [leaf, inorder]

theorem insertLeaf_sat (hs : Holds s (zip .nil (f :: path))) (hn : Fresh s (zip .nil (f :: path)) n)
    (hord : Ordered (zip .nil (f :: path)).inorder) (hbal : HeightBalanced (zip .nil (f :: path)))
    (hbefore : ∀ a ∈ before (f :: path), a.key < n.key) (hafter : ∀ a ∈ after (f :: path), n.key < a.key)
    (hsize : s.size = (zip .nil (f :: path)).inorder.length + 1) :
    ∃ s' T', rebalanceAVLTree s.size (s.attachNode f.value.ptr f.side n.ptr) (some f.value.ptr) = .ok s' ∧
      Inserted s (zip .nil (f :: path)) n s' T' := by
  have hs₁ := hs.attachNode hn
  rw [inorder_nil_zip] at hord hsize
  have hord₁ : Ordered ((leaf n).zip (f :: path)).inorder := by
    rw [inorder_leaf_zip]
    exact hord.insert hbefore hafter
  have hloose : Loose 0 (f :: path) (leaf n) :=
    ⟨⟨trivial, trivial, by decide, rfl⟩, (balanced_zip.mp hbal).2, Nat.le_refl 1, Nat.zero_le 2⟩
  have hlength := length_le_around (f :: path)
  rw [around, ← Nat.add_le_add_iff_right (n := 1), ← hsize] at hlength
  obtain ⟨s', hrun, hbec⟩ := rebalanceAVLTree_sat hs₁ hord₁ hloose (Nat.le_of_succ_le hlength)
  refine ⟨s', _, hrun, ⟨hbec.holds, hbec.inorder ▸ hord₁, hloose.rebalance.1, ?_⟩, ?_, ?_⟩
  · rw [hbec.size, hbec.inorder, inorder_leaf_zip, List.length_append, List.length_cons, ← Nat.add_assoc,
      ← List.length_append, ← hsize]
    rfl
  · exact ⟨before (f :: path), after (f :: path), inorder_nil_zip _, hbec.inorder.trans (inorder_leaf_zip n _)⟩
  · intro p hp hnot
    have hnot' := fun a ha => hnot a ((inorder_zip_perm .nil _).mem_iff.mpr ha)
    rw [hbec.frame p, IntervalTree.attachNode, nodes_modify, if_neg hp, nodes_modify, if_neg]
    · rintro rfl
      exact hnot' f.value (mem_around_cons.mpr (.inl rfl)) rfl
    · intro a ha
      rw [(inorder_zip_perm _ _).mem_iff, leaf, inorder, inorder, List.nil_append, List.singleton_append,
        List.mem_cons] at ha
      obtain rfl | ha := ha
      · exact hp.symm
      · exact hnot' a ha

theorem insertInTree_sat {fuel p : ℕ} (hs : Holds s (t.zip path)) (hn : Fresh s (t.zip path) n)
    (hord : Ordered (t.zip path).inorder) (hbal : HeightBalanced (t.zip path)) (ht : ptr t = some p)
    (hbefore : ∀ a ∈ before path, a.key < n.key) (hafter : ∀ a ∈ after path, n.key < a.key)
    (hsize : s.size = (t.zip path).inorder.length + 1) (hfuel : t.inorder.length ≤ fuel) :
    ∃ s' T', s.insertInTree n.ptr fuel (some p) = .ok s' ∧ Inserted s (t.zip path) n s' T' := by
  induction t generalizing path fuel p with
  | nil => cases ht
  | node l e h r ihl ihr =>
    obtain rfl := some.inj ht
    rw [inorder, List.length_append, List.length_cons] at hfuel
    obtain ⟨fuel, rfl⟩ : ∃ k, fuel = k + 1 := ⟨fuel - 1, by omega⟩
    have hsl : Holds s ((build .left l e h r).zip path) := hs
    have hnode := hsl.node.1
    have hne := hn.key e (by
      rw [inorder_zip, inorder]
      simp)
    have hordt : Ordered (l.inorder ++ e :: r.inorder) := by
      rw [inorder_zip] at hord
      exact ((List.pairwise_append.mp hord).1 |> List.pairwise_append.mp).2.1
    unfold Ordered at hordt
    rw [List.pairwise_append, List.pairwise_cons] at hordt
    rw [insertInTree, hnode, hn.node, key_link, key_link]
    obtain hgt | hlt := Nat.lt_or_gt_of_ne hne
    · rw [if_neg (Nat.not_lt_of_lt hgt), if_pos hgt]
      have hbefore' : ∀ a ∈ before (⟨.right, e, h, l⟩ :: path), a.key < n.key := by
        simp only [before, List.mem_append, List.mem_singleton]
        rintro a (ha | ha | rfl)
        · exact hbefore a ha
        · exact (hordt.2.2 a ha e List.mem_cons_self).trans hgt
        · exact hgt
      cases r with
      | nil => exact insertLeaf_sat (f := ⟨.right, e, h, l⟩) hs hn hord hbal hbefore' hafter hsize
      | node =>
        have hs' : Holds s (zip _ (⟨.right, e, h, l⟩ :: path)) := hs
        exact ihr hs' hn hord hbal rfl hbefore' hafter hsize (by omega)
    · rw [if_pos hlt]
      have hafter' : ∀ a ∈ after (⟨.left, e, h, r⟩ :: path), n.key < a.key := by
        simp only [after, List.mem_append, List.mem_cons]
        rintro a ((rfl | ha) | ha)
        · exact hlt
        · exact hlt.trans (hordt.2.1.1 a ha)
        · exact hafter a ha
      have hbefore' : ∀ a ∈ before (⟨.left, e, h, r⟩ :: path), a.key < n.key := by
        simpa only [before, List.append_nil] using hbefore
      cases l with
      | nil => exact insertLeaf_sat (f := ⟨.left, e, h, r⟩) hs hn hord hbal hbefore' hafter' hsize
      | node =>
        have hs' : Holds s (zip _ (⟨.left, e, h, r⟩ :: path)) := hs
        exact ihl hs' hn hord hbal rfl hbefore' hafter' hsize (by omega)

theorem insert_sat (hs : Valid s T) (hn : Fresh s T n) (hT : T ≠ .nil) :
    ∃ s' T', s.insert n.ptr = .ok s' ∧ Inserted s T n s' T' := by
  cases T with
  | nil => exact absurd rfl hT
  | node l e h r =>
    have hs₁ : Holds { s with size := s.size + 1 } ((node l e h r).zip []) :=
      ⟨hs.holds.rep, hs.holds.root, hs.holds.distinct⟩
    have hfuel : (node l e h r).inorder.length ≤ s.size + 1 := hs.size ▸ Nat.le_succ _
    obtain ⟨s', T', hrun, hins⟩ := insertInTree_sat hs₁ ⟨hn.node, hn.ptr, hn.key⟩ hs.ordered hs.balanced rfl
      (by simp [before]) (by simp [after]) (congrArg (· + 1) hs.size) hfuel
    have hroot : s.root = some e.ptr := hs.holds.root
    rw [← hroot] at hrun
    exact ⟨s', T', hrun, hins.valid, hins.inorder, hins.frame⟩

end Insert

/-! ## Removal -/

section Splice

variable {s : IntervalTree} {c : HTree Entry} {e : Entry} {h : ℕ} {path : UpPath Entry} {side : Side}
  {child : Option ℕ}

def setBelow (s : IntervalTree) (child : Option ℕ) : UpPath Entry → IntervalTree
  | [] => s
  | f :: _ => s.modify f.value.ptr (·.setChild f.side child)

/-- The parent of a node with at most one child takes the child. -/
def splice (s : IntervalTree) (path : UpPath Entry) (child : Option ℕ) : IntervalTree :=
  (s.setBelow child path).updateParentPointer child (parentPtr path)

theorem nodes_splice (path : UpPath Entry) (child : Option ℕ) (p : ℕ) : (s.splice path child).nodes p =
    if child = some p then ((s.setBelow child path).nodes p).setParent (parentPtr path)
    else (s.setBelow child path).nodes p := by
  rw [splice, nodes_updateParentPointer]

theorem nodes_setBelow_of_ne {p : ℕ} (hparent : parentPtr path ≠ some p) :
    (s.setBelow child path).nodes p = s.nodes p := by
  cases path with
  | nil => rfl
  | cons f path =>
    rw [setBelow, nodes_modify, if_neg fun h => hparent (congrArg some h.symm)]

theorem nodes_splice_of_ne {p : ℕ} (hchild : child ≠ some p)
    (hparent : parentPtr path ≠ some p) : (s.splice path child).nodes p = s.nodes p := by
  rw [nodes_splice, if_neg hchild, nodes_setBelow_of_ne hparent]

theorem Holds.splice (hs : Holds s ((build side c e h .nil).zip path)) :
    Holds (s.splice path (ptr c)) (c.zip path) := by
  obtain ⟨hrep, hroot, hdistinct⟩ := hs
  have hd := List.pairwise_cons.mp (hdistinct.perm (inorder_build_zip_perm path))
  rw [inorder, List.nil_append] at hd
  obtain ⟨hc, hp, hcp⟩ := List.pairwise_append.mp hd.2
  rw [rep_zip, rep_build] at hrep
  refine ⟨?_, ?_, Distinct.perm hd.2 (inorder_zip_perm c path).symm⟩
  · rw [rep_zip]
    constructor
    · refine rep_reparent hrep.1.2.1 hc ?_ fun a ha hne => ?_
      · intro p hptr
        obtain ⟨a, ha, rfl⟩ := exists_of_ptr hptr
        rw [nodes_splice, if_pos hptr, nodes_setBelow_of_ne (parentPtr_ne fun b hb => (hcp a ha b hb).symm)]
      · exact nodes_splice_of_ne hne (parentPtr_ne fun b hb => (hcp a ha b hb).symm)
    · refine repAbove_relink hrep.2 hp ?_ fun a ha hne => ?_
      · intro f hf
        obtain ⟨path, rfl⟩ := List.head?_eq_some_iff.mp hf
        rw [nodes_splice, if_neg (ptr_ne fun b hb => hcp b hb f.value (mem_around_cons.mpr (.inl rfl))),
          setBelow, nodes_modify, if_pos rfl]
      · exact nodes_splice_of_ne (ptr_ne fun b hb => hcp b hb a ha) hne
  · rw [IntervalTree.splice, root_updateParentPointer]
    cases path with
    | nil => rfl
    | cons f path => exact hroot.trans ptr_zip_cons

theorem size_splice (path : UpPath Entry) (child : Option ℕ) : (s.splice path child).size = s.size := by
  rw [splice, size_updateParentPointer]
  cases path <;> rfl

theorem sublist_build_zip : (c.zip path).inorder.Sublist ((build side c e h .nil).zip path).inorder := by
  rw [inorder_zip, inorder_zip]
  refine ((List.Sublist.refl _).append ?_).append (List.Sublist.refl _)
  cases side with
  | left => exact List.sublist_append_left ..
  | right => exact List.sublist_append_right [e] _

theorem splice_sat {fuel : ℕ} (hs : Holds s ((build side c e h .nil).zip path))
    (hord : Ordered ((build side c e h .nil).zip path).inorder)
    (hbal : HeightBalanced ((build side c e h .nil).zip path)) (hfuel : path.length ≤ fuel) :
    ∃ s', rebalanceAVLTree fuel (s.splice path (ptr c)) (parentPtr path) = .ok s' ∧
      Becomes s (c.zip path).inorder s' (c.rebalance path) ∧ HeightBalanced (c.rebalance path) := by
  obtain ⟨hnode, habove⟩ := balanced_zip.mp hbal
  rw [balanced_build] at hnode
  rw [height_build] at habove
  have hloose : Loose h path c := by
    refine ⟨hnode.1, habove, ?_⟩
    have hheight := hnode.2.2.2
    rw [height, Nat.max_zero] at hheight
    unfold Close
    omega
  have hord₁ : Ordered (c.zip path).inorder := List.Pairwise.sublist sublist_build_zip hord
  obtain ⟨s', hrun, hbec⟩ := rebalanceAVLTree_sat hs.splice hord₁ hloose hfuel
  refine ⟨s', hrun, ⟨hbec.holds, hbec.inorder, hbec.size.trans (size_splice ..), fun p hp => ?_⟩, hloose.rebalance.1⟩
  have hmem := fun a => (inorder_zip_perm c path).mem_iff (a := a)
  rw [hbec.frame p hp, nodes_splice_of_ne]
  · exact ptr_ne fun a ha => hp a ((hmem a).mpr (List.mem_append_left _ ha))
  · exact parentPtr_ne fun a ha => hp a ((hmem a).mpr (List.mem_append_right _ ha))

theorem updateChildPointer_side {child q : Option ℕ} (hp : RepAbove s.nodes q path)
    (hkey : (s.nodes e.ptr).key = e.key) (hside : OnSide path e) :
    s.updateChildPointer (parentPtr path) child (s.childSide e.ptr (parentPtr path)) =
      .ok (s.setBelow child path) := by
  cases path with
  | nil => rfl
  | cons f path =>
    rw [childSide, parentPtr, map_some, hp.1, key_link, hkey, hside f rfl]
    rfl

theorem updateChildPointer_key {a : Entry} {q : Option ℕ} (hp : RepAbove s.nodes q path)
    (hkey : (s.nodes a.ptr).key = a.key) (hside : OnSide path a) :
    s.updateChildPointer (parentPtr path) (some a.ptr) none = .ok (s.setBelow (some a.ptr) path) := by
  cases path with
  | nil => rfl
  | cons f path =>
    rw [parentPtr, updateChildPointer, hp.1, key_link, hkey, hside f rfl]
    rfl

variable {l r : HTree Entry}

/-- The node of `e` is unlinked; `c` is what it had below. -/
structure Unlinks (s : IntervalTree) (c : HTree Entry) (path : UpPath Entry) (s' : IntervalTree) : Prop where
  becomes : Becomes s (c.zip path).inorder s' (c.rebalance path)
  balanced : HeightBalanced (c.rebalance path)

theorem removeFromTree_right (fuel : ℕ) (hs : Holds s ((node .nil e h r).zip path))
    (hord : Ordered ((node .nil e h r).zip path).inorder) (hbal : HeightBalanced ((node .nil e h r).zip path))
    (hsize : path.length ≤ s.size + 1) :
    ∃ s', removeFromTree (fuel + 1) s e.ptr = .ok (s', e.ptr) ∧ Unlinks s r path s' := by
  have hs₁ : Holds s ((build .right r e h .nil).zip path) := hs
  obtain ⟨s', hrun, hbec, hbal'⟩ := splice_sat hs₁ hord hbal hsize
  refine ⟨s', ?_, hbec, hbal'⟩
  have hp := (rep_zip.mp hs.rep).2
  have hkey : (s.nodes e.ptr).key = e.key := by rw [hs₁.node.1, key_link]
  rw [removeFromTree, hs₁.node.1]
  simp only [Entry.link, ptr_nil]
  rw [updateChildPointer_side hp hkey (hord.onSide (by simp [inorder])), ok_bind]
  change (rebalanceAVLTree ((s.splice path (ptr r)).size + 1) (s.splice path (ptr r)) _ >>= _) = _
  rw [size_splice, hrun, ok_bind, pure_eq_ok]

theorem removeFromTree_left {a : Entry} {k : ℕ} (fuel : ℕ) (hs : Holds s ((node (.node l a k r) e h .nil).zip path))
    (hord : Ordered ((node (.node l a k r) e h .nil).zip path).inorder)
    (hbal : HeightBalanced ((node (.node l a k r) e h .nil).zip path)) (hsize : path.length ≤ s.size + 1) :
    ∃ s', removeFromTree (fuel + 1) s e.ptr = .ok (s', e.ptr) ∧ Unlinks s (.node l a k r) path s' := by
  have hs₁ : Holds s ((build .left (.node l a k r) e h .nil).zip path) := hs
  obtain ⟨s', hrun, hbec, hbal'⟩ := splice_sat hs₁ hord hbal hsize
  refine ⟨s', ?_, hbec, hbal'⟩
  obtain ⟨hnode, hp⟩ := rep_zip.mp hs.rep
  have hkey : (s.nodes a.ptr).key = a.key := by rw [hnode.2.1.1, key_link]
  rw [removeFromTree, hs₁.node.1]
  simp only [Entry.link, ptr_nil, ptr_node]
  rw [updateChildPointer_key hp hkey (hord.onSide (by simp [inorder])), ok_bind]
  change (rebalanceAVLTree ((s.splice path (some a.ptr)).size + 1) (s.splice path (some a.ptr)) _ >>= _) = _
  rw [size_splice, ← ptr_node, hrun, ok_bind, pure_eq_ok]

end Splice

/-! ## Changes in place -/

/-- The entry at `p` becomes another one. -/
def replace (p key : ℕ) (interval : Interval) (a : Entry) : Entry := if a.ptr = p then ⟨p, key, interval⟩ else a

section Replace

variable {s : IntervalTree} {T : HTree Entry} {e : Entry} {p key : ℕ} {interval : Interval}

theorem ptr_replace (a : Entry) : (replace p key interval a).ptr = a.ptr := by
  unfold replace
  split
  · next h => exact h.symm
  · rfl

theorem Distinct.map_replace {l₁ l₂ : List Entry} (h : Distinct (l₁ ++ e :: l₂)) :
    (l₁ ++ e :: l₂).map (replace e.ptr key interval) = l₁ ++ ⟨e.ptr, key, interval⟩ :: l₂ := by
  simp only [Distinct, List.pairwise_append, List.pairwise_cons] at h
  have hmap : ∀ l : List Entry, (∀ a ∈ l, a.ptr ≠ e.ptr) → l.map (replace e.ptr key interval) = l := by
    intro l hl
    refine (List.map_congr_left fun a ha => ?_).trans (List.map_id l)
    exact if_neg (hl a ha)
  rw [List.map_append, List.map_cons, hmap l₁ fun a ha => h.2.2 a ha e List.mem_cons_self,
    hmap l₂ fun a ha => (h.2.1.1 a ha).symm]
  exact congrArg (l₁ ++ · :: l₂) (if_pos rfl)

theorem Rep.pair {nodes : ℕ → Node} {parent : Option ℕ} {t : HTree Entry} (ht : Rep nodes parent t)
    (he : e ∈ t.inorder) : (nodes e.ptr).key = e.key ∧ (nodes e.ptr).interval = e.interval := by
  induction t generalizing parent with
  | nil => simp [inorder] at he
  | node l a h r ihl ihr =>
    obtain ⟨ha, hl, hr⟩ := ht
    rw [inorder, List.mem_append, List.mem_cons] at he
    obtain he | rfl | he := he
    · exact ihl hl he
    · rw [ha]
      exact ⟨key_link, interval_link⟩
    · exact ihr hr he

theorem Holds.replace (hs : Holds s T) :
    Holds (s.modify p (·.setPair key interval)) (T.map (replace p key interval)) := by
  obtain ⟨hrep, hroot, hdistinct⟩ := hs
  refine ⟨rep_map hrep ptr_replace fun a ha => ?_, hroot.trans (ptr_map ptr_replace).symm, ?_⟩
  · rw [nodes_modify, IntervalTree.replace]
    split
    · rfl
    · obtain ⟨hkey, hinterval⟩ := hrep.pair ha
      rw [← hkey, ← hinterval]
      rfl
  · rw [inorder_map, Distinct, List.pairwise_map]
    simp only [ptr_replace]
    exact hdistinct

theorem Holds.modify_of_ne {f : Node → Node} (hs : Holds s T) (hp : ∀ a ∈ T.inorder, a.ptr ≠ p) :
    Holds (s.modify p f) T := by
  refine ⟨rep_congr hs.rep fun a ha => ?_, hs.root, hs.distinct⟩
  rw [nodes_modify, if_neg (hp a ha)]

end Replace

/-! ## Removal of any node -/

/-- The tree `T` has become `T'`, without the entry `e`; the node `q` is left over. -/
structure Removed (s : IntervalTree) (T : HTree Entry) (e : Entry) (s' : IntervalTree) (T' : HTree Entry) (q : ℕ) :
    Prop where
  valid : Valid s' T'
  entries : ∃ l₁ l₂, T.inorder = l₁ ++ e :: l₂ ∧ T'.inorder.map Entry.pair = (l₁ ++ l₂).map Entry.pair
  ptrs : (q :: T'.inorder.map Entry.ptr).Perm (T.inorder.map Entry.ptr)
  returned : (s'.nodes q).pair = e.pair
  frame : ∀ p, (∀ a ∈ T.inorder, a.ptr ≠ p) → s'.nodes p = s.nodes p

section Remove

variable {s s' : IntervalTree} {T t c l r : HTree Entry} {e : Entry} {h fuel : ℕ} {path : UpPath Entry} {side : Side}
  {l₁ l₂ : List Entry}

theorem Ordered.congr (h : l₁.map Entry.pair = l₂.map Entry.pair) (hl : Ordered l₁) :
    Ordered l₂ := by
  have hpairs : ∀ l : List Entry, Ordered l ↔ (l.map Entry.pair).Pairwise fun a b => a.1 < b.1 := by
    intro l
    rw [List.pairwise_map]
    rfl
  rwa [hpairs, ← h, ← hpairs]

theorem Rep.node_pair {nodes : ℕ → Node} {parent : Option ℕ} (ht : Rep nodes parent t) (he : e ∈ t.inorder) :
    (nodes e.ptr).pair = e.pair :=
  Prod.ext (ht.pair he).1 (ht.pair he).2

theorem Unlinks.removed (hs : Holds s T) (hord : Ordered T.inorder) (hsize : s.size + 1 = T.inorder.length)
    (hu : Unlinks s c path s') (hT : T.inorder = l₁ ++ e :: l₂)
    (hc : (c.zip path).inorder = l₁ ++ l₂) : Removed s T e s' (c.rebalance path) e.ptr := by
  obtain ⟨hbec, hbal⟩ := hu
  have hinorder : (c.rebalance path).inorder = l₁ ++ l₂ := hbec.inorder.trans hc
  have hperm : T.inorder.Perm (e :: (l₁ ++ l₂)) := hT ▸ List.perm_middle
  have hne := (List.pairwise_cons.mp (hs.distinct.perm hperm)).1
  rw [hT] at hord
  refine ⟨⟨hbec.holds, ?_, hbal, ?_⟩, ⟨l₁, l₂, hT, by rw [hinorder]⟩, ?_, ?_, fun p hp => ?_⟩
  · rw [hinorder]
    exact List.Pairwise.sublist ((List.Sublist.refl _).append (List.sublist_cons_self ..)) hord
  · rw [hbec.size, hinorder]
    rw [hperm.length_eq, List.length_cons] at hsize
    omega
  · rw [hinorder]
    exact (hperm.map Entry.ptr).symm
  · rw [hbec.frame, hs.rep.node_pair (hperm.mem_iff.mpr List.mem_cons_self)]
    intro a ha
    exact (hne a (hc ▸ ha)).symm
  · refine hbec.frame p fun a ha => hp a (hperm.mem_iff.mpr ?_)
    exact List.mem_cons_of_mem _ (hc ▸ ha)

theorem findMinKeyNode_sat {p : ℕ} (hs : Holds s (t.zip path)) (ht : ptr t = some p)
    (hfuel : t.inorder.length ≤ fuel) : ∃ a k r path', s.findMinKeyNode fuel p = .ok a.ptr ∧
      t.zip path = (node .nil a k r).zip path' ∧ before path' = before path := by
  induction t generalizing path fuel p with
  | nil => cases ht
  | node l e h r ihl =>
    obtain rfl := some.inj ht
    rw [inorder, List.length_append, List.length_cons] at hfuel
    obtain ⟨fuel, rfl⟩ : ∃ k, fuel = k + 1 := ⟨fuel - 1, by omega⟩
    have hs₁ : Holds s ((build .left l e h r).zip path) := hs
    rw [findMinKeyNode, hs₁.node.1]
    cases l with
    | nil => exact ⟨e, h, r, path, rfl, rfl, rfl⟩
    | node l₁ a k l₂ =>
      have hs₂ : Holds s ((node l₁ a k l₂).zip (⟨.left, e, h, r⟩ :: path)) := hs
      have hfuel₂ : (node l₁ a k l₂).inorder.length ≤ fuel := by omega
      obtain ⟨b, k', r', path', hfind, hzip, hbefore⟩ := ihl hs₂ rfl hfuel₂
      exact ⟨b, k', r', path', hfind, hzip, by simpa only [before, List.append_nil] using hbefore⟩

theorem length_le_size (hsize : s.size + 1 = (t.zip path).inorder.length) : path.length ≤ s.size + 1 := by
  rw [hsize, (inorder_zip_perm t path).length_eq, List.length_append]
  exact Nat.le_add_left_of_le (length_le_around path)

theorem removeFromTree_both {l₁ l₂ r₁ r₂ : HTree Entry} {a b : Entry} {k m : ℕ}
    (hs : Holds s ((node (.node l₁ a k l₂) e h (.node r₁ b m r₂)).zip path))
    (hord : Ordered ((node (.node l₁ a k l₂) e h (.node r₁ b m r₂)).zip path).inorder)
    (hbal : HeightBalanced ((node (.node l₁ a k l₂) e h (.node r₁ b m r₂)).zip path))
    (hsize : s.size + 1 = ((node (.node l₁ a k l₂) e h (.node r₁ b m r₂)).zip path).inorder.length) :
    ∃ s' T' q, removeFromTree 2 s e.ptr = .ok (s', q) ∧
      Removed s ((node (.node l₁ a k l₂) e h (.node r₁ b m r₂)).zip path) e s' T' q := by
  have hsl : Holds s ((build .left (.node l₁ a k l₂) e h (.node r₁ b m r₂)).zip path) := hs
  have hnode := hsl.node.1
  generalize hl : node l₁ a k l₂ = l at *
  have hs₁ : Holds s ((node r₁ b m r₂).zip (⟨.right, e, h, l⟩ :: path)) := hs
  have hfuel : (node r₁ b m r₂).inorder.length ≤ s.size + 1 := by
    rw [hsize, inorder_zip]
    simp only [inorder, List.length_append, List.length_cons]
    omega
  obtain ⟨c, k', r, path', hfind, hzip, hbefore⟩ := findMinKeyNode_sat hs₁ rfl hfuel
  have hT : (node l e h (.node r₁ b m r₂)).zip path = (node .nil c k' r).zip path' := hzip
  generalize (node l e h (.node r₁ b m r₂)).zip path = T at *
  subst hT
  obtain ⟨s₁, hrun, hbec, hbal₁⟩ := removeFromTree_right 0 hs hord hbal (length_le_size hsize)
  have hinorder : ((node .nil c k' r).zip path').inorder =
      (before path ++ l.inorder) ++ e :: c :: (r.inorder ++ after path') := by
    rw [inorder_zip, hbefore]
    simp [before, inorder]
  have hinorder₁ : (r.rebalance path').inorder = (before path ++ l.inorder) ++ e :: (r.inorder ++ after path') := by
    rw [hbec.inorder, inorder_zip, hbefore]
    simp [before]
  generalize before path ++ l.inorder = pre at *
  generalize r.inorder ++ after path' = post at *
  rw [hinorder] at hord hsize
  have hd := hs.distinct
  rw [hinorder] at hd
  have hd₁ := hbec.holds.distinct
  rw [hinorder₁] at hd₁
  have hc : ∀ x ∈ pre ++ e :: post, x.ptr ≠ c.ptr := by
    have hperm : (pre ++ e :: c :: post).Perm (c :: (pre ++ e :: post)) := by
      rw [List.append_cons pre e post, List.append_cons pre e (c :: post)]
      exact List.perm_middle
    exact fun x hx => ((List.pairwise_cons.mp (hd.perm hperm)).1 x hx).symm
  have hpair : (s₁.nodes c.ptr).key = c.key ∧ (s₁.nodes c.ptr).interval = c.interval := by
    rw [hbec.frame c.ptr fun x hx => hc x (by rwa [← hinorder₁, hbec.inorder])]
    exact hs.rep.pair (by rw [hinorder]; simp)
  have hpair' : (s₁.nodes e.ptr).key = e.key ∧ (s₁.nodes e.ptr).interval = e.interval :=
    hbec.holds.rep.pair (by rw [hinorder₁]; simp)
  have hswap : s₁.swap e.ptr c.ptr = (s₁.modify e.ptr (·.setPair c.key c.interval)).modify c.ptr
      (·.setPair e.key e.interval) := by
    rw [swap, hpair.1, hpair.2, hpair'.1, hpair'.2]
  refine ⟨s₁.swap e.ptr c.ptr, (r.rebalance path').map (replace e.ptr c.key c.interval), c.ptr, ?_, ?_⟩
  · subst hl
    rw [removeFromTree, hnode]
    simp only [Entry.link, ptr_node]
    rw [hfind, ok_bind, hrun, ok_bind]
    dsimp only
    rw [check_pos rfl, ok_bind, pure_eq_ok]
  · have hmap : ((r.rebalance path').map (replace e.ptr c.key c.interval)).inorder =
        pre ++ ⟨e.ptr, c.key, c.interval⟩ :: post := by
      rw [inorder_map, hinorder₁, hd₁.map_replace]
    have hpairs : ((r.rebalance path').map (replace e.ptr c.key c.interval)).inorder.map Entry.pair =
        (pre ++ c :: post).map Entry.pair := by
      rw [hmap, List.map_append, List.map_cons, List.map_append, List.map_cons]
      rfl
    refine ⟨⟨?_, ?_, balanced_map _ hbal₁, ?_⟩, ⟨pre, c :: post, hinorder, hpairs⟩, ?_, ?_, fun p hp => ?_⟩
    · rw [hswap]
      refine hbec.holds.replace.modify_of_ne fun x hx => ?_
      rw [inorder_map, hinorder₁, List.mem_map] at hx
      obtain ⟨y, hy, rfl⟩ := hx
      rw [ptr_replace]
      exact hc y hy
    · refine Ordered.congr hpairs.symm (List.Pairwise.sublist ?_ hord)
      exact (List.Sublist.refl _).append (List.sublist_cons_self ..)
    · rw [hmap, hswap]
      change s₁.size = _
      rw [hbec.size]
      simp only [List.length_append, List.length_cons] at hsize ⊢
      omega
    · rw [hmap, hinorder]
      simp only [List.map_append, List.map_cons]
      have hperm : (c.ptr :: e.ptr :: post.map Entry.ptr).Perm (e.ptr :: c.ptr :: post.map Entry.ptr) :=
        List.Perm.swap ..
      exact List.perm_middle.symm.trans (hperm.append_left _)
    · rw [hswap, nodes_modify, if_pos rfl]
      rfl
    · rw [hinorder] at hp
      rw [hswap, nodes_modify, if_neg fun h => hp c (by simp) h.symm, nodes_modify,
        if_neg fun h => hp e (by simp) h.symm, hbec.frame p fun x hx => hp x ?_]
      rw [← hbec.inorder, hinorder₁] at hx
      simp only [List.mem_append, List.mem_cons] at hx ⊢
      tauto

theorem removeFromTree_sat (hs : Holds s T) (hord : Ordered T.inorder) (hbal : HeightBalanced T)
    (hsize : s.size + 1 = T.inorder.length) (he : e ∈ T.inorder) :
    ∃ s' T' q, removeFromTree 2 s e.ptr = .ok (s', q) ∧ Removed s T e s' T' q := by
  obtain ⟨l, h, r, path, hT⟩ := exists_zip he []
  rw [zip] at hT
  subst hT
  rcases l with _ | ⟨l₁, a, k, l₂⟩
  · obtain ⟨s', hrun, hu⟩ := removeFromTree_right 1 hs hord hbal (length_le_size hsize)
    have hinorder : ((node .nil e h r).zip path).inorder = before path ++ e :: (r.inorder ++ after path) := by
      simp [inorder_zip, inorder]
    exact ⟨s', _, e.ptr, hrun, hu.removed hs hord hsize hinorder (by simp [inorder_zip])⟩
  rcases r with _ | ⟨r₁, b, m, r₂⟩
  · obtain ⟨s', hrun, hu⟩ := removeFromTree_left 1 hs hord hbal (length_le_size hsize)
    have hinorder : ((node (.node l₁ a k l₂) e h .nil).zip path).inorder =
        (before path ++ (node l₁ a k l₂).inorder) ++ e :: after path := by
      simp [inorder_zip, inorder]
    exact ⟨s', _, e.ptr, hrun, hu.removed hs hord hsize hinorder (by simp [inorder_zip])⟩
  · exact removeFromTree_both hs hord hbal hsize

theorem remove_sat (hs : Valid s T) (he : e ∈ T.inorder) :
    ∃ s' T' q, s.remove e.ptr = .ok (s', q) ∧ Removed s T e s' T' q := by
  have hs₁ : Holds { s with size := s.size - 1 } T := ⟨hs.holds.rep, hs.holds.root, hs.holds.distinct⟩
  have hsize := hs.size
  have hpos := List.length_pos_of_mem he
  obtain ⟨s', T', q, hrun, hr⟩ := removeFromTree_sat hs₁ hs.ordered hs.balanced (by dsimp only; omega) he
  exact ⟨s', T', q, hrun, hr.valid, hr.entries, hr.ptrs, hr.returned, hr.frame⟩

end Remove

end IntervalTree

end Graphite.Contention
