import Graphite.Contention.Representation

/-! # Rotations and rebalancing on pointers

A rotation of the nodes is a rotation of the tree behind them. It finds the side of the
parent by a comparison of keys, which is the right side because the keys are ordered.
-/

namespace Graphite.Contention

namespace IntervalTree

open Outcome AvlTree List HTree

section Rotation

variable {s : IntervalTree} {side : Side} {x y : Entry} {hx hy : ℕ} {parent a b c : Option ℕ}

/-- The nodes after a rotation that lifts `x` over `y`. -/
def rotated (s : IntervalTree) (side : Side) (x y : Entry) (parent a b c : Option ℕ) (p : ℕ) : Node :=
  let height := max (s.getHeight b) (s.getHeight c) + 1
  if p = x.ptr then x.link side parent a (some y.ptr) (max (s.getHeight a) height + 1)
  else if p = y.ptr then y.link side (some x.ptr) b c height
  else if some p = b then (s.nodes p).setParent (some y.ptr)
  else if some p = parent then
    (s.nodes p).setChild (if (s.nodes p).key < x.key then .right else .left) (some x.ptr)
  else s.nodes p

theorem performRotation_eq (hX : s.nodes x.ptr = x.link side (some y.ptr) a b hx)
    (hY : s.nodes y.ptr = y.link side parent (some x.ptr) c hy) (hxy : x.ptr ≠ y.ptr)
    (hpx : parent ≠ some x.ptr) (hpy : parent ≠ some y.ptr)
    (ha : a ≠ some x.ptr ∧ a ≠ some y.ptr) (hb : b ≠ some x.ptr ∧ b ≠ some y.ptr)
    (hc : c ≠ some x.ptr ∧ c ≠ some y.ptr) (hbp : ∀ p, b = some p → parent ≠ some p) :
    s.performRotation y.ptr side = .ok ⟨rotated s side x y parent a b c,
      if parent = none then some x.ptr else s.root, s.size⟩ := by
  unfold performRotation
  rw [hY, child_link]
  dsimp only
  rw [parent_link]
  generalize hs₁ : s.updateParentPointer (some x.ptr) parent = s₁
  have hnodes₁ : ∀ p, s₁.nodes p = if p = x.ptr then x.link side parent a b hx else s.nodes p := by
    intro p
    rw [← hs₁, nodes_updateParentPointer]
    by_cases h : p = x.ptr
    · subst h
      simp [hX]
    · simp [h, Ne.symm h]
  rw [hnodes₁ x.ptr, if_pos rfl, parent_link, updateChildPointer_eq, ok_bind]
  generalize hs₂ : s₁.relink parent x.ptr = s₂
  have hnodes₂ : ∀ p, s₂.nodes p = if p = x.ptr then x.link side parent a b hx
      else if some p = parent then
        (s.nodes p).setChild (if (s.nodes p).key < x.key then .right else .left) (some x.ptr)
      else s.nodes p := by
    intro p
    rw [← hs₂]
    simp only [relink, hnodes₁, if_true, key_link, eq_comm]
    by_cases h : p = x.ptr
    · subst h
      simp [hpx]
    · simp [h]
  rw [hnodes₂ x.ptr, if_pos rfl, child_flip_link]
  generalize hs₃ : s₂.modify y.ptr (·.setChild side b) = s₃
  have hnodes₃ : ∀ p, s₃.nodes p = if p = y.ptr then y.link side parent b c hy else s₂.nodes p := by
    intro p
    rw [← hs₃, nodes_modify, hnodes₂]
    by_cases h : p = y.ptr
    · subst h
      simp [hxy.symm, hY, hpy.symm]
    · simp [h]
  rw [hnodes₃ y.ptr, if_pos rfl, child_link]
  generalize hs₄ : s₃.updateParentPointer b (some y.ptr) = s₄
  generalize hs₅ : s₄.modify x.ptr (·.setChild side.flip (some y.ptr)) = s₅
  generalize hs₆ : s₅.updateParentPointer (some y.ptr) (some x.ptr) = s₆
  have hnodes₆ : ∀ p, s₆.nodes p = if p = x.ptr then x.link side parent a (some y.ptr) hx
      else if p = y.ptr then y.link side (some x.ptr) b c hy
      else if some p = b then (s.nodes p).setParent (some y.ptr) else s₂.nodes p := by
    intro p
    rw [← hs₆, nodes_updateParentPointer, ← hs₅, nodes_modify, ← hs₄, nodes_updateParentPointer, hnodes₃]
    by_cases h : p = x.ptr
    · subst h
      simp [hxy, Ne.symm hxy, hb.1, hnodes₂]
    · by_cases h' : p = y.ptr
      · subst h'
        simp [h, hb.2]
      · by_cases hbp' : b = some p
        · simp [h, h', Ne.symm h', hbp', hnodes₂, (hbp p hbp').symm]
        · simp [h, h', Ne.symm h', hbp', Ne.symm hbp']
  have hheight₆ : ∀ q, q ≠ some x.ptr → q ≠ some y.ptr → s₆.getHeight q = s.getHeight q := by
    intro q hqx hqy
    apply getHeight_congr
    rintro p rfl
    have hpx' : p ≠ x.ptr := fun h => hqx (by rw [h])
    have hpy' : p ≠ y.ptr := fun h => hqy (by rw [h])
    rw [hnodes₆, if_neg hpx', if_neg hpy', hnodes₂, if_neg hpx']
    split
    · rfl
    · split
      · exact height_setChild ..
      · rfl
  generalize hs₇ : s₆.updateHeight y.ptr = s₇
  have hnodes₇ : ∀ p, s₇.nodes p = if p = y.ptr then
      y.link side (some x.ptr) b c (max (s.getHeight b) (s.getHeight c) + 1) else s₆.nodes p := by
    intro p
    rw [← hs₇, updateHeight, nodes_modify, hnodes₆ y.ptr, if_neg hxy.symm, if_pos rfl, maxHeight_link,
      hheight₆ b hb.1 hb.2, hheight₆ c hc.1 hc.2]
    by_cases h : p = y.ptr
    · rw [if_pos h, if_pos h, h, hnodes₆, if_neg hxy.symm, if_pos rfl, setHeight_link]
    · rw [if_neg h, if_neg h]
  have hheight₇ : s₇.getHeight a = s.getHeight a := by
    refine (getHeight_congr ?_).trans (hheight₆ a ha.1 ha.2)
    rintro p rfl
    rw [hnodes₇, if_neg fun h => ha.2 (by rw [h])]
  have hheightY : s₇.getHeight (some y.ptr) = max (s.getHeight b) (s.getHeight c) + 1 := by
    rw [getHeight, hnodes₇, if_pos rfl, height_link]
  have hroot : s₇.root = if parent = none then some x.ptr else s.root := by
    rw [← hs₇, ← hs₆, ← hs₅, ← hs₄, ← hs₃, ← hs₂, ← hs₁]
    simp [updateHeight, modify, relink, root_updateParentPointer]
  have hsize : s₇.size = s.size := by
    rw [← hs₇, ← hs₆, ← hs₅, ← hs₄, ← hs₃, ← hs₂, ← hs₁]
    simp [updateHeight, modify, relink, size_updateParentPointer]
  rw [pure_eq_ok, Except.ok.injEq, updateHeight, modify, hroot, hsize, IntervalTree.mk.injEq]
  refine ⟨funext fun p => ?_, rfl, rfl⟩
  have hX₇ : s₇.nodes x.ptr = x.link side parent a (some y.ptr) hx := by
    rw [hnodes₇, if_neg hxy, hnodes₆, if_pos rfl]
  rw [Function.update_apply, hX₇, maxHeight_link, hheight₇, hheightY, setHeight_link, rotated]
  by_cases h : p = x.ptr
  · rw [if_pos h, if_pos h]
  · rw [if_neg h, if_neg h, hnodes₇]
    by_cases h' : p = y.ptr
    · rw [if_pos h', if_pos h']
    · rw [if_neg h', if_neg h', hnodes₆, if_neg h, if_neg h', hnodes₂, if_neg h]

/-- The entry `e` is on the side of its parent that the keys give. -/
def OnSide (path : UpPath Entry) (e : Entry) : Prop :=
  ∀ f, path.head? = some f → (if f.value.key < e.key then Side.right else .left) = f.side

theorem rotated_of_ne {p : ℕ} (hx : p ≠ x.ptr) (hy : p ≠ y.ptr)
    (hb : b ≠ some p) (hparent : parent ≠ some p) : rotated s side x y parent a b c p = s.nodes p := by
  simp [rotated, hx, hy, Ne.symm hb, Ne.symm hparent]

theorem performRotation_sat {a b c : HTree Entry} {path : UpPath Entry}
    (hs : Holds s ((HTree.build side (.build side a x hx b) y hy c).zip path)) (hside : OnSide path x) :
    ∃ s', s.performRotation y.ptr side = .ok s' ∧
      Becomes s ((HTree.build side (.build side a x hx b) y hy c).zip path).inorder s'
        ((HTree.make side a x (.make side b y c)).zip path) := by
  obtain ⟨hrep, hroot, hdistinct⟩ := hs
  have hperm : ((HTree.build side (.build side a x hx b) y hy c).zip path).inorder.Perm
      (y :: x :: (a.inorder ++ (b.inorder ++ (c.inorder ++ around path)))) := by
    refine (inorder_build_zip_perm path).trans (List.Perm.cons _ ?_)
    refine (inorder_build_perm.append_right _).trans ?_
    simp
  have hinorder : ((HTree.make side a x (.make side b y c)).zip path).inorder =
      ((HTree.build side (.build side a x hx b) y hy c).zip path).inorder :=
    inorder_zip_congr (inorder_rotate hx hy) path
  have hd := hdistinct.perm hperm
  simp only [Distinct, pairwise_cons, pairwise_append, mem_cons, mem_append,
    or_imp, forall_and, forall_eq] at hd
  obtain ⟨⟨hyx, hya, hyb, hyc, hyp⟩, ⟨hxa, hxb, hxc, hxp⟩, -, ⟨hbb, ⟨-, hpp, hcp⟩, hbc, hbp⟩, hab, -, hap⟩ := hd
  rw [rep_zip, rep_build, rep_build, ptr_build] at hrep
  obtain ⟨⟨hY, ⟨hX, hA, hB⟩, hC⟩, hP⟩ := hrep
  rw [ptr_build] at hP
  have heq := performRotation_eq hX hY hyx.symm (parentPtr_ne fun e he => (hxp e he).symm)
    (parentPtr_ne fun e he => (hyp e he).symm)
    ⟨ptr_ne fun e he => (hxa e he).symm, ptr_ne fun e he => (hya e he).symm⟩
    ⟨ptr_ne fun e he => (hxb e he).symm, ptr_ne fun e he => (hyb e he).symm⟩
    ⟨ptr_ne fun e he => (hxc e he).symm, ptr_ne fun e he => (hyc e he).symm⟩ ?_
  swap
  · intro p hp
    obtain ⟨e, he, rfl⟩ := exists_of_ptr hp
    exact parentPtr_ne fun e' he' => (hbp e he e' he').symm
  -- outside `x`, `y`, the root of `b` and the parent, nothing changes
  have hsame : ∀ e : Entry, e.ptr ≠ x.ptr → e.ptr ≠ y.ptr → (∀ e' ∈ b.inorder, e'.ptr ≠ e.ptr) →
      (∀ e' ∈ around path, e'.ptr ≠ e.ptr) →
      rotated s side x y (parentPtr path) (ptr a) (ptr b) (ptr c) e.ptr = s.nodes e.ptr :=
    fun e hex hey heb hep => rotated_of_ne hex hey (ptr_ne heb) (parentPtr_ne hep)
  refine ⟨_, heq, ⟨⟨?_, ?_, hinorder ▸ hdistinct⟩, hinorder, rfl, ?_⟩⟩
  · rw [rep_zip, HTree.make, rep_build, height_make, HTree.make, rep_build, ptr_build, ptr_build]
    refine ⟨⟨?_, rep_congr hA fun e he => ?_, ?_, ?_, rep_congr hC fun e he => ?_⟩, ?_⟩
    · dsimp only [rotated]
      rw [if_pos rfl, getHeight_ptr hA, getHeight_ptr hB, getHeight_ptr hC]
    · exact hsame e (hxa e he).symm (hya e he).symm (fun e' he' => (hab e he e' he').symm)
        fun e' he' => (hap e he e' he').symm
    · dsimp only [rotated]
      rw [if_neg hyx, if_pos rfl, getHeight_ptr hB, getHeight_ptr hC]
    · refine rep_reparent hB hbb ?_ fun e he hne => ?_
      · intro p hp
        obtain ⟨e, he, rfl⟩ := exists_of_ptr hp
        dsimp only [rotated]
        rw [if_neg (hxb e he).symm, if_neg (hyb e he).symm, if_pos hp.symm]
      · exact rotated_of_ne (hxb e he).symm (hyb e he).symm hne (parentPtr_ne fun e' he' => (hbp e he e' he').symm)
    · exact hsame e (hxc e he).symm (hyc e he).symm (fun e' he' => hbc e' he' e he)
        fun e' he' => (hcp e he e' he').symm
    · refine repAbove_relink hP hpp ?_ fun e he hne => ?_
      · intro f hf
        obtain ⟨path', rfl⟩ := head?_eq_some_iff.mp hf
        have hmem : f.value ∈ around (f :: path') := mem_around_cons.mpr (.inl rfl)
        dsimp only [rotated]
        rw [if_neg (hxp _ hmem).symm, if_neg (hyp _ hmem).symm,
          if_neg (ptr_ne fun e he => hbp e he _ hmem).symm, if_pos (by rfl), hP.1, key_link, hside f rfl]
      · exact rotated_of_ne (hxp e he).symm (hyp e he).symm (ptr_ne fun e' he' => hbp e' he' e he) hne
  · cases path with
    | nil => simp [parentPtr, HTree.zip, HTree.make]
    | cons f path =>
      rw [parentPtr, if_neg (Option.some_ne_none _), hroot]
      exact ptr_zip_cons
  · intro p hp
    simp only [hperm.mem_iff, mem_cons, mem_append, or_imp, forall_and, forall_eq] at hp
    obtain ⟨hpy, hpx, -, hpb, -, hpp'⟩ := hp
    exact rotated_of_ne hpx.symm hpy.symm (ptr_ne hpb) (parentPtr_ne hpp')

end Rotation

/-! ## Rebalancing -/

def Ordered (l : List Entry) : Prop := l.Pairwise fun a b => a.key < b.key

section Rebalancing

variable {s s' s'' : IntervalTree} {t t' near far : HTree Entry} {T : HTree Entry} {path : UpPath Entry}
  {side : Side} {e z : Entry} {h : ℕ} {l : List Entry}

theorem Ordered.onSide (hord : Ordered (t.zip path).inorder) (he : e ∈ t.inorder) : OnSide path e := by
  intro f hf
  obtain ⟨path, rfl⟩ := head?_eq_some_iff.mp hf
  rw [HTree.zip, inorder_zip, Ordered, pairwise_append, pairwise_append] at hord
  have hroot := hord.1.2.1
  rw [HTree.attach] at hroot
  cases hside : f.side with
  | left =>
    rw [hside, HTree.build, HTree.inorder, pairwise_append] at hroot
    have hlt := hroot.2.2 e he f.value mem_cons_self
    rw [if_neg (by omega)]
  | right =>
    rw [hside, HTree.build, HTree.inorder, pairwise_append, pairwise_cons] at hroot
    rw [if_pos (hroot.2.1.1 e he)]

theorem Becomes.trans (h : Becomes s l s' T) {T' : HTree Entry} (h' : Becomes s' T.inorder s'' T') :
    Becomes s l s'' T' where
  holds := h'.holds
  inorder := h'.inorder.trans h.inorder
  size := h'.size.trans h.size
  frame p hp := (h'.frame p (h.inorder ▸ hp)).trans (h.frame p hp)

section

variable (hs : Holds s ((build side near e h far).zip path))
include hs

theorem Holds.node : s.nodes e.ptr = e.link side (parentPtr path) (ptr near) (ptr far) h ∧
      s.getHeight (ptr near) = near.height ∧ s.getHeight (ptr far) = far.height := by
  obtain ⟨⟨hnode, hnear, hfar⟩, -⟩ := (rep_build.and Iff.rfl).mp (rep_zip.mp hs.rep)
  exact ⟨hnode, getHeight_ptr hnear, getHeight_ptr hfar⟩

theorem Holds.heightBalanced : s.heightBalanced e.ptr ↔ Close near.height far.height := by
  obtain ⟨hnode, hnear, hfar⟩ := hs.node
  rw [IntervalTree.heightBalanced, hnode]
  cases side with
  | left => rw [Entry.link, hnear, hfar]
  | right => rw [Entry.link, hnear, hfar, close_comm]

theorem Holds.setHeight (k : ℕ) :
    Becomes s ((build side near e h far).zip path).inorder (s.modify e.ptr (·.setHeight k))
      ((build side near e k far).zip path) := by
  obtain ⟨hrep, hroot, hdistinct⟩ := hs
  have hinorder : ((build side near e k far).zip path).inorder =
      ((build side near e h far).zip path).inorder :=
    inorder_zip_congr (by cases side <;> rfl) path
  have hne := (pairwise_cons.mp (hdistinct.perm (inorder_build_zip_perm path))).1
  simp only [mem_append] at hne
  have hsame : ∀ a : Entry, a ∈ near.inorder ∨ a ∈ far.inorder ∨ a ∈ around path →
      (s.modify e.ptr (·.setHeight k)).nodes a.ptr = s.nodes a.ptr := by
    intro a ha
    rw [nodes_modify, if_neg (hne a ha).symm]
  rw [rep_zip, rep_build, ptr_build] at hrep
  obtain ⟨⟨hnode, hnear, hfar⟩, hpath⟩ := hrep
  refine ⟨⟨?_, ?_, hinorder ▸ hdistinct⟩, hinorder, rfl, ?_⟩
  · rw [rep_zip, rep_build, ptr_build]
    refine ⟨⟨?_, rep_congr hnear fun a ha => hsame a (.inl ha), rep_congr hfar fun a ha => hsame a (.inr (.inl ha))⟩,
      repAbove_congr hpath fun a ha => hsame a (.inr (.inr ha))⟩
    rw [nodes_modify, if_pos rfl, hnode, setHeight_link]
  · exact hroot.trans (ptr_zip_congr (by rw [ptr_build, ptr_build]) path)
  · intro p hp
    rw [nodes_modify, if_neg]
    rintro rfl
    exact hp e ((inorder_build_zip_perm path).mem_iff.mpr mem_cons_self) rfl

theorem Holds.updateHeight :
    Becomes s ((build side near e h far).zip path).inorder (s.updateHeight e.ptr)
      ((make side near e far).zip path) := by
  obtain ⟨hnode, hnear, hfar⟩ := hs.node
  rw [IntervalTree.updateHeight, hnode, maxHeight_link, hnear, hfar]
  exact hs.setHeight _

end

theorem balanceHeight_side {p : ℕ} (side : Side)
    (hlt : s.getHeight ((s.nodes p).child side.flip) < s.getHeight ((s.nodes p).child side)) :
    s.balanceHeight p = s.liftChild p side := by
  unfold balanceHeight
  dsimp only
  cases side with
  | left =>
    rw [Side.flip] at hlt
    rw [check_pos (Nat.ne_of_gt hlt), if_pos hlt]
    rfl
  | right =>
    rw [Side.flip] at hlt
    rw [check_pos (Nat.ne_of_lt hlt), if_neg (Nat.not_lt_of_lt hlt)]
    rfl

theorem ptr_ne_none (h : 0 < t.height) : ptr t ≠ none := by
  cases t with
  | nil => exact absurd h (Nat.lt_irrefl 0)
  | node => exact Option.some_ne_none _

theorem liftChild_sat (hs : Holds s ((build side near z h far).zip path))
    (hord : Ordered ((build side near z h far).zip path).inorder) (hn : HeightBalanced near)
    (hgap : near.height = far.height + 2) : ∃ s' q, s.liftChild z.ptr side = .ok (s', q) ∧
      ptr (lift side near z h far) = some q ∧
      Becomes s ((build side near z h far).zip path).inorder s' ((lift side near z h far).zip path) := by
  obtain ⟨a, y, b, heq, -, hb, hclose, hheight⟩ := exists_build side hn (by omega)
  unfold Close at hclose
  generalize near.height = k at *
  subst heq
  have hz := hs.node.1
  have hs' : Holds s ((build side a y k b).zip (⟨side, z, h, far⟩ :: path)) := hs
  obtain ⟨hy, ha', hb'⟩ := hs'.node
  rw [ptr_build] at hz
  unfold liftChild
  simp only [hz, child_link, hy, child_flip_link, ha', hb']
  rw [lift, leansIn_build]
  by_cases hlean : a.height < b.height
  · obtain ⟨p, x, q, heq, -, -, -, -⟩ := exists_build side.flip hb (by omega)
    generalize b.height = k' at *
    subst heq
    rw [if_pos hlean, if_pos (decide_eq_true hlean), ptr_build, rotate_flip_build, rotate_build]
    dsimp only
    -- the child on the inner side comes up below `z`
    have hinner : (build side (.build side a y k (.build side.flip p x k' q)) z h far).zip path =
        (build side.flip (.build side.flip p x k' q) y k a).zip (⟨side, z, h, far⟩ :: path) := by
      have hflip : build side.flip (.build side.flip p x k' q) y k a =
          .build side a y k (.build side.flip p x k' q) := build_flip
      rw [hflip]
      rfl
    rw [hinner] at hs hord ⊢
    obtain ⟨s₁, hrot₁, hbec₁⟩ := performRotation_sat hs (hord.onSide (by simp))
    have hs₁ := hbec₁.holds
    have hord₁ := hord
    rw [← hbec₁.inorder] at hord₁
    -- then it comes up above `z`
    have houter : (make side.flip p x (.make side.flip q y a)).zip (⟨side, z, h, far⟩ :: path) =
        (build side (.build side (.make side.flip q y a) x
          (max p.height (make side.flip q y a).height + 1) p) z h far).zip path := by
      rw [make, build_flip]
      rfl
    rw [houter] at hs₁ hord₁ hbec₁
    obtain ⟨s₂, hrot₂, hbec₂⟩ := performRotation_sat hs₁ (hord₁.onSide (by simp))
    exact ⟨s₂, x.ptr, by rw [hrot₁, ok_bind, hrot₂]; rfl, ptr_build, hbec₁.trans hbec₂⟩
  · rw [if_neg hlean, if_neg (by simpa using hlean), rotate_build]
    rw [check_pos (ptr_ne_none (by omega))]
    obtain ⟨s', hrot, hbec⟩ := performRotation_sat hs (hord.onSide (by simp))
    exact ⟨s', y.ptr, by rw [hrot]; rfl, ptr_build, hbec⟩

theorem rebalanceNode_sat {f : Frame Entry} (hs : Holds s (t.zip (f :: path)))
    (hord : Ordered (t.zip (f :: path)).inorder) (ht : Loose h (f :: path) t) :
    ∃ s' q, s.rebalanceNode f.value.ptr = .ok (s', q) ∧ ptr (HTree.rebalanceNode (t.attach f)) = some q ∧
      Becomes s (t.zip (f :: path)).inorder s' ((HTree.rebalanceNode (t.attach f)).zip path) := by
  obtain ⟨l, r, hattach, hl, hr, -, -, hgap⟩ := ht.children
  rw [HTree.zip, hattach] at hs hord ⊢
  have hsl : Holds s ((HTree.build .left l f.value f.height r).zip path) := hs
  have hsr : Holds s ((HTree.build .right r f.value f.height l).zip path) := hs
  have hbal := hsl.heightBalanced
  rw [IntervalTree.rebalanceNode, HTree.rebalanceNode]
  by_cases hc : Close l.height r.height
  · rw [if_pos (hbal.mpr hc), if_pos hc]
    exact ⟨_, _, rfl, ptr_build, hsl.updateHeight⟩
  · rw [if_neg (hbal.not.mpr hc), if_neg hc]
    unfold Close at hc
    split
    · next hlt =>
      obtain ⟨hnode, hleft, hright⟩ := hsl.node
      rw [balanceHeight_side .left (by simpa [hnode, hleft, hright])]
      exact liftChild_sat hsl hord hl (by omega)
    · next hge =>
      obtain ⟨hnode, hright, hleft⟩ := hsr.node
      have hlt : l.height < r.height := by omega
      rw [balanceHeight_side .right (by simpa [hnode, hleft, hright])]
      exact liftChild_sat hsr hord hr (by omega)

theorem rebalanceAVLTree_sat {fuel : ℕ} (hs : Holds s (t.zip path)) (hord : Ordered (t.zip path).inorder)
    (ht : Loose h path t) (hfuel : path.length ≤ fuel) :
    ∃ s', rebalanceAVLTree fuel s (parentPtr path) = .ok s' ∧
      Becomes s (t.zip path).inorder s' (t.rebalance path) := by
  induction path generalizing s t h fuel with
  | nil =>
    refine ⟨s, ?_, hs, rfl, rfl, fun p _ => rfl⟩
    cases fuel <;> rfl
  | cons f path ih =>
    obtain ⟨fuel, rfl⟩ := Nat.exists_eq_add_of_le' hfuel
    obtain ⟨s₁, q, hnode, hq, hbec⟩ := rebalanceNode_sat hs hord ht
    obtain ⟨hstep, hpos, hinorder⟩ := ht.step
    have hold : (s.nodes f.value.ptr).height = f.height := by
      rw [(Holds.node (by exact hs)).1, height_link]
    rw [parentPtr, length_cons, ← Nat.add_assoc, rebalanceAVLTree, hnode, ok_bind, hold, rebalance]
    dsimp only
    generalize HTree.rebalanceNode (t.attach f) = root at *
    obtain ⟨near, a, far, hroot, -, -, hclose, -⟩ := exists_build .left hstep.balanced hpos
    have hs₁ := hbec.holds
    rw [hroot] at hs₁
    obtain rfl : q = a.ptr := by
      rw [hroot, ptr_build] at hq
      exact (Option.some.inj hq).symm
    rw [check_pos (hs₁.heightBalanced.mpr hclose), hs₁.node.1, height_link, parent_link]
    by_cases hchange : root.height ≠ f.height
    · rw [if_pos hchange, if_pos hchange]
      obtain ⟨s', hrun, hbec'⟩ := ih hbec.holds (hbec.inorder ▸ hord) hstep (Nat.le_add_left ..)
      exact ⟨s', hrun, hbec.trans hbec'⟩
    · rw [if_neg hchange, if_neg hchange]
      exact ⟨s₁, rfl, hbec⟩

end Rebalancing

end IntervalTree

end Graphite.Contention
