import Graphite.Contention.IntervalTree

/-! # The tree behind the pointers

The nodes that the pointers of an interval tree reach form a tree, and the functions on nodes rotate
and rebalance it. The comparisons of keys that decide to which side a subtree is attached are right as
long as the keys are ordered.
-/

namespace Graphite.Contention

open Outcome AvlTree HTree

/-- What a node holds, and its address. -/
structure Entry where
  ptr : ℕ
  key : ℕ
  interval : Interval
  deriving DecidableEq, Repr

def Entry.pair (e : Entry) : ℕ × Interval := (e.key, e.interval)

def Node.pair (n : Node) : ℕ × Interval := (n.key, n.interval)

/-- The node of an entry, with `near` on the side `s`. -/
def Entry.link (e : Entry) (s : Side) (parent near far : Option ℕ) (height : ℕ) : Node :=
  match s with
  | .left => ⟨parent, near, far, height, e.key, e.interval⟩
  | .right => ⟨parent, far, near, height, e.key, e.interval⟩

namespace IntervalTree

section Links

variable {e : Entry} {s : Side} {parent near far q : Option ℕ} {h : ℕ}

@[simp] theorem key_link : (e.link s parent near far h).key = e.key := by
  cases s <;> rfl

@[simp] theorem parent_link : (e.link s parent near far h).parent = parent := by
  cases s <;> rfl

@[simp] theorem height_link : (e.link s parent near far h).height = h := by
  cases s <;> rfl

@[simp] theorem child_link : (e.link s parent near far h).child s = near := by
  cases s <;> rfl

@[simp] theorem child_flip_link : (e.link s parent near far h).child s.flip = far := by
  cases s <;> rfl

@[simp] theorem setChild_link : (e.link s parent near far h).setChild s q = e.link s parent q far h := by
  cases s <;> rfl

@[simp] theorem setChild_flip_link :
    (e.link s parent near far h).setChild s.flip q = e.link s parent near q h := by
  cases s <;> rfl

@[simp] theorem setParent_link : (e.link s parent near far h).setParent q = e.link s q near far h := by
  cases s <;> rfl

@[simp] theorem setHeight_link {k : ℕ} :
    (e.link s parent near far h).setHeight k = e.link s parent near far k := by
  cases s <;> rfl

@[simp] theorem interval_link : (e.link s parent near far h).interval = e.interval := by
  cases s <;> rfl

theorem setPair_link (a : Entry) :
    (e.link s parent near far h).setPair a.key a.interval = a.link s parent near far h := by
  cases s <;> rfl

end Links

def ptr : HTree Entry → Option ℕ
  | .nil => none
  | .node _ e _ _ => some e.ptr

def parentPtr : UpPath Entry → Option ℕ
  | [] => none
  | f :: _ => some f.value.ptr

/-- The pointers from and to the nodes of a tree are as in the tree. -/
def Rep (nodes : ℕ → Node) (parent : Option ℕ) : HTree Entry → Prop
  | .nil => True
  | .node l e h r => nodes e.ptr = e.link .left parent (ptr l) (ptr r) h ∧
      Rep nodes (some e.ptr) l ∧ Rep nodes (some e.ptr) r

/-- The same for the nodes that are not below `child`. -/
def RepAbove (nodes : ℕ → Node) (child : Option ℕ) : UpPath Entry → Prop
  | [] => True
  | f :: path => nodes f.value.ptr = f.value.link f.side (parentPtr path) child (ptr f.other) f.height ∧
      Rep nodes (some f.value.ptr) f.other ∧ RepAbove nodes (some f.value.ptr) path

def Distinct (l : List Entry) : Prop := l.Pairwise fun a b => a.ptr ≠ b.ptr

theorem Distinct.perm {l l' : List Entry} (h : Distinct l) (hp : l.Perm l') : Distinct l' :=
  (hp.pairwise_iff fun {_ _} h => Ne.symm h).mp h

def around (path : UpPath Entry) : List Entry := before path ++ after path

section Orders

variable {t near far : HTree Entry} {e : Entry} {h : ℕ} {side : Side}

theorem inorder_build_perm : (build side near e h far).inorder.Perm (e :: (near.inorder ++ far.inorder)) := by
  cases side with
  | left => exact List.perm_middle
  | right => exact List.perm_middle.trans (List.perm_append_comm.cons e)

theorem around_cons (f : Frame Entry) (path : UpPath Entry) :
    (around (f :: path)).Perm (f.value :: (f.other.inorder ++ around path)) := by
  simp only [around, before, after]
  cases f.side with
  | left =>
    simp only [List.append_nil, List.cons_append]
    refine List.perm_middle.trans (List.Perm.cons _ ?_)
    rw [← List.append_assoc, ← List.append_assoc]
    exact List.perm_append_comm.append_right _
  | right =>
    simp only [List.nil_append, List.append_assoc, List.cons_append]
    rw [← List.append_assoc]
    refine List.perm_middle.trans (List.Perm.cons _ ?_)
    rw [← List.append_assoc]
    exact List.perm_append_comm.append_right _

theorem mem_around_cons {f : Frame Entry} {path : UpPath Entry} :
    e ∈ around (f :: path) ↔ e = f.value ∨ e ∈ f.other.inorder ∨ e ∈ around path := by
  rw [(around_cons f path).mem_iff, List.mem_cons, List.mem_append]

theorem inorder_zip_perm (t : HTree Entry) (path : UpPath Entry) :
    (t.zip path).inorder.Perm (t.inorder ++ around path) := by
  rw [inorder_zip, around, ← List.append_assoc]
  exact List.perm_append_comm.append_right _

theorem inorder_build_zip_perm (path : UpPath Entry) : ((build side near e h far).zip path).inorder.Perm
    (e :: (near.inorder ++ (far.inorder ++ around path))) := by
  refine (inorder_zip_perm _ path).trans ((inorder_build_perm.append_right _).trans ?_)
  simp

end Orders

section Rep

variable {nodes nodes' : ℕ → Node} {parent child : Option ℕ} {t near far : HTree Entry} {e : Entry} {h : ℕ}
  {side : Side} {path : UpPath Entry} {g : Entry → Entry}

@[simp] theorem ptr_nil : ptr .nil = none := rfl

@[simp] theorem ptr_node : ptr (.node near e h far) = some e.ptr := rfl

@[simp] theorem ptr_build : ptr (.build side near e h far) = some e.ptr := by
  cases side <;> rfl

theorem rep_build : Rep nodes parent (.build side near e h far) ↔
    nodes e.ptr = e.link side parent (ptr near) (ptr far) h ∧
      Rep nodes (some e.ptr) near ∧ Rep nodes (some e.ptr) far := by
  cases side with
  | left => rfl
  | right => exact and_congr_right fun _ => and_comm

theorem rep_zip : Rep nodes none (t.zip path) ↔
    Rep nodes (parentPtr path) t ∧ RepAbove nodes (ptr t) path := by
  suffices hall : ∀ t, Rep nodes none (t.zip path) ↔ Rep nodes (parentPtr path) t ∧
      RepAbove nodes (ptr t) path from hall t
  induction path with
  | nil => simp [zip, parentPtr, RepAbove]
  | cons f path ih =>
    intro t
    rw [zip, ih, attach, rep_build, ptr_build, RepAbove, parentPtr]
    tauto

theorem rep_congr (ht : Rep nodes parent t) (heq : ∀ e ∈ t.inorder, nodes' e.ptr = nodes e.ptr) :
    Rep nodes' parent t := by
  induction t generalizing parent with
  | nil => trivial
  | node l e h r ihl ihr =>
    obtain ⟨he, hl, hr⟩ := ht
    simp only [inorder, List.mem_append, List.mem_cons] at heq
    exact ⟨(heq e (.inr (.inl rfl))).trans he, ihl hl fun e he => heq e (.inl he),
      ihr hr fun e he => heq e (.inr (.inr he))⟩

theorem rep_reparent (ht : Rep nodes parent t) (hd : Distinct t.inorder) {q : Option ℕ}
    (hroot : ∀ p, ptr t = some p → nodes' p = (nodes p).setParent q)
    (hrest : ∀ e ∈ t.inorder, ptr t ≠ some e.ptr → nodes' e.ptr = nodes e.ptr) : Rep nodes' q t := by
  cases t with
  | nil => trivial
  | node l e h r =>
    obtain ⟨he, hl, hr⟩ := ht
    simp only [Distinct, inorder, List.pairwise_append, List.pairwise_cons, List.mem_cons] at hd
    simp only [inorder, List.mem_append, List.mem_cons, ptr, ne_eq, Option.some.injEq] at hrest
    refine ⟨?_, rep_congr hl fun a ha => ?_, rep_congr hr fun a ha => ?_⟩
    · rw [hroot e.ptr rfl, he, setParent_link]
    · exact hrest a (.inl ha) fun heq => hd.2.2 a ha e (.inl rfl) heq.symm
    · exact hrest a (.inr (.inr ha)) fun heq => hd.2.1.1 a ha heq

theorem ptr_map (hptr : ∀ e, (g e).ptr = e.ptr) : ptr (t.map g) = ptr t := by
  cases t with
  | nil => rfl
  | node => exact congrArg some (hptr _)

theorem rep_map (ht : Rep nodes parent t) (hptr : ∀ e, (g e).ptr = e.ptr)
    (hg : ∀ e ∈ t.inorder, nodes' e.ptr = (nodes e.ptr).setPair (g e).key (g e).interval) :
    Rep nodes' parent (t.map g) := by
  induction t generalizing parent with
  | nil => trivial
  | node l e h r ihl ihr =>
    obtain ⟨he, hl, hr⟩ := ht
    simp only [inorder, List.mem_append, List.mem_cons] at hg
    refine ⟨?_, ?_, ?_⟩
    · rw [hptr, hg e (.inr (.inl rfl)), he, setPair_link, ptr_map hptr, ptr_map hptr]
    · rw [hptr]
      exact ihl hl fun a ha => hg a (.inl ha)
    · rw [hptr]
      exact ihr hr fun a ha => hg a (.inr (.inr ha))

theorem repAbove_congr (hp : RepAbove nodes child path)
    (heq : ∀ e ∈ around path, nodes' e.ptr = nodes e.ptr) : RepAbove nodes' child path := by
  induction path generalizing child with
  | nil => trivial
  | cons f path ih =>
    obtain ⟨hf, hother, hp⟩ := hp
    simp only [mem_around_cons] at heq
    exact ⟨(heq _ (.inl rfl)).trans hf, rep_congr hother fun e he => heq e (.inr (.inl he)),
      ih hp fun e he => heq e (.inr (.inr he))⟩

theorem repAbove_relink (hp : RepAbove nodes child path) (hd : Distinct (around path)) {q : Option ℕ}
    (hparent : ∀ f, path.head? = some f → nodes' f.value.ptr = (nodes f.value.ptr).setChild f.side q)
    (hrest : ∀ e ∈ around path, parentPtr path ≠ some e.ptr → nodes' e.ptr = nodes e.ptr) :
    RepAbove nodes' q path := by
  cases path with
  | nil => trivial
  | cons f path =>
    obtain ⟨hf, hother, hp⟩ := hp
    have hne := (List.pairwise_cons.mp (hd.perm (around_cons f path))).1
    simp only [mem_around_cons, parentPtr, ne_eq, Option.some.injEq] at hrest
    refine ⟨?_, rep_congr hother fun e he => ?_, repAbove_congr hp fun e he => ?_⟩
    · rw [hparent f rfl, hf, setChild_link]
    · exact hrest e (.inr (.inl he)) (hne e (List.mem_append_left _ he))
    · exact hrest e (.inr (.inr he)) (hne e (List.mem_append_right _ he))

end Rep

/-- The pointers of `s` form the tree `T`. -/
structure Holds (s : IntervalTree) (T : HTree Entry) : Prop where
  rep : Rep s.nodes none T
  root : s.root = ptr T
  distinct : Distinct T.inorder

/-- From `s`, which holds the entries `l`, to `s'` with the tree `T`: other nodes are not touched. -/
structure Becomes (s : IntervalTree) (l : List Entry) (s' : IntervalTree) (T : HTree Entry) : Prop where
  holds : Holds s' T
  inorder : T.inorder = l
  size : s'.size = s.size
  frame : ∀ p, (∀ e ∈ l, e.ptr ≠ p) → s'.nodes p = s.nodes p

section Primitives

variable {s : IntervalTree} {path : UpPath Entry} {p : ℕ} {t : HTree Entry}

theorem nodes_modify (p q : ℕ) (f : Node → Node) :
    (s.modify q f).nodes p = if p = q then f (s.nodes p) else s.nodes p := by
  simp only [modify, Function.update_apply]
  split
  · next h => rw [h]
  · rfl

theorem modify_congr {f g : Node → Node} (h : f (s.nodes p) = g (s.nodes p)) :
    s.modify p f = s.modify p g := by
  rw [modify, modify, h]

theorem nodes_updateParentPointer (node parent : Option ℕ) (p : ℕ) :
    (s.updateParentPointer node parent).nodes p =
      if node = some p then (s.nodes p).setParent parent else s.nodes p := by
  cases node with
  | none => simp [updateParentPointer, apply_ite IntervalTree.nodes]
  | some q =>
    simp only [updateParentPointer, apply_ite IntervalTree.nodes, ite_self, nodes_modify,
      Option.some.injEq, eq_comm]

theorem root_updateParentPointer (node parent : Option ℕ) :
    (s.updateParentPointer node parent).root = if parent = none then node else s.root := by
  cases node <;> simp only [updateParentPointer, modify, apply_ite IntervalTree.root]

theorem size_updateParentPointer (node parent : Option ℕ) :
    (s.updateParentPointer node parent).size = s.size := by
  cases node <;> simp only [updateParentPointer, modify, apply_ite IntervalTree.size, ite_self]

/-- The child `c` of a parent, on the side that the keys give. -/
def relink (s : IntervalTree) (node : Option ℕ) (c : ℕ) : IntervalTree :=
  { s with nodes := fun p =>
      if node = some p then
        (s.nodes p).setChild (if (s.nodes p).key < (s.nodes c).key then .right else .left) (some c)
      else s.nodes p }

theorem updateChildPointer_eq (node : Option ℕ) (c : ℕ) :
    s.updateChildPointer node (some c) none = .ok (s.relink node c) := by
  cases node with
  | none => simp [updateChildPointer, relink]
  | some q =>
    simp only [updateChildPointer, relink, pure_eq_ok, Except.ok.injEq, IntervalTree.mk.injEq, and_true, modify]
    funext p
    by_cases h : p = q
    · subst h
      simp
    · simp [h, Ne.symm h]

theorem getHeight_congr {s' : IntervalTree} {q : Option ℕ}
    (h : ∀ p, q = some p → (s'.nodes p).height = (s.nodes p).height) : s'.getHeight q = s.getHeight q := by
  cases q with
  | none => rfl
  | some p => exact h p rfl

theorem height_setChild (n : Node) (side : Side) (q : Option ℕ) : (n.setChild side q).height = n.height := by
  cases side <;> rfl

theorem maxHeight_link (e : Entry) (side : Side) (parent near far : Option ℕ) (h : ℕ) :
    max (s.getHeight (e.link side parent near far h).left) (s.getHeight (e.link side parent near far h).right) =
      max (s.getHeight near) (s.getHeight far) := by
  cases side with
  | left => rfl
  | right => exact Nat.max_comm ..

theorem exists_of_ptr (h : ptr t = some p) : ∃ e ∈ t.inorder, e.ptr = p := by
  cases t with
  | nil => cases h
  | node l e k r => exact ⟨e, by simp [inorder], Option.some.inj h⟩

theorem exists_of_parentPtr (h : parentPtr path = some p) : ∃ e ∈ around path, e.ptr = p := by
  cases path with
  | nil => cases h
  | cons f path => exact ⟨f.value, mem_around_cons.mpr (.inl rfl), Option.some.inj h⟩

theorem ptr_zip_congr {t t' : HTree Entry} (h : ptr t = ptr t') (path : UpPath Entry) :
    ptr (t.zip path) = ptr (t'.zip path) := by
  induction path generalizing t t' with
  | nil => exact h
  | cons f path ih => exact ih (by rw [attach, attach, ptr_build, ptr_build])

theorem ptr_zip_cons {t t' : HTree Entry} {f : Frame Entry} :
    ptr (t.zip (f :: path)) = ptr (t'.zip (f :: path)) :=
  ptr_zip_congr (by rw [attach, attach, ptr_build, ptr_build]) path

theorem ptr_ne (h : ∀ e ∈ t.inorder, e.ptr ≠ p) : ptr t ≠ some p := by
  intro heq
  obtain ⟨e, he, rfl⟩ := exists_of_ptr heq
  exact h e he rfl

theorem parentPtr_ne (h : ∀ e ∈ around path, e.ptr ≠ p) : parentPtr path ≠ some p := by
  intro heq
  obtain ⟨e, he, rfl⟩ := exists_of_parentPtr heq
  exact h e he rfl

theorem getHeight_ptr {parent : Option ℕ} (h : Rep s.nodes parent t) :
    s.getHeight (ptr t) = t.height := by
  cases t with
  | nil => rfl
  | node l e k r => rw [ptr, getHeight, h.1, height_link, height]

end Primitives

end IntervalTree

end Graphite.Contention
