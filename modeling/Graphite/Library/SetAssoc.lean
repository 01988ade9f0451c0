import Mathlib.Data.Nat.Notation
import Mathlib.Logic.Function.Basic

/-! # Set-associative stores

A store keeps lines in the ways of numbered sets; the geometry fixes the set of a key and the number
of ways. A key is looked up from the last way of its set to the first. As long as every line sits in
the set of its tag and no set holds a tag twice, the store is a partial map from keys to lines, `get`,
and the lemmas say how overwriting a way changes it.
-/

namespace SetAssoc

open Option

variable {κ ι δ : Type*}

/-- The set of each key, and the number of ways of a set. -/
structure Geometry (κ : Type*) where
  set : κ → ℕ
  ways : ℕ

/-- A valid line: its tag, its metadata and its contents. -/
structure Line (κ ι δ : Type*) where
  tag : κ
  info : ι
  data : δ

/-- The ways of the sets; an invalid way is `none`. -/
abbrev Store (κ ι δ : Type*) := ℕ → ℕ → Option (Line κ ι δ)

def empty : Store κ ι δ := fun _ _ => none

variable [DecidableEq κ] (g : Geometry κ)

/-- The way of the set of `k` that holds `k`. -/
def find (c : Store κ ι δ) (k : κ) : Option ℕ :=
  (List.range g.ways).reverse.find? fun w => (c (g.set k) w).any fun l => l.tag = k

def get (c : Store κ ι δ) (k : κ) : Option (Line κ ι δ) :=
  (find g c k).bind (c (g.set k))

/-- Overwrites way `w` of the set of `k`. -/
def put (c : Store κ ι δ) (k : κ) (w : ℕ) (l : Option (Line κ ι δ)) : Store κ ι δ :=
  Function.update c (g.set k) (Function.update (c (g.set k)) w l)

/-- Overwrites the way that holds `k`, if there is one. -/
def assign (c : Store κ ι δ) (k : κ) (l : Option (Line κ ι δ)) : Store κ ι δ :=
  match find g c k with
  | none => c
  | some w => put g c k w l

/-- Every line is in the set of its tag, and no set holds a tag twice. -/
structure Placed (c : Store κ ι δ) : Prop where
  set_tag : ∀ {s w l}, c s w = some l → g.set l.tag = s
  way_unique : ∀ {s w w' l l'}, w < g.ways → w' < g.ways → c s w = some l → c s w' = some l' →
    l.tag = l'.tag → w = w'

variable {g} {c : Store κ ι δ} {k k' : κ} {l : Line κ ι δ} {w : ℕ}

omit [DecidableEq κ] in
theorem placed_empty : Placed g (empty : Store κ ι δ) where
  set_tag h := by simp [empty] at h
  way_unique _ _ h := by simp [empty] at h

@[simp] theorem get_empty : get g (empty : Store κ ι δ) k = none := by
  simp [get, empty]

theorem find_eq_some (h : find g c k = some w) :
    w < g.ways ∧ ∃ l, c (g.set k) w = some l ∧ l.tag = k := by
  have hw := List.mem_of_find?_eq_some h
  have hk := List.find?_some h
  simp only [any_eq_true, decide_eq_true_eq] at hk
  exact ⟨by simpa using hw, hk⟩

theorem find_eq_none (h : find g c k = none) (hw : w < g.ways) (hl : c (g.set k) w = some l) :
    l.tag ≠ k := by
  intro hk
  have := List.find?_eq_none.mp h w (by simpa using hw)
  simp [hl, hk] at this

theorem get_eq_some (h : get g c k = some l) :
    l.tag = k ∧ ∃ w < g.ways, c (g.set k) w = some l ∧ find g c k = some w := by
  obtain ⟨w, hf, hl⟩ := bind_eq_some_iff.mp h
  obtain ⟨hw, l', hl', hk⟩ := find_eq_some hf
  obtain rfl : l' = l := by simpa [hl] using hl'.symm
  exact ⟨hk, w, hw, hl, hf⟩

theorem find_eq_none_iff : find g c k = none ↔ get g c k = none := by
  constructor
  · intro h; simp [get, h]
  · intro h
    cases hf : find g c k with
    | none => rfl
    | some w =>
      obtain ⟨_, l, hl, _⟩ := find_eq_some hf
      simp [get, hf, hl] at h

theorem Placed.find_of_way (h : Placed g c) (hw : w < g.ways) (hl : c (g.set k) w = some l)
    (hk : l.tag = k) : find g c k = some w := by
  cases hf : find g c k with
  | none => exact absurd hk (find_eq_none hf hw hl)
  | some w' =>
    obtain ⟨hw', l', hl', hk'⟩ := find_eq_some hf
    rw [h.way_unique hw hw' hl hl' (hk.trans hk'.symm)]

theorem Placed.get_of_way (h : Placed g c) (hw : w < g.ways) (hl : c (g.set k) w = some l)
    (hk : l.tag = k) : get g c k = some l := by
  simp [get, h.find_of_way hw hl hk, hl]

/-- A store in which the ways of `k`'s set agree with `c` on the lines of tag `k` looks the same. -/
theorem Placed.get_congr {c' : Store κ ι δ} (h : Placed g c) (h' : Placed g c')
    (hc : ∀ w < g.ways, ∀ l, l.tag = k → (c' (g.set k) w = some l ↔ c (g.set k) w = some l)) :
    get g c' k = get g c k := by
  cases hg : get g c k with
  | some l =>
    obtain ⟨hk, w, hw, hl, _⟩ := get_eq_some hg
    exact h'.get_of_way hw ((hc w hw l hk).mpr hl) hk
  | none =>
    cases hg' : get g c' k with
    | none => rfl
    | some l =>
      obtain ⟨hk, w, hw, hl, _⟩ := get_eq_some hg'
      rw [h.get_of_way hw ((hc w hw l hk).mp hl) hk] at hg
      exact hg

omit [DecidableEq κ] in
theorem put_apply (s w' : ℕ) (x : Option (Line κ ι δ)) :
    put g c k w x s w' = if s = g.set k ∧ w' = w then x else c s w' := by
  by_cases hs : s = g.set k
  · subst hs
    by_cases hw : w' = w
    · simp [put, hw]
    · simp [put, hw]
  · simp [put, hs]

omit [DecidableEq κ] in
/-- Overwriting a way with nothing, or with a line whose tag is nowhere else, keeps the store a map. -/
theorem Placed.put (h : Placed g c) (x : Option (Line κ ι δ)) (hx : ∀ l ∈ x, l.tag = k)
    (hk : ∀ w' < g.ways, w' ≠ w → ∀ l, c (g.set k) w' = some l → l.tag ≠ k) :
    Placed g (put g c k w x) where
  set_tag {s w' l} hl := by
    rw [put_apply] at hl
    split at hl
    · next hs => rw [hx l hl, hs.1]
    · exact h.set_tag hl
  way_unique {s w₁ w₂ l₁ l₂} h₁ h₂ hl₁ hl₂ ht := by
    rw [put_apply] at hl₁ hl₂
    split at hl₁ <;> split at hl₂
    · next hs hs' => rw [hs.2, hs'.2]
    · next hs hs' =>
      obtain ⟨rfl, rfl⟩ := hs
      exact absurd (ht.symm.trans (hx _ hl₁)) (hk w₂ h₂ (fun e => hs' ⟨rfl, e⟩) _ hl₂)
    · next hs hs' =>
      obtain ⟨rfl, rfl⟩ := hs'
      exact absurd (ht.trans (hx _ hl₂)) (hk w₁ h₁ (fun e => hs ⟨rfl, e⟩) _ hl₁)
    · exact h.way_unique h₁ h₂ hl₁ hl₂ ht

section Insert

variable (h : Placed g c) (hw : w < g.ways) (hk : get g c l.tag = none)
include h hk

theorem absent_of_get (hw : w < g.ways) {l' : Line κ ι δ} (hl : c (g.set l.tag) w = some l') :
    l'.tag ≠ l.tag :=
  fun ht => by simp [h.get_of_way hw hl ht] at hk

theorem placed_insert : Placed g (put g c l.tag w (some l)) :=
  h.put _ (by simp) fun _ hw' _ _ hl => absent_of_get h hk hw' hl

include hw

/-- Inserting an absent key drops the key whose way is taken and leaves all others alone. -/
theorem get_insert (k' : κ) : get g (put g c l.tag w (some l)) k' =
    if k' = l.tag then some l
    else if (c (g.set l.tag) w).map Line.tag = some k' then none else get g c k' := by
  have hp := placed_insert (w := w) h hk
  split
  · next hkl => subst hkl; exact hp.get_of_way hw (by simp [put_apply]) rfl
  · next hkl =>
    split
    · next he =>
      obtain ⟨e, hv, rfl⟩ := map_eq_some_iff.mp he
      cases hg : get g (SetAssoc.put g c l.tag w (some l)) e.tag with
      | none => rfl
      | some l' =>
        obtain ⟨ht, w', hw', hl', _⟩ := get_eq_some hg
        rw [put_apply] at hl'
        split at hl'
        · next hs => obtain rfl : l = l' := by simpa using hl'
                     exact absurd ht.symm hkl
        · next hs =>
          rw [h.set_tag hv] at hl' hs
          exact absurd ⟨rfl, h.way_unique hw' hw hl' hv ht⟩ hs
    · next he =>
      refine h.get_congr hp fun w' hw' l' hl' => ?_
      rw [put_apply]
      split
      · next hs =>
        refine ⟨fun e => absurd hl'.symm ?_, fun e => absurd ?_ he⟩
        · obtain rfl : l = l' := by simpa using e
          exact hkl
        · rw [← hs.1, ← hs.2, e, map_some, hl']
      · rfl

end Insert

/-- The line whose way an insertion takes was the one found under its own tag. -/
theorem Placed.get_victim (h : Placed g c) (hw : w < g.ways) {e : Line κ ι δ}
    (he : c (g.set k) w = some e) : get g c e.tag = some e :=
  h.get_of_way hw (by rwa [h.set_tag he]) rfl

theorem Placed.assign (h : Placed g c) (x : Option (Line κ ι δ)) (hx : ∀ l ∈ x, l.tag = k) :
    Placed g (assign g c k x) := by
  unfold SetAssoc.assign
  cases hf : find g c k with
  | none => exact h
  | some w =>
    obtain ⟨hw, l, hl, hk⟩ := find_eq_some hf
    exact h.put x hx fun w' hw' hne l' hl' ht =>
      hne (h.way_unique hw' hw hl' hl (ht.trans hk.symm))

theorem Placed.get_assign (h : Placed g c) (x : Option (Line κ ι δ)) (hx : ∀ l ∈ x, l.tag = k)
    (hk : (get g c k).isSome) (k' : κ) :
    get g (SetAssoc.assign g c k x) k' = if k' = k then x else get g c k' := by
  have hp := h.assign x hx
  obtain ⟨l, hl⟩ := isSome_iff_exists.mp hk
  obtain ⟨hlk, w, hw, hlw, hf⟩ := get_eq_some hl
  have ha : SetAssoc.assign g c k x = SetAssoc.put g c k w x := by simp [SetAssoc.assign, hf]
  rw [ha] at hp ⊢
  split
  · next hkk =>
    subst hkk
    cases x with
    | some l' => exact hp.get_of_way hw (by simp [put_apply]) (hx l' rfl)
    | none =>
      cases hg : get g (SetAssoc.put g c k' w none) k' with
      | none => rfl
      | some l' =>
        obtain ⟨ht, w', hw', hl', _⟩ := get_eq_some hg
        rw [put_apply] at hl'
        split at hl'
        · simp at hl'
        · next hs => exact absurd ⟨rfl, h.way_unique hw' hw hl' hlw (ht.trans hlk.symm)⟩ hs
  · next hkk =>
    refine h.get_congr hp fun w' hw' l' hl' => ?_
    rw [put_apply]
    split
    · next hs =>
      refine ⟨fun e => absurd (hl'.symm.trans (hx l' e)) hkk, fun e => absurd ?_ hkk⟩
      rw [hs.1, hs.2, hlw] at e
      rw [← hl', ← some.inj e, hlk]
    · rfl

end SetAssoc
