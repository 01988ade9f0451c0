import Graphite.Directory.Sharers
import Graphite.Library.SetAssoc

/-! # The directory cache

`DirectoryCache` keeps the entries of the lines homed at a tile in a set-associative table, and those
it had to replace in a list until their lines are nullified. A way that was never used is free; its
entry is in the state it was created in. Over table and list the directory is a partial map from
addresses to entries, `DirectoryCache.entry`, on which each operation is specified.
-/

namespace Graphite

open Outcome SetAssoc List

/-- Geometry and scheme of the directories. -/
structure DirectoryConfig (A : Type) where
  geometry : Geometry A
  type : DirectoryType
  maxHwSharers : ℕ

abbrev DirectoryConfig.Fits {A : Type} (dc : DirectoryConfig A) (N : ℕ) : Prop :=
  dc.type.Fits dc.maxHwSharers N

structure DirectoryCache (A : Type) (N : ℕ) where
  directory : Store A Unit (DirectoryEntry N)
  replaced : List (A × DirectoryEntry N)

namespace DirectoryCache

variable {A : Type} [DecidableEq A] {N : ℕ} (cfg : DirectoryConfig A)

def empty : DirectoryCache A N := ⟨SetAssoc.empty, []⟩

def newEntry (N : ℕ) : DirectoryEntry N := .create N cfg.type cfg.maxHwSharers

/-- The way that holds `a`, searched upwards. -/
def wayOf (c : DirectoryCache A N) (a : A) : Option ℕ :=
  (range cfg.geometry.ways).find? fun w =>
    (c.directory (cfg.geometry.set a) w).any fun l => l.tag = a

/-- The first free way of the set of `a`. -/
def freeWay (c : DirectoryCache A N) (a : A) : Option ℕ :=
  (range cfg.geometry.ways).find? fun w => (c.directory (cfg.geometry.set a) w).isNone

/-- Finds the entry of `a`, taking a free way for it if it has none yet. The set is searched first,
then the replaced entries. -/
def getDirectoryEntry (c : DirectoryCache A N) (a : A) :
    DirectoryCache A N × Option (DirectoryEntry N) :=
  match wayOf cfg c a with
  | some w => (c, (c.directory (cfg.geometry.set a) w).map Line.data)
  | none =>
    match freeWay cfg c a with
    | some w =>
      ({ c with directory := put cfg.geometry c.directory a w (some ⟨a, (), newEntry cfg N⟩) },
        some (newEntry cfg N))
    | none => (c, c.replaced.lookup a)

/-- Stores back an entry that was modified through the pointer `getDirectoryEntry` returned. -/
def setDirectoryEntry (c : DirectoryCache A N) (a : A) (e : DirectoryEntry N) : DirectoryCache A N :=
  match wayOf cfg c a with
  | some w => { c with directory := put cfg.geometry c.directory a w (some ⟨a, (), e⟩) }
  | none => { c with replaced := c.replaced.map fun x => if x.1 = a then (a, e) else x }

def getReplacementCandidates (c : DirectoryCache A N) (a : A) :
    Except Fault (List (A × DirectoryEntry N)) := do
  check ((getDirectoryEntry cfg c a).2.isNone) .entryPresent
  pure ((range cfg.geometry.ways).filterMap fun w =>
    (c.directory (cfg.geometry.set a) w).map fun l => (l.tag, l.data))

def replaceDirectoryEntry (c : DirectoryCache A N) (replacedAddress a : A) :
    Except Fault (DirectoryCache A N) :=
  match wayOf cfg c replacedAddress with
  | none => throw .replacedMissing
  | some w => pure
    { directory := put cfg.geometry c.directory replacedAddress w (some ⟨a, (), newEntry cfg N⟩)
      replaced := c.replaced ++
        (c.directory (cfg.geometry.set replacedAddress) w).toList.map fun l => (l.tag, l.data) }

def invalidateDirectoryEntry (c : DirectoryCache A N) (a : A) : Except Fault (DirectoryCache A N) :=
  if (c.replaced.lookup a).isSome then
    pure { c with replaced := c.replaced.eraseP fun x => x.1 = a }
  else
    throw .invalidatedMissing

def entry (c : DirectoryCache A N) (a : A) : Option (DirectoryEntry N) :=
  match get cfg.geometry c.directory a with
  | some l => some l.data
  | none => c.replaced.lookup a

/-- Entries sit in the set of their address, once; a replaced entry has left a full set. -/
structure WellFormed (c : DirectoryCache A N) : Prop where
  placed : Placed cfg.geometry c.directory
  nodup : (c.replaced.map Prod.fst).Nodup
  absent : ∀ a ∈ c.replaced.map Prod.fst, get cfg.geometry c.directory a = none
  full : ∀ a ∈ c.replaced.map Prod.fst, ∀ w < cfg.geometry.ways,
    (c.directory (cfg.geometry.set a) w).isSome

variable {cfg} {c c' : DirectoryCache A N} {a b : A} {e : DirectoryEntry N} {w : ℕ}

theorem wellFormed_empty : WellFormed cfg (empty : DirectoryCache A N) where
  placed := placed_empty
  nodup := by simp [empty]
  absent := by simp [empty]
  full := by simp [empty]

@[simp] theorem entry_empty : entry cfg (empty : DirectoryCache A N) a = none := by
  simp [entry, empty]

theorem wayOf_eq_some (h : wayOf cfg c a = some w) : w < cfg.geometry.ways ∧
    ∃ l, c.directory (cfg.geometry.set a) w = some l ∧ l.tag = a := by
  have hw := mem_of_find?_eq_some h
  have hl := find?_some h
  simp only [Option.any_eq_true, decide_eq_true_eq] at hl
  exact ⟨by simpa using hw, hl⟩

theorem lookup_eq_none_iff {l : List (A × DirectoryEntry N)} :
    l.lookup a = none ↔ a ∉ l.map Prod.fst := by
  rw [List.lookup_eq_none_iff]
  simp only [bne_iff_ne, List.mem_map, not_exists, not_and]
  exact forall₂_congr fun _ _ => ne_comm

theorem wayOf_eq_none (hw : wayOf cfg c a = none) : get cfg.geometry c.directory a = none := by
  rw [← find_eq_none_iff]
  cases hf : find cfg.geometry c.directory a with
  | none => rfl
  | some w =>
    obtain ⟨hlt, l, hl, ht⟩ := find_eq_some hf
    have := find?_eq_none.mp hw w (by simpa using hlt)
    simp [hl, ht] at this

theorem entry_of_get_some {l : Line A Unit (DirectoryEntry N)}
    (h : get cfg.geometry c.directory a = some l) : entry cfg c a = some l.data := by
  simp [entry, h]

theorem entry_of_get_none (h : get cfg.geometry c.directory a = none) :
    entry cfg c a = c.replaced.lookup a := by
  simp [entry, h]

namespace WellFormed

section

variable (h : WellFormed cfg c)
include h

theorem get_of_wayOf (hw : wayOf cfg c a = some w) :
    ∃ l, get cfg.geometry c.directory a = some l ∧ l.tag = a ∧ w < cfg.geometry.ways ∧
      c.directory (cfg.geometry.set a) w = some l := by
  obtain ⟨hlt, l, hl, ht⟩ := wayOf_eq_some hw
  exact ⟨l, h.placed.get_of_way hlt hl ht, ht, hlt, hl⟩

theorem assign_eq_put (hw : wayOf cfg c a = some w) (x : Option (Line A Unit (DirectoryEntry N))) :
    put cfg.geometry c.directory a w x = assign cfg.geometry c.directory a x := by
  obtain ⟨l, -, ht, hlt, hl⟩ := h.get_of_wayOf hw
  simp [assign, h.placed.find_of_way hlt hl ht]

theorem getDirectoryEntry_some (hg : getDirectoryEntry cfg c a = (c', some e)) :
    WellFormed cfg c' ∧ (∀ b, entry cfg c' b = if b = a then some e else entry cfg c b) ∧
      e = (entry cfg c a).getD (newEntry cfg N) ∧ c'.replaced = c.replaced := by
  unfold getDirectoryEntry at hg
  split at hg
  · next w hw =>
    obtain ⟨l, hl, ht, hlt, hcl⟩ := h.get_of_wayOf hw
    simp only [hcl, Option.map_some, Prod.mk.injEq, Option.some.injEq] at hg
    obtain ⟨rfl, rfl⟩ := hg
    refine ⟨h, fun b => ?_, by simp [entry_of_get_some hl], rfl⟩
    split
    · next hb => rw [hb, entry_of_get_some hl]
    · rfl
  · next hw =>
    have hnone := wayOf_eq_none hw
    split at hg
    · next w hfree =>
      obtain ⟨rfl, rfl⟩ := by simpa using hg
      have hlt : w < cfg.geometry.ways := by simpa using mem_of_find?_eq_some hfree
      have hcw : c.directory (cfg.geometry.set a) w = none := by simpa using find?_some hfree
      have hrep : a ∉ c.replaced.map Prod.fst := fun ha => by simpa [hcw] using h.full a ha w hlt
      have hget := get_insert (l := ⟨a, (), newEntry cfg N⟩) h.placed hlt hnone
      simp only [hcw, Option.map_none, reduceCtorEq, if_false] at hget
      refine ⟨⟨placed_insert (l := ⟨a, (), newEntry cfg N⟩) h.placed hnone, h.nodup, ?_, ?_⟩,
        fun b => ?_, ?_, rfl⟩
      · intro b hb
        rw [hget, if_neg (fun e => hrep (by rwa [← e]))]
        exact h.absent b hb
      · intro b hb w' hw'
        simp only [put_apply]
        split
        · rfl
        · exact h.full b hb w' hw'
      · by_cases hb : b = a <;> simp [entry, hget, hb]
      · simp [entry_of_get_none hnone, lookup_eq_none_iff.mpr hrep]
    · obtain ⟨rfl, hlk⟩ := by simpa using hg
      have he : entry cfg c a = some e := by rw [entry_of_get_none hnone, hlk]
      refine ⟨h, fun b => ?_, by simp [he], rfl⟩
      split
      · next hb => rw [hb, he]
      · rfl

theorem getDirectoryEntry_none (hg : getDirectoryEntry cfg c a = (c', none)) :
    c' = c ∧ entry cfg c a = none ∧ get cfg.geometry c.directory a = none ∧
      ∀ w < cfg.geometry.ways, (c.directory (cfg.geometry.set a) w).isSome := by
  unfold getDirectoryEntry at hg
  split at hg
  · next w hw =>
    obtain ⟨l, -, -, -, hcl⟩ := h.get_of_wayOf hw
    simp [hcl] at hg
  · next hw =>
    have hnone := wayOf_eq_none hw
    split at hg
    · simp at hg
    · next hfree =>
      obtain ⟨rfl, hlk⟩ := Prod.mk.inj hg
      refine ⟨rfl, by rw [entry_of_get_none hnone, hlk], hnone, fun w hw' => ?_⟩
      have := find?_eq_none.mp hfree w (by simpa using hw')
      simpa [Option.isNone_iff_eq_none, ← Option.isSome_iff_ne_none] using this

end

variable {l : List (A × DirectoryEntry N)}

theorem lookup_map_self (ha : a ∈ l.map Prod.fst) :
    (l.map fun x => if x.1 = a then (a, e) else x).lookup a = some e := by
  induction l with
  | nil => simp at ha
  | cons x l ih =>
    obtain ⟨k, v⟩ := x
    by_cases hx : k = a
    · simp [hx]
    · have hx' : (a == k) = false := by simpa using Ne.symm hx
      have ha' : a ∈ l.map Prod.fst := by simpa [Ne.symm hx] using ha
      simpa [hx, lookup_cons, hx'] using ih ha'

theorem lookup_map_of_ne (hb : b ≠ a) :
    (l.map fun x => if x.1 = a then (a, e) else x).lookup b = l.lookup b := by
  induction l with
  | nil => rfl
  | cons x l ih =>
    obtain ⟨k, v⟩ := x
    have hba : (b == a) = false := by simpa using hb
    by_cases hx : k = a
    · simpa [hx, lookup_cons, hba] using ih
    · simp only [map_cons, hx, if_false, lookup_cons, ih]

theorem lookup_map_set (ha : a ∈ l.map Prod.fst) (b : A) :
    (l.map fun x => if x.1 = a then (a, e) else x).lookup b =
      if b = a then some e else l.lookup b := by
  split
  · next hb => rw [hb, lookup_map_self ha]
  · next hb => exact lookup_map_of_ne hb

theorem setDirectoryEntry (h : WellFormed cfg c) (ha : (entry cfg c a).isSome) :
    WellFormed cfg (setDirectoryEntry cfg c a e) ∧
      (∀ b, entry cfg (setDirectoryEntry cfg c a e) b = if b = a then some e else entry cfg c b) ∧
      (setDirectoryEntry cfg c a e).replaced.map Prod.fst = c.replaced.map Prod.fst := by
  unfold DirectoryCache.setDirectoryEntry
  split
  · next w hw =>
    obtain ⟨l, hl, ht, hlt, hcl⟩ := h.get_of_wayOf hw
    have hx : ∀ l ∈ (some ⟨a, (), e⟩ : Option (Line A Unit (DirectoryEntry N))), l.tag = a := by
      simp
    have hget := h.placed.get_assign (some ⟨a, (), e⟩) hx (by simp [hl])
    have hput := h.placed.assign (some ⟨a, (), e⟩) hx
    rw [← h.assign_eq_put hw] at hget hput
    refine ⟨⟨hput, h.nodup, fun b hb => ?_, fun b hb w' hw' => ?_⟩, fun b => ?_, rfl⟩
    · have hba : b ≠ a := fun e => by simp [← e, h.absent b hb] at hl
      rw [hget, if_neg hba, h.absent b hb]
    · simp only [put_apply]
      split
      · rfl
      · exact h.full b hb w' hw'
    · by_cases hb : b = a <;> simp [entry, hget, hb]
  · next hw =>
    have hnone := wayOf_eq_none hw
    rw [entry_of_get_none hnone] at ha
    have hmem : a ∈ c.replaced.map Prod.fst := by
      by_contra hm
      simp [lookup_eq_none_iff.mpr hm] at ha
    have hmap : (c.replaced.map fun x => if x.1 = a then (a, e) else x).map Prod.fst =
        c.replaced.map Prod.fst := by
      rw [map_map]
      refine map_congr_left fun x _ => ?_
      by_cases hx : x.1 = a <;> simp [hx]
    refine ⟨⟨h.placed, by simpa only [hmap] using h.nodup, by simpa only [hmap] using h.absent,
      by simpa only [hmap] using h.full⟩, fun b => ?_, hmap⟩
    cases hb : get cfg.geometry c.directory b with
    | some l =>
      have hba : b ≠ a := fun e => by simp [e, hnone] at hb
      simp [entry, hb, hba]
    | none => simp only [entry, hb, lookup_map_set hmem]

/-- The candidates for replacement are entries of the table in the set of `a`. -/
theorem mem_candidates (h : WellFormed cfg c) {cs : List (A × DirectoryEntry N)}
    (hc : getReplacementCandidates cfg c a = .ok cs) (hx : (b, e) ∈ cs) :
    cfg.geometry.set b = cfg.geometry.set a ∧ get cfg.geometry c.directory b = some ⟨b, (), e⟩ := by
  unfold getReplacementCandidates check at hc
  split at hc
  · obtain rfl := Except.ok.inj hc
    obtain ⟨w, hw, hl⟩ := mem_filterMap.mp hx
    obtain ⟨l, hcl, he⟩ := Option.map_eq_some_iff.mp hl
    obtain ⟨rfl, rfl⟩ := Prod.mk.inj he
    exact ⟨h.placed.set_tag hcl, h.placed.get_victim (by simpa using hw) hcl⟩
  · cases hc

/-- Replacing moves the replaced entry to the list and puts a new one in its way. -/
theorem replaceDirectoryEntry (h : WellFormed cfg c) (hset : cfg.geometry.set b = cfg.geometry.set a)
    (hb : get cfg.geometry c.directory b = some ⟨b, (), e⟩) (ha : entry cfg c a = none)
    (hfull : ∀ w < cfg.geometry.ways, (c.directory (cfg.geometry.set a) w).isSome) :
    ∃ c', replaceDirectoryEntry cfg c b a = .ok c' ∧ WellFormed cfg c' ∧
      (∀ x, entry cfg c' x = if x = a then some (newEntry cfg N) else entry cfg c x) ∧
      c'.replaced.map Prod.fst = c.replaced.map Prod.fst ++ [b] := by
  have hga : get cfg.geometry c.directory a = none := by
    cases hg : get cfg.geometry c.directory a with
    | none => rfl
    | some l => simp [entry_of_get_some hg] at ha
  have hra : a ∉ c.replaced.map Prod.fst := by
    rwa [← lookup_eq_none_iff, ← entry_of_get_none hga]
  have hrb : b ∉ c.replaced.map Prod.fst := fun hm => by simp [h.absent b hm] at hb
  have hba : b ≠ a := fun e => by simp [e, hga] at hb
  cases hw : wayOf cfg c b with
  | none => simp [wayOf_eq_none hw] at hb
  | some w =>
    obtain ⟨l, hl, ht, hlt, hcl⟩ := h.get_of_wayOf hw
    obtain rfl : l = ⟨b, (), e⟩ := by simpa [hl] using hb
    have hp : put cfg.geometry c.directory b w (some ⟨a, (), newEntry cfg N⟩) =
        put cfg.geometry c.directory a w (some ⟨a, (), newEntry cfg N⟩) := by
      simp [put, hset]
    rw [hset] at hcl
    have hget := get_insert (l := ⟨a, (), newEntry cfg N⟩) h.placed hlt hga
    simp only [hcl, Option.map_some, Option.some.injEq] at hget
    refine ⟨⟨put cfg.geometry c.directory a w (some ⟨a, (), newEntry cfg N⟩),
      c.replaced ++ [(b, e)]⟩, ?_, ?_, ?_, by simp⟩
    · simp only [DirectoryCache.replaceDirectoryEntry, hw, hp, hset, hcl]
      rfl
    · refine ⟨placed_insert (l := ⟨a, (), newEntry cfg N⟩) h.placed hga, ?_, ?_, ?_⟩
      · simpa [nodup_append] using ⟨h.nodup, fun x y hxy hxb => hrb (by
          simpa using ⟨y, hxb ▸ hxy⟩)⟩
      · intro x hx
        rw [map_append, mem_append, map_singleton, mem_singleton] at hx
        rcases hx with hx | rfl
        · have hxa : x ≠ a := fun e => hra (e ▸ hx)
          have hxb : b ≠ x := fun e => hrb (e ▸ hx)
          rw [hget, if_neg hxa, if_neg hxb, h.absent x hx]
        · rw [hget, if_neg hba, if_pos rfl]
      · intro x hx w' hw'
        rw [map_append, mem_append, map_singleton, mem_singleton] at hx
        simp only [put_apply]
        split
        · rfl
        · rcases hx with hx | rfl
          · exact h.full x hx w' hw'
          · rw [hset]; exact hfull w' hw'
    · intro x
      by_cases hxa : x = a
      · subst hxa; simp [entry, hget]
      · by_cases hxb : x = b
        · subst hxb
          have hlk : c.replaced.lookup x = none := lookup_eq_none_iff.mpr hrb
          simp [entry, hget, hxa, hl, lookup_append, hlk]
        · have hxb' : (x == b) = false := by simpa using hxb
          simp [entry, hget, hxa, Ne.symm hxb, lookup_append, lookup_cons, hxb']

theorem map_fst_eraseP (l : List (A × DirectoryEntry N)) :
    (l.eraseP fun x => x.1 = a).map Prod.fst = (l.map Prod.fst).erase a := by
  induction l with
  | nil => rfl
  | cons x l ih =>
    by_cases hx : x.1 = a
    · simp [hx]
    · simp [hx, ih]

theorem lookup_eraseP_of_ne (hb : b ≠ a) : (l.eraseP fun x => x.1 = a).lookup b = l.lookup b := by
  induction l with
  | nil => rfl
  | cons x l ih =>
    obtain ⟨k, v⟩ := x
    by_cases hx : k = a
    · have hba : (b == a) = false := by simpa using hb
      simp [hx, lookup_cons, hba]
    · simp [hx, lookup_cons, ih]

theorem invalidateDirectoryEntry (h : WellFormed cfg c) (ha : a ∈ c.replaced.map Prod.fst) :
    ∃ c', invalidateDirectoryEntry c a = .ok c' ∧ WellFormed cfg c' ∧
      (∀ x, entry cfg c' x = if x = a then none else entry cfg c x) ∧
      (∀ x, x ∈ c'.replaced.map Prod.fst ↔ x ∈ c.replaced.map Prod.fst ∧ x ≠ a) := by
  have hmem : ∀ x, x ∈ (c.replaced.eraseP fun x => x.1 = a).map Prod.fst ↔
      x ∈ c.replaced.map Prod.fst ∧ x ≠ a := fun x => by
    rw [map_fst_eraseP, h.nodup.mem_erase_iff, and_comm]
  have hsome : (c.replaced.lookup a).isSome := by
    rw [Option.isSome_iff_ne_none, ne_eq, lookup_eq_none_iff, not_not]
    exact ha
  refine ⟨{ c with replaced := c.replaced.eraseP fun x => x.1 = a }, ?_, ⟨h.placed, ?_, ?_, ?_⟩,
    fun x => ?_, hmem⟩
  · rw [DirectoryCache.invalidateDirectoryEntry, if_pos hsome]; rfl
  · simpa only [map_fst_eraseP] using h.nodup.erase a
  · exact fun x hx => h.absent x ((hmem x).mp hx).1
  · exact fun x hx => h.full x ((hmem x).mp hx).1
  · split
    · next hx =>
      subst hx
      simp only [entry, h.absent x ha, lookup_eq_none_iff]
      exact fun hm => ((hmem x).mp hm).2 rfl
    · next hx => simp [entry, lookup_eraseP_of_ne hx]

end WellFormed

end DirectoryCache

end Graphite
