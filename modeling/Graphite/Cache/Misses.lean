import Graphite.Cache.Memory

/-! # Types of misses

The three address sets of a cache record the history of each line: whether it was ever inserted,
and whether it left by an eviction and has not come back.
-/

namespace Graphite.Cache

open Outcome List SetAssoc Stats

variable {n : ℕ} {P : Policy n} {ι : Type} {p : Params} {k : ℕ} {c c' : Cache P ι}
  {tr tr' : List (Event ι)} {a b : ℕ} {m : MissCounters}

/-! ## What is noted -/

section Stats

variable {s : Stats}

/-- Whichever branch is taken, the address is not among the evicted ones afterwards. -/
theorem clearMissTypeTrackingSets_spec : (s.clearMissTypeTrackingSets a).counters = s.counters ∧
    (s.clearMissTypeTrackingSets a).evicted = s.evicted.erase a ∧
    (s.clearMissTypeTrackingSets a).invalidated ⊆ s.invalidated ∧
    insert a (s.clearMissTypeTrackingSets a).fetched = insert a s.fetched := by
  unfold clearMissTypeTrackingSets
  split
  · exact ⟨rfl, rfl, subset_rfl, rfl⟩
  · next he =>
    have herase := (Finset.erase_eq_of_notMem he).symm
    split
    · exact ⟨rfl, herase, Finset.erase_subset _ _, rfl⟩
    · refine ⟨rfl, herase, subset_rfl, ?_⟩
      ext b
      simp only [Finset.mem_insert, Finset.mem_erase]
      tauto

/-- After an insertion the address is fetched and not among the evicted ones. -/
theorem noteInserted_sat (htrack : p.trackMissTypes = true) (evicted : Option (Evicted ι))
    (cstate : CacheState) :
    Ensures (s.noteInserted p a (evicted.toList.map fun e => (e.1, e.2.1.cstate)) cstate)
      fun s' => s'.counters = s.counters ∧ s'.fetched = insert a s.fetched ∧
        s'.evicted = (s.evicted ∪ (evicted.map Prod.fst).toFinset).erase a ∧
        s'.invalidated ⊆ s.invalidated := by
  have hnote : ∀ s₁ : Stats, (s₁.noteInsertion p a cstate).counters = s₁.counters ∧
      (s₁.noteInsertion p a cstate).fetched = insert a s₁.fetched ∧
      (s₁.noteInsertion p a cstate).evicted = s₁.evicted.erase a ∧
      (s₁.noteInsertion p a cstate).invalidated ⊆ s₁.invalidated := by
    intro s₁
    obtain ⟨hc, he, hi, hf⟩ := clearMissTypeTrackingSets_spec (s := s₁) (a := a)
    simp only [noteInsertion, htrack, if_true]
    exact ⟨hc, hf, he, hi⟩
  cases evicted with
  | none => simpa [noteInserted] using hnote s
  | some e =>
    simp only [noteInserted, Option.toList_some, map_cons, map_nil, foldlM_cons,
      foldlM_nil, noteEviction, htrack, if_true]
    refine sat_bind.mpr (sat_bind.mpr (ensures_bind fun _ => ?_))
    obtain ⟨hc, hf, he, hi⟩ := hnote (updateCacheLineStateCounters
      { s with evicted := insert e.1 s.evicted } e.2.1.cstate .invalid)
    refine ⟨hc, hf, ?_, hi⟩
    rw [Option.map_some, Option.toFinset_some, Finset.union_comm, ← Finset.insert_eq]
    exact he

theorem noteInfo_spec (htrack : p.trackMissTypes = true) (old new : CacheState) :
    (s.noteInfo p a old new).fetched = s.fetched ∧ (s.noteInfo p a old new).evicted = s.evicted ∧
    (s.noteInfo p a old new).counters = s.counters ∧
    (s.noteInfo p a old new).invalidated =
      if new = .invalid then insert a s.invalidated else s.invalidated := by
  unfold noteInfo
  cases new <;> simp [htrack, updateCacheLineStateCounters]

end Stats

/-! ## Histories -/

/-- A line enters the cache or leaves it. -/
inductive Move
  | entered | evicted | invalidated
  deriving DecidableEq

def Event.move (a : ℕ) : Event ι → Option Move
  | .inserted b _ evicted =>
    if b = a then some .entered else if evicted.map Prod.fst = some a then some .evicted else none
  | .invalidated b => if b = a then some .invalidated else none
  | _ => none

def lastMove (tr : List (Event ι)) (a : ℕ) : Option Move := (tr.filterMap (Event.move a)).getLast?

def Inserted (tr : List (Event ι)) (a : ℕ) : Prop := ∃ fill evicted, .inserted a fill evicted ∈ tr

/-- The controllers name a line by the address of its first byte. -/
def Action.OnLine (p : Params) : Action ι → Prop
  | .insert a _ _ _ | .setInfo a _ _ | .invalidate a => p.getLineOffset a = 0
  | _ => True

@[simp] theorem lastMove_nil : lastMove ([] : List (Event ι)) a = none := rfl

theorem lastMove_snoc (e : Event ι) : lastMove (tr ++ [e]) a = (e.move a).or (lastMove tr a) := by
  unfold lastMove
  rw [filterMap_append, getLast?_append]
  cases h : e.move a <;> simp [h]

theorem inserted_snoc (e : Event ι) :
    Inserted (tr ++ [e]) a ↔ Inserted tr a ∨ ∃ fill evicted, e = .inserted a fill evicted := by
  unfold Inserted
  simp only [mem_append, mem_singleton, exists_or, eq_comm]

theorem Params.LineBits.eq_of_getTag (hp : p.LineBits k) (ha : p.getLineOffset a = 0)
    (hb : p.getLineOffset b = 0) (h : p.getTag a = p.getTag b) : a = b := by
  rw [hp.getLineOffset] at ha hb
  rw [hp.getTag, hp.getTag] at h
  have hadiv := Nat.div_add_mod a (2 ^ k)
  have hbdiv := Nat.div_add_mod b (2 ^ k)
  rw [← hadiv, ← hbdiv, h, ha, hb]

/-- The address sets follow the history. -/
structure Tracked (p : Params) (tr : List (Event ι)) (c : Cache P ι) : Prop where
  fetched : ∀ a, a ∈ c.fetched ↔ Inserted tr a
  evicted : ∀ a, a ∈ c.evicted ↔ lastMove tr a = some .evicted
  absent : ∀ a ∈ c.evicted, p.getLineOffset a = 0 ∧
    SetAssoc.get (geometry n p) (view c.sets) (p.getTag a) = none
  present : ∀ {s w l}, view c.sets s w = some l → p.getAddressFromTag l.tag ∈ c.fetched
  evicted_subset : c.evicted ⊆ c.fetched
  invalidated_subset : c.invalidated ⊆ c.fetched
  sum : c.counters.cold + c.counters.capacity + c.counters.sharing = c.counters.misses

theorem tracked_create [Inhabited ι] : Tracked p [] (create : Cache P ι) where
  fetched a := by simp [create, Stats.create, Inserted]
  evicted a := by simp [create, Stats.create]
  absent a ha := by simp [create, Stats.create] at ha
  present hl := by
    simp [view, create, CacheSet.create, LineInfo.create, wayLine, LineInfo.isValid] at hl
  evicted_subset := by simp [create, Stats.create]
  invalidated_subset := by simp [create, Stats.create]
  sum := rfl

section

variable (h : Tracked p tr c)
include h

theorem Tracked.getMissType (a : ℕ) : (c.getMissType a = .cold ↔ ¬ Inserted tr a) ∧
    (c.getMissType a = .capacity ↔ lastMove tr a = some .evicted) ∧
    (c.getMissType a = .sharing ↔ Inserted tr a ∧ lastMove tr a ≠ some .evicted) := by
  rw [ne_eq, ← h.fetched, ← h.evicted, Stats.getMissType]
  by_cases he : a ∈ c.evicted
  · simp [he, h.evicted_subset he]
  · by_cases hi : a ∈ c.invalidated
    · simp [he, hi, h.invalidated_subset hi]
    · by_cases hf : a ∈ c.fetched <;> simp [he, hi, hf]

theorem Tracked.quiet (hf : c'.fetched = c.fetched) (he : c'.evicted = c.evicted)
    (hi : c'.invalidated = c.invalidated)
    (hsum : c'.counters.cold + c'.counters.capacity + c'.counters.sharing = c'.counters.misses)
    (hview : view c'.sets = view c.sets)
    (hmove : ∀ a, lastMove tr' a = lastMove tr a) (hins : ∀ a, Inserted tr' a ↔ Inserted tr a) :
    Tracked p tr' c' where
  fetched a := by rw [hf, hins, h.fetched]
  evicted a := by rw [he, hmove, h.evicted]
  absent a ha := by rw [hview]; exact h.absent a (he ▸ ha)
  present hl := by rw [hf]; exact h.present (hview ▸ hl)
  evicted_subset := by rw [he, hf]; exact h.evicted_subset
  invalidated_subset := by rw [hi, hf]; exact h.invalidated_subset
  sum := hsum

theorem Tracked.assign {l : Line ι} {x : Option (Line ι)} (hcoh : Coherent p tr c)
    (hget : get (geometry n p) (view c.sets) (p.getTag b) = some l)
    (hx : ∀ l' ∈ x, l'.tag = p.getTag b)
    (hview : view c'.sets = assign (geometry n p) (view c.sets) (p.getTag b) x)
    (hf : c'.fetched = c.fetched) (he : c'.evicted = c.evicted) (hc : c'.counters = c.counters)
    (hi : c'.invalidated ⊆ c.fetched)
    (hmove : ∀ a ∉ c.evicted, lastMove tr' a ≠ some .evicted)
    (hsame : ∀ a, p.getTag a ≠ p.getTag b → lastMove tr' a = lastMove tr a)
    (hins : ∀ a, Inserted tr' a ↔ Inserted tr a) : Tracked p tr' c' := by
  have hassign := hcoh.placed.get_assign x hx (by simp [hget])
  obtain ⟨hlt, w, hw, hlw, hfind⟩ := get_eq_some hget
  -- the line is present, so its address is not among the evicted ones
  have hne : ∀ a ∈ c.evicted, p.getTag a ≠ p.getTag b := by
    intro a ha htag
    rw [← htag, (h.absent a ha).2] at hget
    cases hget
  refine ⟨fun a => by rw [hf, hins, h.fetched], fun a => ?_, fun a ha => ?_, fun {s w' l'} hl' => ?_,
    by rw [he, hf]; exact h.evicted_subset, hf ▸ hi, by rw [hc]; exact h.sum⟩
  · rw [he]
    refine ⟨fun ha => ?_, fun ha => ?_⟩
    · rw [hsame a (hne a ha)]
      exact (h.evicted a).mp ha
    · by_contra hnot
      exact hmove a hnot ha
  · rw [he] at ha
    rw [hview, hassign, if_neg (hne a ha)]
    exact h.absent a ha
  · rw [hf]
    rw [hview, SetAssoc.assign, hfind] at hl'
    simp only [put_apply] at hl'
    split at hl'
    · rw [hx l' hl', ← hlt]
      exact h.present hlw
    · exact h.present hl'

theorem Tracked.insert {w : ℕ} {l : Line ι} {fill : Option LineData}
    (hp : p.LineBits k) (hcoh : Coherent p tr c) (hw : w < n) (hb : b < 2 ^ 64)
    (hoff : p.getLineOffset b = 0) (hl : l.tag = p.getTag b)
    (hget : get (geometry n p) (view c.sets) l.tag = none)
    (hview : view c'.sets = put (geometry n p) (view c.sets) l.tag w (some l))
    (hf : c'.fetched = insert b c.fetched)
    (he : c'.evicted = (c.evicted ∪ ((displaced p c b w).map Prod.fst).toFinset).erase b)
    (hi : c'.invalidated ⊆ c.invalidated) (hc : c'.counters = c.counters) :
    Tracked p (tr ++ [.inserted b fill (displaced p c b w)]) c' := by
  have hmem : ∀ a, a ∈ c'.evicted ↔
      a ≠ b ∧ (a ∈ c.evicted ∨ (displaced p c b w).map Prod.fst = some a) := by
    intro a
    rw [he, Finset.mem_erase, Finset.mem_union, Option.mem_toFinset, Option.mem_def]
  -- the displaced line, seen from its address
  have hout : ∀ a, (displaced p c b w).map Prod.fst = some a → a ∈ c.fetched ∧
      p.getLineOffset a = 0 ∧ (view c.sets (p.setNum b) w).map SetAssoc.Line.tag = some (p.getTag a) := by
    intro a ha
    rw [displaced, Option.map_map] at ha
    obtain ⟨e, hview, rfl⟩ := Option.map_eq_some_iff.mp ha
    obtain ⟨d, hd, htag⟩ := hcoh.tag hview
    have haddr := hp.lineAddress hd
    rw [htag] at haddr
    refine ⟨h.present hview, haddr.2, ?_⟩
    rw [hview, Option.map_some]
    exact congrArg some haddr.1.symm
  refine ⟨fun a => ?_, fun a => ?_, fun a ha => ?_, fun {s w' l'} hl' => ?_, fun a ha => ?_,
    fun a ha => ?_, by rw [hc]; exact h.sum⟩
  · rw [hf, inserted_snoc, Finset.mem_insert, h.fetched]
    constructor
    · rintro (rfl | ha)
      · exact .inr ⟨_, _, rfl⟩
      · exact .inl ha
    · rintro (ha | ⟨_, _, ha⟩)
      · exact .inr ha
      · cases ha
        exact .inl rfl
  · rw [hmem, lastMove_snoc, Event.move, h.evicted]
    rcases eq_or_ne b a with rfl | hne
    · simp
    · by_cases hd : (displaced p c b w).map Prod.fst = some a <;> simp [hne, hne.symm, hd]
  · obtain ⟨hab, ha⟩ := (hmem a).mp ha
    have hline : p.getLineOffset a = 0 := ha.elim (fun ha => (h.absent a ha).1) fun ha => (hout a ha).2.1
    refine ⟨hline, ?_⟩
    rw [hview, get_insert hcoh.placed hw hget, hl,
      if_neg fun htag => hab (hp.eq_of_getTag hline hoff htag)]
    split
    · rfl
    · next hnot =>
      rcases ha with ha | ha
      · exact (h.absent a ha).2
      · exact absurd (hout a ha).2.2 hnot
  · rw [hf]
    rw [hview, put_apply] at hl'
    split at hl'
    · obtain rfl := Option.some.inj hl'
      rw [hl, hp.getAddressFromTag hb, hoff, Nat.sub_zero]
      exact Finset.mem_insert_self _ _
    · exact Finset.mem_insert_of_mem (h.present hl')
  · rw [hf]
    obtain ⟨-, ha⟩ := (hmem a).mp ha
    exact Finset.mem_insert_of_mem (ha.elim (fun ha => h.evicted_subset ha) fun ha => (hout a ha).1)
  · rw [hf]
    exact Finset.mem_insert_of_mem (h.invalidated_subset (hi ha))

/-- What the info of a line becomes; a change to the invalid state is an invalidation. -/
theorem Tracked.setInfo {u : LineInfo ι} (hp : p.LineBits k)
    (htrack : p.trackMissTypes = true) (hcoh : Coherent p tr c)
    (ha : a < 2 ^ 64) (hoff : p.getLineOffset a = 0) (ht : p.getTag a ≠ invalidTag)
    (hu : ∀ l, get (geometry n p) (view c.sets) (p.getTag a) = some l →
      ∀ l' ∈ wayLine u l.data, l'.tag = p.getTag a) :
    Ensures (c.setCacheLineInfo p a u) fun c' =>
      Tracked p (tr ++ if u.cstate = .invalid then [.invalidated a] else []) c' := by
  refine (setCacheLineInfo_sat ht u).mono fun c' ⟨l, hget, hview, hstats⟩ => ?_
  obtain ⟨hf, he, hc, hi⟩ := noteInfo_spec (s := c.toStats) (a := a) htrack l.info.cstate u.cstate
  rw [← hstats] at hf he hc hi
  have hother : ∀ b, b ≠ a →
      lastMove (tr ++ if u.cstate = .invalid then [.invalidated a] else []) b = lastMove tr b := by
    intro b hb
    split
    · simp [lastMove_snoc, Event.move, hb.symm]
    · rw [append_nil]
  refine h.assign hcoh hget (hu l hget) hview hf he hc ?_ (fun b hb => ?_)
    (fun b hb => hother b fun e => hb (congrArg p.getTag e)) fun b => ?_
  · have hmem : a ∈ c.fetched := by
      obtain ⟨hl, w, -, hw, -⟩ := get_eq_some hget
      have hpres := h.present hw
      rwa [hl, hp.getAddressFromTag ha, hoff, Nat.sub_zero] at hpres
    rw [hi]
    split
    · exact Finset.insert_subset hmem h.invalidated_subset
    · exact h.invalidated_subset
  · rw [h.evicted] at hb
    rcases eq_or_ne b a with rfl | hne
    · split
      · simp [lastMove_snoc, Event.move]
      · rwa [append_nil]
    · rwa [hother b hne]
  · split <;> simp [inserted_snoc]

end

theorem updateMissTypeCounters_sat (type : MissType) :
    Ensures (updateMissTypeCounters m type) fun m' => m'.misses = m.misses ∧
      m'.cold + m'.capacity + m'.sharing = m.cold + m.capacity + m.sharing + 1 := by
  cases type with
  | cold => exact ⟨rfl, by dsimp only; omega⟩
  | capacity => exact ⟨rfl, by dsimp only; omega⟩
  | sharing => exact ⟨rfl, rfl⟩
  | invalid => trivial

theorem countAccess_sat (op : MemOp) : Ensures (countAccess p m op) fun m' => m'.misses = m.misses ∧
      m'.cold = m.cold ∧ m'.capacity = m.capacity ∧ m'.sharing = m.sharing := by
  unfold countAccess
  dsimp only
  split
  · exact ⟨rfl, rfl, rfl, rfl⟩
  · exact ensures_bind fun _ => ⟨rfl, rfl, rfl, rfl⟩

theorem countMiss_spec (op : MemOp) : (countMiss m op).misses = m.misses + 1 ∧
    (countMiss m op).cold = m.cold ∧ (countMiss m op).capacity = m.capacity ∧
    (countMiss m op).sharing = m.sharing := by
  unfold countMiss
  dsimp only
  split <;> exact ⟨rfl, rfl, rfl, rfl⟩

/-- Counting an access adds to one of the three counters exactly when it counts a miss. -/
theorem Tracked.count (h : Tracked p tr c) (htrack : p.trackMissTypes = true) (op : MemOp)
    (miss : Bool) :
    Ensures (c.updateMissCounters p a op miss) fun r => Tracked p tr r.1 := by
  unfold updateMissCounters Stats.updateMissCounters
  split
  · rw [bind_assoc]
    refine (countAccess_sat op).bind fun m ⟨hm, hcold, hcap, hsh⟩ => ?_
    have hsum := h.sum
    split
    · dsimp only
      rw [bind_assoc]
      refine (updateMissTypeCounters_sat _).bind fun m' ⟨hm', hsum'⟩ => ?_
      obtain ⟨hmiss, hcold', hcap', hsh'⟩ := countMiss_spec (m := m) op
      exact h.quiet rfl rfl rfl (by dsimp only; omega) rfl (fun _ => rfl) fun _ => .rfl
    · exact h.quiet rfl rfl rfl (by dsimp only; omega) rfl (fun _ => rfl) fun _ => .rfl
  · exact h

section Runs

variable [Inhabited ι]

theorem Tracked.step (hp : p.LineBits k) (htrack : p.trackMissTypes = true) (h : Tracked p tr c)
    (hcoh : Coherent p tr c) (action : Action ι) (ht : p.getTag action.address ≠ invalidTag)
    (hline : action.OnLine p) (he : (machine P ι p).enabled c action) :
    Ensures ((machine P ι p).step c action) fun r => Tracked p (tr ++ r.2) r.1 := by
  cases action with
  | insert a cstate extra fill =>
    refine (insertCacheLine_sat rfl ht).bind fun r ⟨w, hw, d, _, hview, hout, hnoted⟩ => ?_
    obtain ⟨hc, hf, hev, hinv⟩ := (noteInserted_sat htrack r.2 cstate).of_ok hnoted
    show Tracked p (tr ++ [.inserted a fill r.2]) r.1
    rw [hout] at hev ⊢
    exact h.insert (l := ⟨p.getTag a, _, d⟩) hp hcoh hw he.1 hline rfl (get_eq_none ht he.2) hview hf hev
      hinv hc
  | load a bytes =>
    refine (load_sat bytes).bind fun r ⟨hview, hstats⟩ => ?_
    exact h.quiet (congrArg _ hstats) (congrArg _ hstats) (congrArg _ hstats)
      (hstats ▸ h.sum) hview (fun b => by simp [lastMove_snoc, Event.move])
      fun b => by simp [inserted_snoc]
  | store a buf =>
    refine (store_sat ht buf).bind fun c' ⟨l, hget, hview, _, hstats⟩ => ?_
    have hmove : ∀ b, lastMove (tr ++ [.stored a buf]) b = lastMove tr b := fun b => by
      simp [lastMove_snoc, Event.move]
    refine h.assign hcoh hget ?_ hview (congrArg _ hstats) (congrArg _ hstats) (congrArg _ hstats)
      (hstats ▸ h.invalidated_subset) (fun b hb => ?_)
      (fun b _ => hmove b) fun b => by simp [inserted_snoc]
    · rintro l' ⟨⟩
      exact (get_eq_some hget).1
    · exact fun hmv => hb ((h.evicted b).mpr ((hmove b).symm.trans hmv))
  | setInfo a cstate extra =>
    replace ht : p.getTag a ≠ invalidTag := ht
    refine (h.setInfo hp htrack hcoh he hline ht fun l hget l' hl' => ?_).bind fun c' hc => hc
    obtain ⟨hread, hl⟩ := readInfo_of_get ht hget
    have hway : wayLine { c.readInfo p a with cstate := cstate, extra := extra } l.data =
        some ⟨p.getTag a, _, l.data⟩ := wayLine_of_tag (by rw [hread]; exact hl) ht
    rw [hway] at hl'
    obtain rfl := Option.some.inj hl'
    rfl
  | invalidate a =>
    refine (h.setInfo hp htrack hcoh he hline ht fun l _ l' hl' => ?_).bind fun c' hc => ?_
    · rw [wayLine_invalidate] at hl'
      cases hl'
    · rwa [if_pos (by rfl)] at hc
  | count a op miss =>
    refine (h.count htrack op miss).bind fun r hr => ?_
    show Tracked p (tr ++ if miss then [.missed a r.2] else []) r.1
    refine hr.quiet rfl rfl rfl hr.sum rfl (fun b => ?_) fun b => ?_
    · split <;> simp [lastMove_snoc, Event.move]
    · split <;> simp [inserted_snoc]
  | enable b =>
    exact h.quiet rfl rfl rfl h.sum rfl (fun b => by simp) fun b => by simp

/-- A miss is cold if the line was never inserted, a capacity miss if it was evicted and has not come back
since, and a sharing miss otherwise. The three counters add up to the misses. -/
theorem miss_types {n : ℕ} (P : Policy n) (ι : Type) [Inhabited ι] (p : Params) (k : ℕ) (hk : k < 32)
    (hline : p.lineSize = 2 ^ k) (htrack : p.trackMissTypes = true) (tr : List (Event ι))
    (c : Cache P ι)
    (h : (machine P ι p).Run
      (fun action => p.getTag action.address ≠ invalidTag ∧ action.OnLine p) tr c) :
    (∀ a op, c.enabled = true → (op = .write → p.isInstructionCache = false) →
      ∃ c' type, c.updateMissCounters p a op true = .ok (c', type) ∧
        (type = .cold ↔ ¬ Inserted tr a) ∧
        (type = .capacity ↔ lastMove tr a = some .evicted) ∧
        (type = .sharing ↔ Inserted tr a ∧ lastMove tr a ≠ some .evicted)) ∧
    c.counters.cold + c.counters.capacity + c.counters.sharing = c.counters.misses := by
  have hp : p.LineBits k := ⟨hk, hline⟩
  have htracked : Coherent p tr c ∧ Tracked p tr c :=
    h.invariant (E := fun _ => True) (I := fun tr c => Coherent p tr c ∧ Tracked p tr c)
      (fun c hc => by rw [hc]; exact ⟨coherent_create, tracked_create⟩)
      fun tr c action hi ha he => ((hi.1.step hp action ha.1 he).and
        (hi.2.step hp htrack hi.1 action ha.1 ha.2 he)).imp (fun _ _ => trivial) fun _ h => h
  refine ⟨fun a op hen hop => ?_, htracked.2.sum⟩
  obtain ⟨m, hm⟩ : ∃ m, countAccess p c.counters op = .ok m := by
    unfold countAccess
    dsimp only
    split
    · exact ⟨_, rfl⟩
    · next hnot =>
      have hwrite : op = .write := by cases op <;> simp_all
      rw [check_pos (hop hwrite)]
      exact ⟨_, rfl⟩
  obtain ⟨m', hm'⟩ : ∃ m', updateMissTypeCounters (countMiss m op) (c.getMissType a) = .ok m' := by
    unfold getMissType
    split_ifs <;> exact ⟨_, rfl⟩
  refine ⟨{ c with counters := m' }, c.getMissType a, ?_, htracked.2.getMissType a⟩
  rw [updateMissCounters, Stats.updateMissCounters, if_pos hen, hm, ok_bind, if_pos rfl, if_pos htrack]
  dsimp only
  rw [hm']
  rfl

instance (p : Params) : DecidablePred (Action.OnLine p : Action Unit → Prop)
  | .insert a _ _ _ | .setInfo a _ _ | .invalidate a =>
    inferInstanceAs (Decidable (p.getLineOffset a = 0))
  | .load _ _ | .store _ _ | .count _ _ _ | .enable _ => isTrue trivial

/-- One line displaces another in a cache with a single way. -/
theorem miss_types_displaced : ∃ (tr : List (Event Unit)) (c c' : Cache (lru 1) Unit) (type : MissType),
    (machine (lru 1) Unit ⟨64, 1, true, false⟩).Run
      (fun action => Params.getTag ⟨64, 1, true, false⟩ action.address ≠ invalidTag ∧
        action.OnLine ⟨64, 1, true, false⟩) tr c ∧
    c.updateMissCounters ⟨64, 1, true, false⟩ 0 .read true = .ok (c', type) ∧ type = .capacity := by
  obtain ⟨tr, c, h, hen, hmove⟩ := System.Run.of_reaches (S := machine (lru 1) Unit ⟨64, 1, true, false⟩)
    (P := fun action => Params.getTag ⟨64, 1, true, false⟩ action.address ≠ invalidTag ∧
      action.OnLine ⟨64, 1, true, false⟩)
    (Q := fun tr c => c.enabled = true ∧ lastMove tr 0 = some .evicted) (.start rfl)
    [.enable true, .count 0 .read true, .insert 0 .shared () (some zeroLine),
      .insert 64 .modified () (some zeroLine)]
  obtain ⟨c', type, hupd, -, hcap, -⟩ := (miss_types (lru 1) Unit ⟨64, 1, true, false⟩ 6 (by decide) rfl
    rfl tr c h).1 0 .read hen nofun
  exact ⟨tr, c, c', type, h, hupd, hcap.mpr hmove⟩

/-- With lines of one byte the line of the last address is displaced unnoticed, so that a miss on it is
taken for a sharing miss. -/
theorem last_byte_sharing : ∃ (tr : List (Event Unit)) (c c' : Cache (lru 1) Unit)
    (out : List (Event Unit)),
    (machine (lru 1) Unit ⟨1, 1, true, false⟩).Run (Action.OnLine ⟨1, 1, true, false⟩) tr c ∧
    (c.getCacheLineInfo ⟨1, 1, true, false⟩ (2 ^ 64 - 1)).isSome = true ∧
    (machine (lru 1) Unit ⟨1, 1, true, false⟩).step c (.insert 5 .shared () none) = .ok (c', out) ∧
    c'.getCacheLineInfo ⟨1, 1, true, false⟩ (2 ^ 64 - 1) = none ∧
    c'.getMissType (2 ^ 64 - 1) = .sharing := by
  obtain ⟨tr, c, h, hinfo, ⟨c', out⟩, heq, hgone⟩ := System.Run.of_reaches
    (S := machine (lru 1) Unit ⟨1, 1, true, false⟩) (P := Action.OnLine ⟨1, 1, true, false⟩)
    (Q := fun _ c => (c.getCacheLineInfo ⟨1, 1, true, false⟩ (2 ^ 64 - 1)).isSome = true ∧
      ∃ r, (machine (lru 1) Unit ⟨1, 1, true, false⟩).step c (.insert 5 .shared () none) = .ok r ∧
        r.1.getCacheLineInfo ⟨1, 1, true, false⟩ (2 ^ 64 - 1) = none ∧
        r.1.getMissType (2 ^ 64 - 1) = .sharing) (.start rfl)
    [.insert 0 .shared () none, .insert (2 ^ 64 - 1) .modified () none]
  exact ⟨tr, c, c', out, h, hinfo, heq, hgone⟩

end Runs

end Graphite.Cache
