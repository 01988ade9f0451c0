import Graphite.Cache.Lru
import Graphite.Cache.Model
import Graphite.Library.SetAssoc
import Mathlib

/-! # A cache as a memory

A cache is a partial map from tags to lines: an access and a change of the info overwrite the way of
a tag, an insertion takes a way from the line it displaces. Along every run the bytes of a line are
the last ones stored or filled.
-/

namespace Graphite.Cache

open Outcome Function List Option SetAssoc

/-! ## Addresses -/

section Addresses

variable {p : Params} {k a i tag : ℕ}

/-- Lines have `2 ^ k` bytes. -/
structure Params.LineBits (p : Params) (k : ℕ) : Prop where
  lt : k < 32
  size : p.lineSize = 2 ^ k

variable (hp : p.LineBits k)
include hp

theorem Params.LineBits.log : p.logLineSize = k := by
  rw [Params.logLineSize, hp.size, floorLog2_two_pow hp.lt]
  rfl

theorem Params.LineBits.getTag : p.getTag a = a / 2 ^ k := by
  rw [Params.getTag, hp.log, Nat.shiftRight_eq_div_pow]

theorem Params.LineBits.getLineOffset : p.getLineOffset a = a % 2 ^ k := by
  rw [Params.getLineOffset, hp.size, Nat.and_two_pow_sub_one_eq_mod]

theorem Params.LineBits.add (h : p.getLineOffset a + i < p.lineSize) :
    p.getTag (a + i) = p.getTag a ∧ p.getLineOffset (a + i) = p.getLineOffset a + i := by
  rw [hp.getLineOffset, hp.size] at h
  rw [hp.getTag, hp.getTag, hp.getLineOffset, hp.getLineOffset]
  have ha := Nat.div_add_mod a (2 ^ k)
  have hsum : a + i = a % 2 ^ k + i + 2 ^ k * (a / 2 ^ k) := by omega
  constructor
  · rw [hsum, Nat.add_mul_div_left _ _ (Nat.two_pow_pos k), Nat.div_eq_of_lt h, zero_add]
  · rw [hsum, Nat.add_mul_mod_self_left, Nat.mod_eq_of_lt h]

theorem Params.LineBits.getAddressFromTag (ha : a < 2 ^ 64) :
    p.getAddressFromTag (p.getTag a) = a - p.getLineOffset a := by
  have hdiv := Nat.div_add_mod a (2 ^ k)
  rw [Params.getAddressFromTag, hp.log, hp.getTag, hp.getLineOffset, Nat.shiftLeft_eq, mul_comm,
    Nat.mod_eq_of_lt (by omega)]
  omega

theorem Params.LineBits.lineAddress (ha : a < 2 ^ 64) :
    p.getTag (p.getAddressFromTag (p.getTag a)) = p.getTag a ∧
      p.getLineOffset (p.getAddressFromTag (p.getTag a)) = 0 := by
  have hsub : a - p.getLineOffset a = 2 ^ k * (a / 2 ^ k) := by
    have hdiv := Nat.div_add_mod a (2 ^ k)
    rw [hp.getLineOffset]
    omega
  rw [hp.getAddressFromTag ha, hsub, hp.getTag, hp.getTag, hp.getLineOffset]
  exact ⟨Nat.mul_div_cancel_left _ (Nat.two_pow_pos k), Nat.mul_mod_right _ _⟩

/-- Only the line of the last byte, if lines have one byte, starts at the invalid address. -/
theorem Params.LineBits.getAddressFromTag_ne (ha : a < 2 ^ 64) (ht : p.getTag a ≠ invalidTag) :
    p.getAddressFromTag (p.getTag a) ≠ invalidTag := by
  intro he
  have hsub := hp.getAddressFromTag ha
  have hle : p.getLineOffset a ≤ a := by
    rw [hp.getLineOffset]
    exact Nat.mod_le _ _
  rw [he] at hsub
  have hlast : a = invalidTag := by unfold invalidTag at hsub ⊢; omega
  have hzero : invalidTag % 2 ^ k = 0 := by
    rw [← hlast, ← hp.getLineOffset]
    omega
  -- the last address is odd
  cases k with
  | zero => exact ht (by rw [hp.getTag, hlast, pow_zero, Nat.div_one])
  | succ j =>
    have hdvd : 2 ∣ invalidTag := (Dvd.intro_left _ rfl).trans (Nat.dvd_of_mod_eq_zero hzero)
    revert hdvd
    decide

end Addresses

theorem Params.setNum_lt {p : Params} (h : 0 < p.numSets) (a : ℕ) : p.setNum a < p.numSets :=
  Nat.lt_of_le_of_lt Nat.and_le_right (Nat.sub_lt h one_pos)

/-! ## The store of a cache -/

section View

variable {n : ℕ} {P : Policy n} {ι : Type}

def geometry (n : ℕ) (p : Params) : SetAssoc.Geometry ℕ :=
  ⟨fun tag => tag &&& (p.numSets - 1), n⟩

abbrev Line (ι : Type) := SetAssoc.Line ℕ (LineInfo ι) LineData

def wayLine (i : LineInfo ι) (d : LineData) : Option (Line ι) :=
  if i.isValid then some ⟨i.tag, i, d⟩ else none

def view (sets : ℕ → CacheSet P ι) : SetAssoc.Store ℕ (LineInfo ι) LineData := fun s w =>
  if h : w < n then wayLine ((sets s).info ⟨w, h⟩) ((sets s).lines ⟨w, h⟩) else none

def lookup (p : Params) (c : Cache P ι) (tag : ℕ) : Option (LineInfo ι × LineData) :=
  let s := c.sets ((geometry n p).set tag)
  (s.find tag).map fun w => (s.info w, s.lines w)

variable {p : Params} {c : Cache P ι} {sets : ℕ → CacheSet P ι} {tag : ℕ} {w : Fin n}
  {i : LineInfo ι} {d : LineData} {l : Line ι} {s : CacheSet P ι}

theorem wayLine_of_tag (h : i.tag = tag) (ht : tag ≠ invalidTag) : wayLine i d = some ⟨tag, i, d⟩ := by
  subst h
  simp [wayLine, LineInfo.isValid, ht]

theorem wayLine_invalidate : wayLine i.invalidate d = none := by
  simp [wayLine, LineInfo.isValid, LineInfo.invalidate]

theorem tag_of_wayLine (h : wayLine i d = some l) : l.info.tag = l.tag ∧ l.tag ≠ invalidTag := by
  unfold wayLine at h
  split at h
  · next hv =>
    obtain rfl := some.inj h
    exact ⟨rfl, by simpa [LineInfo.isValid] using hv⟩
  · cases h

@[simp] theorem view_apply (s : ℕ) (w : Fin n) :
    view sets s w = wayLine ((sets s).info w) ((sets s).lines w) := by
  simp [view]

theorem tag_of_view {s v : ℕ} (h : view sets s v = some l) :
    l.info.tag = l.tag ∧ l.tag ≠ invalidTag := by
  unfold view at h
  split at h
  · exact tag_of_wayLine h
  · cases h

theorem find_view (ht : tag ≠ invalidTag) : find (geometry n p) (view sets) tag =
    ((sets ((geometry n p).set tag)).find tag).map Fin.val := by
  have hrange : range n = (finRange n).map Fin.val := map_coe_finRange_eq_range.symm
  have hpred : ∀ w : Fin n, ((view sets ((geometry n p).set tag) w).any fun l => l.tag = tag) =
      decide (((sets ((geometry n p).set tag)).info w).tag = tag) := by
    intro w
    rw [view_apply, wayLine]
    split
    · simp
    · next hv =>
      have hinv : ((sets ((geometry n p).set tag)).info w).tag = invalidTag := by
        simpa [LineInfo.isValid] using hv
      simp [hinv, ht.symm]
  unfold find CacheSet.find
  rw [show (geometry n p).ways = n from rfl, hrange, ← map_reverse, find?_map]
  congr 2
  exact funext hpred

theorem lookup_eq (ht : tag ≠ invalidTag) : lookup p c tag =
    (get (geometry n p) (view c.sets) tag).map fun l => (l.info, l.data) := by
  unfold lookup SetAssoc.get
  rw [find_view ht]
  cases hf : (c.sets ((geometry n p).set tag)).find tag with
  | none => simp [hf]
  | some w => simp [hf, wayLine_of_tag (CacheSet.tag_of_find hf) ht]

theorem get_of_find (ht : tag ≠ invalidTag) (hf : (sets ((geometry n p).set tag)).find tag = some w) :
    SetAssoc.get (geometry n p) (view sets) tag = some
      ⟨tag, (sets ((geometry n p).set tag)).info w, (sets ((geometry n p).set tag)).lines w⟩ := by
  simp [SetAssoc.get, find_view ht, hf, wayLine_of_tag (CacheSet.tag_of_find hf) ht]

theorem view_update (w : Fin n)
    (hi : ∀ v, v ≠ w → s.info v = (sets ((geometry n p).set tag)).info v)
    (hl : ∀ v, v ≠ w → s.lines v = (sets ((geometry n p).set tag)).lines v) :
    view (update sets ((geometry n p).set tag) s) =
      put (geometry n p) (view sets) tag w (wayLine (s.info w) (s.lines w)) := by
  funext m v
  rw [put_apply]
  unfold view
  rcases eq_or_ne m ((geometry n p).set tag) with rfl | hm
  · rw [update_self]
    by_cases hv : v < n
    · rcases eq_or_ne (⟨v, hv⟩ : Fin n) w with rfl | hne
      · simp [hv]
      · have hne' : v ≠ w := fun e => hne (Fin.ext e)
        simp [hv, hne', hi _ hne, hl _ hne]
    · have hne : v ≠ w := fun e => hv (e ▸ w.isLt)
      simp [hv, hne]
  · simp [hm]

theorem view_policy {m : ℕ} (hi : s.info = (sets m).info) (hl : s.lines = (sets m).lines) :
    view (update sets m s) = view sets := by
  funext m' v
  unfold view
  rcases eq_or_ne m' m with rfl | hm
  · rw [update_self, hi, hl]
  · rw [update_of_ne hm]

end View

/-! ## What the operations do to the store -/

section Operations

variable {n : ℕ} {P : Policy n} {ι : Type} {p : Params} {c : Cache P ι} {a : ℕ}

section Present

variable (ht : p.getTag a ≠ invalidTag)
include ht

theorem getCacheLineInfo_eq : c.getCacheLineInfo p a =
    (get (geometry n p) (view c.sets) (p.getTag a)).map SetAssoc.Line.info := by
  have hlook := lookup_eq (p := p) (c := c) ht
  have hinfo : c.getCacheLineInfo p a = (lookup p c (p.getTag a)).map Prod.fst := by
    simp only [getCacheLineInfo, lookup, Option.map_map]
    rfl
  rw [hinfo, hlook, Option.map_map]
  rfl

theorem load_eq {bytes : ℕ} {l : Line ι} (hget : get (geometry n p) (view c.sets) (p.getTag a) = some l)
    (hb : p.getLineOffset a + bytes ≤ p.lineSize) :
    ∃ c', c.load p a bytes = .ok (c', readBytes l.data (p.getLineOffset a) bytes) := by
  obtain ⟨w, hf⟩ : ∃ w, (c.getSet p a).find (p.getTag a) = some w := by
    cases hf : (c.getSet p a).find (p.getTag a) with
    | some w => exact ⟨w, rfl⟩
    | none =>
      have hnone : find (geometry n p) (view c.sets) (p.getTag a) = none := by
        rw [find_view ht]
        exact congrArg (Option.map Fin.val) hf
      rw [find_eq_none_iff, hget] at hnone
      cases hnone
  have hl : l.data = (c.getSet p a).lines w := by
    rw [get_of_find ht hf] at hget
    rw [← some.inj hget]
    rfl
  unfold load
  rw [hf, hl]
  simp only [CacheSet.readLine, check_pos hb, ok_bind, pure_eq_ok]
  exact ⟨_, rfl⟩

theorem view_setSet {s : CacheSet P ι} {w : Fin n} (hf : (c.getSet p a).find (p.getTag a) = some w)
    (hi : ∀ v, v ≠ w → s.info v = (c.getSet p a).info v)
    (hl : ∀ v, v ≠ w → s.lines v = (c.getSet p a).lines v) :
    view (c.setSet p a s).sets = assign (geometry n p) (view c.sets) (p.getTag a)
      (wayLine (s.info w) (s.lines w)) := by
  have hfind : find (geometry n p) (view c.sets) (p.getTag a) = some w.val := by
    rw [find_view ht]
    exact congrArg (Option.map Fin.val) hf
  rw [assign, hfind, setSet]
  exact view_update w hi hl

theorem store_sat (buf : List UInt8) : Ensures (c.store p a buf) fun c' =>
    ∃ l, get (geometry n p) (view c.sets) (p.getTag a) = some l ∧
      view c'.sets = assign (geometry n p) (view c.sets) (p.getTag a)
        (some { l with data := writeBytes l.data (p.getLineOffset a) buf }) ∧
      p.getLineOffset a + buf.length ≤ p.lineSize ∧ c'.toStats = c.toStats := by
  unfold store
  split
  · trivial
  · next w hf =>
    refine sat_bind.mpr (sat_check_bind (fun hb => ⟨_, get_of_find ht hf, ?_, hb, rfl⟩) fun _ => trivial)
    refine (view_setSet ht hf (fun v hv => ?_) fun v hv => ?_).trans ?_
    · rfl
    · exact update_of_ne hv _ _
    · rw [wayLine_of_tag (CacheSet.tag_of_find hf) ht]
      simp only [update_self]
      rfl

theorem setCacheLineInfo_sat (u : LineInfo ι) : Ensures (c.setCacheLineInfo p a u) fun c' =>
    ∃ l, get (geometry n p) (view c.sets) (p.getTag a) = some l ∧ view c'.sets =
        assign (geometry n p) (view c.sets) (p.getTag a) (wayLine u l.data) ∧
      c'.toStats = c.toStats.noteInfo p a l.info.cstate u.cstate := by
  unfold setCacheLineInfo
  split
  · trivial
  · next w hf =>
    refine ⟨_, get_of_find ht hf, (view_setSet ht hf (fun v hv => ?_) fun v hv => ?_).trans ?_, rfl⟩
    · exact update_of_ne hv _ _
    · rfl
    · simp only [CacheSet.assign, update_self]
      rfl

end Present

theorem load_sat (bytes : ℕ) : Ensures (c.load p a bytes) fun r =>
    view r.1.sets = view c.sets ∧ r.1.toStats = c.toStats := by
  unfold load
  split
  · trivial
  · refine sat_bind.mpr (ensures_bind fun _ => ⟨?_, rfl⟩)
    exact view_policy rfl rfl

/-- The line an insertion into way `w` of the set of `a` displaces. -/
def displaced (p : Params) (c : Cache P ι) (a w : ℕ) : Option (Evicted ι) :=
  (view c.sets (p.setNum a) w).map fun l => (p.getAddressFromTag l.tag, l.info, l.data)

theorem displaced_tag (p : Params) (c : Cache P ι) (a w : ℕ) :
    (displaced p c a w).map (fun e => e.2.1.tag) =
      (view c.sets (p.setNum a) w).map SetAssoc.Line.tag := by
  unfold displaced
  cases hl : view c.sets (p.setNum a) w with
  | none => rfl
  | some l => exact congrArg some (tag_of_view hl).1

theorem CacheSet.insert_sat {s : CacheSet P ι} (info : LineInfo ι) (fill : Option LineData) :
    Ensures (s.insert info fill) fun r => ∃ w : Fin n,
      r.1.info = update s.info w info ∧ (∀ v, v ≠ w → r.1.lines v = s.lines v) ∧
      (∀ d ∈ fill, r.1.lines w = d) ∧
      r.2 = if (s.info w).isValid then some (s.info w, s.lines w) else none := by
  unfold CacheSet.insert
  refine ensures_bind fun ⟨policy, index⟩ => ?_
  by_cases h : index < n
  · simp only [h, dif_pos]
    refine ⟨⟨index, h⟩, rfl, fun v hv => ?_, ?_, rfl⟩
    · cases fill with
      | none => rfl
      | some d => exact update_of_ne hv _ _
    · rintro d rfl
      exact update_self _ _ _
  · simp [h]

theorem insertCacheLine_sat {info : LineInfo ι} {fill : Option LineData} (hi : info.tag = p.getTag a)
    (ht : p.getTag a ≠ invalidTag) :
    Ensures (c.insertCacheLine p a info fill) fun r =>
      ∃ w < n, ∃ d, (∀ f ∈ fill, d = f) ∧ view r.1.sets =
          put (geometry n p) (view c.sets) (p.getTag a) w (some ⟨p.getTag a, info, d⟩) ∧
        r.2 = displaced p c a w ∧ c.toStats.noteInserted p a
          (r.2.toList.map fun e => (e.1, e.2.1.cstate)) info.cstate = .ok r.1.toStats := by
  unfold insertCacheLine
  refine (CacheSet.insert_sat info fill).bind fun ⟨s, out⟩ ⟨w, hinfo, hlines, hfill, hout⟩ => ?_
  dsimp only at hinfo hlines hfill hout
  have hview : view (c.setSet p a s).sets = put (geometry n p) (view c.sets) (p.getTag a) w
      (some ⟨p.getTag a, info, s.lines w⟩) := by
    refine (view_update w (fun v hv => ?_) hlines).trans ?_
    · rw [hinfo]
      exact update_of_ne hv _ _
    · rw [show s.info w = info from (congrFun hinfo w).trans (update_self _ _ _),
        wayLine_of_tag hi ht]
      rfl
  have hev : out.map (fun x => (p.getAddressFromTag x.1.tag, x.1, x.2)) = displaced p c a w := by
    rw [hout, displaced, view_apply, wayLine]
    split
    · next hv => rw [if_pos (by exact hv)]; rfl
    · next hv => rw [if_neg (by exact hv)]; rfl
  simp only [hev]
  cases hst : c.toStats.noteInserted p a ((displaced p c a w).toList.map fun e => (e.1, e.2.1.cstate))
      info.cstate with
  | error e => trivial
  | ok stats =>
    rw [ok_bind]
    refine ensures_bind fun _ => ?_
    exact ⟨w, w.isLt, s.lines w, fun f hf => hfill f hf, hview, rfl, hst⟩

end Operations

/-! ## Runs -/

section Runs

variable {n : ℕ} {P : Policy n} {ι : Type} {p : Params} {k : ℕ} {c c' : Cache P ι}
  {tr tr' : List (Event ι)} {a : ℕ}

/-- What an event leaves as the last value of a byte: a fill starts anew, a store has its own bytes. -/
def Event.writes (p : Params) (a : ℕ) (old : Option UInt8) : Event ι → Option UInt8
  | .inserted b fill _ =>
    if p.getTag b = p.getTag a then fill.map fun d => d (p.getLineOffset a) else old
  | .stored b buf => if b ≤ a then buf[a - b]?.or old else old
  | _ => old

/-- The last value stored or filled since the insertion of the line. -/
def lastValue (p : Params) (tr : List (Event ι)) (a : ℕ) : Option UInt8 :=
  tr.foldl (Event.writes p a) none

@[simp] theorem lastValue_snoc (e : Event ι) :
    lastValue p (tr ++ [e]) a = e.writes p a (lastValue p tr a) := by
  simp [lastValue]

/-- The store is a map, its tags are tags of addresses, and the bytes of its lines are the last ones. -/
structure Coherent (p : Params) (tr : List (Event ι)) (c : Cache P ι) : Prop where
  placed : SetAssoc.Placed (geometry n p) (view c.sets)
  tag : ∀ {s w l}, view c.sets s w = some l → ∃ a < 2 ^ 64, p.getTag a = l.tag
  value : ∀ {a l v}, SetAssoc.get (geometry n p) (view c.sets) (p.getTag a) = some l →
    lastValue p tr a = some v → l.data (p.getLineOffset a) = v

theorem coherent_create [Inhabited ι] : Coherent p [] (create : Cache P ι) := by
  have hview : view (create : Cache P ι).sets = empty := by
    funext s w
    simp [view, create, CacheSet.create, LineInfo.create, wayLine, LineInfo.isValid, empty]
  refine ⟨?_, fun h => ?_, fun h => ?_⟩
  · rw [hview]
    exact placed_empty
  · rw [hview] at h
    cases h
  · rw [hview, get_empty] at h
    cases h

theorem Coherent.congr (h : Coherent p tr c) (hview : view c'.sets = view c.sets)
    (hlast : ∀ a, lastValue p tr' a = lastValue p tr a) : Coherent p tr' c' := by
  refine ⟨hview ▸ h.placed, fun hl => h.tag (hview ▸ hl), fun hl hv => ?_⟩
  rw [hlast] at hv
  exact h.value (hview ▸ hl) hv

theorem Coherent.assign {t : ℕ} {l : Line ι} {x : Option (Line ι)} (h : Coherent p tr c)
    (hget : get (geometry n p) (view c.sets) t = some l) (hx : ∀ l' ∈ x, l'.tag = t)
    (hview : view c'.sets = assign (geometry n p) (view c.sets) t x)
    (hnew : ∀ a v, ∀ l' ∈ x, p.getTag a = t → lastValue p tr' a = some v →
      l'.data (p.getLineOffset a) = v)
    (hold : ∀ a, p.getTag a ≠ t → lastValue p tr' a = lastValue p tr a) : Coherent p tr' c' := by
  have hassign := h.placed.get_assign x hx (by simp [hget])
  obtain ⟨hlt, w, hw, hlw, hf⟩ := get_eq_some hget
  refine ⟨hview ▸ h.placed.assign x hx, fun {s w' l'} hl' => ?_, fun {a l' v} hl' hv => ?_⟩
  · rw [hview, SetAssoc.assign, hf] at hl'
    simp only [put_apply] at hl'
    split at hl'
    · rw [hx l' hl', ← hlt]
      exact h.tag hlw
    · exact h.tag hl'
  · rw [hview, hassign] at hl'
    split at hl'
    · next ht => exact hnew a v l' hl' ht hv
    · next ht =>
      rw [hold a ht] at hv
      exact h.value hl' hv

theorem Coherent.insert {w : ℕ} {l : Line ι} (h : Coherent p tr c) (hw : w < n)
    (hget : get (geometry n p) (view c.sets) l.tag = none)
    (htag : ∃ a < 2 ^ 64, p.getTag a = l.tag)
    (hview : view c'.sets = put (geometry n p) (view c.sets) l.tag w (some l))
    (hnew : ∀ a v, p.getTag a = l.tag → lastValue p tr' a = some v → l.data (p.getLineOffset a) = v)
    (hold : ∀ a, p.getTag a ≠ l.tag → lastValue p tr' a = lastValue p tr a) : Coherent p tr' c' := by
  refine ⟨hview ▸ placed_insert h.placed hget, fun {s w' l'} hl' => ?_, fun {a l' v} hl' hv => ?_⟩
  · rw [hview, put_apply] at hl'
    split at hl'
    · obtain rfl := some.inj hl'
      exact htag
    · exact h.tag hl'
  · rw [hview, get_insert h.placed hw hget] at hl'
    split at hl'
    · next ht =>
      obtain rfl := some.inj hl'
      exact hnew a v ht hv
    · next ht =>
      split at hl'
      · cases hl'
      · rw [hold a ht] at hv
        exact h.value hl' hv

/-- A byte of the line a store writes to: it has the new value or the old one. -/
theorem writeBytes_value (hp : p.LineBits k) {b : ℕ} {buf : List UInt8} {d : LineData} {v : UInt8}
    {old : Option UInt8}
    (ht : p.getTag a = p.getTag b) (hv : (Event.stored b buf : Event ι).writes p a old = some v)
    (hold : ∀ v, old = some v → d (p.getLineOffset a) = v) :
    writeBytes d (p.getLineOffset b) buf (p.getLineOffset a) = v := by
  have ha := Nat.div_add_mod a (2 ^ k)
  have hb := Nat.div_add_mod b (2 ^ k)
  rw [hp.getTag, hp.getTag] at ht
  rw [ht] at ha
  simp only [writeBytes, Event.writes, hp.getLineOffset] at hv hold ⊢
  have hle : b ≤ a ↔ b % 2 ^ k ≤ a % 2 ^ k := by omega
  simp only [← hle]
  split
  · next hba =>
    rw [if_pos hba] at hv
    rw [show a % 2 ^ k - b % 2 ^ k = a - b by omega, getD_eq_getElem?_getD]
    cases hi : buf[a - b]? with
    | some u => simpa [hi] using hv
    | none => simpa [hi] using hold v (by simpa [hi] using hv)
  · next hba =>
    rw [if_neg hba] at hv
    exact hold v hv

theorem writes_other (hp : p.LineBits k) {b : ℕ} {buf : List UInt8}
    (hb : p.getLineOffset b + buf.length ≤ p.lineSize) (ht : p.getTag a ≠ p.getTag b)
    (old : Option UInt8) : (Event.stored b buf : Event ι).writes p a old = old := by
  simp only [Event.writes]
  split
  · next hle =>
    have hnone : buf[a - b]? = none := by
      rw [getElem?_eq_none_iff]
      by_contra hlt
      have hadd := (hp.add (a := b) (i := a - b) (by omega)).1
      rw [Nat.add_sub_cancel' hle] at hadd
      exact ht hadd
    rw [hnone, none_or]
  · rfl

section Step

variable [Inhabited ι]

theorem readInfo_of_get {l : Line ι} (ht : p.getTag a ≠ invalidTag)
    (hget : get (geometry n p) (view c.sets) (p.getTag a) = some l) :
    c.readInfo p a = l.info ∧ l.info.tag = p.getTag a := by
  obtain ⟨hl, w, -, hw, -⟩ := get_eq_some hget
  refine ⟨?_, (tag_of_view hw).1.trans hl⟩
  rw [readInfo, getCacheLineInfo_eq ht, hget]
  rfl

omit [Inhabited ι] in
theorem get_eq_none (ht : p.getTag a ≠ invalidTag) (h : (c.getCacheLineInfo p a).isNone) :
    get (geometry n p) (view c.sets) (p.getTag a) = none := by
  rw [getCacheLineInfo_eq ht] at h
  simpa using h

omit [Inhabited ι] in
theorem updateMissCounters_sat (op : MemOp) (miss : Bool) :
    Ensures (c.updateMissCounters p a op miss) fun r => r.1.sets = c.sets :=
  ensures_bind fun _ => rfl

theorem Coherent.step (hp : p.LineBits k) (h : Coherent p tr c) (action : Action ι)
    (ht : p.getTag action.address ≠ invalidTag) (he : (machine P ι p).enabled c action) :
    Ensures ((machine P ι p).step c action) fun r => Coherent p (tr ++ r.2) r.1 := by
  cases action with
  | insert a cstate extra fill =>
    refine (insertCacheLine_sat rfl ht).bind fun r ⟨w, hw, d, hd, hview, _⟩ => ?_
    refine h.insert (l := ⟨p.getTag a, _, d⟩) hw (get_eq_none ht he.2) ⟨a, he.1, rfl⟩ hview
      (fun b v hb hv => ?_) fun b hb => ?_
    · rw [lastValue_snoc, Event.writes, if_pos hb.symm] at hv
      obtain ⟨f, hf, rfl⟩ := map_eq_some_iff.mp hv
      rw [hd f hf]
    · rw [lastValue_snoc, Event.writes, if_neg (Ne.symm hb)]
  | load a bytes =>
    refine (load_sat bytes).bind fun r ⟨hview, _⟩ => ?_
    exact h.congr hview fun b => by simp [Event.writes]
  | store a buf =>
    refine (store_sat ht buf).bind fun c' ⟨l, hget, hview, hb, _⟩ => ?_
    refine h.assign hget ?_ hview (fun b v l' hl' hba hv => ?_) fun b hba => ?_
    · rintro l' ⟨⟩
      exact (get_eq_some hget).1
    · obtain rfl := some.inj hl'
      rw [lastValue_snoc] at hv
      exact writeBytes_value hp hba hv fun v hv => h.value (hba ▸ hget) hv
    · rw [lastValue_snoc]
      exact writes_other hp hb hba _
  | setInfo a cstate extra =>
    replace ht : p.getTag a ≠ invalidTag := ht
    refine (setCacheLineInfo_sat ht _).bind fun c' ⟨l, hget, hview, _⟩ => ?_
    obtain ⟨hread, hl⟩ := readInfo_of_get ht hget
    have hlast : ∀ b, lastValue p (tr ++ if cstate = .invalid then [.invalidated a] else []) b =
        lastValue p tr b := by
      intro b
      split <;> simp [Event.writes]
    have hway : wayLine { l.info with cstate := cstate, extra := extra } l.data =
        some ⟨p.getTag a, _, l.data⟩ := wayLine_of_tag hl ht
    rw [hread, hway] at hview
    refine h.assign hget (by rintro _ ⟨⟩; rfl) hview (fun b v l' hl' hba hv => ?_) fun b _ => hlast b
    obtain rfl := some.inj hl'
    have hval : l.data (p.getLineOffset b) = v := h.value (hba ▸ hget) ((hlast b).symm.trans hv)
    exact hval
  | invalidate a =>
    refine (setCacheLineInfo_sat ht _).bind fun c' ⟨l, hget, hview, _⟩ => ?_
    rw [wayLine_invalidate] at hview
    exact h.assign hget (by simp) hview (by simp) fun b _ => by simp [Event.writes]
  | count a op miss =>
    refine (updateMissCounters_sat op miss).bind fun r hsets => ?_
    refine h.congr (congrArg view hsets) fun b => ?_
    show lastValue p (tr ++ if miss then _ else []) b = _
    split <;> simp [Event.writes]
  | enable b =>
    exact h.congr rfl fun b => by simp

theorem coherent_of_run (hp : p.LineBits k)
    (h : (machine P ι p).Run (fun action => p.getTag action.address ≠ invalidTag) tr c) :
    Coherent p tr c :=
  h.invariant (E := fun _ => True) (I := fun tr c => Coherent p tr c)
    (fun c hc => by rw [hc]; exact coherent_create) fun _ _ action hi ht he => hi.step hp action ht he

omit [Inhabited ι] in
/-- An insertion goes through when the policy names a way of the set whose line may be evicted. -/
theorem insertCacheLine_ok (hp : p.LineBits k) (h : Coherent p tr c) {info : LineInfo ι}
    {fill : Option LineData} {policy : P.State} {w : Fin n}
    (hw : P.getReplacementWay (c.getSet p a).policy (fun v => ((c.getSet p a).info v).isValid) =
      .ok (policy, w.val))
    (hstate : c.enabled = true → ((c.getSet p a).info w).isValid = true →
      ((c.getSet p a).info w).cstate ≠ .invalid) :
    ∃ r, c.insertCacheLine p a info fill = .ok r := by
  have hset : ∃ s, (c.getSet p a).insert info fill = .ok (s,
      if ((c.getSet p a).info w).isValid then some ((c.getSet p a).info w, (c.getSet p a).lines w)
      else none) := by
    simp only [CacheSet.insert, hw, ok_bind, w.isLt, dif_pos, pure_eq_ok]
    exact ⟨_, rfl⟩
  obtain ⟨s, hs⟩ := hset
  unfold insertCacheLine
  rw [hs, ok_bind]
  cases hv : ((c.getSet p a).info w).isValid with
  | false =>
    simp only [Bool.false_eq_true, if_false, map_none, Stats.noteInserted, toList_none,
      map_nil, foldlM_nil, pure_eq_ok, ok_bind]
    rw [check_pos (by simp)]
    exact ⟨_, rfl⟩
  | true =>
    have hl : view c.sets (p.setNum a) w = some
        ⟨((c.getSet p a).info w).tag, (c.getSet p a).info w, (c.getSet p a).lines w⟩ := by
      rw [view_apply, wayLine, if_pos (by exact hv)]
      rfl
    obtain ⟨b, hb, htag⟩ := h.tag hl
    have hne : p.getAddressFromTag ((c.getSet p a).info w).tag ≠ invalidTag := by
      have ht := (tag_of_view hl).2
      rw [← htag] at ht
      have haddr := hp.getAddressFromTag_ne hb ht
      rwa [htag] at haddr
    simp only [if_true, map_some, Stats.noteInserted, toList_some, map_cons,
      map_nil, foldlM_cons, foldlM_nil, Stats.noteEviction, check_pos hne, pure_eq_ok,
      ok_bind]
    rw [check_pos]
    · exact ⟨_, rfl⟩
    · rintro hen e ⟨⟩
      exact hstate hen hv

end Step

/-- Loads return the last values, no tag is in two ways, and an insertion changes the inserted line and
the displaced one, which it returns. -/
theorem cache_memory {n : ℕ} (P : Policy n) (ι : Type) [Inhabited ι] (p : Params) (k : ℕ) (hk : k < 32)
    (hline : p.lineSize = 2 ^ k) (hsets : 0 < p.numSets) (tr : List (Event ι)) (c : Cache P ι)
    (h : (machine P ι p).Run (fun action => p.getTag action.address ≠ invalidTag) tr c) :
    (∀ a bytes, p.getTag a ≠ invalidTag → (c.getCacheLineInfo p a).isSome →
      p.getLineOffset a + bytes ≤ p.lineSize →
      ∃ c' out, c.load p a bytes = .ok (c', out) ∧ out.length = bytes ∧
        ∀ i v, i < bytes → lastValue p tr (a + i) = some v → out[i]? = some v) ∧
    (∀ s w s' w', ((c.sets s).info w).tag = ((c.sets s').info w').tag →
      ((c.sets s).info w).tag ≠ invalidTag → s = s' ∧ w = w' ∧ s < p.numSets) ∧
    ∀ a cstate extra fill, a < 2 ^ 64 → p.getTag a ≠ invalidTag → c.getCacheLineInfo p a = none →
      (∀ policy w, P.getReplacementWay (c.getSet p a).policy
          (fun v => ((c.getSet p a).info v).isValid) = .ok (policy, w) →
        (∃ v : Fin n, v.val = w ∧ (c.enabled = true → ((c.getSet p a).info v).isValid = true →
          ((c.getSet p a).info v).cstate ≠ .invalid)) →
        ∃ r, c.insertCacheLine p a (insertedInfo p a cstate extra) fill = .ok r) ∧
      ∀ c' evicted, c.insertCacheLine p a (insertedInfo p a cstate extra) fill = .ok (c', evicted) →
        (∃ d, (∀ f ∈ fill, d = f) ∧ ∀ tag, tag ≠ invalidTag → lookup p c' tag =
          if tag = p.getTag a then some (insertedInfo p a cstate extra, d)
          else if evicted.map (fun e => e.2.1.tag) = some tag then none else lookup p c tag) ∧
        ∀ e ∈ evicted, lookup p c e.2.1.tag = some e.2 ∧ p.getTag e.1 = e.2.1.tag ∧
          p.getLineOffset e.1 = 0 := by
  have hp : p.LineBits k := ⟨hk, hline⟩
  have hcoh := coherent_of_run hp h
  refine ⟨fun a bytes ht hsome hb => ?_, fun s w s' w' htag hv => ?_,
    fun a cstate extra fill ha ht hnone => ⟨?_, fun c' evicted hins => ?_⟩⟩
  · rw [getCacheLineInfo_eq ht, isSome_map, isSome_iff_exists] at hsome
    obtain ⟨l, hget⟩ := hsome
    obtain ⟨c', hload⟩ := load_eq ht hget hb
    refine ⟨c', _, hload, by simp [readBytes], fun i v hi hv => ?_⟩
    obtain ⟨htag, hoff⟩ := hp.add (a := a) (i := i) (by omega)
    have hval := hcoh.value (a := a + i) (htag ▸ hget) hv
    rw [hoff] at hval
    simp [readBytes, hi, hval]
  · have hl : view c.sets s w = some _ :=
      (view_apply s w).trans (wayLine_of_tag rfl hv)
    have hl' : view c.sets s' w' = some _ :=
      (view_apply s' w').trans (wayLine_of_tag htag.symm hv)
    have hs := hcoh.placed.set_tag hl
    have hs' := hcoh.placed.set_tag hl'
    obtain rfl : s = s' := hs.symm.trans hs'
    refine ⟨rfl, Fin.ext (hcoh.placed.way_unique w.isLt w'.isLt hl hl' rfl), ?_⟩
    obtain ⟨b, -, hb⟩ := hcoh.tag hl
    rw [← hs, ← hb]
    exact Params.setNum_lt hsets b
  · rintro policy w hw ⟨v, rfl, hstate⟩
    exact insertCacheLine_ok hp hcoh hw hstate
  · have hget : get (geometry n p) (view c.sets) (p.getTag a) = none :=
      get_eq_none ht (by simp [hnone])
    obtain ⟨w, hw, d, hd, hview, rfl, -⟩ := (insertCacheLine_sat rfl ht).of_ok hins
    refine ⟨⟨d, hd, fun tag htag => ?_⟩, fun e he => ?_⟩
    · rw [lookup_eq htag, lookup_eq htag, hview,
        get_insert (l := ⟨p.getTag a, insertedInfo p a cstate extra, d⟩) hcoh.placed hw hget,
        displaced_tag, apply_ite (Option.map _), apply_ite (Option.map _)]
      rfl
    · obtain ⟨l, hl, rfl⟩ := map_eq_some_iff.mp he
      obtain ⟨hinfo, hne⟩ := tag_of_view hl
      obtain ⟨b, hb, htag⟩ := hcoh.tag hl
      rw [hinfo, lookup_eq hne, hcoh.placed.get_victim (k := p.getTag a) hw hl, ← htag]
      exact ⟨rfl, hp.lineAddress hb⟩

/-- A byte stored into a line of a filled cache is loaded again. -/
theorem cache_memory_stored : ∃ (tr : List (Event Unit)) (c c' : Cache (lru 2) Unit) (out : List UInt8),
    (machine (lru 2) Unit ⟨64, 2, true, false⟩).Run
      (fun action => Params.getTag ⟨64, 2, true, false⟩ action.address ≠ invalidTag) tr c ∧
    c.load ⟨64, 2, true, false⟩ 130 2 = .ok (c', out) ∧ out[0]? = some 7 ∧ out[1]? = some 0 := by
  obtain ⟨tr, c, h, hsome, h0, h1⟩ := System.Run.of_reaches (S := machine (lru 2) Unit ⟨64, 2, true, false⟩)
    (P := fun action => Params.getTag ⟨64, 2, true, false⟩ action.address ≠ invalidTag)
    (Q := fun tr c => (c.getCacheLineInfo ⟨64, 2, true, false⟩ 130).isSome = true ∧
      lastValue ⟨64, 2, true, false⟩ tr 130 = some 7 ∧ lastValue ⟨64, 2, true, false⟩ tr 131 = some 0)
    (.start rfl)
    [.insert 128 .modified () (some zeroLine), .insert 256 .shared () (some zeroLine), .store 130 [7]]
  obtain ⟨c', out, hload, -, hout⟩ := (cache_memory (lru 2) Unit ⟨64, 2, true, false⟩ 6 (by decide) rfl
    (by decide) tr c h).1 130 2 (by decide +kernel) hsome (by decide +kernel)
  exact ⟨tr, c, c', out, h, hload, hout 0 7 (by decide) h0, hout 1 0 (by decide) h1⟩

/-- With lines of one byte the last address has the tag of an invalid line: it is present, and the next
insertion drops it without returning it. -/
theorem last_byte_dropped : ∃ (tr : List (Event Unit)) (c : Cache (lru 1) Unit),
    (machine (lru 1) Unit ⟨1, 1, true, false⟩).Run (fun _ => True) tr c ∧
    c.getCacheLineInfo ⟨1, 1, true, false⟩ (2 ^ 64 - 1) = some ⟨2 ^ 64 - 1, .modified, 0, ()⟩ ∧
    ∃ c', c.insertCacheLine ⟨1, 1, true, false⟩ 5 (insertedInfo ⟨1, 1, true, false⟩ 5 .shared ()) none =
        .ok (c', none) ∧
      c'.getCacheLineInfo ⟨1, 1, true, false⟩ (2 ^ 64 - 1) = none := by
  obtain ⟨tr, c, h, hinfo, ⟨c', _⟩, heq, rfl, hgone⟩ := System.Run.of_reaches
    (S := machine (lru 1) Unit ⟨1, 1, true, false⟩) (P := fun _ => True)
    (Q := fun _ c => c.getCacheLineInfo ⟨1, 1, true, false⟩ (2 ^ 64 - 1) =
        some ⟨2 ^ 64 - 1, .modified, 0, ()⟩ ∧
      ∃ r, c.insertCacheLine ⟨1, 1, true, false⟩ 5 (insertedInfo ⟨1, 1, true, false⟩ 5 .shared ()) none =
        .ok r ∧ r.2 = none ∧ r.1.getCacheLineInfo ⟨1, 1, true, false⟩ (2 ^ 64 - 1) = none) (.start rfl)
    [.insert 0 .shared () none, .insert (2 ^ 64 - 1) .modified () none]
  exact ⟨tr, c, h, hinfo, c', heq, hgone⟩

end Runs

end Graphite.Cache
