import Graphite.PrL2.Model

/-! # The cache hierarchy of a tile

Inclusion between the caches of a tile, and what the operations of the L1 and L2 controllers do to
them, as long as each line is used through one of the two L1 caches only. The L2 has every line of the
L1 caches, with the same state and contents, and marks it as cached there. The mark may also stand for
a line the L1 has dropped: the MSI controller drops a line it wants to write before it asks the L2.
-/

namespace Graphite.PrL2

open Outcome SetAssoc L2 Option

variable {A : Type} [DecidableEq A] {N : ℕ} {H I : Type}

section Store

variable {g : Geometry A} {c : Store A I LineData} {a : A} {l : Line A I LineData}

theorem setCacheLineInfo_eq (h : Placed g c) (hl : get g c a = some l) (info : Option I) :
    ∃ c', setCacheLineInfo g c a info = .ok c' ∧ Placed g c' ∧
      ∀ b, get g c' b = if b = a then info.map fun i => ⟨a, i, l.data⟩ else get g c b := by
  have hx : ∀ l' ∈ info.map fun i => (⟨a, i, l.data⟩ : Line A I LineData), l'.tag = a := by
    intro l' hl'
    obtain ⟨i, -, rfl⟩ := map_eq_some_iff.mp hl'
    rfl
  exact ⟨_, by simp only [setCacheLineInfo, hl]; rfl, h.assign _ hx, h.get_assign _ hx (by simp [hl])⟩

theorem writeLine_eq (h : Placed g c) (hl : get g c a = some l) {lineSize offset : ℕ}
    {buf : List UInt8} (hb : offset + buf.length ≤ lineSize) :
    ∃ c', writeLine g c a lineSize offset buf = .ok c' ∧ Placed g c' ∧ ∀ b, get g c' b =
        if b = a then some ⟨a, l.info, writeBytes l.data offset buf⟩ else get g c b := by
  have hx : ∀ l' ∈ some (⟨a, l.info, writeBytes l.data offset buf⟩ : Line A I LineData),
      l'.tag = a := by simp
  exact ⟨_, by simp only [writeLine, hl, check, hb, if_true]; rfl, h.assign _ hx,
    h.get_assign _ hx (by simp [hl])⟩

theorem getCacheLineInfo_eq (hl : get g c a = some l) : getCacheLineInfo g c a = some l.info := by
  simp [getCacheLineInfo, hl]

theorem getCacheLineInfo_none (hl : get g c a = none) : getCacheLineInfo g c a = none := by
  simp [getCacheLineInfo, hl]

end Store

/-- The L1 cache through which a tile uses each line. -/
structure Route (A : Type) where
  comp : A → MemComponent
  isL1 : ∀ a, comp a = .l1ICache ∨ comp a = .l1DCache

def Route.data : Route A := ⟨fun _ => .l1DCache, fun _ => .inr rfl⟩

def Tile.l1 (x : Tile A N H) : MemComponent → Store A CacheState LineData
  | .l1ICache => x.l1i
  | _ => x.l1d

abbrev Tile.setL1 (x : Tile A N H) (i d : Store A CacheState LineData) : Tile A N H :=
  { x with l1i := i, l1d := d }

abbrev Tile.setCaches (x : Tile A N H) (i d : Store A CacheState LineData)
    (c : Store A L2Info LineData) : Tile A N H :=
  { x with l1i := i, l1d := d, l2 := c }

variable {cfg : Config A N} {t : Fin N} {via : Route A} {x : Tile A N H} {a b : A} {p : Protocol}
  {loc : MemComponent}

/-! ## The L1 caches -/

/-- The copy of a line in the L1 cache it is used through. -/
def l1Copy (cfg : Config A N) (t : Fin N) (via : Route A) (x : Tile A N H) (a : A) :
    Option (Line A CacheState LineData) :=
  get (L1.geometry cfg t (via.comp a)) (x.l1 (via.comp a)) a

/-- Each L1 cache has only lines that are used through it. -/
structure L1Inv (cfg : Config A N) (t : Fin N) (via : Route A) (x : Tile A N H) : Prop where
  placed : ∀ comp, Placed (L1.geometry cfg t comp) (x.l1 comp)
  foreign : ∀ {comp a}, comp = .l1ICache ∨ comp = .l1DCache → comp ≠ via.comp a →
    get (L1.geometry cfg t comp) (x.l1 comp) a = none

theorem l1Copy_of_comp {comp : MemComponent} (h : via.comp a = comp) :
    l1Copy cfg t via x a = get (L1.geometry cfg t comp) (x.l1 comp) a := by
  subst h; rfl

section
omit [DecidableEq A]

theorem getL1Cache_eq (x : Tile A N H) (a : A) :
    L1.getL1Cache x (via.comp a) = .ok (x.l1 (via.comp a)) := by
  rcases via.isL1 a with h | h <;> rw [h] <;> rfl

theorem l1_setL1Cache (x : Tile A N H) (c : Store A CacheState LineData) (comp comp' : MemComponent) :
    (L1.setL1Cache x comp c).l1 comp' =
      if (comp' = .l1ICache ↔ comp = .l1ICache) then c else x.l1 comp' := by
  cases comp <;> cases comp' <;> rfl

end

theorem L1Inv.congr {H' : Type} {x' : Tile A N H'} (h : L1Inv cfg t via x) (hi : x'.l1i = x.l1i)
    (hd : x'.l1d = x.l1d) : L1Inv cfg t via x' := by
  have hl1 : ∀ comp, x'.l1 comp = x.l1 comp := fun comp => by cases comp <;> simp [Tile.l1, hi, hd]
  exact ⟨fun comp => by rw [hl1]; exact h.placed comp, fun hc hne => by rw [hl1]; exact h.foreign hc hne⟩

theorem l1Copy_congr {H' : Type} {x' : Tile A N H'} (hi : x'.l1i = x.l1i) (hd : x'.l1d = x.l1d) (a : A) :
    l1Copy cfg t via x' a = l1Copy cfg t via x a := by
  have hl1 : ∀ comp, x'.l1 comp = x.l1 comp := fun comp => by cases comp <;> simp [Tile.l1, hi, hd]
  rw [l1Copy, hl1]
  rfl

theorem L1Inv.setL1Cache {c : Store A CacheState LineData} (h : L1Inv cfg t via x)
    (hp : Placed (L1.geometry cfg t (via.comp a)) c)
    (hg : ∀ b ≠ a, get (L1.geometry cfg t (via.comp a)) c b = none ∨
      get (L1.geometry cfg t (via.comp a)) c b =
        get (L1.geometry cfg t (via.comp a)) (x.l1 (via.comp a)) b) :
    ∃ i d, L1.setL1Cache x (via.comp a) c = (x.setL1 i d) ∧ L1Inv cfg t via (x.setL1 i d) ∧
      ∀ b, l1Copy cfg t via (x.setL1 i d) b =
        if via.comp b = via.comp a then get (L1.geometry cfg t (via.comp a)) c b
        else l1Copy cfg t via x b := by
  have heq : L1.setL1Cache x (via.comp a) c =
      x.setL1 (L1.setL1Cache x (via.comp a) c).l1i (L1.setL1Cache x (via.comp a) c).l1d := by
    rcases via.isL1 a with h | h <;> rw [h] <;> rfl
  have hl1 : ∀ comp, comp = .l1ICache ∨ comp = .l1DCache →
      (L1.setL1Cache x (via.comp a) c).l1 comp = if comp = via.comp a then c else x.l1 comp := by
    intro comp hcomp
    rw [l1_setL1Cache]
    rcases via.isL1 a with ha | ha <;> rcases hcomp with rfl | rfl <;> simp [ha]
  refine ⟨_, _, heq, ?_, ?_⟩
  · rw [← heq]
    refine ⟨fun comp => ?_, fun {comp b} hcomp hne => ?_⟩
    · rw [l1_setL1Cache]
      split
      · next hiff =>
        have : L1.geometry cfg t comp = L1.geometry cfg t (via.comp a) := by
          rcases via.isL1 a with ha | ha <;> rw [ha] at hiff ⊢ <;> cases comp <;>
            first | rfl | simp at hiff
        rw [this]
        exact hp
      · exact h.placed comp
    · rw [hl1 comp hcomp]
      split
      · next ha =>
        subst ha
        have hba : b ≠ a := fun e => hne (by rw [e])
        rcases hg b hba with hn | ho
        · exact hn
        · rw [ho]; exact h.foreign hcomp hne
      · exact h.foreign hcomp hne
  · intro b
    rw [← heq, l1Copy, hl1 _ (via.isL1 b)]
    split
    · next hb => rw [hb]
    · rfl

theorem L1Inv.setLine {c : Store A CacheState LineData} {l : Option (Line A CacheState LineData)}
    (h : L1Inv cfg t via x) (hp : Placed (L1.geometry cfg t (via.comp a)) c)
    (hg : ∀ b, get (L1.geometry cfg t (via.comp a)) c b =
      if b = a then l else get (L1.geometry cfg t (via.comp a)) (x.l1 (via.comp a)) b) :
    ∃ i d, L1.setL1Cache x (via.comp a) c = (x.setL1 i d) ∧ L1Inv cfg t via (x.setL1 i d) ∧
      ∀ b, l1Copy cfg t via (x.setL1 i d) b = if b = a then l else l1Copy cfg t via x b := by
  obtain ⟨i, d, heq, hinv, hcp⟩ := h.setL1Cache hp fun b hb => .inr (by rw [hg, if_neg hb])
  refine ⟨i, d, heq, hinv, fun b => ?_⟩
  rw [hcp, hg]
  by_cases hb : b = a
  · simp [hb]
  · simp only [if_neg hb]
    split
    · next hv => rw [l1Copy_of_comp hv]
    · rfl

/-- Inclusion; `miss` says which lines the L1 has dropped on a miss. -/
structure CacheInv (cfg : Config A N) (t : Fin N) (via : Route A) (miss : A → Prop) (x : Tile A N H) :
    Prop where
  l1 : L1Inv cfg t via x
  l2 : Placed (cfg.l2 t) x.l2
  incl : ∀ {a l}, l1Copy cfg t via x a = some l →
    get (cfg.l2 t) x.l2 a = some ⟨a, ⟨l.info, via.comp a⟩, l.data⟩
  loc : ∀ {a l}, get (cfg.l2 t) x.l2 a = some l → l.info.cachedLoc = .invalid ∨
    l.info.cachedLoc = via.comp a ∧ ((l1Copy cfg t via x a).isSome ∨ miss a)
  state : ∀ {a l}, get (cfg.l2 t) x.l2 a = some l → l.info.cstate ≠ .invalid

/-- The copy of a line in the L2 of a tile: state and contents. -/
def copy (cfg : Config A N) (t : Fin N) (x : Tile A N H) (a : A) : Option (CacheState × LineData) :=
  (get (cfg.l2 t) x.l2 a).map fun l => (l.info.cstate, l.data)

theorem getInfo_of_get {l : Line A L2Info LineData} (h : get (cfg.l2 t) x.l2 a = some l) :
    getInfo cfg t x a = l.info := by
  simp [getInfo, getCacheLineInfo_eq h]

theorem getInfo_of_none (h : get (cfg.l2 t) x.l2 a = none) : getInfo cfg t x a = .default := by
  simp [getInfo, getCacheLineInfo_none h]

theorem cstate_eq (x : Tile A N H) {st : CacheState} (hst : st ≠ .invalid)
    (h : (getInfo cfg t x a).cstate = st) : ∃ d, copy cfg t x a = some (st, d) := by
  cases hl : get (cfg.l2 t) x.l2 a with
  | none =>
    rw [getInfo_of_none hl] at h
    exact absurd h.symm hst
  | some l =>
    rw [getInfo_of_get hl] at h
    exact ⟨l.data, by simp [copy, hl, h]⟩

theorem readCacheLine_of_get {l : Line A L2Info LineData} {i d : Store A CacheState LineData}
    (h : get (cfg.l2 t) x.l2 a = some l) : readCacheLine cfg t (x.setL1 i d) a = .ok l.data := by
  simp [readCacheLine, readLine, h]

theorem copy_eq_none : copy cfg t x a = none ↔ get (cfg.l2 t) x.l2 a = none := by
  simp [copy]

theorem get_of_copy {st : CacheState} {d : LineData} (h : copy cfg t x a = some (st, d)) :
    ∃ loc, get (cfg.l2 t) x.l2 a = some ⟨a, ⟨st, loc⟩, d⟩ := by
  obtain ⟨l, hl, he⟩ := map_eq_some_iff.mp h
  obtain ⟨rfl, rfl⟩ := Prod.mk.inj he
  obtain ⟨rfl, -⟩ := get_eq_some hl
  exact ⟨l.info.cachedLoc, hl⟩

theorem copy_of_get {st : CacheState} {d : LineData} {b : A}
    (h : get (cfg.l2 t) x.l2 a = some ⟨b, ⟨st, loc⟩, d⟩) : copy cfg t x a = some (st, d) := by
  simp [copy, h]

/-- What `CacheInv` says of one line, used through `comp`, with copies `l1` and `l2`. -/
structure Linked (a : A) (comp : MemComponent) (miss : Prop) (l1 : Option (Line A CacheState LineData))
    (l2 : Option (Line A L2Info LineData)) : Prop where
  incl : ∀ l ∈ l1, l2 = some ⟨a, ⟨l.info, comp⟩, l.data⟩
  loc : ∀ l ∈ l2, l.info.cachedLoc = .invalid ∨ l.info.cachedLoc = comp ∧ (l1.isSome ∨ miss)
  state : ∀ l ∈ l2, l.info.cstate ≠ .invalid

theorem cacheInv_iff {miss : A → Prop} : CacheInv cfg t via miss x ↔ L1Inv cfg t via x ∧
    Placed (cfg.l2 t) x.l2 ∧
      ∀ b, Linked b (via.comp b) (miss b) (l1Copy cfg t via x b) (get (cfg.l2 t) x.l2 b) :=
  ⟨fun h => ⟨h.l1, h.l2, fun _ => ⟨fun _ => h.incl, fun _ => h.loc, fun _ => h.state⟩⟩,
    fun h => ⟨h.1, h.2.1, (h.2.2 _).incl _, (h.2.2 _).loc _, (h.2.2 _).state _⟩⟩

namespace Linked

variable {comp : MemComponent} {miss miss' : Prop} {l1 : Option (Line A CacheState LineData)}
  {l2 : Option (Line A L2Info LineData)} {st : CacheState} {d : LineData}

section
omit [DecidableEq A]

theorem absent : Linked a comp miss none none := ⟨by simp, by simp, by simp⟩

theorem both (hst : st ≠ .invalid) :
    Linked a comp miss (some ⟨a, st, d⟩) (some ⟨a, ⟨st, comp⟩, d⟩) :=
  ⟨by simp, by simp, by simpa⟩

theorem marked (hst : st ≠ .invalid) (hm : miss) :
    Linked a comp miss none (some ⟨a, ⟨st, comp⟩, d⟩) :=
  ⟨by simp, by simp [hm], by simpa⟩

theorem mono (h : Linked a comp miss l1 l2) (hm : miss → miss') : Linked a comp miss' l1 l2 :=
  { h with loc := fun l hl => (h.loc l hl).imp_right (And.imp_right (Or.imp_right hm)) }

end

end Linked

theorem l1Copy_tag {l : Line A CacheState LineData} (h : l1Copy cfg t via x a = some l) : l.tag = a :=
  (get_eq_some h).1

namespace CacheInv

variable {miss : A → Prop}

theorem l1_none (h : CacheInv cfg t via miss x) (ha : copy cfg t x a = none) :
    l1Copy cfg t via x a = none := by
  cases hl : l1Copy cfg t via x a with
  | none => rfl
  | some l => simp [copy, h.incl hl] at ha

theorem empty {x : Tile A N H} (h1 : x.l1i = SetAssoc.empty) (h2 : x.l1d = SetAssoc.empty)
    (h3 : x.l2 = SetAssoc.empty) : CacheInv cfg t via miss x := by
  have hl1 : ∀ comp, x.l1 comp = SetAssoc.empty := fun comp => by cases comp <;> simp [Tile.l1, h1, h2]
  exact { l1 := ⟨fun comp => by rw [hl1]; exact placed_empty, fun _ _ => by simp [hl1]⟩
          l2 := by rw [h3]; exact placed_empty
          incl := fun h => by simp [l1Copy, hl1] at h
          loc := fun h => by simp [h3] at h
          state := fun h => by simp [h3] at h }

end CacheInv

theorem invalidateCacheLineInL1_eq (h : L1Inv cfg t via x)
    (hloc : loc = .invalid ∧ l1Copy cfg t via x a = none ∨
      loc = via.comp a ∧ ((l1Copy cfg t via x a).isSome ∨ p = .msi)) :
    ∃ i d, invalidateCacheLineInL1 p cfg t x loc a = .ok (x.setL1 i d) ∧
      L1Inv cfg t via (x.setL1 i d) ∧
      ∀ b, l1Copy cfg t via (x.setL1 i d) b = if b = a then none else l1Copy cfg t via x b := by
  have hkeep : l1Copy cfg t via x a = none →
      ∀ b, l1Copy cfg t via x b = if b = a then none else l1Copy cfg t via x b := by
    intro hn b
    split
    · next hb => rw [hb, hn]
    · rfl
  rcases hloc with ⟨rfl, hn⟩ | ⟨rfl, hs⟩
  · exact ⟨x.l1i, x.l1d, rfl, h, hkeep hn⟩
  · have hcomp : via.comp a ≠ .invalid := by rcases via.isL1 a with h | h <;> simp [h]
    cases hl : l1Copy cfg t via x a with
    | none =>
      obtain rfl : p = .msi := by simpa [hl] using hs
      refine ⟨x.l1i, x.l1d, ?_, h, hkeep hl⟩
      simp [invalidateCacheLineInL1, hcomp, L1.invalidateCacheLine, getL1Cache_eq,
        getCacheLineInfo_none hl]
    | some l =>
      obtain ⟨c, hc, hp, hg⟩ := setCacheLineInfo_eq (h.placed _) hl none
      simp only [map_none] at hg
      obtain ⟨i, d, heq, hinv, hcp⟩ := h.setLine hp hg
      refine ⟨i, d, ?_, hinv, hcp⟩
      simp [invalidateCacheLineInL1, hcomp, L1.invalidateCacheLine, getL1Cache_eq,
        getCacheLineInfo_eq hl, hc, heq]

namespace CacheInv

variable {miss : A → Prop} {l : Line A L2Info LineData}

section

variable (h : CacheInv cfg t via miss x)
include h

theorem congr {H' : Type} {x' : Tile A N H'} (h1 : x'.l1i = x.l1i)
    (h2 : x'.l1d = x.l1d) (h3 : x'.l2 = x.l2) : CacheInv cfg t via miss x' where
  l1 := h.l1.congr h1 h2
  l2 := by rw [h3]; exact h.l2
  incl := by
    intro a l hl
    rw [l1Copy_congr h1 h2] at hl
    rw [h3]
    exact h.incl hl
  loc := by
    intro a l hl
    rw [h3] at hl
    rw [l1Copy_congr h1 h2]
    exact h.loc hl
  state := by rw [h3]; exact h.state

theorem mono {miss' : A → Prop} (hm : ∀ b, miss b → miss' b) : CacheInv cfg t via miss' x :=
  { h with loc := fun hl => (h.loc hl).imp_right fun ⟨h1, h2⟩ => ⟨h1, h2.imp_right (hm _)⟩ }

theorem forget (hno : ∀ b, miss b → copy cfg t x b = none) :
    CacheInv cfg t via (fun _ => False) x :=
  { h with
    loc := fun {b l} hl => (h.loc hl).imp_right fun ⟨h1, h2⟩ => ⟨h1, h2.imp_right fun hb => by
      simp [copy_eq_none.mp (hno b hb)] at hl⟩ }

theorem cachedLoc_cases (hl : get (cfg.l2 t) x.l2 a = some l) :
    l.info.cachedLoc = .invalid ∧ l1Copy cfg t via x a = none ∨
      l.info.cachedLoc = via.comp a ∧ ((l1Copy cfg t via x a).isSome ∨ miss a) := by
  rcases h.loc hl with hi | hd
  · refine .inl ⟨hi, ?_⟩
    cases hg : l1Copy cfg t via x a with
    | none => rfl
    | some l' =>
      have := h.incl hg
      rw [hl] at this
      rw [some.inj this] at hi
      rcases via.isL1 a with hv | hv <;> simp [hv] at hi
  · exact .inr hd

/-- What the mark of a line says when the L1 is told to drop it. -/
theorem cachedLoc_of_drop (hm : p = .mosi → ¬ miss a) (hl : get (cfg.l2 t) x.l2 a = some l) :
    l.info.cachedLoc = .invalid ∧ l1Copy cfg t via x a = none ∨
      l.info.cachedLoc = via.comp a ∧ ((l1Copy cfg t via x a).isSome ∨ p = .msi) := by
  refine (h.cachedLoc_cases hl).imp_right fun ⟨h1, h2⟩ => ⟨h1, h2.imp_right fun hma => ?_⟩
  cases p with
  | msi => rfl
  | mosi => exact absurd hma (hm rfl)

theorem linked (b : A) :
    Linked b (via.comp b) (miss b) (l1Copy cfg t via x b) (get (cfg.l2 t) x.l2 b) :=
  (cacheInv_iff.mp h).2.2 b

theorem invalidateL2 (hl : get (cfg.l2 t) x.l2 a = some l) (hn : l1Copy cfg t via x a = none) :
    ∃ c, invalidateCacheLine cfg t x a = .ok { x with l2 := c } ∧
      CacheInv cfg t via (fun b => miss b ∧ b ≠ a) { x with l2 := c } ∧
      ∀ b, get (cfg.l2 t) c b = if b = a then none else get (cfg.l2 t) x.l2 b := by
  obtain ⟨c, hc, hp, hg⟩ := setCacheLineInfo_eq h.l2 hl none
  simp only [map_none] at hg
  refine ⟨c, by simp [invalidateCacheLine, setInfo, hc],
    cacheInv_iff.mpr ⟨h.l1.congr rfl rfl, hp, fun b => ?_⟩, hg⟩
  change Linked _ _ _ (l1Copy cfg t via x b) _
  rw [hg]
  split
  · next hb => rw [hb, hn]; exact .absent
  · next hb => exact (h.linked b).mono fun hm => ⟨hm, hb⟩

theorem dropL1 {i d : Store A CacheState LineData} (hl1 : L1Inv cfg t via (x.setL1 i d))
    (hg : ∀ b, l1Copy cfg t via (x.setL1 i d) b = if b = a then none else l1Copy cfg t via x b) :
    CacheInv cfg t via (fun b => miss b ∨ b = a) (x.setL1 i d) := by
  refine cacheInv_iff.mpr ⟨hl1, h.l2, fun b => ?_⟩
  rw [hg]
  split
  · next hb =>
    exact ⟨by simp, fun l hl => (h.loc hl).imp_right fun h' => ⟨h'.1, .inr (.inr hb)⟩, fun _ => h.state⟩
  · exact (h.linked b).mono .inl

theorem drop (hm : p = .mosi → ¬ miss a) (hl : get (cfg.l2 t) x.l2 a = some l) :
    ∃ i d c, invalidateCacheLineInL1 p cfg t x l.info.cachedLoc a = .ok (x.setL1 i d) ∧
      invalidateCacheLine cfg t (x.setL1 i d) a = .ok (x.setCaches i d c) ∧
      CacheInv cfg t via miss (x.setCaches i d c) ∧
      (∀ b, l1Copy cfg t via (x.setCaches i d c) b = if b = a then none else l1Copy cfg t via x b) ∧
      ∀ b, copy cfg t (x.setCaches i d c) b = if b = a then none else copy cfg t x b := by
  obtain ⟨i, d, hc₁, hp₁, hg₁⟩ := invalidateCacheLineInL1_eq h.l1 (h.cachedLoc_of_drop hm hl)
  obtain ⟨c, hc₂, hi, hg₂⟩ := (h.dropL1 hp₁ hg₁).invalidateL2 (a := a) hl (by simp [hg₁])
  refine ⟨i, d, c, hc₁, hc₂, hi.mono fun b hb => ?_, hg₁, fun b => ?_⟩
  · exact hb.1.resolve_right hb.2
  · simp only [copy, hg₂]
    split <;> rfl

/-- Changing the state of a line in both caches, as WB_REQ and UPGRADE_REP do. -/
theorem setState (hm : ¬ miss a)
    (hl : get (cfg.l2 t) x.l2 a = some l) {st : CacheState} (hst : st ≠ .invalid) :
    ∃ i d c, setCacheLineStateInL1 cfg t x l.info.cachedLoc a st = .ok (x.setL1 i d) ∧
      setInfo cfg t (x.setL1 i d) a (some { l.info with cstate := st }) = .ok (x.setCaches i d c) ∧
      CacheInv cfg t via miss (x.setCaches i d c) ∧
      (∀ b, l1Copy cfg t via (x.setCaches i d c) b = if b = a then
        (l1Copy cfg t via x a).map fun l' => ⟨a, st, l'.data⟩ else l1Copy cfg t via x b) ∧
      ∀ b, copy cfg t (x.setCaches i d c) b =
        if b = a then some (st, l.data) else copy cfg t x b := by
  obtain ⟨c, hc₂, hp₂, hg₂⟩ := setCacheLineInfo_eq h.l2 hl (some { l.info with cstate := st })
  simp only [map_some] at hg₂
  have hL1 : ∃ i d, setCacheLineStateInL1 cfg t x l.info.cachedLoc a st =
      .ok (x.setL1 i d) ∧ L1Inv cfg t via (x.setL1 i d) ∧
      ∀ b, l1Copy cfg t via (x.setL1 i d) b = if b = a then
        (l1Copy cfg t via x a).map fun l' => ⟨a, st, l'.data⟩ else l1Copy cfg t via x b := by
    rcases h.cachedLoc_cases hl with ⟨hi, hn⟩ | ⟨hd, hs⟩
    · refine ⟨x.l1i, x.l1d, by simp [setCacheLineStateInL1, hi], h.l1, fun b => ?_⟩
      split
      · next hb => simp [hb, hn]
      · rfl
    · obtain ⟨l', hl'⟩ := isSome_iff_exists.mp (hs.resolve_right hm)
      have hne : l'.info ≠ .invalid := h.state (h.incl hl')
      have hcomp : via.comp a ≠ .invalid := by rcases via.isL1 a with h | h <;> simp [h]
      obtain ⟨c₁, hc₁, hp₁, hg₁⟩ := setCacheLineInfo_eq (h.l1.placed _) hl' (some st)
      obtain ⟨i, d, heq, hinv, hcp⟩ := h.l1.setLine hp₁ hg₁
      refine ⟨i, d, ?_, hinv, by simpa [hl'] using hcp⟩
      simp [setCacheLineStateInL1, hd, hcomp, L1.setCacheLineState, getL1Cache_eq,
        getCacheLineInfo_eq hl', hne, check_pos, hc₁, heq]
  obtain ⟨i, d, hc₁, hp₁, hg₁⟩ := hL1
  have hg₁' : ∀ b, l1Copy cfg t via (x.setCaches i d c) b = if b = a then
      (l1Copy cfg t via x a).map fun l' => ⟨a, st, l'.data⟩ else l1Copy cfg t via x b := hg₁
  refine ⟨i, d, c, hc₁, by simp [setInfo, hc₂],
    cacheInv_iff.mpr ⟨hp₁.congr rfl rfl, hp₂, fun b => ?_⟩, hg₁', fun b => ?_⟩
  · rw [hg₁', hg₂]
    split
    · next hb =>
      subst hb
      refine ⟨fun l₁ hl₁ => ?_, by simpa using h.loc hl, by simpa⟩
      obtain ⟨l', hl', rfl⟩ := map_eq_some_iff.mp hl₁
      obtain rfl := some.inj (hl.symm.trans (h.incl hl'))
      rfl
    · exact h.linked b
  · simp only [copy, hg₂]
    split <;> rfl

end

end CacheInv

section Insert

variable {miss : A → Prop} {st : CacheState} {w : ℕ} {d : LineData}

def clearLoc (l : Line A L2Info LineData) : Line A L2Info LineData :=
  { l with info := { l.info with cachedLoc := .invalid } }

section
omit [DecidableEq A]

theorem Choice.Ok.l1Way {ch : Choice} (h : ch.Ok cfg t) (comp : MemComponent) :
    ch.l1Way comp < (L1.geometry cfg t comp).ways := by
  cases comp <;> first | exact h.1 | exact h.2.1

theorem Linked.clear {comp : MemComponent} {miss : Prop} {l1 : Option (Line A CacheState LineData)}
    {l2 : Option (Line A L2Info LineData)} (h : Linked a comp miss l1 l2) :
    Linked a comp miss none (l2.map clearLoc) := by
  cases l2 with
  | none => exact .absent
  | some l => exact ⟨by simp, by simp [clearLoc], by simpa [clearLoc] using h.state l rfl⟩

end

/-- Filling the L1 with an absent line clears the mark of the line it evicts. -/
theorem insertCacheLineInL1_eq (st : CacheState) (d : LineData)
    (h₁ : L1Inv cfg t via x) (h₂ : Placed (cfg.l2 t) x.l2)
    (hw : w < (L1.geometry cfg t (via.comp a)).ways)
    (hincl : ∀ {b l}, l1Copy cfg t via x b = some l →
      get (cfg.l2 t) x.l2 b = some ⟨b, ⟨l.info, via.comp b⟩, l.data⟩)
    (ha : l1Copy cfg t via x a = none) :
    ∃ i c c₂ ev, insertCacheLineInL1 cfg t x (via.comp a) a w st d = .ok (x.setCaches i c c₂) ∧
      L1Inv cfg t via (x.setCaches i c c₂) ∧ Placed (cfg.l2 t) c₂ ∧
      (∀ b, ev = some b → b ≠ a ∧ (l1Copy cfg t via x b).isSome) ∧
      (∀ b, l1Copy cfg t via (x.setCaches i c c₂) b =
        if b = a then some ⟨a, st, d⟩ else if ev = some b then none else l1Copy cfg t via x b) ∧
      ∀ b, get (cfg.l2 t) c₂ b = if ev = some b then (get (cfg.l2 t) x.l2 b).map clearLoc
        else get (cfg.l2 t) x.l2 b := by
  have hcomp : via.comp a ≠ .invalid := by rcases via.isL1 a with h | h <;> simp [h]
  have hp := h₁.placed (via.comp a)
  have hg₁ := get_insert (l := ⟨a, st, d⟩) hp hw ha
  have hp₁ := placed_insert (l := ⟨a, st, d⟩) (w := w) hp ha
  obtain ⟨i, c, heq, hinv, hcp⟩ := h₁.setL1Cache hp₁ fun b hb => by
    rw [hg₁, if_neg hb]
    split
    · exact .inl rfl
    · exact .inr rfl
  dsimp only at heq hcp hg₁
  -- only a line used through the same cache can be evicted
  have hl1 : ∀ ev : Option A, (x.l1 (via.comp a) ((L1.geometry cfg t (via.comp a)).set a) w).map
      Line.tag = ev → (∀ b, ev = some b → via.comp b = via.comp a) →
      ∀ b, l1Copy cfg t via (x.setL1 i c) b = if b = a then some ⟨a, st, d⟩ else
        if ev = some b then none else l1Copy cfg t via x b := by
    intro ev hev hsame b
    rw [hcp, hg₁, hev]
    by_cases hb : b = a
    · simp [hb]
    · simp only [if_neg hb]
      by_cases hv : via.comp b = via.comp a
      · rw [if_pos hv, l1Copy_of_comp hv]
      · rw [if_neg hv, if_neg fun e => hv (hsame b e)]
  cases hev : x.l1 (via.comp a) ((L1.geometry cfg t (via.comp a)).set a) w with
  | none =>
    refine ⟨i, c, x.l2, none, ?_, hinv, h₂, by simp, hl1 none (by simp [hev]) (by simp), by simp⟩
    simp [insertCacheLineInL1, check_pos hcomp, L1.insertCacheLine, getL1Cache_eq, insertLine, hev, heq]
  | some e =>
    have he := hp.get_victim hw hev
    have hev' : via.comp e.tag = via.comp a := by
      by_contra hne
      rw [h₁.foreign (via.isL1 a) (Ne.symm hne)] at he
      cases he
    have hcopy : l1Copy cfg t via x e.tag = some e := by rw [l1Copy_of_comp hev', he]
    have hea : e.tag ≠ a := fun hh => by rw [hh, ha] at hcopy; cases hcopy
    have hl2 := hincl hcopy
    rw [hev'] at hl2
    obtain ⟨c₂, hc₂, hp₂, hg₂⟩ := setCacheLineInfo_eq h₂ hl2 (some ⟨e.info, .invalid⟩)
    refine ⟨i, c, c₂, some e.tag, ?_, hinv.congr rfl rfl, hp₂, fun b hb => ?_,
      hl1 (some e.tag) (by simp [hev]) (by rintro b ⟨⟩; exact hev'), fun b => ?_⟩
    · simp only [insertCacheLineInL1, check_pos hcomp, L1.insertCacheLine, getL1Cache_eq, insertLine,
        hev, heq, ok_bind, pure_eq_ok, map_some]
      rw [getInfo_of_get (x := (x.setL1 i c)) hl2]
      simp [setInfo, hc₂]
    · obtain rfl := some.inj hb
      exact ⟨hea, by simp [hcopy]⟩
    · rw [hg₂]
      by_cases hb : b = e.tag
      · subst hb; simp [hl2, clearLoc]
      · simp [hb, Ne.symm hb]

theorem CacheInv.fillL1 (h : CacheInv cfg t via miss x)
    (hw : w < (L1.geometry cfg t (via.comp a)).ways)
    {l : Line A L2Info LineData} (hl : get (cfg.l2 t) x.l2 a = some l)
    (ha : l1Copy cfg t via x a = none) (hm : ¬ miss a) (hst : st ≠ .invalid) :
    l.info.cachedLoc = .invalid ∧ ∃ i d c₂ c₃,
      insertCacheLineInL1 cfg t x (via.comp a) a w st l.data = .ok (x.setCaches i d c₂) ∧
      setInfo cfg t (x.setCaches i d c₂) a (some ⟨st, via.comp a⟩) = .ok (x.setCaches i d c₃) ∧
      CacheInv cfg t via miss (x.setCaches i d c₃) ∧
      l1Copy cfg t via (x.setCaches i d c₃) a = some ⟨a, st, l.data⟩ ∧
      ∀ b, copy cfg t (x.setCaches i d c₃) b =
        if b = a then some (st, l.data) else copy cfg t x b := by
  have hloc : l.info.cachedLoc = .invalid := by
    rcases h.loc hl with hi | ⟨-, hs⟩
    · exact hi
    · simp [ha, hm] at hs
  obtain ⟨i, d, c₂, ev, hins, hp₁, hp₂, hev, hg₁, hg₂⟩ :=
    insertCacheLineInL1_eq st l.data h.l1 h.l2 hw h.incl ha
  have hevn : ev ≠ some a := fun e => (hev a e).1 rfl
  have hla : get (cfg.l2 t) c₂ a = some l := by rw [hg₂, if_neg hevn, hl]
  obtain ⟨c₃, hc₃, hp₃, hg₃⟩ := setCacheLineInfo_eq hp₂ hla (some ⟨st, via.comp a⟩)
  simp only [map_some] at hg₃
  have hg₁ : ∀ b, l1Copy cfg t via (x.setCaches i d c₃) b =
      if b = a then some ⟨a, st, l.data⟩ else if ev = some b then none else l1Copy cfg t via x b := hg₁
  refine ⟨hloc, i, d, c₂, c₃, hins, by simp [setInfo, hc₃],
    cacheInv_iff.mpr ⟨hp₁.congr rfl rfl, hp₃, fun b => ?_⟩, by simp [hg₁], ?_⟩
  · rw [hg₁, hg₃, hg₂]
    split
    · next hb => subst hb; exact .both hst
    · split
      · exact (h.linked b).clear
      · exact h.linked b
  · intro b
    simp only [copy, hg₃, hg₂]
    split
    · rfl
    · split
      · cases get (cfg.l2 t) x.l2 b <;> rfl
      · rfl

/-- From `x` to `x'` the L2 is filled with line `a`, and the line it evicts is given back. -/
def Filled (p : Protocol) (cfg : Config A N) (t : Fin N) (x : Tile A N H) (a : A) (w : ℕ)
    (st : CacheState) (d : LineData) (x' : Tile A N H) : Prop :=
  match x.l2 ((cfg.l2 t).set a) w with
  | none => x'.out = x.out ∧ ∀ b, copy cfg t x' b = if b = a then some (st, d) else copy cfg t x b
  | some l => l.tag ≠ a ∧ get (cfg.l2 t) x.l2 l.tag = some l ∧
    ∃ m, evictionMsg p cfg t l = .ok m ∧ x'.out = (x.send (cfg.home l.tag) m).out ∧
      ∀ b, copy cfg t x' b = if b = a then some (st, d) else
        if b = l.tag then none else copy cfg t x b

theorem Filled.congr {x' x'' : Tile A N H} (h : Filled p cfg t x a w st d x')
    (ho : x''.out = x'.out) (hc : ∀ b, copy cfg t x'' b = copy cfg t x' b) :
    Filled p cfg t x a w st d x'' := by
  unfold Filled at h ⊢
  simpa only [ho, hc] using h

/-- Filling the L2 with an absent line drops the line it evicts from both caches. -/
theorem CacheInv.insertL2 (h : CacheInv cfg t via miss x) (hm : p = .mosi → ∀ b, ¬ miss b)
    (hw : w < (cfg.l2 t).ways) (ha : copy cfg t x a = none)
    (hst : st ≠ .invalid)
    (hev : ∀ b l, get (cfg.l2 t) x.l2 b = some l → ∃ m, evictionMsg p cfg t l = .ok m) :
    ∃ x', insertCacheLine p cfg t x (via.comp a) a w st d = .ok x' ∧
      CacheInv cfg t via (fun b => miss b ∨ b = a) x' ∧ x'.outstanding = x.outstanding ∧
      x'.app = x.app ∧ x'.home = x.home ∧ l1Copy cfg t via x' a = none ∧
      get (cfg.l2 t) x'.l2 a = some ⟨a, ⟨st, via.comp a⟩, d⟩ ∧
      Filled p cfg t x a w st d x' := by
  have hna := copy_eq_none.mp ha
  have hn1 := h.l1_none ha
  have hcomp : p = .msi → via.comp a ≠ .invalid := fun _ => by
    rcases via.isL1 a with h | h <;> simp [h]
  have hg := get_insert (l := ⟨a, ⟨st, via.comp a⟩, d⟩) h.l2 hw hna
  have hp := placed_insert (l := ⟨a, ⟨st, via.comp a⟩, d⟩) (w := w) h.l2 hna
  unfold Filled
  cases he : x.l2 ((cfg.l2 t).set a) w with
  | none =>
    simp only [he, map_none, reduceCtorEq, if_false] at hg
    refine ⟨{ x with l2 := put (cfg.l2 t) x.l2 a w (some ⟨a, ⟨st, via.comp a⟩, d⟩) }, ?_, ?_, rfl, rfl,
      rfl, hn1, by simp [hg], rfl, fun b => ?_⟩
    · simp [insertCacheLine, check_pos hcomp, insertLine, he]
    · refine cacheInv_iff.mpr ⟨h.l1.congr rfl rfl, hp, fun b => ?_⟩
      change Linked _ _ _ (l1Copy cfg t via x b) _
      rw [hg]
      split
      · next hb => subst hb; rw [hn1]; exact .marked hst (.inr rfl)
      · exact (h.linked b).mono .inl
    · simp only [copy, hg]
      split <;> rfl
  | some l =>
    have hl := h.l2.get_victim hw he
    have hla : l.tag ≠ a := fun e => by simp [e, hna] at hl
    obtain ⟨m, hmsg⟩ := hev _ _ hl
    simp only [he, map_some, some.injEq] at hg
    have hloc := h.cachedLoc_of_drop (fun hp => hm hp _) hl
    have hl1 : L1Inv cfg t via { x with l2 := put (cfg.l2 t) x.l2 a w (some ⟨a, ⟨st, via.comp a⟩, d⟩) } :=
      h.l1.congr rfl rfl
    obtain ⟨i, c, hc₁, hp₁, hg₁⟩ := invalidateCacheLineInL1_eq hl1 hloc
    have hg₁ : ∀ b, l1Copy cfg t via { x with
        l1i := i, l1d := c, l2 := put (cfg.l2 t) x.l2 a w (some ⟨a, ⟨st, via.comp a⟩, d⟩) } b =
        if b = l.tag then none else l1Copy cfg t via x b := hg₁
    refine ⟨Tile.send { x with
        l1i := i, l1d := c, l2 := put (cfg.l2 t) x.l2 a w (some ⟨a, ⟨st, via.comp a⟩, d⟩) }
        (cfg.home l.tag) m, ?_, ?_, rfl, rfl, rfl, ?_, by simp [Tile.send, hg],
        hla, hl, m, hmsg, rfl, fun b => ?_⟩
    · simp [insertCacheLine, check_pos hcomp, insertLine, he, hc₁, hmsg]
    · have hinv : CacheInv cfg t via (fun b => miss b ∨ b = a) { x with
          l1i := i, l1d := c, l2 := put (cfg.l2 t) x.l2 a w (some ⟨a, ⟨st, via.comp a⟩, d⟩) } := by
        refine cacheInv_iff.mpr ⟨hp₁, hp, fun b => ?_⟩
        rw [hg₁, hg]
        by_cases hb : b = a
        · subst hb
          rw [if_neg (Ne.symm hla), if_pos rfl, hn1]
          exact .marked hst (.inr rfl)
        · by_cases hbl : b = l.tag
          · simpa [hbl, hla] using Linked.absent
          · simpa [hb, hbl, Ne.symm hbl] using h.linked b
      exact hinv.congr rfl rfl rfl
    · have := hg₁ a
      rw [if_neg (Ne.symm hla), hn1] at this
      exact this
    · simp only [copy, Tile.send, hg]
      split
      · rfl
      · by_cases hbl : l.tag = b
        · simp [hbl]
        · simp [hbl, Ne.symm hbl]

theorem CacheInv.fillMarked (h : CacheInv cfg t via (fun b => miss b ∨ b = a) x)
    (hw : w < (L1.geometry cfg t (via.comp a)).ways) (ha : l1Copy cfg t via x a = none)
    (hl : get (cfg.l2 t) x.l2 a = some ⟨a, ⟨st, via.comp a⟩, d⟩) :
    ∃ i c c₂, insertCacheLineInL1 cfg t x (via.comp a) a w st d = .ok (x.setCaches i c c₂) ∧
      CacheInv cfg t via miss (x.setCaches i c c₂) ∧
      l1Copy cfg t via (x.setCaches i c c₂) a = some ⟨a, st, d⟩ ∧
      ∀ b, copy cfg t (x.setCaches i c c₂) b = copy cfg t x b := by
  obtain ⟨i, c, c₂, ev, hins, hp₁, hp₂, hev, hg₁, hg₂⟩ :=
    insertCacheLineInL1_eq st d h.l1 h.l2 hw h.incl ha
  have hevn : ev ≠ some a := fun e => (hev a e).1 rfl
  refine ⟨i, c, c₂, hins, cacheInv_iff.mpr ⟨hp₁, hp₂, fun b => ?_⟩, by simp [hg₁], ?_⟩
  · rw [hg₁, hg₂]
    split
    · next hb =>
      subst hb
      rw [if_neg hevn, hl]
      exact .both (h.state hl)
    · next hb =>
      have hk := (h.linked b).mono (·.resolve_right hb)
      split
      · exact hk.clear
      · exact hk
  · intro b
    simp only [copy, hg₂]
    split
    · cases get (cfg.l2 t) x.l2 b <;> rfl
    · rfl

theorem CacheInv.insertCacheLineInHierarchy {w₁ : MemComponent → ℕ} {w₂ : ℕ} {req : ShmemMsg A N}
    (h : CacheInv cfg t via miss x) (hm : p = .mosi → ∀ b, ¬ miss b)
    (hw₁ : w₁ (via.comp a) < (L1.geometry cfg t (via.comp a)).ways)
    (hw₂ : w₂ < (cfg.l2 t).ways) (hreq : x.outstanding = some req) (hadr : req.address = a)
    (hsender : req.senderComponent = via.comp a) (ha : copy cfg t x a = none) (hst : st ≠ .invalid)
    (hev : ∀ b l, get (cfg.l2 t) x.l2 b = some l → ∃ m, evictionMsg p cfg t l = .ok m) :
    ∃ x', insertCacheLineInHierarchy p cfg t x a w₁ w₂ st d = .ok x' ∧ CacheInv cfg t via miss x' ∧
      x'.outstanding = x.outstanding ∧ x'.app = x.app ∧ x'.home = x.home ∧
      l1Copy cfg t via x' a = some ⟨a, st, d⟩ ∧
      Filled p cfg t x a w₂ st d x' := by
  obtain ⟨x₁, hins, hc₁, ho₁, ha₁, hh₁, hn₁, hg₁, hrest⟩ := h.insertL2 (d := d) hm hw₂ ha hst hev
  obtain ⟨i, c, c₂, hfill, hc₂, hg₂, hcopy⟩ := hc₁.fillMarked hw₁ hn₁ hg₁
  refine ⟨x₁.setCaches i c c₂, ?_, hc₂, ho₁, ha₁, hh₁, hg₂, hrest.congr rfl hcopy⟩
  simp only [L2.insertCacheLineInHierarchy, hreq]
  rw [check_pos hadr.symm, ok_bind, hsender, hins, ok_bind, hfill]

end Insert

end Graphite.PrL2
