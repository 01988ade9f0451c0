import Graphite.PrL2.Views

/-! # The application thread of a tile

One access at a time: it hits in the L1, is served by the L2, or leaves a request for the L2 and waits
until the reply has filled both caches. `TileInv` says what the caches and channels of the tile look
like in each state of the thread, and `processMemOpFromCore_sat` what an access does.
-/

namespace Graphite.PrL2

open Outcome SetAssoc Option

variable {A : Type} [DecidableEq A] {N : ℕ} {H : Type}

def request (cfg : Config A N) (t : Fin N) (acc : Access A) : ShmemMsg A N :=
  ⟨L1.getShmemMsgType acc.op, acc.component, .l2Cache, t, acc.address, none, cfg.isApplicationTile t, none,
    false⟩

/-- The L1 has the line of the access with the permission it needs. -/
def Permits (cfg : Config A N) (t : Fin N) (via : Route A) (x : Tile A N H) (acc : Access A) : Prop :=
  ∃ st d, l1Copy cfg t via x acc.address = some ⟨acc.address, st, d⟩ ∧ acc.op.permissible st

def Issued (cfg : Config A N) (via : Route A) (acc : Access A) : Prop :=
  acc.WellFormed cfg ∧ acc.component = via.comp acc.address ∧ acc.lock ≠ .unlock

def Lacks (cfg : Config A N) (t : Fin N) (x : Tile A N H) (acc : Access A) : Prop :=
  ∀ st d, copy cfg t x acc.address = some (st, d) → acc.op.permissible st = false

def ThreadInv (cfg : Config A N) (t : Fin N) (via : Route A) (x : Tile A N H) : Prop :=
  match x.app with
  | .idle => x.fromL1 t = [] ∧ x.outstanding = none
  | .locked a => x.fromL1 t = [] ∧ x.outstanding = none ∧
      ∃ d, l1Copy cfg t via x a = some ⟨a, .modified, d⟩
  | .granted acc n => x.fromL1 t = [] ∧ x.outstanding = none ∧ n = 1 ∧ Issued cfg via acc ∧
      Permits cfg t via x acc
  | .waiting acc n => n = 1 ∧ Issued cfg via acc ∧
      (x.fromL1 t = [request cfg t acc] ∧ x.outstanding = none ∧ Lacks cfg t x acc ∨
        x.fromL1 t = [] ∧ x.outstanding = some (request cfg t acc))

/-- The line the MSI controller has dropped from the L1 before it asks the L2. -/
def Missing (p : Protocol) (x : Tile A N H) (a : A) : Prop :=
  p = .msi ∧ x.outstanding = none ∧ ∃ acc n, x.app = .waiting acc n ∧ acc.address = a

structure TileInv (p : Protocol) (cfg : Config A N) (t : Fin N) (via : Route A) (x : Tile A N H) :
    Prop where
  cache : CacheInv cfg t via (Missing p x) x
  routed : ∀ u, ∀ m ∈ x.out u, Routed cfg t u m
  thread : ThreadInv cfg t via x
  gone : ∀ a, Missing p x a → l1Copy cfg t via x a = none

/-! ### Steps of the thread -/

/-- Where the application thread is after the attempt at access `acc` with number `n`. -/
def Attempted (acc : Access A) (n : ℕ) (app : App A) : Prop :=
  app = L1.after acc ∨ n = 1 ∧ acc.lock ≠ .unlock ∧ app = .waiting acc 1

/-- A message has been handled: the application thread is where it was, or has been woken up. -/
def Handled (app app' : App A) : Prop :=
  app' = app ∨ ∃ acc n, app = .waiting acc n ∧ app' = .granted acc n

def Action.IsDeliver : Action A N → Prop
  | .deliver _ _ _ => True
  | _ => False

def AppStep (app app' : Fin N → App A) : Action A N → Prop
  | .access t acc _ => Attempted acc 1 (app' t) ∧ ∀ u ≠ t, app' u = app u
  | .resume t _ => (∀ acc n, app t = .granted acc n → app' t = L1.after acc) ∧ ∀ u ≠ t, app' u = app u
  | .deliver _ t _ => Handled (app t) (app' t) ∧ ∀ u ≠ t, app' u = app u

variable {p : Protocol} {cfg : Config A N} {t : Fin N} {via : Route A} {x : Tile A N H} {acc : Access A} {a : A}
  {miss : A → Prop} {w n : ℕ} {E : Fault → Prop} {c₂ : Store A L2Info LineData} {st : CacheState}
  {i c : Store A CacheState LineData}

/-- What an access shows and does to the copies in the L2. -/
def Effect (cfg : Config A N) (t : Fin N) (x : Tile A N H) (acc : Access A)
    (y : Tile A N H × List (Event A N)) : Prop :=
  y.2 = [] ∧ (∀ b, copy cfg t y.1 b = copy cfg t x b) ∨
  (∃ st d, copy cfg t x acc.address = some (st, d) ∧
    y.2 = [.load t acc.address acc.offset (readBytes d acc.offset acc.buf.length)] ∧
    ∀ b, copy cfg t y.1 b = copy cfg t x b) ∨
  ∃ d, copy cfg t x acc.address = some (.modified, d) ∧
    y.2 = [.store t acc.address acc.offset acc.buf] ∧
    ∀ b, copy cfg t y.1 b =
      if b = acc.address then some (.modified, writeBytes d acc.offset acc.buf) else copy cfg t x b

/-! ### Hits -/

theorem permissible_cases {op : MemOp} (h : op.permissible st) (hx : st ≠ .exclusive) :
    op = .read ∨ st = .modified := by
  cases op <;> cases st <;> simp_all [MemOp.permissible, CacheState.writable]

theorem CacheInv.store {d d' : LineData} (h : CacheInv cfg t via miss x)
    (hl : l1Copy cfg t via x a = some ⟨a, st, d⟩)
    (hp₁ : L1Inv cfg t via (x.setCaches i c c₂))
    (hg₁ : ∀ b, l1Copy cfg t via (x.setCaches i c c₂) b =
      if b = a then some ⟨a, st, d'⟩ else l1Copy cfg t via x b)
    (hp₂ : Placed (cfg.l2 t) c₂) (hg₂ : ∀ b, get (cfg.l2 t) c₂ b =
      if b = a then some ⟨a, ⟨st, via.comp a⟩, d'⟩ else get (cfg.l2 t) x.l2 b) :
    CacheInv cfg t via miss (x.setCaches i c c₂) := by
  refine cacheInv_iff.mpr ⟨hp₁, hp₂, fun b => ?_⟩
  rw [hg₁, hg₂]
  split
  · next hb => subst hb; exact .both (h.state (h.incl hl))
  · exact h.linked b

theorem accessCache_sat (h : CacheInv cfg t via miss x) (hacc : acc.WellFormed cfg)
    (hd : acc.component = via.comp acc.address)
    (hst : ∀ d, copy cfg t x acc.address ≠ some (.exclusive, d)) (hperm : Permits cfg t via x acc) :
    ∃ i c c₂ ev, L1.accessCache cfg t x acc = .ok ((x.setCaches i c c₂), ev) ∧
      CacheInv cfg t via miss (x.setCaches i c c₂) ∧
      (acc.op = .readEx → ∃ d, l1Copy cfg t via (x.setCaches i c c₂) acc.address =
        some ⟨acc.address, .modified, d⟩) ∧
      Effect cfg t x acc ((x.setCaches i c c₂), [ev]) := by
  obtain ⟨st, d, hl, hp⟩ := hperm
  have hcopy : copy cfg t x acc.address = some (st, d) := copy_of_get (h.incl hl)
  have hget : get (L1.geometry cfg t (via.comp acc.address)) (x.l1 (via.comp acc.address)) acc.address =
    some ⟨acc.address, st, d⟩ := hl
  have hread : acc.op ≠ .write → L1.accessCache cfg t x acc =
      .ok (x, .load t acc.address acc.offset (readBytes d acc.offset acc.buf.length)) := by
    intro hw
    cases hop : acc.op
    case write => exact absurd hop hw
    all_goals
      simp [L1.accessCache, hd, getL1Cache_eq, hop, readLine, hget, check_pos hacc.1]
  have hwr := permissible_cases hp fun e => hst d (e ▸ hcopy)
  cases hop : acc.op with
  | read =>
    refine ⟨x.l1i, x.l1d, x.l2, _, hread (by simp [hop]), h, by simp,
      .inr (.inl ⟨st, d, hcopy, rfl, ?_⟩)⟩
    exact fun _ => rfl
  | readEx =>
    obtain rfl : st = .modified := by simpa [hop] using hwr
    refine ⟨x.l1i, x.l1d, x.l2, _, hread (by simp [hop]), h, fun _ => ⟨d, hl⟩,
      .inr (.inl ⟨_, d, hcopy, rfl, fun _ => rfl⟩)⟩
  | write =>
    obtain rfl : st = .modified := by simpa [hop] using hwr
    obtain ⟨c₁, hc₁, hp₁, hg₁⟩ := writeLine_eq (h.l1.placed _) hget hacc.1
    obtain ⟨c₂, hc₂, hp₂, hg₂⟩ := writeLine_eq h.l2 (h.incl hl) hacc.1
    obtain ⟨i, c, heq, hinv, hcp⟩ := h.l1.setLine hp₁ hg₁
    refine ⟨i, c, c₂, .store t acc.address acc.offset acc.buf, ?_,
      h.store hl (hinv.congr rfl rfl) hcp hp₂ hg₂, by simp, .inr (.inr ⟨d, hcopy, rfl, fun b => ?_⟩)⟩
    · simp only [L1.accessCache, hd, getL1Cache_eq, hop, ok_bind, hc₁, heq]
      simp [L2.writeCacheLine, hc₂]
    · simp only [copy, hg₂]
      split <;> rfl

/-! ### Misses -/

/-- Whether the L1 permits the access shows in the state `getCacheLineState` reports. -/
theorem getCacheLineState_eq (cfg : Config A N) (t : Fin N) (via : Route A) (x : Tile A N H)
    (acc : Access A) : ∃ st, L1.getCacheLineState cfg t x (via.comp acc.address) acc.address = .ok st ∧
      (acc.op.permissible st ↔ Permits cfg t via x acc) := by
  refine ⟨(getCacheLineInfo (L1.geometry cfg t (via.comp acc.address)) (x.l1 (via.comp acc.address))
    acc.address).getD .invalid, by simp [L1.getCacheLineState, getL1Cache_eq], ?_⟩
  cases hl : l1Copy cfg t via x acc.address with
  | none =>
    rw [getCacheLineInfo_none hl]
    apply iff_of_false
    · cases acc.op <;> simp [MemOp.permissible, CacheState.readable, CacheState.writable]
    · rintro ⟨st, d, hp, -⟩
      simp [hl] at hp
  | some l =>
    have ht := l1Copy_tag hl
    rw [getCacheLineInfo_eq hl]
    constructor
    · intro hp
      exact ⟨l.info, l.data, by rw [hl, ← ht], hp⟩
    · rintro ⟨st, d, hl', hp⟩
      rw [hl] at hl'
      rw [some.inj hl']
      exact hp

theorem CacheInv.dropOnMiss (h : CacheInv cfg t via miss x) :
    ∃ i d, L1.invalidateCacheLine .msi cfg t x (via.comp a) a = .ok (x.setL1 i d) ∧
      CacheInv cfg t via (fun b => miss b ∨ b = a) (x.setL1 i d) ∧
      l1Copy cfg t via (x.setL1 i d) a = none ∧
      (l1Copy cfg t via x a = none → i = x.l1i ∧ d = x.l1d) := by
  cases hl : l1Copy cfg t via x a with
  | none =>
    refine ⟨x.l1i, x.l1d, ?_, h.mono fun _ => .inl, hl, fun _ => ⟨rfl, rfl⟩⟩
    simp [L1.invalidateCacheLine, getL1Cache_eq, getCacheLineInfo_none hl]
  | some l =>
    have hcomp : via.comp a ≠ .invalid := by rcases via.isL1 a with h | h <;> simp [h]
    obtain ⟨i, d, hdrop, hinv, hg⟩ := invalidateCacheLineInL1_eq (p := .msi) h.l1
      (.inr ⟨rfl, .inr rfl⟩ : via.comp a = .invalid ∧ l1Copy cfg t via x a = none ∨ _)
    rw [L2.invalidateCacheLineInL1, if_pos hcomp] at hdrop
    exact ⟨i, d, hdrop, h.dropL1 hinv hg, by simp [hg], by simp⟩

theorem processShmemRequestFromL1Cache_hit {op : MemOp} {d : LineData}
    (h : CacheInv cfg t via miss x) (hm : ¬ miss a) (hw : w < (L1.geometry cfg t (via.comp a)).ways)
    (ha : l1Copy cfg t via x a = none) (hc : copy cfg t x a = some (st, d))
    (hp : op.permissible st) :
    ∃ i c c₂, L2.processShmemRequestFromL1Cache cfg t x (via.comp a) a w op =
        .ok ((x.setCaches i c c₂), false) ∧
      CacheInv cfg t via miss (x.setCaches i c c₂) ∧
      l1Copy cfg t via (x.setCaches i c c₂) a = some ⟨a, st, d⟩ ∧
      ∀ b, copy cfg t (x.setCaches i c c₂) b = copy cfg t x b := by
  have hcomp : via.comp a ≠ .invalid := by rcases via.isL1 a with h | h <;> simp [h]
  obtain ⟨loc, hl⟩ := get_of_copy hc
  have hst : st ≠ .invalid := h.state hl
  obtain ⟨hloc, i, c, c₂, c₃, hins, hset, hinv, hg, hcopy⟩ := h.fillL1 hw hl ha hm hst
  obtain rfl : loc = .invalid := hloc
  refine ⟨i, c, c₃, ?_, hinv, hg, fun b => ?_⟩
  · simp [L2.processShmemRequestFromL1Cache, getInfo_of_get hl, hp, L2.readCacheLine, readLine, hl,
      hins, L2.newCachedLoc, check_pos hcomp, hset]
  · rw [hcopy]
    split
    · next hb => rw [hb, hc]
    · rfl

theorem processShmemRequestFromL1Cache_miss (hlack : Lacks cfg t x acc) :
    L2.processShmemRequestFromL1Cache cfg t x (via.comp acc.address) acc.address w acc.op =
      .ok (x, true) := by
  have : acc.op.permissible (L2.getInfo cfg t x acc.address).cstate = false := by
    cases hl : get (cfg.l2 t) x.l2 acc.address with
    | none =>
      rw [getInfo_of_none hl]
      cases acc.op <;> rfl
    | some l =>
      rw [getInfo_of_get hl]
      exact hlack _ l.data (by simp [copy, hl])
  simp [L2.processShmemRequestFromL1Cache, this]

/-! ### One access -/

/-- What an access leaves alone. -/
structure SameHome (cfg : Config A N) (x x' : Tile A N H) : Prop where
  home : x'.home = x.home
  outstanding : x'.outstanding = x.outstanding
  up : ∀ b, x'.up cfg b = x.up cfg b
  down : ∀ b u, x'.down b u = x.down b u

theorem completed {ev : Event A N}
    (hrouted : AllRouted cfg t x) (hl1 : x.fromL1 t = [])
    (hout : x.outstanding = none) (hacc : acc.WellFormed cfg)
    (h : CacheInv cfg t via (fun _ => False) (x.setCaches i c c₂))
    (hm : acc.op = .readEx → ∃ d, l1Copy cfg t via (x.setCaches i c c₂) acc.address =
      some ⟨acc.address, .modified, d⟩)
    (heff : Effect cfg t x acc ((x.setCaches i c c₂), [ev])) :
    let x' : Tile A N H := { x with l1i := i, l1d := c, l2 := c₂, app := L1.after acc }
    TileInv p cfg t via x' ∧ SameHome cfg x x' ∧ Effect cfg t x acc (x', [ev]) ∧
      Attempted acc n x'.app := by
  have h' : CacheInv cfg t via (fun _ => False)
      { x with l1i := i, l1d := c, l2 := c₂, app := L1.after acc } := h.congr rfl rfl rfl
  refine ⟨⟨h'.mono fun _ => False.elim, hrouted, ?_, ?_⟩, ⟨rfl, rfl, fun _ => rfl, fun _ _ => rfl⟩,
    heff, .inl rfl⟩
  · by_cases hlock : acc.lock = .lock
    · simpa [ThreadInv, L1.after, hlock] using ⟨hl1, hout, hm (hacc.2.2.2.1 hlock)⟩
    · simpa [ThreadInv, L1.after, hlock] using ⟨hl1, hout⟩
  · rintro a ⟨-, -, acc', n, happ, -⟩
    by_cases hlock : acc.lock = .lock <;> simp [L1.after, hlock] at happ

omit [DecidableEq A] in
theorem isFromL1_request (hacc : Issued cfg via acc) : isFromL1 (request cfg t acc) = true :=
  isFromL1_iff.mpr ⟨rfl, by rw [request, hacc.2.1]; exact via.isL1 _⟩

theorem requested {i d : Store A CacheState LineData}
    (hrouted : AllRouted cfg t x) (hl1 : x.fromL1 t = [])
    (hout : x.outstanding = none) (hacc : Issued cfg via acc) (hlack : Lacks cfg t x acc)
    (h : CacheInv cfg t via (fun b => p = .msi ∧ b = acc.address) (x.setL1 i d))
    (hgone : p = .msi → l1Copy cfg t via (x.setL1 i d) acc.address = none) :
    let x' : Tile A N H :=
      { Tile.send (x.setL1 i d) t (request cfg t acc) with app := .waiting acc 1 }
    TileInv p cfg t via x' ∧ SameHome cfg x x' ∧ Effect cfg t x acc (x', []) ∧
      Attempted acc 1 x'.app := by
  intro x'
  have hc : CacheInv cfg t via (fun b => p = .msi ∧ b = acc.address) x' := h.congr rfl rfl rfl
  refine ⟨⟨hc.mono ?_, ?_, ?_, ?_⟩, ⟨rfl, rfl, fun b => ?_, fun b u => ?_⟩, .inl ⟨rfl, fun _ => rfl⟩,
    .inr ⟨rfl, hacc.2.2, rfl⟩⟩
  · rintro b ⟨hp, rfl⟩
    exact ⟨hp, hout, acc, 1, rfl, rfl⟩
  · exact routed_send hrouted (.inr (.inr ⟨isFromL1_request hacc, rfl⟩))
  · refine ⟨rfl, hacc, .inl ⟨?_, hout, hlack⟩⟩
    have : (x.send t (request cfg t acc)).fromL1 t = x.fromL1 t ++ [request cfg t acc] :=
      fromL1_send_self (isFromL1_request hacc)
    rwa [hl1] at this
  · rintro b ⟨hp, -, acc', n, happ, rfl⟩
    obtain ⟨rfl, -⟩ := App.waiting.inj happ
    exact hgone hp
  · have : (x.send t (request cfg t acc)).up cfg b = x.up cfg b := up_send_of_l2 rfl
    exact this
  · have hne : acc.component ≠ .dramDirectory := by
      rw [hacc.2.1]
      rcases via.isL1 acc.address with h | h <;> simp [h]
    have : (x.send t (request cfg t acc)).down b u = x.down b u := down_send_of_ne (.inr hne)
    exact this

theorem processMemOpFromCore_sat (hc : CacheInv cfg t via (fun _ => False) x)
    (hrouted : AllRouted cfg t x) (hl1 : x.fromL1 t = [])
    (hout : x.outstanding = none) (hacc : acc.WellFormed cfg)
    (hd : acc.component = via.comp acc.address) (hn : n = 1 ∨ n = 2)
    (hperm : acc.lock = .unlock ∨ n = 2 → Permits cfg t via x acc)
    (hst : ∀ d, copy cfg t x acc.address ≠ some (.exclusive, d))
    (hw : w < (L1.geometry cfg t (via.comp acc.address)).ways) :
    Sat (L1.processMemOpFromCore p cfg t x w acc n) E fun y =>
      TileInv p cfg t via y.1 ∧ SameHome cfg x y.1 ∧ Effect cfg t x acc y ∧ Attempted acc n y.1.app := by
  obtain ⟨st, hstate, hiff⟩ := getCacheLineState_eq cfg t via x acc
  unfold L1.processMemOpFromCore
  rw [check_pos hn, ok_bind, hd, hstate, ok_bind]
  split
  · next hp =>
    obtain ⟨i, c, c₂, ev, hac, hinv, hm, heff⟩ := accessCache_sat hc hacc hd hst (hiff.mp hp)
    rw [hac, ok_bind]
    exact completed hrouted hl1 hout hacc hinv hm heff
  · next hp =>
    rw [hiff] at hp
    have hul : acc.lock ≠ .unlock := fun e => hp (hperm (.inl e))
    have hn1 : n = 1 := hn.resolve_right fun e => hp (hperm (.inr e))
    rw [check_pos hul, ok_bind]
    by_cases hlack : Lacks cfg t x acc
    · -- the L2 misses too
      obtain ⟨i, d, hdrop, hinv, hgone, -⟩ := hc.dropOnMiss (a := acc.address)
      cases p with
      | msi =>
        have hlack' : Lacks cfg t (x.setL1 i d) acc := hlack
        dsimp only
        rw [if_pos rfl, hdrop, ok_bind, processShmemRequestFromL1Cache_miss hlack']
        subst hn1
        rw [← hd]
        exact requested hrouted hl1 hout ⟨hacc, hd, hul⟩ hlack
          (hinv.mono fun _ hb => ⟨rfl, hb.resolve_left id⟩) fun _ => hgone
      | mosi =>
        dsimp only
        rw [if_neg (by simp), pure_eq_ok, ok_bind, processShmemRequestFromL1Cache_miss hlack]
        subst hn1
        rw [← hd]
        exact requested (i := x.l1i) (d := x.l1d) hrouted hl1 hout ⟨hacc, hd, hul⟩ hlack
          (hc.mono fun _ => False.elim) fun e => by cases e
    · -- the L2 has the permission the L1 lacks, so the L1 has no copy
      obtain ⟨st, d, hcopy, hst'⟩ : ∃ st d, copy cfg t x acc.address = some (st, d) ∧
          acc.op.permissible st = true := by simpa [Lacks] using hlack
      have hno : l1Copy cfg t via x acc.address = none := by
        cases hl : l1Copy cfg t via x acc.address with
        | none => rfl
        | some l =>
          have ht := l1Copy_tag hl
          have hcl := copy_of_get (h := hc.incl hl)
          obtain ⟨rfl, rfl⟩ := Prod.mk.inj (some.inj (hcl.symm.trans hcopy))
          exact absurd ⟨l.info, l.data, by rw [hl, ← ht], hst'⟩ hp
      obtain ⟨i, c, c₂, hfill, hinv, hg, hcp⟩ :=
        processShmemRequestFromL1Cache_hit (w := w) hc (by simp) hw hno hcopy hst'
      have hperm' : Permits cfg t via (x.setCaches i c c₂) acc := ⟨st, d, hg, hst'⟩
      obtain ⟨i', c', c₂', ev, hac, hinv', hm, heff⟩ := accessCache_sat hinv hacc hd
        (by rw [hcp]; exact hst) hperm'
      have heff' : Effect cfg t x acc ({ x with l1i := i', l1d := c', l2 := c₂' }, [ev]) := by
        simpa only [Effect, hcp] using heff
      obtain ⟨i₀, d₀, hdrop, -, -, hsame⟩ := hc.dropOnMiss (a := acc.address)
      obtain ⟨rfl, rfl⟩ := hsame hno
      have hfin := completed (p := p) (n := n) hrouted hl1 hout hacc hinv' hm heff'
      cases p with
      | msi =>
        dsimp only
        rw [if_pos rfl, hdrop, ok_bind, hfill, ok_bind]
        dsimp only
        rw [if_neg (by simp), hac]
        exact hfin
      | mosi =>
        dsimp only
        rw [if_neg (by simp), pure_eq_ok, ok_bind, hfill, ok_bind]
        dsimp only
        rw [if_neg (by simp), hac]
        exact hfin

/-! ### Messages -/

theorem TileInv.shrink {x' : Tile A N H} (h : TileInv p cfg t via x) (hopen : x.app.Open)
    (hc : CacheInv cfg t via (Missing p x) x') (happ : x'.app = x.app)
    (hout : x'.outstanding = x.outstanding) (hl1 : x'.fromL1 t = x.fromL1 t)
    (hrouted : AllRouted cfg t x')
    (hcopy : ∀ b st d, copy cfg t x' b = some (st, d) → ∃ st' d', copy cfg t x b = some (st', d') ∧
      ∀ op : MemOp, op.permissible st → op.permissible st')
    (hl1d : ∀ b, l1Copy cfg t via x b = none → l1Copy cfg t via x' b = none) :
    TileInv p cfg t via x' := by
  have hmiss : ∀ b, Missing p x' b ↔ Missing p x b := fun b => by simp [Missing, happ, hout]
  refine ⟨hc.mono fun b hb => (hmiss b).mpr hb, hrouted, ?_, fun b hb =>
    hl1d b (h.gone b ((hmiss b).mp hb))⟩
  have ht := h.thread
  unfold ThreadInv at ht ⊢
  rw [happ, hout, hl1]
  cases ha : x.app with
  | idle => rw [ha] at ht; exact ht
  | locked a => simp [ha, App.Open] at hopen
  | granted acc n => simp [ha, App.Open] at hopen
  | waiting acc n =>
    rw [ha] at ht
    refine ⟨ht.1, ht.2.1, ht.2.2.imp_left fun ⟨h1, h2, hlack⟩ => ⟨h1, h2, fun st d hst => ?_⟩⟩
    obtain ⟨st', d', hst', hp⟩ := hcopy _ st d hst
    have := hlack st' d' hst'
    by_contra hne
    simp [hp acc.op (by simpa using hne)] at this

theorem TileInv.answer {i d₁ : Store A CacheState LineData}
    {m : ShmemMsg A N} (h : TileInv p cfg t via x) (hopen : x.app.Open)
    (hc : CacheInv cfg t via (Missing p x) (x.setCaches i d₁ c₂))
    (hm : isToDirectory a m = true) (hs : m.senderComponent = .l2Cache)
    (hcopy : ∀ b st d, copy cfg t (x.setCaches i d₁ c₂) b = some (st, d) →
      ∃ st' d', copy cfg t x b = some (st', d') ∧ ∀ op : MemOp, op.permissible st → op.permissible st')
    (hl1d : ∀ b, l1Copy cfg t via x b = none → l1Copy cfg t via (x.setCaches i d₁ c₂) b = none) :
    TileInv p cfg t via (Tile.send (x.setCaches i d₁ c₂) (cfg.home a) m) := by
  obtain ⟨hr, rfl⟩ := isToDirectory_iff.mp hm
  refine h.shrink hopen (hc.congr rfl rfl rfl) rfl rfl (fromL1_send (isFromL1_of_ne (by simp [hr]))) ?_ hcopy hl1d
  exact routed_send h.routed (.inl ⟨hr, hs, rfl⟩)

theorem TileInv.of_waits {k : MsgType × Bool} (h : TileInv p cfg t via x) (hw : x.waits a = some k) :
    ∃ acc, x.app = .waiting acc 1 ∧ Issued cfg via acc ∧ x.fromL1 t = [] ∧
      x.outstanding = some (request cfg t acc) ∧ acc.address = a ∧
      k = (L1.getShmemMsgType acc.op, cfg.isApplicationTile t) := by
  have ht := h.thread
  obtain ⟨o, ho, hk⟩ := map_eq_some_iff.mp hw
  obtain ⟨ho, hadr⟩ := filter_eq_some_iff.mp ho
  unfold ThreadInv at ht
  cases ha : x.app with
  | idle => simp [ha, ho] at ht
  | locked a => simp [ha, ho] at ht
  | granted acc n => simp [ha, ho] at ht
  | waiting acc n =>
    simp only [ha, ho, reduceCtorEq, false_and, and_false, false_or, some.injEq] at ht
    obtain ⟨rfl, hiss, hl1, rfl⟩ := ht
    refine ⟨acc, rfl, hiss, hl1, ho, of_decide_eq_true hadr, hk.symm⟩

/-- The tile after the reply to its request, with the application thread woken up. -/
theorem TileInv.granted {d : LineData} (hiss : Issued cfg via acc)
    (hc : CacheInv cfg t via (fun _ => False) x) (hrouted : AllRouted cfg t x)
    (hl1 : x.fromL1 t = []) (hg : l1Copy cfg t via x acc.address = some ⟨acc.address, st, d⟩)
    (hst : acc.op.permissible st) :
    TileInv p cfg t via { x with outstanding := none, app := .granted acc 1 } where
  cache := by
    have hc' : CacheInv cfg t via (fun _ => False) { x with outstanding := none, app := .granted acc 1 } :=
      hc.congr rfl rfl rfl
    exact hc'.mono fun _ => False.elim
  routed := hrouted
  thread := ⟨hl1, rfl, rfl, hiss, st, d, hg, hst⟩
  gone := by rintro a ⟨-, -, acc', n, happ, -⟩; cases happ

theorem waits_of_outstanding {r : ShmemMsg A N} {b : A} (hout : x.outstanding = some r)
    (hb : b ≠ r.address) : x.waits b = none := by
  simp [Tile.waits, hout, Ne.symm hb]

end Graphite.PrL2
