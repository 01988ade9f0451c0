import Graphite.PrL2.Model

/-! # The home of a tile

The cache controllers of a tile do not touch its directory controller, and do not fail
because a data list is full.
-/

namespace Graphite

open Outcome

/-- The fault is not that a data list is full. -/
abbrev NotFull (e : Fault) : Prop := (e == .dataListFull) = false

def Quiet {β : Type} (y : Except Fault β) : Prop := Sat y NotFull fun _ => True

section Quiet

variable {β γ : Type} {y : Except Fault β} {f : β → Except Fault γ} {Q : γ → Prop}

theorem Quiet.bind (hy : Quiet y) (hf : ∀ b, Sat (f b) NotFull Q) : Sat (y >>= f) NotFull Q :=
  Sat.bind hy fun b _ => hf b

theorem quiet_check {p : Prop} [Decidable p] {e : Fault} (he : NotFull e) : Quiet (check p e) :=
  sat_check.mpr ⟨fun _ => trivial, fun _ => he⟩

theorem after_check {p : Prop} [Decidable p] {e : Fault} {f : Unit → Except Fault γ}
    (he : NotFull e) (hf : ∀ u, Sat (f u) NotFull Q) : Sat (check p e >>= f) NotFull Q :=
  (quiet_check he).bind hf

end Quiet

end Graphite

namespace Graphite.PrL2

open Outcome SetAssoc

variable {A : Type} [DecidableEq A] {N : ℕ} {H : Type}

variable {p : Protocol} {cfg : Config A N} {t : Fin N} {x : Tile A N H} {comp : MemComponent} {a : A}
  {st : CacheState} {d : LineData} {w : ℕ}

/-- A program of a cache controller that starts in `x`. -/
def KeepsHome (x : Tile A N H) (y : Except Fault (Tile A N H)) : Prop :=
  Sat y NotFull fun x' => x'.home = x.home

section
omit [DecidableEq A]

theorem KeepsHome.bind {y : Except Fault (Tile A N H)} {f : Tile A N H → Except Fault (Tile A N H)}
    (h : KeepsHome x y) (hf : ∀ x', KeepsHome x' (f x')) : KeepsHome x (y >>= f) :=
  Sat.bind h fun x' hx => (hf x').mono fun _ h' => h'.trans hx

theorem KeepsHome.ensures {y : Except Fault (Tile A N H)} (h : KeepsHome x y) :
    Ensures y fun x' => x'.home = x.home :=
  h.imp (fun _ _ => trivial) fun _ h' => h'

end

section

variable {I : Type} {g : Geometry A} {c : Store A I LineData}

theorem quiet_setCacheLineInfo {info : Option I} : Quiet (setCacheLineInfo g c a info) := by
  unfold setCacheLineInfo
  split
  · exact rfl
  · trivial

theorem quiet_readLine : Quiet (readLine g c a) := by
  unfold readLine
  split
  · exact rfl
  · trivial

end

section
omit [DecidableEq A]

theorem quiet_getL1Cache : Quiet (L1.getL1Cache x comp) := by
  unfold L1.getL1Cache
  split
  · trivial
  · trivial
  · exact rfl

theorem home_setL1Cache {c : Store A CacheState LineData} : (L1.setL1Cache x comp c).home = x.home := by
  cases comp <;> rfl

end

theorem L1.keepsHome_setCacheLineState : KeepsHome x (L1.setCacheLineState cfg t x comp a st) :=
  quiet_getL1Cache.bind fun _ => after_check rfl fun _ =>
    quiet_setCacheLineInfo.bind fun _ => home_setL1Cache

theorem L1.keepsHome_invalidateCacheLine : KeepsHome x (L1.invalidateCacheLine p cfg t x comp a) := by
  refine quiet_getL1Cache.bind fun c => ?_
  split
  · rfl
  · exact quiet_setCacheLineInfo.bind fun _ => home_setL1Cache

namespace L2

theorem keepsHome_setInfo {info : Option L2Info} : KeepsHome x (L2.setInfo cfg t x a info) :=
  quiet_setCacheLineInfo.bind fun _ => rfl

theorem keepsHome_setCacheLineStateInL1 : KeepsHome x (L2.setCacheLineStateInL1 cfg t x comp a st) := by
  unfold L2.setCacheLineStateInL1
  split
  · exact L1.keepsHome_setCacheLineState
  · rfl

theorem keepsHome_invalidateCacheLineInL1 :
    KeepsHome x (L2.invalidateCacheLineInL1 p cfg t x comp a) := by
  unfold L2.invalidateCacheLineInL1
  split
  · exact L1.keepsHome_invalidateCacheLine
  · rfl

theorem keepsHome_insertCacheLine : KeepsHome x (L2.insertCacheLine p cfg t x comp a w st d) := by
  refine after_check rfl fun _ => ?_
  dsimp only
  split
  · rfl
  · refine Sat.bind keepsHome_invalidateCacheLineInL1 fun x' hx => Quiet.bind ?_ fun _ => hx
    unfold L2.evictionMsg
    split
    · trivial
    · exact after_check rfl fun _ => trivial

theorem keepsHome_insertCacheLineInL1 :
    KeepsHome x (L2.insertCacheLineInL1 cfg t x comp a w st d) := by
  refine after_check rfl fun _ => ?_
  unfold L1.insertCacheLine
  simp only [bind_assoc]
  refine quiet_getL1Cache.bind fun c => ?_
  simp only [pure_eq_ok, ok_bind]
  split
  · exact home_setL1Cache
  · split
    · exact after_check rfl fun _ => (keepsHome_setInfo).mono fun _ h => h.trans home_setL1Cache
    · exact (keepsHome_setInfo).mono fun _ h => h.trans home_setL1Cache

theorem keepsHome_insertCacheLineInHierarchy {w₁ : MemComponent → ℕ} {w₂ : ℕ} :
    KeepsHome x (L2.insertCacheLineInHierarchy p cfg t x a w₁ w₂ st d) := by
  unfold L2.insertCacheLineInHierarchy
  split
  · exact rfl
  · exact after_check rfl fun _ => keepsHome_insertCacheLine.bind fun _ =>
      keepsHome_insertCacheLineInL1

theorem processShmemRequestFromL1Cache_home {op : MemOp} :
    Ensures (L2.processShmemRequestFromL1Cache cfg t x comp a w op) fun y => y.1.home = x.home := by
  unfold L2.processShmemRequestFromL1Cache
  dsimp only
  split
  · refine ensures_bind fun d => keepsHome_insertCacheLineInL1.ensures.bind fun x₁ h₁ => ?_
    refine ensures_bind fun loc => keepsHome_setInfo.ensures.bind fun x₂ h₂ => ?_
    exact h₂.trans h₁
  · rfl

end L2

omit [DecidableEq A] in
theorem keepsHome_wakeUpAppThread : KeepsHome x x.wakeUpAppThread := by
  unfold Tile.wakeUpAppThread
  split
  · rfl
  · exact rfl

theorem L1.accessCache_home {acc : Access A} :
    Ensures (L1.accessCache cfg t x acc) fun y => y.1.home = x.home := by
  unfold L1.accessCache
  refine ensures_bind fun c => ?_
  split
  · exact ensures_bind fun _ => ensures_bind fun _ => rfl
  · exact ensures_bind fun _ => ensures_bind fun _ => rfl
  · refine ensures_bind fun c => ?_
    unfold L2.writeCacheLine
    simp only [bind_assoc]
    refine ensures_bind fun c₂ => ?_
    exact home_setL1Cache

theorem L1.processMemOpFromCore_home {acc : Access A} {n : ℕ} :
    Ensures (L1.processMemOpFromCore p cfg t x w acc n) fun y => y.1.home = x.home := by
  unfold L1.processMemOpFromCore
  refine ensures_bind fun _ => ensures_bind fun cstate => ?_
  split
  · exact L1.accessCache_home.bind fun y hy => hy
  · refine ensures_bind fun _ => ?_
    have hmiss : ∀ x', x'.home = x.home → Ensures (do
        let y ← L2.processShmemRequestFromL1Cache cfg t x' acc.component acc.address w acc.op
        if y.2 then
          let m : ShmemMsg A N := ⟨L1.getShmemMsgType acc.op, acc.component, .l2Cache, t, acc.address, none,
            cfg.isApplicationTile t, none, false⟩
          pure ({ y.1.send t m with app := .waiting acc n }, [])
        else
          let z ← L1.accessCache cfg t y.1 acc
          pure ({ z.1 with app := L1.after acc }, [z.2])) fun y => y.1.home = x.home := by
      intro x' hx'
      refine L2.processShmemRequestFromL1Cache_home.bind fun y hy => ?_
      dsimp only
      split
      · exact hy.trans hx'
      · exact L1.accessCache_home.bind fun z hz => hz.trans (hy.trans hx')
    split
    · exact L1.keepsHome_invalidateCacheLine.ensures.bind hmiss
    · exact hmiss x rfl

omit [DecidableEq A] in
theorem State.pop_home (s : State A N H) (src dst u : Fin N) :
    (s.pop src dst u).home = (s u).home := by
  unfold State.pop
  by_cases hu : u = src
  · subst hu; simp
  · simp [hu]

theorem step_homes
    {handle : Fin N → Fin N → Choice → ShmemMsg A N → Tile A N H → Except Fault (Tile A N H)}
    {s : State A N H} {I : H → Prop} {act : Action A N} (hI : ∀ t, I (s t).home)
    (hhandle : ∀ t sender ch m x, I x.home → Ensures (handle t sender ch m x) fun y => I y.home) :
    Ensures (step p cfg handle s act) fun r => ∀ t, I (r.1 t).home := by
  have hupd : ∀ (s : State A N H) (t : Fin N) (x : Tile A N H), (∀ u, I (s u).home) → I x.home →
      ∀ u, I (Function.update s t x u).home := by
    intro s t x hs hx u
    by_cases hu : u = t
    · subst hu
      simpa using hx
    · simpa [hu] using hs u
  cases act with
  | access t acc ch =>
    exact L1.processMemOpFromCore_home.bind fun y hy => hupd s t y.1 hI (hy ▸ hI t)
  | resume t ch =>
    unfold step
    dsimp only
    split
    · exact L1.processMemOpFromCore_home.bind fun y hy => hupd s t y.1 hI (hy ▸ hI t)
    · exact hI
  | deliver src dst ch =>
    unfold step
    dsimp only
    split
    · exact hI
    · next m ms hm =>
      have hpop : ∀ u, I (s.pop src dst u).home := fun u => by
        rw [s.pop_home]
        exact hI u
      exact (hhandle dst src ch m _ (hpop dst)).bind fun x hx => hupd _ dst x hpop hx

end Graphite.PrL2
