import Graphite.Core.Atomic
import Graphite.Mosi.Safety
import Graphite.Msi.Safety

/-! # Atomic read-modify-writes under the protocols

The machines of the protocols take the steps of their threads: the lock provides what a run of the
machine needs of the threads, and the invariant of the machine what an atomic read-modify-write needs
of the L1 cache.
-/

namespace Graphite.Core

open Outcome PrL2

variable {N : ℕ} {H L : Type} {cfg : Config ℕ N}

/-- A machine with private L2 caches as a memory system. -/
def memory (cfg : Config ℕ N) (S : System (PrL2.State ℕ N H) (PrL2.Action ℕ N) Fault (PrL2.Event ℕ N)) :
    Memory (PrL2.State ℕ N H) (PrL2.Event ℕ N) N where
  system := S
  app s t := (s t).app
  lineSize := cfg.lineSize
  hasWays t ch := decide (ch.Ok cfg t)
  arrived s src t := !((s src).out t).isEmpty
  permissible s t acc :=
    match L1.getCacheLineState cfg t (s t) acc.component acc.address with
    | .ok cstate => acc.op.permissible cstate
    | .error _ => false

theorem lawful_of_rules {p : Protocol}
    {handle : Fin N → Fin N → Choice → ShmemMsg ℕ N → Tile ℕ N H → Except Fault (Tile ℕ N H)}
    {init : Fin N → H → Prop} {E : Fault → Prop} {W : View ℕ N H L}
    (hR : Rules p cfg (fun _ => .data) handle E W)
    (hinit : ∀ s, (PrL2.system p cfg handle init).init s → ∃ V, Coherent p cfg (fun _ => .data) W V s) :
    (memory cfg (PrL2.system p cfg handle init)).Lawful := by
  have hrun : ∀ {tr s}, (PrL2.system p cfg handle init).Run DataOnly tr s →
      ∃ V, Coherent p cfg (fun _ => .data) W V s := fun h =>
    h.invariant (E := E) (I := fun _ s => ∃ V, Coherent p cfg (fun _ => .data) W V s) hinit
      fun _ _ _ ⟨V, hi⟩ hd he =>
        (hi.step hR (through_data hd) he).imp (fun _ => And.left) fun _ hr => ⟨_, hr.1⟩
  refine { init := fun h t => (h t).2.2.2.2.2.1, enabled := ?_, step := ?_, hit := ?_ }
  · rintro s (⟨t, acc, ch⟩ | ⟨t, ch⟩ | ⟨src, t, ch⟩) hd hoff
    · obtain ⟨⟨h1, h2, h3, h4⟩, h5, h6⟩ := hoff
      exact ⟨⟨h1, h2, .inl hd, h3, h4⟩, of_decide_eq_true h5, h6⟩
    · exact ⟨of_decide_eq_true hoff.1, hoff.2⟩
    · refine ⟨of_decide_eq_true hoff.1, ?_, hoff.2.2⟩
      simpa [memory] using hoff.2.1
  · intro tr s act h hd he
    obtain ⟨V, hi⟩ := hrun h
    exact (hi.step hR (through_data hd) he).imp (fun _ => And.right) fun _ hr => hr.2.2
  · intro tr s t acc h happ hd hop
    obtain ⟨V, hi⟩ := hrun h
    have ht := (hi.tiles t).thread
    have happ : (s t).app = .locked acc.address := happ
    unfold ThreadInv at ht
    rw [happ] at ht
    obtain ⟨-, -, d, hl⟩ := ht
    obtain ⟨st, hst, hiff⟩ := getCacheLineState_eq cfg t Route.data (s t) acc
    have hst : L1.getCacheLineState cfg t (s t) acc.component acc.address = .ok st := hd ▸ hst
    simp only [memory, hst]
    exact hiff.mpr ⟨.modified, d, hl, by rw [hop]; rfl⟩

def msiMemory (cfg : Config ℕ N) (dram : Fin N → ℕ → Option LineData) :
    Memory (PrL2.State ℕ N (Msi.Home ℕ N)) (PrL2.Event ℕ N) N :=
  memory cfg (Msi.system cfg dram)

theorem msiMemory_lawful {dram : Fin N → ℕ → Option LineData}
    (hty : cfg.directory.type ≠ .limitedBroadcast) : (msiMemory cfg dram).Lawful :=
  lawful_of_rules (Msi.rules hty _) fun _ hs => ⟨_, (Msi.init_coherent hty _ hs).coherent⟩

def mosiMemory (cfg : Config ℕ N) (dram : Fin N → ℕ → Option LineData) :
    Memory (PrL2.State ℕ N (Mosi.Home ℕ N)) (PrL2.Event ℕ N) N :=
  memory cfg (Mosi.system cfg dram)

theorem mosiMemory_lawful {dram : Fin N → ℕ → Option LineData} : (mosiMemory cfg dram).Lawful :=
  lawful_of_rules (Mosi.rules cfg _) fun _ hs => ⟨_, (Mosi.init_coherent _ hs).coherent⟩

/-! ## One tile -/

def oneTile : Config ℕ 1 where
  home _ := 0
  l1i _ := ⟨fun _ => 0, 2⟩
  l1d _ := ⟨fun _ => 0, 2⟩
  l2 _ := ⟨fun _ => 0, 2⟩
  directory := ⟨⟨fun _ => 0, 2⟩, .fullMap, 1⟩
  isApplicationTile _ := true
  lineSize := 64

def go : Action 1 := .app 0 ⟨0, 0, 0, 0⟩

def net : Action 1 := .sim 0 0 ⟨0, 0, 0, 0⟩

/-- The read of a read-modify-write that misses: the requests reach the L2 and the directory, the reply
comes back, and the application thread takes the lock back. -/
def readMiss : List (Action 1) :=
  [go, go, net, net, net, net, net, net, net, net, go, go]

theorem msi_start (P : Action 1 → Prop) : (threads (msiMemory oneTile fun _ _ => none)).Run P []
    ⟨initial fun _ => ⟨.empty, fun _ => [], fun _ => none, ()⟩, fun _ => .initial⟩ :=
  .start ⟨fun _ => ⟨rfl, rfl, rfl, rfl, rfl, rfl, rfl⟩, rfl⟩

theorem mosi_start (P : Action 1 → Prop) : (threads (mosiMemory oneTile fun _ _ => none)).Run P []
    ⟨initial fun _ => ⟨.empty, fun _ => [], fun _ => none, .empty⟩, fun _ => .initial⟩ :=
  .start ⟨fun _ => ⟨rfl, rfl, rfl, rfl, rfl, rfl, rfl⟩, rfl⟩

/-- The four bytes from `address` on are read and overwritten. -/
def update (address : ℕ) : Command := .readModifyWrite address [0, 0, 0, 0] [1, 1, 1, 1]

/-- What has happened since `update address` was started. -/
def sinceUpdate (address : ℕ) (tr : List (Event 1)) : Option (List Mark) :=
  match history 0 tr with
  | some (.readModifyWrite a old new, ms) =>
    if a = address ∧ old = [0, 0, 0, 0] ∧ new = [1, 1, 1, 1] then some ms else none
  | _ => none

theorem history_of_sinceUpdate {address : ℕ} {tr : List (Event 1)} (h : (sinceUpdate address tr).isSome) :
    ∃ ms, history 0 tr = some (update address, ms) := by
  unfold sinceUpdate at h
  split at h
  · next a old new ms hh =>
    split at h
    · next he => exact ⟨ms, by rw [hh, he.1, he.2.1, he.2.2]; rfl⟩
    · cases h
  · cases h

/-- A run of the memory system with a read-modify-write of bytes 8 to 11, from its start to its end. -/
def Completes {σ ω : Type} (M : Memory σ ω 1) : Prop := ∃ tr s ms,
  (threads M).Run (InLine M.lineSize) tr s ∧ history 0 tr = some (update 8, ms) ∧
    Atomic (readHalf M.lineSize 8 [0, 0, 0, 0]) (writeHalf M.lineSize 8 [1, 1, 1, 1]) ms

theorem AtomicUpdates.completes {σ ω : Type} {M : Memory σ ω 1} (hM : AtomicUpdates M)
    {tr : List (Event 1)} {s : State σ 1} (h : (threads M).Run (InLine M.lineSize) tr s)
    (hq : ((s.threads 0).ops.isEmpty && (sinceUpdate 8 tr).isSome) = true) : Completes M := by
  obtain ⟨hops, hs⟩ := Bool.and_eq_true_iff.mp hq
  obtain ⟨ms, hms⟩ := history_of_sinceUpdate hs
  obtain ⟨full, hfull, -, he⟩ := (hM tr s h 0).1 _ _ _ _ hms
  rw [← he (List.isEmpty_iff.mp hops)] at hfull
  exact ⟨tr, s, ms, h, hms, hfull⟩

theorem atomic_updates (cfg : Config ℕ N) (dram : Fin N → ℕ → Option LineData) :
    (cfg.directory.type ≠ .limitedBroadcast → AtomicUpdates (msiMemory cfg dram)) ∧
    AtomicUpdates (mosiMemory cfg dram) :=
  ⟨fun hty => (msiMemory_lawful hty).atomicUpdates, mosiMemory_lawful.atomicUpdates⟩

/-- Under either protocol a read-modify-write that misses comes to its end. -/
theorem atomic_updates_miss : Completes (msiMemory oneTile fun _ _ => none) ∧
    Completes (mosiMemory oneTile fun _ _ => none) := by
  have hin : ∀ act ∈ .start 0 (update 8) :: readMiss ++ [go, go], InLine 64 act := by
    have hwithin : Within 64 8 [0, 0, 0, 0] := ⟨by decide, by decide, by decide⟩
    simp [InLine, readMiss, go, net, update, hwithin]
  obtain ⟨hmsi, hmosi⟩ := atomic_updates oneTile fun _ _ => none
  constructor
  · obtain ⟨tr, s, h, hq⟩ := (msi_start (InLine 64)).of_reaches
      (Q := fun tr s => (s.threads 0).ops.isEmpty && (sinceUpdate 8 tr).isSome) _ (by decide +kernel) hin
    exact (hmsi (by decide)).completes h hq
  · obtain ⟨tr, s, h, hq⟩ := (mosi_start (InLine 64)).of_reaches
      (Q := fun tr s => (s.threads 0).ops.isEmpty && (sinceUpdate 8 tr).isSome) _ (by decide +kernel) hin
    exact hmosi.completes h hq

/-- The application thread is about to take the lock that it holds. -/
def takesHeldLock (τ : Threads) : Bool :=
  decide (τ.lock = some .app) && decide (τ.app = .running) &&
    match τ.ops with
    | .acquire :: _ => true
    | _ => false

theorem lock_of_takesHeldLock {τ : Threads} (h : takesHeldLock τ) : τ.lock = some .app := by
  simp only [takesHeldLock, Bool.and_eq_true, decide_eq_true_eq] at h
  exact h.1.1

theorem not_ready_of_takesHeldLock {σ ω : Type} {M : Memory σ ω N} {t : Fin N} {ch : Choice} {τ : Threads}
    (h : takesHeldLock τ) : ¬ τ.AppReady M t ch := by
  have hlock := lock_of_takesHeldLock h
  simp only [takesHeldLock, Bool.and_eq_true, decide_eq_true_eq] at h
  obtain ⟨⟨-, hpc⟩, hops⟩ := h
  intro hen
  split at hops
  · next ops ho => simp [Threads.AppReady, hpc, ho, hlock] at hen
  · cases hops

/-- Bytes 62 to 65 lie in two lines. The read of the first piece leaves the lock taken, and the read of
the second piece takes it again: the application thread waits for itself. -/
theorem crossing_update_blocks : ∃ tr s,
    (threads (msiMemory oneTile fun _ _ => none)).Run (fun _ => True) tr s ∧
      (∃ ms, history 0 tr = some (update 62, ms)) ∧ (s.threads 0).lock = some .app ∧
      ∀ ch, ¬ (threads (msiMemory oneTile fun _ _ => none)).enabled s (.app 0 ch) :=
  (msi_start fun _ => True).of_reaches_imp
    (Q := fun tr s => (sinceUpdate 62 tr).isSome = true ∧ takesHeldLock (s.threads 0) = true)
    (.start 0 (update 62) :: readMiss) fun _ _ _ hq => ⟨history_of_sinceUpdate hq.1,
      lock_of_takesHeldLock hq.2, fun _ => not_ready_of_takesHeldLock hq.2⟩

end Graphite.Core
