import Graphite.Core.Threads

/-! # Atomic read-modify-writes

As long as no operand of an atomic read-modify-write leaves its line, the lock of a tile is held by
the thread that works on the memory system, and the history of a read-modify-write is `Atomic`: the
lock is taken once, before the read, and given back once, after the write.
-/

namespace Graphite.Core

open Outcome PrL2 List Threads

variable {σ ω : Type} {N : ℕ} {ops : List Op}

/-! ## Histories -/

/-- The last command of tile `t` and what has happened at the tile since it was started. -/
def record (t : Fin N) : Option (Command × List Mark) → Event N → Option (Command × List Mark)
  | r, .start u cmd => if u = t then some (cmd, []) else r
  | r, .mark u m => if u = t then r.map fun (cmd, ms) => (cmd, ms ++ [m]) else r

def history (t : Fin N) (tr : List (Event N)) : Option (Command × List Mark) :=
  tr.foldl (record t) none

/-- The lock is given up and taken back while the access waits for messages, or not at all. -/
def Waited (ms : List Mark) : Prop :=
  ms = [] ∨ ∃ j, ms = .handOver :: replicate j .handled ++ [.takeBack]

/-- What happens from the start of an atomic read-modify-write up to the next command. -/
def Atomic (rd wr : Access ℕ) (ms : List Mark) : Prop :=
  ∃ i k w hit, Waited w ∧ ms = replicate i .handled ++ .acquire :: w ++
    [.done rd hit, .done wr true, .release] ++ replicate k .handled

/-- The two accesses of an atomic read-modify-write within a line. -/
def readHalf (lineSize address : ℕ) (old : List UInt8) : Access ℕ :=
  ⟨.l1DCache, .lock, .readEx, address - address % lineSize, address % lineSize, old⟩

def writeHalf (lineSize address : ℕ) (new : List UInt8) : Access ℕ :=
  ⟨.l1DCache, .unlock, .write, address - address % lineSize, address % lineSize, new⟩

/-- The operand of an atomic read-modify-write lies within a line. -/
def InLine (lineSize : ℕ) : Action N → Prop
  | .start _ (.readModifyWrite address old _) => Within lineSize address old
  | _ => True

/-! ## The invariant -/

/-- What may be left of a program. -/
inductive Left (n : ℕ) : List Op → Prop
  | nil : Left n []
  | release : Left n [.release]
  | access {acc : Access ℕ} : Plain n acc → Left n [.access acc, .release]
  | write {address : ℕ} {new : List UInt8} : Within n address new →
      Left n [.access (writeHalf n address new), .release]
  | read {address : ℕ} {old new : List UInt8} : Within n address old → Within n address new →
      Left n [.access (readHalf n address old), .access (writeHalf n address new), .release]
  | acquire {acc : Access ℕ} {ops : List Op} : acc.lock ≠ .unlock → Left n (.access acc :: ops) →
      Left n (.acquire :: .access acc :: ops)

/-- The application thread holds the lock while it runs through the middle of a program. -/
def Held : List Op → Prop
  | [] | .acquire :: _ => False
  | _ => True

/-- Where the memory system sees the application thread before the next step of its program. -/
def expected : List Op → App ℕ
  | .access acc :: _ => if acc.lock = .unlock then .locked acc.address else .idle
  | _ => .idle

/-- The threads of a tile and the memory system agree; `a` is where it sees the application thread. -/
structure Threads.Ok (n : ℕ) (τ : Threads) (a : App ℕ) : Prop where
  left : Left n τ.ops
  lockApp : τ.lock = some .app ↔ τ.app = .running ∧ Held τ.ops
  lockSim : τ.lock = some .sim ↔ τ.sim = .handling ∨ τ.sim = .finishing
  woken : a.Woken → τ.sim = .blocked ∧ τ.simThreadSem = 0
  asleep : ¬ a.Woken → τ.simThreadSem = if τ.sim = .blocked then 1 else 0
  app : match τ.app with
    | .running => a = expected τ.ops ∧ τ.appThreadSem = 0
    | .blocked => ∃ acc ops, τ.ops = .access acc :: ops ∧ acc.lock ≠ .unlock ∧
        (a = .waiting acc 1 ∧ τ.appThreadSem = 0 ∨ a = .granted acc 1 ∧ τ.appThreadSem = 1)
    | .woken => ∃ acc ops, τ.ops = .access acc :: ops ∧ acc.lock ≠ .unlock ∧ a = .granted acc 1 ∧
        τ.appThreadSem = 0

/-- The lock has been taken, and the read may have waited. -/
def Began (ms : List Mark) : Prop :=
  ∃ i w, Waited w ∧ ms = replicate i .handled ++ .acquire :: w

/-- How far a read-modify-write has come. -/
inductive Told (rd wr : Access ℕ) : AppPc → List Op → List Mark → Prop
  | ready (i : ℕ) : Told rd wr .running [.acquire, .access rd, .access wr, .release]
      (replicate i .handled)
  | taken (i : ℕ) : Told rd wr .running [.access rd, .access wr, .release]
      (replicate i .handled ++ [.acquire])
  | waits (i j : ℕ) {pc : AppPc} : pc ≠ .running → Told rd wr pc [.access rd, .access wr, .release]
      (replicate i .handled ++ .acquire :: .handOver :: replicate j .handled)
  | read {ms : List Mark} (hit : Bool) : Began ms →
      Told rd wr .running [.access wr, .release] (ms ++ [.done rd hit])
  | wrote {ms : List Mark} (hit : Bool) : Began ms →
      Told rd wr .running [.release] (ms ++ [.done rd hit, .done wr true])
  | ended {ms : List Mark} (hit : Bool) (k : ℕ) : Began ms → Told rd wr .running []
      (ms ++ [.done rd hit, .done wr true, .release] ++ replicate k .handled)

/-- The history of a tile fits what is left of its program. -/
def Threads.Fits (n : ℕ) (τ : Threads) : Option (Command × List Mark) → Prop
  | some (.readModifyWrite address old new, ms) => Within n address old ∧ new.length = old.length ∧
      Told (readHalf n address old) (writeHalf n address new) τ.app τ.ops ms
  | _ => True

structure RunInv (M : Memory σ ω N) (tr : List (Event N)) (s : State σ N) : Prop where
  mem : ∃ tr', M.system.Run DataOnly tr' s.mem
  ok : ∀ t, (s.threads t).Ok M.lineSize (M.app s.mem t)
  fits : ∀ t, (s.threads t).Fits M.lineSize (history t tr)

/-! ## Histories of a step -/

section History

variable {t u : Fin N} {tr : List (Event N)} {n : ℕ} {τ τ' : Threads} {ms ms' : List Mark}
  {r : Option (Command × List Mark)}

theorem history_start (cmd : Command) : history u (tr ++ [.start t cmd]) =
    if t = u then some (cmd, []) else history u tr := by
  simp [history, record]

theorem history_marks (ms : List Mark) : history u (tr ++ ms.map (.mark t)) =
    if t = u then (history u tr).map fun (cmd, ms') => (cmd, ms' ++ ms) else history u tr := by
  induction ms generalizing tr with
  | nil => cases h : history u tr <;> simp [h]
  | cons m ms ih =>
    have hcons : tr ++ (m :: ms).map (.mark t) = tr ++ [.mark t m] ++ ms.map (.mark t) := by simp
    have hone : history u (tr ++ [.mark t m]) =
        if t = u then (history u tr).map fun (cmd, ms') => (cmd, ms' ++ [m]) else history u tr := by
      simp [history, record]
    rw [hcons, ih, hone]
    split
    · cases history u tr <;> simp
    · rfl

theorem Threads.Fits.next (h : τ.Fits n r) (τ' : Threads)
    (hnext : ∀ address old new ms', Told (readHalf n address old) (writeHalf n address new) τ.app τ.ops ms' →
      Told (readHalf n address old) (writeHalf n address new) τ'.app τ'.ops (ms' ++ ms)) :
    τ'.Fits n (r.map fun (cmd, ms') => (cmd, ms' ++ ms)) := by
  match r, h with
  | none, _ => trivial
  | some (.access _, _), _ => trivial
  | some (.readModifyWrite address old new, ms'), ⟨hw, hlen, ht⟩ => exact ⟨hw, hlen, hnext _ _ _ _ ht⟩

variable {rd wr acc : Access ℕ} {pc : AppPc} {ops : List Op} {hit : Bool}

theorem Told.acquire (h : Told rd wr .running (.acquire :: ops) ms) :
    Told rd wr .running ops (ms ++ [.acquire]) := by
  cases h with
  | ready i => exact .taken i

theorem Told.release (h : Told rd wr .running (.release :: ops) ms) :
    Told rd wr .running ops (ms ++ [.release]) := by
  cases h with
  | wrote hit hb => simpa using Told.ended hit 0 hb

theorem Told.done (h : Told rd wr .running (.access acc :: ops) ms) (hw : wr.lock = .unlock)
    (hhit : acc.lock = .unlock → hit = true) : Told rd wr .running ops (ms ++ [.done acc hit]) := by
  cases h with
  | taken i => exact .read hit ⟨i, [], .inl rfl, rfl⟩
  | waits _ _ hne => exact absurd rfl hne
  | read hit hb =>
    rw [hhit hw, append_assoc]
    exact .wrote hit hb

theorem Told.handOver (h : Told rd wr .running (.access acc :: ops) ms) (hw : wr.lock = .unlock)
    (ha : acc.lock ≠ .unlock) : Told rd wr .blocked (.access acc :: ops) (ms ++ [.handOver]) := by
  cases h with
  | taken i => simpa using Told.waits i 0 (by decide)
  | waits _ _ hne => exact absurd rfl hne
  | read hit hb => exact absurd hw ha

theorem Told.wake (h : Told rd wr .blocked ops ms) : Told rd wr .woken ops ms := by
  cases h with
  | waits i j _ => exact .waits i j (by decide)

theorem Told.takeBack (h : Told rd wr .woken (.access acc :: ops) ms) :
    Told rd wr .running ops (ms ++ [.takeBack, .done acc false]) := by
  cases h with
  | waits i j _ =>
    have hb : Began (replicate i .handled ++ .acquire ::
        (.handOver :: replicate j .handled ++ [.takeBack])) := ⟨i, _, .inr ⟨j, rfl⟩, rfl⟩
    have hread : Told rd wr .running [.access wr, .release] _ := .read false hb
    simpa using hread

/-- The sim thread handles a message only while the application thread does not hold the lock. -/
theorem Told.handled (h : Told rd wr pc ops ms) (hno : ¬ (pc = .running ∧ Held ops)) :
    Told rd wr pc ops (ms ++ [.handled]) := by
  cases h with
  | ready i => simpa [← replicate_succ'] using Told.ready (i + 1)
  | waits i j hne => simpa [← replicate_succ'] using Told.waits i (j + 1) hne
  | ended hit k hb => simpa [← replicate_succ'] using Told.ended hit (k + 1) hb
  | taken i => exact absurd ⟨rfl, trivial⟩ hno
  | read hit hb => exact absurd ⟨rfl, trivial⟩ hno
  | wrote hit hb => exact absurd ⟨rfl, trivial⟩ hno

theorem Told.isPrefix (h : Told rd wr pc ops ms) :
    ∃ full, Atomic rd wr full ∧ ms <+: full ∧ (ops = [] → ms = full) := by
  have hbegan : ∀ {ms : List Mark} (hit : Bool) (k : ℕ), Began ms → Atomic rd wr
      (ms ++ [.done rd hit, .done wr true, .release] ++ replicate k .handled) := by
    rintro ms hit k ⟨i, w, hw, rfl⟩
    exact ⟨i, k, w, hit, hw, by simp⟩
  cases h with
  | ready i => exact ⟨_, hbegan false 0 ⟨i, [], .inl rfl, rfl⟩, by simp, by simp⟩
  | taken i => exact ⟨_, hbegan false 0 ⟨i, [], .inl rfl, rfl⟩, by simp, by simp⟩
  | waits i j => exact ⟨_, hbegan false 0 ⟨i, _, .inr ⟨j, rfl⟩, rfl⟩, by simp, by simp⟩
  | read hit hb => exact ⟨_, hbegan hit 0 hb, by simp, by simp⟩
  | wrote hit hb => exact ⟨_, hbegan hit 0 hb, by simp, by simp⟩
  | ended hit k hb => exact ⟨_, hbegan hit k hb, prefix_rfl, fun _ => rfl⟩

end History

/-! ## Steps of a thread -/

theorem expected_of_not_held (h : ¬ Held ops) : expected ops = .idle := by
  match ops with
  | [] => rfl
  | .acquire :: _ => rfl
  | .access _ :: _ => exact absurd trivial h
  | .release :: _ => exact absurd trivial h

theorem expected_cases (ops : List Op) : expected ops = .idle ∨ ∃ a, expected ops = .locked a := by
  unfold expected
  split
  · next acc _ =>
    split
    · exact .inr ⟨acc.address, rfl⟩
    · exact .inl rfl
  · exact .inl rfl

theorem not_woken_expected (ops : List Op) : ¬ (expected ops).Woken := by
  rcases expected_cases ops with h | ⟨a, h⟩ <;> rw [h] <;> exact id

theorem not_woken_after (acc : Access ℕ) : ¬ (L1.after acc).Woken := by
  unfold L1.after
  split <;> exact id

/-- What is left after an access, and where the memory system sees the application thread then. -/
theorem Left.next {n : ℕ} {acc : Access ℕ} (h : Left n (.access acc :: ops)) :
    Left n ops ∧ Held ops ∧ expected ops = L1.after acc := by
  cases h with
  | access hp => exact ⟨.release, trivial, by simp [expected, L1.after, hp.2.1]⟩
  | write hw => exact ⟨.release, trivial, by simp [expected, L1.after, writeHalf]⟩
  | read hr hw =>
    exact ⟨.write hw, trivial, by simp [expected, L1.after, writeHalf, readHalf]⟩

theorem Left.issued {n : ℕ} {acc : Access ℕ} (h : Left n (.access acc :: ops)) :
    acc.component = .l1DCache ∧ acc.offset + acc.buf.length ≤ n ∧ acc.buf ≠ [] ∧
      (acc.lock = .lock → acc.op = .readEx) ∧ (acc.lock = .unlock → acc.op = .write) := by
  cases h with
  | access hp => exact ⟨hp.1, hp.2.2.1, hp.2.2.2, by simp [hp.2.1], by simp [hp.2.1]⟩
  | write hw => exact ⟨rfl, hw.oneLine, hw.nonempty, nofun, fun _ => rfl⟩
  | read hr hw => exact ⟨rfl, hr.oneLine, hr.nonempty, fun _ => rfl, nofun⟩

theorem accepts_expected (acc : Access ℕ) (ops : List Op) : (expected (.access acc :: ops)).Accepts acc := by
  rw [expected]
  split
  · next h => exact ⟨h, rfl⟩
  · next h => exact h

namespace Threads.Ok

variable {n : ℕ} {τ : Threads} {a a' : App ℕ} {acc : Access ℕ} {ops : List Op}

section

variable (h : τ.Ok n a)
include h

theorem running (hpc : τ.app = .running) : a = expected τ.ops ∧ τ.appThreadSem = 0 := by
  have := h.app
  rwa [hpc] at this

theorem blocked (hpc : τ.app = .blocked) :
    ∃ acc ops, τ.ops = .access acc :: ops ∧ acc.lock ≠ .unlock ∧
      (a = .waiting acc 1 ∧ τ.appThreadSem = 0 ∨ a = .granted acc 1 ∧ τ.appThreadSem = 1) := by
  have := h.app
  rwa [hpc] at this

theorem takesBack (hpc : τ.app = .woken) :
    ∃ acc ops, τ.ops = .access acc :: ops ∧ acc.lock ≠ .unlock ∧ a = .granted acc 1 ∧
      τ.appThreadSem = 0 := by
  have := h.app
  rwa [hpc] at this

theorem not_held (hs : τ.sim = .handling ∨ τ.sim = .finishing) :
    ¬ (τ.app = .running ∧ Held τ.ops) := by
  intro hh
  have h₁ := h.lockApp.mpr hh
  have h₂ := h.lockSim.mpr hs
  simp [h₁] at h₂

theorem open_of_handling (hs : τ.sim = .handling) : a.Open := by
  have hw : ¬ a.Woken := fun hw => by simpa [hs] using (h.woken hw).1
  cases hpc : τ.app with
  | running =>
    obtain ⟨rfl, -⟩ := h.running hpc
    rw [expected_of_not_held fun hh => h.not_held (.inl hs) ⟨hpc, hh⟩]
    trivial
  | blocked =>
    obtain ⟨acc, ops, -, -, ⟨rfl, -⟩ | ⟨rfl, -⟩⟩ := h.blocked hpc
    · trivial
    · exact absurd trivial hw
  | woken =>
    obtain ⟨acc, ops, -, -, rfl, -⟩ := h.takesBack hpc
    exact absurd trivial hw

section

variable (hpc : τ.app = .running)
include hpc

theorem start (hnil : τ.ops = [])
    (hleft : Left n (.acquire :: ops)) : Threads.Ok n { τ with ops := .acquire :: ops } a := by
  have hl := h.lockApp
  obtain ⟨ha, hsem⟩ := h.running hpc
  rw [hnil] at hl ha
  exact { left := hleft, lockApp := hl, lockSim := h.lockSim, woken := h.woken, asleep := h.asleep,
          app := by simp only [hpc]; exact ⟨ha, hsem⟩ }

theorem acquire (hops : τ.ops = .acquire :: ops)
    (hlock : τ.lock = none) : Threads.Ok n { τ with lock := some .app, app := .running, ops := ops } a := by
  have hleft := h.left
  have hsim := h.lockSim
  obtain ⟨ha, hsem⟩ := h.running hpc
  rw [hops] at hleft ha
  rw [hlock] at hsim
  cases hleft with
  | acquire hne hrest =>
    exact { h with
            left := hrest
            lockApp := by simp [Held]
            lockSim := by simpa using hsim
            app := ⟨by simpa [expected, hne] using ha, hsem⟩ }

theorem release (hops : τ.ops = .release :: ops) :
    Threads.Ok n { τ with lock := none, app := .running, ops := ops } a := by
  have hleft := h.left
  have hlock : τ.lock = some .app := h.lockApp.mpr ⟨hpc, by rw [hops]; trivial⟩
  have hsim := h.lockSim
  obtain ⟨ha, hsem⟩ := h.running hpc
  rw [hops] at hleft ha
  rw [hlock] at hsim
  cases hleft with
  | release =>
    exact { h with
            left := .nil
            lockApp := by simp [Held]
            lockSim := by simpa using hsim
            app := ⟨ha, hsem⟩ }

theorem done (hops : τ.ops = .access acc :: ops) :
    Threads.Ok n { τ with app := .running, ops := ops } (L1.after acc) := by
  obtain ⟨ha, hsem⟩ := h.running hpc
  have hleft := h.left
  have hlock := h.lockApp
  rw [hops] at hleft hlock
  obtain ⟨hrest, hheld, hexp⟩ := hleft.next
  exact { left := hrest
          lockApp := by rw [hlock, hpc]; exact iff_of_true ⟨rfl, trivial⟩ ⟨rfl, hheld⟩
          lockSim := h.lockSim
          woken := fun hw => absurd hw (not_woken_after acc)
          asleep := fun _ => h.asleep (ha ▸ not_woken_expected _)
          app := ⟨hexp.symm, hsem⟩ }

theorem wait (hops : τ.ops = .access acc :: ops) (hne : acc.lock ≠ .unlock) :
    Threads.Ok n { τ with lock := none, app := .blocked } (.waiting acc 1) := by
  obtain ⟨ha, hsem⟩ := h.running hpc
  have hlock : τ.lock = some .app := h.lockApp.mpr ⟨hpc, by rw [hops]; trivial⟩
  have hsim := h.lockSim
  rw [hlock] at hsim
  exact { left := h.left
          lockApp := by simp
          lockSim := by simpa using hsim
          woken := fun hw => absurd hw id
          asleep := fun _ => h.asleep (ha ▸ not_woken_expected _)
          app := ⟨acc, ops, hops, hne, .inl ⟨rfl, hsem⟩⟩ }

end

theorem wake (hpc : τ.app = .blocked) (hsem : 0 < τ.appThreadSem) :
    Threads.Ok n { τ with appThreadSem := τ.appThreadSem - 1, app := .woken } a := by
  obtain ⟨acc, ops, hops, hne, ⟨rfl, h0⟩ | ⟨rfl, h1⟩⟩ := h.blocked hpc
  · omega
  · have hlock := h.lockApp
    rw [hpc] at hlock
    exact { h with
            left := h.left
            lockApp := by simpa using hlock
            app := ⟨acc, ops, hops, hne, rfl, by simp [h1]⟩ }

theorem back (hpc : τ.app = .woken) (hops : τ.ops = .access acc :: ops)
    (hlock : τ.lock = none) : a = .granted acc 1 ∧ Threads.Ok n
      { τ with lock := some .app, simThreadSem := τ.simThreadSem + 1, app := .running, ops := ops }
      (L1.after acc) := by
  obtain ⟨acc', ops', hops', -, rfl, hsem⟩ := h.takesBack hpc
  obtain ⟨⟨rfl⟩, rfl⟩ := cons.inj (hops.symm.trans hops')
  have hleft := h.left
  have hsim := h.lockSim
  rw [hops] at hleft
  rw [hlock] at hsim
  obtain ⟨hrest, hheld, hexp⟩ := hleft.next
  obtain ⟨hb, h0⟩ := h.woken trivial
  exact ⟨rfl, { left := hrest
                lockApp := by simpa using hheld
                lockSim := by simpa using hsim
                woken := fun hw => absurd hw (not_woken_after acc)
                asleep := fun _ => by simp [hb, h0]
                app := ⟨hexp.symm, hsem⟩ }⟩

end

/-! The steps of the sim thread. -/

theorem simAcquire {pc : SimPc} (h : τ.Ok n a) (hlock : τ.lock = none) (hne : τ.sim ≠ .blocked)
    (hpc : pc = .handling ∨ pc = .finishing) :
    Threads.Ok n { τ with lock := some .sim, sim := pc } a := by
  have hl := h.lockApp
  have hnb : pc ≠ .blocked := by rcases hpc with rfl | rfl <;> simp
  rw [hlock] at hl
  exact { left := h.left
          lockApp := by simpa using hl
          lockSim := by simpa using hpc
          woken := fun hw => absurd (h.woken hw).1 hne
          asleep := fun hw => by simpa [hnb, hne] using h.asleep hw
          app := h.app }

theorem simRelease (h : τ.Ok n a) (hs : τ.sim = .finishing) :
    Threads.Ok n { τ with lock := none, sim := .idle } a := by
  have hno := h.not_held (.inr hs)
  exact { left := h.left
          lockApp := by simpa using hno
          lockSim := by simp
          woken := fun hw => by simpa [hs] using (h.woken hw).1
          asleep := fun hw => by simpa [hs] using h.asleep hw
          app := h.app }

theorem simWake (h : τ.Ok n a) (hs : τ.sim = .blocked) (hsem : 0 < τ.simThreadSem) :
    Threads.Ok n { τ with simThreadSem := τ.simThreadSem - 1, sim := .woken } a := by
  have hw : ¬ a.Woken := fun hw => by simp [(h.woken hw).2] at hsem
  have hsim := h.lockSim
  exact { h with
          left := h.left
          lockSim := by simpa [hs] using hsim
          woken := fun hw' => absurd hw' hw
          asleep := fun _ => by simp [h.asleep hw, hs] }

theorem handled (h : τ.Ok n a) (hs : τ.sim = .handling) : Threads.Ok n { τ with sim := .finishing } a :=
  { h with
    lockSim := by simpa [hs] using h.lockSim
    woken := fun hw => by simpa [hs] using (h.woken hw).1
    asleep := fun hw => by simpa [hs] using h.asleep hw }

theorem grant {k : ℕ} (h : τ.Ok n (.waiting acc k)) (hs : τ.sim = .handling) :
    Threads.Ok n { τ with lock := none, appThreadSem := τ.appThreadSem + 1, sim := .blocked }
      (.granted acc k) := by
  have h0 := h.asleep id
  cases hpc : τ.app with
  | running =>
    have := (h.running hpc).1
    rcases expected_cases τ.ops with he | ⟨b, he⟩ <;> simp [he] at this
  | woken =>
    obtain ⟨acc', ops, -, -, ⟨⟩, -⟩ := h.takesBack hpc
  | blocked =>
    obtain ⟨acc', ops, hops, hne, ⟨⟨⟩, hsem⟩ | ⟨⟨⟩, -⟩⟩ := h.blocked hpc
    exact { left := h.left
            lockApp := by simp
            lockSim := by simp
            woken := fun _ => by simpa [hs] using h0
            asleep := fun hw => absurd trivial hw
            app := by
              dsimp only
              exact ⟨acc, ops, hops, hne, .inr ⟨rfl, by simp [hsem]⟩⟩ }

end Threads.Ok

/-! ## Runs -/

section Runs

variable {M : Memory σ ω N} {tr : List (Event N)} {s : State σ N} {t : Fin N}
  {ms : List Mark} {τ : Threads} {ch : Choice} {mem : σ}

theorem RunInv.set (h : RunInv M tr s) (ms : List Mark) (hmem : ∃ tr', M.system.Run DataOnly tr' mem)
    (happ : ∀ u ≠ t, M.app mem u = M.app s.mem u) (hok : τ.Ok M.lineSize (M.app mem t))
    (hnext : ∀ address old new ms', Told (readHalf M.lineSize address old)
      (writeHalf M.lineSize address new) (s.threads t).app (s.threads t).ops ms' →
      Told (readHalf M.lineSize address old) (writeHalf M.lineSize address new) τ.app τ.ops (ms' ++ ms)) :
    RunInv M (tr ++ ms.map (.mark t)) (State.set ⟨mem, s.threads⟩ t τ) where
  mem := hmem
  ok u := by
    by_cases hu : u = t
    · subst hu; simpa [State.set] using hok
    · simpa [State.set, hu, happ u hu] using h.ok u
  fits u := by
    rw [history_marks]
    by_cases hu : u = t
    · subst hu
      rw [if_pos rfl]
      exact (h.fits u).next (Function.update s.threads u τ u) (by simpa using hnext)
    · simpa [State.set, hu, Ne.symm hu] using h.fits u

theorem RunInv.setThreads (h : RunInv M tr s) (ms : List Mark) (hok : τ.Ok M.lineSize (M.app s.mem t))
    (hnext : ∀ address old new ms', Told (readHalf M.lineSize address old)
      (writeHalf M.lineSize address new) (s.threads t).app (s.threads t).ops ms' →
      Told (readHalf M.lineSize address old) (writeHalf M.lineSize address new) τ.app τ.ops (ms' ++ ms)) :
    RunInv M (tr ++ ms.map (.mark t)) (s.set t τ) :=
  h.set ms h.mem (fun _ _ => rfl) hok hnext

theorem RunInv.memStep (hM : M.Lawful) (h : RunInv M tr s) (act : PrL2.Action ℕ N)
    (hdata : DataOnly act) (hoff : M.Offers s.mem act) :
    Sat (M.system.step s.mem act) (fun _ => act.IsDeliver) fun r =>
      (∃ tr', M.system.Run DataOnly tr' r.1) ∧ AppStep (M.app s.mem) (M.app r.1) act := by
  obtain ⟨tr', hrun⟩ := h.mem
  have hen := hM.enabled hdata hoff
  have hstep := hM.step hrun hdata hen
  cases hr : M.system.step s.mem act with
  | error e => exact hstep.of_error hr
  | ok r => exact ⟨⟨_, hrun.step hdata hen hr⟩, hstep.of_ok hr⟩

/-- An attempt of the application thread at an access that completes, or is left to wait. -/
theorem attempted_done {acc : Access ℕ} (ops : List Op) (hit : Bool)
    (h : M.app mem t = L1.after acc) : attempted M s t τ acc ops hit mem =
      (State.set ⟨mem, s.threads⟩ t { τ with app := .running, ops := ops },
        [Mark.done acc hit].map (.mark t)) := by
  unfold attempted
  rw [h, L1.after]
  by_cases hl : acc.lock = .lock
  · rw [if_pos hl]; rfl
  · rw [if_neg hl]; rfl

theorem attempted_wait {acc : Access ℕ} {k : ℕ} (ops : List Op) (hit : Bool)
    (h : M.app mem t = .waiting acc k) : attempted M s t τ acc ops hit mem =
      (State.set ⟨mem, s.threads⟩ t { τ with lock := none, app := .blocked },
        [Mark.handOver].map (.mark t)) := by
  unfold attempted
  rw [h]
  rfl

theorem RunInv.appStep (hM : M.Lawful) (h : RunInv M tr s) (hen : (s.threads t).AppReady M t ch) :
    Returns (appStep M s t ch) fun r => RunInv M (tr ++ r.2) r.1 := by
  have hok := h.ok t
  cases hpc : (s.threads t).app with
  | blocked =>
    have hsem : 0 < (s.threads t).appThreadSem := by simpa [Threads.AppReady, hpc] using hen
    simp only [Threads.appStep, hpc]
    refine h.setThreads [] (hok.wake hpc hsem) fun _ _ _ _ ht => ?_
    rw [hpc] at ht
    simpa using ht.wake
  | woken =>
    obtain ⟨acc, ops, hops, -, ha, -⟩ := hok.takesBack hpc
    obtain ⟨hlock, hch⟩ : (s.threads t).lock = none ∧ M.hasWays t ch = true := by
      simpa [Threads.AppReady, hpc] using hen
    simp only [Threads.appStep, hpc, hops]
    refine (h.memStep hM (.resume t ch) trivial ⟨hch, by rw [ha]; trivial⟩).bind ?_
    rintro ⟨mem, _⟩ ⟨hrun, happ, hother⟩
    have happ := happ acc 1 ha
    simp only [attempted_done ops false happ]
    have hback := (hok.back hpc hops hlock).2
    rw [← happ] at hback
    refine h.set [.takeBack, .done acc false] hrun hother hback fun _ _ _ _ ht => ?_
    rw [hpc, hops] at ht
    exact ht.takeBack
  | running =>
    cases hops : (s.threads t).ops with
    | nil => simp [Threads.AppReady, hpc, hops] at hen
    | cons op ops =>
      cases op with
      | acquire =>
        have hlock : (s.threads t).lock = none := by simpa [Threads.AppReady, hpc, hops] using hen
        simp only [Threads.appStep, hpc, hops]
        refine h.setThreads [.acquire] (hok.acquire hpc hops hlock) fun _ _ _ _ ht => ?_
        rw [hpc, hops] at ht
        exact ht.acquire
      | release =>
        simp only [Threads.appStep, hpc, hops]
        refine h.setThreads [.release] (hok.release hpc hops) fun _ _ _ _ ht => ?_
        rw [hpc, hops] at ht
        exact ht.release
      | access acc =>
        have hch : M.hasWays t ch = true := by simpa [Threads.AppReady, hpc, hops] using hen
        have ha := (hok.running hpc).1
        have hleft := hok.left
        rw [hops] at ha hleft
        obtain ⟨hd, hwf⟩ := hleft.issued
        simp only [Threads.appStep, hpc, hops]
        refine (h.memStep hM (.access t acc ch) hd
          ⟨hwf, hch, by rw [ha]; exact accepts_expected acc ops⟩).bind ?_
        rintro ⟨mem, _⟩ ⟨hrun, happ | ⟨-, hne, happ⟩, hother⟩
        · simp only [attempted_done ops _ happ]
          have hdone := hok.done hpc hops
          rw [← happ] at hdone
          refine h.set _ hrun hother hdone fun _ _ _ _ ht => ?_
          rw [hpc, hops] at ht
          refine ht.done rfl fun hu => ?_
          obtain ⟨tr', hmem⟩ := h.mem
          refine hM.hit hmem ?_ hd (hwf.2.2.2 hu)
          rw [ha, expected, if_pos hu]
        · simp only [attempted_wait ops _ happ]
          have hwait := hok.wait hpc hops hne
          rw [← happ] at hwait
          refine h.set _ hrun hother hwait fun _ _ _ _ ht => ?_
          rw [hpc, hops] at ht
          rw [hops]
          exact ht.handOver rfl hne

theorem RunInv.simStep {src : Fin N} (hM : M.Lawful) (h : RunInv M tr s)
    (hen : (s.threads t).SimReady M s.mem t src ch) :
    Ensures (simStep M s t src ch) fun r => RunInv M (tr ++ r.2) r.1 := by
  have hok := h.ok t
  cases hpc : (s.threads t).sim with
  | idle =>
    obtain ⟨-, hlock⟩ : M.arrived s.mem src t = true ∧ (s.threads t).lock = none := by
      simpa [Threads.SimReady, hpc] using hen
    simp only [Threads.simStep, hpc]
    exact h.setThreads [] (hok.simAcquire hlock (by simp [hpc]) (.inl rfl)) (by simp)
  | blocked =>
    have hsem : 0 < (s.threads t).simThreadSem := by simpa [Threads.SimReady, hpc] using hen
    simp only [Threads.simStep, hpc]
    exact h.setThreads [] (hok.simWake hpc hsem) (by simp)
  | woken =>
    have hlock : (s.threads t).lock = none := by simpa [Threads.SimReady, hpc] using hen
    simp only [Threads.simStep, hpc]
    exact h.setThreads [] (hok.simAcquire hlock (by simp [hpc]) (.inr rfl)) (by simp)
  | finishing =>
    simp only [Threads.simStep, hpc]
    exact h.setThreads [] (hok.simRelease hpc) (by simp)
  | handling =>
    obtain ⟨harr, hch⟩ : M.arrived s.mem src t = true ∧ M.hasWays t ch = true := by
      simpa [Threads.SimReady, hpc] using hen
    have hopen := hok.open_of_handling hpc
    have hno := hok.not_held (.inl hpc)
    simp only [Threads.simStep, hpc]
    refine ((h.memStep hM (.deliver src t ch) trivial ⟨hch, harr, hopen⟩).imp
      (fun _ _ => trivial) fun _ h => h).bind ?_
    rintro ⟨mem, _⟩ ⟨hrun, happ, hother⟩
    refine h.set [.handled] hrun hother ?_ fun _ _ _ _ ht => ?_
    · rcases happ with happ | ⟨acc, k, hw, happ⟩
      · rw [happ]
        have hw : ∀ acc k, M.app s.mem t ≠ .granted acc k := fun acc k hg => by
          simp [hg, App.Open] at hopen
        split
        · next acc k hg => exact absurd (happ ▸ hg) (hw acc k)
        · exact hok.handled hpc
      · rw [hw] at hok
        simp only [happ]
        exact hok.grant hpc
    · have := ht.handled hno
      split <;> exact this

/-- A command is started whose operand, if it is a read-modify-write, lies within a line. -/
theorem RunInv.start {cmd : Command} (h : RunInv M tr s) (hin : InLine M.lineSize (.start t cmd))
    (hen : cmd.Startable M.lineSize (s.threads t)) :
    RunInv M (tr ++ [.start t cmd])
      (s.set t { s.threads t with ops := (cmd.program M.lineSize).getD [] }) := by
  obtain ⟨hpc, hnil, -, hcmd⟩ := hen
  have hok := h.ok t
  have hnew : ∃ ops, (cmd.program M.lineSize).getD [] = .acquire :: ops ∧
      Left M.lineSize (.acquire :: ops) ∧ ∀ τ : Threads, τ.app = .running → τ.ops = .acquire :: ops →
        τ.Fits M.lineSize (some (cmd, [])) := by
    cases cmd with
    | access acc =>
      have hlock : acc.lock = .none := hcmd.2.1
      refine ⟨[.access acc, .release], ?_, .acquire (by simp [hlock]) (.access hcmd), fun _ _ _ => trivial⟩
      simp [Command.program, coreInitiateMemoryAccess, hlock]
    | readModifyWrite address old new =>
      have hin : Within M.lineSize address old := hin
      refine ⟨_, by rw [Command.program, hin.readModifyWrite hcmd]; rfl,
        .acquire (by simp [readHalf]) (.read hin (hin.of_length hcmd)), fun τ hτ hops => ⟨hin, hcmd, ?_⟩⟩
      rw [hτ, hops]
      exact .ready 0
  obtain ⟨ops, hprog, hleft, hfits⟩ := hnew
  rw [hprog]
  refine ⟨h.mem, fun u => ?_, fun u => ?_⟩
  · by_cases hu : u = t
    · subst hu; simpa [State.set] using hok.start hpc hnil hleft
    · simpa [State.set, hu] using h.ok u
  · rw [history_start]
    by_cases hu : u = t
    · subst hu; simpa [State.set] using hfits { s.threads u with ops := .acquire :: ops } hpc rfl
    · simpa [State.set, hu, Ne.symm hu] using h.fits u

theorem RunInv.step {act : Action N} (hM : M.Lawful) (h : RunInv M tr s)
    (hin : InLine M.lineSize act) (hen : (threads M).enabled s act) :
    Ensures ((threads M).step s act) fun r => RunInv M (tr ++ r.2) r.1 := by
  cases act with
  | start t cmd => exact h.start hin hen
  | app t ch => exact (h.appStep hM hen).imp (fun _ => False.elim) fun _ h => h
  | sim t src ch => exact h.simStep hM hen

theorem RunInv.init (hM : M.Lawful) (h : (threads M).init s) : RunInv M [] s := by
  obtain ⟨hmem, hthreads⟩ := h
  refine ⟨⟨[], .start hmem⟩, fun t => ?_, fun t => trivial⟩
  rw [hthreads, hM.init hmem t]
  exact { left := .nil
          lockApp := by simp [initial, Held]
          lockSim := by simp [initial]
          woken := fun hw => absurd hw id
          asleep := fun _ => rfl
          app := ⟨rfl, rfl⟩ }

/-- Atomic read-modify-writes whose operands lie within a line. Each is part of an `Atomic` history, and
all of one when it is over. The application thread never waits for the lock it holds, the write hits
in the L1 cache, and no step of the thread ends in an error. -/
def AtomicUpdates (M : Memory σ ω N) : Prop :=
  ∀ tr s, (threads M).Run (InLine M.lineSize) tr s → ∀ t,
    (∀ address old new ms, history t tr = some (.readModifyWrite address old new, ms) →
      ∃ full, Atomic (readHalf M.lineSize address old) (writeHalf M.lineSize address new) full ∧
        ms <+: full ∧ ((s.threads t).ops = [] → ms = full)) ∧
    (∀ ops, (s.threads t).ops = .acquire :: ops → (s.threads t).lock ≠ some .app) ∧
    (∀ acc ops, (s.threads t).ops = .access acc :: ops → acc.lock = .unlock →
      M.permissible s.mem t acc = true) ∧
    ∀ ch e, (s.threads t).AppReady M t ch → Threads.appStep M s t ch ≠ .error e

theorem Memory.Lawful.atomicUpdates (hM : M.Lawful) : AtomicUpdates M := by
  intro tr s hrun t
  have h : RunInv M tr s :=
    hrun.invariant (fun _ => .init hM) fun _ _ _ hi hin hen => hi.step hM hin hen
  have hok := h.ok t
  refine ⟨fun address old new ms hh => ?_, fun ops hops hl => ?_, fun acc ops hops hu => ?_,
    fun ch e hen he => (h.appStep hM hen).of_error he⟩
  · have hfits := h.fits t
    rw [hh] at hfits
    exact hfits.2.2.isPrefix
  · have := hok.lockApp.mp hl
    rw [hops] at this
    exact this.2
  · have hleft := hok.left
    rw [hops] at hleft
    obtain ⟨hd, -, -, -, hw⟩ := hleft.issued
    obtain ⟨tr', hmem⟩ := h.mem
    have hrunning : (s.threads t).app = .running := by
      cases hpc : (s.threads t).app with
      | running => rfl
      | blocked =>
        obtain ⟨acc', ops', hops', hne, -⟩ := hok.blocked hpc
        obtain ⟨⟨rfl⟩, -⟩ := cons.inj (hops.symm.trans hops')
        exact absurd hu hne
      | woken =>
        obtain ⟨acc', ops', hops', hne, -⟩ := hok.takesBack hpc
        obtain ⟨⟨rfl⟩, -⟩ := cons.inj (hops.symm.trans hops')
        exact absurd hu hne
    refine hM.hit hmem ?_ hd (hw hu)
    rw [(hok.running hrunning).1, hops, expected, if_pos hu]

end Runs

end Graphite.Core
