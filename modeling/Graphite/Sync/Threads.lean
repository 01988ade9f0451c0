import Graphite.Library.Outcome
import Mathlib

/-! # The thread table of the master

The part of the thread manager that the servers of the MCP use: the status of the threads of every
core, and which of them was stalled last. `Row` describes a core with one active thread.
-/

namespace Graphite.Sync

open Outcome Function List

inductive CoreState
  | running | initializing | stalled | sleeping | wakingUp | idle
  deriving DecidableEq, Repr

/-- The assertions and error branches of the thread manager and the synchronization server, and the
accesses past the end of a vector. -/
inductive Fault
  | twoRunning | noRunningThread | noStalledThread
  | badMutex | badCond | badBarrier | notOwner | barrierOverfull
  | outOfBounds
  deriving DecidableEq, Repr

/-- `m_thread_state` and `m_last_stalled_thread`. Every tile has one main core. -/
structure Threads (N : ℕ) where
  status : Fin N → List CoreState
  lastStalled : Fin N → Option ℕ

namespace Threads

variable {N : ℕ} (T : Threads N) (c : Fin N)

/-- The loop of `isCoreRunning` from thread `j` on. -/
def findRunning : List CoreState → ℕ → Option ℕ → Except Fault (Option ℕ)
  | [], _, found => pure found
  | st :: rest, j, found =>
    if st = .running then
      match found with
      | none => findRunning rest (j + 1) (some j)
      | some _ => throw .twoRunning
    else findRunning rest (j + 1) found

def isCoreRunning : Except Fault (Option ℕ) := findRunning (T.status c) 0 none

def isCoreStalled : Bool := (T.status c).any fun st => st = .stalled

def setStatus (i : ℕ) (st : CoreState) : Except Fault (Threads N) := do
  check (i < (T.status c).length) .outOfBounds
  pure { T with status := update T.status c ((T.status c).set i st) }

/-- `stallThread` of a given thread. -/
def stallThreadAt (i : ℕ) : Except Fault (Threads N) := do
  let T ← T.setStatus c i .stalled
  pure { T with lastStalled := update T.lastStalled c (some i) }

/-- `stallThread` of the running thread of a core. -/
def stallThread : Except Fault (Threads N) := do
  match ← T.isCoreRunning c with
  | none => throw .noRunningThread
  | some i => T.stallThreadAt c i

/-- `resumeThread` of the thread that was stalled last. -/
def resumeThread : Except Fault (Threads N) :=
  match T.lastStalled c with
  | none => throw .noStalledThread
  | some i => T.setStatus c i .running

/-! ## Cores with one active thread -/

/-- One thread of core `c` has status `st`, and the others neither run nor are stalled. -/
def Row (st : CoreState) : Prop :=
  ∃ l₁ l₂, T.status c = l₁ ++ st :: l₂ ∧ (∀ x ∈ l₁ ++ l₂, x ≠ .running ∧ x ≠ .stalled) ∧
    (st = .stalled → T.lastStalled c = some l₁.length)

/-- The two tables agree on every core but `c`. -/
def SameBut (T' : Threads N) : Prop :=
  ∀ d, d ≠ c → T'.status d = T.status d ∧ T'.lastStalled d = T.lastStalled d

variable {T c} {T' : Threads N} {st : CoreState} {d : Fin N}

theorem SameBut.row (h : T.SameBut c T') (hd : d ≠ c) (hr : T.Row d st) : T'.Row d st := by
  obtain ⟨hs, hl⟩ := h d hd
  unfold Row
  rw [hs, hl]
  exact hr

theorem findRunning_none {l : List CoreState} (h : ∀ x ∈ l, x ≠ .running) (j : ℕ)
    (found : Option ℕ) : findRunning l j found = .ok found := by
  induction l generalizing j with
  | nil => rfl
  | cons x l ih =>
    unfold findRunning
    rw [if_neg (h x (by simp))]
    exact ih (fun y hy => h y (by simp [hy])) _

theorem findRunning_append {l₁ l₂ : List CoreState} (h₁ : ∀ x ∈ l₁, x ≠ .running)
    (h₂ : ∀ x ∈ l₂, x ≠ .running) (j : ℕ) :
    findRunning (l₁ ++ .running :: l₂) j none = .ok (some (j + l₁.length)) := by
  induction l₁ generalizing j with
  | nil =>
    rw [nil_append, findRunning, if_pos rfl]
    exact findRunning_none h₂ _ _
  | cons x l₁ ih =>
    rw [cons_append, findRunning, if_neg (h₁ x (by simp)),
      ih (fun y hy => h₁ y (by simp [hy])), length_cons]
    congr 2
    omega

theorem setStatus_sat {i : ℕ} (hi : i < (T.status c).length) : T.setStatus c i st =
      .ok { T with status := update T.status c ((T.status c).set i st) } := by
  rw [setStatus, check_pos hi]
  rfl

theorem stallThread_sat (h : T.Row c .running) :
    Returns (T.stallThread c) fun T' => T'.Row c .stalled ∧ T.SameBut c T' := by
  obtain ⟨l₁, l₂, hs, hn, -⟩ := h
  have hrun : T.isCoreRunning c = .ok (some l₁.length) := by
    rw [isCoreRunning, hs, findRunning_append (fun x hx => (hn x (by simp [hx])).1)
      (fun x hx => (hn x (by simp [hx])).1), Nat.zero_add]
  have hi : l₁.length < (T.status c).length := by simp [hs]
  rw [stallThread, hrun, ok_bind]
  simp only [stallThreadAt, setStatus_sat hi, ok_bind, sat_pure]
  refine ⟨⟨l₁, l₂, by simp [hs], hn, fun _ => by simp⟩, fun d hd => ?_⟩
  simp [update_of_ne hd]

theorem resumeThread_sat (h : T.Row c .stalled) :
    Returns (T.resumeThread c) fun T' => T'.Row c .running ∧ T.SameBut c T' := by
  obtain ⟨l₁, l₂, hs, hn, hl⟩ := h
  have hi : l₁.length < (T.status c).length := by simp [hs]
  simp only [resumeThread, hl rfl, setStatus_sat hi, sat_ok]
  refine ⟨⟨l₁, l₂, by simp [hs], hn, fun h => by cases h⟩, fun d hd => ?_⟩
  simp [update_of_ne hd]

theorem isCoreStalled_row (h : T.Row c st) (hst : st = .running ∨ st = .stalled) :
    T.isCoreStalled c = true ↔ st = .stalled := by
  obtain ⟨l₁, l₂, hs, hn, -⟩ := h
  simp only [isCoreStalled, hs, any_eq_true, decide_eq_true_eq]
  constructor
  · rintro ⟨x, hx, rfl⟩
    rcases mem_append.mp hx with hx | hx
    · exact absurd rfl (hn _ (by simp [hx])).2
    · rcases mem_cons.mp hx with hx | hx
      · exact hx.symm
      · exact absurd rfl (hn _ (by simp [hx])).2
  · rintro rfl
    exact ⟨.stalled, by simp, rfl⟩

end Threads

end Graphite.Sync
