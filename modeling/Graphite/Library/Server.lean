import Mathlib.Data.List.Forall2
import Mathlib.Data.List.Induction

/-! # Servers that work on one request at a time

A server sends messages for the request at the front of its queue only, among them at most one
answer, and takes the request off the queue once it has answered it. `Runs` relates the events of a
server to its queue; from the events alone follow the order in which requests are finished and that
each finished request was answered once.
-/

namespace Server

open List

variable {R M : Type*}

inductive Event (R M : Type*)
  | arrive (r : R)
  | send (m : M)
  | finish (r : R)

/-- The requests that want an answer, the messages that are answers, and the messages that may be sent
for a request. -/
structure Service (R M : Type*) where
  wants : R → Bool
  isAnswer : M → Bool
  serves : R → M → Prop

/-- The queue of a server, and whether the request at the front has been answered. -/
structure State (R : Type*) where
  queue : List R
  answered : Bool

def arrivals : List (Event R M) → List R :=
  filterMap fun | .arrive r => some r | _ => none

def finished : List (Event R M) → List R :=
  filterMap fun | .finish r => some r | _ => none

def sent : List (Event R M) → List M :=
  filterMap fun | .send m => some m | _ => none

variable (S : Service R M)

inductive Step : State R → Event R M → State R → Prop
  | arrive {q : List R} {b : Bool} (r : R) : Step ⟨q, b⟩ (.arrive r) ⟨q ++ [r], b⟩
  | demand {q : List R} {r : R} {m : M} : S.serves r m → S.isAnswer m = false →
      Step ⟨r :: q, false⟩ (.send m) ⟨r :: q, false⟩
  | answer {q : List R} {r : R} {m : M} : S.serves r m → S.isAnswer m = true → S.wants r = true →
      Step ⟨r :: q, false⟩ (.send m) ⟨r :: q, true⟩
  | finish {q : List R} {r : R} {b : Bool} : (S.wants r = true → b = true) →
      Step ⟨r :: q, b⟩ (.finish r) ⟨q, false⟩

inductive Runs (s : State R) : List (Event R M) → State R → Prop
  | nil : Runs s [] s
  | snoc {L : List (Event R M)} {s' s'' : State R} {e : Event R M} :
      Runs s L s' → Step S s' e s'' → Runs s (L ++ [e]) s''

variable {S} {s s' s'' : State R} {L L' : List (Event R M)}

theorem Runs.single {e : Event R M} (h : Step S s e s') : Runs S s [e] s' := .snoc .nil h

theorem Runs.append (h : Runs S s L s') (h' : Runs S s' L' s'') : Runs S s (L ++ L') s'' := by
  induction h' with
  | nil => simpa using h
  | snoc _ he ih =>
    rw [← append_assoc]
    exact ih.snoc he

theorem Runs.arrivals_eq (h : Runs S s L s') : s.queue ++ arrivals L = finished L ++ s'.queue := by
  induction h with
  | nil => simp [arrivals, finished]
  | snoc _ he ih =>
    cases he with
    | arrive r => simpa [arrivals, finished, ← append_assoc] using ih
    | demand _ _ => simpa [arrivals, finished] using ih
    | answer _ _ _ => simpa [arrivals, finished] using ih
    | finish _ => simpa [arrivals, finished] using ih

/-- The request at the front, if it has been answered. -/
def State.current (s : State R) : List R := if s.answered then s.queue.head?.toList else []

theorem Runs.wants_of_answered {q : List R} (h : Runs S ⟨q, false⟩ L s') (hb : s'.answered = true) :
    ∃ r q', s'.queue = r :: q' ∧ S.wants r = true := by
  induction h with
  | nil => cases hb
  | snoc _ he ih =>
    cases he with
    | arrive r' =>
      obtain ⟨r, q', hq, hr⟩ := ih hb
      exact ⟨r, q' ++ [r'], by simp_all, hr⟩
    | demand _ _ => cases hb
    | answer _ _ hr => exact ⟨_, _, rfl, hr⟩
    | finish _ => cases hb

/-- Each finished request that wants an answer has been answered once, in order. -/
theorem Runs.answers {q : List R} (h : Runs S ⟨q, false⟩ L s') :
    List.Forall₂ S.serves ((finished L).filter S.wants ++ s'.current)
      ((sent L).filter S.isAnswer) := by
  induction h with
  | nil => simp [State.current, finished, sent]
  | @snoc L s' _ _ hL he ih =>
    cases he with
    | @arrive q b r =>
      have hc : State.current ⟨q ++ [r], b⟩ = State.current ⟨q, b⟩ := by
        cases b with
        | false => rfl
        | true =>
          obtain ⟨r', q', hq, -⟩ := hL.wants_of_answered rfl
          simp only at hq
          simp [State.current, hq]
      simpa [hc, finished, sent] using ih
    | demand _ hm => simpa [finished, sent, hm] using ih
    | answer hs hm _ =>
      simp only [State.current, if_true, Bool.false_eq_true, if_false, append_nil] at ih ⊢
      simpa [finished, sent, hm] using rel_append ih (.cons hs .nil)
    | @finish q r b hb =>
      have hc : (finished L).filter S.wants ++ State.current ⟨r :: q, b⟩ =
          (finished (L ++ [.finish r]) : List R).filter S.wants := by
        cases hw : S.wants r with
        | true => simp [State.current, finished, hb hw, hw]
        | false =>
          cases b with
          | false => simp [State.current, finished, hw]
          | true =>
            obtain ⟨r', q', hq, hr⟩ := hL.wants_of_answered rfl
            simp_all
      rw [hc] at ih
      simpa [State.current, sent] using ih

end Server
