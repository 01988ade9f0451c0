import Mathlib.Logic.Basic
import Mathlib.Data.List.Basic

/-! # Requests and their answers in a history

Some events of a history are requests of a caller, some are replies to a caller. `outstanding` is the
request of a caller that has not been answered. In an `Answered` history the requests and replies of
every caller alternate, and every reply satisfies a condition on the request that it answers and on
what happened before.
-/

universe u v w

/-- Which events are requests, by whom and with what content, and which are replies, to whom. -/
structure Dialogue (ω : Type u) (κ : Type v) (α : Type w) where
  request : ω → Option (κ × α)
  reply : ω → Option κ

namespace Dialogue

open List

variable {ω : Type u} {κ : Type v} {α : Type w} [DecidableEq κ] (D : Dialogue ω κ α)

/-- What an event makes of the unanswered request of `k`. -/
def track (k : κ) (a : Option α) (e : ω) : Option α :=
  match D.request e, D.reply e with
  | some (k', a'), _ => if k' = k then some a' else a
  | none, some k' => if k' = k then none else a
  | none, none => a

def outstanding (tr : List ω) (k : κ) : Option α := tr.foldl (D.track k) none

/-- Requests and replies alternate, and a reply `e` to a request with content `a`, after `pre`,
satisfies `ok pre a e`. -/
structure Answered (ok : List ω → α → ω → Prop) (tr : List ω) : Prop where
  request : ∀ pre e post k a, tr = pre ++ e :: post → D.request e = some (k, a) →
    D.outstanding pre k = none
  reply : ∀ pre e post k, tr = pre ++ e :: post → D.reply e = some k →
    ∃ a, D.outstanding pre k = some a ∧ ok pre a e

variable {D} {ok : List ω → α → ω → Prop} {tr : List ω} {e : ω} {k : κ}

theorem outstanding_append (l : List ω) :
    D.outstanding (tr ++ l) k = l.foldl (D.track k) (D.outstanding tr k) := foldl_append ..

theorem Answered.nil : D.Answered ok [] where
  request _ _ _ _ _ h := by simp at h
  reply _ _ _ _ h := by simp at h

section

variable (h : D.Answered ok tr)
include h

theorem Answered.snoc (hreq : ∀ k a, D.request e = some (k, a) → D.outstanding tr k = none)
    (hrep : ∀ k, D.reply e = some k → ∃ a, D.outstanding tr k = some a ∧ ok tr a e) :
    D.Answered ok (tr ++ [e]) := by
  have hsplit : ∀ {pre post : List ω} {x : ω}, tr ++ [e] = pre ++ x :: post →
      (pre = tr ∧ x = e) ∨ ∃ post', tr = pre ++ x :: post' := by
    intro pre post x hx
    rcases eq_nil_or_concat post with rfl | ⟨post', y, rfl⟩
    · obtain ⟨rfl, hy⟩ := append_inj' hx rfl
      simp only [cons.injEq, and_true] at hy
      exact .inl ⟨rfl, hy.symm⟩
    · rw [concat_eq_append, ← cons_append, ← append_assoc] at hx
      exact .inr ⟨post', (append_inj' hx rfl).1⟩
  constructor
  · intro pre x post k a hx
    rcases hsplit hx with ⟨rfl, rfl⟩ | ⟨post', htr⟩
    · exact hreq k a
    · exact h.request pre x post' k a htr
  · intro pre x post k hx
    rcases hsplit hx with ⟨rfl, rfl⟩ | ⟨post', htr⟩
    · exact hrep k
    · exact h.reply pre x post' k htr

theorem Answered.ask {a : α} (he : D.request e = some (k, a))
    (hrep : D.reply e = none) (hfree : D.outstanding tr k = none) : D.Answered ok (tr ++ [e]) := by
  refine h.snoc (fun k' a' he' => ?_) fun k he' => by simp [hrep] at he'
  rw [he] at he'
  simp only [Option.some.injEq, Prod.mk.injEq] at he'
  exact he'.1 ▸ hfree

theorem Answered.answer {a : α} (hreq : D.request e = none)
    (he : D.reply e = some k) (ha : D.outstanding tr k = some a) (hok : ok tr a e) :
    D.Answered ok (tr ++ [e]) := by
  refine h.snoc (fun k' a' he' => by simp [hreq] at he') fun k' he' => ?_
  rw [he, Option.some.injEq] at he'
  exact ⟨a, he' ▸ ha, hok⟩

theorem Answered.other (hreq : D.request e = none) (hrep : D.reply e = none) :
    D.Answered ok (tr ++ [e]) :=
  h.snoc (fun k a he => by simp [hreq] at he) fun k he => by simp [hrep] at he

end

end Dialogue
