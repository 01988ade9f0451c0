import Mathlib.Data.List.Induction

/-! # Grants and demands on a FIFO link

A home sends messages to a cache through a FIFO channel. A grant installs a copy in the cache; any
other message is a demand on its copy, and is dropped by a cache without one. `settle` is what the
home may count on: the copy the cache will hold once it has read the grants on the way, and the
demands that will then still reach it. Delivering a grant, or a demand to a cache without a copy, does
not change this view.
-/

namespace Link

open List

variable {γ μ : Type*}

/-- The view after one more message; `install m` is what the grant `m` does to the copy. -/
def advance (install : μ → Option (Option γ → Option γ)) (v : Option γ × List μ) (m : μ) :
    Option γ × List μ :=
  match install m, v.1 with
  | some f, c => (f c, [])
  | none, none => (none, [])
  | none, some c => (some c, v.2 ++ [m])

/-- The copy a cache that now holds `c` will hold after the grants in `ms`, and the demands of `ms`
that will reach it. -/
def settle (install : μ → Option (Option γ → Option γ)) (c : Option γ) (ms : List μ) :
    Option γ × List μ :=
  ms.foldl (advance install) (c, [])

variable {install : μ → Option (Option γ → Option γ)} {c : Option γ} {m : μ} {ms : List μ}
  {f : Option γ → Option γ}

@[simp] theorem settle_nil : settle install c [] = (c, []) := rfl

theorem settle_concat : settle install c (ms ++ [m]) = advance install (settle install c ms) m := by
  simp [settle]

theorem settle_grant (h : install m = some f) :
    settle install c (m :: ms) = settle install (f c) ms := by
  simp [settle, advance, h]

theorem settle_stale (h : install m = none) :
    settle install none (m :: ms) = settle install none ms := by
  simp [settle, advance, h]

theorem settle_none (h : ∀ m ∈ ms, install m = none) : settle install none ms = (none, []) := by
  induction ms with
  | nil => rfl
  | cons m ms ih =>
    rw [settle_stale (h m (by simp)), ih fun m' hm' => h m' (by simp [hm'])]

theorem settle_some {x : γ} (h : ∀ m ∈ ms, install m = none) :
    settle install (some x) ms = (some x, ms) := by
  induction ms using reverseRecOn with
  | nil => rfl
  | append_singleton ms m ih =>
    rw [settle_concat, ih fun m' hm' => h m' (by simp [hm'])]
    simp [advance, h m (by simp)]

theorem settle_concat_grant (h : install m = some f) :
    settle install c (ms ++ [m]) = (f (settle install c ms).1, []) := by
  rw [settle_concat, advance, h]

theorem settle_concat_demand_none (h : install m = none) (hc : (settle install c ms).1 = none) :
    settle install c (ms ++ [m]) = (none, []) := by
  rw [settle_concat, advance, h, hc]

theorem settle_concat_demand_some {x : γ} (h : install m = none)
    (hc : (settle install c ms).1 = some x) :
    settle install c (ms ++ [m]) = (some x, (settle install c ms).2 ++ [m]) := by
  rw [settle_concat, advance, h, hc]

theorem live_of_eff_none (h : (settle install c ms).1 = none) : (settle install c ms).2 = [] := by
  induction ms using reverseRecOn with
  | nil => rfl
  | append_singleton ms m ih =>
    rw [settle_concat, advance] at h ⊢
    split <;> simp_all

theorem of_eff_none (hf : ∀ m f c, install m = some f → f c ≠ none)
    (h : (settle install c ms).1 = none) : c = none ∧ ∀ m ∈ ms, install m = none := by
  induction ms using reverseRecOn with
  | nil => exact ⟨h, by simp⟩
  | append_singleton ms m ih =>
    rw [settle_concat, advance] at h
    split at h
    · next f hm => exact absurd h (hf m f _ hm)
    · next hm hn =>
      obtain ⟨hc, hms⟩ := ih hn
      exact ⟨hc, forall_mem_append.mpr ⟨hms, by simpa⟩⟩
    · cases h

/-- A ticket on the link is the only one there is. -/
theorem only_ticket {k : γ} {l l' : List γ} {w : Option γ} (h : l ++ k :: l' = w.toList) :
    w = some k ∧ l = [] ∧ l' = [] := by
  cases w with
  | none => simp at h
  | some k' =>
    rw [Option.toList_some, append_eq_singleton_iff] at h
    simpa [eq_comm, and_left_comm] using h

/-- The copy of a view is the one the cache holds, or one that a grant on the way installs. -/
theorem eff_origin {x : γ} (h : (settle install c ms).1 = some x) :
    c = some x ∨ ∃ m ∈ ms, ∃ f c', install m = some f ∧ f c' = some x := by
  induction ms using reverseRecOn with
  | nil => exact .inl h
  | append_singleton ms m ih =>
    rw [settle_concat, advance] at h
    split at h
    · next f hf => exact .inr ⟨m, by simp, f, _, hf, h⟩
    · cases h
    · next c' hc' =>
      rcases ih (hc'.trans h) with hc | ⟨m', hm', hf⟩
      · exact .inl hc
      · exact .inr ⟨m', by simp [hm'], hf⟩

end Link
