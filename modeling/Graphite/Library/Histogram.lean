import Graphite.Library.Outcome
import Mathlib.Data.Set.Card

/-! # Histograms

A function with finitely many nonzero values, and counters for how often it takes each of them. When
a value changes, the counter of the old one goes down and that of the new one up. `Logs` says that the
changes a program reports lead from the function before to the function after.
-/

namespace Histogram

open Function List

variable {α : Type*} {v : ℕ → ℕ} {f g h : α → ℕ} {a : α} {n : ℕ}

def Fits (v : ℕ → ℕ) (f : α → ℕ) : Prop := ∀ k, 1 ≤ k → v k = {a | f a = k}.ncard

def Finite (f : α → ℕ) : Prop := {a | f a ≠ 0}.Finite

theorem Finite.value (hf : Finite f) {k : ℕ} (hk : 1 ≤ k) : {a | f a = k}.Finite :=
  hf.subset fun a ha => by
    have : f a = k := ha
    simp
    omega

theorem fits_zero : Fits (fun _ => 0) fun _ : α => 0 := by
  intro k hk
  have : {_a : α | 0 = k} = ∅ := by
    ext a
    simp
    omega
  rw [this, Set.ncard_empty]

theorem Fits.pos (hv : Fits v f) (hf : Finite f) (ha : f a ≠ 0) : 0 < v (f a) := by
  have hk : 1 ≤ f a := Nat.one_le_iff_ne_zero.mpr ha
  rw [hv (f a) hk]
  exact (Set.ncard_pos (hf.value hk)).mpr ⟨a, rfl⟩

variable [DecidableEq α]

theorem Finite.update (hf : Finite f) (a : α) (n : ℕ) : Finite (update f a n) := by
  refine (Set.Finite.insert a hf).subset fun b hb => ?_
  by_cases hba : b = a
  · exact .inl hba
  · right
    simpa [hba] using hb

theorem Fits.lower (hv : Fits v f) (ha : f a ≠ 0) :
    Fits (update v (f a) (v (f a) - 1)) (update f a 0) := by
  intro k hk
  by_cases hka : k = f a
  · subst hka
    have hset : {b | update f a 0 b = f a} = {b | f b = f a} \ {a} := by
      ext b
      by_cases hb : b = a
      · simp [hb, Ne.symm ha]
      · simp [hb]
    have hmem : a ∈ {b | f b = f a} := rfl
    rw [update_self, hv _ hk, hset, Set.ncard_sdiff_singleton_of_mem hmem]
  · have hset : {b | update f a 0 b = k} = {b | f b = k} := by
      ext b
      by_cases hb : b = a
      · have : 0 ≠ k := by omega
        simp [hb, this, Ne.symm hka]
      · simp [hb]
    rw [update_of_ne hka, hv _ hk, hset]

theorem Fits.raise (hv : Fits v f) (hf : Finite f) (ha : f a = 0) (hn : n ≠ 0) :
    Fits (update v n (v n + 1)) (update f a n) := by
  intro k hk
  by_cases hkn : k = n
  · subst hkn
    have hset : {b | update f a k b = k} = insert a {b | f b = k} := by
      ext b
      by_cases hb : b = a
      · simp [hb]
      · simp [hb]
    have hnot : a ∉ {b | f b = k} := by
      simp [ha]
      omega
    rw [update_self, hv _ hk, hset, Set.ncard_insert_of_notMem hnot (hf.value hk)]
  · have hset : {b | update f a n b = k} = {b | f b = k} := by
      ext b
      by_cases hb : b = a
      · have : 0 ≠ k := by omega
        simp [hb, ha, this, Ne.symm hkn]
      · simp [hb]
    rw [update_of_ne hkn, hv _ hk, hset]

/-! ### Association lists -/

theorem lookup_eq_some_iff {β : Type*} {l : List (α × β)} {b : β} (hl : (l.map Prod.fst).Nodup) :
    l.lookup a = some b ↔ (a, b) ∈ l := by
  induction l with
  | nil => simp
  | cons x l ih =>
    obtain ⟨c, d⟩ := x
    rw [map_cons, nodup_cons] at hl
    by_cases hac : a = c
    · subst hac
      have hnot : (a, b) ∉ l := fun h => hl.1 (mem_map.mpr ⟨_, h, rfl⟩)
      simp [hnot, eq_comm]
    · have hbeq : (a == c) = false := by simpa using hac
      simp [lookup_cons, hbeq, hac, ih hl.2]

theorem ncard_lookup {β : Type*} {l : List (α × β)} (hl : (l.map Prod.fst).Nodup) (p : β → Prop)
    [DecidablePred p] :
    {a | ∃ b, l.lookup a = some b ∧ p b}.ncard = l.countP fun x => p x.2 := by
  have hset : {a | ∃ b, l.lookup a = some b ∧ p b} =
      ((l.filter fun x => p x.2).map Prod.fst).toFinset := by
    ext a
    simp [lookup_eq_some_iff hl]
  have hnodup : ((l.filter fun x => p x.2).map Prod.fst).Nodup :=
    (filter_sublist.map Prod.fst).nodup hl
  rw [hset, Set.ncard_coe_finset, toFinset_card_of_nodup hnodup, length_map,
    countP_eq_length_filter]

/-! ### Reports -/

/-- From `f` to `g` single values changed, as the list reports. -/
inductive Shifts : List (ℤ × ℤ) → (α → ℕ) → (α → ℕ) → Prop
  | nil {f : α → ℕ} : Shifts [] f f
  | cons {cs : List (ℤ × ℤ)} {f g : α → ℕ} (a : α) (n : ℕ) :
      Shifts cs (Function.update f a n) g → Shifts ((↑(f a), ↑n) :: cs) f g

theorem Shifts.one (a : α) (n : ℕ) : Shifts [(↑(f a), ↑n)] f (update f a n) :=
  .cons a n .nil

theorem Shifts.append {cs cs' : List (ℤ × ℤ)} (h₁ : Shifts cs f g) (h₂ : Shifts cs' g h) :
    Shifts (cs ++ cs') f h := by
  induction h₁ with
  | nil => exact h₂
  | cons a n _ ih => exact .cons a n (ih h₂)

end Histogram

namespace Outcome

open Histogram

variable {α β γ ε : Type} [DecidableEq α] {f : α → ℕ} {cs : List (ℤ × ℤ)} {y : Except ε β}
  {Q : (α → ℕ) → β → Prop} {R : (α → ℕ) → γ → Prop} {k : γ → Except ε β}

/-- The reports made before a program and, if it returns, those made after it. -/
def followedBy (cs : List (ℤ × ℤ)) (y : Except ε β) (k : β → List (ℤ × ℤ)) : List (ℤ × ℤ) :=
  cs ++ match y with
    | .ok b => k b
    | .error _ => []

/-- The program reports the changes `cs`, and if it returns, the function after them is the one `Q`
speaks of. -/
def Logs (f : α → ℕ) (cs : List (ℤ × ℤ)) (y : Except ε β) (Q : (α → ℕ) → β → Prop) : Prop :=
  ∃ g, Shifts cs f g ∧ Ensures y (Q g)

theorem Logs.of_sat (h : Ensures y (Q f)) : Logs f [] y Q := ⟨f, .nil, h⟩

theorem Logs.of_error {e : ε} : Logs f [] (throw e : Except ε β) Q := ⟨f, .nil, trivial⟩

theorem Logs.bind_quiet {z : Except ε γ} (hk : ∀ c, Logs f [] (k c) Q) : Logs f [] (z >>= k) Q := by
  cases z with
  | error e => exact .of_error
  | ok c => exact hk c

theorem Logs.bind {k : β → Except ε γ} {kc : β → List (ℤ × ℤ)}
    (h : Logs f cs y Q) (hk : ∀ g b, Q g b → Logs g (kc b) (k b) R) :
    Logs f (followedBy cs y kc) (y >>= k) R := by
  obtain ⟨g, hs, hy⟩ := h
  cases y with
  | error e =>
    refine ⟨g, ?_, trivial⟩
    simpa [followedBy] using hs
  | ok b =>
    obtain ⟨g', hs', hk'⟩ := hk g b hy
    exact ⟨g', hs.append hs', hk'⟩

/-- A program that reports nothing comes first, and the reports depend on its result. -/
theorem Logs.bind_silent {kc : γ → List (ℤ × ℤ)} {z : Except ε γ}
    (hk : ∀ c, Logs f (kc c) (k c) Q) : Logs f (followedBy [] z kc) (z >>= k) Q := by
  cases z with
  | error e => exact .of_error
  | ok c => exact hk c

theorem Logs.bind_check {p : Prop} [Decidable p] {e : ε} {k : Unit → Except ε β}
    (hk : p → Logs f cs (k ()) Q) : Logs f (if p then cs else []) (check p e >>= k) Q := by
  by_cases hp : p
  · rw [if_pos hp, check_pos hp]
    exact hk hp
  · rw [if_neg hp, check, if_neg hp]
    exact .of_error

theorem Logs.bind_sat {k : β → Except ε γ} (h : Logs f cs y Q)
    (hk : ∀ g b, Q g b → Ensures (k b) (R g)) : Logs f cs (y >>= k) R := by
  obtain ⟨g, hs, hy⟩ := h
  exact ⟨g, hs, hy.bind fun b => hk g b⟩

end Outcome
