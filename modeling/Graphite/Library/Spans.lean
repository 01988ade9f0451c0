import Mathlib

/-! # Spans of free time

A span holds the times from its first up to its second number. A chain is a list of spans in the order
of time, each of a least size and with a least gap between neighbours. A request for `n` units from
time `t` on is given to the first span into which it fits, which is where it starts earliest.
-/

namespace Spans

open List

structure Span where
  first : ℕ
  second : ℕ
  deriving DecidableEq, Repr

def Span.length (i : Span) : ℕ := i.second - i.first

def Span.Inside (a i : Span) : Prop := i.first ≤ a.first ∧ a.second ≤ i.second

def Span.Apart (a b : Span) : Prop := a.second ≤ b.first ∨ b.second ≤ a.first
deriving Decidable

/-- There is room for `n` units from time `t` on. -/
def Span.Fits (t n : ℕ) (i : Span) : Prop := max t i.first + n ≤ i.second
deriving Decidable

structure Chain (g m : ℕ) (l : List Span) : Prop where
  gaps : l.Pairwise fun i j => i.second + g ≤ j.first
  sizes : ∀ i ∈ l, i.first + m ≤ i.second

def total (l : List Span) : ℕ := (l.map Span.length).sum

variable {g m t n : ℕ} {i j : Span} {l before after pieces : List Span}

@[simp] theorem total_nil : total [] = 0 := rfl

@[simp] theorem total_cons : total (i :: l) = i.length + total l := sum_cons

@[simp] theorem total_append : total (before ++ after) = total before + total after := by
  simp [total]

theorem Span.Inside.apart {a : Span} (h : a.Inside i) (hi : j.Apart i) : j.Apart a := by
  unfold Span.Inside at h
  unfold Span.Apart at *
  omega

namespace Chain

theorem tail (h : Chain g m (i :: l)) : Chain g m l :=
  ⟨(pairwise_cons.mp h.gaps).2, fun j hj => h.sizes j (mem_cons_of_mem _ hj)⟩

theorem first_le (h : Chain g m (i :: l)) (hj : j ∈ i :: l) : i.first ≤ j.first := by
  obtain rfl | hj := mem_cons.mp hj
  · exact Nat.le_refl _
  · have hgap := (pairwise_cons.mp h.gaps).1 j hj
    have hsize := h.sizes i mem_cons_self
    omega

theorem later (h : Chain g m (i :: l)) : ∀ a ∈ [i], ∀ j ∈ l, a.second ≤ j.first := by
  intro a ha j hj
  rw [mem_singleton.mp ha]
  exact Nat.le_of_add_right_le ((pairwise_cons.mp h.gaps).1 j hj)

theorem left (h : Chain g m (before ++ after)) : Chain g m before :=
  ⟨(pairwise_append.mp h.gaps).1, fun j hj => h.sizes j (mem_append_left _ hj)⟩

theorem right (h : Chain g m (before ++ after)) : Chain g m after :=
  ⟨(pairwise_append.mp h.gaps).2.1, fun j hj => h.sizes j (mem_append_right _ hj)⟩

theorem middle (h : Chain g m (before ++ i :: after)) :
    (∀ j ∈ before, j.second + g ≤ i.first) ∧ ∀ j ∈ after, i.second + g ≤ j.first := by
  obtain ⟨-, hafter, hbefore⟩ := pairwise_append.mp h.gaps
  exact ⟨fun j hj => hbefore j hj i mem_cons_self, (pairwise_cons.mp hafter).1⟩

theorem replace (h : Chain g m (before ++ i :: after)) (hp : Chain g m pieces) (hin : ∀ a ∈ pieces, a.Inside i) :
    Chain g m (before ++ pieces ++ after) := by
  obtain ⟨hbi, hia⟩ := h.middle
  obtain ⟨hb, ha, hba⟩ := pairwise_append.mp h.gaps
  have hsizes := h.sizes
  refine ⟨?_, ?_⟩
  · rw [append_assoc, pairwise_append, pairwise_append]
    refine ⟨hb, ⟨hp.gaps, (pairwise_cons.mp ha).2, fun a hap j hj => ?_⟩, fun j hj a hap => ?_⟩
    · have := hia j hj
      have := (hin a hap).2
      omega
    · obtain hap | hap := mem_append.mp hap
      · have := hbi j hj
        have := (hin a hap).1
        omega
      · exact hba j hj a (mem_cons_of_mem _ hap)
  · simp only [mem_append]
    rintro j ((hj | hj) | hj)
    · exact hsizes j (mem_append_left _ hj)
    · exact hp.sizes j hj
    · exact hsizes j (mem_append_right _ (mem_cons_of_mem _ hj))

theorem nil : Chain g m [] := ⟨List.Pairwise.nil, fun _ h => absurd h not_mem_nil⟩

theorem singleton (h : i.first + m ≤ i.second) : Chain g m [i] :=
  ⟨pairwise_singleton .., by simpa using h⟩

end Chain

/-! ## The first fit -/

/-- The span `i` is the first one of the chain with room for the request. -/
structure FirstFit (t n : ℕ) (l before : List Span) (i : Span) (after : List Span) : Prop where
  eq : l = before ++ i :: after
  fits : i.Fits t n
  first : ∀ j ∈ before, ¬ j.Fits t n

theorem exists_firstFit (hj : j ∈ l) (hfits : j.Fits t n) : ∃ before i after, FirstFit t n l before i after := by
  induction l with
  | nil => exact absurd hj not_mem_nil
  | cons i l ih =>
    by_cases hi : i.Fits t n
    · exact ⟨[], i, l, rfl, hi, fun _ h => absurd h not_mem_nil⟩
    · obtain rfl | hj := mem_cons.mp hj
      · exact absurd hfits hi
      · obtain ⟨before, k, after, heq, hk, hbefore⟩ := ih hj
        refine ⟨i :: before, k, after, by rw [heq]; rfl, hk, ?_⟩
        rintro j' hj'
        obtain rfl | hj' := mem_cons.mp hj'
        · exact hi
        · exact hbefore j' hj'

namespace FirstFit

variable (h : FirstFit t n l before i after)

include h

theorem mem : i ∈ l := by
  rw [h.eq]
  exact mem_append_right _ mem_cons_self

theorem first_le (hl : Chain g m l) (hj : j ∈ l) (hfits : j.Fits t n) : i.first ≤ j.first := by
  rw [h.eq] at hl hj
  obtain hj | hj := mem_append.mp hj
  · exact absurd hfits (h.first j hj)
  · obtain rfl | hj := mem_cons.mp hj
    · exact Nat.le_refl _
    · have hgap := hl.middle.2 j hj
      have hsize := hl.sizes i (by simp)
      omega

theorem least (hl : Chain g m l) {start : ℕ} (hj : j ∈ l) (ht : t ≤ start) (hstart : j.first ≤ start)
    (hend : start + n ≤ j.second) : max t i.first ≤ start := by
  have hfits : j.Fits t n := by
    unfold Span.Fits
    omega
  have := h.first_le hl hj hfits
  omega

end FirstFit

/-! ## Division of free time -/

def long (m : ℕ) (i : Span) : List Span := if i.first + m ≤ i.second then [i] else []

/-- The time of `l` is kept, taken, or lost in spans shorter than `m`. -/
structure Divides (m : ℕ) (l kept taken : List Span) : Prop where
  kept_inside : ∀ a ∈ kept, ∃ i ∈ l, a.Inside i
  taken_inside : ∀ a ∈ taken, ∃ i ∈ l, a.Inside i
  apart : ∀ a ∈ taken, ∀ b ∈ kept, a.Apart b
  order : taken.Pairwise fun a b => a.second ≤ b.first
  total : ∃ lost, (∀ a ∈ lost, a.length < m) ∧ total l = total kept + total taken + total lost

namespace Divides

variable {kept taken kept' taken' l' : List Span}

theorem keep (m : ℕ) (l : List Span) : Divides m l l [] where
  kept_inside a ha := ⟨a, ha, Nat.le_refl _, Nat.le_refl _⟩
  taken_inside _ ha := absurd ha not_mem_nil
  apart _ ha := absurd ha not_mem_nil
  order := List.Pairwise.nil
  total := ⟨[], fun _ ha => absurd ha not_mem_nil, rfl⟩

theorem take (m : ℕ) (i : Span) : Divides m [i] [] [i] where
  kept_inside _ ha := absurd ha not_mem_nil
  taken_inside a ha := ⟨a, ha, Nat.le_refl _, Nat.le_refl _⟩
  apart _ _ _ hb := absurd hb not_mem_nil
  order := pairwise_singleton ..
  total := ⟨[], fun _ ha => absurd ha not_mem_nil, by simp⟩

theorem of_long (m : ℕ) (h : i.first ≤ i.second) : Divides m [i] (long m i) [] := by
  unfold long
  split
  · exact keep m [i]
  · next hshort =>
    refine ⟨fun _ ha => absurd ha not_mem_nil, fun _ ha => absurd ha not_mem_nil,
      fun _ ha => absurd ha not_mem_nil, List.Pairwise.nil, [i], fun a ha => ?_, by simp⟩
    rw [mem_singleton.mp ha, Span.length]
    omega

theorem append (h : Divides m l kept taken) (h' : Divides m l' kept' taken')
    (hlater : ∀ i ∈ l, ∀ j ∈ l', i.second ≤ j.first) : Divides m (l ++ l') (kept ++ kept') (taken ++ taken') := by
  have hpieces : ∀ a b : Span, (∃ i ∈ l, a.Inside i) → (∃ j ∈ l', b.Inside j) → a.second ≤ b.first := by
    rintro a b ⟨i, hi, hai⟩ ⟨j, hj, hbj⟩
    exact Nat.le_trans hai.2 (Nat.le_trans (hlater i hi j hj) hbj.1)
  constructor
  case kept_inside =>
    intro a ha
    obtain ha | ha := mem_append.mp ha
    · obtain ⟨i, hi, hin⟩ := h.kept_inside a ha
      exact ⟨i, mem_append_left _ hi, hin⟩
    · obtain ⟨i, hi, hin⟩ := h'.kept_inside a ha
      exact ⟨i, mem_append_right _ hi, hin⟩
  case taken_inside =>
    intro a ha
    obtain ha | ha := mem_append.mp ha
    · obtain ⟨i, hi, hin⟩ := h.taken_inside a ha
      exact ⟨i, mem_append_left _ hi, hin⟩
    · obtain ⟨i, hi, hin⟩ := h'.taken_inside a ha
      exact ⟨i, mem_append_right _ hi, hin⟩
  case apart =>
    intro a ha b hb
    obtain ha | ha := mem_append.mp ha <;> obtain hb | hb := mem_append.mp hb
    · exact h.apart a ha b hb
    · exact .inl (hpieces a b (h.taken_inside a ha) (h'.kept_inside b hb))
    · exact .inr (hpieces b a (h.kept_inside b hb) (h'.taken_inside a ha))
    · exact h'.apart a ha b hb
  case order =>
    exact pairwise_append.mpr ⟨h.order, h'.order, fun a ha b hb =>
      hpieces a b (h.taken_inside a ha) (h'.taken_inside b hb)⟩
  case total =>
    obtain ⟨lost, hlost, htotal⟩ := h.total
    obtain ⟨lost', hlost', htotal'⟩ := h'.total
    refine ⟨lost ++ lost', fun a ha => ?_, ?_⟩
    · exact (mem_append.mp ha).elim (hlost a) (hlost' a)
    · simp only [total_append, htotal, htotal']
      omega

theorem of_cut (h : Divides m pieces kept taken) (hin : ∀ a ∈ pieces, a.Inside i)
    (htotal : Spans.total pieces = i.length) : Divides m [i] kept taken := by
  have hinside : ∀ a : Span, (∃ b ∈ pieces, a.Inside b) → ∃ j ∈ [i], a.Inside j := by
    rintro a ⟨b, hb, hab⟩
    have hbi := hin b hb
    exact ⟨i, mem_singleton_self i, Nat.le_trans hbi.1 hab.1, Nat.le_trans hab.2 hbi.2⟩
  refine ⟨fun a ha => hinside a (h.kept_inside a ha), fun a ha => hinside a (h.taken_inside a ha), h.apart, h.order, ?_⟩
  obtain ⟨lost, hlost, heq⟩ := h.total
  refine ⟨lost, hlost, ?_⟩
  rw [← heq, htotal, total_cons, total_nil, Nat.add_zero]

theorem middle (m : ℕ) {s : ℕ} (hs : i.first ≤ s) (hn : s + n ≤ i.second) :
    Divides m [i] (long m ⟨i.first, s⟩ ++ long m ⟨s + n, i.second⟩) [⟨s, s + n⟩] := by
  have hleft : Divides m [⟨i.first, s⟩] (long m ⟨i.first, s⟩) [] := of_long m hs
  have hright : Divides m [⟨s + n, i.second⟩] (long m ⟨s + n, i.second⟩) [] := of_long m hn
  have hall := hleft.append ((take m ⟨s, s + n⟩).append hright (by simp)) (by simp)
  refine of_cut hall ?_ ?_
  · simp only [cons_append, nil_append, mem_cons, not_mem_nil, or_false]
    unfold Span.Inside
    rintro a (rfl | rfl | rfl) <;> dsimp only <;> omega
  · simp only [cons_append, nil_append, total_cons, total_nil, Span.length]
    omega

theorem head (m : ℕ) (hn : i.first + n ≤ i.second) :
    Divides m [i] (long m ⟨i.first + n, i.second⟩) [⟨i.first, i.first + n⟩] := by
  have hright : Divides m [⟨i.first + n, i.second⟩] (long m ⟨i.first + n, i.second⟩) [] := of_long m hn
  have hall := (take m ⟨i.first, i.first + n⟩).append hright (by simp)
  refine of_cut hall ?_ ?_
  · simp only [cons_append, nil_append, mem_cons, not_mem_nil, or_false]
    unfold Span.Inside
    rintro a (rfl | rfl) <;> dsimp only <;> omega
  · simp only [cons_append, nil_append, total_cons, total_nil, Span.length]
    omega

end Divides

end Spans
