import Graphite.Contention.HistoryList

/-! # Interleaved service

With interleaving a packet may be served piece by piece. The time it takes and the delay add up
exactly if it does not arrive in the middle of an interval that is too short for it: the time served
there is not subtracted from what is left to serve.
-/

namespace Graphite.Contention

open Outcome Spans
open List hiding Chain

/-- The packet takes `n` units from time `t` on, after a delay of `d` before. -/
structure Serves (cfg : QueueConfig) (l : List Interval) (t n d : ℕ) (b : Booking) : Prop where
  divides : Divides cfg.minProcessingTime l b.intervals b.slots
  total : total b.slots = n
  late : ∀ a ∈ b.slots, t ≤ a.first
  completion : ∃ a, b.slots.getLast? = some a ∧ a.second + d = t + b.delay + n

/-- The time in the intervals that begin after `t`. -/
def freeAfter (t : ℕ) (l : List Interval) : ℕ := (l.map fun i => if t < i.first then i.length else 0).sum

/-- One interval has room for the packet, or those that begin after its arrival have it together. -/
def Room (l : List Interval) (t n : ℕ) : Prop :=
  (∀ i ∈ l, i.second ≤ uint64Max) ∧ ((∃ i ∈ l, i.Fits t n) ∨ 0 < n ∧ n ≤ freeAfter t l)

/-- The packet does not arrive in an interval that ends before it is served. -/
def Clear (l : List Interval) (t n : ℕ) : Prop := ∀ i ∈ l, i.first ≤ t → t < i.second → t + n ≤ i.second

section Serve

variable {cfg : QueueConfig} {l rest : List Interval} {i : Interval} {t n d : ℕ} {b : Booking}

theorem Serves.skip (h : Serves cfg rest t n d b) (hl : Chain 1 0 (i :: rest)) :
    Serves cfg (i :: rest) t n d ⟨b.delay, i :: b.intervals, b.slots⟩ :=
  ⟨(Divides.keep _ [i]).append h.divides hl.later, h.total, h.late, h.completion⟩

theorem Serves.take {k e : ℕ} (h : Serves cfg rest i.second k e b) (hl : Chain 1 0 (i :: rest)) (ht : t < i.first)
    (hk : i.length + k = n) (he : e = d + (i.first - t)) :
    Serves cfg (i :: rest) t n d ⟨b.delay, b.intervals, i :: b.slots⟩ := by
  have hsize := hl.sizes i mem_cons_self
  refine ⟨(Divides.take _ i).append h.divides hl.later, ?_, ?_, ?_⟩
  · rw [total_cons, h.total, hk]
  · intro a ha
    obtain rfl | ha := mem_cons.mp ha
    · exact ht.le
    · have := h.late a ha
      omega
  · obtain ⟨a, hlast, hend⟩ := h.completion
    refine ⟨a, ?_, ?_⟩
    · rw [getLast?_cons, hlast]
      rfl
    · unfold Span.length at hk
      dsimp only
      omega

theorem serves_one {kept : List Interval} {s delay : ℕ} (hl : Chain 1 0 (i :: rest))
    (hdiv : Divides cfg.minProcessingTime [i] kept [⟨s, s + n⟩]) (ht : t ≤ s) (hdelay : s + d = t + delay) :
    Serves cfg (i :: rest) t n d ⟨delay, kept ++ rest, [⟨s, s + n⟩]⟩ := by
  refine ⟨hdiv.append (Divides.keep _ rest) hl.later, ?_, ?_, ⟨s, s + n⟩, rfl, ?_⟩
  · simp [Span.length]
  · simpa using ht
  · dsimp only
    omega

theorem Room.second_lt (hroom : Room l t n) (hi : i ∈ l) : i.second < 2 ^ 64 :=
  Nat.lt_of_le_of_lt (hroom.1 i hi) (by decide)

theorem freeAfter_cons :
    freeAfter t (i :: rest) = (if t < i.first then i.length else 0) + freeAfter t rest := sum_cons

theorem add_freeAfter_le {s : ℕ} (hl : Chain 1 0 l) (h : ∀ i ∈ l, s ≤ i.first ∧ i.second ≤ uint64Max)
    (hpos : 0 < freeAfter t l) : max t s + freeAfter t l ≤ uint64Max := by
  induction l generalizing s with
  | nil => simp [freeAfter] at hpos
  | cons i rest ih =>
    have hrest := ih hl.tail fun j hj => ⟨hl.later i (by simp) j hj, (h j (mem_cons_of_mem _ hj)).2⟩
    have hi := h i mem_cons_self
    have hsize := hl.sizes i mem_cons_self
    rw [freeAfter_cons, Span.length] at hpos ⊢
    split at hpos <;> split <;> omega

theorem Room.sum_lt (hroom : Room (i :: rest) t n) (hl : Chain 1 0 (i :: rest)) :
    max t i.first + n < 2 ^ 64 := by
  obtain ⟨hbound, ⟨j, hj, hfit⟩ | ⟨hpos, hn⟩⟩ := id hroom
  · have hsecond := hroom.second_lt hj
    have hle : i.first ≤ j.first := hl.first_le hj
    unfold Span.Fits at hfit
    omega
  · have hle := add_freeAfter_le hl (fun j hj => ⟨hl.first_le hj, hbound j hj⟩) (by omega : 0 < freeAfter t _)
    unfold uint64Max at hle
    omega

theorem Room.tail {t' n' : ℕ} (hroom : Room (i :: rest) t n) (hl : Chain 1 0 (i :: rest)) (hi : ¬ i.Fits t n)
    (ht : t' = t ∨ t' = i.second ∧ t < i.second) (hn : n' + (if t < i.first then i.length else 0) ≤ n)
    (h0 : 0 < n → 0 < n') : Room rest t' n' := by
  have hgap := (pairwise_cons.mp hl.gaps).1
  refine ⟨fun k hk => hroom.1 k (mem_cons_of_mem _ hk), hroom.2.imp ?_ fun hfree => ⟨h0 hfree.1, ?_⟩⟩
  · rintro ⟨j, hj, hfit⟩
    obtain rfl | hj := mem_cons.mp hj
    · exact absurd hfit hi
    · have := hgap j hj
      refine ⟨j, hj, ?_⟩
      unfold Span.Fits at hfit ⊢
      omega
  · have hsame : freeAfter t' rest = freeAfter t rest := by
      refine congrArg sum (map_congr_left fun j hj => if_congr ?_ rfl rfl)
      have := hgap j hj
      omega
    have htotal := hfree.2
    rw [freeAfter_cons] at htotal
    omega

/-- After the end of the first interval no other one has begun. -/
theorem clear_rest (hl : Chain 1 0 (i :: rest)) (n : ℕ) : Clear rest i.second n := by
  intro j hj hfirst
  have := (pairwise_cons.mp hl.gaps).1 j hj
  omega

theorem serve_interleaved (hint : cfg.interleavingEnabled = true) (hl : Chain 1 0 l) (hroom : Room l t n)
    (hclear : Clear l t n) (hd : d ≤ t) : Serves cfg l t n d (cfg.serve t n d l) := by
  induction l generalizing t n d with
  | nil => simp [Room, freeAfter, Nat.pos_iff_ne_zero] at hroom
  | cons i rest ih =>
    have hsecond := hroom.second_lt mem_cons_self
    have hsize := hl.sizes i mem_cons_self
    have hclear' := hclear i mem_cons_self
    have hsum := hroom.sum_lt hl
    rw [QueueConfig.serve, add64_eq (by omega), add64_eq (by omega)]
    by_cases hfit : t ≥ i.first ∧ t + n ≤ i.second
    · rw [if_pos hfit, keep_mk hfit.1 (by omega), keep_mk hfit.2 hsecond]
      exact serves_one hl (Divides.middle _ hfit.1 hfit.2) (Nat.le_refl t) rfl
    · rw [if_neg hfit]
      by_cases hwait : t < i.first ∧ i.first + n ≤ i.second
      · rw [if_pos hwait, keep_mk hwait.2 hsecond, add64_eq (by omega)]
        exact serves_one hl (Divides.head _ hwait.2) hwait.1.le (by omega)
      · have hnot : ¬ i.Fits t n := by
          unfold Span.Fits
          omega
        rw [if_neg hwait, if_neg (by omega)]
        by_cases htake : t < i.first
        · rw [if_pos ⟨hint, htake⟩, sub64_eq (by omega) hsecond, sub64_eq (by omega) (by omega), add64_eq (by omega)]
          have hrest := ih (t := i.second) (n := n - (i.second - i.first)) (d := d + (i.first - t)) hl.tail
            (hroom.tail hl hnot (.inr ⟨rfl, by omega⟩) (by rw [if_pos htake, Span.length]; omega) (by omega))
            (clear_rest hl _) (by omega)
          exact hrest.take hl htake (by unfold Span.length; omega) rfl
        · rw [if_neg (by simp [htake])]
          exact (ih hl.tail (hroom.tail hl hnot (.inl rfl) (by simp [htake]) id)
            (fun j hj => hclear j (mem_cons_of_mem _ hj)) hd).skip hl

/-- In an interval that is too short the packet takes what is there, and the whole time again. -/
theorem total_of_not_clear (hint : cfg.interleavingEnabled = true) (hl : Chain 1 0 l) (hroom : Room l t n)
    (h : ¬ Clear l t n) (hd : d ≤ t) : n < total (cfg.serve t n d l).slots := by
  induction l with
  | nil => simp [Room, freeAfter, Nat.pos_iff_ne_zero] at hroom
  | cons i rest ih =>
    have hsum := hroom.sum_lt hl
    rw [QueueConfig.serve, add64_eq (by omega), add64_eq (by omega)]
    by_cases hin : i.first ≤ t ∧ t < i.second ∧ i.second < t + n
    · have hrest := serve_interleaved (t := i.second) (n := n) (d := d) hint hl.tail
        (hroom.tail hl (by unfold Span.Fits; omega) (.inr ⟨rfl, hin.2.1⟩) (by rw [if_neg (by omega)]; omega) id)
        (clear_rest hl n) (by omega)
      have hleft : sub64 n (sub64 i.second i.second) = n := by
        rw [sub64_eq (Nat.le_refl _) (hroom.second_lt mem_cons_self), Nat.sub_self,
          sub64_eq (Nat.zero_le n) (by omega), Nat.sub_zero]
      rw [if_neg (by omega), if_neg (by omega), if_pos ⟨hint, hin.1, hin.2.1⟩, hleft]
      dsimp only
      rw [total_cons, hrest.total, Span.length]
      dsimp only
      omega
    · obtain ⟨j, hj, hfirst, hsecond, hshort⟩ : ∃ j ∈ rest, j.first ≤ t ∧ t < j.second ∧ j.second < t + n := by
        simp only [Clear, mem_cons, not_forall, Nat.not_le] at h
        obtain ⟨j, rfl | hj, h1, h2, h3⟩ := h
        · exact absurd ⟨h1, h2, h3⟩ hin
        · exact ⟨j, hj, h1, h2, h3⟩
      -- the packet arrives after the end of this interval
      have hgap := (pairwise_cons.mp hl.gaps).1 j hj
      have hsize := hl.sizes i mem_cons_self
      rw [if_neg (by omega), if_neg (by omega), if_neg (by omega), if_neg (by omega)]
      refine ih hl.tail (hroom.tail hl (by unfold Span.Fits; omega) (.inl rfl)
        (by rw [if_neg (by omega)]; omega) id) fun hc => ?_
      have := hc j hj hfirst hsecond
      omega

end Serve

/-- A packet takes exactly its processing time, at or after its arrival, from the free intervals, and is
complete after its arrival, the delay and the processing time, exactly if it does not arrive in an interval
that is too short; only fragments below the minimum are lost besides. -/
theorem interleaved_service (cfg : QueueConfig) (l : List Interval) (pkt : Packet)
    (hint : cfg.interleavingEnabled = true) (hlength : l.length ≤ cfg.maxListSize) (hl : Chain 1 0 l)
    (hroom : Room l pkt.time pkt.processing) :
    (∃ b : Booking, cfg.computeUsingHistoryList l pkt = .ok { b with intervals := cfg.prune b.intervals } ∧
      Divides cfg.minProcessingTime l b.intervals b.slots ∧ total b.slots = pkt.processing ∧
      (∀ a ∈ b.slots, pkt.time ≤ a.first) ∧
      ∃ a, b.slots.getLast? = some a ∧ a.second = pkt.time + b.delay + pkt.processing) ↔
    Clear l pkt.time pkt.processing := by
  have hcompute : cfg.computeUsingHistoryList l pkt =
      let b := cfg.serve pkt.time pkt.processing 0 l
      .ok { b with intervals := cfg.prune b.intervals } := by
    rw [QueueConfig.computeUsingHistoryList, check_pos hlength]
    rfl
  constructor
  · rintro ⟨b, hb, -, htotal, -⟩
    by_contra hno
    have hmore := total_of_not_clear hint hl hroom hno (Nat.zero_le _)
    have hslots := congrArg Booking.slots (Except.ok.inj (hcompute.symm.trans hb))
    dsimp only at hslots
    rw [hslots] at hmore
    omega
  · intro hclear
    have hserves := serve_interleaved hint hl hroom hclear (Nat.zero_le _)
    exact ⟨_, hcompute, hserves.divides, hserves.total, hserves.late, hserves.completion⟩

def interleavedConfig : QueueConfig := ⟨1, 100, true, true, fun _ => 0⟩

/-- The packet is served in two pieces; no interval has room for it. -/
theorem interleaved_service_two : ∃ b : Booking, interleavedConfig.computeUsingHistoryList
      [⟨0, 10⟩, ⟨20, 25⟩, ⟨30, 35⟩] ⟨12, 10⟩ =
        .ok { b with intervals := interleavedConfig.prune b.intervals } ∧ total b.slots = 10 ∧
      ∃ a, b.slots.getLast? = some a ∧ a.second = 12 + b.delay + 10 := by
  have hchain : Chain 1 0 [⟨0, 10⟩, ⟨20, 25⟩, ⟨30, 35⟩] := ⟨by decide, by decide⟩
  have hclear : Clear [⟨0, 10⟩, ⟨20, 25⟩, ⟨30, 35⟩] 12 10 := by
    unfold Clear
    decide
  obtain ⟨b, hb, -, htotal, -, hlast⟩ := (interleaved_service interleavedConfig _ ⟨12, 10⟩ rfl (by decide)
    hchain ⟨by decide, .inr ⟨by decide, by decide⟩⟩).mpr hclear
  exact ⟨b, hb, htotal, hlast⟩

/-- After a packet of 10 units at time 10, one of 10 units at time 5 takes 15 units: 5 up to time 10 and
10 from time 20 on. Its delay of 10 would mean that it is complete at time 25. -/
theorem interleaved_too_much : interleavedConfig.computeUsingHistoryList [⟨0, uint64Max⟩] ⟨10, 10⟩ =
      .ok ⟨0, [⟨0, 10⟩, ⟨20, uint64Max⟩], [⟨10, 20⟩]⟩ ∧
    interleavedConfig.computeUsingHistoryList [⟨0, 10⟩, ⟨20, uint64Max⟩] ⟨5, 10⟩ =
      .ok ⟨10, [⟨0, 5⟩, ⟨30, uint64Max⟩], [⟨5, 10⟩, ⟨20, 30⟩]⟩ ∧
    total [⟨5, 10⟩, ⟨20, 30⟩] ≠ 10 ∧ 30 ≠ 5 + 10 + 10 := by
  exact ⟨rfl, rfl, by decide, by decide⟩

end Graphite.Contention
