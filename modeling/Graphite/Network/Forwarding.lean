import Graphite.Network.Model
import Graphite.Library.Grid

/-! # Forwarding

What a network model has to guarantee of its routes, and what follows: whatever the interleaving of
the threads and of the transport, nothing that is sent gets lost or is received twice, and forwarding
comes to an end. Where a packet can go is a function of its sender, its receiver and the place where
it is, not of the time.
-/

namespace Graphite.Network

open Outcome List State Function
open Grid (ind ind_pos ind_neg ind_or ind_congr)

/-- A place on the way of a packet. -/
abbrev Leg (T : Tiles) (κ : Type) := T.Tile × Node κ

variable {T : Tiles} {κ ρ : Type}

def Hop.leg (h : Hop T κ) : Leg T κ := (h.nextTile, h.nextNode)

/-- The delays of the hop are added to those of the packet. -/
def Hop.Timed (pkt : NetPacket T κ) (h : Hop T κ) : Prop :=
  ∃ zeroLoad contention, h = .make pkt h.nextTile h.nextNode zeroLoad contention

variable {pkt : NetPacket T κ}

theorem Timing.router_sat {γ : Type} {timing : Timing T κ γ ρ} {t : T.Tile} {c : γ}
    {n : ℕ} {ports : List ℕ} {r : ρ}
    (h : 1 ≤ ports.length ∧ ports.length ≤ n ∧ ∀ p ∈ ports, p < n) :
    Returns (timing.router t pkt c n ports r) fun _ => True := by
  unfold Timing.router
  split
  · rw [check_pos h]
    trivial
  · trivial

/-- The assertion under which a model routes a packet. -/
def Routed (s : T.Tile) (r : Receiver T) : Prop :=
  isApplicationTile s ∧ r.routable = true ∧ r ≠ .tile s

instance (s : T.Tile) (r : Receiver T) : Decidable (Routed s r) := by
  unfold Routed
  infer_instance

/-- Where a packet goes on: a place with `G`, or the receipt at a receiver. -/
def Within (r : Receiver T) (G : Leg T κ → Prop) (l : Leg T κ) : Prop :=
  match l.2 with
  | .sendTile => False
  | .receiveTile => r = .broadcast ∨ r = .tile l.1
  | .inner _ => G l

/-- The routes of a model, for a sender, a receiver and a place. `Good` says where a packet can be, `dests`
how many copies will be received at a tile, and `size` bounds the work that is left. -/
structure Contract (M : NetworkModel T κ ρ) where
  legs : T.Tile → Receiver T → Leg T κ → List (Leg T κ)
  Good : T.Tile → Receiver T → Leg T κ → Prop
  dests : T.Tile → Receiver T → Leg T κ → T.Tile → ℕ
  size : T.Tile → Receiver T → Leg T κ → ℕ
  refines : ∀ {t pkt} (r : ρ), Routed pkt.sender pkt.receiver →
    Good pkt.sender pkt.receiver (t, pkt.node) →
    Returns (M.routePacket t pkt r) fun out =>
      out.1.map Hop.leg = legs pkt.sender pkt.receiver (t, pkt.node) ∧ ∀ h ∈ out.1, h.Timed pkt
  start : ∀ {s r}, Routed s r → Good s r (s, .sendTile)
  closed : ∀ {s r l}, Routed s r → Good s r l → ∀ l' ∈ legs s r l, Within r (Good s r) l'
  dests_receive : ∀ {s r t d}, dests s r (t, .receiveTile) d = ind (t = d)
  dests_start : ∀ {s r d}, Routed s r →
    dests s r (s, .sendTile) d = ind (isApplicationTile d ∧ (r = .broadcast ∨ r = .tile d))
  dests_legs : ∀ {s r l d}, Routed s r → Good s r l →
    dests s r l d = ((legs s r l).map (dests s r · d)).sum
  size_receive : ∀ {s r t}, size s r (t, .receiveTile) = 0
  size_legs : ∀ {s r l}, Routed s r → Good s r l →
    ((legs s r l).map (size s r · + 3)).sum < size s r l

def directTiles (s : T.Tile) (r : Receiver T) : List T.Tile :=
  if r = .tile s then [s]
  else if isSystemTile s then
    match r with
    | .broadcast => List.finRange T.total
    | .tile r => [r]
  else
    match r with
    | .tile r => if isSystemTile r then [r] else []
    | .broadcast => (List.finRange T.total).filter fun t => isSystemTile t

theorem not_isSystemTile {t : T.Tile} : ¬ isSystemTile t ↔ isApplicationTile t := by
  unfold isSystemTile isApplicationTile
  omega

/-- A packet either goes directly to its receivers or is routed, apart from a broadcast, which goes
directly to the system tiles only. -/
theorem routed_iff {s : T.Tile} {r : Receiver T} : Routed s r ↔ r ≠ .tile s ∧ ¬ isSystemTile s ∧
    match r with
    | .tile t => ¬ isSystemTile t
    | .broadcast => True := by
  unfold Routed
  rw [not_isSystemTile]
  cases r with
  | broadcast => simp [Receiver.routable]
  | tile t =>
    simp only [not_isSystemTile, Receiver.routable, decide_eq_true_eq]
    tauto

theorem processCornerCases_eq (pkt : NetPacket T κ) :
    NetworkModel.processCornerCases pkt.sender pkt = .ok (decide (¬ Routed pkt.sender pkt.receiver),
        (directTiles pkt.sender pkt.receiver).map (.make pkt · .receiveTile 0 0)) := by
  unfold NetworkModel.processCornerCases directTiles
  rw [check_pos rfl, ok_bind]
  by_cases hself : pkt.receiver = .tile pkt.sender
  · have hr : ¬ Routed pkt.sender pkt.receiver := fun h => h.2.2 hself
    rw [if_pos hself, if_pos hself, decide_eq_true hr]
    rfl
  rw [if_neg hself, if_neg hself]
  by_cases hsys : isSystemTile pkt.sender
  · have hr : ¬ Routed pkt.sender pkt.receiver := fun h => (routed_iff.mp h).2.1 hsys
    rw [if_pos hsys, if_pos hsys, decide_eq_true hr]
    cases pkt.receiver <;> rfl
  rw [if_neg hsys, if_neg hsys]
  have happ := not_isSystemTile.mp hsys
  cases hrec : pkt.receiver with
  | broadcast =>
    have hr : Routed pkt.sender .broadcast := routed_iff.mpr ⟨by simp, hsys, trivial⟩
    dsimp only
    rw [check_pos happ, decide_eq_false (not_not.mpr hr)]
    rfl
  | tile r =>
    by_cases hsys' : isSystemTile r
    · have hr : ¬ Routed pkt.sender (.tile r) := fun h => (routed_iff.mp h).2.2 hsys'
      simp only [if_pos hsys']
      rw [decide_eq_true hr]
      rfl
    · have hr : Routed pkt.sender (.tile r) := routed_iff.mpr ⟨hrec ▸ hself, hsys, hsys'⟩
      simp only [if_neg hsys']
      rw [check_pos ⟨happ, not_isSystemTile.mp hsys'⟩, decide_eq_false (not_not.mpr hr)]
      rfl

/-- Those that a packet reaches directly are the receivers to which it is not routed. -/
theorem mem_directTiles {s d : T.Tile} {r : Receiver T} : d ∈ directTiles s r ↔
    (r = .broadcast ∨ r = .tile d) ∧ ¬ (Routed s r ∧ isApplicationTile d) := by
  unfold directTiles
  rw [routed_iff, ← not_isSystemTile]
  by_cases hself : r = .tile s
  · simp [hself, eq_comm]
  rw [if_neg hself]
  by_cases hsys : isSystemTile s
  · rw [if_pos hsys]
    cases r with
    | broadcast => simp [hsys]
    | tile r => simp [hsys, eq_comm]
  rw [if_neg hsys]
  cases r with
  | broadcast => simp [hsys]
  | tile r =>
    by_cases hr : isSystemTile r
    · simp [hr, eq_comm]
    · have hne : r ≠ s := fun h => hself (by rw [h])
      simp only [hr, if_false, not_mem_nil, reduceCtorEq, false_or, false_iff]
      rintro ⟨heq, hnot⟩
      cases heq
      exact hnot ⟨⟨by simpa using hne, hsys, not_false⟩, hr⟩

theorem nodup_directTiles (s : T.Tile) (r : Receiver T) : (directTiles s r).Nodup := by
  unfold directTiles
  split
  · simp
  · split
    · split
      · exact nodup_finRange _
      · simp
    · split
      · split <;> simp
      · exact (nodup_finRange _).filter _

theorem sum_ind_eq {α : Type} [DecidableEq α] {l : List α} (hl : l.Nodup) (d : α) :
    (l.map fun t => ind (t = d)).sum = ind (d ∈ l) := by
  induction l with
  | nil => simp [ind]
  | cons t l ih =>
    rw [nodup_cons] at hl
    rw [map_cons, sum_cons, ih hl.2]
    apply (ind_or _ _).symm
    · rw [mem_cons, eq_comm]
    · rintro ⟨rfl, hm⟩
      exact hl.1 hm

theorem length_directTiles (s : T.Tile) (r : Receiver T) : (directTiles s r).length ≤ T.total := by
  have h := List.Nodup.length_le_card (nodup_directTiles s r)
  rwa [Fintype.card_fin] at h

variable {M : NetworkModel T κ ρ}

namespace Contract

variable (C : Contract M)

def Ready (s : T.Tile) (r : Receiver T) (l : Leg T κ) : Prop :=
  match l.2 with
  | .sendTile => l.1 = s
  | .receiveTile => r = .broadcast ∨ r = .tile l.1
  | .inner _ => Routed s r ∧ C.Good s r l

section

variable {C} {s : T.Tile} {r : Receiver T} {l : Leg T κ}

theorem Ready.routed (h : C.Ready s r l) (hsend : l.2 ≠ .sendTile) (hrec : l.2 ≠ .receiveTile) :
    Routed s r ∧ C.Good s r l := by
  unfold Ready at h
  split at h
  · contradiction
  · contradiction
  · exact h

theorem ready_of_mem_legs (hr : Routed s r) (h : C.Good s r l) {l' : Leg T κ} (hl' : l' ∈ C.legs s r l) :
    C.Ready s r l' ∧ l'.2 ≠ .sendTile := by
  have hc := C.closed hr h l' hl'
  unfold Within at hc
  unfold Ready
  split at hc
  · exact hc.elim
  · next he => rw [he]; exact ⟨hc, by simp⟩
  · next he => rw [he]; exact ⟨⟨hr, hc⟩, by simp⟩

end

variable [DecidableEq κ]

/-- The legs of the network: those of the model, and the direct ones. -/
def next (s : T.Tile) (r : Receiver T) (l : Leg T κ) : List (Leg T κ) :=
  if l.2 = .sendTile then
    (directTiles s r).map (·, .receiveTile) ++ if Routed s r then C.legs s r l else []
  else C.legs s r l

/-- How many copies will be received at `d`. -/
def copies (s : T.Tile) (r : Receiver T) (l : Leg T κ) (d : T.Tile) : ℕ :=
  if l.2 = .sendTile then ind (r = .broadcast ∨ r = .tile d) else C.dests s r l d

def cost (s : T.Tile) (r : Receiver T) (l : Leg T κ) : ℕ :=
  if l.2 = .sendTile then 3 * T.total + C.size s r l + 1 else C.size s r l

variable {C} {s d : T.Tile} {r : Receiver T} {l : Leg T κ}

theorem next_of_ne (h : l.2 ≠ .sendTile) : C.next s r l = C.legs s r l := if_neg h

theorem Ready.mem_next (h : C.Ready s r l) (hrec : l.2 ≠ .receiveTile) {l' : Leg T κ}
    (hl' : l' ∈ C.next s r l) : ((r = .broadcast ∨ r = .tile l'.1) ∧ l'.2 = .receiveTile) ∨
      (Routed s r ∧ C.Good s r l ∧ l' ∈ C.legs s r l) := by
  by_cases hsend : l.2 = .sendTile
  · obtain ⟨t, node⟩ := l
    subst hsend
    have ht : t = s := h
    subst ht
    rw [Contract.next, if_pos rfl, mem_append] at hl'
    rcases hl' with hl' | hl'
    · obtain ⟨d, hd, rfl⟩ := mem_map.mp hl'
      exact .inl ⟨(mem_directTiles.mp hd).1, rfl⟩
    · split at hl'
      · next hr => exact .inr ⟨hr, C.start hr, hl'⟩
      · cases hl'
  · obtain ⟨hr, hg⟩ := h.routed hsend hrec
    rw [next_of_ne hsend] at hl'
    exact .inr ⟨hr, hg, hl'⟩

theorem Ready.next (h : C.Ready s r l) (hrec : l.2 ≠ .receiveTile) {l' : Leg T κ}
    (hl' : l' ∈ C.next s r l) : C.Ready s r l' ∧ l'.2 ≠ .sendTile := by
  rcases h.mem_next hrec hl' with ⟨hr, hnode⟩ | ⟨hr, hg, hl'⟩
  · unfold Ready
    rw [hnode]
    exact ⟨hr, by simp⟩
  · exact ready_of_mem_legs hr hg hl'

theorem copies_eq_dests (h : l.2 ≠ .sendTile) : C.copies s r l d = C.dests s r l d := if_neg h

theorem Ready.copies_next (h : C.Ready s r l) (hrec : l.2 ≠ .receiveTile) (d : T.Tile) :
    C.copies s r l d = ((C.next s r l).map (C.copies s r · d)).sum := by
  have hcongr : ∀ hr : Routed s r, C.Good s r l →
      ((C.legs s r l).map (C.copies s r · d)).sum = C.dests s r l d := by
    intro hr hg
    rw [C.dests_legs hr hg]
    congr 1
    apply map_congr_left
    intro l' hl'
    exact copies_eq_dests (ready_of_mem_legs hr hg hl').2
  by_cases hsend : l.2 = .sendTile
  · obtain ⟨t, node⟩ := l
    subst hsend
    have ht : t = s := h
    subst ht
    have hdirect : ((directTiles t r).map fun x => C.copies t r (x, .receiveTile) d).sum =
        ind ((r = .broadcast ∨ r = .tile d) ∧ ¬ (Routed t r ∧ isApplicationTile d)) := by
      rw [← ind_congr mem_directTiles, ← sum_ind_eq (nodup_directTiles t r)]
      congr 1
      apply map_congr_left
      intro x _
      rw [copies_eq_dests (by simp), C.dests_receive]
    rw [Contract.copies, if_pos rfl, Contract.next, if_pos rfl, map_append, sum_append, map_map]
    show _ = ((directTiles t r).map fun x => C.copies t r (x, .receiveTile) d).sum + _
    rw [hdirect]
    split
    · next hr =>
      rw [hcongr hr (C.start hr), C.dests_start hr]
      apply ind_or <;> tauto
    · next hr =>
      rw [map_nil, sum_nil, Nat.add_zero]
      apply ind_congr
      tauto
  · obtain ⟨hr, hg⟩ := h.routed hsend hrec
    rw [next_of_ne hsend, copies_eq_dests hsend, hcongr hr hg]

theorem Ready.cost_next (h : C.Ready s r l) (hrec : l.2 ≠ .receiveTile) :
    ((C.next s r l).map (C.cost s r · + 3)).sum < C.cost s r l := by
  have hcongr : ∀ hr : Routed s r, C.Good s r l →
      ((C.legs s r l).map (C.cost s r · + 3)).sum < C.size s r l := by
    intro hr hg
    refine Nat.lt_of_le_of_lt (Nat.le_of_eq ?_) (C.size_legs hr hg)
    congr 1
    apply map_congr_left
    intro l' hl'
    rw [Contract.cost, if_neg (ready_of_mem_legs hr hg hl').2]
  by_cases hsend : l.2 = .sendTile
  · obtain ⟨t, node⟩ := l
    subst hsend
    have ht : t = s := h
    subst ht
    have hdirect : ((directTiles t r).map fun x => C.cost t r (x, .receiveTile) + 3).sum =
        3 * (directTiles t r).length := by
      have : ((directTiles t r).map fun x => C.cost t r (x, .receiveTile) + 3) =
          (directTiles t r).map fun _ => 3 := by
        apply map_congr_left
        intro x _
        rw [Contract.cost, if_neg (by simp), C.size_receive]
      rw [this]
      simp [Nat.mul_comm]
    have hlength := length_directTiles t r
    rw [Contract.cost, if_pos rfl, Contract.next, if_pos rfl, map_append, sum_append, map_map]
    show ((directTiles t r).map fun x => C.cost t r (x, .receiveTile) + 3).sum + _ < _
    rw [hdirect]
    split
    · next hr =>
      have := hcongr hr (C.start hr)
      omega
    · rw [map_nil, sum_nil]
      omega
  · obtain ⟨hr, hg⟩ := h.routed hsend hrec
    rw [next_of_ne hsend, Contract.cost, if_neg hsend]
    exact hcongr hr hg

end Contract

/-! ## Packets on their way -/

/-- Who sent a packet, when, and with what content. -/
structure Origin (T : Tiles) where
  sender : T.Tile
  data : ℕ
  time : ℕ
  deriving DecidableEq

def NetPacket.Accounted (pkt : NetPacket T κ) : Prop :=
  pkt.zeroLoadDelay + pkt.contentionDelay ≤ pkt.time

/-- The time without the delays is when the packet was sent. -/
def NetPacket.origin (pkt : NetPacket T κ) : Origin T :=
  ⟨pkt.sender, pkt.data, pkt.time - (pkt.zeroLoadDelay + pkt.contentionDelay)⟩

def Flight.leg (f : Flight T κ) : Leg T κ := (f.1, f.2.node)

/-- `q` is `p` at another place and time. -/
structure SamePacket (p q : NetPacket T κ) : Prop where
  sender : q.sender = p.sender
  receiver : q.receiver = p.receiver
  origin : q.origin = p.origin
  accounted : q.Accounted

theorem samePacket_take {h : Hop T κ} (ht : h.Timed pkt) (ha : pkt.Accounted) :
    SamePacket pkt (pkt.take h).2 := by
  obtain ⟨z, c, he⟩ := ht
  unfold NetPacket.Accounted at ha
  refine ⟨rfl, rfl, ?_, ?_⟩
  · rw [he]
    simp only [NetPacket.origin, NetPacket.take, Hop.make, Origin.mk.injEq, true_and]
    omega
  · rw [he]
    simp only [NetPacket.Accounted, NetPacket.take, Hop.make]
    omega

variable [DecidableEq κ] {C : Contract M}

section Route

variable (C) in
/-- A packet that the model can handle where it is. -/
structure Sound (f : Flight T κ) : Prop where
  ready : C.Ready f.2.sender f.2.receiver f.leg
  accounted : f.2.Accounted

variable (C) in
/-- The packet `f` is routed to `fs`. -/
structure Split (f : Flight T κ) (fs : List (Flight T κ)) : Prop where
  legs : fs.map Flight.leg = C.next f.2.sender f.2.receiver f.leg
  same : ∀ g ∈ fs, SamePacket f.2 g.2

variable {f : Flight T κ} {fs : List (Flight T κ)}

theorem routePacket_sat (h : Sound C f) (hrec : f.2.node ≠ .receiveTile) (r : ρ) :
    Sat (M._routePacket f.1 f.2 r) (fun _ => False) fun out =>
      out.1.map Hop.leg = C.next f.2.sender f.2.receiver f.leg ∧ ∀ h ∈ out.1, h.Timed f.2 := by
  obtain ⟨t, pkt⟩ := f
  obtain ⟨hready, -⟩ := h
  dsimp only [Flight.leg] at hready hrec ⊢
  unfold NetworkModel._routePacket
  by_cases hsend : pkt.node = .sendTile
  · have ht : t = pkt.sender := by
      unfold Contract.Ready at hready
      rw [hsend] at hready
      exact hready
    subst ht
    have hdirect : ∀ h ∈ (directTiles pkt.sender pkt.receiver).map
        (Hop.make pkt · .receiveTile 0 0), h.Timed pkt := by
      intro h hm
      obtain ⟨d, -, rfl⟩ := mem_map.mp hm
      exact ⟨0, 0, rfl⟩
    rw [if_pos hsend, check_pos rfl, ok_bind, processCornerCases_eq, ok_bind]
    dsimp only
    rw [Contract.next, if_pos hsend]
    by_cases hr : Routed pkt.sender pkt.receiver
    · rw [if_neg (by simpa using hr), if_pos hr, check_pos (show isApplicationTile _ ∧ _ from hr), ok_bind]
      refine (C.refines r hr (hsend ▸ C.start hr)).bind fun ⟨hops, r'⟩ ⟨hlegs, htimed⟩ => ?_
      rw [sat_pure]
      constructor
      · rw [map_append, map_map, hlegs]
        rfl
      · intro h hm
        exact (mem_append.mp hm).elim (hdirect h) (htimed h)
    · rw [if_pos (by simpa using hr), if_neg hr, append_nil, sat_pure]
      exact ⟨by rw [map_map]; rfl, hdirect⟩
  · obtain ⟨hr, hg⟩ := hready.routed hsend hrec
    rw [if_neg hsend, Contract.next_of_ne hsend]
    rw [pure_eq_ok, ok_bind]
    dsimp only
    rw [if_neg (by simp), check_pos (show isApplicationTile _ ∧ _ from hr), ok_bind]
    refine (C.refines r hr hg).bind fun ⟨hops, r'⟩ hspec => ?_
    rw [sat_pure, nil_append]
    exact hspec

theorem route_sat (h : Sound C f) (hrec : f.2.node ≠ .receiveTile) (r : ρ) :
    Returns (route M f r) fun out => Split C f out.1 := by
  refine (routePacket_sat h hrec r).bind fun ⟨hops, r'⟩ ⟨hlegs, htimed⟩ => ?_
  rw [sat_pure]
  constructor
  · rw [← hlegs, map_map]
    rfl
  · intro g hg
    obtain ⟨hop, hm, rfl⟩ := mem_map.mp hg
    exact samePacket_take (htimed hop hm) h.accounted

theorem Split.sound (hs : Split C f fs) (h : Sound C f) (hrec : f.2.node ≠ .receiveTile)
    {g : Flight T κ} (hg : g ∈ fs) : Sound C g := by
  have hsame := hs.same g hg
  have hmem : g.leg ∈ C.next f.2.sender f.2.receiver f.leg := by
    rw [← hs.legs]
    exact mem_map_of_mem hg
  constructor
  · rw [hsame.sender, hsame.receiver]
    exact (h.ready.next hrec hmem).1
  · exact hsame.accounted

theorem processReceivedPacket_sat (h : Sound C f) (hrec : f.2.node = .receiveTile) (r : ρ) :
    Sat (M._processReceivedPacket f.1 f.2 r) (fun _ => False) (SamePacket f.2) := by
  have hready := h.ready
  have ha := h.accounted
  unfold Contract.Ready Flight.leg at hready
  rw [hrec] at hready
  unfold NetworkModel._processReceivedPacket
  rw [check_pos hrec, ok_bind]
  split
  · exact ⟨rfl, rfl, rfl, ha⟩
  · rw [check_pos hready, ok_bind, sat_pure]
    unfold NetPacket.Accounted at ha
    refine ⟨rfl, rfl, ?_, ?_⟩
    · simp only [NetPacket.origin, Origin.mk.injEq, true_and]
      omega
    · simp only [NetPacket.Accounted]
      omega

end Route

/-! ## The network -/

def Contract.flightCost (C : Contract M) (f : Flight T κ) : ℕ := C.cost f.2.sender f.2.receiver f.leg

/-- A packet that was routed comes before one in the transport, and a hop comes last. -/
def Contract.load (C : Contract M) (f : Forward T κ) : ℕ :=
  (f.rest.map fun p => C.flightCost (f.tile, p)).sum + (f.queue.map (C.flightCost · + 2)).sum

/-- A bound on the work that is left in the network. -/
def Contract.work (C : Contract M) (s : State T κ ρ) : ℕ :=
  (s.forwards.map C.load).sum + (s.transport.map (C.flightCost · + 1)).sum

/-- The steps of `forwardPacket` and `netPullFromTransport`. -/
def Action.forwards : Action T κ ρ → Bool
  | .next _ | .advance _ | .pull _ => true
  | _ => false

theorem Split.cost_lt {f : Flight T κ} {fs : List (Flight T κ)} (hs : Split C f fs) (h : Sound C f)
    (hrec : f.2.node ≠ .receiveTile) : (fs.map (C.flightCost · + 2)).sum < C.flightCost f := by
  have hlegs : (fs.map (C.flightCost · + 3)).sum =
      ((C.next f.2.sender f.2.receiver f.leg).map (C.cost f.2.sender f.2.receiver · + 3)).sum := by
    rw [← hs.legs, map_map]
    congr 1
    apply map_congr_left
    intro g hg
    simp only [Contract.flightCost, comp_apply, (hs.same g hg).sender, (hs.same g hg).receiver]
  calc (fs.map (C.flightCost · + 2)).sum ≤ (fs.map (C.flightCost · + 3)).sum :=
        sum_le_sum fun g _ => Nat.le_succ _
    _ = _ := hlegs
    _ < C.flightCost f := h.ready.cost_next hrec

theorem work_resume {s : State T κ ρ} {f : Forward T κ} (hf : f ∈ s.forwards) (f' : Forward T κ) (r : ρ) :
    C.work (s.resume f f' r) + C.load f = C.work s + C.load f' := by
  have := sum_map_erase C.load hf
  simp only [Contract.work, resume, map_cons, sum_cons]
  omega

def Forward.flights (f : Forward T κ) : List (Flight T κ) := f.rest.map (f.tile, ·) ++ f.queue

def State.pending (s : State T κ ρ) : List (Flight T κ) :=
  s.forwards.flatMap Forward.flights ++ s.transport

variable (C) in
/-- What a step does to the packets on their way. -/
inductive Change (s s' : State T κ ρ) : List (Event T κ) → Prop
  | sent {pkt : NetPacket T κ} : pkt.node = .sendTile → pkt.zeroLoadDelay = 0 → pkt.contentionDelay = 0 →
      s'.pending.Perm ((netSend M pkt).map (pkt.sender, ·) ++ s.pending) → Change s s' [.sent pkt]
  | routed {f : Flight T κ} {fs others : List (Flight T κ)} : f.2.node ≠ .receiveTile → Split C f fs →
      s.pending.Perm (f :: others) → s'.pending.Perm (fs ++ others) → Change s s' (fs.map (.hop f.1))
  | moved : s'.pending.Perm s.pending → Change s s' []
  | received {f : Flight T κ} {pkt : NetPacket T κ} : f.2.node = .receiveTile → SamePacket f.2 pkt →
      s.pending.Perm (f :: s'.pending) → Change s s' [.received f.1 pkt]

section Steps

variable {s : State T κ ρ} {shortcut : Bool}

variable {f : Forward T κ}

theorem flatMap_erase {l : List (Forward T κ)} (hf : f ∈ l) :
    (l.flatMap Forward.flights).Perm (f.flights ++ (l.erase f).flatMap Forward.flights) :=
  ((perm_cons_erase hf).flatMap_right _).trans (by rw [flatMap_cons])

theorem pending_perm (hf : f ∈ s.forwards) : s.pending.Perm
    (f.flights ++ ((s.forwards.erase f).flatMap Forward.flights ++ s.transport)) := by
  rw [← append_assoc]
  exact (flatMap_erase hf).append_right _

theorem pending_resume (f : Forward T κ) {f' : Forward T κ} {fs l : List (Flight T κ)} (r : ρ)
    (h : f'.flights.Perm (fs ++ l)) : (s.resume f f' r).pending.Perm
      (fs ++ (l ++ ((s.forwards.erase f).flatMap Forward.flights ++ s.transport))) := by
  have heq : (s.resume f f' r).pending =
      f'.flights ++ ((s.forwards.erase f).flatMap Forward.flights ++ s.transport) := by
    simp [resume, pending]
  rw [heq, ← append_assoc fs]
  exact h.append_right _

variable (C) in
structure Inv (s : State T κ ρ) : Prop where
  sound : ∀ x ∈ s.pending, Sound C x
  rest : ∀ f ∈ s.forwards, ∀ p ∈ f.rest, p.node ≠ .receiveTile

theorem rest_resume (h : ∀ f ∈ s.forwards, ∀ p ∈ f.rest, p.node ≠ .receiveTile)
    (hf : f ∈ s.forwards) (f' : Forward T κ) (hrest : ∀ p ∈ f'.rest, p ∈ f.rest) (r : ρ) :
    ∀ g ∈ (s.resume f f' r).forwards, ∀ p ∈ g.rest, p.node ≠ .receiveTile := by
  intro g hg p hp
  rcases mem_cons.mp hg with rfl | hg
  · exact h f hf p (hrest p hp)
  · exact h g (mem_of_mem_erase hg) p hp

/-- A change together with what it leaves to do. -/
structure Stepped (C : Contract M) (s : State T κ ρ) (a : Action T κ ρ)
    (r : State T κ ρ × List (Event T κ)) : Prop where
  change : Change C s r.1 r.2
  rest : ∀ f ∈ r.1.forwards, ∀ p ∈ f.rest, p.node ≠ .receiveTile
  work : a.forwards = true → C.work r.1 < C.work s

omit [DecidableEq κ] in
theorem Inv.sound_of_mem (h : Inv C s) {f : Forward T κ} (hf : f ∈ s.forwards) {x : Flight T κ}
    (hx : x ∈ f.flights) : Sound C x :=
  h.sound x (mem_append_left _ (mem_flatMap.mpr ⟨f, hf, hx⟩))

omit [DecidableEq κ] in
theorem eq_of_mem_netSend {pkt p : NetPacket T κ} (hp : p ∈ netSend M pkt) :
    ∃ r, p = { pkt with receiver := r } := by
  unfold netSend at hp
  split at hp
  · obtain ⟨i, -, rfl⟩ := mem_map.mp hp
    exact ⟨.tile i, rfl⟩
  · exact ⟨pkt.receiver, mem_singleton.mp hp⟩

theorem Inv.send (h : Inv C s) {pkt : NetPacket T κ}
    (he : (network shortcut M).enabled s (.send pkt)) :
    Returns ((network shortcut M).step s (.send pkt)) (Stepped C s (.send pkt)) := by
  obtain ⟨hnode, hz, hc⟩ := he
  constructor
  · refine .sent hnode hz hc ?_
    simp [pending, Forward.flights]
  · intro f hf p hp
    rcases mem_cons.mp hf with rfl | hf
    · obtain ⟨r, rfl⟩ := eq_of_mem_netSend hp
      simp [hnode]
    · exact h.rest f hf p hp
  · simp [Action.forwards]

theorem Inv.next (h : Inv C s) (he : (network shortcut M).enabled s (.next f)) :
    Returns ((network shortcut M).step s (.next f)) (Stepped C s (.next f)) := by
  obtain ⟨hf, hqueue, hrest⟩ := he
  obtain ⟨t, rest, queue⟩ := f
  dsimp only at hqueue hrest
  subst hqueue
  cases rest with
  | nil => exact absurd rfl hrest
  | cons pkt rest =>
    have hsound : Sound C (t, pkt) := h.sound_of_mem hf (by simp [Forward.flights])
    have hrec : pkt.node ≠ .receiveTile := h.rest _ hf pkt (by simp)
    refine (route_sat hsound hrec s.timing).bind fun ⟨fs, r⟩ hsplit => ?_
    rw [sat_pure]
    constructor
    · refine .routed hrec hsplit (pending_perm hf) (pending_resume _ r ?_)
      simpa [Forward.flights] using perm_append_comm
    · exact rest_resume h.rest hf ⟨t, rest, fs⟩ (fun p hp => mem_cons_of_mem _ hp) r
    · have hwork := work_resume (C := C) hf ⟨t, rest, fs⟩ r
      have hlt := hsplit.cost_lt hsound hrec
      simp only [Contract.load, map_cons, sum_cons, map_nil, sum_nil] at hwork
      intro _
      dsimp only at hlt ⊢
      omega

theorem Inv.advance (h : Inv C s) (he : (network shortcut M).enabled s (.advance f)) :
    Returns ((network shortcut M).step s (.advance f)) (Stepped C s (.advance f)) := by
  obtain ⟨hf, hqueue⟩ := he
  obtain ⟨t, rest, queue⟩ := f
  cases queue with
  | nil => exact absurd rfl hqueue
  | cons hop queue =>
    have hpending := pending_perm hf
    have hperm : (⟨t, rest, hop :: queue⟩ : Forward T κ).flights.Perm
        (hop :: (⟨t, rest, queue⟩ : Forward T κ).flights) := perm_middle
    simp only [network]
    split
    · next hroute =>
      have hsound : Sound C hop := h.sound_of_mem hf (by simp [Forward.flights])
      refine (route_sat hsound hroute.1 s.timing).bind fun ⟨fs, r⟩ hsplit => ?_
      rw [sat_pure]
      constructor
      · refine .routed hroute.1 hsplit (hpending.trans (hperm.append_right _)) (pending_resume _ r ?_)
        show ((rest.map (t, ·)) ++ (queue ++ fs)).Perm (fs ++ (rest.map (t, ·) ++ queue))
        rw [← append_assoc]
        exact perm_append_comm
      · exact rest_resume h.rest hf ⟨t, rest, queue ++ fs⟩ (fun p hp => hp) r
      · have hwork := work_resume (C := C) hf ⟨t, rest, queue ++ fs⟩ r
        have hlt := hsplit.cost_lt hsound hroute.1
        simp only [Contract.load, map_append, sum_append, map_cons, sum_cons] at hwork
        intro _
        dsimp only at hlt ⊢
        omega
    · constructor
      · refine .moved (List.Perm.trans ?_ (hpending.trans (hperm.append_right _)).symm)
        simp only [pending, resume, flatMap_cons, append_assoc]
        rw [← append_assoc, ← append_assoc]
        refine perm_append_singleton hop _ |>.trans ?_
        simp
      · exact rest_resume h.rest hf ⟨t, rest, queue⟩ (fun p hp => hp) s.timing
      · have hwork := work_resume (C := C) hf ⟨t, rest, queue⟩ s.timing
        simp only [Contract.work, Contract.load, map_append, sum_append, map_cons,
          sum_cons, map_nil, sum_nil, resume] at hwork ⊢
        omega

theorem Inv.pull (h : Inv C s) {f : Flight T κ} (he : (network shortcut M).enabled s (.pull f)) :
    Returns ((network shortcut M).step s (.pull f)) (Stepped C s (.pull f)) := by
  have hf : f ∈ s.transport := he
  obtain ⟨t, pkt⟩ := f
  have hcost : (s.transport.map (C.flightCost · + 1)).sum = C.flightCost (t, pkt) + 1 +
      ((s.transport.erase (t, pkt)).map (C.flightCost · + 1)).sum := by
    rw [((perm_cons_erase hf).map _).sum_eq, map_cons, sum_cons]
  have hpending : s.pending.Perm
      ((t, pkt) :: (s.forwards.flatMap Forward.flights ++ s.transport.erase (t, pkt))) :=
    ((perm_cons_erase hf).append_left _).trans perm_middle
  simp only [network]
  split
  · next hrec =>
    have hsound : Sound C (t, pkt) := h.sound _ (mem_append_right _ hf)
    refine (processReceivedPacket_sat hsound hrec s.timing).bind fun pkt' hsame => ?_
    rw [sat_pure]
    refine ⟨.received hrec hsame hpending, h.rest, fun _ => ?_⟩
    simp only [Contract.work]
    omega
  · next hrec =>
    constructor
    · refine .moved (List.Perm.trans ?_ hpending.symm)
      simp [pending, Forward.flights]
    · intro g hg p hp
      rcases mem_cons.mp hg with rfl | hg
      · rw [mem_singleton.mp hp]
        exact hrec
      · exact h.rest g hg p hp
    · simp only [Contract.work, Contract.load, map_cons, sum_cons, map_nil, sum_nil]
      omega

variable {a : Action T κ ρ}

theorem Inv.stepped (h : Inv C s) (he : (network shortcut M).enabled s a) :
    Returns ((network shortcut M).step s a) (Stepped C s a) := by
  cases a with
  | send pkt => exact h.send he
  | next f => exact h.next he
  | advance f => exact h.advance he
  | pull f => exact h.pull he
  | environment r => exact ⟨.moved (List.Perm.refl _), h.rest, by simp [Action.forwards]⟩

omit [DecidableEq κ] in
theorem sound_netSend {pkt : NetPacket T κ} (hnode : pkt.node = .sendTile) (hz : pkt.zeroLoadDelay = 0)
    (hc : pkt.contentionDelay = 0) {x : Flight T κ} (hx : x ∈ (netSend M pkt).map (pkt.sender, ·)) :
    Sound C x := by
  obtain ⟨p, hp, rfl⟩ := mem_map.mp hx
  obtain ⟨r, rfl⟩ := eq_of_mem_netSend hp
  constructor
  · simp only [Contract.Ready, Flight.leg, hnode]
  · simp [NetPacket.Accounted, hz, hc]

theorem Stepped.inv {r : State T κ ρ × List (Event T κ)} (hs : Stepped C s a r)
    (h : Inv C s) : Inv C r.1 := by
  obtain ⟨s', out⟩ := r
  refine ⟨?_, hs.rest⟩
  intro x hx
  cases (show Change C s s' out from hs.change) with
  | sent hnode hz hc hperm =>
    rcases mem_append.mp (hperm.mem_iff.mp hx) with hx | hx
    · exact sound_netSend hnode hz hc hx
    · exact h.sound x hx
  | @routed f fs others hrec hsplit hbefore hafter =>
    have hf : Sound C f := h.sound f (hbefore.mem_iff.mpr mem_cons_self)
    rcases mem_append.mp (hafter.mem_iff.mp hx) with hx | hx
    · exact hsplit.sound hf hrec hx
    · exact h.sound x (hbefore.mem_iff.mpr (mem_cons_of_mem _ hx))
  | moved hperm => exact h.sound x (hperm.mem_iff.mp hx)
  | received _ _ hperm => exact h.sound x (hperm.mem_iff.mpr (mem_cons_of_mem _ hx))

end Steps

/-! ## Accounts -/

/-- A quantity that a packet owes: it is split among the legs of the packet, and paid with each hop and
with the receipt. -/
structure Tally (C : Contract M) where
  value : T.Tile → Receiver T → Leg T κ → ℕ
  hop : T.Tile → Leg T κ → ℕ
  receipt : T.Tile → ℕ
  split : ∀ {s r l}, C.Ready s r l → l.2 ≠ .receiveTile →
    value s r l = ((C.next s r l).map fun l' => value s r l' + hop l.1 l').sum
  done : ∀ {s r t}, value s r (t, .receiveTile) = receipt t

namespace Tally

variable (A : Tally C) (o : Origin T)

/-- What is owed for a packet on its way that has the origin `o`. -/
def owed (f : Flight T κ) : ℕ := if f.2.origin = o then A.value f.2.sender f.2.receiver f.leg else 0

def paid : Event T κ → ℕ
  | .sent _ => 0
  | .hop t f => if f.2.origin = o then A.hop t f.leg else 0
  | .received t pkt => if pkt.origin = o then A.receipt t else 0

def due : Event T κ → ℕ
  | .sent pkt =>
    if pkt.origin = o then
      ((netSend M pkt).map fun p => A.value pkt.sender p.receiver (pkt.sender, .sendTile)).sum
    else 0
  | _ => 0

variable {A o} {s : State T κ ρ} {tr : List (Event T κ)}

theorem owed_split {f : Flight T κ} {fs : List (Flight T κ)} (hs : Split C f fs) (h : Sound C f)
    (hrec : f.2.node ≠ .receiveTile) : A.owed o f =
      (fs.map (A.owed o)).sum + ((fs.map (.hop f.1)).map (A.paid o)).sum := by
  rw [map_map, ← sum_map_add]
  by_cases ho : f.2.origin = o
  · have hgo : ∀ g ∈ fs, g.2.origin = o := fun g hg => (hs.same g hg).origin.trans ho
    rw [Tally.owed, if_pos ho, A.split h.ready hrec, ← hs.legs, map_map]
    congr 1
    apply map_congr_left
    intro g hg
    simp only [comp_apply, owed, paid, hgo g hg, if_true, (hs.same g hg).sender,
      (hs.same g hg).receiver]
    rfl
  · have hzero : ∀ g ∈ fs, A.owed o g + (A.paid o ∘ Event.hop f.1) g = 0 := by
      intro g hg
      have hgo : g.2.origin ≠ o := fun h' => ho ((hs.same g hg).origin.symm.trans h')
      simp [owed, paid, hgo]
    rw [owed, if_neg ho, map_congr_left hzero]
    simp

theorem balance_step {s' : State T κ ρ} {out : List (Event T κ)} (h : Inv C s) (hc : Change C s s' out)
    (hb : (tr.map (A.due o)).sum = (tr.map (A.paid o)).sum + (s.pending.map (A.owed o)).sum) :
    ((tr ++ out).map (A.due o)).sum =
      ((tr ++ out).map (A.paid o)).sum + (s'.pending.map (A.owed o)).sum := by
  rw [map_append, sum_append, map_append, sum_append, hb]
  cases hc with
  | @sent pkt hnode _ _ hperm =>
    have hdue : A.due o (.sent pkt) = (((netSend M pkt).map (pkt.sender, ·)).map (A.owed o)).sum := by
      rw [map_map, due]
      split
      · next ho =>
        congr 1
        apply map_congr_left
        intro p hp
        obtain ⟨r, rfl⟩ := eq_of_mem_netSend hp
        rw [comp_apply, owed, if_pos (by exact ho), Flight.leg, hnode]
      · next ho =>
        refine (sum_eq_zero ?_).symm
        intro x hx
        obtain ⟨p, hp, rfl⟩ := mem_map.mp hx
        obtain ⟨r, rfl⟩ := eq_of_mem_netSend hp
        exact if_neg ho
    rw [(hperm.map _).sum_eq, map_append, sum_append, ← hdue]
    simp only [map_cons, map_nil, sum_cons, sum_nil, paid]
    omega
  | @routed f fs others hrec hsplit hbefore hafter =>
    have hf : Sound C f := h.sound f (hbefore.mem_iff.mpr mem_cons_self)
    have hdue : ((fs.map (.hop f.1)).map (A.due o)).sum = 0 := by
      rw [map_map]
      apply sum_eq_zero
      intro x hx
      obtain ⟨g, -, rfl⟩ := mem_map.mp hx
      rfl
    rw [(hbefore.map _).sum_eq, (hafter.map _).sum_eq, map_cons, sum_cons, map_append,
      sum_append, owed_split hsplit hf hrec, hdue]
    omega
  | moved hperm => rw [(hperm.map _).sum_eq]; simp
  | @received f pkt hrec hsame hperm =>
    have heq : A.owed o f = A.paid o (.received f.1 pkt) := by
      have hleg : f.leg = (f.1, .receiveTile) := by rw [Flight.leg, hrec]
      simp only [owed, paid, hsame.origin, hleg, A.done]
    rw [(hperm.map _).sum_eq, map_cons, sum_cons, heq]
    simp only [map_cons, map_nil, sum_cons, sum_nil, due]
    omega

end Tally

/-! ## Runs -/

section Runs

variable {shortcut : Bool} {s : State T κ ρ} {tr : List (Event T κ)}

theorem init_inv (h : (network shortcut M).init s) : Inv C s := by
  obtain ⟨hf, ht⟩ := h
  exact ⟨by simp [pending, hf, ht], by simp [hf]⟩

theorem run_inv (h : (network shortcut M).Run (fun _ => True) tr s) : Inv C s :=
  h.invariant (E := fun _ => False) (I := fun _ s => Inv C s) (fun _ => init_inv)
    fun _ _ _ hi _ he => (hi.stepped he).mono fun _ hs => hs.inv hi

theorem not_fails (C : Contract M) (e : Fault) : ¬ (network shortcut M).Fails (fun _ => True) e :=
  fun h => h.allowed (E := fun _ => False) (I := fun _ s => Inv C s) (fun _ => init_inv)
    fun _ _ _ hi _ he => (hi.stepped he).mono fun _ hs => hs.inv hi

theorem Tally.balance (A : Tally C) (o : Origin T) (h : (network shortcut M).Run (fun _ => True) tr s) :
    (tr.map (A.due o)).sum = (tr.map (A.paid o)).sum + (s.pending.map (A.owed o)).sum := by
  refine (h.invariant (E := fun _ => False) (I := fun tr s => Inv C s ∧ (tr.map (A.due o)).sum =
      (tr.map (A.paid o)).sum + (s.pending.map (A.owed o)).sum) ?_ ?_).2
  · intro s hs
    have hempty : s.pending = [] := by simp [pending, hs.1, hs.2]
    exact ⟨init_inv hs, by simp [hempty]⟩
  · intro tr s a ⟨hi, hb⟩ _ he
    exact (hi.stepped he).mono fun r hs => ⟨hs.inv hi, A.balance_step hi hs.change hb⟩

end Runs

/-! ## Delivery -/

/-- How many packets with the origin `o` were sent to `d`, alone or to all tiles. -/
def sends (tr : List (Event T κ)) (o : Origin T) (d : T.Tile) : ℕ :=
  tr.countP fun e => match e with
    | .sent pkt => decide (pkt.origin = o ∧ (pkt.receiver = .broadcast ∨ pkt.receiver = .tile d))
    | _ => false

def receipts (tr : List (Event T κ)) (o : Origin T) (d : T.Tile) : ℕ :=
  tr.countP fun e => match e with
    | .received t pkt => decide (pkt.origin = o ∧ t = d)
    | _ => false

/-- Forwarding does not fail and comes to an end; then every tile has received a copy of each packet that
was sent to it, and nothing else. -/
structure Delivers (shortcut : Bool) (M : NetworkModel T κ ρ) : Prop where
  safe : ∀ e, ¬ (network shortcut M).Fails (fun _ => True) e
  atMostOnce : ∀ tr s, (network shortcut M).Run (fun _ => True) tr s →
    ∀ o d, receipts tr o d ≤ sends tr o d
  exactlyOnce : ∀ tr s, (network shortcut M).Run (fun _ => True) tr s → s.pending = [] →
    ∀ o d, receipts tr o d = sends tr o d
  time : ∀ tr s, (network shortcut M).Run (fun _ => True) tr s → ∀ t pkt, .received t pkt ∈ tr →
    ∃ sent, .sent sent ∈ tr ∧ sent.origin = pkt.origin ∧
      pkt.time = sent.time + pkt.zeroLoadDelay + pkt.contentionDelay
  progress : ∀ tr s, (network shortcut M).Run (fun _ => True) tr s → s.pending ≠ [] →
    ∃ a, a.forwards = true ∧ (network shortcut M).enabled s a
  terminates : ∃ work : State T κ ρ → ℕ, ∀ tr s, (network shortcut M).Run (fun _ => True) tr s →
    ∀ a, a.forwards = true → (network shortcut M).enabled s a →
      ∃ s' out, (network shortcut M).step s a = .ok (s', out) ∧ work s' < work s

/-- The copies that `d` will receive. -/
def Contract.copiesTo (C : Contract M) (d : T.Tile) : Tally C where
  value s r l := C.copies s r l d
  hop _ _ := 0
  receipt t := ind (t = d)
  split h hrec := h.copies_next hrec d
  done := (Contract.copies_eq_dests (by simp)).trans C.dests_receive

section Delivery

variable {shortcut : Bool} {s : State T κ ρ} {tr : List (Event T κ)}

theorem copiesTo_start (C : Contract M) (d : T.Tile) (s : T.Tile) (r : Receiver T) :
    (C.copiesTo d).value s r (s, .sendTile) = ind (r = .broadcast ∨ r = .tile d) := by
  simp [Contract.copiesTo, Contract.copies]

/-- Sending to all tiles with one packet or with one for each tile is the same. -/
theorem due_copiesTo (d : T.Tile) (o : Origin T) (pkt : NetPacket T κ) :
    (C.copiesTo d).due o (.sent pkt) =
      ind (pkt.origin = o ∧ (pkt.receiver = .broadcast ∨ pkt.receiver = .tile d)) := by
  rw [Tally.due]
  split
  · next ho =>
    rw [ind_congr (and_iff_right ho)]
    simp only [copiesTo_start]
    unfold netSend
    split
    · next hb =>
      rw [map_map]
      have heach : ((fun p : NetPacket T κ => ind (p.receiver = .broadcast ∨ p.receiver = .tile d)) ∘
          fun i => { pkt with receiver := .tile i }) = fun i => ind (i = d) := by
        funext i
        exact ind_congr (by simp)
      rw [heach, sum_ind_eq (nodup_finRange _), ind_pos (mem_finRange d), ind_pos (.inl hb.1)]
    · simp
  · next ho => rw [ind_neg fun h => ho h.1]

theorem sum_due_eq_sends (C : Contract M) (tr : List (Event T κ)) (o : Origin T) (d : T.Tile) :
    (tr.map ((C.copiesTo d).due o)).sum = sends tr o d := by
  induction tr with
  | nil => rfl
  | cons e tr ih =>
    rw [map_cons, sum_cons, ih, sends, sends, countP_cons, Nat.add_comm]
    congr 1
    cases e with
    | sent pkt =>
      rw [due_copiesTo]
      by_cases h : pkt.origin = o ∧ (pkt.receiver = .broadcast ∨ pkt.receiver = .tile d)
      · rw [ind_pos h, if_pos (decide_eq_true h)]
      · rw [ind_neg h, if_neg (by simpa using h)]
    | hop t f => rfl
    | received t pkt => rfl

theorem sum_paid_eq_receipts (C : Contract M) (tr : List (Event T κ)) (o : Origin T) (d : T.Tile) :
    (tr.map ((C.copiesTo d).paid o)).sum = receipts tr o d := by
  induction tr with
  | nil => rfl
  | cons e tr ih =>
    rw [map_cons, sum_cons, ih, receipts, receipts, countP_cons, Nat.add_comm]
    congr 1
    cases e with
    | sent pkt => rfl
    | hop t f => simp [Tally.paid, Contract.copiesTo]
    | received t pkt =>
      by_cases ho : pkt.origin = o <;> by_cases hd : t = d <;>
        simp [Tally.paid, Contract.copiesTo, ho, hd, ind]

def Event.Timed : Event T κ → Prop
  | .sent pkt => pkt.zeroLoadDelay = 0 ∧ pkt.contentionDelay = 0
  | .hop _ _ => True
  | .received _ pkt => pkt.Accounted

theorem run_events (C : Contract M) {Q : Event T κ → Prop}
    (h : (network shortcut M).Run (fun _ => True) tr s)
    (hQ : ∀ s s' out, Inv C s → Change C s s' out → ∀ e ∈ out, Q e) : ∀ e ∈ tr, Q e := by
  refine (h.invariant (E := fun _ => False) (I := fun tr s => Inv C s ∧ ∀ e ∈ tr, Q e)
    (fun s hs => ⟨init_inv hs, by simp⟩) ?_).2
  intro tr s a ⟨hi, ht⟩ _ he
  refine (hi.stepped he).mono fun r hs => ⟨hs.inv hi, forall_mem_append.mpr ⟨ht, ?_⟩⟩
  exact hQ s r.1 r.2 hi hs.change

theorem run_timed (C : Contract M) (h : (network shortcut M).Run (fun _ => True) tr s) :
    ∀ e ∈ tr, e.Timed := by
  refine run_events C h fun s s' out _ hchange e hm => ?_
  cases hchange with
  | sent _ hz hc _ =>
    rw [mem_singleton.mp hm]
    exact ⟨hz, hc⟩
  | routed _ _ _ _ =>
    obtain ⟨g, -, rfl⟩ := mem_map.mp hm
    trivial
  | moved _ => cases hm
  | received _ hsame _ =>
    rw [mem_singleton.mp hm]
    exact hsame.accounted

variable (C) in
/-- A hop from `t`: to a receiver, or on a leg of the model. -/
def Event.OnLeg : Event T κ → Prop
  | .hop t f => f.2.node = .receiveTile ∨ ∃ node, Routed f.2.sender f.2.receiver ∧
      C.Good f.2.sender f.2.receiver (t, node) ∧ f.leg ∈ C.legs f.2.sender f.2.receiver (t, node)
  | _ => True

theorem run_onLeg (C : Contract M) (h : (network shortcut M).Run (fun _ => True) tr s) :
    ∀ e ∈ tr, e.OnLeg C := by
  refine run_events C h fun s s' out hi hchange e hm => ?_
  cases hchange with
  | sent _ _ _ _ =>
    rw [mem_singleton.mp hm]
    trivial
  | @routed g fs others hrec hsplit hbefore _ =>
    obtain ⟨f, hf, rfl⟩ := mem_map.mp hm
    have hsame := hsplit.same f hf
    have hsound : Sound C g := hi.sound g (hbefore.mem_iff.mpr mem_cons_self)
    have hmem : f.leg ∈ C.next g.2.sender g.2.receiver g.leg := by
      rw [← hsplit.legs]
      exact mem_map_of_mem hf
    show f.2.node = .receiveTile ∨ _
    rw [hsame.sender, hsame.receiver]
    rcases hsound.ready.mem_next hrec hmem with ⟨-, hnode⟩ | hleg
    · exact .inl hnode
    · exact .inr ⟨g.2.node, hleg⟩
  | moved _ => cases hm
  | received _ _ _ =>
    rw [mem_singleton.mp hm]
    trivial

theorem exists_enabled (hne : s.pending ≠ []) :
    ∃ a : Action T κ ρ, a.forwards = true ∧ (network shortcut M).enabled s a := by
  obtain ⟨x, hx⟩ := exists_mem_of_ne_nil _ hne
  rcases mem_append.mp hx with hx | hx
  · obtain ⟨f, hf, hx⟩ := mem_flatMap.mp hx
    by_cases hqueue : f.queue = []
    · have hrest : f.rest ≠ [] := by
        intro hrest
        simp [Forward.flights, hqueue, hrest] at hx
      exact ⟨.next f, rfl, hf, hqueue, hrest⟩
    · exact ⟨.advance f, rfl, hf, hqueue⟩
  · exact ⟨.pull x, rfl, hx⟩

theorem Contract.delivers (C : Contract M) (shortcut : Bool) : Delivers shortcut M := by
  have hbalance : ∀ {tr s}, (network shortcut M).Run (fun _ => True) tr s → ∀ o d,
      sends tr o d = receipts tr o d + (s.pending.map ((C.copiesTo d).owed o)).sum := by
    intro tr s h o d
    rw [← sum_due_eq_sends C, ← sum_paid_eq_receipts C]
    exact (C.copiesTo d).balance o h
  have hatMost : ∀ tr s, (network shortcut M).Run (fun _ => True) tr s → ∀ o d,
      receipts tr o d ≤ sends tr o d := by
    intro tr s h o d
    have := hbalance h o d
    omega
  constructor
  case safe => exact not_fails C
  case atMostOnce => exact hatMost
  case exactlyOnce =>
    intro tr s h hempty o d
    have := hbalance h o d
    rw [hempty] at this
    simpa using this.symm
  case time =>
    intro tr s h t pkt hmem
    have hreceived : 0 < receipts tr pkt.origin t :=
      countP_pos_iff.mpr ⟨_, hmem, by simp⟩
    obtain ⟨e, he, hsent⟩ := countP_pos_iff.mp
      (Nat.lt_of_lt_of_le hreceived (hatMost tr s h pkt.origin t))
    cases e with
    | sent p =>
      have ho := (of_decide_eq_true hsent).1
      have hp : p.zeroLoadDelay = 0 ∧ p.contentionDelay = 0 := run_timed C h _ he
      have hpkt : pkt.Accounted := run_timed C h _ hmem
      have htime := congrArg Origin.time ho
      simp only [NetPacket.origin, hp.1, hp.2] at htime
      unfold NetPacket.Accounted at hpkt
      exact ⟨p, he, ho, by omega⟩
    | hop t f => cases hsent
    | received t p => cases hsent
  case progress => exact fun _ _ _ hne => exists_enabled hne
  case terminates =>
    refine ⟨C.work, fun tr s h a ha he => ?_⟩
    have hs := (run_inv (C := C) h).stepped he
    generalize hx : (network shortcut M).step s a = x at hs
    cases x with
    | error e => exact hs.elim
    | ok r => exact ⟨r.1, r.2, rfl, hs.work ha⟩

end Delivery

end Graphite.Network
