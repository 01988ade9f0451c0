import Graphite.Directory.Broadcast
import Graphite.Directory.Cache
import Graphite.Mosi.Port

/-! # One line under MOSI

The directory entry of a line agrees with the phases of the clients, its sharer set is that of the
clients that hold the line, and the DRAM has the contents of a line that is UNCACHED or SHARED, unless
newer data are in the controller's data list. Each lemma is a move of a client or of the directory
controller.
-/

namespace Graphite.Mosi

open Outcome SetAssoc PrL2 Function List Finset

variable {A : Type} {N : ℕ}

/-- The clients the directory has to count as sharers. -/
def holders (ph : Fin N → Phase) : Finset (Fin N) :=
  univ.filter fun t => ph t ≠ .out ∧ ph t ≠ .doomed

/-- The entry matches the phases of the clients. An owner that cannot upgrade its copy is possible only
if the scheme does not fit the machine. -/
def Agrees (dc : DirectoryConfig A) (e : DirectoryEntry N) (ph : Fin N → Phase) : Prop :=
  match e.dstate with
  | .uncached => e.owner = none ∧ e.sharers.broadcasts = false ∧ ∀ t, ph t = .out
  | .shared => e.owner = none ∧ 0 < e.sharers.getNumSharers ∧ ∀ t, (ph t).isReader
  | .owned => (e.sharers.broadcasts = true → 1 < N) ∧ ∃ o, e.owner = some o ∧
      (dc.Fits N → e.sharers.hasSharer o = true) ∧
      (ph o).isOwner ∧ ∀ t ≠ o, (ph t).isReader
  | .modified => e.sharers.broadcasts = false ∧ ∃ o, e.owner = some o ∧
      (dc.Fits N → e.sharers.hasSharer o = true) ∧
      ((ph o).isWriter ∧ (∀ t ≠ o, ph t = .out) ∨
        ph o = .doomed ∧ ¬ dc.Fits N ∧ ∀ t ≠ o, (ph t).isReader)
  | _ => False

def Reads (q : List (ShmemMsg A N)) : Prop := ∃ r q', q = r :: q' ∧ r.type = .shReq

/-- The data of the controller and those of the DRAM, in directory state `s`. -/
structure DataInv (G : LineData → Prop) (s : DirectoryState) (q : List (ShmemMsg A N))
    (cached dram : Option LineData) : Prop where
  good : ∀ d ∈ cached, G d
  busy : cached.isSome → q ≠ [] ∧ s ≠ .modified
  clean : s = .uncached ∨ s = .shared → cached = none ∨ Reads q → G (dram.getD zeroLine)
  stored : s ≠ .uncached ∨ cached.isSome → dram.isSome

/-- Line `a`, whose data have `G`. The request at the front wants `ask` of the clients, and the replies
of the tiles in `R` to a broadcast are due. -/
structure LineInv (dc : DirectoryConfig A) (a : A) (G : LineData → Prop) (cl : Fin N → Client A N)
    (h : HomeLine A N (ShmemMsg A N)) (ask : Fin N → Ask) (ph : Fin N → Phase) (R : Finset (Fin N)) :
    Prop where
  port : ∀ t, PortInv G t (ask t) (t ∈ R) (queued h.queue t) (cl t) (h.down t) (ph t)
  agrees : Agrees dc h.entry ph
  covers : h.entry.sharers.Covers dc.type dc.maxHwSharers (holders ph) R
  data : DataInv G h.entry.dstate h.queue h.cached h.dram
  fetch : dc.Fits N → ∀ t, ask t = .fetch → h.entry.sharers.hasSharer t = true
  requests : ∀ r ∈ h.queue, r.address = a ∧ ((requestOf r).isSome ∨ r.type = .nullifyReq)
  tail : ∀ r ∈ h.queue.tail, (requestOf r).isSome
  replaced : h.replaced ↔ ∃ r q, h.queue = r :: q ∧ r.type = .nullifyReq

section Phases

variable {dc : DirectoryConfig A} {e : DirectoryEntry N} {ph : Fin N → Phase} {t : Fin N} {p : Phase}
  {p' : Phase}

theorem agrees_uncached (h : e.dstate = .uncached) : Agrees dc e ph ↔
    e.owner = none ∧ e.sharers.broadcasts = false ∧ ∀ t, ph t = .out := by
  simp [Agrees, h]

theorem agrees_shared (h : e.dstate = .shared) : Agrees dc e ph ↔
    e.owner = none ∧ 0 < e.sharers.getNumSharers ∧ ∀ t, (ph t).isReader := by
  simp [Agrees, h]

theorem agrees_owned (h : e.dstate = .owned) : Agrees dc e ph ↔
    (e.sharers.broadcasts = true → 1 < N) ∧ ∃ o, e.owner = some o ∧
      (dc.Fits N → e.sharers.hasSharer o = true) ∧
      (ph o).isOwner ∧ ∀ t ≠ o, (ph t).isReader := by
  simp [Agrees, h]

theorem agrees_modified (h : e.dstate = .modified) : Agrees dc e ph ↔
    e.sharers.broadcasts = false ∧ ∃ o, e.owner = some o ∧
      (dc.Fits N → e.sharers.hasSharer o = true) ∧
      ((ph o).isWriter ∧ (∀ t ≠ o, ph t = .out) ∨
        ph o = .doomed ∧ ¬ dc.Fits N ∧ ∀ t ≠ o, (ph t).isReader) := by
  simp [Agrees, h]

theorem Agrees.cases (h : Agrees dc e ph) :
    e.dstate = .uncached ∨ e.dstate = .shared ∨ e.dstate = .owned ∨ e.dstate = .modified := by
  unfold Agrees at h
  cases hd : e.dstate <;> simp_all

theorem mem_holders : t ∈ holders ph ↔ ph t ≠ .out ∧ ph t ≠ .doomed := by simp [holders]

theorem holders_out (h : ∀ t, ph t = .out) : holders ph = ∅ := by
  ext t; simp [mem_holders, h]

theorem holders_update_out : holders (update ph t .out) = (holders ph).erase t := by
  ext u
  by_cases hu : u = t <;> simp [mem_holders, hu]

theorem holders_update (hp : p ≠ .out ∧ p ≠ .doomed) :
    holders (update ph t p) = insert t (holders ph) := by
  ext u
  by_cases hu : u = t <;> simp [mem_holders, hu, hp]

theorem holders_congr (hp : (p ≠ .out ∧ p ≠ .doomed) ↔ (ph t ≠ .out ∧ ph t ≠ .doomed)) :
    holders (update ph t p) = holders ph := by
  ext u
  by_cases hu : u = t
  · subst hu; simpa [mem_holders] using hp
  · simp [mem_holders, hu]

theorem reader_of_out (h : p = .out) : p.isReader := by rw [h]; rfl

theorem out_of_reader (h : p.isReader) (hp : ¬ (p ≠ .out ∧ p ≠ .doomed)) : p = .out := by
  cases p with
  | out => rfl
  | held st wb => simp at hp
  | left f wb => simp at hp
  | doomed => cases h

theorem holds_of_owner (h : p.isOwner) : p ≠ .out ∧ p ≠ .doomed := by
  cases p with
  | out => cases h
  | held st wb => simp
  | left f wb => simp
  | doomed => cases h

section

variable (h : Phase.Leaves p p')
include h

theorem Phase.Leaves.holds_iff : (p' ≠ .out ∧ p' ≠ .doomed) ↔ (p ≠ .out ∧ p ≠ .doomed) := by
  cases h <;> simp

theorem Phase.Leaves.reader (hp : p.isReader) : p'.isReader := by
  cases h with
  | stay => exact hp
  | drop => rfl
  | flush => rfl
  | @writeBack st => cases st <;> first | rfl | cases hp

theorem Phase.Leaves.owner (hp : p.isOwner) : p'.isOwner := by
  cases h with
  | stay => exact hp
  | drop => cases hp
  | flush => rfl
  | @writeBack st => cases st <;> first | rfl | cases hp

theorem Phase.Leaves.writer (hp : p.isWriter) : p'.isWriter := by
  cases h with
  | stay => exact hp
  | drop => cases hp
  | flush => rfl
  | @writeBack st => cases st <;> first | rfl | cases hp

theorem Phase.Leaves.of_out (hp : p = .out) : p' = .out := by
  subst hp; cases h; rfl

theorem Phase.Leaves.of_doomed (hp : p = .doomed) : p' = .doomed := by
  subst hp; cases h; rfl

end

theorem leaves_update (h : Phase.Leaves (ph t) p) (u : Fin N) :
    Phase.Leaves (ph u) (update ph t p u) := by
  by_cases hu : u = t
  · subst hu; simpa using h
  · simpa [hu] using .stay _

theorem Agrees.leaves {ph' : Fin N → Phase} (h : Agrees dc e ph)
    (hp : ∀ u, Phase.Leaves (ph u) (ph' u)) : Agrees dc e ph' := by
  rcases h.cases with hd | hd | hd | hd
  · rw [agrees_uncached hd] at h ⊢
    exact ⟨h.1, h.2.1, fun u => (hp u).of_out (h.2.2 u)⟩
  · rw [agrees_shared hd] at h ⊢
    exact ⟨h.1, h.2.1, fun u => (hp u).reader (h.2.2 u)⟩
  · rw [agrees_owned hd] at h ⊢
    obtain ⟨hb, o, ho, hfit, hown, hread⟩ := h
    exact ⟨hb, o, ho, hfit, (hp o).owner hown, fun u hu => (hp u).reader (hread u hu)⟩
  · rw [agrees_modified hd] at h ⊢
    obtain ⟨hb, o, ho, hfit, hown⟩ := h
    refine ⟨hb, o, ho, hfit, hown.imp ?_ ?_⟩
    · rintro ⟨hw, hout⟩
      exact ⟨(hp o).writer hw, fun u hu => (hp u).of_out (hout u hu)⟩
    · rintro ⟨hdo, hnf, hread⟩
      exact ⟨(hp o).of_doomed hdo, hnf, fun u hu => (hp u).reader (hread u hu)⟩

end Phases

section Data

variable {G : LineData → Prop} {s : DirectoryState} {q : List (ShmemMsg A N)} {m : ShmemMsg A N}
  {cached dram : Option LineData} (h : DataInv G s q cached dram)
include h

theorem DataInv.cached_eq_none (hq : q = []) : cached = none := by
  cases hcd : cached with
  | none => rfl
  | some d => exact absurd hq (h.busy (by simp [hcd])).1

theorem DataInv.append : DataInv G s (q ++ [m]) cached dram where
  good := h.good
  busy hc := ⟨by simp, (h.busy hc).2⟩
  clean hs hc := by
    refine h.clean hs ?_
    rcases hc with hc | ⟨r, q', hq, hr⟩
    · exact .inl hc
    · cases q with
      | nil => exact .inl (h.cached_eq_none rfl)
      | cons r' q'' =>
        obtain ⟨rfl, -⟩ := cons.inj hq
        exact .inr ⟨r', q'', rfl, hr⟩
  stored := h.stored

end Data

namespace LineInv

variable {dc : DirectoryConfig A} {a : A} {G : LineData → Prop} {cl : Fin N → Client A N} {t u : Fin N}
  {hl : HomeLine A N (ShmemMsg A N)} {ask : Fin N → Ask} {ph : Fin N → Phase} {R : Finset (Fin N)}
  {p : Phase} {c : Client A N} {ms q : List (ShmemMsg A N)} {m r : ShmemMsg A N} {e : DirectoryEntry N}
  {st : CacheState} {d : LineData} {dram : Option LineData} {k : MsgType × Bool} {P : Prop}

theorem client (h : LineInv dc a G cl hl ask ph R) (hp : Phase.Leaves (ph t) p)
    (hc : PortInv G t (ask t) (t ∈ R) (queued hl.queue t) c ms p) :
    LineInv dc a G (update cl t c) { hl with down := update hl.down t ms } ask (update ph t p) R :=
  { h with
    port := by
      intro u
      by_cases hu : u = t
      · subst hu; simpa using hc
      · simpa [hu] using h.port u
    agrees := h.agrees.leaves (leaves_update hp)
    covers := by rw [holders_congr hp.holds_iff]; exact h.covers }

theorem client' (h : LineInv dc a G cl hl ask ph R) (hp : Phase.Leaves (ph t) p)
    (hc : PortInv G t (ask t) (t ∈ R) (queued hl.queue t) c (hl.down t) p) :
    LineInv dc a G (update cl t c) hl ask (update ph t p) R := by
  simpa using h.client hp hc

theorem start (he : e.dstate = .uncached) (ho : e.owner = none) (hb : e.sharers.broadcasts = false)
    (hcov : e.sharers.Covers dc.type dc.maxHwSharers ∅ ∅) (hP : ¬ P) (hG : G (dram.getD zeroLine)) :
    LineInv dc a G (fun _ => ⟨none, none, []⟩) ⟨e, P, [], none, dram, fun _ => []⟩ (fun _ => .none)
      (fun _ => .out) ∅ where
  port t :=
    { phase := ⟨rfl, by simp [Acks]⟩
      live := rfl
      wb := fun hw => by cases hw
      tickets := rfl
      reads := fun _ hk => by cases hk
      ready := fun _ => List.Pairwise.nil
      order := List.Pairwise.nil
      idle := fun _ => rfl
      once := fun hf => by cases hf
      due := by simp
      pending := by simp
      upOk := by simp
      downOk := by simp
      copyOk := by simp
      downData := by simp
      upData := by simp }
  agrees := (agrees_uncached he).mpr ⟨ho, hb, fun _ => rfl⟩
  covers := by rwa [holders_out fun _ => rfl]
  data := ⟨by simp, by simp, fun _ _ => hG, by simp [he]⟩
  fetch _ t ht := by cases ht
  requests := by simp
  tail := by simp
  replaced := by simp [hP]

theorem waits (h : LineInv dc a G cl hl ask ph R) : Waits a hl.queue hl.replaced :=
  ⟨h.requests, h.tail, h.replaced⟩

/-! ### What a copy says -/

section

variable (h : LineInv dc a G cl hl ask ph R)
include h

theorem copy_eq (hc : (cl t).copy = some (st, d)) :
    G d ∧ (st = .shared ∨ st = .owned ∨ st = .modified) :=
  ⟨((h.port t).copyOk _ hc).1, ((h.port t).held_of_copy hc).1⟩

theorem copy_of_out (ht : ph t = .out) : (cl t).copy = none := by
  have hp := (h.port t).phase
  rw [ht] at hp
  exact ((h.port t).of_eff_none hp.1).1

theorem owner_of_held {wb : Bool} (ht : ph t = .held st wb)
    (hst : st ≠ .shared) : hl.entry.owner = some t ∧
      (hl.entry.dstate = .owned ∧ st = .owned ∧ (∀ u ≠ t, (ph u).isReader) ∨
        hl.entry.dstate = .modified ∧ (st = .modified → wb = false) ∧ ∀ u ≠ t, ph u = .out) := by
  have hr : ¬ (ph t).isReader := by
    rw [ht]; cases st <;> simp_all [Phase.isReader]
  have ha := h.agrees
  rcases ha.cases with hd | hd | hd | hd
  · have := ((agrees_uncached hd).mp ha).2.2 t
    simp [ht] at this
  · exact absurd (((agrees_shared hd).mp ha).2.2 t) hr
  · obtain ⟨-, o, ho, -, hown, hread⟩ := (agrees_owned hd).mp ha
    obtain rfl : o = t := by
      by_contra hot
      exact hr (hread t (Ne.symm hot))
    refine ⟨ho, .inl ⟨hd, ?_, hread⟩⟩
    rw [ht] at hown
    cases st <;> simp_all [Phase.isOwner]
  · obtain ⟨-, o, ho, -, ⟨hw, hout⟩ | ⟨hdo, -, hread⟩⟩ := (agrees_modified hd).mp ha
    · obtain rfl : o = t := by
        by_contra hot
        simp [hout t (Ne.symm hot)] at ht
      refine ⟨ho, .inr ⟨hd, ?_, hout⟩⟩
      rintro rfl
      rw [ht] at hw
      cases wb
      · rfl
      · cases hw
    · obtain rfl : o = t := by
        by_contra hot
        exact hr (hread t (Ne.symm hot))
      simp [ht] at hdo

theorem not_fits_of_doomed (ht : ph t = .doomed) : ¬ dc.Fits N := by
  have ha := h.agrees
  rcases ha.cases with hd | hd | hd | hd
  · have := ((agrees_uncached hd).mp ha).2.2 t
    simp [ht] at this
  · have := ((agrees_shared hd).mp ha).2.2 t
    simp [ht, Phase.isReader] at this
  · obtain ⟨-, o, -, -, hown, hread⟩ := (agrees_owned hd).mp ha
    by_cases hto : t = o
    · rw [← hto, ht] at hown; cases hown
    · have := hread t hto
      simp [ht, Phase.isReader] at this
  · obtain ⟨-, o, -, -, ⟨hw, hout⟩ | ⟨-, hnf, -⟩⟩ := (agrees_modified hd).mp ha
    · by_cases hto : t = o
      · rw [← hto, ht] at hw; cases hw
      · simp [hout t hto] at ht
    · exact hnf

theorem owner_of_modified (hc : (cl t).copy = some (.modified, d)) :
    hl.entry.dstate = .modified ∧ hl.entry.owner = some t ∧ ph t = .held .modified false ∧
      ∀ u ≠ t, ph u = .out := by
  obtain ⟨-, wb, hph⟩ := (h.port t).phase_of_modified hc
  obtain ⟨ho, ⟨-, hst, -⟩ | ⟨hd, hwb, hout⟩⟩ := h.owner_of_held hph (by simp)
  · cases hst
  · exact ⟨hd, ho, by rw [hph, hwb rfl], hout⟩

theorem not_uncached (hc : (cl t).copy = some (st, d)) : hl.entry.dstate ≠ .uncached := by
  intro hd
  simp [h.copy_of_out (((agrees_uncached hd).mp h.agrees).2.2 t)] at hc

theorem copies_subset : (Finset.univ.filter fun t => (cl t).copy ≠ none) ⊆ holders ph := by
  intro u hu
  obtain ⟨⟨st, d⟩, hc⟩ := Option.ne_none_iff_exists'.mp (Finset.mem_filter.mp hu).2
  obtain ⟨-, st', wb, hph, -⟩ := (h.port u).held_of_copy hc
  simp [mem_holders, hph]

theorem owner_of_copy (hc : (cl t).copy = some (st, d)) (hst : st ≠ .shared) : hl.entry.owner = some t ∧
    (hl.entry.dstate = .modified ∨ hl.entry.dstate = .owned ∧ st = .owned) := by
  obtain ⟨-, st', wb, hph, hst'⟩ := (h.port t).held_of_copy hc
  have hne : st' ≠ .shared := by
    rintro rfl
    simp [hst.symm] at hst'
  obtain ⟨ho, ⟨hd, rfl, -⟩ | ⟨hd, -⟩⟩ := h.owner_of_held hph hne
  · exact ⟨ho, .inr ⟨hd, by simpa [eq_comm] using hst'⟩⟩
  · exact ⟨ho, .inl hd⟩

theorem at_rest (hup : (cl t).up = []) (hdown : hl.down t = []) :
    ph t = .out ∧ (cl t).copy = none ∨ ∃ st d, ph t = .held st false ∧ (cl t).copy = some (st, d) := by
  have hp := h.port t
  rw [hdown] at hp
  cases hc : (cl t).copy with
  | none =>
    have hph := hp.phase
    rw [hp.settled_of_no_copy hc rfl, hup] at hph
    cases hph' : ph t <;> simp_all [Phase.Holds]
  | some c =>
    obtain ⟨st, d⟩ := c
    obtain ⟨wb, hph, -, hwb⟩ := hp.phase_of_copy hc rfl
    rw [hup] at hwb
    cases wb with
    | false => exact .inr ⟨st, d, hph, rfl⟩
    | true => cases hwb

theorem unique_of_modified
    (hc : (cl t).copy = some (.modified, d)) (hu : u ≠ t) : (cl u).copy = none :=
  h.copy_of_out ((h.owner_of_modified hc).2.2.2 u hu)

theorem shared_of_owned {d' : LineData}
    (hc : (cl t).copy = some (.owned, d)) (hu : u ≠ t) (hc' : (cl u).copy = some (st, d')) :
    st = .shared := by
  obtain ⟨-, st₁, wb, hph, hst₁⟩ := (h.port t).held_of_copy hc
  have hne : st₁ ≠ .shared := by
    rintro rfl
    simp at hst₁
  obtain ⟨-, ⟨-, -, hread⟩ | ⟨-, -, hout⟩⟩ := h.owner_of_held hph hne
  · have hr := hread u hu
    obtain ⟨-, st₂, wb₂, hph₂, hst₂⟩ := (h.port u).held_of_copy hc'
    rw [hph₂] at hr
    obtain rfl : st₂ = .shared := by cases st₂ <;> first | rfl | cases hr
    exact (by simpa using hst₂ : CacheState.shared = st).symm
  · simp [h.copy_of_out (hout u hu)] at hc'

theorem store {G' : LineData → Prop} {V : LineData}
    (hc : (cl t).copy = some (.modified, d)) (hV : G' V) :
    LineInv dc a G' (update cl t { cl t with copy := some (.modified, V) }) hl ask ph R := by
  obtain ⟨hmod, -, hph, hout⟩ := h.owner_of_modified hc
  have hno : hl.cached = none := by
    cases hcd : hl.cached with
    | none => rfl
    | some d => exact absurd hmod (h.data.busy (by simp [hcd])).2
  refine { h with
    port := fun u => ?_
    data := ⟨by simp [hno], by simp [hno], by simp [hmod], h.data.stored⟩ }
  by_cases hu : u = t
  · subst hu; simpa using (h.port u).store hc hph hV
  · have := h.port u
    rw [hout u hu] at this
    simpa [hu, hout u hu] using this.of_out

end

/-! ### The directory takes a message -/

theorem popRequest (h : LineInv dc a G cl hl ask ph R)
    (hup : (cl t).up = m :: ms) (hm : requestOf m = some k) (ha : m.address = a) :
    LineInv dc a G (update cl t { cl t with up := ms })
      { hl with queue := hl.queue ++ [m] } ask ph R := by
  obtain ⟨hreq, -, hport⟩ := (h.port t).popRequest hup hm
  refine { h.waits.append hm ha, h with port := fun u => ?_, data := h.data.append }
  rw [queued_append]
  by_cases hu : u = t
  · subst hu
    rw [← hreq, queued_cons_self hm]
    simpa [hreq] using hport
  · rw [queued_cons_of_ne (by rw [hreq]; exact Ne.symm hu)]
    simpa [hu] using h.port u

/-- A reply leaves the channel. What it does to the entry and to the data is up to the controller. -/
theorem popReply {k : MsgType} {b : Bool} (h : LineInv dc a G cl hl ask ph R)
    (hup : (cl t).up = m :: ms) (hm : replyOf m = some (k, b)) :
    (b = true → t ∈ R) ∧ ((ph t).isWb → ask t = .fetch) ∧ ∃ p, Phase.Answers k b (ph t) p ∧
      ∀ e cached dram, Agrees dc e (update ph t p) →
        e.sharers.Covers dc.type dc.maxHwSharers (holders (update ph t p))
          (if b then R.erase t else R) →
        (dc.Fits N → ∀ u ≠ t, hl.entry.sharers.hasSharer u = true → e.sharers.hasSharer u = true) →
        DataInv G e.dstate hl.queue cached dram →
        LineInv dc a G (update cl t { cl t with up := ms })
          { hl with entry := e, cached, dram } (update ask t (ask t).answered)
          (update ph t p) (if b then R.erase t else R) := by
  obtain ⟨hpend, p, hans, hport⟩ := (h.port t).popReply hup hm
  refine ⟨fun hb => by simpa using hpend hb, fun hw => ((h.port t).wb hw).1, p, hans,
    fun e cached dram ha hc hhas hd => ?_⟩
  refine { h with port := fun u => ?_, agrees := ha, covers := hc, data := hd, fetch := ?_ }
  · by_cases hu : u = t
    · subst hu
      have hmem : decide (u ∈ if b then R.erase u else R) = (decide (u ∈ R) && !b) := by
        cases b <;> simp
      simpa [hmem] using hport
    · have hmem : decide (u ∈ if b then R.erase t else R) = decide (u ∈ R) := by
        cases b <;> simp [hu]
      simpa [hu, hmem] using h.port u
  · intro hf u hu
    by_cases hut : u = t
    · subst hut
      cases ha : ask u <;> simp [ha, Ask.answered] at hu
    · exact hhas hf u hut (h.fetch hf u (by simpa [hut] using hu))

/-! ### The directory starts a request -/

theorem calm (h : LineInv dc a G cl hl ask ph R) (hd : hl.entry.dstate = .uncached) :
    LineInv dc a G cl hl (fun _ => .none) ph ∅ := by
  obtain ⟨-, hb, hout⟩ := (agrees_uncached hd).mp h.agrees
  have hR : R = ∅ := by
    by_contra hR
    simp [(h.covers.pending hR).1] at hb
  subst hR
  refine { h with port := fun t => ?_, fetch := fun _ t ht => by cases ht }
  have hport := h.port t
  rw [hout t] at hport ⊢
  have hpend : decide (t ∈ (∅ : Finset (Fin N))) = false := by simp
  rw [hpend] at hport ⊢
  exact hport.calm

/-- The tiles are told to give the line up, with one copy of the message for each tile if replies are
expected. -/
theorem pushClear {down : Fin N → List (ShmemMsg A N)} {n : Fin N → ℕ}
    (h : LineInv dc a G cl hl (fun _ => .none) ph ∅) (hm : DownOk m) (hg : grantOf m = none)
    (hd : ∀ t, down t = hl.down t ++ replicate (n t) m)
    (hk : ∀ t, n t ≠ 0 → demandOf t m = .flushReq ∨ demandOf t m = .invReq ∧ (ph t).isReader)
    (hre : m.replyExpected = true → hl.entry.sharers.broadcasts = true ∧ ∀ t, n t = 1) :
    LineInv dc a G cl { hl with down } (fun _ => .clear) ph
      (if m.replyExpected then univ else ∅) := by
  have hkind : ∀ t ms, PortInv G t .clear (t ∈ (∅ : Finset (Fin N))) (queued hl.queue t) (cl t) ms (ph t) →
      n t ≠ 0 → demandOf t m = .flushReq ∨ demandOf t m = .invReq ∧
        ∀ st, (settled (cl t) ms).1 = some st → st = .shared := fun t ms hp hn =>
    (hk t hn).imp id fun ⟨h1, h2⟩ => ⟨h1, fun st he =>
      hp.eff_of_reader h2 he⟩
  refine { h with port := fun t => ?_, covers := ?_, fetch := fun _ t ht => by cases ht }
  · show PortInv G t .clear _ (queued hl.queue t) (cl t) (down t) (ph t)
    have hport : PortInv G t .clear (t ∈ (∅ : Finset (Fin N))) (queued hl.queue t) (cl t) (hl.down t)
        (ph t) := (h.port t).of_none
    rw [hd]
    cases hmre : m.replyExpected with
    | true =>
      have hn := (hre hmre).2 t
      have := hport.pushClear hm hg (hkind t _ hport (by omega)) fun _ => by simp
      simpa [hn, hmre] using this
    | false =>
      have key : ∀ k, (k ≠ 0 → n t ≠ 0) → PortInv G t .clear (t ∈ (∅ : Finset (Fin N)))
          (queued hl.queue t) (cl t) (hl.down t ++ replicate k m) (ph t) := by
        intro k
        induction k with
        | zero => exact fun _ => by simpa using hport
        | succ k ih =>
          intro hk
          have ih := ih fun _ => hk (by simp)
          have := ih.pushClear hm hg (hkind t _ ih (hk (by simp))) fun _ => by simp
          simpa [hmre, replicate_succ', append_assoc] using this
      simpa using key (n t) id
  · cases hmre : m.replyExpected with
    | false => simpa using h.covers
    | true => simpa using h.covers.start (hre hmre).1

theorem pushFetch (h : LineInv dc a G cl hl (fun _ => .none) ph ∅)
    (hm : m.type = .wbReq ∨ m.type = .flushReq) (hd : m.dataBuf = none) (hre : m.replyExpected = false)
    (hfit : dc.Fits N → hl.entry.sharers.hasSharer t = true) :
    LineInv dc a G cl { hl with down := update hl.down t (hl.down t ++ [m]) }
      (update (fun _ => .none) t .fetch) ph ∅ := by
  refine { h with port := fun u => ?_, fetch := fun hf u hu => ?_ }
  · by_cases hu : u = t
    · subst hu; simpa using (h.port u).pushFetch hm hd hre
    · simpa [hu] using h.port u
  · by_cases hut : u = t
    · subst hut; exact hfit hf
    · simp [hut] at hu

/-! ### The directory completes a request -/

section

variable (h : LineInv dc a G cl hl ask ph R) (hq : hl.queue = r :: q)
include h hq

variable {k : MsgType × Bool}

theorem waits_cons : Waits a (r :: q) hl.replaced := hq ▸ h.waits

theorem not_replaced (hr : requestOf r = some k) : ¬ hl.replaced :=
  (h.waits_cons hq).not_replaced hr

theorem port_front
    (hr : requestOf r = some k) : PortInv G r.requester (ask r.requester) (r.requester ∈ R)
      (k :: queued q r.requester) (cl r.requester) (hl.down r.requester) (ph r.requester) := by
  have := h.port r.requester
  rwa [hq, queued_cons_self hr] at this

end

theorem grant (h : LineInv dc a G cl hl (fun _ => .none) ph ∅) (hq : hl.queue = r :: q)
    (hr : requestOf r = some k)
    (hport : PortInv G r.requester .none (r.requester ∈ (∅ : Finset (Fin N))) (queued q r.requester)
      (cl r.requester) (hl.down r.requester ++ [m]) p)
    (ha : Agrees dc e (update ph r.requester p))
    (hc : e.sharers.Covers dc.type dc.maxHwSharers (holders (update ph r.requester p)) ∅)
    (hd : DataInv G e.dstate q none dram) :
    LineInv dc a G cl { hl with
        entry := e, queue := q, cached := none, dram,
        down := update hl.down r.requester (hl.down r.requester ++ [m]) }
      (fun _ => .none) (update ph r.requester p) ∅ :=
  { (h.waits_cons hq).next (h.not_replaced hq hr) with
    port := by
      intro u
      by_cases hu : u = r.requester
      · subst hu; simpa using hport
      · have := h.port u
        rw [hq, queued_cons_of_ne (Ne.symm hu)] at this
        simpa [hu] using this
    agrees := ha
    covers := hc
    data := hd
    fetch := fun _ t ht => by cases ht }

theorem holders_nonempty_of_owned (h : LineInv dc a G cl hl ask ph R) (hd : hl.entry.dstate = .owned) :
    (holders ph).Nonempty := by
  obtain ⟨-, o, -, -, hown, -⟩ := (agrees_owned hd).mp h.agrees
  exact ⟨o, mem_holders.mpr (holds_of_owner hown)⟩

section

variable (h : LineInv dc a G cl hl (fun _ => .none) ph ∅)
include h

variable {dram : Option LineData}

theorem grantEx (hq : hl.queue = r :: q) (hr : r.type = .exReq) (hun : hl.entry.dstate = .uncached)
    (he : e.dstate = .modified) (ho : e.owner = some r.requester) (hb : e.sharers.broadcasts = false)
    (hcov : e.sharers.Covers dc.type dc.maxHwSharers {r.requester} ∅)
    (hhas : dc.Fits N → e.sharers.hasSharer r.requester = true)
    (hdram : dram.isSome) (hm : m.type = .exRep) (hmod : m.modeled = r.modeled)
    (hdat : m.dataBuf = some d) (hG : G d) (hre : m.replyExpected = false) :
    ∃ ph', LineInv dc a G cl { hl with
        entry := e, queue := q, cached := none, dram,
        down := update hl.down r.requester (hl.down r.requester ++ [m]) }
      (fun _ => .none) ph' ∅ := by
  have hk := requestOf_exReq hr
  have hg : grantOf m = some (.exReq, r.modeled) := by simp [grantOf, hm, hmod]
  have hout := ((agrees_uncached hun).mp h.agrees).2.2
  have hport := h.port_front hq hk
  rw [hout] at hport
  have hport := hport.grantCopy (.inl hm) hg hdat hG hre
  rw [if_pos hm] at hport
  refine ⟨_, h.grant hq hk hport ((agrees_modified he).mpr ⟨hb, _, ho, hhas, .inl ⟨?_, fun u hu => ?_⟩⟩)
    ?_ ⟨by simp, by simp, by simp [he], fun _ => hdram⟩⟩
  · simp [Phase.isWriter]
  · simpa [hu] using hout u
  · rw [holders_update (by simp), holders_out hout]
    simpa using hcov

theorem grantSh (hq : hl.queue = r :: q) (hr : r.type = .shReq) (hne : hl.entry.dstate ≠ .modified)
    (he : e.dstate = if hl.entry.dstate = .uncached then .shared else hl.entry.dstate)
    (ho : e.owner = hl.entry.owner)
    (hcov : e.sharers.Covers dc.type dc.maxHwSharers (insert r.requester (holders ph)) ∅)
    (hhas : dc.Fits N → ∀ u, hl.entry.sharers.hasSharer u = true → e.sharers.hasSharer u = true)
    (hd : DataInv G e.dstate q none dram) (hm : m.type = .shRep) (hmod : m.modeled = r.modeled)
    (hdat : m.dataBuf = some d) (hG : G d) (hre : m.replyExpected = false) :
    ∃ ph', LineInv dc a G cl { hl with
        entry := e, queue := q, cached := none, dram,
        down := update hl.down r.requester (hl.down r.requester ++ [m]) }
      (fun _ => .none) ph' ∅ := by
  have hk := requestOf_shReq hr
  have hg : grantOf m = some (.shReq, r.modeled) := by simp [grantOf, hm, hmod]
  have hport := h.port_front hq hk
  have hout := hport.out_of_read rfl
  rw [hout] at hport
  have hport := hport.grantCopy (.inr hm) hg hdat hG hre
  rw [if_neg (by simp [hm])] at hport
  have hnew : (.held .shared false : Phase) ≠ .out ∧ (.held .shared false : Phase) ≠ .doomed := by simp
  refine ⟨_, h.grant hq hk hport ?_ (by rwa [holders_update hnew]) hd⟩
  have hread : ∀ u, (ph u).isReader → (update ph r.requester (.held .shared false) u).isReader := by
    intro u hu
    by_cases hur : u = r.requester
    · subst hur; simp [Phase.isReader]
    · simpa [hur] using hu
  have hpos : 0 < e.sharers.getNumSharers := hcov.num_pos ⟨_, mem_insert_self _ _⟩
  have ha := h.agrees
  rcases ha.cases with hs | hs | hs | hs
  · obtain ⟨hon, -, hall⟩ := (agrees_uncached hs).mp ha
    rw [agrees_shared (by simp [he, hs])]
    exact ⟨ho.trans hon, hpos, fun u => hread u (reader_of_out (hall u))⟩
  · obtain ⟨hon, -, hall⟩ := (agrees_shared hs).mp ha
    rw [agrees_shared (by simp [he, hs])]
    exact ⟨ho.trans hon, hpos, fun u => hread u (hall u)⟩
  · obtain ⟨-, o, hoo, hfit, hown, hall⟩ := (agrees_owned hs).mp ha
    have hor : o ≠ r.requester := by
      rintro rfl
      rw [hout] at hown
      cases hown
    have hlt : 1 < N := Sharers.one_lt_of_notMem (t := r.requester) (h.holders_nonempty_of_owned hs)
      (by simp [mem_holders, hout])
    rw [agrees_owned (by simp [he, hs])]
    exact ⟨fun _ => hlt, o, ho.trans hoo, fun hf => hhas hf o (hfit hf), by simpa [hor] using hown,
      fun u hu => hread u (hall u hu)⟩
  · exact absurd hs hne

/-- A sharer or the owner that is the only tile counted may write. The requester of a SHARED line may
have lost its copy, but then the entry reports a tile that is no sharer. -/
theorem upgrade (hq : hl.queue = r :: q)
    (hr : r.type = .exReq) (hcd : hl.cached = none) (h1 : hl.entry.sharers.getNumSharers = 1)
    (hwho : hl.entry.dstate = .shared ∧ hl.entry.sharers.hasSharer r.requester = true ∨
      hl.entry.dstate = .owned ∧ hl.entry.owner = some r.requester)
    (hm : m.type = .upgradeRep) (hmod : m.modeled = r.modeled) (hdat : m.dataBuf = none)
    (hre : m.replyExpected = false) :
    ∃ ph', LineInv dc a G cl { hl with
        entry := ⟨.modified, some r.requester, hl.entry.sharers⟩, queue := q,
        down := update hl.down r.requester (hl.down r.requester ++ [m]) }
      (fun _ => .none) ph' ∅ := by
  have hk := requestOf_exReq hr
  have hg : grantOf m = some (.exReq, r.modeled) := by simp [grantOf, hm, hmod]
  have hport := h.port_front hq hk
  have hidle := hport.phase_of_queued
  -- one tile is counted, and the requester has nothing or holds a copy it may read
  obtain ⟨hb, hcard, hfit, hread, hmine⟩ : hl.entry.sharers.broadcasts = false ∧ (holders ph).card = 1 ∧
      (dc.Fits N → hl.entry.sharers.hasSharer r.requester = true) ∧
      (∀ u ≠ r.requester, (ph u).isReader) ∧
      (ph r.requester = .out ∧ hl.entry.sharers.hasSharer r.requester = true ∨
        ph r.requester = .held .shared false ∨ ph r.requester = .held .owned false) := by
    rcases hwho with ⟨hd, hhas⟩ | ⟨hd, how⟩
    · have hall := ((agrees_shared hd).mp h.agrees).2.2
      obtain ⟨hb, hcard⟩ := h.covers.single hhas h1
      refine ⟨hb, hcard, fun _ => hhas, fun u _ => hall u, ?_⟩
      rcases hidle with hp | ⟨st, hp⟩
      · exact .inl ⟨hp, hhas⟩
      · have := hall r.requester
        rw [hp] at this
        obtain rfl : st = .shared := by cases st <;> first | rfl | cases this
        exact .inr (.inl hp)
    · obtain ⟨hlt, o, ho, hfit, hown, hall⟩ := (agrees_owned hd).mp h.agrees
      obtain rfl : o = r.requester := Option.some.inj (ho.symm.trans how)
      have hb : hl.entry.sharers.broadcasts = false := by
        by_contra hb
        have hb : hl.entry.sharers.broadcasts = true := by simpa using hb
        have hlt := hlt hb
        have := h.covers.num_broadcast hb
        simp at this
        omega
      refine ⟨hb, ?_, hfit, hall, ?_⟩
      · have := h.covers.num_eq hb
        omega
      · rcases hidle with hp | ⟨st, hp⟩
        · rw [hp] at hown; cases hown
        · rw [hp] at hown
          obtain rfl : st = .owned := by cases st <;> first | rfl | cases hown
          exact .inr (.inr hp)
  have hport := hport.upgrade hm hg hdat hre (by rcases hmine with ⟨hp, -⟩ | hp | hp <;> simp [hp])
  have hstored := h.data.stored (.inl (by rcases hwho with ⟨hd, -⟩ | ⟨hd, -⟩ <;> simp [hd]))
  have hd' : DataInv G .modified q none hl.dram := ⟨by simp, by simp, by simp, fun _ => hstored⟩
  by_cases hout : ph r.requester = .out
  · -- the upgrade will find no copy
    have hhas : hl.entry.sharers.hasSharer r.requester = true := by
      rcases hmine with ⟨-, hhas⟩ | hp | hp
      · exact hhas
      · simp [hp] at hout
      · simp [hp] at hout
    rw [if_pos hout] at hport
    have := h.grant (e := ⟨.modified, some r.requester, hl.entry.sharers⟩) hq hk hport
      ((agrees_modified rfl).mpr ⟨hb, _, rfl, hfit, .inr ⟨by simp, fun hf => ?_, fun u hu => ?_⟩⟩)
      (by rw [holders_congr (by simp [hout])]; exact h.covers) hd'
    · exact ⟨_, by simpa [hcd] using this⟩
    · have := h.covers.mem_of_has hf hhas
      simp [mem_holders, hout] at this
    · simpa [hu] using hread u hu
  · rw [if_neg hout] at hport
    have hin : r.requester ∈ holders ph := by
      rw [mem_holders]
      rcases hmine with ⟨hp, -⟩ | hp | hp
      · exact absurd hp hout
      · simp [hp]
      · simp [hp]
    have honly : ∀ u ≠ r.requester, ph u = .out := fun u hu =>
      out_of_reader (hread u hu) fun hhold => hu
        (card_le_one.mp hcard.le u (mem_holders.mpr hhold) _ hin)
    have := h.grant (e := ⟨.modified, some r.requester, hl.entry.sharers⟩) hq hk hport
      ((agrees_modified rfl).mpr ⟨hb, _, rfl, hfit, .inl ⟨by simp [Phase.isWriter], fun u hu => ?_⟩⟩)
      (by rw [holders_congr (by simpa using mem_holders.mp hin)]; exact h.covers) hd'
    · exact ⟨_, by simpa [hcd] using this⟩
    · simpa [hu] using honly u hu

/-- The controller replaces the sharer set of an entry by one that stands for the same tiles. -/
theorem setSharers {s : Sharers N} (hd : hl.entry.dstate = .shared ∨ hl.entry.dstate = .owned)
    (hcov : s.Covers dc.type dc.maxHwSharers (holders ph) ∅)
    (hb : hl.entry.sharers.broadcasts = true → s.broadcasts = true)
    (hlt : hl.entry.dstate = .owned → s.broadcasts = true → 1 < N)
    (hhas : dc.Fits N → ∀ u, hl.entry.sharers.hasSharer u = true →
      s.hasSharer u = true) (hN : 0 < N) :
    LineInv dc a G cl { hl with entry := { hl.entry with sharers := s } } (fun _ => .none) ph ∅ := by
  refine { h with agrees := ?_, covers := hcov, fetch := fun _ t ht => by cases ht }
  rcases hd with hd | hd
  · obtain ⟨ho, hpos, hall⟩ := (agrees_shared hd).mp h.agrees
    rw [agrees_shared (by exact hd)]
    refine ⟨ho, ?_, hall⟩
    rcases (holders ph).eq_empty_or_nonempty with hS | hS
    · have hb' : hl.entry.sharers.broadcasts = true := by
        by_contra hb'
        have := h.covers.num_eq (by simpa using hb')
        simp [hS] at this
        omega
      exact hcov.num_pos_of_broadcasts hN (hb hb')
    · exact hcov.num_pos hS
  · obtain ⟨-, o, ho, hfit, hown⟩ := (agrees_owned hd).mp h.agrees
    rw [agrees_owned (by exact hd)]
    exact ⟨hlt hd, o, ho, fun hf => hhas hf o (hfit hf), hown⟩

end

theorem pending_eq_empty (h : LineInv dc a G cl hl ask ph R) (hask : ∀ t, ask t ≠ .clear) : R = ∅ := by
  ext t
  simp only [notMem_empty, iff_false]
  exact fun ht => hask t ((h.port t).pending (by simpa using ht))

theorem nullify (h : LineInv dc a G cl hl ask ph R) (hq : hl.queue = [])
    (hr : r.type = .nullifyReq) (ha : r.address = a) (hP : P) :
    LineInv dc a G cl { hl with queue := [r], replaced := P } ask ph R := by
  have hd := h.data.append (m := r)
  rw [hq] at hd
  refine { h with port := fun u => ?_, data := hd, requests := ?_, tail := ?_, replaced := ?_ }
  · have := h.port u
    rwa [hq, ← queued_cons_of_none (r := r) (by simp [requestOf, hr])] at this
  · simp [ha, hr]
  · simp
  · simpa [hr] using hP

theorem nullified (h : LineInv dc a G cl hl (fun _ => .none) ph ∅)
    (hq : hl.queue = r :: q) (hr : r.type = .nullifyReq) (hun : hl.entry.dstate = .uncached)
    (he : e.dstate = .uncached) (ho : e.owner = none) (hb : e.sharers.broadcasts = false)
    (hcov : e.sharers.Covers dc.type dc.maxHwSharers ∅ ∅) (hd : G (dram.getD zeroLine)) (hP : ¬ P) :
    LineInv dc a G cl { hl with entry := e, queue := q, replaced := P, cached := none, dram }
      (fun _ => .none) ph ∅ := by
  have hout := ((agrees_uncached hun).mp h.agrees).2.2
  refine { (h.waits_cons hq).next hP with
    port := fun u => ?_
    agrees := (agrees_uncached he).mpr ⟨ho, hb, hout⟩
    covers := by rwa [holders_out hout]
    data := ⟨by simp, by simp, fun _ _ => hd, by simp [he]⟩
    fetch := fun _ t ht => by cases ht }
  have := h.port u
  rwa [hq, queued_cons_of_none (by simp [requestOf, hr])] at this

end LineInv

end Graphite.Mosi
