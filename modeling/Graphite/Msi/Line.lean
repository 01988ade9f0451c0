import Graphite.Msi.Port

/-! # The MSI protocol of one line

`LineInv` ties the phases of the clients to the directory entry of the line, its request queue and the
DRAM. Its lemmas are the moves of the protocol: those of a client, and those of the directory when it
takes a request or a reply, sends out demands, or grants the request at the front of its queue.
-/

namespace Graphite.Msi

open Outcome SetAssoc PrL2 Function List Phase Option Finset

variable {A : Type} {N : ℕ}

/-- The tiles the directory has to count as sharers. -/
def holders (ph : Fin N → Phase) : Finset (Fin N) := univ.filter fun t => ph t ≠ .out

/-- The phases with no demand or reply the directory has not dealt with. -/
def Phase.isQuiet (p : Phase) : Bool := p.isReader || p = .owning || p = .flushed

def Agrees (dc : DirectoryConfig A) (e : DirectoryEntry N) (ph : Fin N → Phase) : Prop :=
  match e.dstate with
  | .uncached => ∀ t, ph t = .out
  | .shared => ∀ t, (ph t).isReader
  | .modified => ∃ o, e.owner = some o ∧ (ph o).isOwner ∧ (∀ t ≠ o, ph t = .out) ∧
      (dc.Fits N → e.sharers.hasSharer o = true)
  | _ => False

/-- Line `a` with contents `V`. -/
structure LineInv (dc : DirectoryConfig A) (a : A) (V : LineData) (cl : Fin N → Client A N)
    (h : HomeLine A N (ShmemMsg A N)) (ph : Fin N → Phase) : Prop where
  port : ∀ t, PortInv V t (queued h.queue t) (cl t) (h.down t) (ph t)
  agrees : Agrees dc h.entry ph
  rep : h.entry.sharers.Rep dc.type dc.maxHwSharers (holders ph)
  data : h.entry.dstate ≠ .modified → h.cached.getD (h.dram.getD zeroLine) = V
  stored : h.entry.dstate ≠ .uncached ∨ h.cached.isSome → h.dram.isSome
  wb : ∀ t, (ph t).isWb → ∃ r q, h.queue = r :: q ∧ r.type = .shReq
  busy : ∀ t, ph t = .owningFlush → h.queue ≠ []
  requests : ∀ r ∈ h.queue, r.address = a ∧ ((requestOf r).isSome ∨ r.type = .nullifyReq)
  tail : ∀ r ∈ h.queue.tail, (requestOf r).isSome
  replaced : h.replaced ↔ ∃ r q, h.queue = r :: q ∧ r.type = .nullifyReq

section Phases

variable {dc : DirectoryConfig A} {e : DirectoryEntry N} {ph : Fin N → Phase} {t : Fin N} {p : Phase}

theorem agrees_uncached (h : e.dstate = .uncached) : Agrees dc e ph ↔ ∀ t, ph t = .out := by
  simp [Agrees, h]

theorem agrees_shared (h : e.dstate = .shared) : Agrees dc e ph ↔ ∀ t, (ph t).isReader := by
  simp [Agrees, h]

theorem agrees_modified (h : e.dstate = .modified) : Agrees dc e ph ↔
    ∃ o, e.owner = some o ∧ (ph o).isOwner ∧ (∀ t ≠ o, ph t = .out) ∧
      (dc.Fits N → e.sharers.hasSharer o = true) := by
  simp [Agrees, h]

theorem mem_holders : t ∈ holders ph ↔ ph t ≠ .out := by simp [holders]

theorem holders_out (h : ∀ t, ph t = .out) : holders ph = ∅ := by
  ext t; simp [mem_holders, h]

theorem holders_update_out : holders (update ph t .out) = (holders ph).erase t := by
  ext u
  by_cases hu : u = t <;> simp [mem_holders, hu]

theorem holders_update (hp : p ≠ .out) : holders (update ph t p) = insert t (holders ph) := by
  ext u
  by_cases hu : u = t <;> simp [mem_holders, hu, hp]

theorem Phase.Leaves.out_iff {p' : Phase} (h : Phase.Leaves p p') : p' = .out ↔ p = .out := by
  cases h with
  | stay => rfl
  | drop => simp
  | dropWroteBack => simp
  | flush hp => rcases hp with rfl | rfl | rfl <;> simp
  | writeBack => simp

theorem holders_leaves (h : Phase.Leaves (ph t) p) : holders (update ph t p) = holders ph := by
  ext u
  by_cases hu : u = t
  · subst hu; simp [mem_holders, h.out_iff]
  · simp [mem_holders, hu]

theorem leaves_update (h : Phase.Leaves (ph t) p) (u : Fin N) :
    Phase.Leaves (ph u) (update ph t p u) := by
  by_cases hu : u = t
  · subst hu; simpa using h
  · simpa [hu] using .stay _

theorem Phase.Leaves.reader {p' : Phase} (h : Phase.Leaves p p') (hr : p.isReader) :
    p'.isReader := by
  cases h with
  | stay => exact hr
  | drop => rfl
  | dropWroteBack => cases hr
  | flush hp => rcases hp with rfl | rfl | rfl <;> cases hr
  | writeBack => cases hr

theorem Phase.Leaves.owner {p' : Phase} (h : Phase.Leaves p p') (ho : p.isOwner) : p'.isOwner := by
  cases h with
  | stay => exact ho
  | drop => cases ho
  | dropWroteBack => rfl
  | flush hp => rfl
  | writeBack => rfl

theorem Phase.Leaves.wb {p' : Phase} (h : Phase.Leaves p p') (hw : p'.isWb) : p.isWb := by
  cases h with
  | stay => exact hw
  | drop => cases hw
  | dropWroteBack => rfl
  | flush hp => cases hw
  | writeBack => rfl

theorem Agrees.leaves {ph' : Fin N → Phase} (h : Agrees dc e ph)
    (hp : ∀ u, Phase.Leaves (ph u) (ph' u)) : Agrees dc e ph' := by
  unfold Agrees at h ⊢
  cases hd : e.dstate <;> rw [hd] at h <;> simp only at h ⊢
  case uncached => exact fun u => (hp u).out_iff.mpr (h u)
  case shared => exact fun u => (hp u).reader (h u)
  case modified =>
    obtain ⟨o, ho, hown, hout, hfit⟩ := h
    exact ⟨o, ho, (hp o).owner hown, fun u hu => (hp u).out_iff.mpr (hout u hu), hfit⟩

end Phases

namespace LineInv

variable {dc : DirectoryConfig A} {a : A} {V : LineData} {cl : Fin N → Client A N} {t : Fin N}
  {hl : HomeLine A N (ShmemMsg A N)} {ph : Fin N → Phase} {p : Phase} {c : Client A N} {ms q : List (ShmemMsg A N)}
  {m r : ShmemMsg A N} {e : DirectoryEntry N} {P : Prop}

theorem client (h : LineInv dc a V cl hl ph) (hp : Phase.Leaves (ph t) p)
    (hc : PortInv V t (queued hl.queue t) c ms p) :
    LineInv dc a V (update cl t c) { hl with down := update hl.down t ms } (update ph t p) := by
  have hps := leaves_update hp
  refine { h with
    port := fun u => ?_
    agrees := h.agrees.leaves hps
    rep := by rw [holders_leaves hp]; exact h.rep
    wb := fun u hw => h.wb u ((hps u).wb hw)
    busy := fun u hf => h.busy u ?_ }
  · by_cases hu : u = t
    · subst hu; simpa using hc
    · simpa [hu] using h.port u
  · have hu := hps u
    rw [hf] at hu
    generalize ph u = p₀ at hu
    cases hu with
    | stay => rfl

theorem client' (h : LineInv dc a V cl hl ph) (hp : Phase.Leaves (ph t) p)
    (hc : PortInv V t (queued hl.queue t) c (hl.down t) p) :
    LineInv dc a V (update cl t c) hl (update ph t p) := by
  simpa using h.client hp hc

theorem start {dram : Option LineData} (he : e.dstate = .uncached)
    (hrep : e.sharers.Rep dc.type dc.maxHwSharers ∅) (hP : ¬ P) :
    LineInv dc a (dram.getD zeroLine) (fun _ => ⟨none, none, []⟩) ⟨e, P, [], none, dram, fun _ => []⟩
      fun _ => .out where
  port t := ⟨by simp [Phase.Holds, settled], by simp, by simp, by simp, by simp, by simp, by simp⟩
  agrees := (agrees_uncached he).mpr fun _ => rfl
  rep := by rwa [holders_out fun _ => rfl]
  data _ := rfl
  stored := by simp [he]
  wb t ht := by cases ht
  busy t ht := by cases ht
  requests := by simp
  tail := by simp
  replaced := by simp [hP]

theorem waits (h : LineInv dc a V cl hl ph) : Waits a hl.queue hl.replaced :=
  ⟨h.requests, h.tail, h.replaced⟩

/-! ### What a copy says -/

section

variable (h : LineInv dc a V cl hl ph)
include h

variable {d : LineData}

theorem copy_eq {st : CacheState}
    (hc : (cl t).copy = some (st, d)) : d = V ∧ (st = .shared ∨ st = .modified) := by
  obtain ⟨hd, hst⟩ := (h.port t).phase_of_copy hc
  exact ⟨hd, hst.imp And.left And.left⟩

theorem owner_of_modified (hc : (cl t).copy = some (.modified, d)) :
    hl.entry.dstate = .modified ∧ hl.entry.owner = some t ∧ ∀ u ≠ t, ph u = .out := by
  have ht : (ph t).isOwner := (((h.port t).store hc : _ ∧ PortInv V _ _ _ _ _)).1
  have hne : ph t ≠ .out := fun e => by rw [e] at ht; cases ht
  have ha := h.agrees
  unfold Agrees at ha
  cases hd : hl.entry.dstate <;> rw [hd] at ha <;> simp only at ha
  case uncached => exact absurd (ha t) hne
  case shared =>
    have hr := ha t
    cases hp : ph t <;> simp [hp, isReader, isOwner] at hr ht
  case modified =>
    obtain ⟨o, ho, -, hout, -⟩ := ha
    obtain rfl : o = t := by
      by_contra hot
      exact hne (hout t (Ne.symm hot))
    exact ⟨rfl, ho, hout⟩

theorem copy_of_out (ht : ph t = .out) : (cl t).copy = none := by
  cases hc : (cl t).copy with
  | none => rfl
  | some x =>
    have hp := (h.port t).phase
    rw [ht, ((h.port t).of_copy hc).2.2.2.2] at hp
    simp [Phase.Holds] at hp

theorem not_uncached {st : CacheState} (hc : (cl t).copy = some (st, d)) :
    hl.entry.dstate ≠ .uncached := by
  intro hd
  simp [h.copy_of_out ((agrees_uncached hd).mp h.agrees t)] at hc

theorem copies_subset : (univ.filter fun t => (cl t).copy ≠ none) ⊆ holders ph :=
  fun _ hu => mem_holders.mpr fun ho => (Finset.mem_filter.mp hu).2 (h.copy_of_out ho)

theorem at_rest (hup : (cl t).up = []) (hdown : hl.down t = []) :
    ph t = .out ∧ (cl t).copy = none ∨ ph t = .sharing ∧ (cl t).copy = some (.shared, V) ∨
      ph t = .owning ∧ (cl t).copy = some (.modified, V) := by
  have hp := (h.port t).phase
  rw [hup, hdown] at hp
  cases hph : ph t <;> simp_all [Phase.Holds, settled]

theorem unique_of_modified {u : Fin N}
    (hc : (cl t).copy = some (.modified, d)) (hu : u ≠ t) : (cl u).copy = none :=
  h.copy_of_out ((h.owner_of_modified hc).2.2 u hu)

/-- The entry of a line is MODIFIED only while its newest contents are in a cache or on the way. -/
theorem not_modified (hc : ∀ t d, (cl t).copy ≠ some (.modified, d))
    (hd : ∀ t, ∀ m ∈ hl.down t, m.type ≠ .exRep)
    (hu : ∀ t, ∀ m ∈ (cl t).up, m.type ≠ .flushRep ∧ m.type ≠ .wbRep) :
    hl.entry.dstate ≠ .modified := by
  intro hmod
  obtain ⟨o, -, hown, -⟩ := (agrees_modified hmod).mp h.agrees
  have heff : (settled (cl o) (hl.down o)).1 ≠ some (.modified, V) := by
    intro he
    rcases Link.eff_origin he with hcp | ⟨m, hm, f, c', hf, hfc⟩
    · exact hc o V hcp
    · have := hd o m hm
      unfold install at hf
      split at hf
      · contradiction
      · obtain rfl := some.inj hf
        simp at hfc
      · cases hf
  have hrel : ∀ k d, (k, d) ∈ (cl o).up.filterMap replyOf → k ≠ .flushRep ∧ k ≠ .wbRep := by
    intro k d hk
    obtain ⟨m, hm, hr⟩ := mem_filterMap.mp hk
    unfold replyOf at hr
    split at hr
    · obtain ⟨rfl, -⟩ := Prod.mk.inj (some.inj hr)
      exact hu o m hm
    · obtain ⟨rfl, -⟩ := Prod.mk.inj (some.inj hr)
      exact hu o m hm
    · obtain ⟨rfl, -⟩ := Prod.mk.inj (some.inj hr)
      exact hu o m hm
    · cases hr
  have hp := (h.port o).phase
  cases hph : ph o <;> simp only [hph, isOwner, Phase.Holds] at hown hp
  case owning | owningFlush | owningWb => exact heff hp.1
  case wroteBack => exact (hrel .wbRep (some V) (by simp [hp.2.2])).2 rfl
  case wroteBackLeft => exact (hrel .wbRep (some V) (by simp [hp.2])).2 rfl
  case flushed => exact (hrel .flushRep (some V) (by simp [hp.2])).1 rfl
  all_goals cases hown

theorem store {d V' : LineData} (hc : (cl t).copy = some (.modified, d)) :
    LineInv dc a V' (update cl t { cl t with copy := some (.modified, V') }) hl ph := by
  obtain ⟨hmod, -, hout⟩ := h.owner_of_modified hc
  refine { h with port := fun u => ?_, data := fun hne => absurd hmod hne }
  by_cases hu : u = t
  · subst hu; simpa using ((h.port u).store hc).2
  · have := h.port u
    rw [hout u hu] at this
    simpa [hu, hout u hu] using this.of_out

end

/-! ### The directory takes a message -/

section

variable (h : LineInv dc a V cl hl ph)
include h

theorem popRequest {k : MsgType × Bool} (hup : (cl t).up = m :: ms)
    (hm : requestOf m = some k) (ha : m.address = a) :
    LineInv dc a V (update cl t { cl t with up := ms })
      { hl with queue := hl.queue ++ [m] } ph := by
  obtain ⟨hreq, hport⟩ := (h.port t).popRequest hup hm
  refine { h.waits.append hm ha, h with
    port := fun u => ?_, wb := fun u hu => ?_, busy := fun u hu => by simp }
  · rw [queued_append]
    by_cases hu : u = t
    · subst hu
      rw [← hreq, queued_cons_self hm]
      simpa [hreq] using hport
    · rw [queued_cons_of_ne (by rw [hreq]; exact Ne.symm hu)]
      simpa [hu] using h.port u
  · obtain ⟨r, q, hq, hr⟩ := h.wb u hu
    exact ⟨r, q ++ [m], by simp [hq], hr⟩

theorem dstate_of_phase : ((ph t).isReader ∧ ph t ≠ .out → hl.entry.dstate = .shared) ∧
      ((ph t).isOwner → hl.entry.dstate = .modified ∧ hl.entry.owner = some t ∧
        (∀ u ≠ t, ph u = .out) ∧
        (dc.Fits N → hl.entry.sharers.hasSharer t = true)) := by
  have ha := h.agrees
  unfold Agrees at ha
  cases hd : hl.entry.dstate <;> rw [hd] at ha <;> simp only at ha
  case uncached => simp [ha, isOwner]
  case shared =>
    have hr := ha t
    cases hp : ph t <;> simp_all [isReader, isOwner]
  case modified =>
    obtain ⟨o, ho, hown, hout, hfit⟩ := ha
    by_cases hto : t = o
    · subst hto
      refine ⟨fun hr => ?_, fun _ => ⟨rfl, ho, hout, hfit⟩⟩
      cases hp : ph t <;> simp_all [isReader, isOwner]
    · simp [hout t hto, isOwner]

theorem popInvRep (hup : (cl t).up = m :: ms)
    (hm : m.type = .invRep) : hl.entry.dstate = .shared ∧ t ∈ holders ph ∧
      ∀ e : DirectoryEntry N, e.sharers.Rep dc.type dc.maxHwSharers ((holders ph).erase t) →
        e.dstate = (if e.sharers.getNumSharers = 0 then .uncached else .shared) →
        LineInv dc a V (update cl t { cl t with up := ms }) { hl with entry := e }
          (update ph t .out) := by
  obtain ⟨hph, hport⟩ : ph t = .sharedLeft ∧
      PortInv V t (queued hl.queue t) { cl t with up := ms } (hl.down t) .out := by
    simpa [hm] using (h.port t).popReply hup (replyOf_eq (by simp [hm]))
  have hsh : hl.entry.dstate = .shared := (h.dstate_of_phase (t := t)).1 (by simp [hph, isReader])
  have hread := (agrees_shared hsh).mp h.agrees
  refine ⟨hsh, by simp [mem_holders, hph], fun e hrep he => ?_⟩
  refine ⟨fun u => ?_, ?_, by rwa [holders_update_out], fun _ => h.data (by simp [hsh]),
    fun _ => h.stored (.inl (by simp [hsh])), ?_, ?_, h.requests, h.tail, h.replaced⟩
  · by_cases hu : u = t
    · subst hu; simpa using hport
    · simpa [hu] using h.port u
  · by_cases h0 : e.sharers.getNumSharers = 0
    · -- no sharer is left
      rw [agrees_uncached (by simp [he, h0])]
      rw [hrep.num_eq] at h0
      have hemp : (holders ph).erase t = ∅ := card_eq_zero.mp (by exact_mod_cast h0)
      rw [← holders_update_out] at hemp
      intro u
      by_contra hu
      simpa [hemp] using mem_holders.mpr hu
    · rw [agrees_shared (by simp [he, h0])]
      intro u
      by_cases hu : u = t
      · subst hu; simp [isReader]
      · simpa [hu] using hread u
  · intro u hu
    by_cases hut : u = t
    · subst hut; simp [isWb] at hu
    · exact h.wb u (by simpa [hut] using hu)
  · intro u hu
    by_cases hut : u = t
    · subst hut; simp at hu
    · exact h.busy u (by simpa [hut] using hu)

theorem popFlushRep (hup : (cl t).up = m :: ms) (hm : m.type = .flushRep) :
    hl.entry.dstate = .modified ∧ holders ph = {t} ∧ m.dataBuf = some V ∧ hl.dram.isSome ∧
      ∀ e : DirectoryEntry N, e.sharers.Rep dc.type dc.maxHwSharers ∅ → e.dstate = .uncached →
        LineInv dc a V (update cl t { cl t with up := ms })
          { hl with entry := e, cached := some V } fun _ => .out := by
  obtain ⟨hdat, hph, hport⟩ : m.dataBuf = some V ∧ ph t = .flushed ∧
      PortInv V t (queued hl.queue t) { cl t with up := ms } (hl.down t) .out := by
    simpa [hm] using (h.port t).popReply hup (replyOf_eq (by simp [hm]))
  obtain ⟨hmod, -, hout, -⟩ := h.dstate_of_phase.2 (by simp [hph, isOwner] : (ph t).isOwner)
  refine ⟨hmod, ?_, hdat, h.stored (.inl (by simp [hmod])), fun e hrep he => ?_⟩
  · ext u
    by_cases hu : u = t
    · subst hu; simp [mem_holders, hph]
    · simp [mem_holders, hu, hout u hu]
  refine ⟨fun u => ?_, (agrees_uncached he).mpr fun _ => rfl, by rwa [holders_out fun _ => rfl], fun _ => rfl,
    fun _ => h.stored (.inl (by simp [hmod])), by simp [isWb], by simp, h.requests, h.tail,
    h.replaced⟩
  by_cases hu : u = t
  · subst hu; simpa using hport
  · have := h.port u
    rw [hout u hu] at this
    simpa [hu] using this

theorem popWbRep (hup : (cl t).up = m :: ms) (hm : m.type = .wbRep) : hl.entry.dstate = .modified ∧
      (dc.Fits N → hl.entry.sharers.hasSharer t = true) ∧
      m.dataBuf = some V ∧
      (∃ r q, hl.queue = r :: q ∧ r.type = .shReq) ∧ hl.dram.isSome ∧
      ∀ e : DirectoryEntry N, e.sharers = hl.entry.sharers → e.dstate = .shared →
        ∃ ph', LineInv dc a V (update cl t { cl t with up := ms })
          { hl with entry := e, cached := some V } ph' := by
  obtain ⟨hdat, p, hph, hport⟩ : m.dataBuf = some V ∧ ∃ p, (ph t = .wroteBack ∧ p = .sharing ∨
      ph t = .wroteBackLeft ∧ p = .sharedLeft) ∧
      PortInv V t (queued hl.queue t) { cl t with up := ms } (hl.down t) p := by
    simpa [hm] using (h.port t).popReply hup (replyOf_eq (by simp [hm]))
  have hown : (ph t).isOwner ∧ (ph t).isWb ∧ ph t ≠ .out := by
    rcases hph with ⟨hph, -⟩ | ⟨hph, -⟩ <;> simp [hph, isOwner, isWb]
  have hp : p.isReader ∧ p ≠ .out ∧ p.isWb = false ∧ p ≠ .owningFlush := by
    rcases hph with ⟨-, rfl⟩ | ⟨-, rfl⟩ <;> simp [isReader, isWb]
  obtain ⟨hmod, -, hout, hfit⟩ := h.dstate_of_phase.2 hown.1
  have hdram := h.stored (.inl (by simp [hmod]))
  refine ⟨hmod, hfit, hdat, h.wb t hown.2.1, hdram, fun e hs he => ⟨update ph t p, ?_⟩⟩
  refine ⟨fun u => ?_, ?_, ?_, fun _ => rfl, fun _ => hdram, ?_, ?_, h.requests, h.tail, h.replaced⟩
  · by_cases hu : u = t
    · subst hu; simpa using hport
    · simpa [hu] using h.port u
  · rw [agrees_shared he]
    intro u
    by_cases hu : u = t
    · subst hu; simpa using hp.1
    · simp [hu, hout u hu, isReader]
  · rw [hs, holders_update hp.2.1, insert_eq_of_mem (mem_holders.mpr hown.2.2)]
    exact h.rep
  · intro u hu
    by_cases hut : u = t
    · subst hut; simp [hp.2.2.1] at hu
    · simp [hut, hout u hut, isWb] at hu
  · intro u hu
    by_cases hut : u = t
    · subst hut; simp [hp.2.2.2] at hu
    · simp [hut, hout u hut] at hu

end

/-! ### The directory starts a request -/

section

variable (h : LineInv dc a V cl hl ph)
include h

theorem quiet_of_idle (hq : hl.queue = []) (t : Fin N) : (ph t).isQuiet := by
  have hw := h.wb t
  have hb := h.busy t
  simp only [hq, reduceCtorEq, false_and, exists_false, imp_false, ne_eq, not_true_eq_false] at hw hb
  cases hp : ph t <;> simp_all [isQuiet, isReader, isWb]

theorem quiet_of_dstate (hd : hl.entry.dstate ≠ .modified) (t : Fin N) : (ph t).isQuiet := by
  have ha := h.agrees
  unfold Agrees at ha
  cases hs : hl.entry.dstate <;> rw [hs] at ha <;> simp only at ha
  case uncached => simp [ha t, isQuiet, isReader]
  case shared => simp [isQuiet, ha t]
  case modified => exact absurd hs hd

theorem setData {cached dram : Option LineData}
    (hd : hl.entry.dstate ≠ .modified → cached.getD (dram.getD zeroLine) = V)
    (hs : hl.entry.dstate ≠ .uncached ∨ cached.isSome → dram.isSome) :
    LineInv dc a V cl { hl with cached, dram } ph :=
  { h with data := hd, stored := hs }

theorem pushInv {down : Fin N → List (ShmemMsg A N)}
    (hs : hl.entry.dstate = .shared) (hm : m.type = .invReq)
    (hd : ∀ t, ∃ n, down t = hl.down t ++ replicate n m) :
    LineInv dc a V cl { hl with down } ph :=
  { h with
    port := by
      intro t
      obtain ⟨n, hn⟩ := hd t
      have key : ∀ n, PortInv V t (queued hl.queue t) (cl t) (hl.down t ++ replicate n m)
          (ph t) := by
        intro n
        induction n with
        | zero => simpa using h.port t
        | succ n ih =>
          rw [replicate_succ', ← append_assoc]
          exact ih.pushInv ((agrees_shared hs).mp h.agrees t) hm
      show PortInv V t (queued hl.queue t) (cl t) (down t) (ph t)
      rw [hn]
      exact key n }

theorem demand {o : Fin N} (hmod : hl.entry.dstate = .modified) (ho : hl.entry.owner = some o)
    (hport : PortInv V o (queued hl.queue o) (cl o) (hl.down o ++ [m]) p) (hp : p.isOwner)
    (hwb : p.isWb → ∃ r q, hl.queue = r :: q ∧ r.type = .shReq)
    (hfl : p = .owningFlush → hl.queue ≠ []) :
    LineInv dc a V cl { hl with down := update hl.down o (hl.down o ++ [m]) } (update ph o p) := by
  obtain ⟨o', ho', hown, hout, hfit⟩ := (agrees_modified hmod).mp h.agrees
  obtain rfl : o = o' := some.inj (ho.symm.trans ho')
  have hpo : p ≠ .out := fun e => by subst e; cases hp
  have hmem : o ∈ holders ph := mem_holders.mpr fun e => by rw [e] at hown; cases hown
  refine ⟨fun u => ?_, (agrees_modified hmod).mpr ⟨o, ho, by simpa using hp, fun u hu => ?_, hfit⟩,
    ?_, h.data, h.stored, fun u hu => ?_, fun u hu => ?_, h.requests, h.tail, h.replaced⟩
  · by_cases hu : u = o
    · subst hu; simpa using hport
    · simpa [hu] using h.port u
  · simpa [hu] using hout u hu
  · rw [holders_update hpo, insert_eq_of_mem hmem]; exact h.rep
  · by_cases huo : u = o
    · subst huo; exact hwb (by simpa using hu)
    · exact h.wb u (by simpa [huo] using hu)
  · by_cases huo : u = o
    · subst huo; exact hfl (by simpa using hu)
    · exact h.busy u (by simpa [huo] using hu)

end

section

variable (h : LineInv dc a V cl hl ph) (hmod : hl.entry.dstate = .modified)
include h hmod

variable {o : Fin N}

section

variable (ho : hl.entry.owner = some o) (hquiet : ∀ t, (ph t).isQuiet)
include ho hquiet

theorem owner_of_quiet : ph o = .owning ∨ ph o = .flushed := by
  obtain ⟨o', ho', hown, -⟩ := (agrees_modified hmod).mp h.agrees
  obtain rfl : o = o' := some.inj (ho.symm.trans ho')
  have hq := hquiet o
  cases hp : ph o <;> simp_all [isQuiet, isReader, isOwner]

theorem pushFlush (hq : hl.queue ≠ []) (hm : m.type = .flushReq) : ∃ ph', LineInv dc a V cl
      { hl with down := update hl.down o (hl.down o ++ [m]) } ph' := by
  have hp := h.owner_of_quiet hmod ho hquiet
  refine ⟨_, h.demand hmod ho ((h.port o).pushFlush hp hm) ?_ ?_ fun _ => hq⟩
  · split <;> rfl
  · split <;> simp [isWb]

theorem pushWb (hq : hl.queue = r :: q)
    (hr : r.type = .shReq) (hm : m.type = .wbReq) : ∃ ph', LineInv dc a V cl
      { hl with down := update hl.down o (hl.down o ++ [m]) } ph' := by
  have hp := h.owner_of_quiet hmod ho hquiet
  refine ⟨_, h.demand hmod ho ((h.port o).pushWb hp hm) ?_ (fun _ => ⟨r, q, hq, hr⟩) ?_⟩
  · split <;> rfl
  · split <;> simp

end

end

/-! ### The directory completes a request -/

section

variable (h : LineInv dc a V cl hl ph) (hq : hl.queue = r :: q)
include h hq

variable {k : MsgType × Bool} {e : DirectoryEntry N}

theorem waits_cons : Waits a (r :: q) hl.replaced := hq ▸ h.waits

theorem not_replaced (hr : requestOf r = some k) : ¬ hl.replaced :=
  (h.waits_cons hq).not_replaced hr

theorem out_of_front (hr : requestOf r = some k) : ph r.requester = .out :=
  (h.port r.requester).out_of_queued (by simp [hq, queued_cons_self hr])

theorem port_grant
    (hr : requestOf r = some k) (hm : m.type = .exRep ∨ m.type = .shRep) (hg : grantOf m = some k)
    (hd : m.dataBuf = some V) (u : Fin N) :
    PortInv V u (queued q u) (cl u) (update hl.down r.requester (hl.down r.requester ++ [m]) u)
      (update ph r.requester (if m.type = .exRep then .owning else .sharing) u) := by
  have hport := h.port u
  by_cases hu : u = r.requester
  · subst hu
    rw [h.out_of_front hq hr, hq, queued_cons_self hr] at hport
    simpa using hport.grant hm hg hd
  · rw [hq, queued_cons_of_ne (Ne.symm hu)] at hport
    simpa [hu] using hport

theorem grantEx {dram : Option LineData} (hr : r.type = .exReq) (hun : hl.entry.dstate = .uncached)
    (he : e.dstate = .modified) (ho : e.owner = some r.requester)
    (hrep : e.sharers.Rep dc.type dc.maxHwSharers {r.requester})
    (hhas : dc.Fits N → e.sharers.hasSharer r.requester = true)
    (hdram : dram.isSome) (hm : m.type = .exRep) (hmod : m.modeled = r.modeled)
    (hd : m.dataBuf = some V) :
    ∃ ph', LineInv dc a V cl { hl with
        entry := e, queue := q, cached := none, dram,
        down := update hl.down r.requester (hl.down r.requester ++ [m]) } ph' ∧
      ∀ t, (ph' t).isQuiet := by
  have hk := requestOf_exReq hr
  have hg : grantOf m = some (.exReq, r.modeled) := by simp [grantOf, hm, hmod]
  have hout := (agrees_uncached hun).mp h.agrees
  have hport := h.port_grant hq hk (.inl hm) hg hd
  simp only [hm, if_true] at hport
  have hph : ∀ u, update ph r.requester .owning u = .out ∨
      update ph r.requester .owning u = .owning := by
    intro u
    by_cases hu : u = r.requester <;> simp [hu, hout]
  refine ⟨_, { (h.waits_cons hq).next (h.not_replaced hq hk) with
    port := hport
    agrees := (agrees_modified he).mpr ⟨_, ho, by simp [isOwner], fun u hu => ?_, hhas⟩
    rep := ?_
    data := fun hne => absurd he hne
    stored := fun _ => hdram
    wb := fun u hu => ?_
    busy := fun u hu => ?_ }, fun u => ?_⟩
  · simpa [hu] using hout u
  · rw [holders_update (by simp), holders_out hout]; simpa using hrep
  · rcases hph u with h' | h' <;> simp [h', isWb] at hu
  · rcases hph u with h' | h' <;> simp [h'] at hu
  · rcases hph u with h' | h' <;> simp [h', isQuiet, isReader]

theorem grantSh (hr : r.type = .shReq) (hun : hl.entry.dstate ≠ .modified) (he : e.dstate = .shared)
    (hrep : e.sharers.Rep dc.type dc.maxHwSharers (insert r.requester (holders ph)))
    (hm : m.type = .shRep) (hmod : m.modeled = r.modeled) (hd : m.dataBuf = some V) :
    ∃ ph', LineInv dc a V cl { hl with
        entry := e, queue := q, cached := none, dram := some V,
        down := update hl.down r.requester (hl.down r.requester ++ [m]) } ph' ∧
      ∀ t, (ph' t).isQuiet := by
  have hk := requestOf_shReq hr
  have hg : grantOf m = some (.shReq, r.modeled) := by simp [grantOf, hm, hmod]
  have hport := h.port_grant hq hk (.inr hm) hg hd
  simp only [hm, reduceCtorEq, if_false] at hport
  have hread : ∀ u, (update ph r.requester .sharing u).isReader := by
    intro u
    by_cases hu : u = r.requester
    · simp [hu, isReader]
    · have ha := h.agrees
      cases hs : hl.entry.dstate <;> simp only [Agrees, hs] at ha
      · simp [hu, ha u, isReader]
      · simpa [hu] using ha u
      · exact absurd hs hun
  refine ⟨_, { (h.waits_cons hq).next (h.not_replaced hq hk) with
    port := hport
    agrees := (agrees_shared he).mpr hread
    rep := by rwa [holders_update (by simp)]
    data := fun _ => rfl
    stored := fun _ => rfl
    wb := fun u hu => ?_
    busy := fun u hu => ?_ }, fun u => ?_⟩
  · have := hread u
    cases hp : update ph r.requester .sharing u <;> simp [hp, isWb, isReader] at *
  · have := hread u
    simp [hu, isReader] at this
  · simp [isQuiet, hread u]

end

theorem nullify (h : LineInv dc a V cl hl ph) (hq : hl.queue = [])
    (hr : r.type = .nullifyReq) (ha : r.address = a) (hP : P) :
    LineInv dc a V cl { hl with queue := [r], replaced := P } ph :=
  { h with
    port := by
      intro u
      have := h.port u
      rwa [hq, ← queued_cons_of_none (r := r) (by simp [requestOf, hr])] at this
    wb := fun u hu => by obtain ⟨r', q, hq', -⟩ := h.wb u hu; simp [hq] at hq'
    busy := by simp
    requests := by simp [ha, hr]
    tail := by simp
    replaced := by simpa [hr] using hP }

theorem nullified (h : LineInv dc a V cl hl ph)
    (hq : hl.queue = r :: q) (hr : r.type = .nullifyReq) (hun : hl.entry.dstate = .uncached)
    (he : e.dstate = .uncached) (hrep : e.sharers.Rep dc.type dc.maxHwSharers ∅) (hP : ¬ P) :
    LineInv dc a V cl { hl with entry := e, queue := q, replaced := P } ph := by
  have hout := (agrees_uncached hun).mp h.agrees
  refine { (h.waits_cons hq).next hP with
    port := fun u => ?_
    agrees := (agrees_uncached he).mpr hout
    rep := by rwa [holders_out hout]
    data := fun _ => h.data (by simp [hun])
    stored := fun hs => h.stored (.inr (by simpa [he] using hs))
    wb := fun u hu => by simp [hout u, isWb] at hu
    busy := fun u hu => by simp [hout u] at hu }
  have := h.port u
  rwa [hq, queued_cons_of_none (by simp [requestOf, hr])] at this

end LineInv

end Graphite.Msi
