import Graphite.PrL2.Views
import Graphite.Library.Link

/-! # The clients of a line under MSI

The phase of a client is what the directory can tell of it: what it will hold once it has read the
grants on their way to it, which demands will then reach it, and which replies it has on the way.
`PortInv` ties the phase to the copy and the channels of the client; each of its lemmas is one move of
the client or one message that the directory sends to it or takes from it.
-/

namespace Graphite.Msi

open Outcome SetAssoc PrL2 List Link

variable {A : Type} {N : ℕ}

inductive Phase
  | out | sharing | sharedLeft | owning | owningFlush | owningWb | wroteBack | wroteBackLeft | flushed
  deriving DecidableEq

def install (m : ShmemMsg A N) :
    Option (Option (CacheState × LineData) → Option (CacheState × LineData)) :=
  match m.type with
  | .exRep => some fun _ => m.dataBuf.map (.modified, ·)
  | .shRep => some fun _ => m.dataBuf.map (.shared, ·)
  | _ => none

def replyOf (m : ShmemMsg A N) : Option (MsgType × Option LineData) :=
  match m.type with
  | .invRep | .flushRep | .wbRep => some (m.type, m.dataBuf)
  | _ => none

/-- The phase of a client that will hold `eff`, that the demands `live` will reach, and whose replies
`rel` are on the way, where `V` are the contents of the line. -/
def Phase.Holds (V : LineData) (eff : Option (CacheState × LineData)) (live : List MsgType)
    (rel : List (MsgType × Option LineData)) : Phase → Prop
  | .out => eff = none ∧ rel = []
  | .sharing => eff = some (.shared, V) ∧ (∀ k ∈ live, k = .invReq) ∧ rel = []
  | .sharedLeft => eff = none ∧ rel = [(.invRep, none)]
  | .owning => eff = some (.modified, V) ∧ live = [] ∧ rel = []
  | .owningFlush => eff = some (.modified, V) ∧ live = [.flushReq] ∧ rel = []
  | .owningWb => eff = some (.modified, V) ∧ live = [.wbReq] ∧ rel = []
  | .wroteBack => eff = some (.shared, V) ∧ live = [] ∧ rel = [(.wbRep, some V)]
  | .wroteBackLeft => eff = none ∧ rel = [(.wbRep, some V), (.invRep, none)]
  | .flushed => eff = none ∧ rel = [(.flushRep, some V)]

def Phase.isReader : Phase → Bool
  | .out | .sharing | .sharedLeft => true
  | _ => false

def Phase.isOwner : Phase → Bool
  | .owning | .owningFlush | .owningWb | .wroteBack | .wroteBackLeft | .flushed => true
  | _ => false

/-- The phases in which a WB_REQ is not yet answered. -/
def Phase.isWb : Phase → Bool
  | .owningWb | .wroteBack | .wroteBackLeft => true
  | _ => false

/-- The moves a client makes by itself: it gives its copy up, or writes it back. -/
inductive Phase.Leaves : Phase → Phase → Prop
  | stay (p : Phase) : Leaves p p
  | drop : Leaves .sharing .sharedLeft
  | dropWroteBack : Leaves .wroteBack .wroteBackLeft
  | flush {p : Phase} : p = .owning ∨ p = .owningFlush ∨ p = .owningWb → Leaves p .flushed
  | writeBack : Leaves .owningWb .wroteBack

def settled (c : Client A N) (down : List (ShmemMsg A N)) :
    Option (CacheState × LineData) × List (ShmemMsg A N) :=
  Link.settle install c.copy down

def DownOk (m : ShmemMsg A N) : Prop :=
  (m.type = .exRep ∨ m.type = .shRep) ∧ m.dataBuf.isSome ∨
    m.type = .invReq ∨ m.type = .flushReq ∨ m.type = .wbReq

/-- Client `t` of a line with contents `V` is in phase `ph`; `q` are its requests in the queue of the
directory. A request leaves a ticket on its way to the directory, in the queue, or in the grant. -/
structure PortInv (V : LineData) (t : Fin N) (q : List (MsgType × Bool)) (c : Client A N)
    (down : List (ShmemMsg A N)) (ph : Phase) : Prop where
  phase : ph.Holds V (settled c down).1 ((settled c down).2.map ShmemMsg.type) (c.up.filterMap replyOf)
  tickets : c.up.filterMap requestOf ++ q ++ down.filterMap grantOf = c.waits.toList
  waits : c.waits ≠ none → c.copy = none
  last : c.up.Pairwise fun m _ => requestOf m = none
  queued : q ≠ [] → c.up = []
  upOk : ∀ m ∈ c.up, (requestOf m).isSome ∧ m.requester = t ∧ m.dataBuf = none ∨ (replyOf m).isSome
  downOk : ∀ m ∈ down, DownOk m

section Port

variable {V : LineData} {t : Fin N} {q : List (MsgType × Bool)} {c : Client A N} {m r : ShmemMsg A N}
  {down ms : List (ShmemMsg A N)} {ph : Phase}

theorem install_eq_none (h : DownOk m) : install m = none ↔ grantOf m = none := by
  unfold install grantOf
  rcases h with ⟨h | h, -⟩ | h | h | h <;> simp [h]

theorem install_grant {d : LineData} (hm : m.type = .exRep ∨ m.type = .shRep)
    (hd : m.dataBuf = some d) :
    install m = some fun _ => some (if m.type = .exRep then .modified else .shared, d) := by
  rcases hm with hm | hm <;> simp [install, hm, hd]

theorem replyOf_eq (h : m.type = .invRep ∨ m.type = .flushRep ∨ m.type = .wbRep) :
    replyOf m = some (m.type, m.dataBuf) := by
  rcases h with h | h | h <;> simp [replyOf, h]

theorem requestOf_eq_none_of_reply (h : (replyOf m).isSome) : requestOf m = none := by
  unfold replyOf at h
  unfold requestOf
  cases hm : m.type <;> simp_all

namespace PortInv

theorem of_copy {x : CacheState × LineData} (h : PortInv V t q c down ph) (hc : c.copy = some x) :
    c.waits = none ∧ c.up.filterMap requestOf = [] ∧ q = [] ∧ (∀ m ∈ down, install m = none) ∧
      settled c down = (some x, down) := by
  have hw : c.waits = none := by
    by_contra hw
    simp [h.waits hw] at hc
  have ht := h.tickets
  simp only [hw, Option.toList_none, append_eq_nil_iff] at ht
  obtain ⟨⟨hr, hq⟩, hg⟩ := ht
  have hi : ∀ m ∈ down, install m = none := fun m hm =>
    (install_eq_none (h.downOk m hm)).mpr (filterMap_eq_nil_iff.mp hg m hm)
  exact ⟨hw, hr, hq, hi, by rw [settled, hc, settle_some hi]⟩

theorem phase_of_copy {st : CacheState} {d : LineData} (h : PortInv V t q c down ph)
    (hc : c.copy = some (st, d)) : d = V ∧
      (st = .shared ∧ (ph = .sharing ∧ (∀ m ∈ down, m.type = .invReq) ∧ c.up.filterMap replyOf = [] ∨
          ph = .wroteBack ∧ down = [] ∧ c.up.filterMap replyOf = [(.wbRep, some V)]) ∨
        st = .modified ∧ c.up.filterMap replyOf = [] ∧ (ph = .owning ∧ down = [] ∨
          ph = .owningFlush ∧ down.map ShmemMsg.type = [.flushReq] ∨
          ph = .owningWb ∧ down.map ShmemMsg.type = [.wbReq])) := by
  have hp := h.phase
  rw [(h.of_copy hc).2.2.2.2] at hp
  cases ph <;> simp only [Phase.Holds, reduceCtorEq, false_and, Option.some.injEq, Prod.mk.injEq,
    map_eq_nil_iff, mem_map, forall_exists_index, and_imp, forall_apply_eq_imp_iff₂] at hp
  all_goals
    obtain ⟨⟨rfl, rfl⟩, h1, h2⟩ := hp
    simp [h1, h2]
  simpa using h1

theorem giveUp {st : CacheState} {d : LineData} (h : PortInv V t q c down ph)
    (hc : c.copy = some (st, d)) (hms : ms <:+ down)
    (hr : replyOf r = some (if st = .modified then (.flushRep, some d) else (.invRep, none))) :
    ∃ p, Phase.Leaves ph p ∧ PortInv V t q { c with copy := none, up := c.up ++ [r] } ms p := by
  obtain ⟨hw, hreq, hq, hinst, -⟩ := h.of_copy hc
  have hset : settle install none ms = (none, []) :=
    settle_none fun m hm => hinst m (hms.subset hm)
  have hgrant : ms.filterMap grantOf = [] := filterMap_eq_nil_iff.mpr fun m hm =>
    (install_eq_none (h.downOk m (hms.subset hm))).mp (hinst m (hms.subset hm))
  have hrr : requestOf r = none := requestOf_eq_none_of_reply (by simp [hr])
  -- all fields but the phase are the same in every case
  have build : ∀ p, p.Holds V none [] (c.up.filterMap replyOf ++ (replyOf r).toList) →
      PortInv V t q { c with copy := none, up := c.up ++ [r] } ms p := fun p hp =>
    { phase := by
        have : [r].filterMap replyOf = (replyOf r).toList := by simp [hr]
        simpa [settled, hset, filterMap_append, this] using hp
      tickets := by simp [hreq, hrr, hq, hgrant, hw]
      waits := fun _ => rfl
      last := by
        rw [pairwise_append]
        exact ⟨h.last, pairwise_singleton _ _, fun m hm _ _ =>
          filterMap_eq_nil_iff.mp hreq m hm⟩
      queued := fun hne => absurd hq hne
      upOk := forall_mem_append.mpr ⟨h.upOk, forall_mem_singleton.mpr (.inr (by simp [hr]))⟩
      downOk := fun m hm => h.downOk m (hms.subset hm) }
  obtain ⟨rfl, hph⟩ := h.phase_of_copy hc
  rcases hph with ⟨rfl, ⟨rfl, -, hrel⟩ | ⟨rfl, -, hrel⟩⟩ | ⟨rfl, hrel, hph⟩
  · exact ⟨_, .drop, build _ (by simp [Phase.Holds, hrel, hr])⟩
  · exact ⟨_, .dropWroteBack, build _ (by simp [Phase.Holds, hrel, hr])⟩
  · exact ⟨_, .flush (hph.imp And.left (.imp And.left And.left)),
      build _ (by simp [Phase.Holds, hrel, hr])⟩

section

variable (h : PortInv V t q c (m :: ms) ph)
include h

theorem writeBack {d : LineData} (hc : c.copy = some (.modified, d)) (hm : m.type = .wbReq)
    (hr : replyOf r = some (.wbRep, some d)) :
    Phase.Leaves ph .wroteBack ∧
      PortInv V t q { c with copy := some (.shared, d), up := c.up ++ [r] } ms .wroteBack := by
  obtain ⟨hw, hreq, hq, hinst, -⟩ := h.of_copy hc
  obtain ⟨rfl, hph⟩ := h.phase_of_copy hc
  have hrr : requestOf r = none := requestOf_eq_none_of_reply (by simp [hr])
  obtain ⟨hrel, rfl, rfl⟩ : c.up.filterMap replyOf = [] ∧ ph = .owningWb ∧ ms = [] := by
    simpa [hm] using hph
  refine ⟨.writeBack, ?_, ?_, fun hne => absurd hw hne, ?_, fun hne => absurd hq hne, ?_, by simp⟩
  · simp [Phase.Holds, settled, hrel, hr]
  · simp [hreq, hrr, hq, hw]
  · rw [pairwise_append]
    exact ⟨h.last, pairwise_singleton _ _, fun m hm _ _ => filterMap_eq_nil_iff.mp hreq m hm⟩
  · exact forall_mem_append.mpr ⟨h.upOk, forall_mem_singleton.mpr (.inr (by simp [hr]))⟩

theorem stale (hc : c.copy = none) (hm : grantOf m = none) : PortInv V t q c ms ph :=
  { h with
    phase := by
      have hi : install m = none := (install_eq_none (h.downOk m (by simp))).mpr hm
      have := h.phase
      rwa [settled, hc, settle_stale hi, ← hc] at this
    tickets := by simpa [hm] using h.tickets
    downOk := fun m' hm' => h.downOk m' (by simp [hm']) }

theorem demand {st : CacheState} {d : LineData} (hc : c.copy = some (st, d)) :
    m.type = .invReq ∧ st = .shared ∨ (m.type = .flushReq ∨ m.type = .wbReq) ∧ st = .modified := by
  obtain ⟨-, hph⟩ := h.phase_of_copy hc
  rcases hph with ⟨rfl, ⟨rfl, hd, -⟩ | ⟨rfl, hd, -⟩⟩ | ⟨rfl, -, hph⟩
  · exact .inl ⟨hd m (by simp), rfl⟩
  · cases hd
  · rcases hph with ⟨-, hd⟩ | ⟨-, hd⟩ | ⟨-, hd⟩
    · cases hd
    · exact .inr ⟨.inl (by simp at hd; exact hd.1), rfl⟩
    · exact .inr ⟨.inr (by simp at hd; exact hd.1), rfl⟩

theorem receive {k : MsgType × Bool} (hm : grantOf m = some k) :
    c.copy = none ∧ c.waits = some k ∧ m.dataBuf = some V ∧ PortInv V t q
        { c with copy := some (if m.type = .exRep then .modified else .shared, V), waits := none } ms
        ph := by
  have ht := h.tickets
  rw [filterMap_cons_some hm] at ht
  obtain ⟨hw, hrest, hgrant⟩ := only_ticket ht
  obtain ⟨hreq, hq⟩ := append_eq_nil_iff.mp hrest
  have hc := h.waits (by simp [hw])
  have hinst : ∀ m ∈ ms, install m = none := fun m' hm' =>
    (install_eq_none (h.downOk m' (by simp [hm']))).mpr (filterMap_eq_nil_iff.mp hgrant m' hm')
  obtain ⟨d, hd, hi⟩ : ∃ d, m.dataBuf = some d ∧
      install m = some fun _ => some (if m.type = .exRep then .modified else .shared, d) := by
    rcases h.downOk m (by simp) with ⟨hty, hdat⟩ | hty
    · obtain ⟨d, hd⟩ := Option.isSome_iff_exists.mp hdat
      exact ⟨d, hd, install_grant hty hd⟩
    · rcases hty with hty | hty | hty <;> simp [grantOf, hty] at hm
  have hs : settled c (m :: ms) = (some (if m.type = .exRep then .modified else .shared, d), ms) := by
    rw [settled, settle_grant hi, settle_some hinst]
  -- the phase of a client that will hold a copy says what its contents are
  have hp := h.phase
  rw [hs] at hp
  have hdV : d = V := by
    cases ph <;> simp only [Phase.Holds, reduceCtorEq, false_and, Option.some.injEq,
      Prod.mk.injEq] at hp <;> exact hp.1.2
  subst hdV
  refine ⟨hc, hw, hd, ?_, ?_, fun hne => absurd rfl hne, h.last, h.queued, h.upOk,
    fun m' hm' => h.downOk m' (by simp [hm'])⟩
  · rwa [settled, settle_some hinst]
  · simp [hreq, hq, hgrant]

end

theorem request {k : MsgType × Bool} (h : PortInv V t q c down ph) (hw : c.waits = none)
    (hc : c.copy = none) (hr : requestOf r = some k) (ht : r.requester = t) (hd : r.dataBuf = none) :
    PortInv V t q { c with waits := some k, up := c.up ++ [r] } down ph := by
  have htk := h.tickets
  simp only [hw, Option.toList_none, append_eq_nil_iff] at htk
  obtain ⟨⟨hreq, hq⟩, hgrant⟩ := htk
  have hrr : replyOf r = none := by
    by_contra hne
    simp [requestOf_eq_none_of_reply (Option.isSome_iff_ne_none.mpr hne)] at hr
  refine ⟨?_, ?_, fun _ => hc, ?_, fun hne => absurd hq hne, ?_, h.downOk⟩
  · simpa [settled, hrr] using h.phase
  · simp [hreq, hr, hq, hgrant]
  · rw [pairwise_append]
    exact ⟨h.last, pairwise_singleton _ _, fun m hm _ _ => filterMap_eq_nil_iff.mp hreq m hm⟩
  · exact forall_mem_append.mpr ⟨h.upOk, forall_mem_singleton.mpr (.inl ⟨by simp [hr], ht, hd⟩)⟩

theorem store {V' d : LineData} (h : PortInv V t q c down ph) (hc : c.copy = some (.modified, d)) :
    ph.isOwner ∧ PortInv V' t q { c with copy := some (.modified, V') } down ph := by
  obtain ⟨hw, -, -, hinst, hs⟩ := h.of_copy hc
  obtain ⟨rfl, hph⟩ := h.phase_of_copy hc
  have hp := h.phase
  rw [hs] at hp
  simp only [reduceCtorEq, false_and, false_or, true_and] at hph
  refine ⟨?_, ?_, h.tickets, fun hne => absurd hw hne, h.last, h.queued, h.upOk, h.downOk⟩
  · rcases hph.2 with ⟨rfl, -⟩ | ⟨rfl, -⟩ | ⟨rfl, -⟩ <;> rfl
  · rw [settled, settle_some hinst]
    rcases hph.2 with ⟨rfl, -⟩ | ⟨rfl, -⟩ | ⟨rfl, -⟩ <;> exact ⟨rfl, hp.2⟩

theorem of_out {V' : LineData} (h : PortInv V t q c down .out) : PortInv V' t q c down .out :=
  { h with phase := h.phase }

theorem of_queued {k : MsgType × Bool} (h : PortInv V t (k :: q) c down ph) :
    c.waits = some k ∧ q = [] ∧ down.filterMap grantOf = [] := by
  have ht := h.tickets
  rw [append_assoc, cons_append] at ht
  obtain ⟨hw, -, hq⟩ := only_ticket ht
  exact ⟨hw, append_eq_nil_iff.mp hq⟩

section

variable (h : PortInv V t q c down ph)
include h

/-- A client with a request in the queue holds nothing and has nothing on the way. -/
theorem out_of_queued (hq : q ≠ []) : ph = .out := by
  have hup := h.queued hq
  obtain ⟨k, q, rfl⟩ := exists_cons_of_ne_nil hq
  obtain ⟨hw, -, hgrant⟩ := h.of_queued
  have hs : settled c down = (none, []) := by
    rw [settled, h.waits (by simp [hw])]
    exact settle_none fun m hm =>
      (install_eq_none (h.downOk m hm)).mpr (filterMap_eq_nil_iff.mp hgrant m hm)
  have hp := h.phase
  rw [hs, hup] at hp
  cases ph <;> simp [Phase.Holds] at hp
  rfl

theorem popRequest {k : MsgType × Bool} (hup : c.up = m :: ms) (hm : requestOf m = some k) :
    m.requester = t ∧ PortInv V t (q ++ [k]) { c with up := ms } down ph := by
  have hms : ms = [] := by
    cases ms with
    | nil => rfl
    | cons m' ms =>
      have hl := h.last
      rw [hup] at hl
      simpa [hm] using (pairwise_cons.mp hl).1 m' (by simp)
  subst hms
  have hq : q = [] := by
    by_contra hq
    simp [h.queued hq] at hup
  have hrr : replyOf m = none := by
    by_contra hne
    simp [requestOf_eq_none_of_reply (Option.isSome_iff_ne_none.mpr hne)] at hm
  refine ⟨?_, ?_, ?_, h.waits, List.Pairwise.nil, fun _ => rfl, by simp, h.downOk⟩
  · rcases h.upOk m (by simp [hup]) with ⟨-, ht, -⟩ | hr
    · exact ht
    · simp [hrr] at hr
  · simpa [settled, hup, hrr] using h.phase
  · simpa [hup, hm, hq] using h.tickets

theorem popReply {k : MsgType} {dat : Option LineData}
    (hup : c.up = m :: ms) (hm : replyOf m = some (k, dat)) :
    k = .invRep ∧ ph = .sharedLeft ∧ PortInv V t q { c with up := ms } down .out ∨
    k = .flushRep ∧ dat = some V ∧ ph = .flushed ∧ PortInv V t q { c with up := ms } down .out ∨
    k = .wbRep ∧ dat = some V ∧ ∃ p, (ph = .wroteBack ∧ p = .sharing ∨
      ph = .wroteBackLeft ∧ p = .sharedLeft) ∧ PortInv V t q { c with up := ms } down p := by
  have hrr : requestOf m = none := requestOf_eq_none_of_reply (by simp [hm])
  have hq : q = [] := by
    by_contra hq
    simp [h.queued hq] at hup
  have build : ∀ p, p.Holds V (settled c down).1 ((settled c down).2.map ShmemMsg.type)
      (ms.filterMap replyOf) → PortInv V t q { c with up := ms } down p := fun p hp =>
    { h with
      phase := hp
      tickets := by simpa [hup, hrr] using h.tickets
      last := by have := h.last; rw [hup] at this; exact (pairwise_cons.mp this).2
      queued := fun hne => absurd hq hne
      upOk := fun m' hm' => h.upOk m' (by simp [hup, hm']) }
  have hp := h.phase
  rw [hup, filterMap_cons_some hm] at hp
  cases ph <;> simp only [Phase.Holds, reduceCtorEq, and_false, cons.injEq, Prod.mk.injEq] at hp
  case sharedLeft =>
    obtain ⟨he, ⟨rfl, -⟩, hms⟩ := hp
    exact .inl ⟨rfl, rfl, build _ ⟨he, hms⟩⟩
  case wroteBack =>
    obtain ⟨he, hl, ⟨rfl, rfl⟩, hms⟩ := hp
    exact .inr (.inr ⟨rfl, rfl, _, .inl ⟨rfl, rfl⟩, build _ ⟨he, by simp [hl], hms⟩⟩)
  case wroteBackLeft =>
    obtain ⟨he, ⟨rfl, rfl⟩, hms⟩ := hp
    exact .inr (.inr ⟨rfl, rfl, _, .inr ⟨rfl, rfl⟩, build _ ⟨he, hms⟩⟩)
  case flushed =>
    obtain ⟨he, ⟨rfl, rfl⟩, hms⟩ := hp
    exact .inr (.inl ⟨rfl, rfl, rfl, build _ ⟨he, hms⟩⟩)

theorem push_of_none (he : (settled c down).1 = none)
    (hm : DownOk m) (hg : grantOf m = none) : PortInv V t q c (down ++ [m]) ph :=
  { h with
    phase := by
      have hi := (install_eq_none hm).mpr hg
      have hs : settled c down = (none, []) := Prod.ext he (live_of_eff_none he)
      have hp := h.phase
      rw [hs] at hp
      rwa [settled, settle_concat_demand_none hi he]
    tickets := by simpa [hg] using h.tickets
    downOk := forall_mem_append.mpr ⟨h.downOk, by simpa⟩ }

theorem push_of_some {x : CacheState × LineData} {p : Phase}
    (he : (settled c down).1 = some x) (hm : DownOk m) (hg : grantOf m = none)
    (hp : p.Holds V (some x) ((settled c down).2.map ShmemMsg.type ++ [m.type])
      (c.up.filterMap replyOf)) : PortInv V t q c (down ++ [m]) p :=
  { h with
    phase := by
      have hi := (install_eq_none hm).mpr hg
      rw [settled, settle_concat_demand_some hi he]
      simpa [settled] using hp
    tickets := by simpa [hg] using h.tickets
    downOk := forall_mem_append.mpr ⟨h.downOk, by simpa⟩ }

theorem pushInv (hp : ph.isReader) (hm : m.type = .invReq) : PortInv V t q c (down ++ [m]) ph := by
  have hd : DownOk m := .inr (.inl hm)
  have hg : grantOf m = none := by simp [grantOf, hm]
  have hph := h.phase
  cases ph <;> simp only [Phase.isReader, Bool.false_eq_true] at hp
  case out => exact h.push_of_none hph.1 hd hg
  case sharedLeft => exact h.push_of_none hph.1 hd hg
  case sharing =>
    refine h.push_of_some hph.1 hd hg ⟨rfl, ?_, hph.2.2⟩
    exact forall_mem_append.mpr ⟨hph.2.1, by simp [hm]⟩

theorem pushFlush (hp : ph = .owning ∨ ph = .flushed) (hm : m.type = .flushReq) :
    PortInv V t q c (down ++ [m]) (if ph = .owning then .owningFlush else .flushed) := by
  have hd : DownOk m := .inr (.inr (.inl hm))
  have hg : grantOf m = none := by simp [grantOf, hm]
  have hph := h.phase
  rcases hp with rfl | rfl
  · exact h.push_of_some hph.1 hd hg ⟨rfl, by rw [hph.2.1, hm]; rfl, hph.2.2⟩
  · exact h.push_of_none hph.1 hd hg

theorem pushWb (hp : ph = .owning ∨ ph = .flushed) (hm : m.type = .wbReq) :
    PortInv V t q c (down ++ [m]) (if ph = .owning then .owningWb else .flushed) := by
  have hd : DownOk m := .inr (.inr (.inr hm))
  have hg : grantOf m = none := by simp [grantOf, hm]
  have hph := h.phase
  rcases hp with rfl | rfl
  · exact h.push_of_some hph.1 hd hg ⟨rfl, by rw [hph.2.1, hm]; rfl, hph.2.2⟩
  · exact h.push_of_none hph.1 hd hg

end

theorem grant {k : MsgType × Bool} (h : PortInv V t (k :: q) c down .out)
    (hm : m.type = .exRep ∨ m.type = .shRep) (hg : grantOf m = some k) (hd : m.dataBuf = some V) :
    PortInv V t q c (down ++ [m]) (if m.type = .exRep then .owning else .sharing) := by
  have hup := h.queued (by simp)
  obtain ⟨hw, hq, hgr⟩ := h.of_queued
  refine ⟨?_, ?_, h.waits, h.last, fun hne => absurd hq hne, h.upOk, ?_⟩
  · rw [settled, settle_concat_grant (install_grant hm hd), hup]
    split <;> simp [Phase.Holds]
  · simp [hup, hq, hgr, hg, hw]
  · exact forall_mem_append.mpr ⟨h.downOk, forall_mem_singleton.mpr (.inl ⟨hm, by simp [hd]⟩)⟩

end PortInv

end Port

end Graphite.Msi
