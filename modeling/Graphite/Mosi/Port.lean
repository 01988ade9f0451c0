import Graphite.PrL2.Views
import Graphite.Library.Link

/-! # The clients of a line under MOSI

As under MSI a client has a phase: what it will hold once it has read the grants on their way, and
which replies it has on the way itself. A client keeps a SHARED or OWNED copy while it waits for the
permission to write, so demands may cross its request. `Ask` is what the request at the front of the
queue wants of a client; the demands that will reach a copy are bounded by it.
-/

namespace Graphite.Mosi

open Outcome SetAssoc PrL2 List Option Link

variable {A : Type} {N : ℕ}

/-- Nothing, that the client gives its copy up, or its data. -/
inductive Ask
  | none | clear | fetch
  deriving DecidableEq

/-- `wb` says that a WB_REP is on the way, and `flush` that the copy was given up with its data. A
client is doomed when it will be told to upgrade a copy it does not have. -/
inductive Phase
  | out | held (st : CacheState) (wb : Bool) | left (flush wb : Bool) | doomed
  deriving DecidableEq

/-- What a grant makes of the state of the copy. A grant that does not fit leaves a mark: INVALID for an
upgrade without a copy, DATA_INVALID else. -/
def install (m : ShmemMsg A N) : Option (Option CacheState → Option CacheState) :=
  match m.type with
  | .exRep => some fun c => some (if c = none then .modified else .dataInvalid)
  | .shRep => some fun c => some (if c = none then .shared else .dataInvalid)
  | .upgradeRep => some fun c => some (if c = some .shared ∨ c = some .owned then .modified else
      if c = none then .invalid else .dataInvalid)
  | _ => none

/-- Type of a reply to the directory, and whether a broadcast asked for it. -/
def replyOf (m : ShmemMsg A N) : Option (MsgType × Bool) :=
  match m.type with
  | .invRep | .flushRep | .wbRep => some (m.type, m.replyExpected)
  | _ => none

/-- What a demand asks of tile `t`. -/
def demandOf (t : Fin N) (m : ShmemMsg A N) : MsgType :=
  if m.type = .invFlushCombinedReq then if m.singleReceiver = some t then .flushReq else .invReq
  else m.type

def wbs (wb : Bool) : List (MsgType × Bool) := if wb then [(.wbRep, false)] else []

def Acks (rel : List (MsgType × Bool)) : Prop := ∀ k ∈ rel, k = (.invRep, true)

/-- The phase of a client that will hold `eff` and whose replies `rel` are on the way. -/
def Phase.Holds (eff : Option CacheState) (rel : List (MsgType × Bool)) : Phase → Prop
  | .out => eff = none ∧ Acks rel
  | .held st wb => eff = some st ∧ (st = .shared ∨ st = .owned ∨ st = .modified) ∧ rel = wbs wb
  | .left flush wb => eff = none ∧ ∃ b acks, Acks acks ∧
      rel = wbs wb ++ (if flush then .flushRep else .invRep, b) :: acks
  | .doomed => eff = some .invalid ∧ rel = []

/-- The demands that reach a copy in state `eff`. -/
def Ask.Allows (eff : Option CacheState) (live : List MsgType) : Ask → Prop
  | .none => live = []
  | .clear => ∀ k ∈ live, k = .flushReq ∨ k = .invReq ∧ eff = some .shared
  | .fetch => live = [] ∨ live = [.flushReq] ∨ live = [.wbReq]

def Phase.isWb : Phase → Bool
  | .held _ wb | .left _ wb => wb
  | _ => false

def Phase.isReader : Phase → Bool
  | .out | .held .shared _ | .left _ _ => true
  | _ => false

def Phase.isOwner : Phase → Bool
  | .held .owned _ | .left true _ => true
  | _ => false

def Phase.isWriter : Phase → Bool
  | .held .modified false | .held .owned true | .left true _ => true
  | _ => false

/-- The moves a client makes by itself: it gives its copy up, or writes it back. -/
inductive Phase.Leaves : Phase → Phase → Prop
  | stay (p : Phase) : Leaves p p
  | drop {wb : Bool} : Leaves (.held .shared wb) (.left false wb)
  | flush {st : CacheState} {wb : Bool} : Leaves (.held st wb) (.left true wb)
  | writeBack {st : CacheState} :
      Leaves (.held st false) (.held (if st = .modified then .owned else st) true)

def settled (c : Client A N) (down : List (ShmemMsg A N)) :
    Option CacheState × List (ShmemMsg A N) :=
  Link.settle install (c.copy.map Prod.fst) down

/-- The directory takes a reply from its channel. -/
inductive Phase.Answers : MsgType → Bool → Phase → Phase → Prop
  | ack : Answers .invRep true .out .out
  | inv {b : Bool} : Answers .invRep b (.left false false) .out
  | flush {b : Bool} : Answers .flushRep b (.left true false) .out
  | wb {st : CacheState} : Answers .wbRep false (.held st true) (.held st false)
  | wbLeft {flush : Bool} : Answers .wbRep false (.left flush true) (.left flush false)

/-- What the front request still wants of a client that has replied. -/
def Ask.answered : Ask → Ask
  | .fetch => .none
  | ask => ask

/-- What a client has sent after a request that is still to be granted; `q` are its requests in the
queue. -/
def trail (q : List (MsgType × Bool)) (up : List (ShmemMsg A N)) : List (ShmemMsg A N) :=
  if q = [] then (up.dropWhile fun m => (requestOf m).isNone).tail else up

def tokens (ms : List (ShmemMsg A N)) : ℕ := ms.countP (·.replyExpected)

def DownOk (m : ShmemMsg A N) : Prop :=
  (m.type = .exRep ∨ m.type = .shRep) ∧ m.dataBuf.isSome ∧ m.replyExpected = false ∨
    (m.type = .upgradeRep ∨ m.type = .wbReq) ∧ m.dataBuf = none ∧ m.replyExpected = false ∨
    (m.type = .invReq ∨ m.type = .flushReq ∨ m.type = .invFlushCombinedReq) ∧ m.dataBuf = none

/-- The messages client `t` sends. -/
def UpOk (t : Fin N) (m : ShmemMsg A N) : Prop :=
  (requestOf m).isSome ∧ m.requester = t ∧ m.dataBuf = none ∧ m.replyExpected = false ∨
    m.type = .invRep ∧ m.dataBuf = none ∨ m.type = .flushRep ∧ m.dataBuf.isSome ∨
    m.type = .wbRep ∧ m.dataBuf.isSome

/-- Client `t` of a line is in phase `ph`; the data it has, and those on the way, have `G`. The
directory has its requests `q` in the queue and wants `ask` of it; `pend` says that its reply to a
broadcast is due. -/
structure PortInv (G : LineData → Prop) (t : Fin N) (ask : Ask) (pend : Bool)
    (q : List (MsgType × Bool)) (c : Client A N) (down : List (ShmemMsg A N)) (ph : Phase) : Prop where
  phase : ph.Holds (settled c down).1 (c.up.filterMap replyOf)
  live : ask.Allows (settled c down).1 ((settled c down).2.map (demandOf t))
  wb : ph.isWb → ask = .fetch ∧ (settled c down).2 = []
  tickets : c.up.filterMap requestOf ++ q ++ down.filterMap grantOf = c.waits.toList
  reads : ∀ k, c.waits = some k → k.1 = .shReq → c.copy = none
  ready : c.copy ≠ none → down.Pairwise fun _ m => grantOf m = none
  order : down.Pairwise fun m m' => m.replyExpected = true → grantOf m' = none
  idle : ask = .none → trail q c.up = []
  once : ask = .fetch → trail q c.up ≠ [] → (c.up.filterMap replyOf).length ≤ 1
  due : tokens down + tokens c.up = if pend then 1 else 0
  pending : pend → ask = .clear
  upOk : ∀ m ∈ c.up, UpOk t m
  downOk : ∀ m ∈ down, DownOk m
  copyOk : ∀ x ∈ c.copy, G x.2 ∧ x.1 ≠ .invalid
  downData : ∀ m ∈ down, ∀ d ∈ m.dataBuf, G d
  upData : ∀ m ∈ c.up, ∀ d ∈ m.dataBuf, G d

section Messages

variable {t : Fin N} {q : List (MsgType × Bool)} {up ms : List (ShmemMsg A N)} {m r : ShmemMsg A N}

theorem install_eq_none (h : DownOk m) : install m = none ↔ grantOf m = none := by
  unfold install grantOf
  rcases h with ⟨h | h, -⟩ | ⟨h | h, -⟩ | ⟨h | h | h, -⟩ <;> simp [h]

theorem install_of_grants (h : ∀ m ∈ ms, DownOk m) (hg : ms.filterMap grantOf = []) :
    ∀ m ∈ ms, install m = none :=
  fun m hm => (install_eq_none (h m hm)).mpr (filterMap_eq_nil_iff.mp hg m hm)

theorem DownOk.not_expected (h : DownOk m) (hm : (grantOf m).isSome ∨ m.type = .wbReq) :
    m.replyExpected = false := by
  rcases h with ⟨-, -, h⟩ | ⟨-, -, h⟩ | ⟨h | h | h, -⟩
  · exact h
  · exact h
  all_goals simp [grantOf, h] at hm

theorem DownOk.no_data (h : DownOk m) (hm : grantOf m = none) : m.dataBuf = none := by
  rcases h with ⟨h | h, -⟩ | ⟨-, h, -⟩ | ⟨-, h⟩
  · simp [grantOf, h] at hm
  · simp [grantOf, h] at hm
  · exact h
  · exact h

theorem requestOf_eq_none_of_reply (h : (replyOf m).isSome) : requestOf m = none := by
  unfold replyOf at h
  unfold requestOf
  cases hm : m.type <;> simp_all

theorem replyOf_eq_none_of_request (h : (requestOf m).isSome) : replyOf m = none := by
  by_contra hne
  simp [requestOf_eq_none_of_reply (isSome_iff_ne_none.mpr hne)] at h

theorem replyOf_eq (h : m.type = .invRep ∨ m.type = .flushRep ∨ m.type = .wbRep) :
    replyOf m = some (m.type, m.replyExpected) := by
  rcases h with h | h | h <;> simp [replyOf, h]

theorem UpOk.cases (h : UpOk t m) : (requestOf m).isSome ∧ replyOf m = none ∨
    (replyOf m).isSome ∧ requestOf m = none := by
  rcases h with ⟨h, -⟩ | h
  · exact .inl ⟨h, replyOf_eq_none_of_request h⟩
  · have : (replyOf m).isSome := by rcases h with ⟨h, -⟩ | ⟨h, -⟩ | ⟨h, -⟩ <;> simp [replyOf, h]
    exact .inr ⟨this, requestOf_eq_none_of_reply this⟩

theorem tokens_append {ms' : List (ShmemMsg A N)} : tokens (ms ++ ms') = tokens ms + tokens ms' := by
  simp [tokens]

theorem tokens_cons : tokens (m :: ms) = tokens ms + if m.replyExpected then 1 else 0 := by
  simp [tokens, countP_cons]

@[simp] theorem tokens_nil : tokens ([] : List (ShmemMsg A N)) = 0 := rfl

/-! ### The messages after a request -/

theorem trail_of_ne (hq : q ≠ []) : trail q up = up := if_neg hq

theorem trail_cons_reply (h : requestOf m = none) : trail [] (m :: up) = trail [] up := by
  simp [trail, h]

theorem trail_nil_of_none (h : up.filterMap requestOf = []) : trail [] up = [] := by
  induction up with
  | nil => rfl
  | cons m up ih =>
    have hm : requestOf m = none := filterMap_eq_nil_iff.mp h m (by simp)
    rw [trail_cons_reply hm]
    exact ih (by simpa [hm] using h)

theorem trail_cons_request (h : (requestOf m).isSome) : trail [] (m :: up) = up := by
  obtain ⟨k, hk⟩ := isSome_iff_exists.mp h
  simp [trail, hk]

/-- No reply is lost from the trail of a list whose requests are not followed by others. -/
theorem trail_eq_nil (h : ∀ m ∈ up, UpOk t m) (h1 : (up.filterMap requestOf ++ q).length ≤ 1)
    (hrel : up.filterMap replyOf = []) : trail q up = [] := by
  have hreq : ∀ m ∈ up, (requestOf m).isSome := fun m hm => by
    rcases (h m hm).cases with ⟨hr, -⟩ | ⟨hr, -⟩
    · exact hr
    · simp [filterMap_eq_nil_iff.mp hrel m hm] at hr
  cases up with
  | nil => unfold trail; split <;> rfl
  | cons m ms =>
    obtain ⟨k, hk⟩ := isSome_iff_exists.mp (hreq m (by simp))
    rw [filterMap_cons_some hk] at h1
    obtain rfl : q = [] := by
      cases q with
      | nil => rfl
      | cons a q => simp at h1
    rw [trail_cons_request (hreq m (by simp))]
    cases ms with
    | nil => rfl
    | cons m' ms =>
      obtain ⟨k', hk'⟩ := isSome_iff_exists.mp (hreq m' (by simp))
      rw [filterMap_cons_some hk'] at h1
      simp at h1

theorem trail_append_request (h : up.filterMap requestOf = []) (hr : (requestOf r).isSome) :
    trail [] (up ++ [r]) = [] := by
  induction up with
  | nil => exact trail_cons_request hr
  | cons m up ih =>
    have hm : requestOf m = none := filterMap_eq_nil_iff.mp h m (by simp)
    rw [cons_append, trail_cons_reply hm]
    exact ih (by simpa [hm] using h)

end Messages

namespace PortInv

variable {G : LineData → Prop} {t : Fin N} {ask : Ask} {pend : Bool} {q : List (MsgType × Bool)}
  {c : Client A N} {m r : ShmemMsg A N} {down ms : List (ShmemMsg A N)} {ph : Phase} {st : CacheState}
  {d : LineData} {k : MsgType × Bool} {G' : LineData → Prop}

/-! ### Copies -/

section

variable (h : PortInv G t ask pend q c down ph)
include h

theorem settled_of_copy (hc : c.copy = some (st, d))
    (hg : down.filterMap grantOf = []) : settled c down = (some st, down) := by
  rw [settled, hc]
  exact settle_some (install_of_grants h.downOk hg)

theorem settled_of_no_copy (hc : c.copy = none)
    (hg : down.filterMap grantOf = []) : settled c down = (none, []) := by
  rw [settled, hc]
  exact settle_none (install_of_grants h.downOk hg)

theorem of_eff_none (he : (settled c down).1 = none) :
    c.copy = none ∧ down.filterMap grantOf = [] ∧ settled c down = (none, []) := by
  have hf : ∀ (m : ShmemMsg A N) f c, install m = some f → f c ≠ none := by
    intro m f c hf
    unfold install at hf
    split at hf
    · obtain rfl := some.inj hf; simp
    · obtain rfl := some.inj hf; simp
    · obtain rfl := some.inj hf; simp
    · cases hf
  obtain ⟨hc, hms⟩ := Link.of_eff_none hf he
  refine ⟨by simpa using hc, filterMap_eq_nil_iff.mpr fun m hm => ?_,
    Prod.ext he (Link.live_of_eff_none he)⟩
  exact (install_eq_none (h.downOk m hm)).mp (hms m hm)

/-- A client without a ticket under way has no requests and no grants on the way. -/
theorem of_waits_none (hw : c.waits = none) :
    c.up.filterMap requestOf = [] ∧ q = [] ∧ down.filterMap grantOf = [] := by
  have ht := h.tickets
  simp only [hw, toList_none, append_eq_nil_iff] at ht
  exact ⟨ht.1.1, ht.1.2, ht.2⟩

end

theorem grants_of_demand (h : PortInv G t ask pend q c (m :: ms) ph) (hc : c.copy ≠ none)
    (hm : grantOf m = none) : (m :: ms).filterMap grantOf = [] := by
  refine filterMap_eq_nil_iff.mpr fun m' hm' => ?_
  rcases mem_cons.mp hm' with rfl | hm'
  · exact hm
  · exact (pairwise_cons.mp (h.ready hc)).1 m' hm'

section

variable (h : PortInv G t ask pend q c down ph)
include h

theorem phase_of_eff (he : (settled c down).1 = some st) : ph = .doomed ∧ st = .invalid ∨ ∃ wb,
    ph = .held st wb ∧ (st = .shared ∨ st = .owned ∨ st = .modified) ∧
      c.up.filterMap replyOf = wbs wb := by
  have hp := h.phase
  rw [he] at hp
  cases ph with
  | out => cases hp.1
  | left f wb => cases hp.1
  | held st' wb =>
    obtain ⟨he, hst, hrel⟩ := hp
    obtain rfl := some.inj he
    exact .inr ⟨wb, rfl, hst, hrel⟩
  | doomed => exact .inl ⟨rfl, some.inj hp.1⟩

theorem phase_of_copy (hc : c.copy = some (st, d))
    (hg : down.filterMap grantOf = []) : ∃ wb, ph = .held st wb ∧
      (st = .shared ∨ st = .owned ∨ st = .modified) ∧ c.up.filterMap replyOf = wbs wb := by
  have he := congrArg Prod.fst (h.settled_of_copy hc hg)
  exact (h.phase_of_eff he).resolve_left fun hd => (h.copyOk _ hc).2 hd.2

theorem requests_le : (c.up.filterMap requestOf ++ q).length ≤ 1 := by
  have h1 : c.waits.toList.length ≤ 1 := by cases c.waits <;> simp
  rw [← h.tickets, length_append] at h1
  omega

theorem trail_nil (hrel : c.up.filterMap replyOf = []) : trail q c.up = [] :=
  trail_eq_nil h.upOk h.requests_le hrel

theorem dataRep (hm : m ∈ c.up)
    (hty : m.type = .flushRep ∨ m.type = .wbRep) : ∃ d, m.dataBuf = some d ∧ G d := by
  have hsome : m.dataBuf.isSome := by
    rcases h.upOk m hm with ⟨hr, -⟩ | ⟨ht, -⟩ | ⟨-, hd⟩ | ⟨-, hd⟩
    · rcases hty with ht | ht <;> simp [requestOf, ht] at hr
    · rcases hty with ht' | ht' <;> simp [ht'] at ht
    · exact hd
    · exact hd
  obtain ⟨d, hd⟩ := isSome_iff_exists.mp hsome
  exact ⟨d, hd, h.upData m hm d hd⟩

end

theorem demand (h : PortInv G t ask pend q c (m :: ms) ph) (hc : c.copy = some (st, d))
    (hm : grantOf m = none) : demandOf t m = .invReq → st = .shared := by
  intro hk
  have hl := h.live
  rw [h.settled_of_copy hc (h.grants_of_demand (by simp [hc]) hm)] at hl
  cases ask with
  | none => cases hl
  | clear =>
    rcases hl (demandOf t m) (by simp) with h' | ⟨-, h'⟩
    · simp [hk] at h'
    · simpa using h'
  | fetch =>
    rcases hl with h' | h' | h'
    · cases h'
    · simp [hk] at h'
    · simp [hk] at h'

/-! ### Moves of the client -/

theorem giveUp {k : MsgType} {b : Bool} (h : PortInv G t ask pend q c down ph)
    (hc : c.copy = some (st, d)) (hms : ms <:+ down) (hg : down.filterMap grantOf = [])
    (hr : replyOf r = some (k, b)) (hk : k = .flushRep ∨ k = .invRep ∧ st = .shared)
    (hok : UpOk t r) (hd : ∀ d ∈ r.dataBuf, G d)
    (htok : tokens ms + (if r.replyExpected then 1 else 0) = tokens down)
    (hwhy : c.waits = none ∨ down ≠ []) : ∃ p, Phase.Leaves ph p ∧
      PortInv G t ask pend q { c with copy := none, up := c.up ++ [r] } ms p := by
  obtain ⟨wb, rfl, hst, hrel⟩ := h.phase_of_copy hc hg
  have hset := h.settled_of_copy hc hg
  have hgms : ms.filterMap grantOf = [] := filterMap_eq_nil_iff.mpr fun m hm =>
    filterMap_eq_nil_iff.mp hg m (hms.subset hm)
  have hset' : settled { c with copy := none, up := c.up ++ [r] } ms = (none, []) :=
    settle_none (install_of_grants (fun m hm => h.downOk m (hms.subset hm)) hgms)
  have hrr : requestOf r = none := requestOf_eq_none_of_reply (by simp [hr])
  have hrel' : (c.up ++ [r]).filterMap replyOf = wbs wb ++ [(k, b)] := by simp [hrel, hr]
  -- a client that waits moves only when a demand reaches it
  have htrail : c.waits = none → trail q (c.up ++ [r]) = [] := fun hw => by
    obtain ⟨hreq, rfl, -⟩ := h.of_waits_none hw
    exact trail_nil_of_none (by simp [hreq, hrr])
  refine ⟨.left (k = .flushRep) wb, ?_, ?_⟩
  · rcases hk with rfl | ⟨rfl, rfl⟩
    · exact .flush
    · exact .drop
  · refine
      { phase := ?_
        live := by rw [hset']; cases ask <;> simp [Ask.Allows]
        wb := fun hw => ⟨(h.wb hw).1, by rw [hset']⟩
        tickets := by have := h.tickets; simp only [hg] at this; simpa [hrr, hgms] using this
        reads := fun _ _ _ => rfl
        ready := fun hne => absurd rfl hne
        order := h.order.sublist hms.sublist
        idle := fun ha => htrail ?_
        once := fun ha hne => ?_
        due := ?_
        pending := h.pending
        upOk := ?_
        downOk := fun m hm => h.downOk m (hms.subset hm)
        copyOk := by simp
        downData := fun m hm => h.downData m (hms.subset hm)
        upData := ?_ }
    · rw [hset', hrel']
      refine ⟨rfl, b, [], by simp [Acks], ?_⟩
      rcases hk with rfl | ⟨rfl, -⟩ <;> simp
    · have hl := h.live
      rw [hset, ha] at hl
      exact hwhy.resolve_right fun hne => hne (by simpa [Ask.Allows] using hl)
    · rcases hwhy with hw | hne'
      · exact absurd (htrail hw) hne
      · have : wb = false := by
          cases wb with
          | false => rfl
          | true => exact absurd (by simpa [hset] using (h.wb rfl).2) hne'
        simp [hrel', this, wbs]
    · have := h.due
      simp only [tokens_append, tokens_cons, tokens_nil] at this ⊢
      omega
    · exact forall_mem_append.mpr ⟨h.upOk, by simpa⟩
    · exact forall_mem_append.mpr ⟨h.upData, by simpa⟩

section

variable (h : PortInv G t ask pend q c (m :: ms) ph)
include h

variable {f : Option CacheState → Option CacheState} {k : MsgType × Bool}

theorem writeBack (hc : c.copy = some (st, d))
    (hm : m.type = .wbReq) (hr : r.type = .wbRep) (hre : r.replyExpected = false)
    (hd : r.dataBuf = some d) :
    Phase.Leaves ph (.held (if st = .modified then .owned else st) true) ∧ PortInv G t ask pend q
        { c with copy := some (if st = .modified then .owned else st, d), up := c.up ++ [r] } ms
        (.held (if st = .modified then .owned else st) true) := by
  have hgm : grantOf m = none := by simp [grantOf, hm]
  have hg := h.grants_of_demand (by simp [hc]) hgm
  obtain ⟨wb, rfl, hst, hrel⟩ := h.phase_of_copy hc hg
  have hset := h.settled_of_copy hc hg
  have hdem : demandOf t m = .wbReq := by simp [demandOf, hm]
  obtain ⟨rfl, rfl⟩ : ask = .fetch ∧ ms = [] := by
    have hl := h.live
    rw [hset] at hl
    cases ask <;> simp_all [Ask.Allows]
  have hwb : wb = false := by
    cases wb with
    | false => rfl
    | true => have := (h.wb rfl).2; simp [hset] at this
  subst hwb
  have hrel : c.up.filterMap replyOf = [] := hrel
  have hrep : replyOf r = some (.wbRep, false) := by simp [replyOf, hr, hre]
  have hrr : requestOf r = none := requestOf_eq_none_of_reply (by simp [hrep])
  have hmre := (h.downOk m (by simp)).not_expected (.inr hm)
  refine ⟨.writeBack, ?_⟩
  exact
    { phase := by
        refine ⟨rfl, ?_, by simp [hrel, hrep, wbs]⟩
        rcases hst with rfl | rfl | rfl <;> simp
      live := .inl rfl
      wb := fun _ => ⟨rfl, rfl⟩
      tickets := by have := h.tickets; simp only [hg] at this; simpa [hrr] using this
      reads := fun k hk hs => absurd (h.reads k hk hs) (by simp [hc])
      ready := fun _ => List.Pairwise.nil
      order := List.Pairwise.nil
      idle := fun ha => by cases ha
      once := fun _ _ => by simp [hrel, hrep]
      due := by
        have := h.due
        simp only [tokens_append, tokens_cons, tokens_nil, hmre, hre] at this ⊢
        simpa using this
      pending := h.pending
      upOk := forall_mem_append.mpr ⟨h.upOk, by simp [UpOk, hr, hd]⟩
      downOk := by simp
      copyOk := by
        rintro x hx
        obtain rfl := some.inj hx
        refine ⟨(h.copyOk _ hc).1, ?_⟩
        rcases hst with rfl | rfl | rfl <;> simp
      downData := by simp
      upData := forall_mem_append.mpr ⟨h.upData, by simpa [hd] using (h.copyOk _ hc).1⟩ }

theorem stale (hc : c.copy = none) (hm : grantOf m = none)
    (hre : m.replyExpected = false) : PortInv G t ask pend q c ms ph := by
  have hset : settled c (m :: ms) = settled c ms := by
    have hi : install m = none := (install_eq_none (h.downOk m (by simp))).mpr hm
    rw [settled, settled, hc]
    exact settle_stale hi
  exact
    { h with
      phase := hset ▸ h.phase
      live := hset ▸ h.live
      wb := hset ▸ h.wb
      tickets := by simpa [hm] using h.tickets
      ready := fun hne => absurd hc hne
      order := (pairwise_cons.mp h.order).2
      due := by have := h.due; simpa [tokens_cons, hre] using this
      downOk := fun m' hm' => h.downOk m' (by simp [hm'])
      downData := fun m' hm' => h.downData m' (by simp [hm']) }

theorem ack (hc : c.copy = none) (hm : grantOf m = none)
    (hre : m.replyExpected = true) (hr : r.type = .invRep) (hrr : r.replyExpected = true)
    (hd : r.dataBuf = none) : PortInv G t ask pend q { c with up := c.up ++ [r] } ms ph := by
  have hgms : ms.filterMap grantOf = [] := filterMap_eq_nil_iff.mpr fun m' hm' =>
    (pairwise_cons.mp h.order).1 m' hm' hre
  have hset := h.settled_of_no_copy hc (by simp [hm, hgms])
  have hset' : settled { c with up := c.up ++ [r] } ms = (none, []) := by
    rw [settled, hc]
    exact settle_none (install_of_grants (forall_mem_of_forall_mem_cons h.downOk) hgms)
  obtain rfl : pend = true := by
    have := h.due
    cases pend with
    | true => rfl
    | false => simp [tokens_cons, hre] at this
  obtain rfl := h.pending rfl
  have hrep : replyOf r = some (.invRep, true) := by simp [replyOf, hr, hrr]
  have hreq : requestOf r = none := requestOf_eq_none_of_reply (by simp [hrep])
  refine
    { h with
      phase := ?_
      live := by rw [hset']; simp [Ask.Allows]
      wb := fun hw => absurd (h.wb hw).1 (by simp)
      tickets := by simpa [hm, hreq, hgms] using h.tickets
      ready := fun hne => absurd hc hne
      order := (pairwise_cons.mp h.order).2
      idle := fun ha => by cases ha
      once := fun ha => by cases ha
      due := ?_
      pending := fun _ => rfl
      upOk := ?_
      downOk := fun m' hm' => h.downOk m' (by simp [hm'])
      downData := fun m' hm' => h.downData m' (by simp [hm'])
      upData := ?_ }
  · have hp := h.phase
    rw [hset] at hp
    rw [hset', filterMap_append, filterMap_cons_some hrep, filterMap_nil]
    have happ : ∀ acks, Acks acks → Acks (acks ++ [(.invRep, true)]) := fun _ ha =>
      forall_mem_append.mpr ⟨ha, by simp⟩
    cases ph with
    | out => exact ⟨rfl, happ _ hp.2⟩
    | held st wb => cases hp.1
    | left f wb =>
      obtain ⟨-, b, acks, hacks, hrel⟩ := hp
      exact ⟨rfl, b, _, happ acks hacks, by simp [hrel]⟩
    | doomed => cases hp.1
  · have := h.due
    simp only [tokens_cons, tokens_append, tokens_nil, hre, hrr, if_true] at this ⊢
    omega
  · exact forall_mem_append.mpr ⟨h.upOk, forall_mem_singleton.mpr (.inr (.inl ⟨hr, hd⟩))⟩
  · exact forall_mem_append.mpr ⟨h.upData, by simp [hd]⟩

theorem of_grant
    (hm : grantOf m = some k) : c.waits = some k ∧ c.up.filterMap requestOf = [] ∧ q = [] ∧
      ms.filterMap grantOf = [] := by
  have ht := h.tickets
  rw [filterMap_cons_some hm] at ht
  obtain ⟨hw, h12, h3⟩ := only_ticket ht
  obtain ⟨h1, h2⟩ := append_eq_nil_iff.mp h12
  exact ⟨hw, h1, h2, h3⟩

theorem granted
    (hm : grantOf m = some k) (hi : install m = some f) (hf : f (c.copy.map Prod.fst) = some st)
    (hst : st ≠ .invalid) (hre : m.replyExpected = false) (hd : G d) :
    PortInv G t ask pend q { c with copy := some (st, d), waits := none } ms ph := by
  obtain ⟨-, hreq, hq, hg⟩ := h.of_grant hm
  have hset : settled c (m :: ms) = settled { c with copy := some (st, d), waits := none } ms := by
    rw [settled, settle_grant hi, hf]
    rfl
  exact
    { h with
      phase := hset ▸ h.phase
      live := hset ▸ h.live
      wb := hset ▸ h.wb
      tickets := by simp [hreq, hq, hg]
      reads := fun _ hk => by cases hk
      ready := fun _ => pairwise_of_forall_mem_list fun _ _ m' hm' =>
        filterMap_eq_nil_iff.mp hg m' hm'
      order := (pairwise_cons.mp h.order).2
      due := by have := h.due; simpa [tokens_cons, hre] using this
      downOk := fun m' hm' => h.downOk m' (by simp [hm'])
      copyOk := by rintro x hx; obtain rfl := some.inj hx; exact ⟨hd, hst⟩
      downData := fun m' hm' => h.downData m' (by simp [hm']) }

theorem settled_grant {x : CacheState} (hm : grantOf m = some k)
    (hi : install m = some f) (hf : f (c.copy.map Prod.fst) = some x) :
    settled c (m :: ms) = (some x, ms) := by
  obtain ⟨-, -, -, hg⟩ := h.of_grant hm
  rw [settled, settle_grant hi, hf]
  exact settle_some (install_of_grants (forall_mem_of_forall_mem_cons h.downOk) hg)

end

theorem eff_ne_dataInvalid (h : PortInv G t ask pend q c down ph) :
    (settled c down).1 ≠ some .dataInvalid := by
  intro he
  rcases h.phase_of_eff he with ⟨-, hst⟩ | ⟨-, -, hst, -⟩ <;> simp at hst

theorem receive (h : PortInv G t ask pend q c (m :: ms) ph) (hm : m.type = .exRep ∨ m.type = .shRep) :
    c.copy = none ∧ c.waits = some (if m.type = .exRep then .exReq else .shReq, m.modeled) ∧
      ∃ d, m.dataBuf = some d ∧ PortInv G t ask pend q
        { c with copy := some (if m.type = .exRep then .modified else .shared, d), waits := none } ms
        ph := by
  have hgr : grantOf m = some (if m.type = .exRep then .exReq else .shReq, m.modeled) := by
    rcases hm with hm | hm <;> simp [grantOf, hm]
  have hi : install m = some fun c => some
      (if c = none then if m.type = .exRep then .modified else .shared else .dataInvalid) := by
    rcases hm with hm | hm <;> simp [install, hm]
  have hc : c.copy = none := by
    cases hc : c.copy with
    | none => rfl
    | some x =>
      refine absurd ?_ h.eff_ne_dataInvalid
      rw [h.settled_grant hgr hi (x := .dataInvalid) (by simp [hc])]
  obtain ⟨d, hd⟩ : ∃ d, m.dataBuf = some d := by
    rcases h.downOk m (by simp) with ⟨-, hd, -⟩ | ⟨h' | h', -⟩ | ⟨h' | h' | h', -⟩
    · exact isSome_iff_exists.mp hd
    all_goals rcases hm with hm | hm <;> simp [hm] at h'
  have hre := (h.downOk m (by simp)).not_expected (.inl (by simp [hgr]))
  refine ⟨hc, (h.of_grant hgr).1, d, hd, ?_⟩
  exact h.granted hgr hi (by simp [hc]) (by split <;> simp) hre (h.downData m (by simp) d hd)

theorem receiveUpgrade (h : PortInv G t ask pend q c (m :: ms) ph) (hm : m.type = .upgradeRep) :
    c.waits = some (.exReq, m.modeled) ∧ (ph = .doomed ∧ c.copy = none ∨ ∃ st d,
      c.copy = some (st, d) ∧ (st = .shared ∨ st = .owned) ∧ PortInv G t ask pend q
        { c with copy := some (.modified, d), waits := none } ms ph) := by
  have hgr : grantOf m = some (.exReq, m.modeled) := by simp [grantOf, hm]
  have hi : install m = some fun c => some (if c = some .shared ∨ c = some .owned then .modified else
      if c = none then .invalid else .dataInvalid) := by simp [install, hm]
  have hre := (h.downOk m (by simp)).not_expected (.inl (by simp [hgr]))
  refine ⟨(h.of_grant hgr).1, ?_⟩
  cases hc : c.copy with
  | none =>
    have he := congrArg Prod.fst (h.settled_grant hgr hi (x := .invalid) (by simp [hc]))
    rcases h.phase_of_eff he with ⟨hp, -⟩ | ⟨-, -, hst, -⟩
    · exact .inl ⟨hp, rfl⟩
    · simp at hst
  | some x =>
    obtain ⟨st, d⟩ := x
    by_cases hst : st = .shared ∨ st = .owned
    · refine .inr ⟨st, d, rfl, hst, h.granted hgr hi ?_ (by simp) hre (h.copyOk _ hc).1⟩
      rw [hc]
      simp [hst]
    · refine absurd ?_ h.eff_ne_dataInvalid
      rw [h.settled_grant hgr hi (x := .dataInvalid) (by simp [hc, hst])]

theorem request (h : PortInv G t ask pend q c down ph) (hw : c.waits = none)
    (hr : requestOf r = some k) (hc : k.1 = .shReq → c.copy = none) (ht : r.requester = t)
    (hd : r.dataBuf = none) (hre : r.replyExpected = false) :
    PortInv G t ask pend q { c with waits := some k, up := c.up ++ [r] } down ph := by
  obtain ⟨hreq, rfl, hg⟩ := h.of_waits_none hw
  have hrr : replyOf r = none := replyOf_eq_none_of_request (by simp [hr])
  have htrail : trail [] (c.up ++ [r]) = [] := trail_append_request hreq (by simp [hr])
  exact
    { h with
      phase := by simpa [settled, hrr] using h.phase
      tickets := by simp [hreq, hr, hg]
      reads := fun k' hk' hs => by obtain rfl := some.inj hk'; exact hc hs
      idle := fun _ => htrail
      once := fun _ hne => absurd htrail hne
      due := by have := h.due; simpa [tokens_append, tokens_cons, hre] using this
      upOk := forall_mem_append.mpr ⟨h.upOk, forall_mem_singleton.mpr (.inl ⟨by simp [hr], ht, hd, hre⟩)⟩
      upData := forall_mem_append.mpr ⟨h.upData, by simp [hd]⟩ }

/-! ### Data -/

section

variable (h : PortInv G t ask pend q c down ph)
include h

theorem phase_of_modified (hc : c.copy = some (.modified, d)) :
    down.filterMap grantOf = [] ∧ ∃ wb, ph = .held .modified wb := by
  have hg : down.filterMap grantOf = [] := by
    cases down with
    | nil => rfl
    | cons m ms =>
      cases hm : grantOf m with
      | none => exact h.grants_of_demand (by simp [hc]) hm
      | some k =>
        -- no grant fits a MODIFIED copy
        refine absurd ?_ h.eff_ne_dataInvalid
        have hi : ∃ f, install m = some f ∧ f (some .modified) = some .dataInvalid := by
          unfold grantOf at hm
          unfold install
          split at hm <;> simp_all
        obtain ⟨f, hi, hf⟩ := hi
        rw [h.settled_grant hm hi (x := .dataInvalid) (by simpa [hc] using hf)]
  obtain ⟨wb, rfl, -⟩ := h.phase_of_copy hc hg
  exact ⟨hg, wb, rfl⟩

theorem held_of_copy (hc : c.copy = some (st, d)) :
    (st = .shared ∨ st = .owned ∨ st = .modified) ∧ ∃ st' wb, ph = .held st' wb ∧
      (st' = st ∨ st' = .modified ∧ (st = .shared ∨ st = .owned)) := by
  have hno : down.filterMap grantOf = [] → (st = .shared ∨ st = .owned ∨ st = .modified) ∧ ∃ st' wb,
      ph = .held st' wb ∧ (st' = st ∨ st' = .modified ∧ (st = .shared ∨ st = .owned)) := fun hg =>
    let ⟨wb, hph, hst, _⟩ := h.phase_of_copy hc hg
    ⟨hst, st, wb, hph, .inl rfl⟩
  cases down with
  | nil => exact hno rfl
  | cons m ms =>
    cases hm : grantOf m with
    | none => exact hno (h.grants_of_demand (by simp [hc]) hm)
    | some k =>
      have hty : m.type = .exRep ∨ m.type = .shRep ∨ m.type = .upgradeRep := by
        unfold grantOf at hm
        split at hm <;> simp_all
      rcases hty with hty | hty | hty
      · exact absurd (h.receive (.inl hty)).1 (by simp [hc])
      · exact absurd (h.receive (.inr hty)).1 (by simp [hc])
      · obtain ⟨-, ⟨-, hn⟩ | ⟨st', d', hc', hst, h'⟩⟩ := h.receiveUpgrade hty
        · simp [hc] at hn
        · obtain ⟨rfl, rfl⟩ := Prod.mk.inj (some.inj (hc.symm.trans hc'))
          obtain ⟨-, wb, hph⟩ := h'.phase_of_modified rfl
          exact ⟨hst.imp id .inl, .modified, wb, hph, .inr ⟨rfl, hst⟩⟩

theorem setData {copy : Option (CacheState × LineData)} (hg : down.filterMap grantOf = [])
    (hrel : ∀ k ∈ c.up.filterMap replyOf, k.1 = .invRep)
    (hc : copy.map Prod.fst = c.copy.map Prod.fst) (hG : ∀ x ∈ copy, G' x.2) :
    PortInv G' t ask pend q { c with copy } down ph := by
  have hset : settled { c with copy } down = settled c down := by rw [settled, settled, hc]
  have hsome : copy ≠ none → c.copy ≠ none := fun hne he => hne (by simpa [he] using hc)
  refine
    { h with
      phase := hset ▸ h.phase
      live := hset ▸ h.live
      wb := hset ▸ h.wb
      reads := fun k hk hs => by simpa [h.reads k hk hs] using hc
      ready := fun hne => h.ready (hsome hne)
      copyOk := fun x hx => ⟨hG x hx, ?_⟩
      downData := fun m hm d hd => ?_
      upData := fun m hm d hd => ?_ }
  · obtain rfl : copy = some x := hx
    cases hcc : c.copy with
    | none => simp [hcc] at hc
    | some y =>
      have : x.1 = y.1 := by simpa [hcc] using hc
      rw [this]
      exact (h.copyOk y hcc).2
  · simp [(h.downOk m hm).no_data (filterMap_eq_nil_iff.mp hg m hm)] at hd
  · rcases h.upOk m hm with ⟨-, -, hn, -⟩ | ⟨-, hn⟩ | ⟨ht, -⟩ | ⟨ht, -⟩
    · simp [hn] at hd
    · simp [hn] at hd
    all_goals
      have := hrel (m.type, m.replyExpected) (mem_filterMap.mpr ⟨m, hm, replyOf_eq (by simp [ht])⟩)
      simp [ht] at this

end

theorem of_out (h : PortInv G t ask pend q c down .out) : PortInv G' t ask pend q c down .out := by
  obtain ⟨he, hacks⟩ := h.phase
  obtain ⟨hc, hg, -⟩ := h.of_eff_none he
  exact h.setData hg (fun k hk => by rw [hacks k hk]) rfl (by simp [hc])

theorem store {V : LineData} (h : PortInv G t ask pend q c down ph)
    (hc : c.copy = some (.modified, d)) (hph : ph = .held .modified false) (hV : G' V) :
    PortInv G' t ask pend q { c with copy := some (.modified, V) } down ph := by
  subst hph
  refine h.setData (h.phase_of_modified hc).1 ?_ (by simp [hc]) ?_
  · have : c.up.filterMap replyOf = [] := h.phase.2.2
    simp [this]
  · rintro x hx
    obtain rfl := some.inj hx
    exact hV

/-! ### What the directory wants of the client -/

theorem pend_of_none (h : PortInv G t .none pend q c down ph) : pend = false := by
  cases pend with
  | false => rfl
  | true => cases h.pending rfl

theorem of_none {ask' : Ask} (h : PortInv G t .none pend q c down ph) :
    PortInv G t ask' pend q c down ph :=
  { h with
    live := by
      have hl : (settled c down).2.map (demandOf t) = [] := h.live
      rw [hl]
      cases ask' <;> simp [Ask.Allows]
    wb := fun hw => by cases (h.wb hw).1
    idle := fun _ => h.idle rfl
    once := fun _ hne => absurd (h.idle rfl) hne
    pending := fun hp => by cases h.pending hp }

theorem calm (h : PortInv G t ask false q c down .out) : PortInv G t .none false q c down .out := by
  obtain ⟨he, hacks⟩ := h.phase
  obtain ⟨-, -, hset⟩ := h.of_eff_none he
  have hrel : c.up.filterMap replyOf = [] := by
    refine eq_nil_iff_forall_not_mem.mpr fun k hk => ?_
    obtain ⟨m, hm, hr⟩ := mem_filterMap.mp hk
    rw [hacks k hk] at hr
    have hre : m.replyExpected = true := by
      unfold replyOf at hr
      split at hr <;> simp_all
    have : 0 < tokens c.up := countP_pos_iff.mpr ⟨m, hm, hre⟩
    have := h.due
    simp at this
    omega
  exact
    { h with
      live := by rw [hset]; rfl
      wb := fun hw => by cases hw
      idle := fun _ => h.trail_nil hrel
      once := fun hf => by cases hf
      pending := fun hp => by cases hp }

theorem of_queued (h : PortInv G t ask pend (k :: q) c down ph) :
    c.waits = some k ∧ q = [] ∧ down.filterMap grantOf = [] := by
  have ht := h.tickets
  rw [append_assoc, cons_append] at ht
  obtain ⟨hw, -, hq⟩ := only_ticket ht
  exact ⟨hw, append_eq_nil_iff.mp hq⟩

/-- A client whose request is in the queue and that is left in peace has nothing on the way. -/
theorem up_of_queued (h : PortInv G t .none pend q c down ph) (hq : q ≠ []) : c.up = [] := by
  have := h.idle rfl
  rwa [trail_of_ne hq] at this

theorem phase_of_queued (h : PortInv G t .none pend (k :: q) c down ph) :
    ph = .out ∨ ∃ st, ph = .held st false := by
  have hup := h.up_of_queued (by simp)
  obtain ⟨-, -, hg⟩ := h.of_queued
  cases hc : c.copy with
  | some x =>
    obtain ⟨st, d⟩ := x
    obtain ⟨wb, rfl, -, hrel⟩ := h.phase_of_copy hc hg
    refine .inr ⟨st, ?_⟩
    cases wb with
    | false => rfl
    | true => simp [hup, wbs] at hrel
  | none =>
    have hp := h.phase
    rw [h.settled_of_no_copy hc hg, hup] at hp
    cases ph with
    | out => exact .inl rfl
    | held st wb => cases hp.1
    | left f wb => obtain ⟨-, b, acks, -, hrel⟩ := hp; simp at hrel
    | doomed => cases hp.1

theorem out_of_read (h : PortInv G t .none pend (k :: q) c down ph)
    (hk : k.1 = .shReq) : ph = .out := by
  rcases h.phase_of_queued with hp | ⟨st, rfl⟩
  · exact hp
  obtain ⟨hw, -, hg⟩ := h.of_queued
  have hp := h.phase.1
  rw [h.settled_of_no_copy (h.reads _ hw hk) hg] at hp
  cases hp

/-! ### The directory takes a message -/

theorem popRequest (h : PortInv G t ask pend q c down ph) (hup : c.up = m :: ms)
    (hm : requestOf m = some k) :
    m.requester = t ∧ m.dataBuf = none ∧ PortInv G t ask pend (q ++ [k]) { c with up := ms } down ph := by
  have hq : q = [] := by
    have := h.requests_le
    rw [hup, filterMap_cons_some hm] at this
    cases q with
    | nil => rfl
    | cons a q => simp at this
  subst hq
  have hrr : replyOf m = none := replyOf_eq_none_of_request (by simp [hm])
  obtain ⟨-, ht, hd, hre⟩ : (requestOf m).isSome ∧ m.requester = t ∧ m.dataBuf = none ∧
      m.replyExpected = false := by
    rcases h.upOk m (by simp [hup]) with h' | ⟨h', -⟩ | ⟨h', -⟩ | ⟨h', -⟩
    · exact h'
    all_goals simp [requestOf, h'] at hm
  have htrail : trail ([] ++ [k]) ms = trail [] c.up := by
    rw [hup, trail_cons_request (by simp [hm])]
    rfl
  refine ⟨ht, hd, ?_⟩
  exact
    { h with
      phase := by simpa [settled, hup, hrr] using h.phase
      tickets := by
        have hms : ms.filterMap requestOf = [] := by
          have := h.requests_le
          rw [hup, filterMap_cons_some hm] at this
          simpa using this
        simpa [hup, hm, hms] using h.tickets
      idle := fun ha => htrail.trans (h.idle ha)
      once := fun ha hne => by
        have := h.once ha (htrail ▸ hne)
        simpa [hup, hrr] using this
      due := by have := h.due; simpa [hup, tokens_cons, hre] using this
      upOk := fun m' hm' => h.upOk m' (by simp [hup, hm'])
      upData := fun m' hm' => h.upData m' (by simp [hup, hm']) }

theorem popReply {k : MsgType} {b : Bool} (h : PortInv G t ask pend q c down ph) (hup : c.up = m :: ms)
    (hm : replyOf m = some (k, b)) : (b = true → pend = true) ∧ ∃ p, Phase.Answers k b ph p ∧
      PortInv G t ask.answered (pend && !b) q { c with up := ms } down p := by
  have hrr : requestOf m = none := requestOf_eq_none_of_reply (by simp [hm])
  have hb : m.replyExpected = b := by
    unfold replyOf at hm
    split at hm <;> simp_all
  have hdue := h.due
  rw [hup, tokens_cons, hb] at hdue
  have hpend : b = true → pend = true := fun hb' => by
    cases pend with
    | true => rfl
    | false => simp [hb'] at hdue
  refine ⟨hpend, ?_⟩
  -- the answered phase, and what is left of the replies
  obtain ⟨p, hans, hp, hwb⟩ : ∃ p, Phase.Answers k b ph p ∧
      p.Holds (settled c down).1 (ms.filterMap replyOf) ∧ p.isWb = false := by
    have hp := h.phase
    rw [hup, filterMap_cons_some hm] at hp
    cases ph with
    | out =>
      obtain ⟨he, hacks⟩ := hp
      obtain ⟨rfl, rfl⟩ := Prod.mk.inj (hacks (k, b) (by simp))
      exact ⟨_, .ack, ⟨he, fun k hk => hacks k (by simp [hk])⟩, rfl⟩
    | held st wb =>
      obtain ⟨he, hst, hrel⟩ := hp
      cases wb with
      | false => simp [wbs] at hrel
      | true =>
        obtain ⟨⟨rfl, rfl⟩, hms⟩ : (k = .wbRep ∧ b = false) ∧ ms.filterMap replyOf = [] := by
          simpa [wbs] using hrel
        exact ⟨_, .wb, ⟨he, hst, hms⟩, rfl⟩
    | left f wb =>
      obtain ⟨he, b', acks, hacks, hrel⟩ := hp
      cases wb with
      | false =>
        obtain ⟨⟨rfl, rfl⟩, hms⟩ : (k = (if f then .flushRep else .invRep) ∧ b = b') ∧
            ms.filterMap replyOf = acks := by simpa [wbs] using hrel
        refine ⟨.out, ?_, ⟨he, hms ▸ hacks⟩, rfl⟩
        cases f
        · exact .inv
        · exact .flush
      | true =>
        obtain ⟨⟨rfl, rfl⟩, hms⟩ : (k = .wbRep ∧ b = false) ∧
            ms.filterMap replyOf = (if f then .flushRep else .invRep, b') :: acks := by
          simpa [wbs] using hrel
        exact ⟨_, .wbLeft, ⟨he, b', acks, hacks, hms⟩, rfl⟩
    | doomed => simp [Phase.Holds] at hp
  have hlive : ask = .fetch → (settled c down).2 = [] := by
    intro hf
    cases hans with
    | ack => exact absurd (h.pending (hpend rfl)) (by simp [hf])
    | inv => exact live_of_eff_none h.phase.1
    | flush => exact live_of_eff_none h.phase.1
    | wb => exact (h.wb rfl).2
    | wbLeft => exact (h.wb rfl).2
  have htrail : ask ≠ .clear → trail q ms = [] := by
    intro hne
    have hold : trail q (m :: ms) = [] → trail q ms = [] := fun ht => by
      by_cases hq : q = []
      · subst hq; rwa [trail_cons_reply hrr] at ht
      · rw [trail_of_ne hq] at ht; cases ht
    cases ask with
    | clear => exact absurd rfl hne
    | none => exact hold (hup ▸ h.idle rfl)
    | fetch =>
      by_cases ht : trail q (m :: ms) = []
      · exact hold ht
      · have hlen := h.once rfl (hup ▸ ht)
        rw [hup, filterMap_cons_some hm, length_cons] at hlen
        refine trail_eq_nil (fun m' hm' => h.upOk m' (by simp [hup, hm'])) ?_
          (length_eq_zero_iff.mp (by omega))
        have := h.requests_le
        simpa [hup, hrr] using this
  refine ⟨p, hans, ?_⟩
  exact
    { h with
      phase := hp
      live := by
        cases ask with
        | none => exact h.live
        | clear => exact h.live
        | fetch => simp [Ask.answered, Ask.Allows, settled, show (settle _ _ _).2 = [] from hlive rfl]
      wb := fun hw => by simp [hwb] at hw
      tickets := by simpa [hup, hrr] using h.tickets
      idle := fun ha => htrail fun hc => by simp [hc, Ask.answered] at ha
      once := fun ha => by cases ask <;> simp [Ask.answered] at ha
      due := by
        cases b with
        | false => simpa using hdue
        | true => simp [hpend rfl] at hdue ⊢; omega
      pending := fun hp => by
        have := h.pending (by simp at hp; exact hp.1)
        simp [this, Ask.answered]
      upOk := fun m' hm' => h.upOk m' (by simp [hup, hm'])
      upData := fun m' hm' => h.upData m' (by simp [hup, hm']) }

/-! ### The directory sends a message -/

theorem eff_of_reader (h : PortInv G t ask pend q c down ph) (hp : ph.isReader)
    (he : (settled c down).1 = some st) : st = .shared := by
  rcases h.phase_of_eff he with ⟨rfl, -⟩ | ⟨wb, rfl, -⟩
  · cases hp
  · cases st <;> first | rfl | cases hp

theorem settled_push (c : Client A N) (down : List (ShmemMsg A N)) (hi : install m = none) : settled c (down ++ [m]) =
    ((settled c down).1, if (settled c down).1 = none then [] else (settled c down).2 ++ [m]) := by
  cases he : (settled c down).1 with
  | none => rw [if_pos rfl]; exact settle_concat_demand_none hi he
  | some x => rw [if_neg (by simp)]; exact settle_concat_demand_some hi he

theorem push {ask' : Ask} {pend' : Bool} (h : PortInv G t ask pend q c down ph) (hm : DownOk m)
    (hg : grantOf m = none)
    (hlive : ∀ st, (settled c down).1 = some st →
      ask'.Allows (some st) ((settled c down).2.map (demandOf t) ++ [demandOf t m]))
    (hwb : ph.isWb = false) (hidle : ask' = .none → trail q c.up = [])
    (honce : ask' = .fetch → trail q c.up = [])
    (hdue : (if pend' then 1 else 0) = (if pend then 1 else 0) + if m.replyExpected then 1 else 0)
    (hpend : pend' → ask' = .clear) : PortInv G t ask' pend' q c (down ++ [m]) ph := by
  have hset := settled_push c down ((install_eq_none hm).mpr hg)
  refine
    { h with
      phase := by rw [hset]; exact h.phase
      live := ?_
      wb := fun hw => by simp [hwb] at hw
      tickets := by simpa [hg] using h.tickets
      ready := fun hne => ?_
      order := ?_
      idle := hidle
      once := fun ha hne => absurd (honce ha) hne
      due := ?_
      pending := hpend
      downOk := ?_
      downData := ?_ }
  · rw [hset]
    cases he : (settled c down).1 with
    | none => cases ask' <;> simp [Ask.Allows]
    | some st => simpa using hlive st he
  · exact pairwise_append.mpr ⟨h.ready hne, pairwise_singleton _ _, fun _ _ m' hm' => by
      rwa [mem_singleton.mp hm']⟩
  · exact pairwise_append.mpr ⟨h.order, pairwise_singleton _ _, fun _ _ m' hm' _ => by
      rwa [mem_singleton.mp hm']⟩
  · have := h.due
    simp only [tokens_append, tokens_cons, tokens_nil]
    omega
  · exact forall_mem_append.mpr ⟨h.downOk, by simpa⟩
  · exact forall_mem_append.mpr ⟨h.downData, by simp [hm.no_data hg]⟩

theorem wb_of_ask (h : PortInv G t ask pend q c down ph) (ha : ask ≠ .fetch) : ph.isWb = false := by
  by_contra hw
  exact ha (h.wb (by simpa using hw)).1

theorem pushClear (h : PortInv G t .clear pend q c down ph) (hm : DownOk m) (hg : grantOf m = none)
    (hk : demandOf t m = .flushReq ∨ demandOf t m = .invReq ∧
      ∀ st, (settled c down).1 = some st → st = .shared)
    (hp : m.replyExpected = true → pend = false) :
    PortInv G t .clear (pend || m.replyExpected) q c (down ++ [m]) ph := by
  refine h.push hm hg (fun st he => ?_) (h.wb_of_ask (by simp)) (by simp) (by simp) ?_ fun _ => rfl
  · intro k hk'
    rcases mem_append.mp hk' with hk' | hk'
    · rw [← he]; exact h.live k hk'
    · rw [mem_singleton.mp hk']
      exact hk.imp id fun ⟨h1, h2⟩ => ⟨h1, by rw [h2 st he]⟩
  · cases hre : m.replyExpected with
    | false => simp
    | true => simp [hp hre]

theorem pushFetch (h : PortInv G t .none pend q c down ph)
    (hm : m.type = .wbReq ∨ m.type = .flushReq) (hd : m.dataBuf = none)
    (hre : m.replyExpected = false) : PortInv G t .fetch pend q c (down ++ [m]) ph := by
  have hok : DownOk m := by
    rcases hm with hm | hm
    · exact .inr (.inl ⟨.inr hm, hd, hre⟩)
    · exact .inr (.inr ⟨.inr (.inl hm), hd⟩)
  have hg : grantOf m = none := by rcases hm with hm | hm <;> simp [grantOf, hm]
  have hl : (settled c down).2.map (demandOf t) = [] := h.live
  refine h.push hok hg (fun st _ => ?_) (h.wb_of_ask (by simp)) (by simp) (fun _ => h.idle rfl) ?_
    fun hp => ?_
  · rw [hl]
    rcases hm with hm | hm <;> simp [Ask.Allows, demandOf, hm]
  · simp [hre]
  · cases h.pending hp

theorem grant {f : Option CacheState → Option CacheState} {p : Phase}
    (h : PortInv G t .none pend (k :: q) c down ph) (hm : DownOk m) (hg : grantOf m = some k)
    (hi : install m = some f) (hp : p.Holds (f (settled c down).1) []) (hwb : p.isWb = false)
    (hd : ∀ d ∈ m.dataBuf, G d) : PortInv G t .none pend q c (down ++ [m]) p := by
  have hup := h.up_of_queued (by simp)
  have hpend := h.pend_of_none
  obtain ⟨hw, hq, hgr⟩ := h.of_queued
  have hre := hm.not_expected (.inl (by simp [hg]))
  have hdown : tokens down = 0 := by
    have := h.due
    simp only [hpend, Bool.false_eq_true, if_false] at this
    omega
  have hset : settled c (down ++ [m]) = (f (settled c down).1, []) := settle_concat_grant hi
  refine
    { h with
      phase := by rw [hset, hup]; exact hp
      live := by rw [hset]; rfl
      wb := fun hw => by simp [hwb] at hw
      tickets := by simp [hup, hq, hgr, hg, hw]
      ready := fun hne => ?_
      order := ?_
      idle := fun _ => by rw [hup, hq]; rfl
      once := fun ha => by cases ha
      due := by simp [hpend, hup, tokens_append, tokens_cons, hre, hdown]
      downOk := ?_
      downData := ?_ }
  · -- no demand is on the way to the copy
    obtain ⟨⟨st, d⟩, hc⟩ := ne_none_iff_exists'.mp hne
    have hl : (settled c down).2.map (demandOf t) = [] := h.live
    rw [h.settled_of_copy hc hgr, map_eq_nil_iff] at hl
    have hl : down = [] := hl
    simp [hl]
  · refine pairwise_append.mpr ⟨h.order, pairwise_singleton _ _, fun m' hm' _ _ he => ?_⟩
    have : 0 < tokens down := countP_pos_iff.mpr ⟨m', hm', he⟩
    omega
  · exact forall_mem_append.mpr ⟨h.downOk, by simpa⟩
  · exact forall_mem_append.mpr ⟨h.downData, by simpa⟩

theorem grantCopy (h : PortInv G t .none pend (k :: q) c down .out)
    (hm : m.type = .exRep ∨ m.type = .shRep) (hg : grantOf m = some k) (hd : m.dataBuf = some d)
    (hG : G d) (hre : m.replyExpected = false) : PortInv G t .none pend q c (down ++ [m])
      (.held (if m.type = .exRep then .modified else .shared) false) := by
  have hi : install m = some fun c => some
      (if c = none then if m.type = .exRep then .modified else .shared else .dataInvalid) := by
    rcases hm with hm | hm <;> simp [install, hm]
  refine h.grant (.inl ⟨hm, by simp [hd], hre⟩) hg hi ?_ rfl (by simpa [hd] using hG)
  rw [h.phase.1]
  refine ⟨rfl, ?_, rfl⟩
  rcases hm with hm | hm <;> simp [hm]

theorem upgrade (h : PortInv G t .none pend (k :: q) c down ph)
    (hm : m.type = .upgradeRep) (hg : grantOf m = some k) (hd : m.dataBuf = none)
    (hre : m.replyExpected = false)
    (hph : ph = .out ∨ ph = .held .shared false ∨ ph = .held .owned false) :
    PortInv G t .none pend q c (down ++ [m])
      (if ph = .out then .doomed else .held .modified false) := by
  have hi : install m = some fun c => some (if c = some .shared ∨ c = some .owned then .modified else
      if c = none then .invalid else .dataInvalid) := by simp [install, hm]
  have hp := h.phase
  refine h.grant (.inr (.inl ⟨.inl hm, hd, hre⟩)) hg hi ?_ (by split <;> rfl) (by simp [hd])
  rcases hph with rfl | rfl | rfl
  · rw [hp.1]
    exact ⟨rfl, rfl⟩
  · rw [hp.1]
    exact ⟨rfl, by simp, rfl⟩
  · rw [hp.1]
    exact ⟨rfl, by simp, rfl⟩

end PortInv

end Graphite.Mosi
