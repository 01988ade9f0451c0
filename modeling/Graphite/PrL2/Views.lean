import Graphite.PrL2.Caches

/-! # The machine seen from one line

As a client a tile has a copy of the line in its L2, an outstanding request and messages on the way to
the directory; as the home it has a directory entry, a request queue, DRAM contents and messages on
the way to the clients. The L2 controllers work on clients and the directory controllers on homes, and
messages of other lines are not seen.
-/

namespace Graphite.PrL2

open Outcome SetAssoc List

variable {A : Type} [DecidableEq A] {N : ℕ} {H : Type}

/-- A message to the directory about line `a`. -/
def isToDirectory (a : A) (m : ShmemMsg A N) : Bool :=
  m.receiverComponent = .dramDirectory && m.address = a

/-- A message of the directory to an L2 about line `a`. -/
def isFromDirectory (a : A) (m : ShmemMsg A N) : Bool :=
  m.receiverComponent = .l2Cache && m.senderComponent = .dramDirectory && m.address = a

def isFromL1 (m : ShmemMsg A N) : Bool :=
  m.receiverComponent = .l2Cache && (m.senderComponent = .l1ICache || m.senderComponent = .l1DCache)

/-- What a request asks for, and whether it is modeled. -/
def ticket (m : ShmemMsg A N) : MsgType × Bool := (m.type, m.modeled)

def requestOf (m : ShmemMsg A N) : Option (MsgType × Bool) :=
  match m.type with
  | .exReq | .shReq => some (ticket m)
  | _ => none

def grantOf (m : ShmemMsg A N) : Option (MsgType × Bool) :=
  match m.type with
  | .exRep | .upgradeRep => some (.exReq, m.modeled)
  | .shRep => some (.shReq, m.modeled)
  | _ => none

/-- A tile as a client of a line. -/
structure Client (A : Type) (N : ℕ) where
  copy : Option (CacheState × LineData)
  waits : Option (MsgType × Bool)
  up : List (ShmemMsg A N)

/-- A tile as the home of a line; `replaced` says that its entry has left the table. -/
structure HomeLine (A : Type) (N : ℕ) (R : Type) where
  entry : DirectoryEntry N
  replaced : Prop
  queue : List R
  cached : Option LineData
  dram : Option LineData
  down : Fin N → List (ShmemMsg A N)

/-- The tickets of tile `t` in a request queue. -/
def queued (q : List (ShmemMsg A N)) (t : Fin N) : List (MsgType × Bool) :=
  (q.filter fun r => r.requester = t).filterMap requestOf

variable (cfg : Config A N) (t : Fin N) (x : Tile A N H) (a : A)

def Tile.waits : Option (MsgType × Bool) := (x.outstanding.filter fun m => m.address = a).map ticket

def Tile.up : List (ShmemMsg A N) := (x.out (cfg.home a)).filter (isToDirectory a)

def Tile.down (u : Fin N) : List (ShmemMsg A N) := (x.out u).filter (isFromDirectory a)

def Tile.fromL1 : List (ShmemMsg A N) := (x.out t).filter isFromL1

def client : Client A N := ⟨copy cfg t x a, x.waits a, x.up cfg a⟩

/-- What the channel from `src` to `dst` may carry. -/
def Routed (src dst : Fin N) (m : ShmemMsg A N) : Prop :=
  m.receiverComponent = .dramDirectory ∧ m.senderComponent = .l2Cache ∧ dst = cfg.home m.address ∨
  m.receiverComponent = .l2Cache ∧ m.senderComponent = .dramDirectory ∧ src = cfg.home m.address ∨
  isFromL1 m = true ∧ src = dst

abbrev AllRouted : Prop := ∀ u, ∀ m ∈ x.out u, Routed cfg t u m

variable {cfg t x a} {m : ShmemMsg A N} {d u : Fin N} {b : A}

section
omit [DecidableEq A]

theorem requestOf_exReq (h : m.type = .exReq) : requestOf m = some (.exReq, m.modeled) := by
  simp [requestOf, h, ticket]

theorem requestOf_shReq (h : m.type = .shReq) : requestOf m = some (.shReq, m.modeled) := by
  simp [requestOf, h, ticket]

theorem type_of_requestOf (h : (requestOf m).isSome) : m.type = .exReq ∨ m.type = .shReq := by
  unfold requestOf at h
  split at h <;> simp_all

end

section Queue

variable {q q' : List (ShmemMsg A N)} {r : ShmemMsg A N}

section
omit [DecidableEq A]

@[simp] theorem queued_nil : queued ([] : List (ShmemMsg A N)) t = [] := rfl

theorem queued_append : queued (q ++ q') t = queued q t ++ queued q' t := by
  simp [queued]

theorem queued_cons_self {k : MsgType × Bool} (hk : requestOf r = some k) :
    queued (r :: q) r.requester = k :: queued q r.requester := by
  simp [queued, hk]

theorem queued_cons_of_ne (h : r.requester ≠ t) : queued (r :: q) t = queued q t := by
  simp [queued, h]

theorem queued_cons_of_none (h : requestOf r = none) : queued (r :: q) t = queued q t := by
  by_cases ht : r.requester = t
  · simp [queued, ht, h]
  · exact queued_cons_of_ne ht

end

/-- The requests that wait for line `a`: those of clients, at most behind the NULLIFY_REQ of an entry
that is replaced. -/
structure Waits (a : A) (q : List (ShmemMsg A N)) (P : Prop) : Prop where
  requests : ∀ r ∈ q, r.address = a ∧ ((requestOf r).isSome ∨ r.type = .nullifyReq)
  tail : ∀ r ∈ q.tail, (requestOf r).isSome
  replaced : P ↔ ∃ r q', q = r :: q' ∧ r.type = .nullifyReq

namespace Waits

variable {a : A} {P : Prop} {k : MsgType × Bool}

section
omit [DecidableEq A]

theorem append (h : Waits a q P) (hr : requestOf r = some k) (ha : r.address = a) :
    Waits a (q ++ [r]) P := by
  have hn : r.type ≠ .nullifyReq := fun e => by simp [requestOf, e] at hr
  refine ⟨forall_mem_append.mpr ⟨h.requests, by simp [ha, hr]⟩, ?_, ?_⟩
  · cases q with
    | nil => simp
    | cons r' q => exact forall_mem_append.mpr ⟨h.tail, by simp [hr]⟩
  · rw [h.replaced]
    cases q with
    | nil => simp [hn]
    | cons r' q => simp

theorem not_replaced (h : Waits a (r :: q) P) (hr : requestOf r = some k) : ¬ P := by
  rw [h.replaced]
  rintro ⟨r', q', hq', hr'⟩
  obtain ⟨rfl, -⟩ := cons.inj hq'
  simp [requestOf, hr'] at hr

theorem next {P' : Prop} (h : Waits a (r :: q) P) (hP : ¬ P') : Waits a q P' where
  requests r' hr' := h.requests r' (by simp [hr'])
  tail r' hr' := h.tail r' (mem_of_mem_tail hr')
  replaced := by
    refine iff_of_false hP ?_
    rintro ⟨r', q', rfl, hr'⟩
    simpa [requestOf, hr'] using h.tail r' (by simp)

end

end Waits

end Queue

/-! ## Sending -/

section Send

theorem up_send (h : m.receiverComponent = .dramDirectory) :
    (x.send (cfg.home m.address) m).up cfg b = if b = m.address then x.up cfg b ++ [m] else
      x.up cfg b := by
  by_cases hb : b = m.address
  · subst hb; simp [Tile.up, Tile.send, isToDirectory, h]
  · by_cases hd : cfg.home b = cfg.home m.address
    · simp [Tile.up, Tile.send, isToDirectory, hb, Ne.symm hb, hd]
    · simp [Tile.up, Tile.send, hb, hd]

theorem isToDirectory_iff :
    isToDirectory a m = true ↔ m.receiverComponent = .dramDirectory ∧ m.address = a := by
  simp [isToDirectory]

theorem client_send (h : isToDirectory a m = true) : client cfg t (x.send (cfg.home a) m) b =
    if b = a then { client cfg t x a with up := (client cfg t x a).up ++ [m] } else
      client cfg t x b := by
  obtain ⟨hr, rfl⟩ := isToDirectory_iff.mp h
  split
  · next hb => subst hb; simp only [client, up_send hr, if_true]; rfl
  · next hb => simp only [client, up_send hr, if_neg hb]; rfl

theorem up_send_of_l2 (h : m.receiverComponent = .l2Cache) :
    (x.send d m).up cfg b = x.up cfg b := by
  by_cases hd : cfg.home b = d
  · simp [Tile.up, Tile.send, isToDirectory, h, hd]
  · simp [Tile.up, Tile.send, hd]

theorem down_send (h : m.receiverComponent = .l2Cache) (hs : m.senderComponent = .dramDirectory) :
    (x.send d m).down b u = if b = m.address ∧ u = d then x.down b u ++ [m] else x.down b u := by
  by_cases hu : u = d
  · subst hu
    by_cases hb : b = m.address
    · subst hb; simp [Tile.down, Tile.send, isFromDirectory, h, hs]
    · simp [Tile.down, Tile.send, isFromDirectory, hb, Ne.symm hb]
  · simp [Tile.down, Tile.send, hu]

theorem down_send_of_ne (h : m.receiverComponent ≠ .l2Cache ∨ m.senderComponent ≠ .dramDirectory) :
    (x.send d m).down b u = x.down b u := by
  by_cases hu : u = d
  · rcases h with h | h <;> simp [Tile.down, Tile.send, isFromDirectory, hu, h]
  · simp [Tile.down, Tile.send, hu]

section
omit [DecidableEq A]

theorem isFromL1_of_ne (h : m.receiverComponent ≠ .l2Cache) : isFromL1 m = false := by
  simp [isFromL1, h]

theorem isFromL1_iff : isFromL1 m = true ↔ m.receiverComponent = .l2Cache ∧
    (m.senderComponent = .l1ICache ∨ m.senderComponent = .l1DCache) := by
  simp [isFromL1]

theorem fromL1_send (h : isFromL1 m = false) : (x.send d m).fromL1 t = x.fromL1 t := by
  by_cases hd : t = d
  · simp [Tile.fromL1, Tile.send, hd, h]
  · simp [Tile.fromL1, Tile.send, hd]

theorem fromL1_send_self (h : isFromL1 m = true) : (x.send t m).fromL1 t = x.fromL1 t ++ [m] := by
  simp [Tile.fromL1, Tile.send, h]

theorem routed_send (h : AllRouted cfg t x) (hm : Routed cfg t d m) :
    AllRouted cfg t (x.send d m) := by
  intro u m' hm'
  by_cases hu : u = d
  · subst hu
    rcases (by simpa [Tile.send] using hm' : m' ∈ x.out u ∨ m' = m) with h' | rfl
    · exact h u m' h'
    · exact hm
  · exact h u m' (by simpa [Tile.send, hu] using hm')

end

end Send

/-! ## Receiving -/

section Receive

variable {ms : List (ShmemMsg A N)}

/-- The tile without the first message on its channel to `d`. -/
def Tile.pop (x : Tile A N H) (d : Fin N) : Tile A N H :=
  { x with out := Function.update x.out d (x.out d).tail }

section

variable (hm : x.out d = m :: ms)
include hm

theorem up_pop (h : m.receiverComponent = .dramDirectory) (hd : d = cfg.home m.address) :
    x.up cfg m.address = m :: (x.pop d).up cfg m.address ∧
      ∀ b ≠ m.address, (x.pop d).up cfg b = x.up cfg b := by
  subst hd
  refine ⟨by simp [Tile.up, Tile.pop, hm, isToDirectory, h], fun b hb => ?_⟩
  by_cases hd : cfg.home b = cfg.home m.address
  · simp [Tile.up, Tile.pop, hd, hm, isToDirectory, Ne.symm hb]
  · simp [Tile.up, Tile.pop, hd]

theorem up_pop_of_l2 (h : m.receiverComponent = .l2Cache) : (x.pop d).up cfg b = x.up cfg b := by
  by_cases hd : cfg.home b = d
  · simp [Tile.up, Tile.pop, hd, hm, isToDirectory, h]
  · simp [Tile.up, Tile.pop, hd]

theorem down_pop (h : m.receiverComponent = .l2Cache) (hs : m.senderComponent = .dramDirectory) :
    x.down m.address d = m :: (x.pop d).down m.address d ∧
      ∀ b u, ¬ (b = m.address ∧ u = d) → (x.pop d).down b u = x.down b u := by
  refine ⟨by simp [Tile.down, Tile.pop, hm, isFromDirectory, h, hs], fun b u hb => ?_⟩
  by_cases hu : u = d
  · have hb' : m.address ≠ b := fun e => hb ⟨e.symm, hu⟩
    simp [Tile.down, Tile.pop, hu, hm, isFromDirectory, hb']
  · simp [Tile.down, Tile.pop, hu]

theorem down_pop_of_ne (h : m.receiverComponent ≠ .l2Cache ∨ m.senderComponent ≠ .dramDirectory) :
    (x.pop d).down b u = x.down b u := by
  by_cases hu : u = d
  · rcases h with h | h <;> simp [Tile.down, Tile.pop, hu, hm, isFromDirectory, h]
  · simp [Tile.down, Tile.pop, hu]

omit [DecidableEq A] in
theorem fromL1_pop (h : isFromL1 m = false) : (x.pop d).fromL1 t = x.fromL1 t := by
  by_cases hd : t = d
  · simp [Tile.fromL1, Tile.pop, hd, hm, h]
  · simp [Tile.fromL1, Tile.pop, hd]

end

section
omit [DecidableEq A]

theorem fromL1_pop_self (hm : x.out t = m :: ms) (h : isFromL1 m = true) :
    x.fromL1 t = m :: (x.pop t).fromL1 t := by
  simp [Tile.fromL1, Tile.pop, hm, h]

theorem routed_pop (h : AllRouted cfg t x) : AllRouted cfg t (x.pop d) := by
  intro u m' hm'
  by_cases hu : u = d
  · subst hu
    exact h u m' (mem_of_mem_tail (by simpa [Tile.pop] using hm'))
  · exact h u m' (by simpa [Tile.pop, hu] using hm')

end

end Receive

end Graphite.PrL2
