import Graphite.Library.Outcome
import Mathlib

/-! # Messages on a socket

A message is sent as its length, its tag and its bytes. The kernel hands the bytes of a connection
over in chunks of any size, or has none at the moment; the update thread reads until it has the length,
then the tag, then the message, and puts the message into the list of its receiver.
-/

namespace Graphite.Framing

open Outcome List

/-- The bytes of a 32-bit word, the lowest one first. -/
def toBytes (w : ℕ) : List UInt8 :=
  [.ofNat w, .ofNat (w / 2 ^ 8), .ofNat (w / 2 ^ 16), .ofNat (w / 2 ^ 24)]

def ofBytes : List UInt8 → ℕ
  | [a, b, c, d] => a.toNat + 2 ^ 8 * b.toNat + 2 ^ 16 * c.toNat + 2 ^ 24 * d.toNat
  | _ => 0

theorem ofBytes_toBytes {w : ℕ} (h : w < 2 ^ 32) : ofBytes (toBytes w) = w := by
  simp only [ofBytes, toBytes, UInt8.toNat_ofNat']
  omega

/-! ## Sending -/

/-- The tags -1, -2 and -3, without sign. -/
def globalTag : ℕ := 2 ^ 32 - 1

def barrierTag : ℕ := 2 ^ 32 - 2

def terminateTag : ℕ := 2 ^ 32 - 3

inductive Message
  | tile (t : ℕ) (data : List UInt8)
  | global (data : List UInt8)
  | barrier

namespace Message

def tag : Message → ℕ
  | .tile t _ => t
  | .global _ => globalTag
  | .barrier => barrierTag

def data : Message → List UInt8
  | .tile _ data | .global data => data
  | .barrier => toBytes 0

/-- What `SockNode::send`, or `barrier`, gives to the socket. -/
def packet (m : Message) : List UInt8 := toBytes m.data.length ++ (toBytes m.tag ++ m.data)

/-- The list of a message: one for each tile, and one for global messages. -/
def list (totalTiles : ℕ) : Message → Option ℕ
  | .tile t _ => some t
  | .global _ => some totalTiles
  | .barrier => none

/-- What `SockNode::send` can send: there is at least one byte, and the length of the packet is a
signed number, as a tile is. -/
structure Ok (totalTiles : ℕ) (m : Message) : Prop where
  pos : m.data ≠ []
  length_lt : m.data.length + 8 < 2 ^ 31
  tile_lt : ∀ t data, m = .tile t data → t < totalTiles ∧ t < 2 ^ 31

end Message

/-! ## Receiving -/

/-- The call of `Socket::recv` that the update thread is in, and the bytes it has got. -/
inductive Pc
  | length (got : List UInt8)
  | tag (length : ℕ) (got : List UInt8)
  | data (length tag : ℕ) (got : List UInt8)

namespace Pc

def got : Pc → List UInt8
  | .length got | .tag _ got | .data _ _ got => got

def withGot (got : List UInt8) : Pc → Pc
  | .length _ => .length got
  | .tag n _ => .tag n got
  | .data n t _ => .data n t got

/-- How many bytes the call is for. -/
def size : Pc → ℕ
  | .length _ | .tag _ _ => 4
  | .data n _ _ => n

/-- The bytes of the packet that have been read. -/
def held : Pc → List UInt8
  | .length got => got
  | .tag n got => toBytes n ++ got
  | .data n t got => toBytes n ++ (toBytes t ++ got)

end Pc

/-- `stream` is what the kernel has not handed over yet, and `lists` what each list ever got. -/
structure State where
  pc : Pc
  stream : List UInt8
  lists : ℕ → List (List UInt8)
  barriers : ℕ

inductive Fault
  | terminate | unexpectedTag

section Receiver

variable (totalTiles : ℕ)

def insertInBufferList (s : State) (tag : ℕ) (buffer : List UInt8) : Except Fault State := do
  let tag := if tag = globalTag then totalTiles else tag
  check (tag < totalTiles + 1) .unexpectedTag
  pure { s with lists := Function.update s.lists tag (s.lists tag ++ [buffer]) }

/-- What `updateBufferLists` does when a call has got all its bytes. -/
def complete (s : State) (got : List UInt8) : Except Fault State :=
  match s.pc with
  | .length _ => pure { s with pc := .tag (ofBytes got) [] }
  | .tag length _ => pure { s with pc := .data length (ofBytes got) [] }
  | .data _ tag _ =>
    let s := { s with pc := .length [] }
    if tag = terminateTag then throw .terminate
    else if tag = barrierTag then pure { s with barriers := s.barriers + 1 }
    else insertInBufferList totalTiles s tag got

/-- The kernel hands `k` bytes over. If it has none, `Socket::recv` returns or tries again. -/
def recv (s : State) (k : ℕ) : Except Fault State :=
  if k = 0 then pure s
  else
    let got := s.pc.got ++ s.stream.take k
    let s := { s with stream := s.stream.drop k }
    if got.length < s.pc.size then pure { s with pc := s.pc.withGot got }
    else complete totalTiles s got

/-- Only the first call to the kernel for some bytes does not block. -/
def receiver (msgs : List Message) : System State ℕ Fault Unit where
  init s := s = ⟨.length [], msgs.flatMap Message.packet, fun _ => [], 0⟩
  enabled s k := k ≤ s.pc.size - s.pc.got.length ∧ k ≤ s.stream.length ∧ (k = 0 → s.pc.got = [])
  step s k := do pure (← recv totalTiles s k, [])

/-- What list `i` gets of messages. -/
def received (i : ℕ) (msgs : List Message) : List (List UInt8) :=
  (msgs.filter (·.list totalTiles = some i)).map Message.data

/-- The call is for a part of the first packet of the messages that follow. -/
inductive At : Pc → List UInt8 → List Message → Prop
  | length {got stream rest} : got.length < 4 → got ++ stream = rest.flatMap Message.packet →
      At (.length got) stream rest
  | tag {got stream rest} {m : Message} : got.length < 4 →
      got ++ stream = toBytes m.tag ++ (m.data ++ rest.flatMap Message.packet) →
      At (.tag m.data.length got) stream (m :: rest)
  | data {got stream rest} {m : Message} : got.length < m.data.length →
      got ++ stream = m.data ++ rest.flatMap Message.packet →
      At (.data m.data.length m.tag got) stream (m :: rest)

/-- The messages before `rest` have been received. -/
structure Inv (done rest : List Message) (s : State) : Prop where
  lists : ∀ i, s.lists i = received totalTiles i done
  barriers : s.barriers = done.countP (·.list totalTiles = none)
  at_ : At s.pc s.stream rest

end Receiver

section Invariant

variable {totalTiles k : ℕ} {s : State} {done rest : List Message} {m : Message}

theorem At.got_lt {pc : Pc} {stream : List UInt8} (h : At pc stream rest) :
    pc.got.length < pc.size := by
  cases h with
  | length hlt _ | tag hlt _ | data hlt _ => exact hlt

/-- The bytes that a call gets last complete its part of the packet. -/
theorem eq_of_append {got stream a b : List UInt8} (h : got ++ stream = a ++ b)
    (hk : got.length + k = a.length) (hle : k ≤ stream.length) :
    got ++ stream.take k = a ∧ stream.drop k = b := by
  apply append_inj
  · rw [append_assoc, take_append_drop, h]
  · rw [length_append, length_take, Nat.min_eq_left hle, hk]

theorem Message.Ok.tag_lt (h : m.Ok totalTiles) : m.tag < 2 ^ 32 := by
  cases m with
  | tile t data => exact Nat.lt_trans (h.tile_lt t data rfl).2 (by decide)
  | global _ => exact (by decide : globalTag < 2 ^ 32)
  | barrier => exact (by decide : barrierTag < 2 ^ 32)

theorem Inv.put {i : ℕ} (h : Inv totalTiles done (m :: rest) s) (hi : m.list totalTiles = some i) :
    Inv totalTiles (done ++ [m]) rest { s with
      pc := .length [], stream := rest.flatMap Message.packet
      lists := Function.update s.lists i (s.lists i ++ [m.data]) } := by
  refine ⟨fun j => ?_, ?_, .length (by decide) rfl⟩
  · rcases eq_or_ne j i with rfl | hne
    · simp [received, hi, h.lists j]
    · simp [received, hi, h.lists j, hne, hne.symm]
  · simp [hi, h.barriers]

/-- The whole message is there. -/
theorem Inv.deliver {n : ℕ} {got : List UInt8} (h : Inv totalTiles done (m :: rest) s)
    (hm : m.Ok totalTiles) : Returns (complete totalTiles { s with
      pc := .data n m.tag got, stream := rest.flatMap Message.packet } m.data)
      (Inv totalTiles (done ++ [m]) rest) := by
  cases m with
  | tile t data =>
    obtain ⟨ht, ht'⟩ := hm.tile_lt t data rfl
    have hne : t ≠ terminateTag ∧ t ≠ barrierTag ∧ t ≠ globalTag := by
      unfold terminateTag barrierTag globalTag
      omega
    simp only [complete, insertInBufferList, Message.tag, hne, if_false]
    rw [check_pos (Nat.lt_succ_of_lt ht), ok_bind]
    exact h.put rfl
  | global data =>
    simp only [complete, insertInBufferList, Message.tag, if_true,
      show globalTag ≠ terminateTag by decide, show globalTag ≠ barrierTag by decide, if_false]
    rw [check_pos (Nat.lt_succ_self _), ok_bind]
    exact h.put rfl
  | barrier =>
    refine ⟨fun j => ?_, ?_, .length (by decide) rfl⟩
    · simp [received, Message.list, h.lists j]
    · simp [Message.list, h.barriers]

theorem At.more {pc : Pc} {stream : List UInt8} (h : At pc stream rest)
    (hlt : (pc.got ++ stream.take k).length < pc.size) :
    At (pc.withGot (pc.got ++ stream.take k)) (stream.drop k) rest := by
  have happ (l : List UInt8) : l ++ stream.take k ++ stream.drop k = l ++ stream := by
    rw [append_assoc, take_append_drop]
  cases h with
  | length _ h => exact .length hlt ((happ _).trans h)
  | tag _ h => exact .tag hlt ((happ _).trans h)
  | data _ h => exact .data hlt ((happ _).trans h)

theorem Inv.complete (h : Inv totalTiles done rest s) (hok : ∀ m ∈ rest, m.Ok totalTiles)
    (hk : s.pc.got.length + k = s.pc.size) (hle : k ≤ s.stream.length) :
    Returns (complete totalTiles { s with stream := s.stream.drop k } (s.pc.got ++ s.stream.take k)) fun s' =>
      ∃ done' rest', done' ++ rest' = done ++ rest ∧ Inv totalTiles done' rest' s' := by
  obtain ⟨pc, stream, lists, barriers⟩ := s
  have hat := h.at_
  dsimp only at hk hle hat ⊢
  cases hat with
  | @length got _ _ hlt hgot =>
    dsimp only [Pc.got, Pc.size] at hk ⊢
    cases rest with
    | nil =>
      obtain ⟨rfl, rfl⟩ := append_eq_nil_iff.mp hgot
      simp at hk hle
      omega
    | cons m rest =>
      rw [flatMap_cons, Message.packet, append_assoc, append_assoc] at hgot
      obtain ⟨hbytes, hdrop⟩ := eq_of_append hgot hk hle
      have hlength : m.data.length < 2 ^ 32 := by
        have := (hok m (by simp)).length_lt
        omega
      refine ⟨done, m :: rest, rfl, h.lists, h.barriers, ?_⟩
      dsimp only
      rw [hbytes, ofBytes_toBytes hlength, hdrop]
      exact .tag (by decide) rfl
  | @tag got _ rest m hlt hgot =>
    dsimp only [Pc.got, Pc.size] at hk ⊢
    obtain ⟨hbytes, hdrop⟩ := eq_of_append hgot hk hle
    have hm := hok m (by simp)
    refine ⟨done, m :: rest, rfl, h.lists, h.barriers, ?_⟩
    dsimp only
    rw [hbytes, ofBytes_toBytes hm.tag_lt, hdrop]
    exact .data (length_pos_iff.mpr hm.pos) rfl
  | @data got _ rest m hlt hgot =>
    dsimp only [Pc.got, Pc.size] at hk ⊢
    obtain ⟨hbytes, hdrop⟩ := eq_of_append hgot hk hle
    rw [hbytes, hdrop]
    exact (h.deliver (hok m (by simp))).mono fun s' hs => ⟨done ++ [m], rest, by simp, hs⟩

theorem Inv.recv (h : Inv totalTiles done rest s) (hok : ∀ m ∈ rest, m.Ok totalTiles)
    (hk : k ≤ s.pc.size - s.pc.got.length) (hle : k ≤ s.stream.length) :
    Returns (recv totalTiles s k) fun s' =>
      ∃ done' rest', done' ++ rest' = done ++ rest ∧ Inv totalTiles done' rest' s' := by
  unfold Framing.recv
  split
  · exact ⟨done, rest, rfl, h⟩
  · dsimp only
    split
    · next hlt => exact ⟨done, rest, rfl, h.lists, h.barriers, h.at_.more hlt⟩
    · next hfull =>
      rw [length_append, length_take, Nat.min_eq_left hle] at hfull
      have := h.at_.got_lt
      exact h.complete hok (by omega) hle

end Invariant

end Graphite.Framing
