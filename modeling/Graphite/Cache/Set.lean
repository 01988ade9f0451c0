import Graphite.Base
import Mathlib.Data.BitVec
import Mathlib.Data.List.FinRange
import Mathlib.Logic.Function.Basic

/-! # Cache sets

A set has the info and the contents of its ways and the state of its replacement policy. The tag of
a line is the line number; the tag with all bits set marks an invalid line.
-/

namespace Graphite.Cache

open Outcome Function

inductive Fault
  | lineAbsent | lineBounds | partialWrite | lruBits | wayRange | evictedAddress | evictedState
  | cacheCategory | missType | compressedLine | victimCount | setSize | messageType | noSpace
  deriving DecidableEq, Repr

/-- The tag `~0`. -/
def invalidTag : ℕ := 2 ^ 64 - 1

/-- `CacheLineInfo`; what the protocols add to it is `extra`. -/
structure LineInfo (ι : Type) where
  tag : ℕ
  cstate : CacheState
  comSize : ℕ
  extra : ι
  deriving DecidableEq, Repr

namespace LineInfo

variable {ι : Type}

def create [Inhabited ι] : LineInfo ι := ⟨invalidTag, .invalid, 0, default⟩

def isValid (i : LineInfo ι) : Bool := i.tag ≠ invalidTag

def invalidate (i : LineInfo ι) : LineInfo ι := { i with tag := invalidTag, cstate := .invalid }

end LineInfo

/-- A replacement policy for sets of `n` ways: it picks a way from what it remembers and from which ways
are valid, and is told every access. -/
structure Policy (n : ℕ) where
  State : Type
  init : State
  getReplacementWay : State → (Fin n → Bool) → Except Fault (State × ℕ)
  update : State → Fin n → State

structure CacheSet {n : ℕ} (P : Policy n) (ι : Type) where
  info : Fin n → LineInfo ι
  lines : Fin n → LineData
  policy : P.State

namespace CacheSet

variable {n : ℕ} {P : Policy n} {ι : Type}

def create [Inhabited ι] : CacheSet P ι := ⟨fun _ => .create, fun _ => zeroLine, P.init⟩

variable (s : CacheSet P ι) (lineSize : ℕ)

/-- The way with the tag; the search starts at the last way. -/
def find (tag : ℕ) : Option (Fin n) :=
  (List.finRange n).reverse.find? fun w => (s.info w).tag = tag

def readLine (w : Fin n) (offset bytes : ℕ) : Except Fault (CacheSet P ι × List UInt8) := do
  check (offset + bytes ≤ lineSize) .lineBounds
  pure ({ s with policy := P.update s.policy w }, readBytes (s.lines w) offset bytes)

def writeLine (w : Fin n) (offset : ℕ) (buf : List UInt8) : Except Fault (CacheSet P ι) := do
  check (offset + buf.length ≤ lineSize) .lineBounds
  pure { s with
    lines := update s.lines w (writeBytes (s.lines w) offset buf)
    policy := P.update s.policy w }

/-- Also returns the info and the contents of the line that had to leave. -/
def insert (inserted : LineInfo ι) (fillBuf : Option LineData) :
    Except Fault (CacheSet P ι × Option (LineInfo ι × LineData)) := do
  let (policy, index) ← P.getReplacementWay s.policy fun w => (s.info w).isValid
  if h : index < n then
    let w : Fin n := ⟨index, h⟩
    let evicted := if (s.info w).isValid then some (s.info w, s.lines w) else none
    let lines := match fillBuf with
      | none => s.lines
      | some data => update s.lines w data
    pure (⟨update s.info w inserted, lines, P.update policy w⟩, evicted)
  else throw .wayRange

/-- `assign` to the info of a way. -/
def assign (w : Fin n) (info : LineInfo ι) : CacheSet P ι :=
  { s with info := update s.info w info }

end CacheSet

/-! ## Finding a tag -/

section Find

variable {n : ℕ} {P : Policy n} {ι : Type} {s : CacheSet P ι} {tag : ℕ} {w : Fin n}

theorem CacheSet.tag_of_find (h : s.find tag = some w) : (s.info w).tag = tag := by
  simpa using List.find?_some h

end Find

end Graphite.Cache
