import Graphite.Cache.Compressed

/-! # The replacement policy of the shared L2

The policy compresses the incoming line and takes an invalid way of the set when the line fits. Its
searches for the least recently used way start from the greatest 32-bit number, which no rank exceeds,
so they never name a way of the set.
-/

namespace Graphite.SharedL2

open Outcome Cache Compression

inductive MsgType
  | exReq | shReq | invReq | flushReq | wbReq | exRep | shRep | upgradeRep | invRep | flushRep | wbRep
  | dramFetchReq | dramStoreReq | dramFetchRep | nullifyReq
  deriving DecidableEq, Repr

variable {n : ℕ} {ι : Type}

/-- The size the policy takes a line to have; 0 stands for a line that was not compressed. -/
def recordedSize (i : LineInfo ι) : ℕ := if i.comSize ≠ 0 then i.comSize else 64

def currentSize (info : Fin n → LineInfo ι) : ℕ :=
  ∑ w, if (info w).cstate ≠ .invalid then recordedSize (info w) else 0

/-- The bytes for the data of a set: half of what its ways would take uncompressed, a `UInt32`. -/
def budget (n : ℕ) : ℕ := n * 64 % 2 ^ 32 / 2

/-- `UINT32_MAX_`, and also `-1` as a `UInt32`. -/
def noWay : ℕ := 2 ^ 32 - 1

/-- The search for the valid way with the highest rank. -/
def lruLast (bits : LruBits n) (info : Fin n → LineInfo ι) (is : List (Fin n)) : ℕ × ℕ :=
  is.foldl (fun (way, lru) i =>
    if (info i).cstate ≠ .invalid ∧ (bits i).toNat > lru then (i.val, (bits i).toNat) else (way, lru))
    (noWay, noWay)

/-- The search for a second way; the rank is noted also if the way is not taken. -/
def lruSecond (bits : LruBits n) (info : Fin n → LineInfo ι) (last room csize : ℕ) (is : List (Fin n)) :
    ℕ × ℕ :=
  is.foldl (fun (way, lru) i =>
    if (info i).cstate ≠ .invalid ∧ i.val ≠ last ∧ (info i).comSize + room ≥ csize then
      (if (bits i).toNat > lru then i.val else way, (bits i).toNat)
    else (way, lru)) (noWay, noWay)

/-- `getReplacementWay`: `data` is the incoming line, as DRAM has it. A way beyond the array that is read
and the assertion at the end stop the program. -/
def getReplacementWay (d : Compression.Dictionary) (bits : LruBits n) (info : Fin n → LineInfo ι)
    (type : MsgType) (data : LineData) : Except Cache.Fault (Compression.Dictionary × List ℕ) := do
  check (type = .exReq ∨ type = .shReq) .messageType
  let (d, csize) := Compression.compressLine d data
  check (currentSize info ≤ budget n) .setSize
  if csize + currentSize info ≤ budget n then
    match (List.finRange n).find? fun i => (info i).cstate = .invalid with
    | some w => pure (d, [w.val])
    | none => pure (d, [(lruLast bits info (List.finRange n)).1])
  else
    let rs := budget n - currentSize info
    let last := (lruLast bits info (List.finRange n)).1
    if h : last < n then
      let lastSize := (info ⟨last, h⟩).comSize
      if lastSize + rs ≥ csize then pure (d, [last])
      else
        let second := (lruSecond bits info last (lastSize + rs) csize (List.finRange n)).1
        if second ≠ noWay then pure (d, [last, second]) else throw .noSpace
    else throw .wayRange

theorem lruLast_eq (bits : LruBits n) (info : Fin n → LineInfo ι) (is : List (Fin n)) :
    lruLast bits info is = (noWay, noWay) := by
  unfold lruLast
  induction is with
  | nil => rfl
  | cons i is ih =>
    have hle : ¬ (bits i).toNat > noWay := by
      have hlt := (bits i).isLt
      unfold noWay
      omega
    rw [List.foldl_cons]
    simp only [hle, and_false, if_false]
    exact ih

/-- The policy answers with an invalid way, with no way of the set, or not at all. -/
theorem getReplacementWay_sat (hn : n < 2 ^ 32) {d : Compression.Dictionary} {bits : LruBits n}
    {info : Fin n → LineInfo ι} {type : MsgType} {data : LineData} :
    Ensures (getReplacementWay d bits info type data) fun r =>
      (compressLine d data).2 + currentSize info ≤ budget n ∧
      r.1 = (compressLine d data).1 ∧
      ((∃ w : Fin n, r.2 = [w.val] ∧ (info w).cstate = .invalid) ∨
        (∀ w, (info w).cstate ≠ .invalid) ∧ r.2 = [noWay]) := by
  unfold getReplacementWay
  generalize compressLine d data = x
  obtain ⟨d', csize⟩ := x
  apply ensures_bind fun _ => ?_
  apply ensures_bind fun _ => ?_
  by_cases hfit : csize + currentSize info ≤ budget n
  · rw [if_pos hfit]
    cases hw : (List.finRange n).find? fun i => (info i).cstate = .invalid with
    | some w => exact ⟨hfit, rfl, .inl ⟨w, rfl, by simpa using List.find?_some hw⟩⟩
    | none =>
      dsimp only
      rw [lruLast_eq]
      exact ⟨hfit, rfl, .inr ⟨by simpa using hw, rfl⟩⟩
  · rw [if_neg hfit, dif_neg (by rw [lruLast_eq]; unfold noWay; omega)]
    trivial

/-- The policy reserves space for the line by its compressed size. The line does not take more when it is
written, whatever lines have been compressed in between. -/
theorem written_le_reserved (hn : n < 2 ^ 32) {d d₁ : Compression.Dictionary} {bits : LruBits n}
    {info : Fin n → LineInfo ι} {type : MsgType} {line : LineData} {ways : List ℕ}
    (h : getReplacementWay d bits info type line = .ok (d₁, ways)) (others : List LineData)
    (s : CompressedSet n ι) (w : Fin n) :
    ∃ d₂ s', s.writeLine 64 (Compression.compressLines d₁ others) w 0 64 line = .ok (d₂, s') ∧
      s'.compSize w ≤ (Compression.compressLine d line).2 := by
  obtain ⟨-, hd, -⟩ := (getReplacementWay_sat hn).of_ok h
  have hsize := compressLine_again d others line
  rw [← hd] at hsize
  rw [CompressedSet.writeLine, check_pos ⟨rfl, rfl⟩, check_pos rfl]
  generalize compressLine (compressLines d₁ others) line = y at hsize
  exact ⟨y.1, _, rfl, by simpa using hsize⟩

/-- The line of the bytes from `k` on: its words are distinct in their upper halves. -/
def counting (k : ℕ) : LineData := fun i => UInt8.ofNat (k + i)

/-- The line of the bytes 1 to 64 is admitted into an empty set: its words become keys. The line of the
bytes 101 to 164 is compressed before it is written. -/
theorem written_le_reserved_keys : ∃ (d₁ : Compression.Dictionary) (ways : List ℕ),
    getReplacementWay .empty Lru.create (CompressedSet.create : CompressedSet 2 Unit).info .shReq
      (counting 1) = .ok (d₁, ways) ∧ d₁.Key 0x04030201 ∧
    ∃ d₂ s', (CompressedSet.create : CompressedSet 2 Unit).writeLine 64
        (Compression.compressLines d₁ [counting 101]) 0 0 64 (counting 1) = .ok (d₂, s') ∧
      s'.compSize 0 ≤ (Compression.compressLine .empty (counting 1)).2 := by
  have hok : (match getReplacementWay .empty Lru.create (CompressedSet.create : CompressedSet 2 Unit).info
      .shReq (counting 1) with
      | .ok (d, _) => decide (d.Key 0x04030201)
      | .error _ => false) = true := by decide +kernel
  split at hok
  · next d ways h => exact ⟨d, ways, h, of_decide_eq_true hok,
      written_le_reserved (by decide) h [counting 101] .create 0⟩
  · cases hok

/-! ## Runs of a set -/

/-- A compressed set with the ranks of its ways and the dictionary. -/
structure SetState (n : ℕ) (ι : Type) where
  set : CompressedSet n ι
  bits : LruBits n
  dictionary : Compression.Dictionary

inductive SetAccess (n : ℕ) (ι : Type)
  | insert (type : MsgType) (data : LineData) (info : LineInfo ι)
  | read (w : Fin n) (offset bytes : ℕ)
  | write (w : Fin n) (data : LineData)
  | invalidate (w : Fin n)

/-- Insertions, accesses and invalidations; the trace has the way of each access and each insertion. -/
def compressedSet (n : ℕ) (ι : Type) [Inhabited ι] :
    System (SetState n ι) (SetAccess n ι) Cache.Fault (Fin n) where
  init s := s = ⟨.create, Lru.create, .empty⟩
  enabled _
    | .insert _ _ info => info.isValid = true ∧ info.cstate ≠ .invalid
    | _ => True
  step s
    | .insert type data info => do
      let (d, ways) ← getReplacementWay s.dictionary s.bits s.set.info type data
      let (set, _) ← s.set.insert info ways
      match ways with
      | [] => throw .victimCount
      | i :: _ =>
        if h : i < n then pure (⟨set, Lru.update s.bits ⟨i, h⟩, d⟩, [⟨i, h⟩]) else throw .wayRange
    | .read w offset bytes => do
      let _ ← s.set.readLine 64 w offset bytes
      pure ({ s with bits := Lru.update s.bits w }, [w])
    | .write w data => do
      let (d, set) ← s.set.writeLine 64 s.dictionary w 0 64 data
      pure (⟨set, Lru.update s.bits w, d⟩, [w])
    | .invalidate w => pure ({ s with set := s.set.assign w (s.set.info w).invalidate }, [])

section Victims

variable {tr : List (Fin n)} {info : Fin n → LineInfo ι} {csize : ℕ}

/-- What is left of half the ways times 64 bytes. -/
def remaining (info : Fin n → LineInfo ι) : ℕ := n * 64 / 2 - currentSize info

/-- With an invalid way and enough space nothing has to leave. -/
def Roomy (info : Fin n → LineInfo ι) (csize : ℕ) : Prop :=
  csize + currentSize info ≤ n * 64 / 2 ∧ ∃ w, (info w).cstate = .invalid
deriving Decidable

/-- Among the valid ways with `Q`, `w` was accessed least recently. -/
def LeastRecent (tr : List (Fin n)) (info : Fin n → LineInfo ι) (Q : Fin n → Prop) (w : Fin n) : Prop :=
  (info w).cstate ≠ .invalid ∧ Q w ∧
    ∀ v, (info v).cstate ≠ .invalid → Q v → v ≠ w → MoreRecent tr v w

/-- The victims a line of `csize` bytes should have. -/
structure Victims (tr : List (Fin n)) (info : Fin n → LineInfo ι) (csize : ℕ) (ways : List (Fin n)) :
    Prop where
  count : ways.length = 1 ∨ ways.length = 2
  nodup : ways.Nodup
  free : Roomy info csize → ∃ w, ways = [w] ∧ (info w).cstate = .invalid
  least : ¬ Roomy info csize → ∃ w rest, ways = w :: rest ∧ LeastRecent tr info (fun _ => True) w ∧
    (rest = [] ↔ csize ≤ recordedSize (info w) + remaining info) ∧
    ∀ v ∈ rest, LeastRecent tr info (fun u => u ≠ w ∧
      csize ≤ recordedSize (info u) + recordedSize (info w) + remaining info) v
  fits : csize + ∑ w, (if (info w).cstate ≠ .invalid ∧ w ∉ ways then recordedSize (info w) else 0) ≤
    n * 64 / 2

theorem budget_eq (hn : n * 64 < 2 ^ 32) : budget n = n * 64 / 2 := by rw [budget, Nat.mod_eq_of_lt hn]

theorem getReplacementWay_of_roomy (hn : n * 64 < 2 ^ 32) {d : Compression.Dictionary} (bits : LruBits n) {type : MsgType}
    {data : LineData} (htype : type = .exReq ∨ type = .shReq)
    (h : Roomy info (compressLine d data).2) :
    ∃ w : Fin n, getReplacementWay d bits info type data =
      .ok ((compressLine d data).1, [w.val]) ∧ (info w).cstate = .invalid := by
  obtain ⟨hfit, v, hv⟩ := h
  rw [← budget_eq hn] at hfit
  cases hw : (List.finRange n).find? fun i => (info i).cstate = .invalid with
  | none =>
    have hvalid := List.find?_eq_none.mp hw v (List.mem_finRange v)
    simp [hv] at hvalid
  | some w =>
    refine ⟨w, ?_, by simpa using List.find?_some hw⟩
    unfold getReplacementWay
    rw [check_pos htype, ok_bind]
    dsimp only
    rw [check_pos ((Nat.le_add_left _ _).trans hfit), ok_bind, if_pos hfit, hw]
    rfl

theorem victims_of_invalid {w : Fin n} (h : Roomy info csize) (hw : (info w).cstate = .invalid) :
    Victims tr info csize [w] where
  count := .inl rfl
  nodup := List.nodup_singleton w
  free _ := ⟨w, rfl, hw⟩
  least hnot := absurd h hnot
  fits := by
    have hsum : ∑ v, (if (info v).cstate ≠ .invalid ∧ v ∉ [w] then recordedSize (info v) else 0) =
        currentSize info := by
      apply Finset.sum_congr rfl
      intro v _
      by_cases hv : (info v).cstate ≠ .invalid
      · have hne : v ≠ w := fun he => hv (he ▸ hw)
        simp [hv, hne]
      · simp [hv]
    rw [hsum]
    exact h.1

/-- In every reachable state and for every incoming line, the policy answers as it should exactly if the
line fits and there is an invalid way. -/
theorem victims_iff_roomy (n : ℕ) (hn : n * 64 < 2 ^ 32) (ι : Type) [Inhabited ι] (tr : List (Fin n))
    (s : SetState n ι) (_ : (compressedSet n ι).Run (fun _ => True) tr s) (type : MsgType)
    (htype : type = .exReq ∨ type = .shReq) (data : LineData) :
    (∃ d ways, getReplacementWay s.dictionary s.bits s.set.info type data =
        .ok (d, ways.map Fin.val) ∧
      Victims tr s.set.info (Compression.compressLine s.dictionary data).2 ways) ↔
    Roomy s.set.info (Compression.compressLine s.dictionary data).2 := by
  constructor
  · rintro ⟨d, ways, h, -⟩
    obtain ⟨hfit, -, ⟨w, -, hw⟩ | ⟨-, hno⟩⟩ := (getReplacementWay_sat (by omega)).of_ok h
    · exact ⟨budget_eq hn ▸ hfit, w, hw⟩
    · obtain ⟨w, -, hw⟩ := List.map_eq_singleton_iff.mp hno
      have hlt := w.isLt
      simp only [hw, noWay] at hlt
      omega
  · intro hroomy
    obtain ⟨w, hw, hinv⟩ := getReplacementWay_of_roomy hn s.bits htype hroomy
    exact ⟨_, [w], hw, victims_of_invalid hroomy hinv⟩

instance (n : ℕ) (s : SetState n Unit) : DecidablePred ((compressedSet n Unit).enabled s)
  | .insert _ _ info => inferInstanceAs (Decidable (info.isValid = true ∧ info.cstate ≠ .invalid))
  | .read _ _ _ | .write _ _ | .invalidate _ => isTrue trivial

/-- Two lines, of 4 and 12 bytes, are in a set of three ways, which has room for one of 64 bytes. -/
theorem victims_iff_roomy_three : ∃ tr s, (compressedSet 3 Unit).Run (fun _ => True) tr s ∧
    tr = [0, 0, 1, 1, 0] ∧ currentSize s.set.info = 16 ∧
    ∃ d ways, getReplacementWay s.dictionary s.bits s.set.info .shReq (counting 101) =
        .ok (d, ways.map Fin.val) ∧
      Victims tr s.set.info (Compression.compressLine s.dictionary (counting 101)).2 ways := by
  refine System.Run.of_reaches_imp (Q := fun tr s => tr = [0, 0, 1, 1, 0] ∧ currentSize s.set.info = 16 ∧
      Roomy s.set.info (compressLine s.dictionary (counting 101)).2) (.start rfl)
    [.insert .shReq zeroLine ⟨0, .dataInvalid, 0, ()⟩, .write 0 zeroLine,
      .insert .exReq (counting 1) ⟨1, .dataInvalid, 0, ()⟩, .write 1 (counting 1), .read 0 0 4]
    fun tr s h hq => ⟨hq.1, hq.2.1, ?_⟩
  exact (victims_iff_roomy 3 (by decide) Unit tr s h .shReq (.inr rfl) (counting 101)).mpr hq.2.2

/-- Both ways of a set hold a line of zeros, of 4 bytes each. There is room for another one, but the
policy answers with a way the set does not have. -/
theorem full_set_no_way : ∃ (tr : List (Fin 2)) (s : SetState 2 Unit),
    (compressedSet 2 Unit).Run (fun _ => True) tr s ∧
    (Compression.compressLine s.dictionary zeroLine).2 + currentSize s.set.info ≤ budget 2 ∧
    ∃ d, getReplacementWay s.dictionary s.bits s.set.info .shReq zeroLine = .ok (d, [4294967295]) := by
  obtain ⟨tr, s, h, hfit, ⟨d, _⟩, heq, rfl⟩ := System.Run.of_reaches (S := compressedSet 2 Unit)
    (P := fun _ => True) (Q := fun _ s =>
      (compressLine s.dictionary zeroLine).2 + currentSize s.set.info ≤ budget 2 ∧
      ∃ r, getReplacementWay s.dictionary s.bits s.set.info .shReq zeroLine = .ok r ∧
        r.2 = [4294967295]) (.start rfl)
    [.insert .shReq zeroLine ⟨0, .dataInvalid, 0, ()⟩, .write 0 zeroLine,
      .insert .shReq zeroLine ⟨1, .dataInvalid, 0, ()⟩, .write 1 zeroLine]
  exact ⟨tr, s, h, hfit, d, heq⟩

end Victims

end Graphite.SharedL2
