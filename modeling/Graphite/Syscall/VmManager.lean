import Graphite.Library.Outcome
import Mathlib.Data.List.Pairwise

/-! # The virtual memory manager

`brk` and `mmap` as the MCP serves them. The data segment grows upwards below the stacks, and the
dynamic segment downwards towards their end. Addresses are 64 bits wide, and the test for room
subtracts them, so a length above the start of the dynamic segment wraps around.
-/

namespace Graphite.Vm

open Outcome List

/-- The assertions, in the order of the source. -/
inductive Fault
  | emptyStack | stackBelowData | dynamicBelowStack
  | brkBelowData | brkNoMemory
  | fileDescriptor | notAnonymous | fixedAddress | notPrivate | mmapNoMemory
  | munmapBelowDynamic
  deriving DecidableEq, Repr

structure VMManager where
  startDataSegment : BitVec 64
  endDataSegment : BitVec 64
  startStackSegment : BitVec 64
  endStackSegment : BitVec 64
  startDynamicSegment : BitVec 64
  endDynamicSegment : BitVec 64
  deriving DecidableEq, Repr

namespace VMManager

/-- The constructor. The size of the stacks is a product of 32-bit numbers. -/
def create (programBreak stackBase : BitVec 64) (totalTiles stackSizePerCore : BitVec 32) :
    Except Fault VMManager := do
  let endStack := stackBase + (totalTiles * stackSizePerCore).setWidth 64
  check (endStack > stackBase) .emptyStack
  check (stackBase > programBreak) .stackBelowData
  let dynamic : BitVec 64 := 0xf000000000
  check (dynamic > endStack) .dynamicBelowStack
  pure ⟨programBreak, programBreak, stackBase, endStack, dynamic, dynamic⟩

variable (vm : VMManager)

def brk (endData : BitVec 64) : Except Fault (VMManager × BitVec 64) := do
  if endData = 0 then
    pure (vm, vm.endDataSegment)
  else
    check (vm.startDataSegment < endData) .brkBelowData
    check (vm.startStackSegment > endData) .brkNoMemory
    pure ({ vm with endDataSegment := endData }, endData)

def mapPrivate : BitVec 32 := 0x02
def mapFixed : BitVec 32 := 0x10
def mapAnonymous : BitVec 32 := 0x20

def mmap (length : BitVec 64) (flags fd : BitVec 32) : Except Fault (VMManager × BitVec 64) := do
  check (fd = -1) .fileDescriptor
  check (flags &&& mapAnonymous = mapAnonymous) .notAnonymous
  check (flags &&& mapFixed = 0) .fixedAddress
  check (flags &&& mapPrivate = mapPrivate) .notPrivate
  check (vm.endStackSegment < vm.startDynamicSegment - length) .mmapNoMemory
  let start := vm.startDynamicSegment - length
  pure ({ vm with startDynamicSegment := start }, start)

def munmap (start : BitVec 64) : Except Fault Unit :=
  check (vm.startDynamicSegment ≤ start) .munmapBelowDynamic

end VMManager

inductive Call
  | brk (endData : BitVec 64)
  | mmap (length : BitVec 64) (flags fd : BitVec 32)
  | munmap (start : BitVec 64)
  deriving DecidableEq, Repr

/-- A region that `mmap` has returned. -/
structure Region where
  base : BitVec 64
  length : BitVec 64
  deriving DecidableEq, Repr

/-- The manager after its construction, under the calls of the application. A rejected call stops
the simulation. -/
def calls : System VMManager Call Fault Region where
  init vm := ∃ programBreak stackBase totalTiles stackSizePerCore,
    VMManager.create programBreak stackBase totalTiles stackSizePerCore = .ok vm
  enabled _ _ := True
  step vm
    | .brk endData => do
      let (vm, _) ← vm.brk endData
      pure (vm, [])
    | .mmap length flags fd => do
      let (vm, base) ← vm.mmap length flags fd
      pure (vm, [⟨base, length⟩])
    | .munmap start => do
      vm.munmap start
      pure (vm, [])

instance (vm : VMManager) : DecidablePred (calls.enabled vm) := fun _ => .isTrue trivial

/-- The request of an `mmap` is not longer than the addresses below the dynamic segment. -/
def NoWrap (vm : VMManager) : Call → Prop
  | .mmap length _ _ => length ≤ vm.startDynamicSegment
  | _ => True

instance (vm : VMManager) : DecidablePred (NoWrap vm)
  | .mmap length _ _ => inferInstanceAs (Decidable (length ≤ vm.startDynamicSegment))
  | .brk _ | .munmap _ => .isTrue trivial

def noWrapCalls : System VMManager Call Fault Region := calls.restrict NoWrap

instance (vm : VMManager) : DecidablePred (noWrapCalls.enabled vm) := fun c =>
  inferInstanceAs (Decidable (True ∧ NoWrap vm c))

/-! ## Segments and regions -/

/-- The segments of the address space, in their order. -/
structure Segments (vm : VMManager) : Prop where
  data : vm.endDataSegment < vm.startStackSegment
  stack : vm.startStackSegment < vm.endStackSegment
  dynamic : vm.endStackSegment < vm.startDynamicSegment
  top : vm.startDynamicSegment ≤ vm.endDynamicSegment

/-- The region lies in the part of the dynamic segment that was given away. -/
def Inside (vm : VMManager) (r : Region) : Prop :=
  vm.startDynamicSegment.toNat ≤ r.base.toNat ∧
    r.base.toNat + r.length.toNat ≤ vm.endDynamicSegment.toNat

def Disjoint (r r' : Region) : Prop :=
  r.base.toNat + r.length.toNat ≤ r'.base.toNat ∨ r'.base.toNat + r'.length.toNat ≤ r.base.toNat

structure Inv (tr : List Region) (vm : VMManager) : Prop where
  segments : Segments vm
  inside : ∀ r ∈ tr, Inside vm r
  disjoint : tr.Pairwise Disjoint

section Inv

variable {tr : List Region} {vm : VMManager}

theorem segments_create {programBreak stackBase : BitVec 64} {totalTiles stackSizePerCore : BitVec 32} :
    Ensures (VMManager.create programBreak stackBase totalTiles stackSizePerCore)
      Segments := by
  unfold VMManager.create
  simp only [sat_bind, sat_check, sat_pure, gt_iff_lt, implies_true, and_true]
  exact fun hstack hdata hdynamic => ⟨hdata, hstack, hdynamic, BitVec.le_refl _⟩

theorem Inv.init (h : calls.init vm) : Inv [] vm := by
  obtain ⟨programBreak, stackBase, totalTiles, stackSizePerCore, hvm⟩ := h
  exact ⟨segments_create.of_ok hvm, by simp, .nil⟩

theorem Inv.brk (h : Inv tr vm) (endData : BitVec 64) :
    Ensures (vm.brk endData) fun r => Inv tr r.1 := by
  unfold VMManager.brk
  split
  · exact h
  · simp only [sat_bind, sat_check, sat_pure, gt_iff_lt, implies_true, and_true]
    intro _ hbelow
    exact ⟨⟨hbelow, h.segments.stack, h.segments.dynamic, h.segments.top⟩, h.inside, h.disjoint⟩

theorem Inv.grow (h : Inv tr vm) {start length : BitVec 64}
    (hstart : start.toNat + length.toNat = vm.startDynamicSegment.toNat)
    (hroom : vm.endStackSegment < start) :
    Inv (tr ++ [⟨start, length⟩]) { vm with startDynamicSegment := start } := by
  have htop : vm.startDynamicSegment.toNat ≤ vm.endDynamicSegment.toNat := h.segments.top
  refine ⟨⟨h.segments.data, h.segments.stack, hroom, ?_⟩, fun r hr => ?_, ?_⟩
  · rw [BitVec.le_def]
    dsimp only
    omega
  · rcases mem_append.mp hr with hr | hr
    · obtain ⟨hbase, hend⟩ := h.inside r hr
      refine ⟨?_, hend⟩
      dsimp only
      omega
    · obtain rfl := mem_singleton.mp hr
      refine ⟨Nat.le_refl _, ?_⟩
      dsimp only
      omega
  · refine pairwise_append.mpr ⟨h.disjoint, pairwise_singleton _ _, fun r hr r' hr' => .inr ?_⟩
    obtain rfl := mem_singleton.mp hr'
    have := (h.inside r hr).1
    dsimp only
    omega

theorem Inv.mmap (h : Inv tr vm) {length : BitVec 64} (flags fd : BitVec 32)
    (hlen : length ≤ vm.startDynamicSegment) :
    Ensures (vm.mmap length flags fd) fun r => Inv (tr ++ [⟨r.2, length⟩]) r.1 := by
  unfold VMManager.mmap
  simp only [sat_bind, sat_check, sat_pure, implies_true, and_true]
  intro _ _ _ _ hroom
  refine h.grow ?_ hroom
  rw [BitVec.toNat_sub_of_le hlen]
  exact Nat.sub_add_cancel hlen

theorem Inv.step (h : Inv tr vm) {c : Call} (hc : NoWrap vm c) :
    Ensures (calls.step vm c) fun r => Inv (tr ++ r.2) r.1 := by
  cases c with
  | brk endData =>
    refine (h.brk endData).bind fun r hr => ?_
    simpa using hr
  | mmap length flags fd => exact (h.mmap flags fd hc).bind fun r hr => hr
  | munmap start =>
    refine ensures_bind fun _ => ?_
    simpa using h

theorem run_inv {P : Call → Prop} (h : noWrapCalls.Run P tr vm) : Inv tr vm :=
  h.invariant (S := noWrapCalls) (E := fun _ => True) (fun _ => Inv.init)
    fun _ _ _ hi _ he => hi.step he.2

end Inv

/-! ## Requests that do not fit -/

/-- What the caller asks for overlaps the stacks or the data that precede it. -/
def DoesNotFit (vm : VMManager) : Call → Prop
  | .brk endData => endData ≠ 0 ∧ vm.startStackSegment ≤ endData
  | .mmap length _ _ => vm.startDynamicSegment.toNat < vm.endStackSegment.toNat + length.toNat
  | .munmap _ => False

theorem rejected {vm : VMManager} {c : Call} (hc : NoWrap vm c) (hfit : DoesNotFit vm c) :
    ∃ e, calls.step vm c = .error e := by
  have hno : Ensures (calls.step vm c) fun _ => False := by
    cases c with
    | brk endData =>
      have hle : ¬ endData < vm.startStackSegment := BitVec.not_lt.mpr hfit.2
      simp only [calls, VMManager.brk, if_neg hfit.1, sat_bind, sat_check, sat_pure, gt_iff_lt]
      exact ⟨fun _ => ⟨fun h => hle h, fun _ => trivial⟩, fun _ => trivial⟩
    | mmap length flags fd =>
      have hroom : ¬ vm.endStackSegment < vm.startDynamicSegment - length := by
        have hsub := BitVec.toNat_sub_of_le hc
        have hle : length.toNat ≤ vm.startDynamicSegment.toNat := hc
        have hfit : vm.startDynamicSegment.toNat < vm.endStackSegment.toNat + length.toNat := hfit
        rw [BitVec.lt_def, hsub]
        omega
      simp only [calls, VMManager.mmap, sat_bind, sat_check, sat_pure, implies_true, and_true]
      exact fun _ _ _ _ h => hroom h
    | munmap start => exact hfit.elim
  cases hs : calls.step vm c with
  | ok r => exact (hno.of_ok hs).elim
  | error e => exact ⟨e, rfl⟩

/-- As long as no request is longer than the addresses below the dynamic segment, the data stay
below the stacks, the regions lie between the stacks and the top of the dynamic segment and are
disjoint, and a request that does not fit is rejected. -/
theorem segments_kept {P : Call → Prop} {tr : List Region} {vm : VMManager}
    (h : noWrapCalls.Run P tr vm) :
    vm.endDataSegment < vm.startStackSegment ∧
    (∀ r ∈ tr, vm.endStackSegment.toNat ≤ r.base.toNat ∧
      r.base.toNat + r.length.toNat ≤ vm.endDynamicSegment.toNat) ∧
    tr.Pairwise Disjoint ∧
    ∀ c, NoWrap vm c → DoesNotFit vm c → ∃ e, noWrapCalls.step vm c = .error e := by
  have hi := run_inv h
  refine ⟨hi.segments.data, fun r hr => ?_, hi.disjoint, fun c hc hfit => rejected hc hfit⟩
  have hdyn : vm.endStackSegment.toNat < vm.startDynamicSegment.toNat := hi.segments.dynamic
  have hin := hi.inside r hr
  exact ⟨by have := hin.1; omega, hin.2⟩

/-- A manager for four tiles with stacks of two megabytes. -/
def fourTiles : VMManager where
  startDataSegment := 0x1000000
  endDataSegment := 0x1000000
  startStackSegment := 0x90000000
  endStackSegment := 0x90800000
  startDynamicSegment := 0xf000000000
  endDynamicSegment := 0xf000000000

theorem fourTiles_init : calls.init fourTiles := ⟨0x1000000, 0x90000000, 4, 0x200000, rfl⟩

def allocate (length : BitVec 64) : Call := .mmap length 0x22 (-1)

/-- Two mappings and a `brk`. -/
theorem segments_kept_two : ∃ tr vm, noWrapCalls.Run (fun _ => True) tr vm ∧ tr.length = 2 ∧
    tr.Pairwise Disjoint :=
  System.Run.of_reaches_imp (Q := fun tr _ => tr.length = 2) (.start fourTiles_init)
    [allocate 0x1000, .brk 0x2000000, allocate 0x20000] fun _ _ h hq => ⟨hq, (segments_kept h).2.2.1⟩

/-- A request of `2 ^ 64 - 1` bytes is granted: the region starts above the dynamic segment. -/
theorem huge_request_granted : ∃ tr vm r, calls.Run (fun _ => True) tr vm ∧ r ∈ tr ∧
    vm.endDynamicSegment.toNat < r.base.toNat + r.length.toNat := by
  obtain ⟨tr, vm, h, r, hr, hout⟩ := System.Run.of_reaches (S := calls) (P := fun _ => True)
    (Q := fun tr vm => ∃ r ∈ tr, vm.endDynamicSegment.toNat < r.base.toNat + r.length.toNat)
    (.start fourTiles_init) [allocate (-1)]
  exact ⟨tr, vm, r, h, hr, hout⟩

end Graphite.Vm
