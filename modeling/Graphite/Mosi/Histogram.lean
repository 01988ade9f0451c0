import Graphite.Mosi.SharerStats
import Graphite.Mosi.Capacity

/-! # The histogram of sharers

`load` is the number of sharers of each line in the directory of a tile. Whatever message
the controller handles, the changes it reports are those it makes to `load`, so the
counters stay right. An entry is removed only when it is UNCACHED, and then it has no
sharers: the state of an entry fits its number of sharers, `EntryOk`, which no message
can break. Nothing is assumed of the caches.
-/

namespace Graphite.Mosi

open Outcome SetAssoc PrL2 PrL2.Directory Directory DirectoryCache Histogram Function Sharers Option

variable {A : Type} [DecidableEq A] {N : ℕ}

/-! ### Entries -/

def numSharers (e : DirectoryEntry N) : ℕ := e.sharers.getNumSharers.toNat

/-- A full-map entry whose state fits its number of sharers. -/
structure EntryOk (e : DirectoryEntry N) : Prop where
  fullMap : ∃ b, e.sharers = .fullMap b
  uncached : e.dstate = .uncached → numSharers e = 0
  modified : e.dstate = .modified → numSharers e = 1

section Entries

variable {e : DirectoryEntry N} {t : Fin N}

theorem num_of_fullMap (h : ∃ b, e.sharers = .fullMap b) :
    e.sharers.getNumSharers = numSharers e := by
  obtain ⟨b, hb⟩ := h
  simp [numSharers, hb, getNumSharers]

/-- From `e` to `e'` the number of sharers became `n`, and nothing else changed. -/
structure Resized (e e' : DirectoryEntry N) (n : ℕ) : Prop where
  dstate : e'.dstate = e.dstate
  owner : e'.owner = e.owner
  fullMap : ∃ b, e'.sharers = .fullMap b
  size : numSharers e' = n

theorem EntryOk.addSharer (h : EntryOk e) : Ensures (e.addSharer t) fun y =>
    y.2 = true ∧ Resized e y.1 (numSharers e + 1) := by
  obtain ⟨b, hb⟩ := h.fullMap
  unfold DirectoryEntry.addSharer
  rw [hb]
  refine sat_bind.mpr (sat_check_bind (fun hbt => ?_) fun _ => trivial)
  refine ⟨rfl, rfl, rfl, ⟨_, rfl⟩, ?_⟩
  simp [numSharers, getNumSharers, hb, length_bitList_set hbt]

theorem removeSharer_resized {replyExpected : Bool} (h : ∃ b, e.sharers = .fullMap b) :
    Ensures (e.removeSharer t replyExpected) fun e' =>
      0 < numSharers e ∧ Resized e e' (numSharers e - 1) := by
  obtain ⟨b, hb⟩ := h
  unfold DirectoryEntry.removeSharer
  rw [hb]
  refine sat_bind.mpr (ensures_bind fun _ => ?_)
  refine sat_check_bind (fun hbt => ?_) fun _ => trivial
  have hlen := length_bitList_clear hbt
  refine ⟨?_, rfl, rfl, ⟨_, rfl⟩, ?_⟩
  · simp [numSharers, getNumSharers, hb]
    omega
  · simp [numSharers, getNumSharers, hb]
    omega

theorem setOwner_sat {o : Option (Fin N)} : Ensures (e.setOwner o) fun e' =>
    e'.sharers = e.sharers ∧ e'.dstate = e.dstate :=
  ensures_bind fun _ => ⟨rfl, rfl⟩

omit [DecidableEq A] in
theorem entryOk_new {dc : DirectoryConfig A} (ht : dc.type = .fullMap) :
    EntryOk (newEntry dc N) ∧ numSharers (newEntry dc N) = 0 := by
  have hnum : numSharers (newEntry dc N) = 0 := by
    simp [numSharers, newEntry, DirectoryEntry.create, create, ht, getNumSharers, bitList]
  refine ⟨⟨⟨fun _ => false, ?_⟩, fun _ => hnum, fun hm => ?_⟩, hnum⟩
  · simp [newEntry, DirectoryEntry.create, create, ht]
  · simp [newEntry, DirectoryEntry.create] at hm

end Entries

/-! ### Directories -/

def load (dc : DirectoryConfig A) (d : DirectoryCache A N) (a : A) : ℕ :=
  (entry dc d a).elim 0 numSharers

/-- A directory of full-map entries. -/
structure DirOk (dc : DirectoryConfig A) (d : DirectoryCache A N) : Prop where
  wf : WellFormed dc d
  entries : ∀ a e, entry dc d a = some e → EntryOk e
  finite : {a | (entry dc d a).isSome}.Finite

section Directories

variable {dc : DirectoryConfig A} {d d' : DirectoryCache A N} {a b : A} {e : DirectoryEntry N}

theorem dirOk_empty : DirOk dc (empty : DirectoryCache A N) where
  wf := wellFormed_empty
  entries a e h := by simp at h
  finite := by simp

theorem load_of_entry (h : entry dc d a = some e) : load dc d a = numSharers e := by
  simp [load, h]

section

variable (h : DirOk dc d)
include h

theorem DirOk.finite_load : Histogram.Finite (load dc d) :=
  h.finite.subset fun a ha => by
    by_contra hn
    have hnone : entry dc d a = none := by simpa using hn
    simp [load, hnone] at ha

theorem DirOk.update (hwf : WellFormed dc d')
    (hent : ∀ b, entry dc d' b = if b = a then some e else entry dc d b) (he : EntryOk e) :
    DirOk dc d' ∧ load dc d' = update (load dc d) a (numSharers e) := by
  refine ⟨⟨hwf, fun b e' hb => ?_, ?_⟩, ?_⟩
  · rw [hent] at hb
    split at hb
    · obtain rfl := some.inj hb
      exact he
    · exact h.entries b e' hb
  · refine (h.finite.insert a).subset fun b hb => ?_
    by_cases hba : b = a
    · exact .inl hba
    · right
      simpa [hent, hba] using hb
  · funext b
    by_cases hba : b = a
    · simp [load, hent, hba]
    · simp [load, hent, hba]

theorem DirOk.getDirectoryEntry (ht : dc.type = .fullMap)
    (hg : d.getDirectoryEntry dc a = (d', some e)) :
    DirOk dc d' ∧ load dc d' = load dc d ∧ entry dc d' a = some e ∧
      ∀ b ≠ a, entry dc d' b = entry dc d b := by
  obtain ⟨hwf, hent, hold, -⟩ := h.wf.getDirectoryEntry_some hg
  have he : EntryOk e ∧ numSharers e = load dc d a := by
    cases ha : entry dc d a with
    | some e' =>
      obtain rfl : e = e' := by simpa [ha] using hold
      exact ⟨h.entries a e ha, (load_of_entry ha).symm⟩
    | none =>
      obtain rfl : e = newEntry dc N := by simpa [ha] using hold
      exact ⟨(entryOk_new ht).1, by rw [(entryOk_new ht).2]; simp [load, ha]⟩
  obtain ⟨hd, hload⟩ := h.update hwf hent he.1
  refine ⟨hd, ?_, by simp [hent], fun b hb => by simp [hent, hb]⟩
  rw [hload, he.2, update_eq_self]

theorem DirOk.setDirectoryEntry (ha : (entry dc d a).isSome) (he : EntryOk e) :
    DirOk dc (d.setDirectoryEntry dc a e) ∧
      load dc (d.setDirectoryEntry dc a e) = Function.update (load dc d) a (numSharers e) := by
  obtain ⟨hwf, hent, -⟩ := h.wf.setDirectoryEntry (e := e) ha
  exact h.update hwf hent he

theorem DirOk.invalidateDirectoryEntry (he : entry dc d a = some e) (h0 : numSharers e = 0) :
    Sat (d.invalidateDirectoryEntry a) (fun _ => True) fun d' => DirOk dc d' ∧
      load dc d' = load dc d ∧ ∀ b ≠ a, entry dc d' b = entry dc d b := by
  by_cases hr : a ∈ d.replaced.map Prod.fst
  · obtain ⟨d', hd', hwf, hent, -⟩ := h.wf.invalidateDirectoryEntry hr
    rw [hd', sat_ok]
    refine ⟨⟨hwf, fun b e' hb => ?_, ?_⟩, ?_, fun b hb => by simp [hent, hb]⟩
    · rw [hent] at hb
      split at hb
      · cases hb
      · exact h.entries b e' hb
    · refine h.finite.subset fun b hb => ?_
      by_cases hba : b = a
      · simp [hent, hba] at hb
      · simpa [hent, hba] using hb
    · funext b
      by_cases hba : b = a
      · simp [load, hent, hba, he, h0]
      · simp [load, hent, hba]
  · rw [DirectoryCache.invalidateDirectoryEntry, if_neg]
    · trivial
    · rw [← ne_none_iff_isSome, not_not]
      exact lookup_eq_none_iff.mpr hr

end

end Directories

/-! ### Programs that leave the directory alone -/

section SameDir

variable {cfg : Config A N} {x x' : Tile A N} {a : A} {m : ShmemMsg A N} {e : DirectoryEntry N}
  {d : Option LineData}

/-- The program returns a tile with the directory of `x`. -/
def SameDir (x : Tile A N) (y : Except Fault (Tile A N)) : Prop :=
  Ensures y fun x' => x'.home.directory = x.home.directory

omit [DecidableEq A] in
theorem SameDir.of_home {y : Except Fault (Tile A N)} (h : KeepsHome x y) : SameDir x y :=
  h.ensures.mono fun _ hx => congrArg Home.directory hx

theorem sameDir_eraseData : SameDir x (eraseData x a) := ensures_bind fun _ => rfl

theorem sameDir_insertData : SameDir x (insertData cfg x a d) :=
  ensures_bind fun _ => rfl

theorem sameDir_putDataToDram : SameDir x (putDataToDram x a d) := by
  refine ensures_bind fun _ => ?_
  split
  · trivial
  · rfl

theorem sameDir_retrieve {type : MsgType} {u : Fin N} {modeled : Bool} :
    SameDir x (retrieveDataAndSendToL2Cache x a type u modeled) := by
  unfold retrieveDataAndSendToL2Cache
  split
  · exact sameDir_eraseData.mono fun _ h => h
  · rfl

end SameDir

/-! ### Entries for requests -/

section Requests

variable {cfg : Config A N} {x : Tile A N} {a : A} {r : ShmemMsg A N} {rnd : ℕ}
  (ht : cfg.directory.type = .fullMap) {e : DirectoryEntry N} {f : A → ℕ}
  {y : Except Fault (Tile A N)} {replyExpected : Bool}

/-- A tile whose lines have the numbers of sharers `f`. -/
structure Carries (cfg : Config A N) (f : A → ℕ) (x : Tile A N) : Prop where
  ok : DirOk cfg.directory x.home.directory
  load : load cfg.directory x.home.directory = f

theorem SameDir.carries (hy : SameDir x y) (h : Carries cfg f x) : Ensures y (Carries cfg f) := by
  refine hy.mono fun x' hx' => ?_
  obtain ⟨hok, hload⟩ := h
  rw [← hx'] at hok hload
  exact ⟨hok, hload⟩

theorem carries_self (h : DirOk cfg.directory x.home.directory) :
    Carries cfg (Mosi.load cfg.directory x.home.directory) x := ⟨h, rfl⟩

/-- `x'` has the numbers of sharers of `x`, and its entries but that of line `a`. -/
structure Others (cfg : Config A N) (a : A) (x x' : Tile A N) : Prop
    extends Carries cfg (load cfg.directory x.home.directory) x' where
  other : ∀ b ≠ a, entry cfg.directory x'.home.directory b = entry cfg.directory x.home.directory b

theorem SameDir.others {x' : Tile A N} (hy : SameDir x' y) (h : Others cfg a x x') :
    Ensures (do pure (← y, false)) fun y => Others cfg a x y.1 := by
  refine Sat.bind hy fun x'' hx => ?_
  obtain ⟨⟨hok, hload⟩, hother⟩ := h
  rw [← hx] at hok hload hother
  exact ⟨⟨hok, hload⟩, hother⟩

include ht

section

variable (h : DirOk cfg.directory x.home.directory)
include h

theorem processNullifyReq_others :
    Ensures (processNullifyReq cfg x r) fun y => Others cfg r.address x y.1 := by
  unfold processNullifyReq
  split
  · trivial
  · next d e hg =>
    obtain ⟨hd, hload, he, hother⟩ := h.getDirectoryEntry ht hg
    have hx : Others cfg r.address x (withDirectory x d) := ⟨⟨hd, hload⟩, hother⟩
    dsimp only
    split
    · exact SameDir.others (.of_home keepsHome_sendToOwner) hx
    · exact ensures_bind fun _ => SameDir.others (.of_home keepsHome_sendShmemMsg) hx
    · exact ensures_bind fun _ => SameDir.others (.of_home keepsHome_sendShmemMsg) hx
    · next hu =>
      -- the entry has no sharers, so its removal changes no count
      have h0 := (hd.entries _ e he).uncached hu
      have hinv : ∀ x' : Tile A N, x'.home.directory = d → Ensures
          (do pure (withDirectory x' (← x'.home.directory.invalidateDirectoryEntry r.address), true))
          fun y => Others cfg r.address x y.1 := by
        rintro x' rfl
        refine (hd.invalidateDirectoryEntry he h0).bind fun d' h' => ?_
        obtain ⟨hd', hload', hother'⟩ := h'
        exact ⟨⟨hd', hload'.trans hload⟩, fun b hb => (hother' b hb).trans (hother b hb)⟩
      split
      · exact hinv _ rfl
      · refine Sat.bind sameDir_putDataToDram fun x₁ h₁ => ?_
        exact Sat.bind sameDir_eraseData fun x₂ h₂ => hinv _ (h₂.trans h₁)
    · trivial

theorem processDirectoryEntryAllocationReq_carries {d : DirectoryCache A N}
    (hg : x.home.directory.getDirectoryEntry cfg.directory r.address = (d, none)) :
    Ensures (processDirectoryEntryAllocationReq cfg x r) fun y =>
      Carries cfg (load cfg.directory x.home.directory) y.1 ∧
      entry cfg.directory y.1.home.directory r.address = some y.2 := by
  obtain ⟨rfl, hnone, -, hfull⟩ := h.wf.getDirectoryEntry_none hg
  unfold processDirectoryEntryAllocationReq
  cases hc : x.home.directory.getReplacementCandidates cfg.directory r.address with
  | error e => trivial
  | ok cands =>
    simp only [ok_bind]
    split
    · trivial
    · next b e hcand =>
      obtain ⟨hmem, -⟩ := replacementCandidate_spec hcand
      obtain ⟨hset, hget⟩ := h.wf.mem_candidates hc hmem
      obtain ⟨d', hd', hwf, hent, -⟩ := h.wf.replaceDirectoryEntry hset hget hnone hfull
      have hba : r.address ≠ b := by
        rintro rfl
        simp [entry_of_get_some hget] at hnone
      obtain ⟨hnew, hnew0⟩ := entryOk_new (N := N) ht
      obtain ⟨hok, hload⟩ := h.update hwf hent hnew
      have hload' : load cfg.directory d' = load cfg.directory x.home.directory := by
        rw [hload, hnew0]
        exact update_eq_self_iff.mpr (by simp [load, hnone])
      rw [hd']
      simp only [ok_bind]
      refine ensures_bind fun _ => ?_
      refine (processNullifyReq_others ht (x := enqueue (withDirectory x d') b _) hok).bind ?_
      rintro ⟨x₁, done⟩ ⟨⟨hok, hload⟩, hother⟩
      have hnewEntry : entry cfg.directory d' r.address = some (newEntry cfg.directory N) := by
        simpa using hent r.address
      have hentry : entry cfg.directory x₁.home.directory r.address =
          some (newEntry cfg.directory N) := (hother _ hba).trans hnewEntry
      dsimp only
      split
      · refine ensures_bind fun _ => ?_
        exact ⟨⟨hok, hload.trans hload'⟩, hentry⟩
      · exact ⟨⟨hok, hload.trans hload'⟩, hentry⟩

theorem entryFor_carries : Ensures (entryFor cfg x r) fun y =>
      Carries cfg (load cfg.directory x.home.directory) y.1 ∧
      entry cfg.directory y.1.home.directory r.address = some y.2 := by
  unfold entryFor
  split
  · next d e hg =>
    obtain ⟨hd, hload, he, -⟩ := h.getDirectoryEntry ht hg
    exact ⟨⟨hd, hload⟩, he⟩
  · next hg => exact processDirectoryEntryAllocationReq_carries ht h hg

end

omit ht

theorem carries_setEntry {n : ℕ} (h : DirOk cfg.directory x.home.directory)
    (ha : (entry cfg.directory x.home.directory a).isSome) (he : EntryOk e)
    (hn : numSharers e = n) :
    Carries cfg (update (Mosi.load cfg.directory x.home.directory) a n) (setEntry cfg x a e) := by
  obtain ⟨hd, hload⟩ := h.setDirectoryEntry ha he
  exact ⟨hd, hn ▸ hload⟩

/-- What a program of the controller reports and leaves behind. -/
abbrev Reports {β : Type} (cfg : Config A N) (x : Tile A N) (cs : List StatsCall)
    (y : Except Fault β) (tile : β → Tile A N) : Prop :=
  Logs (load cfg.directory x.home.directory) cs y fun f b => Carries cfg f (tile b)

theorem reports_same {done : Bool} (h : DirOk cfg.directory x.home.directory) (hy : SameDir x y) :
    Reports cfg x [] (do pure (← y, done)) Prod.fst :=
  Logs.of_sat ((hy.carries (carries_self h)).bind fun _ hx' => hx')

theorem shifts_same (he : entry cfg.directory x.home.directory a = some e) :
    Shifts [] (load cfg.directory x.home.directory)
      (update (load cfg.directory x.home.directory) a (numSharers e)) := by
  rw [← load_of_entry he, update_eq_self]
  exact .nil

theorem addSharer_logs (ht : cfg.directory.type = .fullMap)
    {t : Fin N} (hok : EntryOk e) (hf : f a = numSharers e) :
    Logs f (addSharerCalls cfg e) (e.addSharer t) fun g y =>
      g = update f a (numSharers e + 1) ∧ y.2 = true ∧ Resized e y.1 (numSharers e + 1) := by
  have hcalls : addSharerCalls cfg e = [(↑(numSharers e), ↑(numSharers e + 1))] := by
    simp [addSharerCalls, ht, num_of_fullMap hok.fullMap]
  rw [hcalls, ← hf]
  exact ⟨_, .one a _, hok.addSharer.mono fun y hy => ⟨rfl, hf ▸ hy⟩⟩

theorem removeSharer_logs (ht : cfg.directory.type = .fullMap)
    {t : Fin N} (hb : ∃ b, e.sharers = .fullMap b)
    (hf : f a = numSharers e) (hpos : 0 < numSharers e) :
    Logs f (removeSharerCalls cfg e) (e.removeSharer t replyExpected) fun g e' =>
      g = update f a (numSharers e - 1) ∧ Resized e e' (numSharers e - 1) := by
  have hcalls : removeSharerCalls cfg e = [(↑(numSharers e), ↑(numSharers e - 1))] := by
    simp [removeSharerCalls, ht, num_of_fullMap hb]
    omega
  rw [hcalls, ← hf]
  exact ⟨_, .one a _, (removeSharer_resized hb).mono fun y hy => ⟨rfl, hf ▸ hy.2⟩⟩

theorem entryOk_modified (hb : ∃ b, e.sharers = .fullMap b)
    (h1 : numSharers e = 1) (hd : e.dstate = .modified) : EntryOk e :=
  ⟨hb, by simp [hd], fun _ => h1⟩

theorem entryOk_busy (hb : ∃ b, e.sharers = .fullMap b)
    (hd : e.dstate = .shared ∨ e.dstate = .owned) : EntryOk e := by
  refine ⟨hb, fun h => ?_, fun h => ?_⟩ <;> simp [h] at hd

include ht

theorem entryFor_reports (h : DirOk cfg.directory x.home.directory) :
    Logs (load cfg.directory x.home.directory) [] (entryFor cfg x r) fun f y =>
      Carries cfg f y.1 ∧ entry cfg.directory y.1.home.directory r.address = some y.2 :=
  .of_sat ((entryFor_carries ht h).mono fun _ hy => ⟨⟨hy.1.ok, hy.1.load⟩, hy.2⟩)

theorem processExReq_reports (h : DirOk cfg.directory x.home.directory) :
    Reports cfg x (processExReqCalls cfg x r) (processExReqFromL2Cache cfg rnd x r) Prod.fst := by
  refine (entryFor_reports ht h).bind ?_
  rintro f ⟨x₁, e⟩ ⟨⟨hd, rfl⟩, he⟩
  dsimp only at hd he ⊢
  have hok := hd.entries _ e he
  have hsome : (entry cfg.directory x₁.home.directory r.address).isSome := by simp [he]
  cases hds : e.dstate with
  | modified =>
    simp only [reduceCtorEq, false_and, if_false]
    exact reports_same hd (.of_home keepsHome_sendToOwner)
  | owned =>
    simp only [reduceCtorEq, false_and, if_false]
    split
    · next hone =>
      have h1 : numSharers e = 1 := by simp [numSharers, hone.2]
      have hset := carries_setEntry (e := { e with dstate := .modified }) hd hsome
        (entryOk_modified hok.fullMap h1 rfl) rfl
      exact ⟨_, shifts_same he, hset.ok, hset.load⟩
    · exact reports_same hd (.of_home keepsHome_sendShmemMsg)
  | shared =>
    simp only [reduceCtorEq, false_and, if_false]
    refine Logs.bind_quiet fun _ => ?_
    split
    · next hone =>
      have h1 : numSharers e = 1 := by simp [numSharers, hone.2]
      refine ⟨_, shifts_same he, setOwner_sat.bind fun e' he' => ?_⟩
      have hs := he'.1
      have h1' : numSharers e' = numSharers e := by simp [numSharers, hs]
      have hset := carries_setEntry (e := { e' with dstate := .modified }) hd hsome
        (entryOk_modified (hs ▸ hok.fullMap) (h1'.trans h1) rfl) h1'
      exact ⟨hset.ok, hset.load⟩
    · exact Logs.bind_quiet fun _ => reports_same hd (.of_home keepsHome_sendShmemMsg)
  | uncached =>
    have h0 : e.sharers.getNumSharers = 0 := by rw [num_of_fullMap hok.fullMap, hok.uncached hds]; rfl
    simp only [h0, and_self, if_true, check_pos, ok_bind]
    refine (addSharer_logs ht hok (load_of_entry he)).bind_sat ?_
    rintro f ⟨e₁, added⟩ ⟨rfl, rfl, hres⟩
    dsimp only at hres ⊢
    rw [check_pos rfl, ok_bind]
    refine setOwner_sat.bind fun e₂ he₂ => ?_
    have hs := he₂.1
    have hsize : numSharers e₂ = numSharers e + 1 := by rw [← hres.size, numSharers, hs]; rfl
    have h1 : numSharers e₂ = 1 := by rw [hsize, hok.uncached hds]
    have hset := carries_setEntry (e := { e₂ with dstate := .modified }) hd hsome
      (entryOk_modified (hs ▸ hres.fullMap) h1 rfl) hsize
    exact (sameDir_retrieve.carries hset).bind fun _ hx => hx
  | exclusive =>
    simp only [reduceCtorEq, false_and, if_false]
    exact .of_error

theorem processShReqSharers_reports (hd : DirOk cfg.directory x.home.directory)
    (he : entry cfg.directory x.home.directory r.address = some e)
    (hds : e.dstate = .shared ∨ e.dstate = .owned) :
    Reports cfg x (processShReqSharersCalls cfg rnd x r e) (processShReqSharers cfg rnd x r e)
      Prod.fst := by
  have hok := hd.entries _ e he
  have hsome : (entry cfg.directory x.home.directory r.address).isSome := by simp [he]
  unfold processShReqSharersCalls processShReqSharers
  refine Logs.bind_check fun _ => Logs.bind_silent fun sharer => ?_
  refine (addSharer_logs ht hok (load_of_entry he)).bind ?_
  rintro f ⟨e₁, added⟩ ⟨rfl, rfl, hres⟩
  dsimp only at hres ⊢
  simp only [true_and, Bool.true_eq_false, if_false]
  have hds₁ : e₁.dstate = .shared ∨ e₁.dstate = .owned := by rwa [hres.dstate]
  split
  · -- the requester is removed again
    have hpos : 0 < numSharers e₁ := by rw [hres.size]; exact Nat.succ_pos _
    refine (removeSharer_logs ht (a := r.address) hres.fullMap ?_ hpos).bind_sat ?_
    · rw [update_self, hres.size]
    · rintro g e₂ ⟨rfl, hres₂⟩
      rw [update_idem]
      have hset := carries_setEntry hd hsome
        (entryOk_busy hres₂.fullMap (by rwa [hres₂.dstate])) hres₂.size
      exact ((SameDir.of_home keepsHome_sendId).carries hset).bind fun _ hx => ⟨hx.ok, hx.load⟩
  · have hset := carries_setEntry hd hsome (entryOk_busy hres.fullMap hds₁) hres.size
    exact Logs.of_sat ((sameDir_retrieve.carries hset).bind fun _ hx => hx)

theorem processShReq_reports (h : DirOk cfg.directory x.home.directory) :
    Reports cfg x (processShReqCalls cfg rnd x r) (processShReqFromL2Cache cfg rnd x r)
      Prod.fst := by
  refine (entryFor_reports ht h).bind ?_
  rintro f ⟨x₁, e⟩ ⟨⟨hd, rfl⟩, he⟩
  dsimp only at hd he ⊢
  have hok := hd.entries _ e he
  have hsome : (entry cfg.directory x₁.home.directory r.address).isSome := by simp [he]
  cases hds : e.dstate with
  | modified =>
    refine Logs.of_sat ?_
    exact ((SameDir.of_home keepsHome_sendToOwner).carries (carries_self hd)).bind fun _ hx => ⟨hx.ok, hx.load⟩
  | owned => exact processShReqSharers_reports ht hd he (.inr hds)
  | shared => exact processShReqSharers_reports ht hd he (.inl hds)
  | uncached =>
    refine (addSharer_logs ht hok (load_of_entry he)).bind_sat ?_
    rintro f ⟨e₁, added⟩ ⟨rfl, rfl, hres⟩
    dsimp only at hres ⊢
    rw [check_pos rfl, ok_bind]
    have hset := carries_setEntry (e := { e₁ with dstate := .shared }) hd hsome
      (entryOk_busy hres.fullMap (.inl rfl)) hres.size
    exact (sameDir_retrieve.carries hset).bind fun _ hx => hx
  | exclusive => exact .of_error

theorem processReq_reports (h : DirOk cfg.directory x.home.directory) :
    Reports cfg x (processReqCalls cfg rnd x r) (processReq cfg rnd x r) Prod.fst := by
  unfold processReqCalls processReq
  cases r.type with
  | exReq => exact processExReq_reports ht h
  | shReq => exact processShReq_reports ht h
  | _ => exact .of_error

/-! ### The queue -/

theorem processNextReq_reports {q : List (ShmemReq A N)}
    (h : DirOk cfg.directory x.home.directory) :
    Reports cfg x (processNextReqCalls cfg rnd a q x) (processNextReqFromL2Cache cfg rnd a q x)
      id := by
  induction q generalizing x with
  | nil => exact .of_error
  | cons r q ih =>
    cases q with
    | nil => exact Logs.bind_quiet fun _ => .of_sat ⟨h, rfl⟩
    | cons r' q =>
      refine Logs.bind_check fun _ => ?_
      refine (processReq_reports ht (x := dequeue x a) h).bind ?_
      rintro f ⟨x₁, done⟩ ⟨hd, rfl⟩
      cases done with
      | true => exact ih hd
      | false => exact .of_sat ⟨hd, rfl⟩

theorem finish_reports {y : Tile A N × Bool} (h : DirOk cfg.directory y.1.home.directory) :
    Reports cfg y.1 (finishCalls cfg rnd a y) (finish cfg rnd a y) id := by
  obtain ⟨x, done⟩ := y
  cases done with
  | true => exact processNextReq_reports ht h
  | false => exact .of_sat ⟨h, rfl⟩

variable {sender : Fin N} {m : ShmemMsg A N} {dstate : DirectoryState}

theorem restartShmemReq_reports {r : ShmemReq A N} (h : DirOk cfg.directory x.home.directory) :
    Reports cfg x (restartShmemReqCalls cfg rnd x a sender r dstate)
      (restartShmemReq cfg rnd x a sender r dstate) id := by
  have hfinish : ∀ (f : A → ℕ) (y : Tile A N × Bool), Carries cfg f y.1 →
      Logs f (finishCalls cfg rnd a y) (finish cfg rnd a y) fun g => Carries cfg g := by
    rintro f y ⟨hd, rfl⟩
    exact finish_reports ht hd
  unfold restartShmemReqCalls restartShmemReq
  cases r.shmemMsg.type with
  | exReq =>
    dsimp only
    split
    · exact (processExReq_reports ht h).bind hfinish
    · exact .of_sat ⟨h, rfl⟩
  | shReq =>
    dsimp only
    rw [ite_and]
    refine Logs.bind_check fun _ => ?_
    split
    · exact (processShReq_reports ht (x := setSharerTileId x a invalidTileId) h).bind hfinish
    · exact .of_sat ⟨h, rfl⟩
  | nullifyReq =>
    dsimp only
    split
    · have hnull : Reports cfg x [] (processNullifyReq cfg x r.shmemMsg) Prod.fst :=
        .of_sat ((processNullifyReq_others ht h).mono fun y hy => ⟨hy.1.ok, hy.1.load⟩)
      exact hnull.bind hfinish
    · exact .of_sat ⟨h, rfl⟩
  | _ => exact .of_error

theorem restartFront_reports (h : DirOk cfg.directory x.home.directory) :
    Reports cfg x (restartFrontCalls cfg rnd x a sender dstate)
      (restartFront cfg rnd x a sender dstate) id := by
  unfold restartFrontCalls restartFront
  cases x.home.reqQueue a with
  | nil => exact .of_sat ⟨h, rfl⟩
  | cons r q => exact restartShmemReq_reports ht h

/-! ### Replies -/

/-- The entry of line `a` after a reply. -/
abbrev Answers (f : A → ℕ) (a : A) (cs : List StatsCall) (y : Except Fault (DirectoryEntry N)) :
    Prop :=
  Logs f cs y fun g e' => EntryOk e' ∧ g = Function.update f a (numSharers e')

omit ht in
theorem entryOk_shared {e e' : DirectoryEntry N} {n : ℕ} (hres : Resized e e' n)
    (hds : e.dstate = .shared) {e'' : DirectoryEntry N}
    (he'' : e'' = if e'.sharers.getNumSharers = 0 then { e' with dstate := .uncached } else e') :
    EntryOk e'' ∧ numSharers e'' = n := by
  subst he''
  split
  · next h0 =>
    have h0' : numSharers e' = 0 := by simp [numSharers, h0]
    exact ⟨⟨hres.fullMap, fun _ => h0', by simp⟩, hres.size⟩
  · exact ⟨entryOk_busy hres.fullMap (.inl (hres.dstate.trans hds)), hres.size⟩

section

variable (hok : EntryOk e) (hf : f a = numSharers e)
include hok hf

theorem removeSharer_answers
    {k : DirectoryEntry N → Except Fault (DirectoryEntry N)} (hpos : 0 < numSharers e)
    (hk : ∀ e' n, Resized e e' n → n = numSharers e - 1 →
      Ensures (k e') fun e'' => EntryOk e'' ∧ numSharers e'' = n) :
    Answers f a (removeSharerCalls cfg e) (e.removeSharer sender replyExpected >>= k) := by
  refine (removeSharer_logs ht hok.fullMap hf hpos).bind_sat ?_
  rintro g e' ⟨rfl, hres⟩
  refine (hk e' _ hres rfl).mono ?_
  rintro e'' ⟨hok', hsize⟩
  exact ⟨hok', by rw [hsize]⟩

theorem invRepEntry_answers :
    Answers f a (invRepEntryCalls cfg sender e) (invRepEntry sender m e) := by
  have hnum := num_of_fullMap hok.fullMap
  unfold invRepEntryCalls invRepEntry
  cases hds : e.dstate with
  | owned =>
    refine Logs.bind_check fun hc => removeSharer_answers ht hok hf (by omega) ?_
    rintro e' n hres -
    refine ensures_bind fun _ => ⟨?_, hres.size⟩
    exact entryOk_busy hres.fullMap (.inr (hres.dstate.trans hds))
  | shared =>
    refine Logs.bind_check fun hc => removeSharer_answers ht hok hf (by omega) ?_
    rintro e' n hres -
    exact entryOk_shared hres hds rfl
  | _ => exact .of_error

theorem flushRepEntry_answers :
    Answers f a (flushRepEntryCalls cfg sender m e) (flushRepEntry sender m e) := by
  have hnum := num_of_fullMap hok.fullMap
  unfold flushRepEntryCalls flushRepEntry
  cases hds : e.dstate with
  | modified =>
    have h1 := hok.modified hds
    dsimp only
    rw [ite_and]
    refine Logs.bind_check fun _ => Logs.bind_check fun _ => ?_
    refine removeSharer_answers ht hok hf (by omega) ?_
    rintro e' n hres hn
    refine setOwner_sat.bind fun e₂ ⟨hs, _⟩ => ?_
    have hsize : numSharers e₂ = n := by rw [← hres.size, numSharers, hs]; rfl
    have h0 : n = 0 := by omega
    exact ⟨⟨hs ▸ hres.fullMap, fun _ => hsize.trans h0, by simp⟩, hsize⟩
  | owned =>
    refine Logs.bind_check fun hc => removeSharer_answers ht hok hf (by omega) ?_
    rintro e' n hres -
    split
    · refine setOwner_sat.bind fun e₂ ⟨hs, _⟩ => ?_
      have hsize : numSharers e₂ = n := by rw [← hres.size, numSharers, hs]; rfl
      have hnum₂ := num_of_fullMap (e := e₂) (hs ▸ hres.fullMap)
      by_cases hpos : e₂.sharers.getNumSharers > 0
      · simp only [hpos, if_true]
        exact ⟨entryOk_busy (hs ▸ hres.fullMap) (.inl rfl), hsize⟩
      · have h0 : numSharers e₂ = 0 := by omega
        simp only [hpos, if_false]
        exact ⟨⟨hs ▸ hres.fullMap, fun _ => h0, by simp⟩, hsize⟩
    · exact ⟨entryOk_busy hres.fullMap (.inr (hres.dstate.trans hds)), hres.size⟩
  | shared =>
    refine Logs.bind_check fun hc => removeSharer_answers ht hok hf (by omega) ?_
    rintro e' n hres -
    exact entryOk_shared hres hds rfl
  | _ => exact .of_error

end

omit ht in
theorem wbRepEntry_answers {e : DirectoryEntry N} {f : A → ℕ} {pending : Bool} (hok : EntryOk e)
    (hf : f a = numSharers e) : Answers f a [] (wbRepEntry sender pending e) := by
  have hsame : f = update f a (numSharers e) := by rw [← hf, update_eq_self]
  unfold wbRepEntry
  cases hds : e.dstate with
  | modified =>
    refine Logs.bind_quiet fun _ => Logs.bind_quiet fun _ => .of_sat ⟨?_, hsame⟩
    exact entryOk_busy hok.fullMap (.inr rfl)
  | owned => exact Logs.bind_quiet fun _ => .of_sat ⟨hok, hsame⟩
  | shared => exact Logs.bind_quiet fun _ => Logs.bind_quiet fun _ => .of_sat ⟨hok, hsame⟩
  | _ => exact .of_error

section

variable (h : DirOk cfg.directory x.home.directory)
include h

theorem reply_reports {e : DirectoryEntry N} {d : DirectoryCache A N} {cs : List StatsCall}
    {y : Except Fault (DirectoryEntry N)} {kc : DirectoryEntry N → List StatsCall}
    {k : DirectoryEntry N → Except Fault (Tile A N)}
    (hg : x.home.directory.getDirectoryEntry cfg.directory a = (d, some e))
    (hy : EntryOk e → ∀ f : A → ℕ, f a = numSharers e → Answers f a cs y)
    (hk : ∀ e' f, Carries cfg f (setEntry cfg (withDirectory x d) a e') →
      Logs f (kc e') (k e') fun g => Carries cfg g) :
    Reports cfg x (followedBy cs y kc) (y >>= k) id := by
  obtain ⟨hd, hload, he, -⟩ := h.getDirectoryEntry ht hg
  rw [Reports, ← hload]
  refine (hy (hd.entries _ e he) _ (load_of_entry he)).bind ?_
  rintro f e' ⟨hok, rfl⟩
  exact hk e' _ (carries_setEntry (x := withDirectory x d) hd (by simp [withDirectory, he]) hok rfl)

theorem processInvRep_reports : Reports cfg x (processInvRepCalls cfg rnd x sender m)
      (processInvRepFromL2Cache cfg rnd x sender m) id := by
  unfold processInvRepCalls processInvRepFromL2Cache
  rcases hg : x.home.directory.getDirectoryEntry cfg.directory m.address with ⟨d, _ | e⟩
  · exact .of_error
  · refine reply_reports ht h hg (fun hok f hf => invRepEntry_answers ht hok hf) ?_
    rintro e' f ⟨hd, rfl⟩
    exact restartFront_reports ht hd

theorem processFlushRep_reports : Reports cfg x (processFlushRepCalls cfg rnd x sender m)
      (processFlushRepFromL2Cache cfg rnd x sender m) id := by
  unfold processFlushRepCalls processFlushRepFromL2Cache
  rcases hg : x.home.directory.getDirectoryEntry cfg.directory m.address with ⟨d, _ | e⟩
  · exact .of_error
  · refine reply_reports ht h hg (fun hok f hf => flushRepEntry_answers ht hok hf) ?_
    rintro e' f hc
    dsimp only
    cases (setEntry cfg (withDirectory x d) m.address e').home.reqQueue m.address with
    | nil => exact .of_sat (sameDir_putDataToDram.carries hc)
    | cons r q =>
      refine Logs.bind (.of_sat (sameDir_insertData.carries hc)) ?_
      rintro g x₁ hc₁
      have hrestart : ∀ (f : A → ℕ) (x : Tile A N), Carries cfg f x →
          Logs f (restartShmemReqCalls cfg rnd x m.address sender r e'.dstate)
            (restartShmemReq cfg rnd x m.address sender r e'.dstate) fun g => Carries cfg g := by
        rintro f x ⟨hd, rfl⟩
        exact restartShmemReq_reports ht hd
      split
      · exact Logs.bind (.of_sat (sameDir_putDataToDram.carries hc₁)) hrestart
      · exact hrestart g x₁ hc₁

theorem processWbRep_reports : Reports cfg x (processWbRepCalls cfg rnd x sender m)
      (processWbRepFromL2Cache cfg rnd x sender m) id := by
  unfold processWbRepCalls processWbRepFromL2Cache
  rcases hg : x.home.directory.getDirectoryEntry cfg.directory m.address with ⟨d, _ | e⟩
  · exact .of_error
  · refine Logs.bind_check fun _ => ?_
    refine reply_reports ht h hg (fun hok f hf => wbRepEntry_answers hok hf) ?_
    rintro e' f hc
    dsimp only
    cases (setEntry cfg (withDirectory x d) m.address e').home.reqQueue m.address with
    | nil => exact .of_error
    | cons r q =>
      refine Logs.bind (.of_sat (sameDir_insertData.carries hc)) ?_
      rintro g x₁ ⟨hd, rfl⟩
      exact restartShmemReq_reports ht hd

theorem queueReq_reports : Reports cfg x (queueReqCalls cfg rnd x m) (queueReq cfg rnd x m) id := by
  unfold queueReqCalls queueReq
  dsimp only
  rw [ite_and, ite_and]
  refine Logs.bind_check fun _ => ?_
  split
  · refine Logs.bind_check fun _ => ?_
    refine (processReq_reports ht (x := enqueue x m.address ⟨m, invalidTileId⟩) h).bind ?_
    rintro f y ⟨hd, rfl⟩
    exact finish_reports ht hd
  · exact .of_sat ⟨h, rfl⟩

/-- Whatever message the controller handles, it reports the changes it makes. -/
theorem handleMsg_reports :
    Reports cfg x (handleMsgCalls cfg rnd x sender m) (handleMsgFromL2Cache cfg rnd x sender m)
      id := by
  unfold handleMsgCalls handleMsgFromL2Cache
  cases m.type with
  | exReq => exact queueReq_reports ht h
  | shReq => exact queueReq_reports ht h
  | invRep => exact processInvRep_reports ht h
  | flushRep => exact processFlushRep_reports ht h
  | wbRep => exact processWbRep_reports ht h
  | _ => exact .of_error

theorem handle_reports {t : Fin N} {ch : Choice} :
    Reports cfg x (handleCalls cfg sender ch m x) (handle cfg t sender ch m x) id := by
  have hkeep : ∀ y : Except Fault (Tile A N), KeepsHome x y → Reports cfg x [] y id := by
    intro y hy
    have hsame : SameDir x y := .of_home hy
    exact .of_sat (hsame.carries (carries_self h))
  unfold handleCalls handle
  cases m.receiverComponent with
  | l2Cache =>
    cases m.senderComponent with
    | l1ICache => exact hkeep _ (after_check rfl fun _ => L2.keepsHome_handleMsgFromL1Cache)
    | l1DCache => exact hkeep _ (after_check rfl fun _ => L2.keepsHome_handleMsgFromL1Cache)
    | dramDirectory => exact hkeep _ L2.keepsHome_handleMsgFromDramDirectory
    | _ => exact .of_error
  | dramDirectory =>
    cases m.senderComponent with
    | l2Cache => exact handleMsg_reports ht h
    | _ => exact .of_error
  | _ => exact .of_error

end

end Requests

/-! ### The counters -/

section Counters

variable {cfg : Config A N} {v : SharerCounts} {f g : A → ℕ}

theorem updateSharerStats_fits {n : ℕ} {a : A} (hv : Fits v f) (hf : Histogram.Finite f) :
    Sat (updateSharerStats N v (f a) n) (· ≠ .sharerCountZero) fun v' =>
      Fits v' (update f a n) := by
  have hraise : ∀ v' : SharerCounts, Fits v' (update f a 0) → Fits
      (if 0 < (n : ℤ) then update v' n (v' n + 1) else v') (update f a n) := by
    intro v' hv'
    by_cases hn : n = 0
    · simpa [hn] using hv'
    · have hraised := hv'.raise (hf.update a 0) (update_self a 0 f) hn
      rw [update_idem] at hraised
      rwa [if_pos (by omega)]
  unfold updateSharerStats
  refine sat_check_bind (fun _ => ?_) fun _ => by simp
  refine sat_check_bind (fun _ => ?_) fun _ => by simp
  by_cases ha : f a = 0
  · have hsame : update f a 0 = f := update_eq_self_iff.mpr ha.symm
    rw [← hsame] at hv
    simpa [ha] using hraise v hv
  · have hpos : 0 < (f a : ℤ) := by omega
    simp only [hpos, if_true, Int.toNat_natCast, check_pos (hv.pos hf ha), ok_bind]
    exact hraise _ (hv.lower ha)

theorem foldlM_fits {cs : List StatsCall} (h : Shifts cs f g) (hv : Fits v f)
    (hf : Histogram.Finite f) :
    Sat (cs.foldlM (fun v c => updateSharerStats N v c.1 c.2) v) (· ≠ .sharerCountZero) fun v' =>
      Fits v' g := by
  induction h generalizing v with
  | nil => exact hv
  | cons a n _ ih =>
    rw [List.foldlM_cons]
    exact (updateSharerStats_fits hv hf).bind fun v' hv' => ih hv' (hf.update a n)

/-- The directory of a tile has full-map entries, and its counters are right. -/
structure CountsOk (cfg : Config A N) (h : StatsHome A N) : Prop where
  ok : DirOk cfg.directory h.home.directory
  fits : Fits h.counts (load cfg.directory h.home.directory)

variable {x : PrL2.Tile A N (StatsHome A N)}

section

variable (ht : cfg.directory.type = .fullMap) (h : CountsOk cfg x.home) (t sender : Fin N)
  (ch : Choice) (m : ShmemMsg A N)
include ht h t sender ch m

theorem calls_fit : Sat ((handleCalls cfg sender ch m (bare x)).foldlM
        (fun v c => updateSharerStats N v c.1 c.2) x.home.counts) (· ≠ .sharerCountZero) fun v =>
      Ensures (handle cfg t sender ch m (bare x)) fun y =>
        CountsOk cfg ⟨y.home, v⟩ := by
  have hreports : Reports cfg (bare x) (handleCalls cfg sender ch m (bare x))
      (handle cfg t sender ch m (bare x)) id := handle_reports ht h.ok
  obtain ⟨g, hshifts, hsat⟩ := hreports
  refine (foldlM_fits (N := N) hshifts h.fits h.ok.finite_load).mono fun v hv => ?_
  refine hsat.mono fun y hy => ⟨hy.ok, ?_⟩
  rw [← hy.load] at hv
  exact hv

theorem handleStats_countsOk :
    Ensures (handleStats cfg t sender ch m x) fun y => CountsOk cfg y.home := by
  have hfit := calls_fit ht h t sender ch m
  exact (hfit.imp (fun _ _ => trivial) fun _ hv => hv).bind fun v hv => hv.bind fun y hy => hy

end

end Counters

/-! ### Counting entries -/

section Counting

variable {dc : DirectoryConfig A} {d : DirectoryCache A N} {k : ℕ}

theorem ncard_ways (h : WellFormed dc d) :
    {a | ∃ l, get dc.geometry d.directory a = some l ∧ l.data.sharers.getNumSharers = k}.ncard =
      {p : ℕ × ℕ | p.2 < dc.geometry.ways ∧ ∃ l, d.directory p.1 p.2 = some l ∧
        l.data.sharers.getNumSharers = k}.ncard := by
  refine Set.ncard_congr
    (fun a _ => (dc.geometry.set a, (find dc.geometry d.directory a).getD 0)) ?_ ?_ ?_
  · rintro a ⟨l, hl, hk⟩
    obtain ⟨-, w, hw, hw', hf⟩ := get_eq_some hl
    simp only [hf, getD_some]
    exact ⟨hw, l, hw', hk⟩
  · rintro a b ⟨l, hl, -⟩ ⟨l', hl', -⟩ heq
    obtain ⟨rfl, w, -, hw, hf⟩ := get_eq_some hl
    obtain ⟨rfl, w', -, hw', hf'⟩ := get_eq_some hl'
    simp only [hf, hf', getD_some, Prod.mk.injEq] at heq
    rw [heq.1, heq.2, hw'] at hw
    rw [some.inj hw]
  · rintro ⟨s, w⟩ ⟨hw, l, hl, hk⟩
    obtain rfl := h.placed.set_tag hl
    have hf := h.placed.find_of_way hw hl rfl
    exact ⟨l.tag, ⟨l, h.placed.get_of_way hw hl rfl, hk⟩, by simp [hf]⟩

theorem DirOk.entriesWith_eq (h : DirOk dc d) (hk : 1 ≤ k) :
    entriesWith dc d k = {a | load dc d a = k}.ncard := by
  have hnum : ∀ a e, entry dc d a = some e → (e.sharers.getNumSharers = k ↔ load dc d a = k) := by
    intro a e he
    rw [load_of_entry he, num_of_fullMap (h.entries a e he).fullMap]
    omega
  have hway : ∀ a e, d.replaced.lookup a = some e → get dc.geometry d.directory a = none := by
    intro a e he
    apply h.wf.absent
    by_contra hm
    simp [lookup_eq_none_iff.mpr hm] at he
  have hsplit : {a | load dc d a = k} =
      {a | ∃ l, get dc.geometry d.directory a = some l ∧ l.data.sharers.getNumSharers = k} ∪
      {a | ∃ e, d.replaced.lookup a = some e ∧ e.sharers.getNumSharers = k} := by
    ext a
    constructor
    · intro ha
      cases he : entry dc d a with
      | none =>
        have h0 : load dc d a = 0 := by simp [load, he]
        exact absurd (h0.symm.trans ha) (by omega)
      | some e =>
        have hke := (hnum a e he).mpr ha
        cases hl : get dc.geometry d.directory a with
        | some l =>
          obtain rfl : l.data = e := some.inj ((entry_of_get_some hl).symm.trans he)
          exact .inl ⟨l, hl, hke⟩
        | none => exact .inr ⟨e, (entry_of_get_none hl).symm.trans he, hke⟩
    · rintro (⟨l, hl, hke⟩ | ⟨e, he, hke⟩)
      · exact (hnum a _ (entry_of_get_some hl)).mp hke
      · exact (hnum a e ((entry_of_get_none (hway a e he)).trans he)).mp hke
  have hdisj : Disjoint
      {a | ∃ l, get dc.geometry d.directory a = some l ∧ l.data.sharers.getNumSharers = k}
      {a | ∃ e, d.replaced.lookup a = some e ∧ e.sharers.getNumSharers = k} := by
    rw [Set.disjoint_left]
    rintro a ⟨l, hl, -⟩ ⟨e, he, -⟩
    rw [hway a e he] at hl
    cases hl
  have hfin := h.finite_load.value hk
  rw [hsplit] at hfin ⊢
  rw [Set.ncard_union_eq hdisj (hfin.subset Set.subset_union_left)
    (hfin.subset Set.subset_union_right), ncard_ways h.wf,
    ncard_lookup h.wf.nodup fun e => e.sharers.getNumSharers = k]
  rfl

end Counting

/-! ### Runs -/

theorem countsOk_run {cfg : Config A N} {dram : Fin N → A → Option LineData}
    (ht : cfg.directory.type = .fullMap) {tr : List (Event A N)} {s : State A N (StatsHome A N)}
    (hrun : (statsSystem cfg dram).Run (fun _ => True) tr s) (t : Fin N) :
    CountsOk cfg (s t).home := by
  have hinit : ∀ s, (statsSystem cfg dram).init s → ∀ t, CountsOk cfg (s t).home := by
    intro s hs t
    rw [(hs t).1]
    refine ⟨dirOk_empty, ?_⟩
    have hzero : load cfg.directory (empty : DirectoryCache A N) = fun _ => 0 := by
      funext a
      simp [load]
    rw [hzero]
    exact fits_zero
  have hkeep : ∀ t sender ch m (x : PrL2.Tile A N (StatsHome A N)), CountsOk cfg x.home →
      Ensures (handleStats cfg t sender ch m x) fun y => CountsOk cfg y.home :=
    fun t sender ch m x hx => handleStats_countsOk ht hx t sender ch m
  have hstep : ∀ s act, (∀ t, CountsOk cfg (s t).home) →
      Ensures ((statsSystem cfg dram).step s act) fun r =>
        ∀ t, CountsOk cfg (r.1 t).home := fun s act hs => step_homes hs hkeep
  exact hrun.invariant (I := fun _ s => ∀ t, CountsOk cfg (s t).home) hinit
    (fun _ s act hs _ _ => hstep s act hs) t

/-- In every run the counters are the numbers of entries with so many sharers, and no message finds
a counter at zero that it takes down. -/
theorem sharer_histogram (cfg : Config A N) (dram : Fin N → A → Option LineData)
    (ht : cfg.directory.type = .fullMap) {tr : List (Event A N)} {s : State A N (StatsHome A N)}
    (hrun : (statsSystem cfg dram).Run (fun _ => True) tr s) (t : Fin N) :
    (∀ k, 1 ≤ k → (s t).home.counts k = entriesWith cfg.directory (s t).home.home.directory k) ∧
    ∀ (sender : Fin N) (ch : Choice) (m : ShmemMsg A N) (x : PrL2.Tile A N (StatsHome A N)),
      x.home = (s t).home → (handleCalls cfg sender ch m (bare x)).foldlM
          (fun v c => updateSharerStats N v c.1 c.2) x.home.counts ≠ .error .sharerCountZero := by
  have hok := countsOk_run ht hrun t
  constructor
  · intro k hk
    rw [hok.fits k hk, hok.ok.entriesWith_eq hk]
  · intro sender ch m x hx herr
    rw [← hx] at hok
    have hsat := calls_fit ht hok t sender ch m
    rw [herr] at hsat
    exact hsat rfl

instance (cfg : Config A N) (dram : Fin N → A → Option LineData) (s : State A N (StatsHome A N)) :
    DecidablePred ((statsSystem cfg dram).enabled s) :=
  inferInstanceAs (DecidablePred (enabled cfg s))

/-- A line that one tile owns and the other shares has an entry with two sharers. -/
theorem sharer_histogram_crowded :
    ∃ tr s, (statsSystem crowded fun _ _ => none).Run (fun _ => True) tr s ∧
      entriesWith crowded.directory (s 0).home.home.directory 2 = 1 := by
  refine System.Run.of_reaches_imp (Q := fun _ s => (s 0).home.counts 2 = 1)
    (.start (s := initial fun _ => ⟨⟨.empty, fun _ => [], fun _ => none, .empty⟩, fun _ => 0⟩)
      fun _ => ⟨rfl, rfl, rfl, rfl, rfl, rfl, rfl⟩) (shareLine 0 0 1) fun tr s h hq => ?_
  obtain ⟨hcounts, -⟩ := sharer_histogram crowded (fun _ _ => none) rfl h 0
  exact (hcounts 2 (by decide)).symm.trans hq

end Graphite.Mosi
