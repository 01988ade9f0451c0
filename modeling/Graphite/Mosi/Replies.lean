import Graphite.Mosi.Model
import Graphite.Mosi.Line

/-! # Replies at a MOSI directory entry

Under the line invariant each reply of a client meets a directory state that accepts it, and the entry
agrees with the phases of the clients again once the reply is counted.
-/

namespace Graphite.Mosi

open Outcome SetAssoc PrL2 Function Option Finset

variable {A : Type} [DecidableEq A] {N : ℕ}

/-- Entry `e'` is entry `e` after a reply of type `k` that takes tile `t` to phase `p`; `b` says that a
broadcast asked for it. -/
structure Replied (dc : DirectoryConfig A) (ph : Fin N → Phase) (R : Finset (Fin N)) (t : Fin N)
    (k : MsgType) (b : Bool) (p : Phase) (e e' : DirectoryEntry N) : Prop where
  agrees : Agrees dc e' (update ph t p)
  covers : e'.sharers.Covers dc.type dc.maxHwSharers (holders (update ph t p))
    (if b then R.erase t else R)
  has : dc.Fits N → ∀ u ≠ t, e.sharers.hasSharer u = true → e'.sharers.hasSharer u = true
  before : e.dstate ≠ .uncached
  after : e'.dstate ≠ .modified
  clean : e'.dstate = .uncached ∨ e'.dstate = .shared → e.dstate = .shared ∨
    k = .flushRep ∧ (e.dstate = .modified ∨ e.dstate = .owned)

variable {dc : DirectoryConfig A} {e : DirectoryEntry N} {ph : Fin N → Phase} {R : Finset (Fin N)}
  {t : Fin N} {k : MsgType} {b : Bool} {p p' : Phase} {m : ShmemMsg A N} {e' : DirectoryEntry N}

/-! ### The phases of a client that has replied -/

theorem Phase.Answers.inv_cases (h : Phase.Answers .invRep b p p') :
    p' = .out ∧ (p = .out ∧ b = true ∨ p = .left false false) := by
  cases h <;> simp

theorem Phase.Answers.flush_cases (h : Phase.Answers .flushRep b p p') :
    p' = .out ∧ p = .left true false := by
  cases h; simp

theorem Phase.Answers.wb_cases (h : Phase.Answers .wbRep b p p') : b = false ∧
    ((∃ st, p = .held st true ∧ p' = .held st false) ∨
      ∃ flush, p = .left flush true ∧ p' = .left flush false) := by
  cases h <;> simp

theorem Phase.Answers.isWb (h : Phase.Answers .wbRep b p p') : p.isWb := by
  cases h <;> rfl

omit [DecidableEq A] in
theorem Phase.Answers.not_uncached (h : Phase.Answers k b (ph t) p) (ha : Agrees dc e ph)
    (hc : e.sharers.Covers dc.type dc.maxHwSharers (holders ph) R) (hr : b = true → t ∈ R) :
    e.dstate ≠ .uncached := by
  intro hd
  obtain ⟨-, hb, hout⟩ := (agrees_uncached hd).mp ha
  rw [hout t] at h
  cases h
  have := (hc.pending (ne_empty_of_mem (hr rfl))).1
  simp [hb] at this

/-- The directory state in which a reply of tile `t` is legal. -/
def Accepts (e : DirectoryEntry N) (t : Fin N) : MsgType → Prop
  | .invRep => e.dstate = .shared ∨ e.dstate = .owned ∧ e.owner ≠ some t
  | .flushRep | .wbRep =>
    e.dstate = .shared ∨ e.dstate = .owned ∨ e.dstate = .modified ∧ e.owner = some t
  | _ => False

section
omit [DecidableEq A]

theorem Phase.Answers.accepts (h : Phase.Answers k b (ph t) p) (ha : Agrees dc e ph)
    (hc : e.sharers.Covers dc.type dc.maxHwSharers (holders ph) R) (hr : b = true → t ∈ R)
    (hfit : dc.Fits N) : Accepts e t k := by
  rcases ha.cases with hd | hd | hd | hd
  · exact absurd hd (h.not_uncached ha hc hr)
  · generalize ph t = q at h
    cases h <;> exact .inl hd
  · obtain ⟨-, o, ho, -, hown, -⟩ := (agrees_owned hd).mp ha
    have hinv : ¬ (ph t).isOwner → e.owner ≠ some t := by
      rintro hn he
      obtain rfl := some.inj (ho.symm.trans he)
      exact hn hown
    generalize ph t = q at h hinv
    cases h with
    | ack => exact .inr ⟨hd, hinv (by simp [Phase.isOwner])⟩
    | inv => exact .inr ⟨hd, hinv (by simp [Phase.isOwner])⟩
    | flush => exact .inr (.inl hd)
    | wb => exact .inr (.inl hd)
    | wbLeft => exact .inr (.inl hd)
  · obtain ⟨hb, o, ho, -, ⟨hw, hout⟩ | ⟨-, hnf, -⟩⟩ := (agrees_modified hd).mp ha
    · have hmine : ph t ≠ .out → e.owner = some t := by
        intro hne
        by_cases hto : t = o
        · rw [hto]; exact ho
        · exact absurd (hout t hto) hne
      have hmine' : ph t ≠ .out → (ph t).isWriter := by
        intro hne
        by_cases hto : t = o
        · rw [hto]; exact hw
        · exact absurd (hout t hto) hne
      generalize ph t = q at h hmine hmine'
      cases h with
      | ack =>
        have := (hc.pending (ne_empty_of_mem (hr rfl))).1
        simp [hb] at this
      | inv => exact absurd (hmine' (by simp)) (by simp [Phase.isWriter])
      | flush => exact .inr (.inr ⟨hd, hmine (by simp)⟩)
      | wb => exact .inr (.inr ⟨hd, hmine (by simp)⟩)
      | wbLeft => exact .inr (.inr ⟨hd, hmine (by simp)⟩)
    · exact absurd hfit hnf

theorem type_of_replyOf (h : replyOf m = some (k, b)) : k = m.type := by
  unfold replyOf at h
  split at h <;> simp_all

end

/-! ### A sharer leaves -/

/-- An entry without tile `t`. -/
structure Removed (dc : DirectoryConfig A) (ph : Fin N → Phase) (R : Finset (Fin N)) (t : Fin N)
    (b : Bool) (e e' : DirectoryEntry N) : Prop where
  dstate : e'.dstate = e.dstate
  owner : e'.owner = e.owner
  covers : e'.sharers.Covers dc.type dc.maxHwSharers (holders (update ph t .out))
    (if b then R.erase t else R)
  broadcasts : e'.sharers.broadcasts = true → e.sharers.broadcasts = true
  has : dc.Fits N → ∀ u ≠ t, e.sharers.hasSharer u = true → e'.sharers.hasSharer u = true

omit [DecidableEq A] in
theorem removeSharer_sat (hc : e.sharers.Covers dc.type dc.maxHwSharers (holders ph) R)
    (ht : t ∈ holders ph ∨ b = true) (hr : b = true → t ∈ R) :
    Sat (e.removeSharer t b) (fun _ => ¬ dc.Fits N) (Removed dc ph R t b e) := by
  rw [DirectoryEntry.sat_removeSharer]
  have hrem := hc.removeSharer _ ht hr
  rw [← holders_update_out] at hrem
  by_cases hf : dc.Fits N
  · refine (hrem.and (Sharers.hasSharer_removeSharer (hc.narrow hf))).imp (fun _ => And.left) ?_
    rintro s ⟨⟨hcov, hb⟩, hhas⟩
    exact ⟨rfl, rfl, hcov, hb, fun _ => hhas⟩
  · refine hrem.mono ?_
    rintro s ⟨hcov, hb⟩
    exact ⟨rfl, rfl, hcov, hb, fun hf' => absurd hf' hf⟩

theorem isReader_update_out (h : ∀ u ≠ t, (ph u).isReader) (u : Fin N) :
    (update ph t .out u).isReader := by
  by_cases hu : u = t
  · subst hu; simp [Phase.isReader]
  · simpa [hu] using h u hu

section

variable (h : Removed dc ph R t b e e')
include h

section
omit [DecidableEq A]

/-- No broadcast waits for replies, and no tile is left, if no sharer is counted. -/
theorem Removed.uncached (ho : e'.owner = none)
    (h0 : e'.sharers.getNumSharers = 0) (hread : ∀ u ≠ t, (ph u).isReader) :
    Agrees dc { e' with dstate := .uncached } (update ph t .out) := by
  rw [agrees_uncached rfl]
  refine ⟨ho, ?_, fun u => ?_⟩
  · by_contra hb
    have := h.covers.num_pos_of_broadcasts (Fin.pos t) (by simpa using hb)
    omega
  · refine out_of_reader (isReader_update_out hread u) fun hu => ?_
    have := mem_holders.mpr hu
    simp [h.covers.eq_empty h0] at this

theorem Removed.shared (ho : e'.owner = none)
    (h0 : e'.sharers.getNumSharers ≠ 0) (hread : ∀ u ≠ t, (ph u).isReader)
    (hd : e'.dstate = .shared) : Agrees dc e' (update ph t .out) := by
  rw [agrees_shared hd]
  have := h.covers.num_nonneg
  exact ⟨ho, by omega, isReader_update_out hread⟩

theorem Removed.owned {o : Fin N}
    (ha : Agrees dc e ph) (hd : e.dstate = .owned) (ho : e.owner = some o) (hot : o ≠ t) :
    Agrees dc e' (update ph t .out) ∧ 0 < e'.sharers.getNumSharers := by
  obtain ⟨hlt, o', ho', hfit, hown, hread⟩ := (agrees_owned hd).mp ha
  obtain rfl : o' = o := some.inj (ho'.symm.trans ho)
  constructor
  · rw [agrees_owned (h.dstate.trans hd)]
    exact ⟨fun hb => hlt (h.broadcasts hb), o', h.owner.trans ho', fun hf => h.has hf o' hot (hfit hf),
      by simpa [hot] using hown, fun u hu => by
        by_cases hut : u = t
        · subst hut; simp [Phase.isReader]
        · simpa [hut] using hread u hu⟩
  · refine h.covers.num_pos ⟨o', ?_⟩
    rw [holders_update_out, mem_erase, mem_holders]
    exact ⟨hot, holds_of_owner hown⟩

end

end

omit [DecidableEq A] in
theorem sharedRep_sat {f : Fault} (ha : Agrees dc e ph)
    (hc : e.sharers.Covers dc.type dc.maxHwSharers (holders ph) R) (hd : e.dstate = .shared)
    (ht : t ∈ holders ph ∨ b = true) (hr : b = true → t ∈ R) :
    Sat (do
      check (e.owner = none ∧ e.sharers.getNumSharers > 0) f
      let e ← e.removeSharer t b
      pure (if e.sharers.getNumSharers = 0 then { e with dstate := .uncached } else e))
      (fun _ => ¬ dc.Fits N) (Replied dc ph R t k b .out e) := by
  obtain ⟨ho, hpos, hread⟩ := (agrees_shared hd).mp ha
  rw [check_pos ⟨ho, hpos⟩, ok_bind]
  refine (removeSharer_sat hc ht hr).bind fun e' h => ?_
  have ho' := h.owner.trans ho
  have hd' := h.dstate.trans hd
  have hread' := fun u (_ : u ≠ t) => hread u
  split
  · next h0 => exact ⟨h.uncached ho' h0 hread', h.covers, h.has, by simp [hd], by simp, fun _ => .inl hd⟩
  · next h0 => exact ⟨h.shared ho' h0 hread' hd', h.covers, h.has, by simp [hd], by simp [hd'],
      fun _ => .inl hd⟩

/-! ### The replies -/

section

variable (ha : Agrees dc e ph) (hc : e.sharers.Covers dc.type dc.maxHwSharers (holders ph) R)
include ha hc

section
omit [DecidableEq A]

theorem invRepEntry_sat
    (hans : Phase.Answers .invRep b (ph t) p) (hb : m.replyExpected = b) (hr : b = true → t ∈ R) :
    Sat (Directory.invRepEntry t m e) (fun _ => ¬ dc.Fits N) (Replied dc ph R t .invRep b p e) := by
  obtain ⟨rfl, hp⟩ := hans.inv_cases
  subst hb
  have ht : t ∈ holders ph ∨ m.replyExpected = true := by
    rcases hp with ⟨-, hb⟩ | hp
    · exact .inr hb
    · exact .inl (mem_holders.mpr (by simp [hp]))
  -- a reply to a broadcast is due in broadcast mode only
  have hbro : e.sharers.broadcasts = false → ph t = .left false false := by
    intro hbf
    rcases hp with ⟨-, hb⟩ | hp
    · have := (hc.pending (ne_empty_of_mem (hr hb))).1
      simp [hbf] at this
    · exact hp
  unfold Directory.invRepEntry
  split
  · next hd =>
    obtain ⟨-, o, ho, -, hown, -⟩ := (agrees_owned hd).mp ha
    have hot : o ≠ t := by
      rintro rfl
      rcases hp with ⟨hp, -⟩ | hp <;> rw [hp] at hown <;> cases hown
    have hpos := hc.num_pos ⟨o, mem_holders.mpr (holds_of_owner hown)⟩
    rw [check_pos ⟨by simpa [ho] using hot, hpos⟩, ok_bind]
    refine (removeSharer_sat hc ht hr).bind fun e' h => ?_
    obtain ⟨ha', hpos'⟩ := h.owned ha hd ho hot
    rw [check_pos hpos', ok_bind]
    exact ⟨ha', h.covers, h.has, by simp [hd], by simp [h.dstate, hd], by simp [h.dstate, hd]⟩
  · next hd => exact sharedRep_sat ha hc hd ht hr
  · next h1 h2 =>
    rcases ha.cases with hd | hd | hd | hd
    · exact absurd hd (hans.not_uncached ha hc hr)
    · exact absurd hd h2
    · exact absurd hd h1
    · obtain ⟨hbf, o, -, -, ⟨hw, hout⟩ | ⟨-, hnf, -⟩⟩ := (agrees_modified hd).mp ha
      · have hpt := hbro hbf
        by_cases hot : o = t
        · rw [hot, hpt] at hw; cases hw
        · simp [hout t (Ne.symm hot)] at hpt
      · exact hnf

theorem flushRepEntry_sat
    (hans : Phase.Answers .flushRep b (ph t) p) (hb : m.replyExpected = b) (hr : b = true → t ∈ R) :
    Sat (Directory.flushRepEntry t m e) (fun _ => ¬ dc.Fits N)
      (Replied dc ph R t .flushRep b p e) := by
  obtain ⟨rfl, hp⟩ := hans.flush_cases
  subst hb
  have ht : t ∈ holders ph := mem_holders.mpr (by simp [hp])
  unfold Directory.flushRepEntry
  split
  · next hd =>
    obtain ⟨hbf, o, ho, -, hcase⟩ := (agrees_modified hd).mp ha
    rw [sat_bind, sat_check]
    constructor
    · intro how
      obtain rfl : o = t := some.inj (ho.symm.trans how)
      obtain ⟨-, hout⟩ : (ph o).isWriter ∧ ∀ u ≠ o, ph u = .out := by
        rcases hcase with hw | ⟨hdo, -⟩
        · exact hw
        · simp [hp] at hdo
      have hre : m.replyExpected = false := by
        by_contra hre
        have := (hc.pending (ne_empty_of_mem (hr (by simpa using hre)))).1
        simp [hbf] at this
      rw [check_pos hre, ok_bind, hre]
      refine (removeSharer_sat hc (.inl ht) (by simp)).bind fun e' h => ?_
      rw [sat_bind, DirectoryEntry.sat_setOwner]
      refine ⟨fun _ => ⟨?_, h.covers, h.has, by simp [hd], by simp, fun _ => .inr ⟨rfl, .inl hd⟩⟩,
        fun hno => absurd (by simp) hno⟩
      rw [agrees_uncached rfl]
      refine ⟨rfl, ?_, fun u => ?_⟩
      · by_contra hb
        simp [h.broadcasts (by simpa using hb)] at hbf
      · by_cases hu : u = o
        · simp [hu]
        · simpa [hu] using hout u hu
    · -- only an owner that is doomed has other tiles flush the line
      intro hno
      rcases hcase with ⟨-, hout⟩ | ⟨-, hnf, -⟩
      · have hot : t ≠ o := fun he => hno (he ▸ ho)
        simp [hout t hot] at hp
      · exact hnf
  · next hd =>
    obtain ⟨-, o, ho, -, hown, hread⟩ := (agrees_owned hd).mp ha
    rw [check_pos ⟨by simp [ho], hc.num_pos ⟨t, ht⟩⟩, ok_bind]
    refine (removeSharer_sat hc (.inl ht) hr).bind fun e' h => ?_
    split
    · next how =>
      obtain rfl : o = t := some.inj (ho.symm.trans (h.owner.symm.trans how))
      rw [sat_bind, DirectoryEntry.sat_setOwner]
      refine ⟨fun _ => ?_, fun hno => absurd (by simp) hno⟩
      have hnn := h.covers.num_nonneg
      -- the owner is gone: the line is SHARED or UNCACHED
      have h' : Removed dc ph R o m.replyExpected { e with dstate := .shared, owner := none }
          { e' with dstate := .shared, owner := none } := ⟨rfl, rfl, h.covers, h.broadcasts, h.has⟩
      by_cases h0 : 0 < e'.sharers.getNumSharers
      · refine ⟨?_, h.covers, h.has, by simp [hd], by simp [h0], fun _ => .inr ⟨rfl, .inr hd⟩⟩
        simpa [h0] using h'.shared rfl (by simpa using h0.ne') hread rfl
      · refine ⟨?_, h.covers, h.has, by simp [hd], by simp [h0], fun _ => .inr ⟨rfl, .inr hd⟩⟩
        simpa [h0] using h'.uncached rfl (by simp only; omega) hread
    · next how =>
      have hot : o ≠ t := fun he => how (h.owner.trans (he ▸ ho))
      obtain ⟨ha', -⟩ := h.owned ha hd ho hot
      exact ⟨ha', h.covers, h.has, by simp [hd], by simp [h.dstate, hd], by simp [h.dstate, hd]⟩
  · next hd => exact sharedRep_sat ha hc hd (.inl ht) hr
  · next h1 h2 h3 =>
    rcases ha.cases with hd | hd | hd | hd
    · exact absurd hd (hans.not_uncached ha hc hr)
    · exact absurd hd h3
    · exact absurd hd h2
    · exact absurd hd h1

theorem wbRepEntry_sat (hans : Phase.Answers .wbRep b (ph t) p)
    (hhas : dc.Fits N → e.sharers.hasSharer t = true) :
    Sat (Directory.wbRepEntry t true e) (fun _ => ¬ dc.Fits N)
      (Replied dc ph R t .wbRep b p e) := by
  obtain ⟨rfl, hp⟩ := hans.wb_cases
  have hhold : (p ≠ .out ∧ p ≠ .doomed) ↔ (ph t ≠ .out ∧ ph t ≠ .doomed) := by
    rcases hp with ⟨st, h1, h2⟩ | ⟨f, h1, h2⟩ <;> simp [h1, h2]
  have hne : ph t ≠ .out ∧ ph t ≠ .doomed := by
    rcases hp with ⟨st, h1, -⟩ | ⟨f, h1, -⟩ <;> simp [h1]
  have hreader : (ph t).isReader → p.isReader := by
    rcases hp with ⟨st, h1, h2⟩ | ⟨f, h1, h2⟩
    · rw [h1, h2]; cases st <;> exact id
    · rw [h1, h2]; exact id
  have howner : (ph t).isOwner → p.isOwner := by
    rcases hp with ⟨st, h1, h2⟩ | ⟨f, h1, h2⟩
    · rw [h1, h2]; cases st <;> exact id
    · rw [h1, h2]; cases f <;> exact id
  have hwriter : (ph t).isWriter → p.isOwner := by
    rcases hp with ⟨st, h1, h2⟩ | ⟨f, h1, h2⟩
    · rw [h1, h2]; cases st <;> exact id
    · rw [h1, h2]; cases f <;> exact id
  have hcov : e.sharers.Covers dc.type dc.maxHwSharers (holders (update ph t p))
      (if false then R.erase t else R) := by
    rw [holders_congr hhold]; simpa using hc
  have hread : ∀ u, (ph u).isReader → (update ph t p u).isReader := by
    intro u hu
    by_cases hut : u = t
    · subst hut; simpa using hreader hu
    · simpa [hut] using hu
  unfold Directory.wbRepEntry
  split
  · next hd =>
    obtain ⟨hbf, o, ho, hfit, hcase⟩ := (agrees_modified hd).mp ha
    rw [sat_bind, sat_check]
    constructor
    · intro how
      obtain rfl : o = t := some.inj (ho.symm.trans how)
      obtain ⟨hw, hout⟩ : (ph o).isWriter ∧ ∀ u ≠ o, ph u = .out := by
        rcases hcase with hw | ⟨hdo, -⟩
        · exact hw
        · exact absurd hdo hne.2
      rw [check_pos rfl, ok_bind]
      refine ⟨?_, hcov, fun _ _ _ => id, by simp [hd], by simp, by simp⟩
      rw [agrees_owned rfl]
      refine ⟨fun hb => by simp [hb] at hbf, o, ho, hfit, by simpa using hwriter hw, fun u hu => ?_⟩
      exact hread u (reader_of_out (hout u hu))
    · intro hno
      rcases hcase with ⟨-, hout⟩ | ⟨-, hnf, -⟩
      · have hot : t ≠ o := fun he => hno (he ▸ ho)
        exact absurd (hout t hot) hne.1
      · exact hnf
  · next hd =>
    refine sat_check_bind (fun _ => ⟨?_, hcov, fun _ _ _ => id, by simp [hd], by simp [hd], by simp [hd]⟩) fun hno hf => hno (hhas hf)
    obtain ⟨hlt, o, ho, hfit, hown, hall⟩ := (agrees_owned hd).mp ha
    rw [agrees_owned hd]
    refine ⟨hlt, o, ho, hfit, ?_, fun u hu => hread u (hall u hu)⟩
    by_cases hot : o = t
    · subst hot; simpa using howner hown
    · simpa [hot] using hown
  · next hd =>
    obtain ⟨ho, hpos, hall⟩ := (agrees_shared hd).mp ha
    rw [check_pos ho, ok_bind]
    refine sat_check_bind (fun _ => ⟨?_, hcov, fun _ _ _ => id, by simp [hd], by simp [hd], fun _ => .inl hd⟩) fun hno hf => hno (hhas hf)
    rw [agrees_shared hd]
    exact ⟨ho, hpos, fun u => hread u (hall u)⟩
  · next h1 h2 h3 =>
    rcases ha.cases with hd | hd | hd | hd
    · exact absurd (((agrees_uncached hd).mp ha).2.2 t) hne.1
    · exact absurd hd h3
    · exact absurd hd h2
    · exact absurd hd h1

end

end

/-! ### The data -/

section Data

variable {G : LineData → Prop} {s s' : DirectoryState} {q : List (ShmemMsg A N)}
  {cached dram : Option LineData} {d : LineData}

section

variable (h : DataInv G s q cached dram)
include h

section
omit [DecidableEq A]

theorem DataInv.reply (hs : s ≠ .uncached) (hs' : s' ≠ .modified)
    (hc : s' = .uncached ∨ s' = .shared → s = .shared) : DataInv G s' q cached dram where
  good := h.good
  busy hsome := ⟨(h.busy hsome).1, hs'⟩
  clean hu := h.clean (.inr (hc hu))
  stored _ := h.stored (.inl hs)

theorem DataInv.writeBack (hq : q = []) (hd : G d) : DataInv G s' q cached (some d) := by
  obtain rfl := h.cached_eq_none hq
  exact ⟨by simp, by simp, fun _ _ => hd, fun _ => rfl⟩

theorem DataInv.good_getD (hd : cached = none → G d) : G (cached.getD d) := by
  cases hcd : cached with
  | none => exact hd hcd
  | some c => exact h.good c hcd

theorem DataInv.fetched : (if cached.isSome then dram else some d).isSome := by
  split
  · next hsome => exact h.stored (.inr hsome)
  · rfl

/-- Data arrive while a request is in progress. A reader that finds a clean line also finds the data in
DRAM. -/
theorem DataInv.insert {dram' : Option LineData} (hq : q ≠ [])
    (hs' : s' ≠ .modified) (hd : G d) (hdram : dram'.isSome)
    (hr : Reads q → s' = .uncached ∨ s' = .shared → G (dram'.getD zeroLine)) :
    DataInv G s' q (some (cached.getD d)) dram' where
  good c hc := by
    obtain rfl := some.inj hc
    exact h.good_getD fun _ => hd
  busy _ := ⟨hq, hs'⟩
  clean hu hc := hr (hc.resolve_left (by simp)) hu
  stored _ := hdram

end

end

end Data

end Graphite.Mosi
