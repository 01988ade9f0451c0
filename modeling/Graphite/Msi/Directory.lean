import Graphite.PrL2.Home
import Graphite.Msi.Model
import Graphite.Msi.Line

/-! # The directory controller of MSI

Each function of the controller keeps the invariant of every line homed at its tile. Those that serve
the request at the front of a queue are specified by `Served`: either demands are under way, or the
request is granted and leaves the queue.
-/

namespace Graphite.Msi

open Outcome SetAssoc PrL2 PrL2.Directory DirectoryCache Directory DirectoryEntry Function Option

variable {A : Type} [DecidableEq A] {N : ℕ}

/-- The failures a run may end in: no entry of a directory set can be replaced, or the scheme does not
fit the machine. -/
def Allowed (cfg : Config A N) (e : Fault) : Prop :=
  e = .noReplacementCandidate ∨ ¬ cfg.directory.Fits N

/-- Line `a` is in order. -/
def LineOk (cfg : Config A N) (a : A) (V : LineData) (cl : Fin N → Client A N) (h : HomeLine A N (ShmemMsg A N)) :
    Prop :=
  ∃ ph, LineInv cfg.directory a V cl h ph

/-- Line `a` is in order, no demand or reply is pending, and it is not being nullified. -/
def LineQuiet (cfg : Config A N) (a : A) (V : LineData) (cl : Fin N → Client A N) (h : HomeLine A N (ShmemMsg A N)) :
    Prop :=
  ¬ h.replaced ∧ ∃ ph, LineInv cfg.directory a V cl h ph ∧ ∀ t, (ph t).isQuiet

/-- The lines with `P` homed at tile `v` are in order. -/
structure HomeInv (cfg : Config A N) (v : Fin N) (V : A → LineData) (cl : A → Fin N → Client A N)
    (P : A → Prop) (x₀ x : Tile A N) : Prop where
  client : SameClient cfg v x₀ x
  sound : DirSound cfg v x
  lines : ∀ b, cfg.home b = v → P b → LineOk cfg b (V b) (cl b) (homeLine cfg x b none)

/-- The request at the front of queue `Q` of line `a` has been served: it waits, or is complete. -/
def Served (cfg : Config A N) (a : A) (V : LineData) (cl : Fin N → Client A N)
    (Q : List (ShmemMsg A N)) (y : Tile A N × Bool) : Prop :=
  y.1.home.reqQueue a = Q ∧
    if y.2 then LineQuiet cfg a V cl { homeLine cfg y.1 a none with queue := Q.tail }
    else LineOk cfg a V cl (homeLine cfg y.1 a none)

section

variable (cfg : Config A N) (v : Fin N) (V : A → LineData) (cl : A → Fin N → Client A N) (x₀ : Tile A N)

/-- The program leaves every line homed at tile `v` in order. -/
abbrev Restores (o : Except Fault (Tile A N)) : Prop :=
  Sat o (Allowed cfg) (HomeInv cfg v V cl (fun _ => True) x₀)

/-- The program serves the request at the front of queue `Q` of line `a`. -/
abbrev Settles (a : A) (Q : List (ShmemMsg A N)) (o : Except Fault (Tile A N × Bool)) : Prop :=
  Sat o (Allowed cfg) fun y => HomeInv cfg v V cl (· ≠ a) x₀ y.1 ∧ Served cfg a (V a) (cl a) Q y

end

section Specs

variable {cfg : Config A N} {v : Fin N} {V : A → LineData} {cl : A → Fin N → Client A N}
  {x x' x₀ : Tile A N} {a : A} {r m : ShmemMsg A N} {q : List (ShmemMsg A N)} {ph : Fin N → Phase}
  {W : LineData} {k : Fin N → Client A N} {cached : Option LineData} {P : A → Prop}
  {y : Tile A N × Bool} {rnd : ℕ}

@[simp] theorem isFromDirectory_toL2 {k : MsgType} {u : Fin N} {d : Option LineData} {w : Bool} :
    isFromDirectory a (toL2 k u a d w) = true := by
  simp [isFromDirectory, toL2]

theorem sendInvReq_sat {S : Finset (Fin N)} {e : DirectoryEntry N} (h : DirSound cfg v x) (hv : cfg.home a = v)
    (hm : isFromDirectory a m = true)
    (hrep : e.sharers.Rep cfg.directory.type cfg.directory.maxHwSharers S) :
    Sat (sendInvReq x e m) (fun _ => ¬ cfg.directory.Fits N) fun x' => Sends cfg v a m x x' := by
  refine (hrep.getSharersList).bind ?_
  rintro ⟨all, ids⟩ hids
  dsimp only
  split
  · exact sends_broadcast h hv hm
  · refine sendAll_sat h hv hm fun id hid hno _ hf => ?_
    obtain ⟨t, -, ht⟩ := (hids hf).1 id hid
    exact hno t ht

omit [DecidableEq A] in
theorem LineQuiet.ok {h : HomeLine A N (ShmemMsg A N)} (hl : LineQuiet cfg a W k h) : LineOk cfg a W k h :=
  let ⟨_, ph, hl, _⟩ := hl; ⟨ph, hl⟩

theorem HomeInv.keeps (h : HomeInv cfg v V cl P x₀ x) (hk : Keeps cfg v a x x') (ha : ¬ P a) :
    HomeInv cfg v V cl P x₀ x' where
  client := h.client.trans hk.client
  sound := hk.sound
  lines b hb hP := by
    rw [hk.line b fun e => ha (e ▸ hP)]
    exact h.lines b hb hP

theorem HomeInv.all (h : HomeInv cfg v V cl (· ≠ a) x₀ x)
    (ha : LineOk cfg a (V a) (cl a) (homeLine cfg x a none)) :
    HomeInv cfg v V cl (fun _ => True) x₀ x where
  client := h.client
  sound := h.sound
  lines b hb _ := by
    by_cases hba : b = a
    · subst hba; exact ha
    · exact h.lines b hb hba

theorem Served.waits (hq : y.1.home.reqQueue a = q) (hy : y.2 = false)
    (h : LineOk cfg a W k (homeLine cfg y.1 a none)) : Served cfg a W k q y := by
  refine ⟨hq, ?_⟩
  rwa [hy, if_neg (by simp)]

theorem Served.done (hq : y.1.home.reqQueue a = q) (hy : y.2 = true)
    (h : LineQuiet cfg a W k { homeLine cfg y.1 a none with queue := q.tail }) :
    Served cfg a W k q y := by
  refine ⟨hq, ?_⟩
  rwa [hy, if_pos rfl]

/-! ### Demands -/

section Demand

variable {req : Fin N} {modeled : Bool}

section

variable (hs : DirSound cfg v x) (hv : cfg.home a = v)
  (hl : LineInv cfg.directory a W k (homeLine cfg x a none) ph) (hquiet : ∀ t, (ph t).isQuiet)
  (hd : (homeLine cfg x a none).entry.dstate = .modified)
include hs hv hl hquiet hd

theorem flushOwner_sat (hq : x.home.reqQueue a ≠ []) :
    Sat (sendToOwner x (homeLine cfg x a none).entry
        (toL2 .flushReq req a none modeled)) (Allowed cfg) fun x' =>
      Keeps cfg v a x x' ∧ Served cfg a W k (x.home.reqQueue a) (x', false) := by
  obtain ⟨o, ho, -⟩ := (agrees_modified hd).mp hl.agrees
  simp only [sendToOwner, ho, sat_pure]
  refine ⟨keeps_send hs hv (by simp), .waits rfl rfl ?_⟩
  rw [homeLine_send (by simp)]
  exact hl.pushFlush hd ho hquiet hq rfl

theorem wbOwner_sat (hq : x.home.reqQueue a = r :: q) (hr : r.type = .shReq) :
    Sat (sendToOwner x (homeLine cfg x a none).entry
        (toL2 .wbReq req a none modeled)) (Allowed cfg) fun x' =>
      Keeps cfg v a x x' ∧ Served cfg a W k (x.home.reqQueue a) (x', false) := by
  obtain ⟨o, ho, -⟩ := (agrees_modified hd).mp hl.agrees
  simp only [sendToOwner, ho, sat_pure]
  refine ⟨keeps_send hs hv (by simp), .waits rfl rfl ?_⟩
  rw [homeLine_send (by simp)]
  exact hl.pushWb hd ho hquiet hq hr rfl

end

theorem served_of_sends (h : Sends cfg v a m x x') (hm : m.type = .invReq)
    (hl : LineInv cfg.directory a W k (homeLine cfg x a none) ph)
    (hd : (homeLine cfg x a none).entry.dstate = .shared) :
    Keeps cfg v a x x' ∧ Served cfg a W k (x.home.reqQueue a) (x', false) := by
  refine ⟨h.keeps, .waits (by rw [h.home]) rfl ⟨ph, ?_⟩⟩
  rw [h.line_eq]
  exact hl.pushInv hd hm h.down

theorem invSharers_sat (hs : DirSound cfg v x) (hv : cfg.home a = v)
    (hl : LineInv cfg.directory a W k (homeLine cfg x a none) ph)
    (hd : (homeLine cfg x a none).entry.dstate = .shared) :
    Sat (sendInvReq x (homeLine cfg x a none).entry
        (toL2 .invReq req a none modeled)) (Allowed cfg) fun x' =>
      Keeps cfg v a x x' ∧ Served cfg a W k (x.home.reqQueue a) (x', false) :=
  (sendInvReq_sat hs hv (by simp) hl.rep).imp (fun _ => .inr) fun _ h => served_of_sends h rfl hl hd

end Demand

/-! ### Entries and data -/

theorem putDataToDram_eq {d : LineData} (hd : (x.home.dram a).isSome) :
    putDataToDram x a (some d) = .ok (setDram x a (some d)) := by
  rw [putDataToDram, check_pos hd]
  rfl

/-- What `retrieveDataAndSendToL2Cache` sends, and what it leaves in the DRAM. -/
theorem retrieve_eq {type : MsgType} {u : Fin N} {modeled : Bool} :
    retrieveDataAndSendToL2Cache x a type u cached modeled =
      (setDram x a (if cached.isSome then x.home.dram a else
        some ((x.home.dram a).getD zeroLine))).send u
        (toL2 type u a (some (cached.getD ((x.home.dram a).getD zeroLine))) modeled) := by
  cases cached with
  | none => rfl
  | some d =>
    have : setDram x a (x.home.dram a) = x := by simp [setDram]
    simp [retrieveDataAndSendToL2Cache, this]

theorem grant_line (e : DirectoryEntry N) (type : MsgType) (u : Fin N) (cached : Option LineData)
    (modeled : Bool) (hs : DirSound cfg v x) (hv : cfg.home a = v)
    (ha : (entry cfg.directory x.home.directory a).isSome) :
    Keeps cfg v a x (retrieveDataAndSendToL2Cache (setEntry cfg x a e) a type u cached modeled) ∧
      homeLine cfg (retrieveDataAndSendToL2Cache (setEntry cfg x a e) a type u
        cached modeled) a none =
      { homeLine cfg x a cached with
        entry := e
        cached := none
        dram := if cached.isSome then x.home.dram a else some ((x.home.dram a).getD zeroLine)
        down := update (x.down a) u (x.down a u ++
          [toL2 type u a (some (cached.getD ((x.home.dram a).getD zeroLine))) modeled]) } := by
  obtain ⟨hk, hline, -⟩ := setEntry_line (e := e) hs ha
  have hdram : (setEntry cfg x a e).home.dram = x.home.dram := rfl
  rw [retrieve_eq]
  refine ⟨hk.trans ((keeps_setDram hk.sound).trans
    (keeps_send (keeps_setDram (a := a) hk.sound).sound hv (by simp))), ?_⟩
  rw [homeLine_send (by simp), homeLine_setDram, hline, hdram]
  rfl

/-! ### Nullification and allocation -/

section

variable (hty : cfg.directory.type ≠ .limitedBroadcast)
include hty

omit [DecidableEq A] in
theorem rep_newEntry :
    (newEntry cfg.directory N).sharers.Rep cfg.directory.type cfg.directory.maxHwSharers ∅ :=
  Sharers.rep_create hty

theorem invalidate_sat (hs : DirSound cfg v x)
    (hl : LineInv cfg.directory a W k (homeLine cfg x a none) ph)
    (hd : (homeLine cfg x a none).entry.dstate = .uncached) (hq : x.home.reqQueue a = r :: q)
    (hr : r.type = .nullifyReq) :
    Sat (x.home.directory.invalidateDirectoryEntry a) (Allowed cfg) fun d =>
      Keeps cfg v a x (withDirectory x d) ∧
        Served cfg a W k (x.home.reqQueue a) (withDirectory x d, true) := by
  obtain ⟨d, hinv, hwf, hent, hrep⟩ :=
    hs.wf.invalidateDirectoryEntry (hl.replaced.mpr ⟨r, q, hq, hr⟩)
  rw [hinv, sat_ok]
  refine ⟨keeps_withDirectory hwf (fun b hb => ?_) (fun b hb => by rw [hent, if_neg hb])
    (fun b hb => by simp [hrep, hb]),
    .done rfl rfl ⟨fun hm => ?_, ph, ?_, hl.quiet_of_dstate (by simp [hd])⟩⟩
  · by_cases hba : b = a
    · simp [hent, hba] at hb
    · rw [hent, if_neg hba] at hb; exact hs.homed b hb
  · exact ((hrep a).mp hm).2 rfl
  · have hline : { homeLine cfg (withDirectory x d) a none with
        queue := (x.home.reqQueue a).tail } =
        { homeLine cfg x a none with
          entry := newEntry cfg.directory N, queue := q,
          replaced := a ∈ d.replaced.map Prod.fst } := by
      simp [homeLine, withDirectory, hent, hq]
    rw [hline]
    exact hl.nullified hq hr hd rfl (rep_newEntry hty) (by simp [hrep])

theorem processNullifyReq_sat (hs : DirSound cfg v x) (hv : cfg.home r.address = v)
    (hl : LineInv cfg.directory r.address W k (homeLine cfg x r.address none) ph)
    (hquiet : ∀ t, (ph t).isQuiet) (hq : x.home.reqQueue r.address = r :: q)
    (hr : r.type = .nullifyReq) :
    Sat (processNullifyReq cfg x r) (Allowed cfg) fun y =>
      Keeps cfg v r.address x y.1 ∧ Served cfg r.address W k (r :: q) y := by
  unfold processNullifyReq
  refine getEntry_sat hs hv (present_of_replaced hs (hl.replaced.mpr ⟨r, q, hq, hr⟩))
    fun d hk hline _ => ?_
  have hq₁ : (withDirectory x d).home.reqQueue r.address = r :: q := hq
  rw [← hline none] at hl ⊢
  generalize withDirectory x d = x₁ at hk hline hl hq₁ ⊢
  rw [← hq₁]
  dsimp only
  split
  · next hd =>
    refine (flushOwner_sat hk.sound hv hl hquiet hd (by simp [hq₁])).bind fun y hy => ?_
    exact ⟨hk.trans hy.1, hy.2⟩
  · next hd =>
    refine (invSharers_sat hk.sound hv hl hd).bind fun y hy => ?_
    exact ⟨hk.trans hy.1, hy.2⟩
  · next hd =>
    refine (invalidate_sat hty hk.sound hl hd hq₁ hr).bind fun y hy => ?_
    exact ⟨hk.trans hy.1, hy.2⟩
  · next h1 h2 h3 =>
    have ha := hl.agrees
    unfold Agrees at ha
    split at ha <;> contradiction

/-- Allocating an entry for line `a` may start the nullification of one other line. -/
theorem processDirectoryEntryAllocationReq_sat
    (h : HomeInv cfg v V cl (· ≠ r.address) x₀ x) {d : DirectoryCache A N}
    (hv : cfg.home r.address = v)
    (hg : x.home.directory.getDirectoryEntry cfg.directory r.address = (d, none)) :
    Sat (processDirectoryEntryAllocationReq cfg x r) (Allowed cfg) fun y =>
      HomeInv cfg v V cl (· ≠ r.address) x₀ y.1 ∧
        (∀ c, homeLine cfg y.1 r.address c = homeLine cfg x r.address c) ∧
        (entry cfg.directory y.1.home.directory r.address).isSome ∧
        y.2 = (homeLine cfg x r.address none).entry := by
  obtain ⟨rfl, hnone, -⟩ := h.sound.wf.getDirectoryEntry_none hg
  have hent : (homeLine cfg x r.address none).entry = newEntry cfg.directory N := by
    simp [homeLine, hnone]
  unfold processDirectoryEntryAllocationReq
  cases hc : x.home.directory.getReplacementCandidates cfg.directory r.address with
  | error e =>
    simp [getReplacementCandidates, hg, check] at hc
  | ok cands =>
  rw [ok_bind]
  split
  · exact .inl rfl
  · next b e hcand =>
    obtain ⟨hba, hvb, hqb, d', hrepl, hk₁, hent', hrep⟩ := victim_spec h.sound hv hg hc hcand
    rw [hrepl, ok_bind]
    obtain ⟨ph, hlb⟩ := h.lines b hvb hba
    have hquiet := hlb.quiet_of_idle hqb
    generalize hnul : (⟨.nullifyReq, .dramDirectory, .dramDirectory, r.requester, b, none, true, none,
      false⟩ : ShmemMsg A N) = nul
    dsimp only
    have hn : nul.type = .nullifyReq ∧ nul.address = b := by simp [← hnul]
    have hk₂ : Keeps cfg v b x (enqueue (withDirectory x d') b nul) :=
      hk₁.trans (keeps_enqueue hk₁.sound)
    have hq₂ : (enqueue (withDirectory x d') b nul).home.reqQueue b = [nul] := by
      simp [enqueue, withDirectory, hqb]
    have hl₂ : LineInv cfg.directory b (V b) (cl b)
        (homeLine cfg (enqueue (withDirectory x d') b nul) b none) ph := by
      have := hlb.nullify (P := b ∈ d'.replaced.map Prod.fst) hqb hn.1 hn.2 (by simp [hrep])
      rw [homeLine_enqueue]
      simpa [homeLine, withDirectory, hent', hba, hqb] using this
    have hsome : (entry cfg.directory
        (enqueue (withDirectory x d') b nul).home.directory r.address).isSome := by
      simp [enqueue, withDirectory, hent']
    generalize enqueue (withDirectory x d') b nul = x₂ at hk₂ hq₂ hl₂ hsome ⊢
    rw [check_pos (by simp [hq₂]), ok_bind]
    rw [← hn.2] at hl₂ hq₂ hvb
    refine (processNullifyReq_sat hty hk₂.sound hvb hl₂ hquiet hq₂ hn.1).bind ?_
    rintro ⟨x₃, done⟩ ⟨hk₃, hserved⟩
    rw [hn.2] at hk₃ hserved hvb
    obtain ⟨hq₃, hserved⟩ := hserved
    -- the victim is in order, whether its nullification has ended or not
    obtain ⟨hk, hb⟩ : Keeps cfg v b x₂ (if done then dequeue x₃ b else x₃) ∧
        LineOk cfg b (V b) (cl b) (homeLine cfg (if done then dequeue x₃ b else x₃) b none) := by
      cases done with
      | false => exact ⟨hk₃, by simpa using hserved⟩
      | true =>
        refine ⟨hk₃.trans (keeps_dequeue hk₃.sound), ?_⟩
        rw [if_pos rfl, homeLine_dequeue]
        dsimp only at hq₃
        simpa [hq₃] using LineQuiet.ok hserved
    have hkb := hk₂.trans hk
    refine ⟨⟨h.client.trans hkb.client, hkb.sound, fun c hvc hca => ?_⟩, fun c => ?_, ?_, ?_⟩
    · by_cases hcb : c = b
      · subst hcb; exact hb
      · rw [hkb.line c hcb]; exact h.lines c hvc hca
    · exact hkb.line _ (Ne.symm hba) c
    · exact hk.present _ (Ne.symm hba) hsome
    · exact hent.symm

theorem entryFor_sat (h : HomeInv cfg v V cl (· ≠ r.address) x₀ x) (hv : cfg.home r.address = v) :
    Sat (entryFor cfg x r) (Allowed cfg) fun y =>
      HomeInv cfg v V cl (· ≠ r.address) x₀ y.1 ∧
        (∀ c, homeLine cfg y.1 r.address c = homeLine cfg x r.address c) ∧
        (entry cfg.directory y.1.home.directory r.address).isSome ∧
        y.2 = (homeLine cfg x r.address none).entry := by
  unfold entryFor
  split
  · next d e hg =>
    obtain ⟨hk, hline, hpres, he⟩ := getDirectoryEntry_line h.sound hv hg
    exact ⟨h.keeps hk (by simp), hline, hpres, he⟩
  · next d hg => exact processDirectoryEntryAllocationReq_sat hty h hv hg

/-! ### Requests -/

section

variable (h : HomeInv cfg v V cl (· ≠ r.address) x₀ x) (hv : cfg.home r.address = v)
  (hl : LineInv cfg.directory r.address (V r.address) (cl r.address) (homeLine cfg x r.address cached) ph)
  (hquiet : ∀ t, (ph t).isQuiet) (hq : x.home.reqQueue r.address = r :: q)
include h hv hl hquiet hq

theorem processExReqFromL2Cache_sat (hr : r.type = .exReq)
    (hc : cached.isSome → (homeLine cfg x r.address none).entry.dstate = .uncached) :
    Settles cfg v V cl x₀ r.address (r :: q) (processExReqFromL2Cache cfg x r cached) := by
  refine (entryFor_sat hty h hv).bind ?_
  rintro ⟨x₁, e⟩ ⟨h₁, hline, hpres, he⟩
  have hq₁ : x₁.home.reqQueue r.address = r :: q := by
    simpa [hq] using congrArg HomeLine.queue (hline none)
  simp only at he hline hpres h₁
  subst he
  rw [← hline] at hl hc ⊢
  rw [← hq₁]
  dsimp only
  split
  · next hd =>
    obtain rfl : cached = none := by simpa [hd] using hc
    rw [check_pos (by simp), ok_bind]
    refine (flushOwner_sat h₁.sound hv hl hquiet hd (by simp [hq₁])).bind fun y hy => ?_
    exact ⟨h₁.keeps hy.1 (by simp), hy.2⟩
  · next hd =>
    obtain rfl : cached = none := by simpa [hd] using hc
    rw [check_pos (by simp), ok_bind]
    refine (invSharers_sat h₁.sound hv hl hd).bind fun y hy => ?_
    exact ⟨h₁.keeps hy.1 (by simp), hy.2⟩
  · next hd =>
    have hrep := hl.rep
    rw [holders_out ((agrees_uncached hd).mp hl.agrees)] at hrep
    rw [sat_bind, sat_addSharer]
    refine hrep.addSharer_first.imp (fun _ => .inr) fun s hs => ?_
    obtain ⟨hrep', hfit⟩ := hs
    refine sat_check_bind (fun hadd => ?_) fun hadd => .inr fun hf => hadd (hfit hf).1
    rw [sat_bind, sat_setOwner]
    refine ⟨fun _ => ?_, fun hown => .inr fun hf => hown (by simpa using (hfit hf).2)⟩
    obtain ⟨hk, hline'⟩ := grant_line ⟨.modified, some r.requester, s.1⟩ .exRep r.requester cached
      r.modeled h₁.sound hv hpres
    refine ⟨h₁.keeps hk (by simp), .done (congrArg HomeLine.queue hline') rfl ?_⟩
    rw [hline', hq₁]
    have hnr := hl.not_replaced hq₁ (requestOf_exReq hr)
    refine ⟨hnr, ?_⟩
    refine hl.grantEx hq₁ hr hd rfl rfl (hrep' hadd) (fun hf => (hfit hf).2) ?_ rfl rfl ?_
    · split
      · next hsome => exact hl.stored (.inr hsome)
      · rfl
    · rw [← hl.data (ne_of_eq_of_ne hd (by simp))]; rfl
  · next h1 h2 h3 =>
    have ha := hl.agrees
    unfold Agrees at ha
    split at ha <;> contradiction

theorem processShReqFromL2Cache_sat (hr : r.type = .shReq)
    (hc : cached.isSome → (homeLine cfg x r.address none).entry.dstate ≠ .modified ∧
      x.home.dram r.address = some (V r.address)) :
    Settles cfg v V cl x₀ r.address (r :: q) (processShReqFromL2Cache cfg rnd x r cached) := by
  refine (entryFor_sat hty h hv).bind ?_
  rintro ⟨x₁, e⟩ ⟨h₁, hline, hpres, he⟩
  have hq₁ : x₁.home.reqQueue r.address = r :: q := by
    simpa [hq] using congrArg HomeLine.queue (hline none)
  have hdram : x₁.home.dram r.address = x.home.dram r.address :=
    congrArg HomeLine.dram (hline none)
  simp only at he hline hpres h₁
  subst he
  rw [← hline] at hl hc ⊢
  rw [← hdram] at hc
  rw [← hq₁]
  have hk := requestOf_shReq hr
  have hout : r.requester ∉ holders ph := by
    rw [mem_holders, hl.out_of_front hq₁ hk]; simp
  -- both ways to grant the request
  have hgrant : ∀ e : DirectoryEntry N, e.dstate = .shared →
      (homeLine cfg x₁ r.address none).entry.dstate ≠ .modified →
      e.sharers.Rep cfg.directory.type cfg.directory.maxHwSharers (insert r.requester (holders ph)) →
      HomeInv cfg v V cl (· ≠ r.address) x₀ (retrieveDataAndSendToL2Cache
        (setEntry cfg x₁ r.address e) r.address .shRep r.requester cached r.modeled) ∧
      Served cfg r.address (V r.address) (cl r.address) (x₁.home.reqQueue r.address)
        (retrieveDataAndSendToL2Cache (setEntry cfg x₁ r.address e) r.address .shRep
          r.requester cached r.modeled, true) := by
    intro e he hd hrep
    obtain ⟨hkeep, hline'⟩ := grant_line e .shRep r.requester cached r.modeled h₁.sound hv hpres
    refine ⟨h₁.keeps hkeep (by simp), .done (congrArg HomeLine.queue hline') rfl ?_⟩
    have hV := hl.data hd
    simp only [homeLine_cached, homeLine_dram] at hV
    rw [hline', hq₁, hV]
    have hdr : (if cached.isSome then x₁.home.dram r.address else
        some ((x₁.home.dram r.address).getD zeroLine)) = some (V r.address) := by
      cases cached with
      | none => simpa using hV
      | some d => simpa using (hc rfl).2
    rw [hdr]
    have hnr := hl.not_replaced hq₁ hk
    exact ⟨hnr, hl.grantSh hq₁ hr hd he hrep rfl rfl rfl⟩
  dsimp only
  split
  · next hd =>
    obtain rfl : cached = none := by simpa [hd] using hc
    rw [check_pos (by simp), ok_bind]
    refine (wbOwner_sat h₁.sound hv hl hquiet hd hq₁ hr).bind fun y hy => ?_
    exact ⟨h₁.keeps hy.1 (by simp), hy.2⟩
  · next hd =>
    rw [sat_bind, sat_addSharer]
    refine (hl.rep.addSharer hout).imp (fun _ => .inr) fun s hs => ?_
    rcases hs with ⟨hadd, hrep⟩ | ⟨hadd, hsame, hlim, hne⟩
    · dsimp only
      rw [if_pos hadd]
      exact hgrant _ hd (by simp [hd]) hrep
    · dsimp only
      rw [if_neg (by simp [hadd]), sat_bind]
      have hrep := hl.rep
      rw [← hsame] at hrep
      refine (hrep.getOneSharer hlim hne rnd).imp (fun _ => .inr) fun id hid => ?_
      obtain ⟨hk₂, hline₂, -⟩ := setEntry_line
        (e := { (homeLine cfg x₁ r.address none).entry with sharers := s.1 }) h₁.sound hpres
      have hV : (x₁.home.dram r.address).getD zeroLine = V r.address := by
        cases cached with
        | none => simpa using hl.data (ne_of_eq_of_ne hd (by simp))
        | some d => simp [(hc rfl).2]
      have hl₂ : LineInv cfg.directory r.address (V r.address) (cl r.address)
          (homeLine cfg (setEntry cfg x₁ r.address
            { (homeLine cfg x₁ r.address none).entry with sharers := s.1 }) r.address none) ph := by
        rw [hline₂, hsame]
        exact hl.setData (fun _ => hV) fun _ => hl.stored (.inl (ne_of_eq_of_ne hd (by simp)))
      have hno : (∀ t : Fin N, tileId t ≠ id) → ∀ e, Allowed cfg e := fun hno _ => .inr fun hf => by
        obtain ⟨t, -, ht⟩ := hid hf
        exact hno t ht
      refine (sendId_sat hk₂.sound hv (by simp) hno).bind fun y hy => ?_
      obtain ⟨hky, hsv⟩ := served_of_sends hy rfl hl₂ (by rw [hline₂]; exact hd)
      exact ⟨h₁.keeps (hk₂.trans hky) (by simp), hsv⟩
  · next hd =>
    have hrep := hl.rep
    rw [holders_out ((agrees_uncached hd).mp hl.agrees)] at hrep
    rw [sat_bind, sat_addSharer]
    refine hrep.addSharer_first.imp (fun _ => .inr) fun s hs => ?_
    obtain ⟨hrep', hfit⟩ := hs
    refine sat_check_bind (fun hadd => ?_) fun hadd => .inr fun hf => hadd (hfit hf).1
    refine hgrant _ rfl (by simp [hd]) ?_
    rw [holders_out ((agrees_uncached hd).mp hl.agrees)]
    simpa using hrep' hadd
  · next h1 h2 h3 =>
    have ha := hl.agrees
    unfold Agrees at ha
    split at ha <;> contradiction

end

/-! ### The queue -/

theorem processReq_sat (h : HomeInv cfg v V cl (· ≠ r.address) x₀ x) (hv : cfg.home r.address = v)
    (hl : LineQuiet cfg r.address (V r.address) (cl r.address) (homeLine cfg x r.address none))
    (hq : x.home.reqQueue r.address = r :: q) (hr : (requestOf r).isSome) :
    Settles cfg v V cl x₀ r.address (r :: q) (processReq cfg rnd x r) := by
  obtain ⟨-, ph, hl, hquiet⟩ := hl
  unfold processReq
  split
  · next ht => exact processExReqFromL2Cache_sat hty h hv hl hquiet hq ht (by simp)
  · next ht => exact processShReqFromL2Cache_sat hty h hv hl hquiet hq ht (by simp)
  · next h1 h2 => exact absurd (type_of_requestOf hr) (not_or.mpr ⟨h1, h2⟩)

theorem processNextReqFromL2Cache_sat (hv : cfg.home a = v) {Q : List (ShmemMsg A N)} :
    ∀ {x : Tile A N}, HomeInv cfg v V cl (· ≠ a) x₀ x → x.home.reqQueue a = Q → Q ≠ [] →
      LineQuiet cfg a (V a) (cl a) { homeLine cfg x a none with queue := Q.tail } →
      Restores cfg v V cl x₀ (processNextReqFromL2Cache cfg rnd a Q x) := by
  induction Q with
  | nil => intro x _ _ hne; exact absurd rfl hne
  | cons r₀ Q ih =>
    intro x h hQ _ hl
    have hk : Keeps cfg v a x (dequeue x a) := keeps_dequeue h.sound
    have hl₁ : LineQuiet cfg a (V a) (cl a) (homeLine cfg (dequeue x a) a none) := by
      rw [homeLine_dequeue, hQ]; exact hl
    have h₁ := h.keeps hk (by simp)
    cases Q with
    | nil => exact h₁.all hl₁.ok
    | cons r Q =>
      have hQ₁ : (dequeue x a).home.reqQueue a = r :: Q := by
        simp [dequeue, hQ]
      obtain ⟨hrep, ph, hinv, -⟩ := hl
      obtain ⟨rfl, hr⟩ := hinv.requests r (by simp)
      have hr : (requestOf r).isSome :=
        hr.resolve_right fun hn => hrep (hinv.replaced.mpr ⟨r, Q, rfl, hn⟩)
      refine (processReq_sat hty h₁ hv hl₁ hQ₁ hr).bind ?_
      rintro ⟨x₂, done⟩ ⟨h₂, hq₂, hserved⟩
      dsimp only at h₂ hq₂ hserved ⊢
      cases done with
      | false => exact h₂.all (by simpa using hserved)
      | true => exact ih h₂ hq₂ (by simp) (by simpa using hserved)

theorem finish_sat {o : Except Fault (Tile A N × Bool)} (hv : cfg.home a = v)
    (h : Settles cfg v V cl x₀ a (r :: q) o) : Restores cfg v V cl x₀ (do finish cfg rnd a (← o)) := by
  refine h.bind ?_
  rintro ⟨x, done⟩ ⟨h, hq, hs⟩
  unfold finish
  dsimp only at h hq hs ⊢
  cases done with
  | false => exact h.all (by simpa using hs)
  | true =>
    rw [if_pos rfl, hq]
    exact processNextReqFromL2Cache_sat hty hv h hq (by simp) (by simpa using hs)

/-! ### Replies -/

section Reply

variable {cl₀ : Fin N → Client A N} {ms : List (ShmemMsg A N)} {sender : Fin N}

theorem nullify_sat (hv : cfg.home r.address = v) (h : HomeInv cfg v V cl (· ≠ r.address) x₀ x)
    (hl : LineInv cfg.directory r.address (V r.address) (cl r.address)
      (homeLine cfg x r.address none) ph) (hd : (homeLine cfg x r.address none).entry.dstate ≠ .modified)
    (hq : x.home.reqQueue r.address = r :: q) (hr : r.type = .nullifyReq) :
    Restores cfg v V cl x₀ (do finish cfg rnd r.address (← processNullifyReq cfg x r)) := by
  exact finish_sat hty hv ((processNullifyReq_sat hty h.sound hv hl (hl.quiet_of_dstate hd) hq hr).mono
    fun y hy => ⟨h.keeps hy.1 (by simp), hy.2⟩)

section

variable (hv : cfg.home m.address = v)
  (h : HomeInv cfg v V cl (· ≠ m.address) x₀ x)
  (hl : LineInv cfg.directory m.address (V m.address) cl₀ (homeLine cfg x m.address none) ph)
  (hup : (cl₀ sender).up = m :: ms)
  (hcl : cl m.address = update cl₀ sender { cl₀ sender with up := ms })
include hv h hl hup hcl

theorem processInvRepFromL2Cache_sat (hm : m.type = .invRep) :
    Restores cfg v V cl x₀ (processInvRepFromL2Cache cfg rnd x sender m) := by
  obtain ⟨hd, hmem, hpop⟩ := hl.popInvRep hup hm
  rw [← hcl] at hpop
  unfold processInvRepFromL2Cache
  refine getEntry_sat h.sound hv (present_of_dstate (by simp [hd])) fun d hk hline hpres => ?_
  rw [check_pos hd, ok_bind, sat_bind, sat_removeSharer]
  refine (hl.rep.removeSharer hmem).imp (fun _ => .inr) fun s hs => ?_
  -- the entry without the sender, and the line with it
  generalize he : (if s.getNumSharers = 0 then _ else _ : DirectoryEntry N) = e
  have hes : e.sharers = s := by rw [← he]; split <;> rfl
  have hed : e.dstate = if e.sharers.getNumSharers = 0 then .uncached else .shared := by
    rw [hes, ← he]
    split
    · rfl
    · exact hd
  have hne : e.dstate ≠ .modified := by rw [hed]; split <;> simp
  obtain ⟨hk₂, hline₂, -⟩ := setEntry_line (e := e) hk.sound hpres
  have hl₂ := hpop e (by rwa [hes]) hed
  rw [← hline none, ← hline₂ none] at hl₂
  have hd₂ := hline₂ none
  have h₂ := h.keeps (hk.trans hk₂) (by simp)
  dsimp only
  generalize setEntry cfg (withDirectory x d) m.address e = x₂ at hl₂ h₂ hd₂ ⊢
  replace hd₂ : (homeLine cfg x₂ m.address none).entry.dstate ≠ .modified := by rwa [hd₂]
  split
  · exact h₂.all ⟨_, hl₂⟩
  · next r q hq =>
    obtain ⟨ha, hreq⟩ := hl₂.requests r (by simp [hq])
    have hquiet := hl₂.quiet_of_dstate hd₂
    rw [← ha] at hl₂ h₂ hd₂ hv hq ⊢
    split
    · next hr =>
      split
      · exact finish_sat hty hv (processExReqFromL2Cache_sat hty h₂ hv hl₂ hquiet hq hr (by simp))
      · exact h₂.all ⟨_, hl₂⟩
    · next hr =>
      exact finish_sat hty hv (processShReqFromL2Cache_sat hty h₂ hv hl₂ hquiet hq hr (by simp))
    · next hr₁ hr₂ =>
      have hr : r.type = .nullifyReq :=
        hreq.resolve_left fun h => (type_of_requestOf h).elim hr₁ hr₂
      split
      · exact nullify_sat hty hv h₂ hl₂ hd₂ hq hr
      · exact h₂.all ⟨_, hl₂⟩

theorem processFlushRepFromL2Cache_sat (hm : m.type = .flushRep) :
    Restores cfg v V cl x₀ (processFlushRepFromL2Cache cfg rnd x sender m) := by
  obtain ⟨hd, hmem, hdat, hdram, hpop⟩ := hl.popFlushRep hup hm
  rw [← hcl] at hpop
  unfold processFlushRepFromL2Cache
  refine getEntry_sat h.sound hv (present_of_dstate (by simp [hd])) fun d hk hline hpres => ?_
  rw [check_pos hd, ok_bind, sat_bind, sat_removeSharer]
  refine (hl.rep.removeSharer (t := sender) (by simp [hmem])).imp (fun _ => .inr) fun s hs => ?_
  rw [hmem, Finset.erase_singleton] at hs
  rw [sat_bind, sat_setOwner]
  refine ⟨fun _ => ?_, fun hno => absurd (by simp) hno⟩
  obtain ⟨hk₂, hline₂, -⟩ := setEntry_line (e := ⟨.uncached, none, s⟩) hk.sound hpres
  dsimp only
  generalize setEntry cfg (withDirectory x d) m.address ⟨.uncached, none, s⟩ = x₂ at hk₂ hline₂ ⊢
  have hl₂ : LineInv cfg.directory m.address (V m.address) (cl m.address)
      (homeLine cfg x₂ m.address (some (V m.address))) fun _ => .out := by
    rw [hline₂, hline]; exact hpop ⟨.uncached, none, s⟩ hs rfl
  have hdram₂ : (homeLine cfg x₂ m.address none).dram.isSome := by rwa [hline₂, hline]
  have hd₂ : (homeLine cfg x₂ m.address none).entry.dstate = .uncached := by rw [hline₂]
  have h₂ := h.keeps (hk.trans hk₂) (by simp)
  -- the line once the data is in the DRAM
  have h₃ := h₂.keeps (keeps_setDram (a := m.address) (d := some (V m.address)) h₂.sound) (by simp)
  have hd₃ : (homeLine cfg (setDram x₂ m.address (some (V m.address))) m.address none).entry.dstate =
      .uncached := by rw [homeLine_setDram]; exact hd₂
  have hl₃ : ∀ c, (c = none ∨ c = some (V m.address)) → LineInv cfg.directory m.address (V m.address)
      (cl m.address) (homeLine cfg (setDram x₂ m.address (some (V m.address))) m.address c)
      fun _ => .out := by
    intro c hc
    rw [homeLine_setDram]
    exact hl₂.setData (fun _ => by rcases hc with rfl | rfl <;> rfl) fun _ => rfl
  rw [hdat]
  split
  · rw [putDataToDram_eq hdram₂]
    exact h₃.all ⟨_, hl₃ none (.inl rfl)⟩
  · next r q hq =>
    obtain ⟨ha, hreq⟩ := hl₂.requests r (by simp [hq])
    have hquiet : ∀ t : Fin N, ((fun _ => Phase.out) t).isQuiet := fun _ => rfl
    rw [← ha] at hl₂ h₂ hd₂ hv hq hl₃ h₃ hd₃ hdram₂ ⊢
    split
    · next hr =>
      exact finish_sat hty hv (processExReqFromL2Cache_sat hty h₂ hv hl₂ hquiet hq hr fun _ => hd₂)
    · next hr =>
      rw [putDataToDram_eq hdram₂, ok_bind]
      exact finish_sat hty hv (processShReqFromL2Cache_sat hty h₃ hv (hl₃ _ (.inr rfl)) hquiet hq hr
        fun _ => ⟨by simp [hd₃], by simp [setDram]⟩)
    · next hr₁ hr₂ =>
      have hr : r.type = .nullifyReq :=
        hreq.resolve_left fun h => (type_of_requestOf h).elim hr₁ hr₂
      rw [putDataToDram_eq hdram₂, ok_bind]
      exact nullify_sat hty hv h₃ (hl₃ none (.inl rfl)) (by simp [hd₃]) hq hr

theorem processWbRepFromL2Cache_sat (hm : m.type = .wbRep) :
    Restores cfg v V cl x₀ (processWbRepFromL2Cache cfg rnd x sender m) := by
  obtain ⟨hd, hfit, hdat, ⟨r, q, hq, hr⟩, hdram, hpop⟩ := hl.popWbRep hup hm
  rw [← hcl] at hpop
  have ha := (hl.requests r (by rw [hq]; simp)).1
  unfold processWbRepFromL2Cache
  refine getEntry_sat h.sound hv (present_of_dstate (by simp [hd])) fun d hk hline hpres => ?_
  rw [check_pos hd, ok_bind]
  refine sat_check_bind (fun _ => ?_) fun hno => .inr fun hf => hno (hfit hf)
  rw [sat_bind, sat_setOwner]
  refine ⟨fun _ => ?_, fun hno => absurd (by simp) hno⟩
  dsimp only
  rw [show (setEntry cfg (withDirectory x d) m.address _).home.reqQueue m.address = r :: q from hq]
  dsimp only
  rw [hdat, putDataToDram_eq (by exact hdram), ok_bind, check_pos hr, ok_bind]
  generalize he : (⟨.shared, none, (homeLine cfg x m.address none).entry.sharers⟩ : DirectoryEntry N) = e
  obtain ⟨hk₂, hline₂, -⟩ := setEntry_line (e := e) hk.sound hpres
  obtain ⟨ph', hl₂⟩ := hpop e (by rw [← he]) (by rw [← he])
  have hline₃ : ∀ c, homeLine cfg (setDram (setEntry cfg (withDirectory x d) m.address e) m.address
      (some (V m.address))) m.address c = { homeLine cfg x m.address none with
        entry := e, cached := c, dram := some (V m.address) } := by
    intro c
    rw [homeLine_setDram, hline₂, hline]
    rfl
  have h₃ := (h.keeps (hk.trans hk₂) (by simp)).keeps
    (keeps_setDram (a := m.address) (d := some (V m.address)) hk₂.sound) (by simp)
  generalize setDram (setEntry cfg (withDirectory x d) m.address e) m.address
    (some (V m.address)) = x₃ at h₃ hline₃ ⊢
  have hl₃ : LineInv cfg.directory m.address (V m.address) (cl m.address)
      (homeLine cfg x₃ m.address (some (V m.address))) ph' := by
    rw [hline₃]; exact hl₂.setData (fun _ => rfl) fun _ => rfl
  have hd₃ : (homeLine cfg x₃ m.address none).entry.dstate ≠ .modified := by simp [hline₃, ← he]
  have hq₃ : x₃.home.reqQueue m.address = r :: q := (congrArg HomeLine.queue (hline₃ none)).trans hq
  have hdr₃ : x₃.home.dram m.address = some (V m.address) := congrArg HomeLine.dram (hline₃ none)
  rw [← ha] at hl₃ h₃ hd₃ hv hq₃ hdr₃ ⊢
  exact finish_sat hty hv (processShReqFromL2Cache_sat hty h₃ hv hl₃ (hl₃.quiet_of_dstate hd₃) hq₃ hr
    fun _ => ⟨hd₃, hdr₃⟩)

theorem queueReq_sat (hm : (requestOf m).isSome) : Restores cfg v V cl x₀ (queueReq cfg rnd x m) := by
  obtain ⟨k, hk⟩ := isSome_iff_exists.mp hm
  have hdat : m.dataBuf = none := by
    rcases (hl.port sender).upOk m (by simp [hup]) with ⟨-, -, hd⟩ | hr
    · exact hd
    · simp [requestOf_eq_none_of_reply hr] at hk
  rw [queueReq, check_pos (by simp [hdat]), ok_bind]
  have hl₁ := hl.popRequest hup hk rfl
  rw [← hcl, homeLine_queue, ← homeLine_enqueue] at hl₁
  have h₁ := h.keeps (keeps_enqueue (a := m.address) (r := m) h.sound) (by simp)
  dsimp only
  split
  · next hlen =>
    have hq : x.home.reqQueue m.address = [] := by simpa [enqueue] using hlen
    have hq₁ : (enqueue x m.address m).home.reqQueue m.address = [m] := by
      simp [enqueue, hq]
    have hnr : ¬ (homeLine cfg (enqueue x m.address m) m.address none).replaced :=
      hl₁.not_replaced hq₁ hk
    exact finish_sat hty hv (processReq_sat hty h₁ hv ⟨hnr, ph, hl₁, hl.quiet_of_idle hq⟩ hq₁ hm)
  · exact h₁.all ⟨ph, hl₁⟩

/-- The directory controller of tile `v` handles the first message of tile `sender` about a line. -/
theorem handleMsgFromL2Cache_sat : Restores cfg v V cl x₀ (handleMsgFromL2Cache cfg rnd x sender m) := by
  have hok := (hl.port sender).upOk m (by simp [hup])
  unfold handleMsgFromL2Cache
  split
  · next ht => exact queueReq_sat hty hv h hl hup hcl (by simp [requestOf, ht])
  · next ht => exact queueReq_sat hty hv h hl hup hcl (by simp [requestOf, ht])
  · next ht => exact processInvRepFromL2Cache_sat hty hv h hl hup hcl ht
  · next ht => exact processFlushRepFromL2Cache_sat hty hv h hl hup hcl ht
  · next ht => exact processWbRepFromL2Cache_sat hty hv h hl hup hcl ht
  · next h1 h2 h3 h4 h5 =>
    unfold requestOf replyOf at hok
    cases ht : m.type <;> simp_all

end

end Reply

end

end Specs

end Graphite.Msi
