import Graphite.PrL2.Machine
import Graphite.Msi.Client

/-! # Safety of MSI

The controllers of the protocol meet the rules of `PrL2.Machine`, so the line invariant holds along
every run: a MODIFIED line has no other copy, no assertion fails, and all data are those of the latest
store.
-/

namespace Graphite.Msi

open Outcome SetAssoc PrL2 PrL2.Directory DirectoryCache

variable {A : Type} [DecidableEq A] {N : ℕ}

def view (cfg : Config A N) : View A N (Home A N) (HomeLine A N (ShmemMsg A N)) where
  home h down a := ⟨(entry cfg.directory h.directory a).getD (newEntry cfg.directory N),
    a ∈ h.directory.replaced.map Prod.fst, h.reqQueue a, none, h.dram a, down⟩
  Ok := LineOk cfg
  Sound := DirSound cfg
  Exact := True

def contents (cfg : Config A N) (dram : Fin N → A → Option LineData) (a : A) : LineData :=
  (dram (cfg.home a) a).getD zeroLine

variable {cfg : Config A N} {dram : Fin N → A → Option LineData} {tr : List (Event A N)}
  {s : State A N (Home A N)} {t u : Fin N} {a : A}

theorem handle_request {route : Route A} {acc : Access A} {ch : Choice} {x : Tile A N}
    (hiss : Issued cfg route acc) : handle cfg t t ch (request cfg t acc) x =
      L2.handleMsgFromL1Cache cfg t (request cfg t acc) x := by
  have hc := hiss.2.1
  rcases route.isL1 acc.address with h | h <;> rw [h] at hc <;>
    simp only [handle, request, hc, check, if_true, ok_bind]

section

variable (hty : cfg.directory.type ≠ .limitedBroadcast)
include hty

theorem rules (via : Fin N → Route A) :
    Rules .msi cfg via (handle cfg) (Allowed cfg) (view cfg) where
  copies := by
    rintro a V cl h t st d ⟨ph, hl⟩ hc
    obtain ⟨rfl, hst⟩ := hl.copy_eq hc
    exact ⟨fun _ => rfl, by rcases hst with rfl | rfl <;> simp⟩
  store := by
    rintro a V cl h t d ⟨ph, hl⟩ hc V' d' hd
    obtain rfl := hd trivial
    exact ⟨ph, hl.store hc⟩
  sound hs hh := hs.congr (by rw [hh])
  fromL1 {t} ch {acc} x V cl hl hiss happ hc hrouted hl1 hout hlack hgone hlines hcl := by
    rw [handle_request hiss]
    exact handleMsgFromL1Cache_sat hlines hcl hiss happ (hc.mono fun _ => And.right) hrouted hl1 hout
      hlack (hgone rfl)
  fromDirectory {t ch m x} V cl hl {h down ms} htile hopen hch hr hs hlines hcl hhl hdown := by
    simp only [handle, hr, hs]
    have hdown' : (hl m.address).down t = m :: ms := by rw [hhl]; exact hdown
    have := handleMsgFromDramDirectory_sat (E := Allowed cfg) hlines hcl htile hopen hdown' rfl hch
    rw [readDown, hhl] at this
    exact this
  toDirectory {v src ch m x} V cl cl₀ {ms} hv hr hs hsound hlines hline hup hcl := by
    simp only [handle, hr, hs]
    obtain ⟨ph, hl⟩ := hline
    refine (handleMsgFromL2Cache_sat hty hv ⟨.refl, hsound, hlines⟩ hl hup hcl).mono ?_
    exact fun x' hx => ⟨hx.client, hx.sound, fun b hb => hx.lines b hb trivial⟩

theorem init_coherent (via : Fin N → Route A) (hs : (system cfg dram).init s) :
    RunInv .msi cfg via (view cfg) (contents cfg dram) [] s := by
  refine ⟨.init hs ?_ ?_, by simp [LoadsLatest]⟩
  · rintro a h rfl
    have hline : LineInv cfg.directory a (contents cfg dram a) (fun _ => ⟨none, none, []⟩)
        ((view cfg).home ⟨.empty, fun _ => [], dram (cfg.home a), ()⟩ (fun _ => []) a) fun _ => .out :=
      LineInv.start (by simp [newEntry, DirectoryEntry.create])
        (by simpa [newEntry, DirectoryEntry.create] using Sharers.rep_create hty) (by simp [DirectoryCache.empty])
    exact ⟨_, hline⟩
  · intro t ht
    constructor
    · rw [ht]; exact wellFormed_empty
    · intro b hb
      simp [ht, entry, DirectoryCache.empty] at hb

theorem run_through {via : Fin N → Route A} (h : (system cfg dram).Run (Through via) tr s) :
    RunInv .msi cfg via (view cfg) (contents cfg dram) tr s :=
  h.invariant (fun _ => init_coherent hty _) fun _ _ _ hi hd he => hi.step (rules hty _) hd he

theorem run_coherent (h : (system cfg dram).Run DataOnly tr s) :
    RunInv .msi cfg (fun _ => .data) (view cfg) (contents cfg dram) tr s :=
  run_through hty (.mono (fun _ => through_data) h)

end

instance (s : State A N (Home A N)) : DecidablePred ((system cfg dram).enabled s) :=
  inferInstanceAs (DecidablePred (enabled cfg s))

theorem run_start (cfg : Config A N) (dram : Fin N → A → Option LineData) :
    (system cfg dram).Run DataOnly [] (initial fun t => ⟨.empty, fun _ => [], dram t, ()⟩) :=
  .start fun _ => ⟨rfl, rfl, rfl, rfl, rfl, rfl, rfl⟩

/-! ### One writer -/

theorem cstate_eq (x : Tile A N) (h : (L2.getInfo cfg t x a).cstate = .modified) :
    ∃ d, copy cfg t x a = some (.modified, d) :=
  PrL2.cstate_eq x (by simp) h

/-- While a line is MODIFIED in the L2 of one tile, no other L2 holds it. -/
theorem modified_exclusive (hty : cfg.directory.type ≠ .limitedBroadcast)
    (h : (system cfg dram).Run DataOnly tr s) (htu : u ≠ t)
    (hm : (L2.getInfo cfg t (s t) a).cstate = .modified) :
    (L2.getInfo cfg u (s u) a).cstate = .invalid := by
  obtain ⟨d, hd⟩ := cstate_eq (s t) hm
  obtain ⟨ph, hl⟩ := (run_coherent hty h).coherent.lines a
  have hno : copy cfg u (s u) a = none := hl.unique_of_modified hd htu
  rw [getInfo_of_none (copy_eq_none.mp hno)]
  rfl

theorem modified_exclusive_after_store : ∃ tr s,
    (system (oneLine 1 .fullMap) fun _ _ => none).Run DataOnly tr s ∧
      (L2.getInfo (oneLine 1 .fullMap) 1 (s 1) ()).cstate = .modified ∧
      (L2.getInfo (oneLine 1 .fullMap) 0 (s 0) ()).cstate = .invalid :=
  (run_start _ _).of_reaches_imp
    (Q := fun _ s => (L2.getInfo (oneLine 1 .fullMap) 1 (s 1) ()).cstate = .modified)
    [store 1 7, msg 1 1, msg 1 0, msg 0 1] fun _ _ h hm =>
      ⟨hm, modified_exclusive (by decide) h (by decide) hm⟩

/-! ### Assertions -/

theorem entry_of_dstate {x : Tile A N} {k : DirectoryState} (hk : k ≠ .uncached)
    (h : (homeLine cfg x a none).entry.dstate = k) :
    ∃ e, entry cfg.directory x.home.directory a = some e ∧ (homeLine cfg x a none).entry = e := by
  cases he : entry cfg.directory x.home.directory a with
  | some e => exact ⟨e, rfl, by simp [homeLine, he]⟩
  | none =>
    rw [homeLine, he] at h
    exact absurd h.symm hk

/-- No assertion or error branch is reached if the directory scheme fits the machine, save that a set of
the directory may have no entry to replace. A reply meets the directory state it belongs to. -/
theorem assertions_hold (hty : cfg.directory.type ≠ .limitedBroadcast)
    (hfit : cfg.directory.type.Fits cfg.directory.maxHwSharers N) :
    (∀ e, (system cfg dram).Fails DataOnly e → e = .noReplacementCandidate) ∧
    ∀ tr s, (system cfg dram).Run DataOnly tr s → ∀ src m ms,
      (s src).out (cfg.home m.address) = m :: ms → m.receiverComponent = .dramDirectory →
      (m.type = .invRep → ∃ e, entry cfg.directory (s (cfg.home m.address)).home.directory m.address =
        some e ∧ e.dstate = .shared) ∧
      (m.type = .flushRep ∨ m.type = .wbRep →
        ∃ e, entry cfg.directory (s (cfg.home m.address)).home.directory m.address = some e ∧
          e.dstate = .modified ∧ e.owner = some src) := by
  constructor
  · intro e he
    have : Allowed cfg e := he.allowed (fun _ => init_coherent hty fun _ => .data)
      fun _ _ _ hi hd hen => hi.step (rules hty _) (through_data hd) hen
    exact this.resolve_right fun h => h hfit
  · intro tr s h src m ms hm hr
    obtain ⟨ph, hl⟩ := (run_coherent hty h).coherent.lines m.address
    have hup : (client cfg src (s src) m.address).up = _ := (up_pop hm hr rfl).1
    constructor
    · intro hty
      have hd := (hl.popInvRep hup hty).1
      obtain ⟨e, he, heq⟩ := entry_of_dstate (by simp) hd
      exact ⟨e, he, heq ▸ hd⟩
    · intro hty
      have hown : (ph src).isOwner := by
        have hrep := replyOf_eq (m := m) (by rcases hty with h | h <;> simp [h])
        rcases (hl.port src).popReply hup hrep with
          ⟨hk, -⟩ | ⟨-, -, hp, -⟩ | ⟨-, -, p, ⟨hp, -⟩ | ⟨hp, -⟩, -⟩
        · rcases hty with h | h <;> simp [h] at hk
        all_goals rw [hp]; rfl
      obtain ⟨hd, ho, -⟩ := hl.dstate_of_phase.2 hown
      obtain ⟨e, he, heq⟩ := entry_of_dstate (by simp) hd
      exact ⟨e, he, heq ▸ hd, heq ▸ ho⟩

theorem assertions_hold_ackwise : DirectoryType.ackwise.Fits 1 2 ∧
    ¬ (system (oneLine 1 .ackwise) fun _ _ => none).Fails DataOnly .invRepState := by
  have hfit : DirectoryType.ackwise.Fits 1 2 := by simp [DirectoryType.Fits]
  refine ⟨hfit, fun h => ?_⟩
  exact absurd ((assertions_hold (by decide) hfit).1 _ h) (by decide)

/-- Tile 32768 stores to the line. The cast to 16 bits loses its number, so the directory does not find
the tile it has just recorded when it makes it the owner. -/
theorem wide_store_fails :
    (system (oneLine 32768 .ackwise) fun _ _ => none).Fails DataOnly .ownerNotSharer := by
  exact .of_stops (run_start _ _) [store 32768 0, msg 32768 32768, msg 32768 0]

/-! ### Data -/

/-- A message of one of these types for line `a` is in flight. -/
def InFlight (s : State A N (Home A N)) (ks : List MsgType) (a : A) : Prop :=
  ∃ src dst, ∃ m ∈ (s src).out dst, m.address = a ∧ m.type ∈ ks

/-- Copies, loads and, when no newer data are elsewhere, DRAM have the contents after the latest
store. -/
theorem data_latest (hty : cfg.directory.type ≠ .limitedBroadcast)
    (h : (system cfg dram).Run DataOnly tr s) :
    (∀ t a st d, copy cfg t (s t) a = some (st, d) → d = latest (contents cfg dram) tr a) ∧
    (∀ t a l, get (cfg.l1d t) (s t).l1d a = some l → l.data = latest (contents cfg dram) tr a) ∧
    LoadsLatest (contents cfg dram) tr ∧
    ∀ a, (∀ t, (L2.getInfo cfg t (s t) a).cstate ≠ .modified) →
      ¬ InFlight s [.exRep, .flushRep, .wbRep] a →
      getDataFromDram (s (cfg.home a)) a = latest (contents cfg dram) tr a := by
  obtain ⟨hco, hloads⟩ := run_coherent hty h
  have hcopy : ∀ t a st d, copy cfg t (s t) a = some (st, d) → d = latest (contents cfg dram) tr a := by
    intro t a st d hc
    obtain ⟨ph, hl⟩ := hco.lines a
    exact (hl.copy_eq hc).1
  refine ⟨hcopy, fun t a l hl => ?_, hloads trivial, fun a hno hfree => ?_⟩
  · exact hcopy t a _ _ (copy_of_get ((hco.tiles t).cache.incl hl))
  · obtain ⟨ph, hl⟩ := hco.lines a
    have hmod := hl.not_modified (fun t d hc => hno t ?_) (fun t m hm he => hfree ?_) fun t m hm => ?_
    · exact hl.data hmod
    · obtain ⟨loc, hget⟩ := get_of_copy hc
      rw [getInfo_of_get hget]
    · obtain ⟨hm, hf⟩ := List.mem_filter.mp hm
      exact ⟨cfg.home a, t, m, hm, (isFromDirectory_iff.mp hf).2.2, by simp [he]⟩
    · obtain ⟨hm, hf⟩ := List.mem_filter.mp hm
      constructor <;> intro he <;>
        exact hfree ⟨t, cfg.home a, m, hm, (isToDirectory_iff.mp hf).2, by simp [he]⟩

/-- Tile 0 loads what tile 1 has stored. -/
theorem data_latest_load : ∃ tr s, (system (oneLine 1 .fullMap) fun _ _ => none).Run DataOnly tr s ∧
    tr.length = 2 ∧ LoadsLatest (contents (oneLine 1 .fullMap) fun _ _ => none) tr :=
  (run_start _ _).of_reaches_imp (Q := fun tr _ => tr.length = 2)
    [store 1 7, msg 1 1, msg 1 0, msg 0 1, retry 1, load 0, msg 0 0, msg 0 0, msg 0 1, msg 1 0,
      msg 0 0, retry 0] fun _ _ h hq => ⟨hq, (data_latest (by decide) h).2.2.1⟩

end Graphite.Msi
