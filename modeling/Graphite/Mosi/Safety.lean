import Graphite.PrL2.Machine
import Graphite.Mosi.Client

/-! # Safety of MOSI

The controllers of the protocol meet the rules of `PrL2.Machine`, so the line invariant holds along
every run. A line has at most one owner and a MODIFIED line no other copy; and, if the directory scheme
fits the machine, no assertion fails and all data are those of the latest store.
-/

namespace Graphite.Mosi

open Outcome SetAssoc PrL2 PrL2.Directory DirectoryCache Option

variable {A : Type} [DecidableEq A] {N : ℕ}

def view (cfg : Config A N) : View A N (Home A N) (HomeLine A N (ShmemReq A N)) where
  home h down a := ⟨(entry cfg.directory h.directory a).getD (newEntry cfg.directory N),
    a ∈ h.directory.replaced.map Prod.fst, h.reqQueue a, h.dataList.lookup a, h.dram a, down⟩
  Ok := LineOk cfg
  Sound := DirSound cfg
  Exact := cfg.directory.type.Fits cfg.directory.maxHwSharers N

def contents (cfg : Config A N) (dram : Fin N → A → Option LineData) (a : A) : LineData :=
  (dram (cfg.home a) a).getD zeroLine

variable {cfg : Config A N} {dram : Fin N → A → Option LineData} {tr : List (Event A N)}
  {s : State A N (Home A N)} {t u : Fin N} {a : A}

theorem handle_request {route : Route A} {acc : Access A} {ch : Choice} {x : Tile A N}
    (hiss : Issued cfg route acc) : handle cfg t t ch (request cfg t acc) x =
      L2.handleMsgFromL1Cache cfg t (request cfg t acc) x := by
  have hc := hiss.2.1
  rcases route.isL1 acc.address with h | h <;> rw [h] at hc <;>
    simp only [handle, request, hc, check, if_true, ok_bind]

theorem rules (cfg : Config A N) (via : Fin N → Route A) :
    Rules .mosi cfg via (handle cfg) (Allowed cfg) (view cfg) where
  copies := by
    rintro a V cl h t st d ⟨-, ph, R, hl⟩ hc
    obtain ⟨hd, hst⟩ := hl.copy_eq hc
    exact ⟨hd, by rcases hst with rfl | rfl | rfl <;> simp⟩
  store := by
    rintro a V cl h t d ⟨hw, ph, R, hl⟩ hc V' d' hd
    exact ⟨hw, ph, R, hl.store hc hd⟩
  sound hs hh := hs.congr (by rw [hh])
  fromL1 {t} ch {acc} x V cl hl hiss happ hc hrouted hl1 hout hlack hgone hlines hcl := by
    rw [handle_request hiss]
    exact handleMsgFromL1Cache_sat hlines hcl hiss happ (hc.mono fun _ h => nomatch h.1) hrouted hl1
      hout hlack
  fromDirectory {t ch m x} V cl hl {h down ms} htile hopen hch hr hs hlines hcl hhl hdown := by
    simp only [handle, hr, hs]
    have hdown' : (hl m.address).down t = m :: ms := by rw [hhl]; exact hdown
    have := handleMsgFromDramDirectory_sat hlines hcl htile hopen hdown' rfl hch
    rw [readDown, hhl] at this
    exact this
  toDirectory {v src ch m x} V cl cl₀ {ms} hv hr hs hsound hlines hline hup hcl := by
    simp only [handle, hr, hs]
    refine (handleMsgFromL2Cache_sat hv ⟨.refl, hsound, hlines⟩ hline hup hcl).mono ?_
    exact fun x' hx => ⟨hx.client, hx.sound, fun b hb => hx.lines b hb trivial⟩

theorem init_coherent (via : Fin N → Route A) (hs : (system cfg dram).init s) :
    RunInv .mosi cfg via (view cfg) (contents cfg dram) [] s := by
  refine ⟨.init hs ?_ ?_, fun _ => by simp [LoadsLatest]⟩
  · rintro a h rfl
    have he : entry cfg.directory (.empty : DirectoryCache A N) a = none := by
      simp [entry, DirectoryCache.empty]
    have hline : LineInv cfg.directory a (Good cfg (contents cfg dram a)) (fun _ => ⟨none, none, []⟩)
        ⟨newEntry cfg.directory N, a ∈ ([] : List (A × DirectoryEntry N)).map Prod.fst, [], none, dram (cfg.home a) a, fun _ => []⟩ (fun _ => .none)
        (fun _ => .out) ∅ :=
      LineInv.start rfl rfl Sharers.broadcasts_create Sharers.covers_create (by simp) fun _ => rfl
    refine ⟨by simp [Waiting, view], fun _ => .out, ∅, ?_⟩
    simp only [view, he, msgs, getD_none]
    exact hline
  · intro t ht
    constructor
    · rw [ht]; exact wellFormed_empty
    · intro b hb
      simp [ht, entry, DirectoryCache.empty] at hb

theorem run_through {via : Fin N → Route A} (h : (system cfg dram).Run (Through via) tr s) :
    RunInv .mosi cfg via (view cfg) (contents cfg dram) tr s :=
  h.invariant (fun _ => init_coherent _) fun _ _ _ hi hd he => hi.step (rules cfg _) hd he

theorem run_coherent (h : (system cfg dram).Run DataOnly tr s) :
    RunInv .mosi cfg (fun _ => .data) (view cfg) (contents cfg dram) tr s :=
  run_through (.mono (fun _ => through_data) h)

instance (s : State A N (Home A N)) : DecidablePred ((system cfg dram).enabled s) :=
  inferInstanceAs (DecidablePred (enabled cfg s))

theorem run_start (cfg : Config A N) (dram : Fin N → A → Option LineData) :
    (system cfg dram).Run DataOnly [] (initial fun t => ⟨.empty, fun _ => [], dram t, .empty⟩) :=
  .start fun _ => ⟨rfl, rfl, rfl, rfl, rfl, rfl, rfl⟩

/-! ### One owner -/

/-- At most one L2 holds a line MODIFIED or OWNED, and while one holds it MODIFIED no other has it. -/
theorem one_owner (h : (system cfg dram).Run DataOnly tr s) (htu : u ≠ t)
    (ht : (L2.getInfo cfg t (s t) a).cstate = .modified ∨ (L2.getInfo cfg t (s t) a).cstate = .owned) :
    (L2.getInfo cfg u (s u) a).cstate ≠ .modified ∧ (L2.getInfo cfg u (s u) a).cstate ≠ .owned ∧
      ((L2.getInfo cfg t (s t) a).cstate = .modified →
        (L2.getInfo cfg u (s u) a).cstate = .invalid) := by
  obtain ⟨-, ph, R, hl⟩ := (run_coherent h).coherent.lines a
  have hmod : ∀ {t u : Fin N}, u ≠ t → (L2.getInfo cfg t (s t) a).cstate = .modified →
      (L2.getInfo cfg u (s u) a).cstate = .invalid := by
    intro t u htu hm
    obtain ⟨d, hd⟩ := cstate_eq (s t) (by simp) hm
    have hno : copy cfg u (s u) a = none := hl.unique_of_modified hd htu
    rw [getInfo_of_none (copy_eq_none.mp hno)]
    rfl
  refine ⟨fun hm => ?_, fun ho => ?_, hmod htu⟩
  · rw [hmod htu.symm hm] at ht
    simp at ht
  · rcases ht with hm | ho'
    · simp [hmod htu hm] at ho
    · obtain ⟨d, hd⟩ := cstate_eq (s t) (by simp) ho'
      obtain ⟨d', hd'⟩ := cstate_eq (s u) (by simp) ho
      cases hl.shared_of_owned hd htu hd'

/-- Tile 1 stores, then tile 0 loads: tile 1 stays the owner. -/
def storeThenLoad : List (Action Unit 2) :=
  [store 1 7, msg 1 1, msg 1 0, msg 0 1, retry 1, load 0, msg 0 0, msg 0 0, msg 0 1, msg 1 0, msg 0 0,
    retry 0]

theorem one_owner_after_load : ∃ tr s,
    (system (oneLine 1 .limitedBroadcast) fun _ _ => none).Run DataOnly tr s ∧
      (L2.getInfo (oneLine 1 .limitedBroadcast) 1 (s 1) ()).cstate = .owned ∧
      (L2.getInfo (oneLine 1 .limitedBroadcast) 0 (s 0) ()).cstate ≠ .owned :=
  (run_start _ _).of_reaches_imp
    (Q := fun _ s => (L2.getInfo (oneLine 1 .limitedBroadcast) 1 (s 1) ()).cstate = .owned)
    storeThenLoad fun _ _ h ho => ⟨ho, (one_owner h (by decide) (.inr ho)).2.1⟩

/-! ### Assertions -/

theorem entry_of_dstate {x : Tile A N} (h : (line cfg x a).entry.dstate ≠ .uncached) :
    entry cfg.directory x.home.directory a = some (line cfg x a).entry := by
  cases he : entry cfg.directory x.home.directory a with
  | some e => simp [line, homeLine, he]
  | none => simp [line, homeLine, he, newEntry, DirectoryEntry.create] at h

/-- No assertion or error branch is reached if the directory scheme fits the machine, save that a set of
the directory may have no entry to replace and that the data list may be full. -/
theorem no_assertion_fails (hfit : cfg.directory.type.Fits cfg.directory.maxHwSharers N) :
    (∀ e, (system cfg dram).Fails DataOnly e → e = .noReplacementCandidate ∨ e = .dataListFull) ∧
    ∀ tr s, (system cfg dram).Run DataOnly tr s → ∀ src dst m ms, (s src).out dst = m :: ms →
      (m.receiverComponent = .dramDirectory → replyOf m ≠ none →
        ∃ e, entry cfg.directory (s dst).home.directory m.address = some e ∧ Accepts e src m.type) ∧
      (m.receiverComponent = .l2Cache → m.type = .upgradeRep →
        (L2.getInfo cfg dst (s dst) m.address).cstate = .shared ∨
          (L2.getInfo cfg dst (s dst) m.address).cstate = .owned) := by
  constructor
  · intro e he
    have : Allowed cfg e := he.allowed (fun _ => init_coherent fun _ => .data)
      fun _ _ _ hi hd hen => hi.step (rules cfg _) (through_data hd) hen
    rcases this with h | h | h
    · exact .inl h
    · exact .inr h
    · exact absurd hfit h
  · intro tr s h src dst m ms hm
    have hco := (run_coherent h).coherent
    obtain ⟨hw, ph, R, hl⟩ := hco.lines m.address
    rcases (hco.tiles src).routed dst m (by simp [hm]) with ⟨hr, hsc, rfl⟩ | ⟨hr, hsc, rfl⟩ | ⟨hl1, rfl⟩
    · refine ⟨fun _ hrep => ?_, fun hr' => by simp [hr] at hr'⟩
      obtain ⟨⟨k, b⟩, hk⟩ := ne_none_iff_exists'.mp hrep
      have hup : (client cfg src (s src) m.address).up = _ := (up_pop hm hr rfl).1
      obtain ⟨hR, -, p, hans, -⟩ := hl.popReply hup hk
      have hne := hans.not_uncached hl.agrees hl.covers hR
      refine ⟨_, entry_of_dstate hne, ?_⟩
      rw [← type_of_replyOf hk]
      exact hans.accepts hl.agrees hl.covers hR hfit
    · refine ⟨fun hr' => by simp [hr] at hr', fun _ hup => ?_⟩
      have hport := hl.port dst
      rw [show (msgs ((view cfg).at (s (cfg.home m.address)) m.address)).down dst = m :: _ from
        (down_pop hm hr hsc).1] at hport
      obtain ⟨-, ⟨hdoom, -⟩ | ⟨st, d, hcopy, hst, -⟩⟩ := hport.receiveUpgrade hup
      · exact absurd hfit (hl.not_fits_of_doomed hdoom)
      · obtain ⟨loc, hget⟩ := get_of_copy hcopy
        rw [getInfo_of_get hget]
        exact hst
    · refine ⟨fun hr' => ?_, fun _ hup => ?_⟩
      · simp [(isFromL1_iff.mp hl1).1] at hr'
      · have hup : (s src).fromL1 src = m :: _ := fromL1_pop_self hm hl1
        obtain ⟨acc, -, -, rfl, -⟩ := (hco.tiles src).of_fromL1 hup
        cases hop : acc.op <;> simp_all [request, L1.getShmemMsgType]

theorem no_assertion_fails_ackwise : DirectoryType.ackwise.Fits 1 2 ∧
    ¬ (system (oneLine 1 .ackwise) fun _ _ => none).Fails DataOnly .upgradeState := by
  have hfit : DirectoryType.ackwise.Fits 1 2 := by simp [DirectoryType.Fits]
  refine ⟨hfit, fun h => ?_⟩
  exact absurd ((no_assertion_fails hfit).1 _ h) (by decide)

/-- Tile 32768 stores to the line. The cast to 16 bits loses its number, so the directory does not find
the tile it has just recorded when it makes it the owner. -/
theorem wide_write_fails :
    (system (oneLine 32768 .ackwise) fun _ _ => none).Fails DataOnly .ownerNotSharer := by
  exact .of_stops (run_start _ _) [store 32768 0, msg 32768 32768, msg 32768 0]

/-! ### Data -/

/-- Copies and loads have the contents after the latest store if the directory scheme fits the
machine. -/
theorem copies_latest (hfit : cfg.directory.type.Fits cfg.directory.maxHwSharers N)
    (h : (system cfg dram).Run DataOnly tr s) :
    (∀ t a st d, copy cfg t (s t) a = some (st, d) → d = latest (contents cfg dram) tr a) ∧
    (∀ t a l, get (cfg.l1d t) (s t).l1d a = some l → l.data = latest (contents cfg dram) tr a) ∧
    LoadsLatest (contents cfg dram) tr := by
  obtain ⟨hco, hloads⟩ := run_coherent h
  have hcopy : ∀ t a st d, copy cfg t (s t) a = some (st, d) → d = latest (contents cfg dram) tr a := by
    intro t a st d hc
    obtain ⟨-, ph, R, hl⟩ := hco.lines a
    exact (hl.copy_eq hc).1 hfit
  refine ⟨hcopy, fun t a l hl => ?_, hloads hfit⟩
  exact hcopy t a _ _ (copy_of_get ((hco.tiles t).cache.incl hl))

theorem copies_latest_load : ∃ tr s, (system (oneLine 1 .fullMap) fun _ _ => none).Run DataOnly tr s ∧
    tr.length = 2 ∧ LoadsLatest (contents (oneLine 1 .fullMap) fun _ _ => none) tr :=
  (run_start _ _).of_reaches_imp (Q := fun tr _ => tr.length = 2) storeThenLoad fun _ _ h hq =>
    ⟨hq, (copies_latest (by simp [oneLine, DirectoryType.Fits]) h).2.2⟩

/-- In a machine whose scheme fits, the data list has the latest contents of lines with a request queued,
and the DRAM has those of the lines that are UNCACHED or SHARED and not in the list. -/
theorem data_list_latest (hfit : cfg.directory.type.Fits cfg.directory.maxHwSharers N)
    (h : (system cfg dram).Run DataOnly tr s) (a : A) : let x := s (cfg.home a)
    (∀ d, x.home.dataList.lookup a = some d →
      d = latest (contents cfg dram) tr a ∧ x.home.reqQueue a ≠ []) ∧
    (x.home.dataList.lookup a = none →
      (line cfg x a).entry.dstate = .uncached ∨ (line cfg x a).entry.dstate = .shared →
      getDataFromDram x a = latest (contents cfg dram) tr a) := by
  obtain ⟨-, ph, R, hl⟩ := (run_coherent h).coherent.lines a
  refine ⟨fun d hd => ⟨hl.data.good d hd hfit, fun hq => ?_⟩, fun hd hs => hl.data.clean hs (.inl hd) hfit⟩
  exact (hl.data.busy (isSome_iff_exists.mpr ⟨d, hd⟩)).1 (by simp [msgs, View.at, view, hq])

/-- Tile 1 has written a line that tile 0 has loaded, and tile 2 writes it. Tile 1 has flushed the line,
tile 0 not yet invalidated it. -/
theorem data_list_latest_flushed : ∃ tr s d,
    (system (oneLine 2 .fullMap) fun _ _ => none).Run DataOnly tr s ∧
      (s 0).home.dataList.lookup () = some d ∧ d ≠ zeroLine ∧
      d = latest (contents (oneLine 2 .fullMap) fun _ _ => none) tr () := by
  obtain ⟨tr, s, h, hq⟩ := (run_start (oneLine 2 .fullMap) fun _ _ => none).of_reaches
    (Q := fun _ s => ((s 0).home.dataList.lookup ()).any fun d => d 0 ≠ 0)
    [store 1 7, msg 1 1, msg 1 0, msg 0 1, retry 1, load 0, msg 0 0, msg 0 0, msg 0 1, msg 1 0, msg 0 0,
      retry 0, store 2 9, msg 2 2, msg 2 0, msg 0 1, msg 1 0]
  obtain ⟨d, hd, hne⟩ := (any_eq_true ..).mp hq
  refine ⟨tr, s, d, h, hd, ?_, ((data_list_latest (by simp [oneLine, DirectoryType.Fits]) h ()).1 d hd).1⟩
  rintro rfl
  simp [zeroLine] at hne

/-- The last event is a load of something else than the latest contents. -/
def endsStale (V : A → LineData) (tr : List (Event A N)) : Bool :=
  match tr.reverse with
  | .load _ a offset bytes :: pre => bytes != readBytes (latest V pre.reverse a) offset bytes.length
  | _ => false

theorem not_loadsLatest {V : A → LineData} (h : endsStale V tr = true) : ¬ LoadsLatest V tr := by
  intro hl
  unfold endsStale at h
  split at h
  · next t a offset bytes pre hr =>
    have htr : tr = pre.reverse ++ .load t a offset bytes :: [] := by
      rw [← List.reverse_reverse tr, hr, List.reverse_cons]
    simp [← hl _ _ _ _ _ _ htr] at h
  · cases h

/-- More tiles than 16 bits can tell apart; the lines are numbered, each cache has room for one, and a
directory entry for three sharers. -/
def wide : Config ℕ 65544 where
  home _ := 0
  l1i _ := ⟨fun _ => 0, 1⟩
  l1d _ := ⟨fun _ => 0, 1⟩
  l2 _ := ⟨fun _ => 0, 1⟩
  directory := ⟨⟨fun _ => 0, 8⟩, .ackwise, 3⟩
  isApplicationTile _ := true
  lineSize := 1

section Wide

variable (t src : Fin 65544) (a rnd : ℕ)

def wideMsg (src dst : Fin 65544) (rnd : ℕ) : Action ℕ 65544 := .deliver src dst ⟨0, 0, 0, rnd⟩

def wideLoad : Action ℕ 65544 := .access t ⟨.l1DCache, .none, .read, a, 0, [0]⟩ ⟨0, 0, 0, 0⟩

/-- Tile `t` loads line 0 and gets it from tile `src`, the draw of the directory. -/
def loadFrom : List (Action ℕ 65544) :=
  [wideLoad t 0, wideMsg t t 0, wideMsg t 0 rnd, wideMsg 0 src 0, wideMsg src 0 0, wideMsg 0 t 0,
    .resume t ⟨0, 0, 0, 0⟩]

/-- Tile `t` loads line `a`, which no tile holds, and evicts line 0. -/
def evictBy : List (Action ℕ 65544) :=
  [wideLoad t a, wideMsg t t 0, wideMsg t 0 0, wideMsg 0 t 0, wideMsg t 0 0, .resume t ⟨0, 0, 0, 0⟩]

end Wide

/-- Tile 1 stores to line 0, and tiles 65538 (recorded as 2), 3, 4 and 65537 load it. When tiles 65538
and 4 have left, no sharer is thought to be untracked, so tile 65537 frees the slot of tile 1 when it
leaves. When tile 2, in the place of tile 65538, and tiles 3 and 5 have left, no tracked sharer is left
to fetch the line from, and tile 6 is given the contents of the DRAM. -/
def staleLoad : List (Action ℕ 65544) :=
  [.access 1 ⟨.l1DCache, .none, .write, 0, 0, [7]⟩ ⟨0, 0, 0, 0⟩, wideMsg 1 1 0, wideMsg 1 0 0, wideMsg 0 1 0,
    .resume 1 ⟨0, 0, 0, 0⟩] ++
  loadFrom 65538 1 0 ++ loadFrom 3 1 0 ++ loadFrom 4 1 0 ++ loadFrom 65537 1 0 ++
  evictBy 65538 1 ++ evictBy 4 2 ++ evictBy 65537 3 ++
  loadFrom 5 3 1 ++ loadFrom 4 3 2 ++ [wideMsg 4 0 0] ++ loadFrom 2 3 2 ++
  evictBy 2 4 ++ evictBy 3 5 ++ evictBy 5 6 ++
  [wideLoad 6 0, wideMsg 6 6 0, wideMsg 6 0 0, wideMsg 0 6 0, .resume 6 ⟨0, 0, 0, 0⟩]

theorem stale_load_possible : ∃ tr s, (system wide fun _ _ => none).Run DataOnly tr s ∧
    ¬ LoadsLatest (contents wide fun _ _ => none) tr :=
  (run_start _ _).of_reaches_imp (Q := fun tr _ => endsStale (contents wide fun _ _ => none) tr = true)
    staleLoad fun _ _ _ => not_loadsLatest

end Graphite.Mosi
