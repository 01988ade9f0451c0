import Graphite.PrL2.Home
import Graphite.Mosi.Replies

/-! # The directory controller of MOSI

As for MSI, each function of the controller keeps the invariant of every line homed at its tile. The
request at the front of the queue decides what is asked of the clients: a SH_REQ waits for the data of
one tile, every other request for all tiles to give the line up.
-/

namespace Graphite.Mosi

open Outcome SetAssoc PrL2 PrL2.Directory DirectoryCache Function Directory Sharers Option

variable {A : Type} [DecidableEq A] {N : ℕ}

/-- The failures a run may end in: no entry of a directory set can be replaced, the data list is full,
or the scheme does not fit the machine. -/
def Allowed (cfg : Config A N) (e : Fault) : Prop :=
  e = .noReplacementCandidate ∨ e = .dataListFull ∨ ¬ cfg.directory.Fits N

/-- The data of a line are its contents, if the scheme fits the machine. -/
def Good (cfg : Config A N) (V d : LineData) : Prop :=
  cfg.directory.Fits N → d = V

/-- The home of line `a`. -/
def line (cfg : Config A N) (x : Tile A N) (a : A) : HomeLine A N (ShmemReq A N) :=
  homeLine cfg x a (x.home.dataList.lookup a)

def msgs (h : HomeLine A N (ShmemReq A N)) : HomeLine A N (ShmemMsg A N) :=
  ⟨h.entry, h.replaced, h.queue.map ShmemReq.shmemMsg, h.cached, h.dram, h.down⟩

/-- What the request at the front wants of tile `t`. -/
def askOf (q : List (ShmemReq A N)) (t : Fin N) : Ask :=
  match q with
  | [] => .none
  | r :: _ =>
    if r.shmemMsg.type = .shReq then if r.sharerTileId = tileId t then .fetch else .none else .clear

def Waiting (q : List (ShmemReq A N)) : Prop :=
  ∀ r ∈ q.head?, r.shmemMsg.type = .shReq → ∃ t : Fin N, r.sharerTileId = tileId t

section Lines

variable (cfg : Config A N) (a : A) (V : LineData) (cl : Fin N → Client A N)
  (h : HomeLine A N (ShmemReq A N))

/-- Line `a` is in order, and nothing is wanted of its clients. -/
def Calm (ph : Fin N → Phase) : Prop :=
  LineInv cfg.directory a (Good cfg V) cl (msgs h) (fun _ => .none) ph ∅

/-- Line `a` is in order. -/
def LineOk : Prop :=
  Waiting h.queue ∧ ∃ ph R, LineInv cfg.directory a (Good cfg V) cl (msgs h) (askOf h.queue) ph R

/-- Line `a` is in order, nothing is wanted of its clients, and it is not being nullified. -/
def LineQuiet : Prop := ¬ h.replaced ∧ h.cached = none ∧ ∃ ph, Calm cfg a V cl h ph

end Lines

/-- From `x` to `x'` the directory controller of tile `v` has worked on line `a` only. -/
structure Works (cfg : Config A N) (v : Fin N) (a : A) (x x' : Tile A N) : Prop where
  keeps : Keeps cfg v a x x'
  data : ∀ b ≠ a, x'.home.dataList.lookup b = x.home.dataList.lookup b

/-- The lines with `P` homed at tile `v` are in order. -/
structure HomeInv (cfg : Config A N) (v : Fin N) (V : A → LineData) (cl : A → Fin N → Client A N)
    (P : A → Prop) (x₀ x : Tile A N) : Prop where
  client : SameClient cfg v x₀ x
  sound : DirSound cfg v x
  lines : ∀ b, cfg.home b = v → P b → LineOk cfg b (V b) (cl b) (line cfg x b)

/-- The request at the front of queue `Q` of line `a` has been served: it waits, or is complete. -/
def Served (cfg : Config A N) (a : A) (V : LineData) (cl : Fin N → Client A N)
    (Q : List (ShmemReq A N)) (y : Tile A N × Bool) : Prop :=
  if y.2 then
    y.1.home.reqQueue a = Q ∧ LineQuiet cfg a V cl { line cfg y.1 a with queue := Q.tail }
  else LineOk cfg a V cl (line cfg y.1 a)

section

variable (cfg : Config A N) (v : Fin N) (V : A → LineData) (cl : A → Fin N → Client A N) (x₀ : Tile A N)

/-- The program leaves every line homed at tile `v` in order. -/
abbrev Restores (o : Except Fault (Tile A N)) : Prop :=
  Sat o (Allowed cfg) (HomeInv cfg v V cl (fun _ => True) x₀)

/-- The program serves the request at the front of queue `Q` of line `a`. -/
abbrev Settles (a : A) (Q : List (ShmemReq A N)) (o : Except Fault (Tile A N × Bool)) : Prop :=
  Sat o (Allowed cfg) fun y => HomeInv cfg v V cl (· ≠ a) x₀ y.1 ∧ Served cfg a (V a) (cl a) Q y

end

section Specs

variable {cfg : Config A N} {v : Fin N} {V : A → LineData} {cl : A → Fin N → Client A N}
  {x x' x'' x₀ : Tile A N} {a b : A} {r : ShmemMsg A N} {i : ℤ} {q : List (ShmemReq A N)} {m : ShmemMsg A N}
  {ph : Fin N → Phase} {W : LineData} {k : Fin N → Client A N} {P : A → Prop}
  {y : Tile A N × Bool} {rnd : ℕ} {E : Fault → Prop} {e : DirectoryEntry N}

/-! ### Lines -/

section
omit [DecidableEq A]

theorem askOf_clear (h : r.type ≠ .shReq) : askOf (⟨r, i⟩ :: q) = (fun _ => .clear : Fin N → Ask) := by
  funext t; simp [askOf, h]

theorem askOf_fetch {t : Fin N} (h : r.type = .shReq) (ht : i = tileId t) :
    askOf (⟨r, i⟩ :: q) = update (fun _ => .none) t .fetch := by
  funext u
  by_cases hu : u = t
  · simp [askOf, h, ht, hu]
  · simp [askOf, h, ht, hu, tileId_injective.ne (Ne.symm hu)]

theorem waiting_of_ne (h : r.type ≠ .shReq) : Waiting (⟨r, i⟩ :: q) := by
  rintro r' hr' ht
  obtain rfl := some.inj hr'
  exact absurd ht h

theorem LineQuiet.ok {h : HomeLine A N (ShmemReq A N)} (hl : LineQuiet cfg a W k h) (hq : h.queue = []) :
    LineOk cfg a W k h := by
  obtain ⟨-, -, ph, hl⟩ := hl
  refine ⟨by simp [Waiting, hq], ph, ∅, ?_⟩
  rw [show askOf h.queue = fun _ => .none by funext t; simp [askOf, hq]]
  exact hl

theorem LineOk.calm {h : HomeLine A N (ShmemReq A N)} (hl : LineOk cfg a W k h) (hq : h.queue = []) :
    h.cached = none ∧ ∃ ph, Calm cfg a W k h ph := by
  obtain ⟨-, ph, R, hl⟩ := hl
  rw [show askOf h.queue = fun _ => .none by funext t; simp [askOf, hq]] at hl
  obtain rfl := hl.pending_eq_empty (by simp)
  exact ⟨hl.data.cached_eq_none (by simp [msgs, hq]), ph, hl⟩

end

theorem Works.trans (h : Works cfg v a x x') (h' : Works cfg v a x' x'') : Works cfg v a x x'' :=
  ⟨h.keeps.trans h'.keeps, fun b hb => (h'.data b hb).trans (h.data b hb)⟩

theorem works_of_keeps (h : Keeps cfg v a x x') (hd : x'.home.dataList = x.home.dataList) :
    Works cfg v a x x' :=
  ⟨h, fun _ _ => by rw [hd]⟩

theorem Works.line_eq (h : Works cfg v a x x') (hb : b ≠ a) : line cfg x' b = line cfg x b := by
  rw [line, h.data b hb, h.keeps.line b hb, line]

theorem HomeInv.works (h : HomeInv cfg v V cl P x₀ x) (hk : Works cfg v a x x') (ha : ¬ P a) :
    HomeInv cfg v V cl P x₀ x' where
  client := h.client.trans hk.keeps.client
  sound := hk.keeps.sound
  lines b hb hP := by
    rw [hk.line_eq fun e => ha (e ▸ hP)]
    exact h.lines b hb hP

theorem HomeInv.all (h : HomeInv cfg v V cl (· ≠ a) x₀ x)
    (ha : LineOk cfg a (V a) (cl a) (line cfg x a)) : HomeInv cfg v V cl (fun _ => True) x₀ x where
  client := h.client
  sound := h.sound
  lines b hb _ := by
    by_cases hba : b = a
    · subst hba; exact ha
    · exact h.lines b hb hba

theorem Served.waits (hy : y.2 = false) (h : LineOk cfg a W k (line cfg y.1 a)) : Served cfg a W k q y := by
  rwa [Served, hy, if_neg (by simp)]

theorem Served.done (hq : y.1.home.reqQueue a = q) (hy : y.2 = true)
    (h : LineQuiet cfg a W k { line cfg y.1 a with queue := q.tail }) : Served cfg a W k q y := by
  rw [Served, hy, if_pos rfl]
  exact ⟨hq, h⟩

theorem Served.of_waits (h : Served cfg a W k q (x, false)) : LineOk cfg a W k (line cfg x a) := by
  simpa [Served] using h

theorem Served.of_done (h : Served cfg a W k q (x, true)) : x.home.reqQueue a = q ∧
    LineQuiet cfg a W k { line cfg x a with queue := q.tail } := by
  simpa [Served] using h

variable (cfg) in
theorem msgs_queue (hq : x.home.reqQueue a = ⟨r, i⟩ :: q) :
    (msgs (line cfg x a)).queue = r :: q.map ShmemReq.shmemMsg := by
  simp [msgs, line, hq]

theorem line_enqueue {r : ShmemReq A N} : line cfg (enqueue x a r) a =
    { line cfg x a with queue := x.home.reqQueue a ++ [r] } := by
  rw [line, homeLine_enqueue]; rfl

theorem msgs_enqueue : msgs (line cfg (enqueue x a ⟨m, i⟩) a) =
    { msgs (line cfg x a) with queue := (msgs (line cfg x a)).queue ++ [m] } := by
  rw [line_enqueue]
  simp [msgs, line]

/-! ### The data list, the DRAM and the queue -/

theorem keeps_withDataList {l : DataList A} (h : DirSound cfg v x) :
    Keeps cfg v a x (withDataList x l) :=
  ⟨.of_home, h.congr rfl, fun _ _ _ => rfl, fun _ _ hb => hb⟩

theorem insertData_sat {d : LineData} (h : DirSound cfg v x)
    (hE : ∀ c ∈ x.home.dataList.lookup a, readBytes d 0 cfg.lineSize ≠ readBytes c 0 cfg.lineSize →
      E .dataMismatch) (hfull : E .dataListFull) :
    Sat (insertData cfg x a (some d)) E fun x' => Works cfg v a x x' ∧
      line cfg x' a = { line cfg x a with cached := some ((line cfg x a).cached.getD d) } := by
  have hdone : ∀ l : DataList A, (∀ b ≠ a, l.lookup b = x.home.dataList.lookup b) →
      l.lookup a = some ((line cfg x a).cached.getD d) →
      Works cfg v a x (withDataList x l) ∧ line cfg (withDataList x l) a =
        { line cfg x a with cached := some ((line cfg x a).cached.getD d) } := by
    intro l hl ha
    refine ⟨⟨keeps_withDataList h, hl⟩, ?_⟩
    rw [line, show (withDataList x l).home.dataList.lookup a = _ from ha]
    rfl
  unfold insertData DataList.insert
  cases hl : x.home.dataList.lookup a with
  | none =>
    simp only [pure_eq_ok, ok_bind]
    rw [sat_bind, sat_bind, sat_check]
    refine ⟨fun _ => hdone _ (fun b hb => by simp [hb]) ?_, fun _ => hfull⟩
    simp [line, hl]
  | some c =>
    dsimp only
    rw [sat_bind, sat_bind, sat_bind, sat_check]
    refine ⟨fun _ => ?_, fun hne => hE c hl hne⟩
    simp only [pure_eq_ok, sat_ok]
    rw [sat_bind, sat_check]
    refine ⟨fun _ => hdone _ (fun b _ => rfl) ?_, fun _ => hfull⟩
    simp [line, hl]

theorem eraseData_sat (h : DirSound cfg v x) (hc : (x.home.dataList.lookup a).isSome) :
    Sat (eraseData x a) E fun x' => Works cfg v a x x' ∧
      line cfg x' a = { line cfg x a with cached := none } := by
  unfold eraseData DataList.erase
  rw [check_pos hc, ok_bind]
  refine ⟨⟨keeps_withDataList h, fun b hb => by simp [withDataList, hb]⟩, ?_⟩
  simp [line, withDataList, homeLine]

variable {d : Option LineData}

theorem line_setDram : line cfg (setDram x a d) a = { line cfg x a with dram := d } :=
  homeLine_setDram

theorem putDataToDram_eq {d : LineData} (hd : (x.home.dram a).isSome) :
    putDataToDram x a (some d) = .ok (setDram x a (some d)) := by
  rw [putDataToDram, check_pos hd]
  rfl

theorem works_setDram (h : DirSound cfg v x) : Works cfg v a x (setDram x a d) :=
  works_of_keeps (keeps_setDram h) rfl

theorem works_setEntry (h : DirSound cfg v x) (ha : (entry cfg.directory x.home.directory a).isSome) :
    Works cfg v a x (setEntry cfg x a e) ∧
      line cfg (setEntry cfg x a e) a = { line cfg x a with entry := e } := by
  obtain ⟨hk, hline, -⟩ := setEntry_line (e := e) h ha
  exact ⟨works_of_keeps hk rfl, hline _⟩

/-- The entry that was read is changed. -/
theorem works_readEntry {dir : DirectoryCache A N} (hk : Keeps cfg v a x (withDirectory x dir))
    (hline : ∀ c, homeLine cfg (withDirectory x dir) a c = homeLine cfg x a c)
    (hpres : (entry cfg.directory dir a).isSome) :
    Works cfg v a x (setEntry cfg (withDirectory x dir) a e) ∧
      line cfg (setEntry cfg (withDirectory x dir) a e) a = { line cfg x a with entry := e } := by
  obtain ⟨hk₂, hline₂⟩ := works_setEntry (e := e) hk.sound hpres
  exact ⟨(works_of_keeps hk rfl).trans hk₂, hline₂.trans (by rw [line, hline]; rfl)⟩

variable {u : Fin N}

@[simp] theorem isFromDirectory_toL2 {k : MsgType} {w : Bool} :
    isFromDirectory a (toL2 k u a d w) = true := by
  simp [isFromDirectory, toL2]

theorem line_send (hm : isFromDirectory a m = true) : line cfg (x.send u m) a = { line cfg x a with
      down := update (x.down a) u (x.down a u ++ [m]) } :=
  homeLine_send hm

theorem works_send (h : DirSound cfg v x) (hv : cfg.home a = v)
    (hm : isFromDirectory a m = true) : Works cfg v a x (x.send u m) :=
  works_of_keeps (keeps_send h hv hm) rfl

theorem works_setSharerTileId {id : ℤ} (h : DirSound cfg v x) :
    Works cfg v a x (setSharerTileId x a id) :=
  works_of_keeps ⟨.of_home, h.congr rfl,
    fun b hb c => by simp [homeLine, setSharerTileId, hb], fun _ _ hb => hb⟩ rfl

theorem line_setSharerTileId (cfg : Config A N) (id : ℤ) (hq : x.home.reqQueue a = ⟨r, i⟩ :: q) :
    line cfg (setSharerTileId x a id) a =
      { line cfg x a with queue := ⟨r, id⟩ :: q } := by
  simp [line, homeLine, setSharerTileId, hq]

/-! ### Demands -/

section Demand

variable {req t : Fin N} {modeled : Bool} {type : MsgType}

theorem clear_of_sends (hs : Sends cfg v a m x x') (hl : Calm cfg a W k (line cfg x a) ph)
    (hq : x.home.reqQueue a = ⟨r, i⟩ :: q) (hr : r.type ≠ .shReq) (hm : DownOk m)
    (hg : grantOf m = none)
    (hk : ∀ t, demandOf t m = .flushReq ∨ demandOf t m = .invReq ∧ (ph t).isReader)
    (hre : m.replyExpected = true → (line cfg x a).entry.sharers.broadcasts = true ∧
      ∀ t, x'.down a t = x.down a t ++ [m]) :
    Works cfg v a x x' ∧ LineOk cfg a W k (line cfg x' a) := by
  have hline : line cfg x' a = { line cfg x a with down := x'.down a } := by
    rw [line, hs.home]; exact hs.line_eq
  refine ⟨works_of_keeps hs.keeps (by rw [hs.home]), ?_⟩
  have hqueue : (line cfg x' a).queue = ⟨r, i⟩ :: q := by rw [hline]; exact hq
  obtain ⟨n, hn, hn1⟩ : ∃ n : Fin N → ℕ, (∀ t, x'.down a t = x.down a t ++ List.replicate (n t) m) ∧
      (m.replyExpected = true → ∀ t, n t = 1) := by
    cases hmre : m.replyExpected with
    | true => exact ⟨fun _ => 1, by simpa using (hre hmre).2, by simp⟩
    | false =>
      choose n hn using hs.down
      exact ⟨n, hn, by simp⟩
  refine ⟨by rw [hqueue]; exact waiting_of_ne hr, ph,
    if m.replyExpected then Finset.univ else ∅, ?_⟩
  rw [hqueue, askOf_clear hr, hline]
  exact hl.pushClear hm hg hn (fun t _ => hk t) fun h => ⟨(hre h).1, hn1 h⟩

variable {sr : Option (Fin N)}

section

variable (h : DirSound cfg v x) (hv : cfg.home a = v)
include h hv

theorem sendShmemMsg_sat {S : Finset (Fin N)} (hc : e.sharers.Covers cfg.directory.type cfg.directory.maxHwSharers S ∅) :
    Sat (sendShmemMsg cfg x a type req sr e modeled)
      (fun _ => ¬ cfg.directory.Fits N) fun x' => ∃ re,
        Sends cfg v a ⟨type, .dramDirectory, .l2Cache, req, a, none, modeled, sr, re⟩ x x' ∧
        (re = true → e.sharers.broadcasts = true ∧ ∀ t, x'.down a t = x.down a t ++
          [⟨type, .dramDirectory, .l2Cache, req, a, none, modeled, sr, re⟩]) := by
  have hm : ∀ re, isFromDirectory a
      (⟨type, .dramDirectory, .l2Cache, req, a, none, modeled, sr, re⟩ : ShmemMsg A N) = true := by
    simp [isFromDirectory]
  refine hc.getSharersList.bind ?_
  rintro ⟨all, ids⟩ ⟨hall, -, hids⟩
  dsimp only at hall hids ⊢
  split
  · next hall' =>
    refine ⟨_, sends_broadcast h hv (hm _), fun hre => ⟨?_, down_broadcast (hm _)⟩⟩
    rw [← hall (of_decide_eq_true hre), hall']
  · refine (sendAll_sat h hv (hm _) fun id hid hno _ hf => ?_).mono fun x' hs => ⟨false, hs, by simp⟩
    obtain ⟨t, -, ht⟩ := hids hf id hid
    exact hno t ht

/-- INV_REQ or INV_FLUSH_COMBINED_REQ to the sharers of a SHARED or OWNED line. -/
theorem clearSharers_sat
    (hl : Calm cfg a W k (line cfg x a) ph) (hq : x.home.reqQueue a = ⟨r, i⟩ :: q)
    (hr : r.type ≠ .shReq)
    (hk : type = .invReq ∧ (∀ t, (ph t).isReader) ∨
      type = .invFlushCombinedReq ∧ ∀ t, sr = some t ∨ (ph t).isReader) :
    Sat (sendShmemMsg cfg x a type req sr (line cfg x a).entry modeled) (Allowed cfg)
      fun x' => Works cfg v a x x' ∧ Served cfg a W k (⟨r, i⟩ :: q) (x', false) := by
  refine (sendShmemMsg_sat h hv hl.covers).imp (fun _ hf => .inr (.inr hf)) ?_
  rintro x' ⟨re, hs, hre⟩
  refine (clear_of_sends hs hl hq hr ?_ ?_ (fun t => ?_) hre).imp_right (.waits rfl)
  · exact .inr (.inr ⟨by rcases hk with ⟨h, -⟩ | ⟨h, -⟩ <;> simp [h], rfl⟩)
  · rcases hk with ⟨h, -⟩ | ⟨h, -⟩ <;> simp [grantOf, h]
  · rcases hk with ⟨h, hread⟩ | ⟨h, hread⟩
    · exact .inr ⟨by simp [demandOf, h], hread t⟩
    · by_cases hsr : sr = some t
      · simp [demandOf, h, hsr]
      · exact .inr ⟨by simp [demandOf, h, hsr], (hread t).resolve_left hsr⟩

theorem flushOwner_sat
    (hl : Calm cfg a W k (line cfg x a) ph) (hd : (line cfg x a).entry.dstate = .modified)
    (hq : x.home.reqQueue a = ⟨r, i⟩ :: q) (hr : r.type ≠ .shReq) :
    Sat (sendToOwner x (line cfg x a).entry (toL2 .flushReq req a none modeled)) E
      fun x' => Works cfg v a x x' ∧ Served cfg a W k (⟨r, i⟩ :: q) (x', false) := by
  obtain ⟨-, o, ho, -⟩ := (agrees_modified hd).mp hl.agrees
  have ho : (line cfg x a).entry.owner = some o := ho
  simp only [sendToOwner, ho, sat_pure]
  refine (clear_of_sends (sends_send h hv (by simp)) hl hq hr ?_ rfl (fun t => .inl rfl) ?_).imp_right
    (.waits rfl)
  · exact .inr (.inr ⟨.inr (.inl rfl), rfl⟩)
  · simp [toL2]

end

theorem fetch_ok (req : Fin N) (modeled : Bool) (h : DirSound cfg v x) (hv : cfg.home a = v) (hl : Calm cfg a W k (line cfg x a) ph)
    (hq : x.home.reqQueue a = ⟨r, i⟩ :: q) (hr : r.type = .shReq)
    (hty : type = .wbReq ∨ type = .flushReq)
    (hfit : cfg.directory.Fits N → (line cfg x a).entry.sharers.hasSharer t = true) :
    Works cfg v a x (setSharerTileId (x.send t (toL2 type req a none modeled)) a (tileId t)) ∧
      LineOk cfg a W k (line cfg (setSharerTileId
        (x.send t (toL2 type req a none modeled)) a (tileId t)) a) := by
  have hk : Works cfg v a x (x.send t (toL2 type req a none modeled)) :=
    works_send h hv (by simp)
  refine ⟨hk.trans (works_setSharerTileId hk.keeps.sound), ?_⟩
  rw [line_setSharerTileId (r := r) (q := q) _ _ (by exact hq), line_send (by simp)]
  refine ⟨?_, ph, ∅, ?_⟩
  · rintro r' hr' -
    obtain rfl := some.inj hr'
    exact ⟨t, rfl⟩
  · have hask : askOf (⟨r, tileId t⟩ :: q) =
        update (fun _ => Ask.none) t .fetch := askOf_fetch hr rfl
    rw [hask]
    have hmap : (x.home.reqQueue a).map ShmemReq.shmemMsg =
        (⟨r, tileId t⟩ :: q).map ShmemReq.shmemMsg := by simp [hq]
    have := hl.pushFetch (t := t) (m := toL2 type req a none modeled) hty rfl rfl hfit
    simp only [msgs] at this ⊢
    rw [← hmap]
    exact this

end Demand

/-! ### Nullification and allocation -/

theorem drainData_sat {β : Type} {f : Tile A N → Except Fault β} {Q : β → Prop} (h : DirSound cfg v x)
    (hd : (x.home.dataList.lookup a).isSome → (x.home.dram a).isSome)
    (hf : ∀ x', Works cfg v a x x' → line cfg x' a = { line cfg x a with
      cached := none, dram := (line cfg x a).cached.or (line cfg x a).dram } → Sat (f x') E Q) :
    Sat (match cachedData x a with
      | none => do
        let x ← pure x
        f x
      | some data => do
        let y ← putDataToDram x a (some data)
        let x ← eraseData y a
        f x) E Q := by
  unfold cachedData
  cases hl : x.home.dataList.lookup a with
  | none => exact hf x (works_of_keeps (.refl h) rfl) (by simp [line, homeLine, hl])
  | some d =>
    dsimp only
    rw [putDataToDram_eq (hd (by simp [hl])), ok_bind]
    have hk : Works cfg v a x (setDram x a (some d)) := works_setDram h
    refine (eraseData_sat hk.keeps.sound (by simp [setDram, hl])).bind fun x' hx => ?_
    refine hf x' (hk.trans hx.1) ?_
    rw [hx.2, line_setDram]
    simp [line, homeLine, hl]

theorem invalidate_sat (hs : DirSound cfg v x) (hl : Calm cfg a W k (line cfg x a) ph)
    (hd : (line cfg x a).entry.dstate = .uncached) (hc : (line cfg x a).cached = none)
    (hq : x.home.reqQueue a = ⟨r, i⟩ :: q) (hr : r.type = .nullifyReq) :
    Sat (x.home.directory.invalidateDirectoryEntry a) E fun d =>
      Works cfg v a x (withDirectory x d) ∧ Served cfg a W k (⟨r, i⟩ :: q) (withDirectory x d, true) := by
  obtain ⟨d, hinv, hwf, hent, hrep⟩ := hs.wf.invalidateDirectoryEntry (a := a)
    (hl.replaced.mpr ⟨r, _, msgs_queue _ hq, hr⟩)
  rw [hinv, sat_ok]
  refine ⟨works_of_keeps (keeps_withDirectory hwf (fun b hb => ?_) (fun b hb => by rw [hent, if_neg hb])
    (fun b hb => by simp [hrep, hb])) rfl, .done hq rfl ⟨fun hm => ?_, hc, ph, ?_⟩⟩
  · by_cases hba : b = a
    · simp [hent, hba] at hb
    · rw [hent, if_neg hba] at hb; exact hs.homed b hb
  · exact ((hrep a).mp hm).2 rfl
  · have hline : msgs { line cfg (withDirectory x d) a with queue := q } =
        { msgs (line cfg x a) with
          entry := newEntry cfg.directory N, queue := q.map ShmemReq.shmemMsg,
          replaced := a ∈ d.replaced.map Prod.fst, cached := none, dram := (line cfg x a).dram } := by
      have hc : (line cfg (withDirectory x d) a).cached = none := hc
      simp only [msgs, hc]
      simp [line, homeLine, withDirectory, hent]
    show Calm cfg a W k { line cfg (withDirectory x d) a with queue := q } ph
    rw [Calm, hline]
    exact hl.nullified (msgs_queue _ hq) hr hd rfl rfl broadcasts_create
      covers_create (hl.data.clean (.inl hd) (.inl hc)) (by simp [hrep])

theorem processNullifyReq_sat (hs : DirSound cfg v x) (hv : cfg.home r.address = v)
    (hl : Calm cfg r.address W k (line cfg x r.address) ph)
    (hq : x.home.reqQueue r.address = ⟨r, i⟩ :: q) (hr : r.type = .nullifyReq) :
    Sat (processNullifyReq cfg x r) (Allowed cfg) fun y =>
      Works cfg v r.address x y.1 ∧ Served cfg r.address W k (⟨r, i⟩ :: q) y := by
  unfold processNullifyReq
  refine getEntry_sat hs hv (present_of_replaced hs (hl.replaced.mpr ⟨r, _, msgs_queue _ hq, hr⟩))
    fun d hk hline _ => ?_
  have hk : Works cfg v r.address x (withDirectory x d) := works_of_keeps hk rfl
  have hq₁ : (withDirectory x d).home.reqQueue r.address = ⟨r, i⟩ :: q := hq
  have hline : line cfg (withDirectory x d) r.address = line cfg x r.address :=
    hline _
  rw [← hline] at hl
  rw [show (homeLine cfg x r.address none).entry =
    (line cfg (withDirectory x d) r.address).entry by rw [hline]; rfl]
  clear hline
  generalize withDirectory x d = x₁ at hk hl hq₁ ⊢
  have hr' : r.type ≠ .shReq := by simp [hr]
  dsimp only
  split
  · next hd =>
    refine (flushOwner_sat hk.keeps.sound hv hl hd hq₁ hr').bind fun y hy => ?_
    exact ⟨hk.trans hy.1, hy.2⟩
  · next hd =>
    obtain ⟨-, o, ho, -, -, hread⟩ := (agrees_owned hd).mp hl.agrees
    have ho : (line cfg x₁ r.address).entry.owner = some o := ho
    rw [check_pos (by simp [ho]), ok_bind]
    refine (clearSharers_sat hk.keeps.sound hv hl hq₁ hr' (.inr ⟨rfl, fun t => ?_⟩)).bind
      fun y hy => ⟨hk.trans hy.1, hy.2⟩
    by_cases hot : t = o
    · exact .inl (hot ▸ ho)
    · exact .inr (hread t hot)
  · next hd =>
    obtain ⟨ho, -, hread⟩ := (agrees_shared hd).mp hl.agrees
    have ho : (line cfg x₁ r.address).entry.owner = none := ho
    rw [check_pos (by simp [ho]), ok_bind]
    exact (clearSharers_sat hk.keeps.sound hv hl hq₁ hr' (.inl ⟨rfl, hread⟩)).bind
      fun y hy => ⟨hk.trans hy.1, hy.2⟩
  · next hd =>
    refine drainData_sat hk.keeps.sound (fun hc => hl.data.stored (.inr hc)) fun x₂ hk₂ hline₂ => ?_
    have hd₂ : (line cfg x₂ r.address).entry.dstate = .uncached := by rw [hline₂]; exact hd
    have hq₂ : x₂.home.reqQueue r.address = ⟨r, i⟩ :: q :=
      (congrArg HomeLine.queue hline₂).trans hq₁
    have hl₂ : Calm cfg r.address W k (line cfg x₂ r.address) ph := by
      rw [hline₂]
      refine { hl with data := ⟨by simp [msgs], by simp [msgs], fun _ _ => ?_, fun hne => ?_⟩ }
      · rw [msgs, getD_or]
        exact hl.data.good_getD fun hc => hl.data.clean (.inl hd) (.inl hc)
      · simp [msgs, hd] at hne
    refine (invalidate_sat hk₂.keeps.sound hl₂ hd₂ (by rw [hline₂]) hq₂ hr).bind fun d hy => ?_
    exact ⟨(hk.trans hk₂).trans hy.1, hy.2⟩
  · next h1 h2 h3 h4 =>
    rcases hl.agrees.cases with hd | hd | hd | hd <;> contradiction

/-- Allocating an entry for line `a` may start the nullification of one other line. -/
theorem processDirectoryEntryAllocationReq_sat (h : HomeInv cfg v V cl (· ≠ m.address) x₀ x)
    {d : DirectoryCache A N} (hv : cfg.home m.address = v)
    (hg : x.home.directory.getDirectoryEntry cfg.directory m.address = (d, none)) :
    Sat (processDirectoryEntryAllocationReq cfg x m) (Allowed cfg) fun y =>
      HomeInv cfg v V cl (· ≠ m.address) x₀ y.1 ∧ line cfg y.1 m.address = line cfg x m.address ∧
        (entry cfg.directory y.1.home.directory m.address).isSome ∧
        y.2 = (line cfg x m.address).entry := by
  obtain ⟨rfl, hnone, -⟩ := h.sound.wf.getDirectoryEntry_none hg
  have hent : (line cfg x m.address).entry = newEntry cfg.directory N := by
    simp [line, homeLine, hnone]
  unfold processDirectoryEntryAllocationReq
  cases hc : x.home.directory.getReplacementCandidates cfg.directory m.address with
  | error e =>
    simp [getReplacementCandidates, hg, check] at hc
  | ok cands =>
  rw [ok_bind]
  split
  · exact .inl rfl
  · next b e hcand =>
    obtain ⟨hba, hvb, hqb, d', hrepl, hk₁, hent', hrep⟩ := victim_spec h.sound hv hg hc hcand
    rw [hrepl, ok_bind]
    obtain ⟨hcb, ph, hlb⟩ := (h.lines b hvb hba).calm hqb
    generalize hnul : (⟨.nullifyReq, .dramDirectory, .dramDirectory, m.requester, b, none, true, none,
      false⟩ : ShmemMsg A N) = nul
    dsimp only
    have hn : nul.type = .nullifyReq ∧ nul.address = b := by simp [← hnul]
    have hk₂ : Works cfg v b x (enqueue (withDirectory x d') b ⟨nul, invalidTileId⟩) :=
      works_of_keeps (hk₁.trans (keeps_enqueue hk₁.sound)) rfl
    have hq₂ : (enqueue (withDirectory x d') b ⟨nul, invalidTileId⟩).home.reqQueue b =
        [⟨nul, invalidTileId⟩] := by
      simp [enqueue, withDirectory, hqb]
    have hl₂ : Calm cfg b (V b) (cl b)
        (line cfg (enqueue (withDirectory x d') b ⟨nul, invalidTileId⟩) b) ph := by
      have := hlb.nullify (P := b ∈ d'.replaced.map Prod.fst) (by simp [msgs, line, hqb]) hn.1 hn.2
        (by simp [hrep])
      rw [line, homeLine_enqueue]
      simpa [Calm, msgs, line, homeLine, withDirectory, enqueue, hent', hba, hqb] using this
    have hsome : (entry cfg.directory
        (enqueue (withDirectory x d') b ⟨nul, invalidTileId⟩).home.directory m.address).isSome := by
      simp [enqueue, withDirectory, hent']
    generalize enqueue (withDirectory x d') b ⟨nul, invalidTileId⟩ = x₂ at hk₂ hq₂ hl₂ hsome ⊢
    rw [check_pos (by simp [hq₂]), ok_bind]
    obtain ⟨hn, rfl⟩ := hn
    -- it is enough that the victim is in order, whether its nullification has ended or not
    have hdone : ∀ x₄, Works cfg v nul.address x₂ x₄ →
        LineOk cfg nul.address (V nul.address) (cl nul.address) (line cfg x₄ nul.address) →
        HomeInv cfg v V cl (· ≠ m.address) x₀ x₄ ∧ line cfg x₄ m.address = line cfg x m.address ∧
          (entry cfg.directory x₄.home.directory m.address).isSome ∧
          newEntry cfg.directory N = (line cfg x m.address).entry := by
      intro x₄ hk₄ hb
      have hkb := hk₂.trans hk₄
      refine ⟨⟨h.client.trans hkb.keeps.client, hkb.keeps.sound, fun c hvc hca => ?_⟩,
        hkb.line_eq (Ne.symm hba), hk₄.keeps.present _ (Ne.symm hba) hsome, hent.symm⟩
      by_cases hcb : c = nul.address
      · subst hcb; exact hb
      · rw [hkb.line_eq hcb]; exact h.lines c hvc hca
    refine (processNullifyReq_sat hk₂.keeps.sound hvb hl₂ hq₂ hn).bind ?_
    rintro ⟨x₃, done⟩ ⟨hk₃, hserved⟩
    cases done with
    | false => exact hdone x₃ hk₃ hserved.of_waits
    | true =>
      obtain ⟨hq₃, hquiet⟩ := hserved.of_done
      have hc₃ : x₃.home.dataList.lookup nul.address = none := hquiet.2.1
      dsimp only
      rw [if_pos rfl, check_pos (by simp [cachedData, hc₃]), ok_bind]
      refine hdone _ (hk₃.trans (works_of_keeps (keeps_dequeue hk₃.keeps.sound) rfl)) ?_
      have hline : line cfg (dequeue x₃ nul.address) nul.address =
          { line cfg x₃ nul.address with queue := [] } := by
        rw [line, homeLine_dequeue, hq₃]; rfl
      rw [hline]
      exact hquiet.ok rfl

theorem entryFor_sat (h : HomeInv cfg v V cl (· ≠ m.address) x₀ x) (hv : cfg.home m.address = v) :
    Sat (entryFor cfg x m) (Allowed cfg) fun y =>
      HomeInv cfg v V cl (· ≠ m.address) x₀ y.1 ∧ line cfg y.1 m.address = line cfg x m.address ∧
        (entry cfg.directory y.1.home.directory m.address).isSome ∧
        y.2 = (line cfg x m.address).entry := by
  unfold entryFor
  split
  · next d e hg =>
    obtain ⟨hk, hline, hpres, he⟩ := getDirectoryEntry_line h.sound hv hg
    exact ⟨h.works (works_of_keeps hk rfl) (by simp), hline _, hpres, he⟩
  · next d hg => exact processDirectoryEntryAllocationReq_sat h hv hg

/-! ### Requests -/

theorem retrieve_sat {type : MsgType} {modeled : Bool} (h : DirSound cfg v x)
    (hv : cfg.home a = v) :
    Sat (retrieveDataAndSendToL2Cache x a type u modeled) E fun x' => Works cfg v a x x' ∧
      line cfg x' a = { line cfg x a with
        cached := none
        dram := if (line cfg x a).cached.isSome then x.home.dram a else
          some ((x.home.dram a).getD zeroLine)
        down := update (x.down a) u (x.down a u ++ [toL2 type u a
          (some ((line cfg x a).cached.getD ((x.home.dram a).getD zeroLine))) modeled]) } := by
  unfold retrieveDataAndSendToL2Cache cachedData
  cases hl : x.home.dataList.lookup a with
  | some d =>
    have hk : Works cfg v a x (x.send u (toL2 type u a (some d) modeled)) :=
      works_send h hv (by simp)
    refine (eraseData_sat hk.keeps.sound (by simp [Tile.send, hl])).mono fun x' hx => ?_
    refine ⟨hk.trans hx.1, ?_⟩
    rw [hx.2, line_send (by simp)]
    simp [line, homeLine, hl]
  | none =>
    have hk : Works cfg v a x (setDram x a (some (getDataFromDram x a))) := works_setDram h
    refine ⟨hk.trans (works_send hk.keeps.sound hv (by simp)), ?_⟩
    rw [line_send (by simp), line_setDram]
    simp [line, homeLine, hl, setDram, getDataFromDram, Tile.down]

theorem grant_sat {type : MsgType} {modeled : Bool} (h : DirSound cfg v x)
    (hv : cfg.home a = v) (hpres : (entry cfg.directory x.home.directory a).isSome)
    (hq : x.home.reqQueue a = ⟨r, i⟩ :: q) (hrep : ¬ (line cfg x a).replaced)
    (hl : ∃ ph, LineInv cfg.directory a (Good cfg W) k { msgs (line cfg x a) with
        entry := e
        queue := q.map ShmemReq.shmemMsg
        cached := none
        dram := if (line cfg x a).cached.isSome then x.home.dram a else
          some ((x.home.dram a).getD zeroLine)
        down := update (x.down a) u (x.down a u ++ [toL2 type u a
          (some ((line cfg x a).cached.getD ((x.home.dram a).getD zeroLine))) modeled]) }
      (fun _ => .none) ph ∅) :
    Sat (do pure (← retrieveDataAndSendToL2Cache (setEntry cfg x a e) a type u modeled, true)) E
      fun y => Works cfg v a x y.1 ∧ Served cfg a W k (⟨r, i⟩ :: q) y := by
  obtain ⟨hk, hline⟩ := works_setEntry (e := e) h hpres
  refine (retrieve_sat hk.keeps.sound hv).bind fun x' hx => ?_
  obtain ⟨hk', hline'⟩ := hx
  rw [hline] at hline'
  refine ⟨hk.trans hk', .done ((congrArg HomeLine.queue hline').trans hq) rfl ?_⟩
  dsimp only
  rw [hline']
  exact ⟨hrep, rfl, hl⟩

theorem upgrade_ok (h : DirSound cfg v x) (hv : cfg.home r.address = v)
    (hpres : (entry cfg.directory x.home.directory r.address).isSome)
    (hl : Calm cfg r.address W k (line cfg x r.address) ph)
    (hq : x.home.reqQueue r.address = ⟨r, i⟩ :: q) (hr : r.type = .exReq)
    (hc : (line cfg x r.address).cached = none)
    (h1 : (line cfg x r.address).entry.sharers.getNumSharers = 1)
    (hwho : (line cfg x r.address).entry.dstate = .shared ∧
        (line cfg x r.address).entry.sharers.hasSharer r.requester = true ∨
      (line cfg x r.address).entry.dstate = .owned ∧
        (line cfg x r.address).entry.owner = some r.requester)
    (he : e = ⟨.modified, some r.requester, (line cfg x r.address).entry.sharers⟩) :
    Works cfg v r.address x ((setEntry cfg x r.address e).send r.requester
        (toL2 .upgradeRep r.requester r.address none r.modeled)) ∧
      Served cfg r.address W k (⟨r, i⟩ :: q) ((setEntry cfg x r.address e).send
        r.requester (toL2 .upgradeRep r.requester r.address none r.modeled), true) := by
  obtain ⟨hk, hline⟩ := works_setEntry (e := e) h hpres
  refine ⟨hk.trans (works_send hk.keeps.sound hv (by simp)), .done hq rfl ?_⟩
  dsimp only
  rw [line_send (by simp), hline]
  have hq' := msgs_queue cfg hq
  refine ⟨hl.not_replaced hq' (requestOf_exReq hr), hc, ?_⟩
  subst he
  exact hl.upgrade hq' hr hc h1 hwho rfl rfl rfl rfl

theorem processExReqFromL2Cache_sat (h : HomeInv cfg v V cl (· ≠ r.address) x₀ x)
    (hv : cfg.home r.address = v)
    (hl : Calm cfg r.address (V r.address) (cl r.address) (line cfg x r.address) ph)
    (hq : x.home.reqQueue r.address = ⟨r, i⟩ :: q) (hr : r.type = .exReq)
    (hc : (line cfg x r.address).cached = none ∨ (line cfg x r.address).entry.dstate = .uncached) :
    Settles cfg v V cl x₀ r.address (⟨r, i⟩ :: q) (processExReqFromL2Cache cfg rnd x r) := by
  refine (entryFor_sat h hv).bind ?_
  rintro ⟨x₁, e⟩ ⟨h₁, hline, hpres, he⟩
  dsimp only at h₁ hline hpres he ⊢
  have hq₁ : x₁.home.reqQueue r.address = ⟨r, i⟩ :: q := (congrArg HomeLine.queue hline).trans hq
  rw [← hline] at hl hc he
  subst he
  have hr' : r.type ≠ .shReq := by simp [hr]
  have hq' := msgs_queue cfg hq₁
  split
  · next hd =>
    refine (flushOwner_sat h₁.sound hv hl hd hq₁ hr').bind fun y hy => ?_
    exact ⟨h₁.works hy.1 (by simp), hy.2⟩
  · next hd =>
    obtain ⟨-, o, ho, -, -, hread⟩ := (agrees_owned hd).mp hl.agrees
    have ho : (line cfg x₁ r.address).entry.owner = some o := ho
    split
    · next hup =>
      obtain ⟨hk, hserved⟩ := upgrade_ok h₁.sound hv hpres hl hq₁ hr (hc.resolve_right (by simp [hd]))
        hup.2 (.inr ⟨hd, hup.1⟩) (by rw [← hup.1])
      exact ⟨h₁.works hk (by simp), hserved⟩
    · refine (clearSharers_sat h₁.sound hv hl hq₁ hr' (.inr ⟨rfl, fun t => ?_⟩)).bind
        fun y hy => ⟨h₁.works hy.1 (by simp), hy.2⟩
      by_cases hot : t = o
      · exact .inl (hot ▸ ho)
      · exact .inr (hread t hot)
  · next hd =>
    obtain ⟨-, hpos, hread⟩ := (agrees_shared hd).mp hl.agrees
    rw [check_pos hpos, ok_bind]
    split
    · next hup =>
      rw [sat_bind, DirectoryEntry.sat_setOwner]
      refine ⟨fun _ => ?_, fun hno => absurd (by simpa using hup.1) hno⟩
      obtain ⟨hk, hserved⟩ := upgrade_ok h₁.sound hv hpres hl hq₁ hr (hc.resolve_right (by simp [hd]))
        hup.2 (.inl ⟨hd, hup.1⟩) rfl
      exact ⟨h₁.works hk (by simp), hserved⟩
    · refine ((hl.covers.getOneSharer rnd).imp (fun _ hf => .inr (.inr hf)) fun _ h => h).bind
        fun sharer _ => ?_
      exact (clearSharers_sat h₁.sound hv hl hq₁ hr' (.inr ⟨rfl, fun t => .inr (hread t)⟩)).bind
        fun y hy => ⟨h₁.works hy.1 (by simp), hy.2⟩
  · next hd =>
    obtain ⟨-, hb, hout⟩ := (agrees_uncached hd).mp hl.agrees
    have hcov := hl.covers
    rw [holders_out hout] at hcov
    have hzero : (line cfg x₁ r.address).entry.sharers.getNumSharers = 0 :=
      (hcov.num_eq hb).trans (by simp)
    rw [check_pos hzero, ok_bind, sat_bind, DirectoryEntry.sat_addSharer]
    refine (hcov.addSharer_first (t := r.requester) hb).imp (fun _ hf => .inr (.inr hf)) ?_
    rintro ⟨s, added⟩ ⟨hcov', hfit, hb'⟩
    dsimp only at hcov' hfit hb' ⊢
    refine sat_check_bind (fun hadd => ?_) fun hadd => .inr (.inr fun hf => hadd (hfit hf).1)
    rw [sat_bind, DirectoryEntry.sat_setOwner]
    refine ⟨fun hhas => ?_, fun hno => .inr (.inr fun hf => hno (by simpa using (hfit hf).2))⟩
    have hhas : s.hasSharer r.requester = true := by simpa using hhas
    have hG := hl.data.good_getD fun hcd => hl.data.clean (.inl hd) (.inl hcd)
    refine (grant_sat h₁.sound hv hpres hq₁ (hl.not_replaced hq' (requestOf_exReq hr)) ?_).mono
      fun y hy => ⟨h₁.works hy.1 (by simp), hy.2⟩
    exact hl.grantEx (e := ⟨.modified, some r.requester, s⟩) hq' hr hd rfl rfl (hb' hhas)
      (hcov' hadd) (fun _ => hhas) hl.data.fetched rfl rfl rfl hG rfl
  · next h1 h2 h3 h4 =>
    rcases hl.agrees.cases with hd | hd | hd | hd <;> contradiction

section

variable (h : DirSound cfg v x) (hv : cfg.home r.address = v)
  (hpres : (entry cfg.directory x.home.directory r.address).isSome)
  (hl : Calm cfg r.address W k (line cfg x r.address) ph)
  (hq : x.home.reqQueue r.address = ⟨r, i⟩ :: q) (hr : r.type = .shReq)
include h hv hpres hl hq hr

theorem shGrant_sat (hne : (line cfg x r.address).entry.dstate ≠ .modified)
    (he : e.dstate = if (line cfg x r.address).entry.dstate = .uncached then .shared else
      (line cfg x r.address).entry.dstate)
    (ho : e.owner = (line cfg x r.address).entry.owner)
    (hcov : e.sharers.Covers cfg.directory.type cfg.directory.maxHwSharers
      (insert r.requester (holders ph)) ∅)
    (hhas : ∀ u, (line cfg x r.address).entry.sharers.hasSharer u = true →
      e.sharers.hasSharer u = true)
    (hfit : (line cfg x r.address).entry.dstate = .owned → (line cfg x r.address).cached = none →
      ¬ cfg.directory.Fits N) :
    Sat (do pure (← retrieveDataAndSendToL2Cache (setEntry cfg x r.address e)
        r.address .shRep r.requester r.modeled, true)) E
      fun y => Works cfg v r.address x y.1 ∧ Served cfg r.address W k (⟨r, i⟩ :: q) y := by
  have hq' := msgs_queue cfg hq
  have hreads : Reads (msgs (line cfg x r.address)).queue := ⟨_, _, hq', hr⟩
  -- a clean line has its contents in DRAM, and an owned one in the data list
  have hclean : (line cfg x r.address).entry.dstate ≠ .owned →
      Good cfg W ((x.home.dram r.address).getD zeroLine) := by
    intro hno
    refine hl.data.clean ?_ (.inr hreads)
    rcases hl.agrees.cases with hd | hd | hd | hd
    · exact .inl hd
    · exact .inr hd
    · exact absurd hd hno
    · exact absurd hd hne
  have hG := hl.data.good_getD fun hcd => by
    by_cases hd : (line cfg x r.address).entry.dstate = .owned
    · exact fun hf => absurd hf (hfit hd hcd)
    · exact hclean hd
  have hdata : DataInv (Good cfg W) e.dstate (q.map ShmemReq.shmemMsg) none
      (if (line cfg x r.address).cached.isSome then x.home.dram r.address else
        some ((x.home.dram r.address).getD zeroLine)) := by
    refine ⟨by simp, by simp, fun hs _ => ?_, fun _ => hl.data.fetched⟩
    have hno : (line cfg x r.address).entry.dstate ≠ .owned := by
      intro hd
      rw [he, hd] at hs
      simp at hs
    split
    · exact hclean hno
    · exact hclean hno
  refine grant_sat h hv hpres hq (hl.not_replaced hq' (requestOf_shReq hr)) ?_
  exact hl.grantSh hq' hr hne he ho hcov (fun _ => hhas) hdata rfl rfl rfl hG rfl

theorem processShReqSharers_sat (hd : (line cfg x r.address).entry.dstate = .shared ∨
      (line cfg x r.address).entry.dstate = .owned) :
    Sat (processShReqSharers cfg rnd x r (line cfg x r.address).entry)
      (Allowed cfg) fun y => Works cfg v r.address x y.1 ∧
        Served cfg r.address W k (⟨r, i⟩ :: q) y := by
  have hq' := msgs_queue cfg hq
  have hN : 0 < N := Fin.pos v
  have hout : ph r.requester = .out :=
    (hl.port_front hq' (requestOf_shReq hr)).out_of_read rfl
  have hnot : r.requester ∉ holders ph := by simp [mem_holders, hout]
  have hpos : 0 < (line cfg x r.address).entry.sharers.getNumSharers := by
    rcases hd with hd | hd
    · exact ((agrees_shared hd).mp hl.agrees).2.1
    · exact hl.covers.num_pos (hl.holders_nonempty_of_owned hd)
  have hne : (line cfg x r.address).entry.dstate ≠ .modified ∧
      (line cfg x r.address).entry.dstate ≠ .uncached := by
    rcases hd with hd | hd <;> simp [hd]
  -- waiting for a tile leaves the sharers as they are
  have hwait : ∀ (s : Sharers N) (type : MsgType) (id : ℤ), (type = .wbReq ∨ type = .flushReq) →
      s.Covers cfg.directory.type cfg.directory.maxHwSharers (holders ph) ∅ →
      ((line cfg x r.address).entry.sharers.broadcasts = true → s.broadcasts = true) →
      (cfg.directory.Fits N →
        ∀ u, (line cfg x r.address).entry.sharers.hasSharer u = true → s.hasSharer u = true) →
      (cfg.directory.Fits N →
        ∃ t : Fin N, (line cfg x r.address).entry.sharers.hasSharer t = true ∧ tileId t = id) →
      Sat (do
        let x ← (setEntry cfg x r.address
          { (line cfg x r.address).entry with sharers := s }).sendId id
            (toL2 type r.requester r.address none r.modeled)
        pure (setSharerTileId x r.address id, false)) (Allowed cfg)
        fun y => Works cfg v r.address x y.1 ∧ Served cfg r.address W k (⟨r, i⟩ :: q) y := by
    intro s type id hty hcov hb hhas hid
    obtain ⟨hk, hline⟩ := works_setEntry
      (e := { (line cfg x r.address).entry with sharers := s }) h hpres
    have hl' := hl.setSharers (s := s) hd hcov hb (fun hd _ =>
      one_lt_of_notMem (hl.holders_nonempty_of_owned hd) hnot) hhas hN
    have hl' : Calm cfg r.address W k (line cfg (setEntry cfg x r.address
        { (line cfg x r.address).entry with sharers := s }) r.address) ph := by
      rw [hline]; exact hl'
    rw [sat_bind]
    refine sendId_cases (fun hno _ => .inr (.inr fun hf => ?_)) fun t ht => ?_
    · obtain ⟨t, -, ht⟩ := hid hf
      exact hno t ht
    · subst ht
      obtain ⟨hk', hok⟩ := fetch_ok (t := t) r.requester r.modeled
        hk.keeps.sound hv hl' hq hr hty (fun hf => by
          rw [hline]
          obtain ⟨u, hu, hut⟩ := hid hf
          rw [← tileId_injective hut]
          exact hhas hf u hu)
      exact ⟨hk.trans hk', .waits rfl hok⟩
  unfold processShReqSharers
  rw [check_pos hpos, ok_bind]
  refine ((hl.covers.getOneSharer rnd).imp (fun _ hf => .inr (.inr hf)) fun _ h => h).bind
    fun sharer hsh => ?_
  rw [sat_bind, DirectoryEntry.sat_addSharer]
  refine (((hl.covers.addSharer hnot).and hasSharer_addSharer).and
    broadcasts_addSharer).imp (fun _ hf => .inr (.inr hf.1.1)) ?_
  rintro ⟨s, added⟩ ⟨⟨hadd, hhas⟩, hbro⟩
  dsimp only at hadd hhas hbro ⊢
  -- a sharer that is drawn is one the entry reports
  have hdrawn : sharer ≠ invalidTileId → cfg.directory.Fits N →
      ∃ t : Fin N, (line cfg x r.address).entry.sharers.hasSharer t = true ∧ tileId t = sharer := by
    intro hv hf
    obtain ⟨t, -, ht⟩ := (hsh hf).resolve_left fun hn => hv hn.1
    exact ⟨t, ht⟩
  rcases hadd with ⟨rfl, hcov⟩ | ⟨rfl, rfl, hlim, hfull⟩
  · rw [if_neg (by simp)]
    split
    · next hfetch =>
      rw [sat_bind, DirectoryEntry.sat_removeSharer]
      have hrem := hcov.removeSharer (t := r.requester) false
        (.inl (Finset.mem_insert_self _ _)) (by simp)
      have hself : (insert r.requester (holders ph)).erase r.requester = holders ph :=
        Finset.erase_insert hnot
      rw [hself] at hrem
      have hmono : Ensures (s.removeSharer r.requester false) fun s' =>
          cfg.directory.Fits N → ∀ u ≠ r.requester,
            s.hasSharer u = true → s'.hasSharer u = true := by
        by_cases hf : cfg.directory.Fits N
        · exact (hasSharer_removeSharer (hcov.narrow hf)).mono fun _ h _ => h
        · exact .of_forall (fun _ => trivial) fun _ h => absurd h hf
      refine ((hrem.and hmono).and broadcasts_removeSharer).imp (fun _ hf => .inr (.inr hf.1.1)) ?_
      rintro s' ⟨⟨⟨hcov', -⟩, hhas'⟩, hbro'⟩
      refine hwait s' .wbReq sharer (.inl rfl) (by simpa using hcov') (fun hb => hbro' (hbro hb))
        (fun hf u hu => hhas' hf u ?_ (hhas u hu)) (hdrawn hfetch.2)
      rintro rfl
      exact hnot (hl.covers.mem_of_has hf hu)
    · next hgrant =>
      refine shGrant_sat h hv hpres hl hq hr hne.1 (by simp [hne.2]) rfl hcov hhas ?_
      intro hd hc hf
      obtain ⟨-, o, -, hfit, -⟩ := (agrees_owned hd).mp hl.agrees
      rcases hsh hf with ⟨hinv, hnone⟩ | ⟨t, -, -, ht⟩
      · exact absurd ((hnone o).symm.trans (hfit hf)) (by simp)
      · refine hgrant ⟨hc, ?_⟩
        rw [← ht]
        exact Limited.tile_ne_invalid t
  · rw [if_pos rfl]
    refine sat_check_bind (fun hvalid => ?_) fun hinv => .inr (.inr fun hf => ?_)
    · exact hwait _ .flushReq sharer (.inr rfl) hl.covers id (fun _ _ => id) (hdrawn hvalid)
    · obtain ⟨t, ht⟩ := hfull hf
      rcases hsh hf with ⟨-, hnone⟩ | ⟨u, -, -, hu⟩
      · have := ((hl.covers.rep (by simp [hlim])).has_iff hf (by simp [hlim])).mpr ht
        simp [hnone t] at this
      · rw [← hu] at hinv
        exact hinv (Limited.tile_ne_invalid u)

end

theorem processShReqFromL2Cache_sat (h : HomeInv cfg v V cl (· ≠ r.address) x₀ x)
    (hv : cfg.home r.address = v)
    (hl : Calm cfg r.address (V r.address) (cl r.address) (line cfg x r.address) ph)
    (hq : x.home.reqQueue r.address = ⟨r, i⟩ :: q) (hr : r.type = .shReq) :
    Settles cfg v V cl x₀ r.address (⟨r, i⟩ :: q) (processShReqFromL2Cache cfg rnd x r) := by
  refine (entryFor_sat h hv).bind ?_
  rintro ⟨x₁, e⟩ ⟨h₁, hline, hpres, he⟩
  dsimp only at h₁ hline hpres he ⊢
  have hq₁ : x₁.home.reqQueue r.address = ⟨r, i⟩ :: q := (congrArg HomeLine.queue hline).trans hq
  rw [← hline] at hl he
  subst he
  split
  · next hd =>
    obtain ⟨-, o, ho, hfit, -⟩ := (agrees_modified hd).mp hl.agrees
    have ho : (line cfg x₁ r.address).entry.owner = some o := ho
    simp only [sendToOwner, ho, pure_eq_ok, ok_bind, elim_some]
    obtain ⟨hk, hok⟩ := fetch_ok (t := o) r.requester r.modeled
      h₁.sound hv hl hq₁ hr (.inl rfl) hfit
    exact ⟨h₁.works hk (by simp), .waits rfl hok⟩
  · next hd =>
    exact (processShReqSharers_sat h₁.sound hv hpres hl hq₁ hr (.inr hd)).mono
      fun y hy => ⟨h₁.works hy.1 (by simp), hy.2⟩
  · next hd =>
    exact (processShReqSharers_sat h₁.sound hv hpres hl hq₁ hr (.inl hd)).mono
      fun y hy => ⟨h₁.works hy.1 (by simp), hy.2⟩
  · next hd =>
    obtain ⟨-, hb, hout⟩ := (agrees_uncached hd).mp hl.agrees
    have hcov := hl.covers
    rw [holders_out hout] at hcov
    rw [sat_bind, DirectoryEntry.sat_addSharer]
    refine ((hcov.addSharer_first (t := r.requester) hb).and hasSharer_addSharer).imp
      (fun _ hf => .inr (.inr hf.1)) ?_
    rintro ⟨s, added⟩ ⟨⟨hcov', hfit, -⟩, hhas⟩
    dsimp only at hcov' hfit hhas ⊢
    refine sat_check_bind (fun hadd => ?_) fun hadd => .inr (.inr fun hf => hadd (hfit hf).1)
    refine (shGrant_sat (e := ⟨.shared, (line cfg x₁ r.address).entry.owner, s⟩) h₁.sound hv
      hpres hl hq₁ hr (by simp [hd]) (by simp [hd]) rfl ?_ hhas (by simp [hd])).mono
      fun y hy => ⟨h₁.works hy.1 (by simp), hy.2⟩
    rw [holders_out hout]
    simpa using hcov' hadd
  · next h1 h2 h3 h4 =>
    rcases hl.agrees.cases with hd | hd | hd | hd <;> contradiction

/-! ### The queue -/

theorem processReq_sat (h : HomeInv cfg v V cl (· ≠ r.address) x₀ x) (hv : cfg.home r.address = v)
    (hl : LineQuiet cfg r.address (V r.address) (cl r.address) (line cfg x r.address))
    (hq : x.home.reqQueue r.address = ⟨r, i⟩ :: q) (hr : (requestOf r).isSome) :
    Settles cfg v V cl x₀ r.address (⟨r, i⟩ :: q) (processReq cfg rnd x r) := by
  obtain ⟨-, hc, ph, hl⟩ := hl
  unfold processReq
  split
  · next ht => exact processExReqFromL2Cache_sat h hv hl hq ht (.inl hc)
  · next ht => exact processShReqFromL2Cache_sat h hv hl hq ht
  · next h1 h2 => exact absurd (type_of_requestOf hr) (not_or.mpr ⟨h1, h2⟩)

theorem processNextReqFromL2Cache_sat (hv : cfg.home a = v) {Q : List (ShmemReq A N)} :
    ∀ {x : Tile A N}, HomeInv cfg v V cl (· ≠ a) x₀ x → x.home.reqQueue a = Q → Q ≠ [] →
      LineQuiet cfg a (V a) (cl a) { line cfg x a with queue := Q.tail } →
      Restores cfg v V cl x₀ (processNextReqFromL2Cache cfg rnd a Q x) := by
  induction Q with
  | nil => intro x _ _ hne; exact absurd rfl hne
  | cons r₀ Q ih =>
    intro x h hQ _ hl
    have hc : x.home.dataList.lookup a = none := hl.2.1
    have hk : Works cfg v a x (dequeue x a) := works_of_keeps (keeps_dequeue h.sound) rfl
    have hline : line cfg (dequeue x a) a = { line cfg x a with queue := Q } := by
      rw [line, homeLine_dequeue, hQ]; rfl
    have hl₁ : LineQuiet cfg a (V a) (cl a) (line cfg (dequeue x a) a) := by
      rw [hline]; exact hl
    have h₁ := h.works hk (by simp)
    cases Q with
    | nil =>
      unfold processNextReqFromL2Cache
      rw [check_pos (by simp [cachedData, hc]), ok_bind]
      exact h₁.all (hl₁.ok (by rw [hline]))
    | cons r Q =>
      have hQ₁ : (dequeue x a).home.reqQueue a = r :: Q := by simp [dequeue, hQ]
      obtain ⟨hrep, -, ph, hinv⟩ := hl
      obtain ⟨ha, hr⟩ := hinv.requests r.shmemMsg (by simp [msgs])
      have hr : (requestOf r.shmemMsg).isSome := hr.resolve_right fun hn =>
        hrep (hinv.replaced.mpr ⟨r.shmemMsg, Q.map ShmemReq.shmemMsg, rfl, hn⟩)
      subst ha
      unfold processNextReqFromL2Cache
      rw [check_pos (by simp [cachedData, hc]), ok_bind]
      refine (processReq_sat h₁ hv hl₁ hQ₁ hr).bind ?_
      rintro ⟨x₂, done⟩ ⟨h₂, hserved⟩
      dsimp only at h₂ hserved ⊢
      cases done with
      | false => exact h₂.all hserved.of_waits
      | true => exact ih h₂ hserved.of_done.1 (by simp) hserved.of_done.2

theorem finish_sat {o : Except Fault (Tile A N × Bool)} (hv : cfg.home a = v)
    (h : Settles cfg v V cl x₀ a (⟨r, i⟩ :: q) o) : Restores cfg v V cl x₀ (do finish cfg rnd a (← o)) := by
  refine h.bind ?_
  rintro ⟨x, done⟩ ⟨h, hs⟩
  unfold finish
  dsimp only at h ⊢
  cases done with
  | false => exact h.all hs.of_waits
  | true =>
    obtain ⟨hq, hs⟩ := hs.of_done
    rw [if_pos rfl, hq]
    exact processNextReqFromL2Cache_sat hv h hq (by simp) hs

/-! ### Replies -/

section Reply

variable {cl₀ : Fin N → Client A N} {ms : List (ShmemMsg A N)} {sender : Fin N} {R : Finset (Fin N)}

section
omit [DecidableEq A]

/-- What is asked by the front of `q` after `sender` has answered. -/
abbrev askAfter (q : List (ShmemReq A N)) (sender : Fin N) : Fin N → Ask :=
  update (askOf q) sender (askOf q sender).answered

theorem askAfter_eq {q : List (ShmemReq A N)} (h : askOf q sender ≠ .fetch) :
    askAfter q sender = askOf q := by
  have hans : (askOf q sender).answered = askOf q sender := by
    cases hk : askOf q sender <;> simp_all [Ask.answered]
  rw [askAfter, hans, update_eq_self]

theorem askAfter_fetch (h : r.type = .shReq) (hs : i = tileId sender) :
    askAfter (⟨r, i⟩ :: q) sender = fun _ => .none := by
  rw [askAfter, askOf_fetch h hs]
  funext u
  by_cases hu : u = sender <;> simp [hu, Ask.answered]

end

theorem restartShmemReq_sat (hv : cfg.home a = v) (h : HomeInv cfg v V cl (· ≠ a) x₀ x)
    (hw : Waiting (⟨r, i⟩ :: q)) (hq : x.home.reqQueue a = ⟨r, i⟩ :: q)
    (hl : ∃ ph R, LineInv cfg.directory a (Good cfg (V a)) (cl a) (msgs (line cfg x a))
      (askAfter (⟨r, i⟩ :: q) sender) ph R) :
    Restores cfg v V cl x₀ (restartShmemReq cfg rnd x a sender ⟨r, i⟩ (line cfg x a).entry.dstate) := by
  obtain ⟨ph, R, hl⟩ := hl
  have hq' : (line cfg x a).queue = ⟨r, i⟩ :: q := hq
  obtain ⟨ha, hreq⟩ := hl.requests r (by simp [msgs, hq'])
  subst ha
  -- a request for the whole line waits until the line is UNCACHED
  have hok : r.type ≠ .shReq → LineOk cfg r.address (V r.address)
      (cl r.address) (line cfg x r.address) := by
    intro hne
    refine ⟨by rw [hq']; exact hw, ph, R, ?_⟩
    rw [askAfter_eq (by simp [askOf_clear hne])] at hl
    rwa [hq']
  unfold restartShmemReq
  dsimp only
  split
  · next hr =>
    split
    · next hd =>
      exact finish_sat hv (processExReqFromL2Cache_sat h hv (hl.calm hd) hq hr (.inr hd))
    · exact h.all (hok (by simp [hr]))
  · next hr =>
    obtain ⟨t, rfl : i = tileId t⟩ := hw ⟨r, i⟩ (by simp) hr
    rw [check_pos (show tileId t ≠ invalidTileId from Limited.tile_ne_invalid t), ok_bind]
    split
    · next hsend =>
      rw [askAfter_fetch hr hsend.symm] at hl
      obtain rfl := hl.pending_eq_empty (by simp)
      have hk : Works cfg v r.address x (setSharerTileId x r.address invalidTileId) :=
        works_setSharerTileId h.sound
      have hline := line_setSharerTileId cfg invalidTileId hq
      have hl' : Calm cfg r.address (V r.address) (cl r.address)
          (line cfg (setSharerTileId x r.address invalidTileId) r.address)
          ph := by
        rw [hline, Calm]
        have hmsgs : msgs { line cfg x r.address with
            queue := ⟨r, invalidTileId⟩ :: q } =
            msgs (line cfg x r.address) := by simp [msgs, hq']
        rw [hmsgs]
        exact hl
      refine finish_sat hv (processShReqFromL2Cache_sat (i := invalidTileId) (q := q)
        (h.works hk (by simp)) hv hl' ?_ hr)
      simp [setSharerTileId, hq]
    · next hsend =>
      refine h.all ⟨by rw [hq']; exact hw, ph, R, ?_⟩
      have hne : sender ≠ t := by rintro rfl; exact hsend rfl
      rw [askAfter_eq (by simp [askOf_fetch hr rfl, hne])] at hl
      rwa [hq']
  · next hr =>
    split
    · next hd =>
      exact finish_sat hv ((processNullifyReq_sat h.sound hv (hl.calm hd) hq hr).mono
        fun y hy => ⟨h.works hy.1 (by simp), hy.2⟩)
    · exact h.all (hok (by simp [hr]))
  · next h1 h2 h3 =>
    exact absurd (type_of_requestOf (hreq.resolve_right h3)) (not_or.mpr ⟨h1, h2⟩)

theorem restartFront_sat (hv : cfg.home a = v) (h : HomeInv cfg v V cl (· ≠ a) x₀ x)
    (hw : Waiting (x.home.reqQueue a))
    (hl : ∃ ph R, LineInv cfg.directory a (Good cfg (V a)) (cl a) (msgs (line cfg x a))
      (askAfter (x.home.reqQueue a) sender) ph R) :
    Restores cfg v V cl x₀ (restartFront cfg rnd x a sender (line cfg x a).entry.dstate) := by
  unfold restartFront
  split
  · next hq =>
    rw [hq, askAfter_eq (by simp [askOf])] at hl
    have hq' : (line cfg x a).queue = [] := hq
    exact h.all ⟨by rw [hq']; exact hq ▸ hw, by rw [hq']; exact hl⟩
  · next r q hq =>
    rw [hq] at hl hw
    exact restartShmemReq_sat hv h hw hq hl

theorem processInvRepFromL2Cache_sat (hv : cfg.home m.address = v)
    (h : HomeInv cfg v V cl (· ≠ m.address) x₀ x)
    (hl : LineOk cfg m.address (V m.address) cl₀ (line cfg x m.address))
    (hup : (cl₀ sender).up = m :: ms)
    (hcl : cl m.address = update cl₀ sender { cl₀ sender with up := ms })
    (hm : m.type = .invRep) :
    Restores cfg v V cl x₀ (processInvRepFromL2Cache cfg rnd x sender m) := by
  obtain ⟨hw, ph, R, hl⟩ := hl
  obtain ⟨hR, -, p, hans, hpop⟩ := hl.popReply hup (replyOf_eq (.inl hm))
  rw [← hcl] at hpop
  rw [hm] at hans
  unfold processInvRepFromL2Cache
  refine getEntry_sat h.sound hv (present_of_dstate (hans.not_uncached hl.agrees hl.covers hR))
    fun d hk hline hpres => ?_
  refine ((invRepEntry_sat hl.agrees hl.covers hans rfl hR).imp (fun _ hf => .inr (.inr hf))
    fun _ h => h).bind fun e hrep => ?_
  obtain ⟨hk₂, hline₂⟩ := works_readEntry (e := e) hk hline hpres
  have hl₂ := hpop e _ _ hrep.agrees hrep.covers hrep.has (hl.data.reply hrep.before hrep.after
    fun hu => (hrep.clean hu).resolve_right (by simp))
  have hd₂ : (line cfg (setEntry cfg (withDirectory x d) m.address e) m.address).entry.dstate =
      e.dstate := by rw [hline₂]
  dsimp only
  rw [← hd₂]
  refine restartFront_sat hv (h.works hk₂ (by simp)) hw ?_
  rw [hline₂]
  exact ⟨_, _, hl₂⟩

omit [DecidableEq A] in
theorem Good.mismatch {c d : LineData} (hc : Good cfg W c) (hd : Good cfg W d)
    (hne : readBytes d 0 cfg.lineSize ≠ readBytes c 0 cfg.lineSize) :
    ¬ cfg.directory.Fits N :=
  fun hf => hne (by rw [hc hf, hd hf])

section

variable (hv : cfg.home m.address = v) (h : HomeInv cfg v V cl (· ≠ m.address) x₀ x)
  (hl : LineOk cfg m.address (V m.address) cl₀ (line cfg x m.address))
  (hup : (cl₀ sender).up = m :: ms)
  (hcl : cl m.address = update cl₀ sender { cl₀ sender with up := ms })
include hv h hl hup hcl

theorem processFlushRepFromL2Cache_sat (hm : m.type = .flushRep) :
    Restores cfg v V cl x₀ (processFlushRepFromL2Cache cfg rnd x sender m) := by
  obtain ⟨hw, ph, R, hl⟩ := hl
  obtain ⟨hR, -, p, hans, hpop⟩ := hl.popReply hup (replyOf_eq (.inr (.inl hm)))
  obtain ⟨d, hdat, hG⟩ := (hl.port sender).dataRep (by simp [hup]) (.inl hm)
  rw [← hcl] at hpop
  rw [hm] at hans
  unfold processFlushRepFromL2Cache
  refine getEntry_sat h.sound hv (present_of_dstate (hans.not_uncached hl.agrees hl.covers hR))
    fun dir hk hline hpres => ?_
  refine ((flushRepEntry_sat hl.agrees hl.covers hans rfl hR).imp (fun _ hf => .inr (.inr hf))
    fun _ h => h).bind fun e hrep => ?_
  obtain ⟨hk₂, hline₂⟩ := works_readEntry (e := e) hk hline hpres
  have hstored : (x.home.dram m.address).isSome := hl.data.stored (.inl hrep.before)
  have hpop := fun cached dram => hpop e cached dram hrep.agrees hrep.covers hrep.has
  have h₂ := h.works hk₂ (by simp)
  dsimp only
  rw [hdat, show (setEntry cfg (withDirectory x dir) m.address e).home.reqQueue = x.home.reqQueue from rfl]
  split
  · next hq =>
    rw [putDataToDram_eq (by exact hstored)]
    refine (h₂.works (works_setDram (d := some d) h₂.sound) (by simp)).all ?_
    rw [line_setDram, hline₂]
    have hq' : (line cfg x m.address).queue = [] := hq
    have hl₂ := hpop (line cfg x m.address).cached (some d)
      (hl.data.writeBack (by simp [msgs, hq']) hG)
    rw [hq', ← askAfter, askAfter_eq (by simp [askOf]), ← hq'] at hl₂
    exact ⟨hw, _, _, hl₂⟩
  · next r q hq =>
    have hq' : (line cfg x m.address).queue = r :: q := hq
    have hne : (msgs (line cfg x m.address)).queue ≠ [] := by simp [msgs, hq']
    rw [hq'] at hw hpop
    refine (insertData_sat h₂.sound (fun c hc hne => .inr (.inr ((hl.data.good c hc).mismatch hG hne)))
      (.inr (.inl rfl))).bind fun x₃ hx₃ => ?_
    obtain ⟨hk₃, hline₃⟩ := hx₃
    rw [hline₂] at hline₃
    have h₃ := h₂.works hk₃ (by simp)
    have hq₃ : x₃.home.reqQueue m.address = r :: q := (congrArg HomeLine.queue hline₃).trans hq
    have hdr₃ : x₃.home.dram m.address = x.home.dram m.address := congrArg HomeLine.dram hline₃
    have hd₃ : (line cfg x₃ m.address).entry.dstate = e.dstate := by rw [hline₃]
    split
    · -- the data go to DRAM as well
      rw [putDataToDram_eq (by rw [hdr₃]; exact hstored), ok_bind]
      rw [show e.dstate = (line cfg (setDram x₃ m.address (some d)) m.address).entry.dstate by
        rw [line_setDram]; exact hd₃.symm]
      refine restartShmemReq_sat hv (h₃.works (works_setDram h₃.sound) (by simp)) hw hq₃ ?_
      rw [line_setDram, hline₃]
      exact ⟨_, _, hpop _ _ (hl.data.insert hne hrep.after hG rfl fun _ _ => hG)⟩
    · next hno =>
      rw [pure_eq_ok, ok_bind, ← hd₃]
      refine restartShmemReq_sat hv h₃ hw hq₃ ?_
      rw [hline₃]
      have hd := hl.data.insert hne hrep.after hG hstored fun hreads hu => ?_
      · exact ⟨_, _, hpop _ _ hd⟩
      obtain ⟨r', q', hr', hty⟩ := hreads
      rcases hrep.clean hu with hs | ⟨-, hs⟩
      · exact hl.data.clean (.inr hs) (.inr ⟨r', q', hr', hty⟩)
      · have hmq : (msgs (line cfg x m.address)).queue = r.shmemMsg :: q.map ShmemReq.shmemMsg := by
          simp [msgs, hq']
        obtain ⟨rfl, -⟩ := List.cons.inj (hr'.symm.trans hmq)
        exact absurd ⟨hty, hs, hu.symm⟩ hno

theorem processWbRepFromL2Cache_sat (hm : m.type = .wbRep) :
    Restores cfg v V cl x₀ (processWbRepFromL2Cache cfg rnd x sender m) := by
  obtain ⟨hw, ph, R, hl⟩ := hl
  obtain ⟨hR, hask, p, hans, hpop⟩ := hl.popReply hup (replyOf_eq (.inr (.inr hm)))
  obtain ⟨d, hdat, hG⟩ := (hl.port sender).dataRep (by simp [hup]) (.inr hm)
  rw [← hcl] at hpop
  rw [hm] at hans
  have hask := hask hans.isWb
  have hre : m.replyExpected = false := hans.wb_cases.1
  unfold processWbRepFromL2Cache
  refine getEntry_sat h.sound hv (present_of_dstate (hans.not_uncached hl.agrees hl.covers hR))
    fun dir hk hline hpres => ?_
  obtain ⟨r, q, hq⟩ : ∃ r q, x.home.reqQueue m.address = r :: q := by
    cases hq : x.home.reqQueue m.address with
    | nil => simp [askOf, line, hq] at hask
    | cons r q => exact ⟨r, q, rfl⟩
  have hq' : (line cfg x m.address).queue = r :: q := hq
  rw [check_pos hre, ok_bind, show (!(x.home.reqQueue m.address).isEmpty) = true by simp [hq]]
  refine ((wbRepEntry_sat hl.agrees hl.covers hans fun hf => hl.fetch hf sender hask).imp
    (fun _ hf => .inr (.inr hf)) fun _ h => h).bind fun e hrep => ?_
  obtain ⟨hk₂, hline₂⟩ := works_readEntry (e := e) hk hline hpres
  have h₂ := h.works hk₂ (by simp)
  dsimp only
  rw [show (setEntry cfg (withDirectory x dir) m.address e).home.reqQueue m.address = r :: q from hq,
    hdat]
  refine (insertData_sat h₂.sound (fun c hc hne => .inr (.inr ((hl.data.good c hc).mismatch hG hne)))
    (.inr (.inl rfl))).bind fun x₃ hx₃ => ?_
  obtain ⟨hk₃, hline₃⟩ := hx₃
  rw [hline₂] at hline₃
  have hq₃ : x₃.home.reqQueue m.address = r :: q := (congrArg HomeLine.queue hline₃).trans hq
  rw [show e.dstate = (line cfg x₃ m.address).entry.dstate by rw [hline₃]]
  rw [hq'] at hw hpop
  refine restartShmemReq_sat hv (h₂.works hk₃ (by simp)) hw hq₃ ?_
  rw [hline₃]
  have hd := hl.data.insert (by simp [msgs, hq']) hrep.after hG (hl.data.stored (.inl hrep.before))
    fun hreads hu => hl.data.clean (.inr ((hrep.clean hu).resolve_right (by simp))) (.inr hreads)
  exact ⟨_, _, hpop e _ _ hrep.agrees hrep.covers hrep.has hd⟩

theorem queueReq_sat (hm : (requestOf m).isSome) : Restores cfg v V cl x₀ (queueReq cfg rnd x m) := by
  obtain ⟨kk, hkk⟩ := isSome_iff_exists.mp hm
  have hdat : m.dataBuf = none := by
    obtain ⟨-, ph, R, hl⟩ := hl
    rcases (hl.port sender).upOk m (by simp [hup]) with ⟨-, -, hd, -⟩ | ⟨ht, -⟩ | ⟨ht, -⟩ | ⟨ht, -⟩
    · exact hd
    all_goals simp [requestOf, ht] at hkk
  rw [queueReq, check_pos (by simp [hdat]), ok_bind]
  have h₁ := h.works (works_of_keeps (keeps_enqueue (a := m.address)
    (r := (⟨m, invalidTileId⟩ : ShmemReq A N)) h.sound) rfl) (by simp)
  dsimp only
  split
  · next hlen =>
    have hq : x.home.reqQueue m.address = [] := by simpa [enqueue] using hlen
    obtain ⟨hc, ph, hcalm⟩ := hl.calm hq
    have hc' : (enqueue x m.address ⟨m, invalidTileId⟩).home.dataList.lookup m.address = none := hc
    rw [check_pos (by simp [cachedData, hc']), ok_bind]
    have hl₁ := hcalm.popRequest hup hkk rfl
    rw [← hcl] at hl₁
    rw [← msgs_enqueue (i := invalidTileId)] at hl₁
    have hq₁ : (enqueue x m.address ⟨m, invalidTileId⟩).home.reqQueue m.address =
        [⟨m, invalidTileId⟩] := by simp [enqueue, hq]
    have hnr : ¬ (line cfg (enqueue x m.address ⟨m, invalidTileId⟩) m.address).replaced :=
      hl₁.not_replaced (msgs_queue _ hq₁) hkk
    refine finish_sat hv (processReq_sat h₁ hv ⟨hnr, ?_, ph, hl₁⟩ hq₁ hm)
    rw [line_enqueue]; exact hc
  · next hlen =>
    obtain ⟨r, q, hq⟩ : ∃ r q, x.home.reqQueue m.address = r :: q := by
      cases hq : x.home.reqQueue m.address with
      | nil => simp [enqueue, hq] at hlen
      | cons r q => exact ⟨r, q, rfl⟩
    obtain ⟨hw, ph, R, hl⟩ := hl
    have hl₁ := hl.popRequest hup hkk rfl
    have hq' : (line cfg x m.address).queue = r :: q := hq
    have hq₁ : (line cfg (enqueue x m.address ⟨m, invalidTileId⟩) m.address).queue =
        r :: (q ++ [⟨m, invalidTileId⟩]) := by rw [line_enqueue, hq]; rfl
    rw [hq'] at hw hl₁
    rw [← hcl] at hl₁
    refine h₁.all ⟨?_, ph, R, ?_⟩
    · rw [hq₁]
      simpa [Waiting] using hw
    · rw [hq₁, msgs_enqueue]
      exact hl₁

/-- The directory controller of tile `v` handles the first message of tile `sender` about a line. -/
theorem handleMsgFromL2Cache_sat : Restores cfg v V cl x₀ (handleMsgFromL2Cache cfg rnd x sender m) := by
  have hok : UpOk sender m := by
    obtain ⟨-, ph, R, hl⟩ := hl
    exact (hl.port sender).upOk m (by simp [hup])
  unfold handleMsgFromL2Cache
  split
  · next ht => exact queueReq_sat hv h hl hup hcl (by simp [requestOf, ht])
  · next ht => exact queueReq_sat hv h hl hup hcl (by simp [requestOf, ht])
  · next ht => exact processInvRepFromL2Cache_sat hv h hl hup hcl ht
  · next ht => exact processFlushRepFromL2Cache_sat hv h hl hup hcl ht
  · next ht => exact processWbRepFromL2Cache_sat hv h hl hup hcl ht
  · next h1 h2 h3 h4 h5 =>
    rcases hok with ⟨hreq, -⟩ | ⟨ht, -⟩ | ⟨ht, -⟩ | ⟨ht, -⟩
    · unfold requestOf at hreq
      cases ht : m.type <;> simp_all
    · exact absurd ht h3
    · exact absurd ht h4
    · exact absurd ht h5

end

end Reply

end Specs

end Graphite.Mosi
