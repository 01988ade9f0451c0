import Graphite.PrL2.Clients
import Graphite.PrL2.Home

/-! # Runs of a machine with private L2 caches

`Rules` is what the controllers of a protocol have to guarantee: the memory system works line by line,
a step of a tile as a client or as a home leaves every line in order, and a copy has the contents of
the line. From the rules follows one invariant of all runs, `Coherent`, in which the contents of a line
are those after the latest store. What a protocol says about contents may rest on the field `Exact` of
its view.
-/

namespace Graphite.PrL2

open Outcome SetAssoc Function List

variable {A : Type} [DecidableEq A] {N : ℕ} {H L : Type}

def Event.apply (V : A → LineData) : Event A N → A → LineData
  | .load _ _ _ _ => V
  | .store _ a offset bytes => update V a (writeBytes (V a) offset bytes)

/-- The contents of the lines after the stores of a trace. -/
def latest (V : A → LineData) (tr : List (Event A N)) : A → LineData := tr.foldl Event.apply V

/-- Every load of the trace returns the bytes of the latest store. -/
def LoadsLatest (V : A → LineData) (tr : List (Event A N)) : Prop :=
  ∀ pre t a offset bytes post, tr = pre ++ .load t a offset bytes :: post →
    bytes = readBytes (latest V pre a) offset bytes.length

/-- Each tile uses each line through one of its L1 caches only. -/
def Through (via : Fin N → Route A) : Action A N → Prop
  | .access t acc _ => acc.component = (via t).comp acc.address
  | _ => True

/-- How a protocol describes the home of a line, given the controller and the messages on the way to the
clients; when a line is in order; what it demands of a home as a whole; and when it keeps the contents of
lines. -/
structure View (A : Type) (N : ℕ) (H L : Type) where
  home : H → (Fin N → List (ShmemMsg A N)) → A → L
  Ok : A → LineData → (Fin N → Client A N) → L → Prop
  Sound : Fin N → Tile A N H → Prop
  Exact : Prop

/-- The home of line `a`. -/
def View.at (W : View A N H L) (x : Tile A N H) (a : A) : L := W.home x.home (x.down a) a

section Rules

variable (p : Protocol) (cfg : Config A N) (via : Fin N → Route A)
  (handle : Fin N → Fin N → Choice → ShmemMsg A N → Tile A N H → Except Fault (Tile A N H))
  (E : Fault → Prop) (W : View A N H L)

structure Rules : Prop where
  copies {a : A} {V : LineData} {cl : Fin N → Client A N} {h : L} {t : Fin N} {st : CacheState}
    {d : LineData} : W.Ok a V cl h → (cl t).copy = some (st, d) → (W.Exact → d = V) ∧ st ≠ .exclusive
  store {a : A} {V : LineData} {cl : Fin N → Client A N} {h : L} {t : Fin N} {d : LineData} :
    W.Ok a V cl h → (cl t).copy = some (.modified, d) → ∀ V' d' : LineData, (W.Exact → d' = V') →
      W.Ok a V' (update cl t { cl t with copy := some (.modified, d') }) h
  sound {t : Fin N} {x x' : Tile A N H} : W.Sound t x → x'.home = x.home → W.Sound t x'
  /-- The L2 handles the request of an access. -/
  fromL1 {t : Fin N} (ch : Choice) {acc : Access A} (x : Tile A N H) (V : A → LineData)
    (cl : A → Fin N → Client A N) (hl : A → L) : Issued cfg (via t) acc → x.app = .waiting acc 1 →
    CacheInv cfg t (via t) (fun b => p = .msi ∧ b = acc.address) x →
    (∀ u, ∀ m ∈ x.out u, Routed cfg t u m) → x.fromL1 t = [] → x.outstanding = none →
    Lacks cfg t x acc → (p = .msi → l1Copy cfg t (via t) x acc.address = none) →
    (∀ b, W.Ok b (V b) (cl b) (hl b)) → (∀ b, cl b t = client cfg t x b) →
    Sat (handle t t ch (request cfg t acc) x) E (ClientStep p cfg t (via t) W.Ok V cl hl x)
  /-- The L2 handles a message of the home `h` of a line. -/
  fromDirectory {t : Fin N} {ch : Choice} {m : ShmemMsg A N} {x : Tile A N H} (V : A → LineData)
    (cl : A → Fin N → Client A N) (hl : A → L) {h : H} {down : Fin N → List (ShmemMsg A N)}
    {ms : List (ShmemMsg A N)} : TileInv p cfg t (via t) x → x.app.Open → ch.Ok cfg t →
    m.receiverComponent = .l2Cache → m.senderComponent = .dramDirectory →
    (∀ b, W.Ok b (V b) (cl b) (hl b)) → (∀ b, cl b t = client cfg t x b) →
    hl m.address = W.home h down m.address → down t = m :: ms →
    Sat (handle t (cfg.home m.address) ch m x) E (ClientStep p cfg t (via t) W.Ok V cl
      (update hl m.address (W.home h (update down t ms) m.address)) x)
  /-- The home of a line handles a message of the client `src`. -/
  toDirectory {v src : Fin N} {ch : Choice} {m : ShmemMsg A N} {x : Tile A N H} (V : A → LineData)
    (cl : A → Fin N → Client A N) (cl₀ : Fin N → Client A N) {ms : List (ShmemMsg A N)} :
    cfg.home m.address = v → m.receiverComponent = .dramDirectory → m.senderComponent = .l2Cache →
    W.Sound v x → (∀ b, cfg.home b = v → b ≠ m.address → W.Ok b (V b) (cl b) (W.at x b)) →
    W.Ok m.address (V m.address) cl₀ (W.at x m.address) → (cl₀ src).up = m :: ms →
    cl m.address = update cl₀ src { cl₀ src with up := ms } →
    Sat (handle v src ch m x) E fun x' => SameClient cfg v x x' ∧ W.Sound v x' ∧
      ∀ b, cfg.home b = v → W.Ok b (V b) (cl b) (W.at x' b)

/-- The machine is in order, and the contents of the lines are `V`. -/
structure Coherent (V : A → LineData) (s : State A N H) : Prop where
  lines : ∀ a, W.Ok a (V a) (fun t => client cfg t (s t) a) (W.at (s (cfg.home a)) a)
  tiles : ∀ t, TileInv p cfg t (via t) (s t)
  sound : ∀ t, W.Sound t (s t)

end Rules

variable {p : Protocol} {cfg : Config A N} {via : Fin N → Route A} {route : Route A}
  {handle : Fin N → Fin N → Choice → ShmemMsg A N → Tile A N H → Except Fault (Tile A N H)}
  {E : Fault → Prop} {W : View A N H L} {V : A → LineData} {s : State A N H} {t src dst : Fin N}
  {acc : Access A} {ch : Choice} {x x' : Tile A N H} {m : ShmemMsg A N} {ms : List (ShmemMsg A N)}

/-! ### Traces -/

theorem latest_append (V : A → LineData) (tr out : List (Event A N)) :
    latest V (tr ++ out) = latest (latest V tr) out := foldl_append

theorem LoadsLatest.append {tr out : List (Event A N)} (h : LoadsLatest V tr)
    (h' : LoadsLatest (latest V tr) out) : LoadsLatest V (tr ++ out) := by
  intro pre t a offset bytes post he
  rcases append_eq_append_iff.mp he with ⟨u, hpre, hout⟩ | ⟨u, htr, hpost⟩
  · subst hpre
    rw [latest_append]
    exact h' u t a offset bytes post hout
  · cases u with
    | nil =>
      simp only [append_nil, nil_append] at htr hpost
      subst htr
      exact h' [] t a offset bytes post hpost.symm
    | cons e u =>
      obtain ⟨rfl, -⟩ := cons.inj hpost
      exact h pre t a offset bytes u htr

theorem loadsLatest_singleton {ev : Event A N} (h : ∀ t a offset bytes, ev = .load t a offset bytes →
    bytes = readBytes (V a) offset bytes.length) : LoadsLatest V [ev] := by
  intro pre t a offset bytes post he
  cases pre with
  | nil => exact h t a offset bytes (cons.inj he).1
  | cons e pre => simp at he

@[simp] theorem length_readBytes {d : LineData} {offset n : ℕ} : (readBytes d offset n).length = n := by
  simp [readBytes]

/-! ### Tiles -/

theorem TileInv.pop {d : Fin N} (h : TileInv p cfg t route x) (hm : x.out d = m :: ms)
    (hne : isFromL1 m = false) : TileInv p cfg t route (x.pop d) where
  cache := h.cache.congr rfl rfl rfl
  routed := routed_pop h.routed
  thread := by
    have := h.thread
    unfold ThreadInv at this ⊢
    rw [fromL1_pop hm hne]
    exact this
  gone := h.gone

theorem TileInv.of_fromL1 (h : TileInv p cfg t route x) (hm : x.fromL1 t = m :: ms) :
    ∃ acc, x.app = .waiting acc 1 ∧ Issued cfg route acc ∧ m = request cfg t acc ∧ ms = [] ∧
      x.outstanding = none ∧ Lacks cfg t x acc := by
  have ht := h.thread
  unfold ThreadInv at ht
  cases ha : x.app with
  | idle => simp [ha, hm] at ht
  | locked a => simp [ha, hm] at ht
  | granted acc n => simp [ha, hm] at ht
  | waiting acc n =>
    simp only [ha, hm, cons.injEq, reduceCtorEq, false_and, or_false] at ht
    obtain ⟨rfl, hiss, ⟨rfl, rfl⟩, hout, hlack⟩ := ht
    exact ⟨acc, rfl, hiss, rfl, rfl, hout, hlack⟩

theorem TileInv.sameClient (h : TileInv p cfg t route x) (hs : SameClient cfg t x x') :
    TileInv p cfg t route x' := by
  have hmiss : ∀ b, Missing p x' b ↔ Missing p x b := fun b => by
    simp [Missing, hs.app, hs.outstanding]
  refine ⟨(h.cache.congr hs.l1i hs.l1d hs.l2).mono fun b hb => (hmiss b).mpr hb, hs.routed h.routed, ?_,
    fun b hb => by rw [l1Copy_congr hs.l1i hs.l1d]; exact h.gone b ((hmiss b).mp hb)⟩
  have := h.thread
  unfold ThreadInv at this ⊢
  simp only [hs.app, hs.fromL1, hs.outstanding, l1Copy_congr hs.l1i hs.l1d, Permits, Lacks, copy,
    hs.l2] at this ⊢
  exact this

theorem SameClient.client_eq (hs : SameClient cfg t x x') (b : A) :
    client cfg t x' b = client cfg t x b := by
  simp only [client, copy, Tile.waits, hs.l2, hs.outstanding, hs.up]

theorem View.at_congr {b : A} (hh : x'.home = x.home) (hd : ∀ u, x'.down b u = x.down b u) :
    W.at x' b = W.at x b := by
  rw [View.at, View.at, hh, funext hd]

section
omit [DecidableEq A]

theorem State.pop_apply (s : State A N H) (src dst u : Fin N) :
    s.pop src dst u = if u = src then (s u).pop dst else s u := by
  by_cases hu : u = src
  · subst hu; simp [State.pop, Tile.pop]
  · simp [State.pop, hu]

variable (dst) in
theorem State.forall_pop {P : Fin N → Tile A N H → Prop} (h : ∀ u, P u (s u))
    (hsrc : P src ((s src).pop dst)) (u : Fin N) : P u (s.pop src dst u) := by
  rw [s.pop_apply]
  split
  · next hu => subst hu; exact hsrc
  · exact h u

theorem State.pop_app (s : State A N H) (src dst u : Fin N) : (s.pop src dst u).app = (s u).app := by
  rw [s.pop_apply]
  split <;> rfl

end

variable (cfg) in
theorem client_pop (hm : (s src).out dst = m :: ms) (hr : m.receiverComponent = .l2Cache) (b : A) :
    ∀ u, client cfg u (s.pop src dst u) b = client cfg u (s u) b := by
  intro u
  rw [s.pop_apply]
  split
  · next hu => subst hu; simp only [client, up_pop_of_l2 hm hr]; rfl
  · rfl

/-! ### Steps -/

theorem Coherent.access (hR : Rules p cfg via handle E W) (h : Coherent p cfg via W V s)
    {y : Tile A N H × List (Event A N)} (ht : TileInv p cfg t (via t) y.1) (hs : SameHome cfg (s t) y.1)
    (he : Effect cfg t (s t) acc y) :
    Coherent p cfg via W (latest V y.2) (update s t y.1) ∧ (W.Exact → LoadsLatest V y.2) := by
  have hat : ∀ a, W.at (update s t y.1 (cfg.home a)) a = W.at (s (cfg.home a)) a := by
    intro a
    by_cases hv : cfg.home a = t
    · rw [hv, update_self]
      exact View.at_congr hs.home (hs.down a)
    · rw [update_of_ne hv]
  have hclient : ∀ a, (fun u => client cfg u (update s t y.1 u) a) =
      update (fun u => client cfg u (s u) a) t
        { client cfg t (s t) a with copy := copy cfg t y.1 a } := by
    intro a
    funext u
    by_cases hu : u = t
    · subst hu
      simp only [update_self, client, Tile.waits, hs.outstanding, hs.up]
    · simp [hu]
  have hsame : ∀ a, copy cfg t y.1 a = copy cfg t (s t) a →
      W.Ok a (V a) (fun u => client cfg u (update s t y.1 u) a)
        (W.at (update s t y.1 (cfg.home a)) a) := by
    intro a ha
    rw [hat, hclient, ha]
    have : update (fun u => client cfg u (s u) a) t
        { client cfg t (s t) a with copy := copy cfg t (s t) a } = fun u => client cfg u (s u) a :=
      update_eq_self t _
    rw [this]
    exact h.lines a
  have htiles : ∀ u, TileInv p cfg u (via u) (update s t y.1 u) :=
    (forall_update_iff s fun u => TileInv p cfg u (via u)).mpr ⟨ht, fun u _ => h.tiles u⟩
  have hsound : ∀ u, W.Sound u (update s t y.1 u) :=
    (forall_update_iff s W.Sound).mpr ⟨hR.sound (h.sound t) hs.home, fun u _ => h.sound u⟩
  rcases he with ⟨hev, hcp⟩ | ⟨st, d, hc, hev, hcp⟩ | ⟨d, hc, hev, hcp⟩
  · rw [hev]
    exact ⟨⟨fun a => hsame a (hcp a), htiles, hsound⟩, by simp [LoadsLatest]⟩
  · rw [hev]
    have hd := (hR.copies (h.lines acc.address) hc).1
    refine ⟨⟨fun a => hsame a (hcp a), htiles, hsound⟩, fun hx => loadsLatest_singleton ?_⟩
    rintro u a offset bytes ⟨⟩
    simp [hd hx]
  · rw [hev]
    refine ⟨⟨fun a => ?_, htiles, hsound⟩,
      fun _ => loadsLatest_singleton fun _ _ _ _ h => by cases h⟩
    by_cases ha : a = acc.address
    · subst ha
      rw [hat, hclient, hcp, if_pos rfl]
      have hd := (hR.copies (h.lines acc.address) hc).1
      refine hR.store (h.lines acc.address) hc _ _ fun hx => ?_
      simp [latest, Event.apply, hd hx]
    · have := hsame a (by rw [hcp, if_neg ha])
      simpa [latest, Event.apply, ha] using this

/-- What a step has to establish: the next state is in order, the loads are right, and the application
threads have moved on. -/
def Good (p : Protocol) (cfg : Config A N) (via : Fin N → Route A) (W : View A N H L) (V : A → LineData)
    (s : State A N H) (act : Action A N) (r : State A N H × List (Event A N)) : Prop :=
  Coherent p cfg via W (latest V r.2) r.1 ∧ (W.Exact → LoadsLatest V r.2) ∧
    AppStep (fun t => (s t).app) (fun t => (r.1 t).app) act

section

variable (hR : Rules p cfg via handle E W)
include hR

theorem Coherent.memOp {n : ℕ} {F : Fault → Prop} (h : Coherent p cfg via W V s)
    (happ : ∀ acc n, (s t).app ≠ .waiting acc n) (hl1 : (s t).fromL1 t = [])
    (hout : (s t).outstanding = none) (hacc : acc.WellFormed cfg)
    (hd : acc.component = (via t).comp acc.address) (hn : n = 1 ∨ n = 2)
    (hperm : acc.lock = .unlock ∨ n = 2 → Permits cfg t (via t) (s t) acc) (hch : ch.Ok cfg t) :
    Sat (do
      let (x, evs) ← L1.processMemOpFromCore p cfg t (s t) (ch.l1Way acc.component) acc n
      pure (update s t x, evs)) F fun r => Coherent p cfg via W (latest V r.2) r.1 ∧
        (W.Exact → LoadsLatest V r.2) ∧ Attempted acc n (r.1 t).app ∧ ∀ u ≠ t, (r.1 u).app = (s u).app := by
  have htile := h.tiles t
  have hc : CacheInv cfg t (via t) (fun _ => False) (s t) :=
    htile.cache.mono fun b ⟨_, _, acc', n', hw, _⟩ => happ acc' n' hw
  have hst : ∀ d, copy cfg t (s t) acc.address ≠ some (.exclusive, d) := fun d hd =>
    (hR.copies (h.lines acc.address) hd).2 rfl
  have hway := hch.l1Way acc.component
  rw [show L1.geometry cfg t acc.component = _ from congrArg _ hd] at hway
  refine (processMemOpFromCore_sat hc htile.routed hl1 hout hacc hd hn hperm hst hway).bind ?_
  rintro y ⟨ht, hs, he, ha⟩
  obtain ⟨hco, hloads⟩ := h.access hR ht hs he
  exact ⟨hco, hloads, by simpa using ha, fun u hu => by simp [hu]⟩

theorem Coherent.toDirectory (h : Coherent p cfg via W V s)
    (hm : (s src).out dst = m :: ms) (hr : m.receiverComponent = .dramDirectory)
    (hsc : m.senderComponent = .l2Cache) (hdst : dst = cfg.home m.address) :
    Sat (handle dst src ch m (s.pop src dst dst)) E fun x =>
      Coherent p cfg via W V (update (s.pop src dst) dst x) ∧ Handled (s dst).app x.app := by
  have hpop := s.pop_apply src dst
  obtain ⟨hup, hup'⟩ := up_pop hm hr hdst
  have hclient : ∀ b, b ≠ m.address → ∀ u, client cfg u (s.pop src dst u) b = client cfg u (s u) b := by
    intro b hb u
    rw [hpop]
    split
    · next hu => subst hu; simp only [client, hup' b hb]; rfl
    · rfl
  have hat : ∀ b u, W.at (s.pop src dst u) b = W.at (s u) b := by
    intro b u
    rw [hpop]
    split
    · next hu => subst hu; exact View.at_congr rfl fun w => down_pop_of_ne hm (.inl (by simp [hr]))
    · rfl
  have htile : ∀ u, TileInv p cfg u (via u) (s.pop src dst u) :=
    s.forall_pop dst h.tiles ((h.tiles src).pop hm (isFromL1_of_ne (by simp [hr])))
  have hsound := s.forall_pop dst h.sound (hR.sound (h.sound src) rfl)
  refine (hR.toDirectory V (fun b u => client cfg u (s.pop src dst u) b)
    (fun u => client cfg u (s u) m.address) hdst.symm hr hsc (hsound dst) ?_ ?_ hup ?_).mono ?_
  · intro b hb hne
    rw [hat, funext (hclient b hne), ← hb]
    exact h.lines b
  · rw [hat, hdst]
    exact h.lines m.address
  · funext u
    by_cases hu : u = src
    · subst hu; simp [hpop]; rfl
    · simp [hpop, hu]
  · rintro x ⟨hs, hx, hlines⟩
    refine ⟨⟨fun b => ?_, fun u => ?_, fun u => ?_⟩, .inl (hs.app.trans (s.pop_app src dst dst))⟩
    · have hcl : (fun u => client cfg u (update (s.pop src dst) dst x u) b) =
          fun u => client cfg u (s.pop src dst u) b := by
        funext u
        by_cases hu : u = dst
        · subst hu; simpa using hs.client_eq b
        · simp [hu]
      rw [hcl]
      by_cases hb : cfg.home b = dst
      · rw [hb, update_self]
        exact hlines b hb
      · rw [update_of_ne hb, hat]
        have hne : b ≠ m.address := fun e => hb (by rw [e, hdst])
        rw [funext (hclient b hne)]
        exact h.lines b
    · exact (forall_update_iff _ fun u => TileInv p cfg u (via u)).mpr
        ⟨(htile dst).sameClient hs, fun u _ => htile u⟩ u
    · exact (forall_update_iff _ W.Sound).mpr ⟨hx, fun u _ => hsound u⟩ u

theorem Coherent.of_clientStep {s' : State A N H} {cl : A → Fin N → Client A N} {hl : A → L} (hcl : ∀ b u, u ≠ t → client cfg u (s' u) b = cl b u)
    (htiles : ∀ u ≠ t, TileInv p cfg u (via u) (s' u)) (hsound : ∀ u, W.Sound u (s' u))
    (hat : ∀ b, W.at (s' (cfg.home b)) b = hl b)
    (hstep : ClientStep p cfg t (via t) W.Ok V cl hl (s' t) x) :
    Coherent p cfg via W V (update s' t x) where
  lines b := by
    have hclient : (fun u => client cfg u (update s' t x u) b) =
        update (cl b) t (client cfg t x b) := by
      funext u
      by_cases hu : u = t
      · subst hu; simp
      · simp [hu, hcl b u hu]
    have hhome : W.at (update s' t x (cfg.home b)) b = hl b := by
      rw [← hat]
      by_cases hb : cfg.home b = t
      · rw [hb, update_self]
        exact View.at_congr hstep.home (hstep.down b)
      · rw [update_of_ne hb]
    rw [hclient, hhome]
    exact hstep.lines b
  tiles := (forall_update_iff s' fun u => TileInv p cfg u (via u)).mpr ⟨hstep.tile, htiles⟩
  sound := (forall_update_iff s' W.Sound).mpr ⟨hR.sound (hsound t) hstep.home, fun u _ => hsound u⟩

section

variable (h : Coherent p cfg via W V s)
include h

theorem Coherent.fromDirectory
    (hm : (s src).out dst = m :: ms) (hr : m.receiverComponent = .l2Cache)
    (hsc : m.senderComponent = .dramDirectory) (hsrc : src = cfg.home m.address)
    (hopen : (s dst).app.Open) (hch : ch.Ok cfg dst) :
    Sat (handle dst src ch m (s.pop src dst dst)) E fun x =>
      Coherent p cfg via W V (update (s.pop src dst) dst x) ∧ Handled (s dst).app x.app := by
  have hpop := s.pop_apply src dst
  obtain ⟨hdown, hdown'⟩ := down_pop hm hr hsc
  have hclient := client_pop cfg hm hr
  have htile : ∀ u, TileInv p cfg u (via u) (s.pop src dst u) :=
    s.forall_pop dst h.tiles ((h.tiles src).pop hm (by simp [isFromL1, hsc]))
  have hsound := s.forall_pop dst h.sound (hR.sound (h.sound src) rfl)
  have hopen' : (s.pop src dst dst).app.Open := by rw [s.pop_app]; exact hopen
  have hstep := hR.fromDirectory V (fun b u => client cfg u (s u) b)
    (fun b => W.at (s (cfg.home b)) b) (htile dst) hopen' hch hr hsc h.lines
    (fun b => (hclient b dst).symm) rfl (hsrc ▸ hdown)
  rw [← hsrc] at hstep
  refine hstep.mono fun x hx => ⟨.of_clientStep hR (fun b u _ => hclient b u) (fun u _ => htile u) hsound
    (fun b => ?_) hx, by have := hx.app; rwa [s.pop_app] at this⟩
  by_cases hb : b = m.address
  · subst hb
    rw [← hsrc, update_self, hpop, if_pos rfl, View.at]
    congr 1
    funext u
    by_cases hu : u = dst
    · subst hu; simp
    · simpa [hu] using hdown' m.address u (fun e => hu e.2)
  · rw [update_of_ne hb, hpop]
    split
    · next hv => rw [hv]; exact View.at_congr rfl fun u => hdown' b u fun e => hb e.1
    · rfl

theorem Coherent.fromL1 (hm : (s t).out t = m :: ms) (hl1 : isFromL1 m = true) :
    Sat (handle t t ch m (s.pop t t t)) E fun x =>
      Coherent p cfg via W V (update (s.pop t t) t x) ∧ Handled (s t).app x.app := by
  obtain ⟨hr, hsc⟩ := isFromL1_iff.mp hl1
  have hpop := s.pop_apply t t
  have hl1 := fromL1_pop_self hm hl1
  have htile := h.tiles t
  have hpopt : s.pop t t t = (s t).pop t := by rw [hpop, if_pos rfl]
  have hclient := client_pop cfg hm hr
  have hsound := s.forall_pop t h.sound (hR.sound (h.sound t) rfl)
  obtain ⟨acc, happ, hiss, rfl, hrest, hout, hlack⟩ := htile.of_fromL1 hl1
  have hmiss : ∀ b, Missing p (s t) b → p = .msi ∧ b = acc.address := by
    rintro b ⟨hp, -, acc', n, hw, rfl⟩
    obtain ⟨rfl, -⟩ := App.waiting.inj (happ.symm.trans hw)
    exact ⟨hp, rfl⟩
  have hgone : p = .msi → l1Copy cfg t (via t) (s t) acc.address = none := fun hp =>
    htile.gone _ ⟨hp, hout, acc, 1, happ, rfl⟩
  have hstep := hR.fromL1 ch (s.pop t t t) V (fun b u => client cfg u (s u) b)
    (fun b => W.at (s (cfg.home b)) b) hiss (by rw [hpopt]; exact happ)
    (by rw [hpopt]; exact (htile.cache.mono hmiss).congr rfl rfl rfl)
    (by rw [hpopt]; exact routed_pop htile.routed) (by rw [hpopt]; exact hrest)
    (by rw [hpopt]; exact hout) (by rw [hpopt]; exact hlack) (by rw [hpopt]; exact hgone) h.lines
    (fun b => (hclient b t).symm)
  refine hstep.mono fun x hx => ⟨.of_clientStep hR (fun b u _ => hclient b u) (fun u hu => ?_) hsound
    (fun b => ?_) hx, by have := hx.app; rwa [s.pop_app] at this⟩
  · rw [hpop, if_neg hu]
    exact h.tiles u
  · rw [hpop]
    split
    · next hv =>
      rw [hv]
      exact View.at_congr rfl fun u => down_pop_of_ne hm (.inr (by rcases hsc with h | h <;> simp [h]))
    · rfl

/-- Every step of the machine keeps it in order, and only a message can make it stop. -/
theorem Coherent.step {act : Action A N} (hvia : Through via act) (hen : enabled cfg s act) :
    Sat (step p cfg handle s act) (fun e => E e ∧ act.IsDeliver) (Good p cfg via W V s act) := by
  cases act with
  | access t acc ch =>
    obtain ⟨hacc, hch, hst⟩ := hen
    have ht := (h.tiles t).thread
    unfold ThreadInv at ht
    cases happ : (s t).app with
    | idle =>
      rw [happ] at hst ht
      exact h.memOp hR (by simp [happ]) ht.1 ht.2 hacc hvia (.inl rfl)
        (fun hu => absurd (hu.resolve_right (by simp)) hst) hch
    | locked a =>
      rw [happ] at hst ht
      obtain ⟨hl1, hout, d, hd⟩ := ht
      obtain ⟨hu, rfl⟩ := hst
      refine h.memOp hR (by simp [happ]) hl1 hout hacc hvia (.inl rfl) (fun _ => ?_) hch
      exact ⟨.modified, d, hd, by rw [hacc.2.2.2.2 hu]; rfl⟩
    | waiting acc' n => simp [happ, App.Accepts] at hst
    | granted acc' n => simp [happ, App.Accepts] at hst
  | resume t ch =>
    obtain ⟨hch, hst⟩ := hen
    have ht := (h.tiles t).thread
    unfold ThreadInv at ht
    cases happ : (s t).app with
    | idle => simp [happ, App.Woken] at hst
    | locked a => simp [happ, App.Woken] at hst
    | waiting acc n => simp [happ, App.Woken] at hst
    | granted acc n =>
      rw [happ] at ht
      obtain ⟨hl1, hout, rfl, hiss, hperm⟩ := ht
      simp only [PrL2.step, happ]
      refine (h.memOp hR (by simp [happ]) hl1 hout hiss.1 hiss.2.1 (.inr rfl) (fun _ => hperm) hch).mono ?_
      rintro r ⟨hco, hloads, hatt, hother⟩
      refine ⟨hco, hloads, fun acc' n' hg => ?_, hother⟩
      obtain ⟨rfl, -⟩ := App.granted.inj (happ.symm.trans hg)
      exact hatt.resolve_right fun h => absurd h.1 (by decide)
  | deliver src dst ch =>
    obtain ⟨hch, hne, hopen⟩ := hen
    obtain ⟨m, ms, hm⟩ := exists_cons_of_ne_nil hne
    simp only [PrL2.step, hm]
    have hgood : Sat (handle dst src ch m (s.pop src dst dst)) E fun x =>
        Coherent p cfg via W V (update (s.pop src dst) dst x) ∧ Handled (s dst).app x.app := by
      rcases (h.tiles src).routed dst m (by simp [hm]) with ⟨hr, hsc, hv⟩ | ⟨hr, hsc, hv⟩ | ⟨hl1, rfl⟩
      · exact h.toDirectory hR hm hr hsc hv
      · exact h.fromDirectory hR hm hr hsc hv hopen hch
      · exact h.fromL1 hR hm hl1
    refine (hgood.imp (fun e he => ⟨he, trivial⟩) fun x hx => hx).bind fun x hx =>
      ⟨hx.1, by simp [LoadsLatest], by simpa using hx.2, fun u hu => ?_⟩
    simp [hu, s.pop_app]

end

end

/-! ### Runs -/

theorem Coherent.init {init : Fin N → H → Prop} (hs : (system p cfg handle init).init s)
    (hlines : ∀ a h, init (cfg.home a) h → W.Ok a (V a) (fun _ => ⟨none, none, []⟩)
      (W.home h (fun _ => []) a))
    (hsound : ∀ t, init t (s t).home → W.Sound t (s t)) : Coherent p cfg via W V s where
  lines a := by
    have hclient : (fun t => client cfg t (s t) a) = fun _ => ⟨none, none, []⟩ := by
      funext t
      obtain ⟨-, -, -, hl2, hout, -, hch⟩ := hs t
      simp [client, copy, Tile.waits, Tile.up, hl2, hout, hch]
    obtain ⟨hi, -, -, -, -, -, hch⟩ := hs (cfg.home a)
    have hdown : (s (cfg.home a)).down a = fun _ => [] := by
      funext u
      simp [Tile.down, hch]
    rw [hclient, View.at, hdown]
    exact hlines a _ hi
  tiles t := by
    obtain ⟨-, hl1i, hl1d, hl2, hout, happ, hch⟩ := hs t
    refine ⟨.empty hl1i hl1d hl2, by simp [hch], ?_, ?_⟩
    · simp [ThreadInv, happ, Tile.fromL1, hch, hout]
    · rintro a ⟨-, -, acc, n, hw, -⟩
      simp [happ] at hw
  sound t := hsound t (hs t).1

/-- A run that has shown `tr` is in order with the contents after `tr`, and its loads are right. -/
structure RunInv (p : Protocol) (cfg : Config A N) (via : Fin N → Route A) (W : View A N H L) (V : A → LineData)
    (tr : List (Event A N)) (s : State A N H) : Prop where
  coherent : Coherent p cfg via W (latest V tr) s
  loads : W.Exact → LoadsLatest V tr

theorem RunInv.step {tr : List (Event A N)} (hR : Rules p cfg via handle E W) (h : RunInv p cfg via W V tr s)
    {act : Action A N} (hvia : Through via act) (hen : enabled cfg s act) :
    Sat (PrL2.step p cfg handle s act) E fun r => RunInv p cfg via W V (tr ++ r.2) r.1 :=
  (h.coherent.step hR hvia hen).imp (fun _ => And.left) fun _ hr =>
    ⟨by rw [latest_append]; exact hr.1, fun hx => (h.loads hx).append (hr.2.1 hx)⟩

omit [DecidableEq A] in
theorem through_data {act : Action A N} (h : DataOnly act) : Through (fun _ => .data) act := by
  cases act <;> exact h

/-! ### Small machines -/

def initial (home : Fin N → H) : State A N H := fun t =>
  ⟨SetAssoc.empty, SetAssoc.empty, SetAssoc.empty, none, .idle, home t, fun _ => []⟩

/-- A machine with one line, whose home is tile 0, and room for one sharer in a limited entry. -/
def oneLine (N : ℕ) (type : DirectoryType) : Config Unit (N + 1) where
  home _ := 0
  l1i _ := ⟨fun _ => 0, 1⟩
  l1d _ := ⟨fun _ => 0, 1⟩
  l2 _ := ⟨fun _ => 0, 1⟩
  directory := ⟨⟨fun _ => 0, 1⟩, type, 1⟩
  isApplicationTile _ := true
  lineSize := 1

/-- The accesses and deliveries in such a machine; no choice is left open. -/
def load (t : Fin N) : Action Unit N := .access t ⟨.l1DCache, .none, .read, (), 0, [0]⟩ ⟨0, 0, 0, 0⟩

def store (t : Fin N) (b : UInt8) : Action Unit N :=
  .access t ⟨.l1DCache, .none, .write, (), 0, [b]⟩ ⟨0, 0, 0, 0⟩

def msg (src dst : Fin N) : Action Unit N := .deliver src dst ⟨0, 0, 0, 0⟩

def retry (t : Fin N) : Action Unit N := .resume t ⟨0, 0, 0, 0⟩

end Graphite.PrL2
