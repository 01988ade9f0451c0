import Graphite.PrL2.Views

/-! # The home of a line

What the operations of the directory controller do to the lines homed at its tile.
Each changes one line and leaves the others, and the tile as a client, alone.
-/

namespace Graphite.PrL2

open Outcome SetAssoc DirectoryCache Directory Directory List

variable {A : Type} [DecidableEq A] {N : ℕ} {H R D : Type}

/-- The home of line `a` while the controller has `cached` in hand for it. -/
def homeLine (cfg : Config A N) (x : Tile A N (Home A N R D)) (a : A) (cached : Option LineData) : HomeLine A N R :=
  ⟨(entry cfg.directory x.home.directory a).getD (newEntry cfg.directory N),
    a ∈ x.home.directory.replaced.map Prod.fst, x.home.reqQueue a, cached, x.home.dram a, x.down a⟩

/-- The directory of tile `v` is well-formed and has entries of lines homed at `v` only. -/
structure DirSound (cfg : Config A N) (v : Fin N) (x : Tile A N (Home A N R D)) : Prop where
  wf : WellFormed cfg.directory x.home.directory
  homed : ∀ b, (entry cfg.directory x.home.directory b).isSome → cfg.home b = v

/-- A tile and its channels as the L2 controller sees them. -/
structure SameClient (cfg : Config A N) (v : Fin N) (x x' : Tile A N H) : Prop where
  l1i : x'.l1i = x.l1i
  l1d : x'.l1d = x.l1d
  l2 : x'.l2 = x.l2
  outstanding : x'.outstanding = x.outstanding
  app : x'.app = x.app
  up : ∀ b, x'.up cfg b = x.up cfg b
  fromL1 : ∀ t, x'.fromL1 t = x.fromL1 t
  routed : (∀ u, ∀ m ∈ x.out u, Routed cfg v u m) → ∀ u, ∀ m ∈ x'.out u, Routed cfg v u m

/-- From `x` to `x'` the directory controller of tile `v` has worked on line `a` only. -/
structure Keeps (cfg : Config A N) (v : Fin N) (a : A) (x x' : Tile A N (Home A N R D)) : Prop where
  client : SameClient cfg v x x'
  sound : DirSound cfg v x'
  line : ∀ b ≠ a, ∀ c, homeLine cfg x' b c = homeLine cfg x b c
  present : ∀ b ≠ a, (entry cfg.directory x.home.directory b).isSome →
    (entry cfg.directory x'.home.directory b).isSome

variable {cfg : Config A N} {v u : Fin N} {a : A} {x x' x'' : Tile A N (Home A N R D)} {m : ShmemMsg A N} {r : R}
  {c : Option LineData} {e : DirectoryEntry N} {E : Fault → Prop} {d : DirectoryCache A N}

theorem SameClient.refl : SameClient cfg v x x :=
  ⟨rfl, rfl, rfl, rfl, rfl, fun _ => rfl, fun _ => rfl, fun h => h⟩

theorem SameClient.trans (h : SameClient cfg v x x') (h' : SameClient cfg v x' x'') :
    SameClient cfg v x x'' where
  l1i := h'.l1i.trans h.l1i
  l1d := h'.l1d.trans h.l1d
  l2 := h'.l2.trans h.l2
  outstanding := h'.outstanding.trans h.outstanding
  app := h'.app.trans h.app
  up b := (h'.up b).trans (h.up b)
  fromL1 t := (h'.fromL1 t).trans (h.fromL1 t)
  routed hx := h'.routed (h.routed hx)

theorem SameClient.of_home {h : Home A N R D} : SameClient cfg v x { x with home := h } :=
  ⟨rfl, rfl, rfl, rfl, rfl, fun _ => rfl, fun _ => rfl, fun h => h⟩

theorem DirSound.congr (h : DirSound cfg v x) (hd : x'.home.directory = x.home.directory) :
    DirSound cfg v x' :=
  ⟨hd ▸ h.wf, hd ▸ h.homed⟩

@[simp] theorem down_home {h : Home A N R D} : Tile.down { x with home := h } a = x.down a := rfl

theorem Keeps.refl (h : DirSound cfg v x) : Keeps cfg v a x x := ⟨.refl, h, fun _ _ _ => rfl, fun _ _ hb => hb⟩

theorem Keeps.trans (h : Keeps cfg v a x x') (h' : Keeps cfg v a x' x'') : Keeps cfg v a x x'' :=
  ⟨h.client.trans h'.client, h'.sound, fun b hb c => (h'.line b hb c).trans (h.line b hb c),
    fun b hb he => h'.present b hb (h.present b hb he)⟩

/-! ### Queue and DRAM -/

@[simp] theorem homeLine_queue : (homeLine cfg x a c).queue = x.home.reqQueue a := rfl

@[simp] theorem homeLine_cached : (homeLine cfg x a c).cached = c := rfl

@[simp] theorem homeLine_dram : (homeLine cfg x a c).dram = x.home.dram a := rfl

theorem keeps_enqueue (h : DirSound cfg v x) : Keeps cfg v a x (enqueue x a r) :=
  ⟨.of_home, h.congr rfl, fun b hb c => by simp [homeLine, enqueue, hb], fun _ _ hb => hb⟩

theorem homeLine_enqueue : homeLine cfg (enqueue x a r) a c =
    { homeLine cfg x a c with queue := x.home.reqQueue a ++ [r] } := by
  simp [homeLine, enqueue]

theorem keeps_dequeue (h : DirSound cfg v x) : Keeps cfg v a x (dequeue x a) :=
  ⟨.of_home, h.congr rfl, fun b hb c => by simp [homeLine, dequeue, hb], fun _ _ hb => hb⟩

theorem homeLine_dequeue : homeLine cfg (dequeue x a) a c =
    { homeLine cfg x a c with queue := (x.home.reqQueue a).tail } := by
  simp [homeLine, dequeue]

theorem keeps_setDram {d : Option LineData} (h : DirSound cfg v x) :
    Keeps cfg v a x (setDram x a d) :=
  ⟨.of_home, h.congr rfl, fun b hb c => by simp [homeLine, setDram, hb], fun _ _ hb => hb⟩

theorem homeLine_setDram {d : Option LineData} : homeLine cfg (setDram x a d) a c =
    { homeLine cfg x a c with dram := d } := by
  simp [homeLine, setDram]

/-! ### Messages -/

theorem isFromDirectory_iff : isFromDirectory a m = true ↔
    m.receiverComponent = .l2Cache ∧ m.senderComponent = .dramDirectory ∧ m.address = a := by
  simp [isFromDirectory, and_assoc]

theorem keeps_send (h : DirSound cfg v x) (hv : cfg.home a = v) (hm : isFromDirectory a m = true) :
    Keeps cfg v a x (x.send u m) := by
  obtain ⟨hr, hs, rfl⟩ := isFromDirectory_iff.mp hm
  exact
    { client :=
        { l1i := rfl
          l1d := rfl
          l2 := rfl
          outstanding := rfl
          app := rfl
          up := fun b => up_send_of_l2 hr
          fromL1 := fun t => fromL1_send (by simp [isFromL1, hs])
          routed := fun hx => routed_send hx (.inr (.inl ⟨hr, hs, hv.symm⟩)) }
      sound := h.congr rfl
      line := fun b hb c => by
        have : (x.send u m).down b = x.down b := by
          funext w
          rw [down_send hr hs, if_neg fun hw => hb hw.1]
        rw [homeLine, this]
        rfl
      present := fun _ _ hb => hb }

theorem homeLine_send (hm : isFromDirectory a m = true) :
    homeLine cfg (x.send u m) a c = { homeLine cfg x a c with
      down := Function.update (homeLine cfg x a c).down u ((homeLine cfg x a c).down u ++ [m]) } := by
  obtain ⟨hr, hs, rfl⟩ := isFromDirectory_iff.mp hm
  have : (x.send u m).down m.address =
      Function.update (x.down m.address) u (x.down m.address u ++ [m]) := by
    funext w
    rw [down_send hr hs]
    by_cases hw : w = u
    · subst hw; simp
    · simp [hw]
  rw [homeLine, this]
  rfl

/-- From `x` to `x'` some copies of `m`, a message about line `a`, were sent. -/
structure Sends (cfg : Config A N) (v : Fin N) (a : A) (m : ShmemMsg A N) (x x' : Tile A N (Home A N R D)) :
    Prop where
  keeps : Keeps cfg v a x x'
  home : x'.home = x.home
  down : ∀ t, ∃ n, x'.down a t = x.down a t ++ replicate n m

theorem Sends.line_eq (h : Sends cfg v a m x x') :
    homeLine cfg x' a c = { homeLine cfg x a c with down := x'.down a } := by
  simp only [homeLine, h.home]

theorem Sends.refl (h : DirSound cfg v x) : Sends cfg v a m x x :=
  ⟨.refl h, rfl, fun _ => ⟨0, by simp⟩⟩

theorem Sends.trans (h : Sends cfg v a m x x') (h' : Sends cfg v a m x' x'') :
    Sends cfg v a m x x'' where
  keeps := h.keeps.trans h'.keeps
  home := h'.home.trans h.home
  down t := by
    obtain ⟨n, hn⟩ := h.down t
    obtain ⟨n', hn'⟩ := h'.down t
    exact ⟨n + n', by rw [hn', hn, append_assoc, replicate_append_replicate]⟩

section

variable (h : DirSound cfg v x) (hv : cfg.home a = v) (hm : isFromDirectory a m = true)
include h hv hm

theorem sends_send : Sends cfg v a m x (x.send u m) where
  keeps := keeps_send h hv hm
  home := rfl
  down t := by
    obtain ⟨hr, hs, rfl⟩ := isFromDirectory_iff.mp hm
    rw [down_send hr hs]
    by_cases ht : t = u
    · exact ⟨1, by simp [ht]⟩
    · exact ⟨0, by simp [ht]⟩

theorem sends_broadcast : Sends cfg v a m x (x.broadcast m) := by
  obtain ⟨hr, hs, rfl⟩ := isFromDirectory_iff.mp hm
  refine ⟨⟨⟨rfl, rfl, rfl, rfl, rfl, fun b => ?_, fun t => ?_, fun hx w m' hm' => ?_⟩, h.congr rfl,
    fun b hb c => ?_, fun _ _ hb => hb⟩, rfl, fun t => ⟨1, ?_⟩⟩
  · simp [Tile.up, Tile.broadcast, isToDirectory, hr]
  · simp [Tile.fromL1, Tile.broadcast, isFromL1, hs]
  · rcases (by simpa [Tile.broadcast] using hm' : m' ∈ x.out w ∨ m' = m) with h' | rfl
    · exact hx w m' h'
    · exact .inr (.inl ⟨hr, hs, hv.symm⟩)
  · have : (x.broadcast m).down b = x.down b := by
      funext w
      simp [Tile.down, Tile.broadcast, isFromDirectory, Ne.symm hb]
    rw [homeLine, this]
    rfl
  · simp [Tile.down, Tile.broadcast, isFromDirectory, hr, hs]

end

theorem down_broadcast (hm : isFromDirectory a m = true) (t : Fin N) :
    (x.broadcast m).down a t = x.down a t ++ [m] := by
  simp [Tile.down, Tile.broadcast, hm]

omit [DecidableEq A] in
theorem sendId_cases {id : ℤ} {Q : Tile A N (Home A N R D) → Prop}
    (hid : (∀ t : Fin N, tileId t ≠ id) → ∀ e, E e) (hQ : ∀ t : Fin N, tileId t = id → Q (x.send t m)) :
    Sat (x.sendId id m) E Q := by
  unfold Tile.sendId
  split
  · next h => exact hQ _ (by simp [tileId, h.1])
  · next hne =>
    refine hid (fun t ht => hne ?_) _
    rw [← ht, tileId]
    have := t.isLt
    omega

section

variable (h : DirSound cfg v x) (hv : cfg.home a = v) (hm : isFromDirectory a m = true)
include h hv hm

theorem sendId_sat {id : ℤ} (hid : (∀ t : Fin N, tileId t ≠ id) → ∀ e, E e) :
    Sat (x.sendId id m) E fun x' => Sends cfg v a m x x' :=
  sendId_cases hid fun _ _ => sends_send h hv hm

theorem sendAll_sat {ids : List ℤ} (hid : ∀ id ∈ ids, (∀ t : Fin N, tileId t ≠ id) → ∀ e, E e) :
    Sat (ids.foldlM (fun x id => x.sendId id m) x) E fun x' => Sends cfg v a m x x' := by
  induction ids generalizing x with
  | nil => exact Sends.refl h
  | cons id ids ih =>
    rw [foldlM_cons]
    refine (sendId_sat h hv hm (hid id (by simp))).bind fun x₁ h₁ => ?_
    exact (ih h₁.keeps.sound fun id' hid' => hid id' (by simp [hid'])).mono fun _ h₂ => h₁.trans h₂

end

/-! ### The directory -/

theorem keeps_withDirectory (hwf : WellFormed cfg.directory d)
    (hhomed : ∀ b, (entry cfg.directory d b).isSome → cfg.home b = v)
    (he : ∀ b ≠ a, entry cfg.directory d b = entry cfg.directory x.home.directory b)
    (hrep : ∀ b ≠ a, b ∈ d.replaced.map Prod.fst ↔ b ∈ x.home.directory.replaced.map Prod.fst) :
    Keeps cfg v a x (withDirectory x d) where
  client := .of_home
  sound := ⟨hwf, hhomed⟩
  line b hb c := by
    simp only [homeLine, withDirectory, down_home]
    rw [he b hb, propext (hrep b hb)]
  present b hb := by simp [withDirectory, he b hb]

theorem getDirectoryEntry_line (h : DirSound cfg v x) (hv : cfg.home a = v)
    (hg : x.home.directory.getDirectoryEntry cfg.directory a = (d, some e)) :
    Keeps cfg v a x (withDirectory x d) ∧
      (∀ c, homeLine cfg (withDirectory x d) a c = homeLine cfg x a c) ∧
      (entry cfg.directory d a).isSome ∧ e = (homeLine cfg x a none).entry := by
  obtain ⟨hwf, hent, he, hrep⟩ := h.wf.getDirectoryEntry_some hg
  refine ⟨keeps_withDirectory hwf (fun b hb => ?_) (fun b hb => by rw [hent, if_neg hb])
    (fun b _ => by rw [hrep]), fun c => ?_, by simp [hent], he⟩
  · by_cases hba : b = a
    · rw [hba, hv]
    · rw [hent, if_neg hba] at hb; exact h.homed b hb
  · simp only [homeLine, withDirectory, down_home, hent, if_true, Option.getD_some, he, hrep]

theorem present_of_dstate (hd : (homeLine cfg x a none).entry.dstate ≠ .uncached) :
    (entry cfg.directory x.home.directory a).isSome := by
  by_contra hn
  rw [homeLine, Option.not_isSome_iff_eq_none.mp hn] at hd
  exact hd rfl

theorem present_of_replaced (h : DirSound cfg v x)
    (hrep : a ∈ x.home.directory.replaced.map Prod.fst) :
    (entry cfg.directory x.home.directory a).isSome := by
  by_contra hn
  rw [Option.not_isSome_iff_eq_none, entry_of_get_none (h.wf.absent _ hrep),
    DirectoryCache.lookup_eq_none_iff] at hn
  exact hn hrep

/-- A handler that reads the entry of a line that has one. -/
theorem getEntry_sat {β : Type} {f : DirectoryCache A N → DirectoryEntry N → Except Fault β} {F : Fault}
    {E : Fault → Prop} {Q : β → Prop} (h : DirSound cfg v x) (hv : cfg.home a = v)
    (hp : (entry cfg.directory x.home.directory a).isSome)
    (hf : ∀ d, Keeps cfg v a x (withDirectory x d) →
      (∀ c, homeLine cfg (withDirectory x d) a c = homeLine cfg x a c) →
      (entry cfg.directory d a).isSome → Sat (f d (homeLine cfg x a none).entry) E Q) :
    Sat (match x.home.directory.getDirectoryEntry cfg.directory a with
      | (_, none) => throw F
      | (d, some e) => f d e) E Q := by
  split
  · next d hg => simp [(h.wf.getDirectoryEntry_none hg).2.1] at hp
  · next d e hg =>
    obtain ⟨hk, hline, hpres, rfl⟩ := getDirectoryEntry_line h hv hg
    exact hf d hk hline hpres

theorem setEntry_line (h : DirSound cfg v x) (ha : (entry cfg.directory x.home.directory a).isSome) :
    Keeps cfg v a x (setEntry cfg x a e) ∧
      (∀ c, homeLine cfg (setEntry cfg x a e) a c = { homeLine cfg x a c with entry := e }) ∧
      (entry cfg.directory (setEntry cfg x a e).home.directory a).isSome := by
  obtain ⟨hwf, hent, hrep⟩ := h.wf.setDirectoryEntry (e := e) ha
  refine ⟨keeps_withDirectory hwf (fun b hb => ?_) (fun b hb => by rw [hent, if_neg hb])
    (fun b _ => by rw [hrep]), fun c => ?_, ?_⟩
  · by_cases hba : b = a
    · exact hba ▸ h.homed a ha
    · rw [hent, if_neg hba] at hb; exact h.homed b hb
  · simp only [setEntry, homeLine, withDirectory, down_home, hent, if_true, Option.getD_some, hrep]
  · simp [setEntry, withDirectory, hent]

omit [DecidableEq A] in
theorem replacementCandidate_spec {cands : List (A × DirectoryEntry N)} {b : A}
    (h : replacementCandidate x cands = some (b, e)) :
    (b, e) ∈ cands ∧ x.home.reqQueue b = [] := by
  have key : ∀ (cs : List (A × DirectoryEntry N)) (best : Option (A × DirectoryEntry N)),
      cs.foldl (fun best c =>
        if (best.all fun b => b.2.sharers.getNumSharers > c.2.sharers.getNumSharers) ∧
          (x.home.reqQueue c.1).isEmpty then some c else best) best = some (b, e) →
      best = some (b, e) ∨ (b, e) ∈ cs ∧ x.home.reqQueue b = [] := by
    intro cs
    induction cs with
    | nil => exact fun _ h => .inl h
    | cons c cs ih =>
      intro best hbest
      simp only [foldl_cons] at hbest
      rcases ih _ hbest with h | ⟨h, hq⟩
      · split at h
        · next hc =>
          obtain rfl := Option.some.inj h
          exact .inr ⟨by simp, isEmpty_iff.mp hc.2⟩
        · exact .inl h
      · exact .inr ⟨by simp [h], hq⟩
  exact (key cands none h).resolve_left (by simp)

/-- Replacing the entry of the victim `b` changes no other line: the new entry of line `a` stands for
none. -/
theorem victim_spec (h : DirSound cfg v x) (hv : cfg.home a = v) {b : A}
    {cands : List (A × DirectoryEntry N)}
    (hg : x.home.directory.getDirectoryEntry cfg.directory a = (d, none))
    (hc : x.home.directory.getReplacementCandidates cfg.directory a = .ok cands)
    (hcand : replacementCandidate x cands = some (b, e)) :
    b ≠ a ∧ cfg.home b = v ∧ x.home.reqQueue b = [] ∧
      ∃ d', x.home.directory.replaceDirectoryEntry cfg.directory b a = .ok d' ∧
        Keeps cfg v b x (withDirectory x d') ∧
        (∀ c, entry cfg.directory d' c = if c = a then some (newEntry cfg.directory N)
          else entry cfg.directory x.home.directory c) ∧
        d'.replaced.map Prod.fst = x.home.directory.replaced.map Prod.fst ++ [b] := by
  obtain ⟨rfl, hnone, hget, hfull⟩ := h.wf.getDirectoryEntry_none hg
  obtain ⟨hmem, hqb⟩ := replacementCandidate_spec hcand
  obtain ⟨hset, hgb⟩ := h.wf.mem_candidates hc hmem
  obtain ⟨d', hrepl, hwf, hent, hrep⟩ := h.wf.replaceDirectoryEntry hset hgb hnone hfull
  refine ⟨fun e => by simp [e, hget] at hgb, h.homed b (by simp [entry_of_get_some hgb]), hqb, d', hrepl,
    ?_, hent, hrep⟩
  exact
    { client := .of_home
      sound := ⟨hwf, fun c hc => by
        by_cases hca : c = a
        · rw [hca, hv]
        · simp only [withDirectory, hent, if_neg hca] at hc
          exact h.homed c hc⟩
      line := fun c hcb w => by
        have : (entry cfg.directory d' c).getD (newEntry cfg.directory N) =
            (entry cfg.directory x.home.directory c).getD (newEntry cfg.directory N) := by
          rw [hent]
          split
          · next hca => simp [hca, hnone]
          · rfl
        simp only [homeLine, withDirectory, down_home, this, hrep, mem_append,
          mem_singleton, hcb, or_false]
      present := fun c _ hc => by
        simp only [withDirectory, hent]
        split
        · rfl
        · exact hc }

end Graphite.PrL2
