import Graphite.PrL2.Thread

/-! # A tile as a client

What the L2 controllers of both protocols do to the lines they touch. What a protocol demands of a
line is a parameter: `Ok a V cl h` says that line `a` with contents `V`, clients `cl` and home `h` is
in order.
-/

namespace Graphite.PrL2

open Outcome SetAssoc Function

variable {A : Type} [DecidableEq A] {N : ℕ} {H L : Type}

/-- Tile `t` has gone from `x` to `x'` as a client, and the lines are in order with homes `hl`. -/
structure ClientStep (p : Protocol) (cfg : Config A N) (t : Fin N) (via : Route A)
    (Ok : A → LineData → (Fin N → Client A N) → L → Prop) (V : A → LineData)
    (cl : A → Fin N → Client A N) (hl : A → L) (x x' : Tile A N H) : Prop where
  tile : TileInv p cfg t via x'
  app : Handled x.app x'.app
  home : x'.home = x.home
  down : ∀ b u, x'.down b u = x.down b u
  lines : ∀ b, Ok b (V b) (update (cl b) t (client cfg t x' b)) (hl b)

variable {p : Protocol} {cfg : Config A N} {t : Fin N} {via : Route A} {V : A → LineData} {cl : A → Fin N → Client A N}
  {Ok : A → LineData → (Fin N → Client A N) → L → Prop} {hl hl' : A → L} {x x' : Tile A N H} {a : A}
  {r : ShmemMsg A N} {acc : Access A}

theorem TileInv.forwarded (hiss : Issued cfg via acc) (happ : x.app = .waiting acc 1)
    (hc : CacheInv cfg t via (fun _ => False) x) (hrouted : AllRouted cfg t x)
    (hl1 : x.fromL1 t = []) (hout : x.outstanding = some (request cfg t acc)) :
    TileInv p cfg t via x where
  cache := hc.mono fun _ => False.elim
  routed := hrouted
  thread := by
    unfold ThreadInv
    rw [happ]
    exact ⟨rfl, hiss, .inr ⟨hl1, hout⟩⟩
  gone := by rintro a ⟨-, hno, -⟩; simp [hout] at hno

/-- The homes once tile `t` has read the first message about line `a`. -/
def readDown {R : Type} (hl : A → HomeLine A N R) (a : A) (t : Fin N) (ms : List (ShmemMsg A N)) :
    A → HomeLine A N R :=
  update hl a { hl a with down := update (hl a).down t ms }

section ReadDown

variable {R : Type} {hl : A → HomeLine A N R} {ms : List (ShmemMsg A N)}

theorem readDown_of_ne {b : A} (hb : b ≠ a) : readDown hl a t ms b = hl b := by
  simp [readDown, hb]

theorem readDown_self : readDown hl a t ms a =
    { hl a with down := update (hl a).down t ms } := by
  simp [readDown]

end ReadDown

variable (hlines : ∀ b, Ok b (V b) (cl b) (hl b)) (hcl : ∀ b, cl b t = client cfg t x b)
include hlines hcl

theorem lines_of (hother : ∀ b ≠ a, client cfg t x' b = client cfg t x b)
    (hhl : ∀ b ≠ a, hl' b = hl b)
    (ha : Ok a (V a) (update (cl a) t (client cfg t x' a)) (hl' a)) (b : A) :
    Ok b (V b) (update (cl b) t (client cfg t x' b)) (hl' b) := by
  by_cases hb : b = a
  · subst hb; exact ha
  · rw [hhl b hb, hother b hb, ← hcl b, update_eq_self]
    exact hlines b

theorem clientStep_answer (i d₁ : Store A CacheState LineData) (c₂ : Store A L2Info LineData)
    {c : Option (CacheState × LineData)} (htile : TileInv p cfg t via x) (hopen : x.app.Open)
    (hhl : ∀ b ≠ a, hl' b = hl b)
    (hc : CacheInv cfg t via (Missing p x) { x with l1i := i, l1d := d₁, l2 := c₂ })
    (hr : isToDirectory a r = true) (hs : r.senderComponent = .l2Cache)
    (hl1d : ∀ b, l1Copy cfg t via x b = none →
      l1Copy cfg t via { x with l1i := i, l1d := d₁, l2 := c₂ } b = none)
    (hcopy : ∀ b, copy cfg t { x with l1i := i, l1d := d₁, l2 := c₂ } b =
      if b = a then c else copy cfg t x b)
    (hless : ∀ st d, c = some (st, d) → ∃ st' d', copy cfg t x a = some (st', d') ∧
      ∀ op : MemOp, op.permissible st → op.permissible st')
    (hline : Ok a (V a)
      (update (cl a) t { cl a t with copy := c, up := (cl a t).up ++ [r] }) (hl' a)) :
    ClientStep p cfg t via Ok V cl hl' x
      (Tile.send { x with l1i := i, l1d := d₁, l2 := c₂ } (cfg.home a) r) where
  tile := by
    refine htile.answer hopen hc hr hs (fun b st d hb => ?_) hl1d
    rw [hcopy] at hb
    split at hb
    · next hba => subst hba; exact hless st d hb
    · exact ⟨st, d, hb, fun _ h => h⟩
  app := .inl rfl
  home := rfl
  down b u := down_send_of_ne (.inl (by simp [(isToDirectory_iff.mp hr).1]))
  lines := by
    have hclient : ∀ b, client cfg t { x with l1i := i, l1d := d₁, l2 := c₂ } b =
        if b = a then { client cfg t x a with copy := c } else client cfg t x b := by
      intro b
      split
      · next hb => subst hb; simp only [client, hcopy, if_true]; rfl
      · next hb => simp only [client, hcopy, if_neg hb]; rfl
    refine lines_of hlines hcl (fun b hb => ?_) hhl ?_
    · rw [client_send hr, if_neg hb, hclient, if_neg hb]
    · rw [client_send hr, if_pos rfl, hclient, if_pos rfl, ← hcl]
      exact hline

theorem clientStep_request (hiss : Issued cfg via acc) (happ : x.app = .waiting acc 1)
    (hc : CacheInv cfg t via (fun _ => False) x) (hrouted : AllRouted cfg t x)
    (hl1 : x.fromL1 t = []) (hout : x.outstanding = none)
    (hr : isToDirectory acc.address r = true) (hs : r.senderComponent = .l2Cache)
    (hline : Ok acc.address (V acc.address) (update (cl acc.address) t { cl acc.address t with
      waits := some (ticket (request cfg t acc)), up := (cl acc.address t).up ++ [r] })
      (hl acc.address)) :
    ClientStep p cfg t via Ok V cl hl x
      (Tile.send { x with outstanding := some (request cfg t acc) } (cfg.home acc.address) r) := by
  obtain ⟨hrecv, hadr⟩ := isToDirectory_iff.mp hr
  have hclient : ∀ b, client cfg t { x with outstanding := some (request cfg t acc) } b =
      if b = acc.address then { client cfg t x b with waits := some (ticket (request cfg t acc)) }
      else client cfg t x b := by
    intro b
    by_cases hb : b = acc.address
    · subst hb; simp [client, Tile.waits, copy, Tile.up, request]
    · simp [client, Tile.waits, copy, Tile.up, request, hb, Ne.symm hb, hout]
  refine ⟨TileInv.forwarded hiss happ (hc.congr rfl rfl rfl) ?_ ?_ rfl, .inl rfl, rfl, fun b u => ?_, ?_⟩
  · exact routed_send hrouted (.inl ⟨hrecv, hs, by rw [hadr]⟩)
  · rw [fromL1_send (isFromL1_of_ne (by simp [hrecv]))]; exact hl1
  · exact down_send_of_ne (.inl (by simp [hrecv]))
  · refine lines_of (a := acc.address) hlines hcl (fun b hb => ?_) (fun _ _ => rfl) ?_
    · rw [client_send hr, if_neg hb, hclient, if_neg hb]
    · rw [client_send hr, if_pos rfl, hclient, if_pos rfl, ← hcl]
      exact hline

/-- The reply to the outstanding request fills both caches. The line that is pushed out of the L2 goes
back to its home. -/
theorem clientStep_fill {ch : Choice} {st : CacheState} {d : LineData} (htile : TileInv p cfg t via x)
    (hhl : ∀ b ≠ a, hl' b = hl b) (hch : ch.Ok cfg t) (hiss : Issued cfg via acc)
    (happ : x.app = .waiting acc 1) (hl1 : x.fromL1 t = [])
    (hout : x.outstanding = some (request cfg t acc)) (hadr : acc.address = a)
    (hcopy : copy cfg t x a = none) (hperm : acc.op.permissible st) (hst : st ≠ .invalid)
    (hline : Ok a (V a) (update (cl a) t
      { cl a t with copy := some (st, d), waits := none }) (hl' a))
    (hevict : ∀ l, get (cfg.l2 t) x.l2 l.tag = some l → l.tag ≠ a → ∃ ev,
      L2.evictionMsg p cfg t l = .ok ev ∧ isToDirectory l.tag ev = true ∧
      ev.senderComponent = .l2Cache ∧ Ok l.tag (V l.tag) (update (cl l.tag) t
        { cl l.tag t with copy := none, up := (cl l.tag t).up ++ [ev] }) (hl l.tag)) :
    ∃ x', L2.insertCacheLineInHierarchy p cfg t x a ch.l1Way ch.l2Way st d = .ok x' ∧
      x'.app = .waiting acc 1 ∧ x'.outstanding = some (request cfg t acc) ∧
      ClientStep p cfg t via Ok V cl hl' x { x' with outstanding := none, app := .granted acc 1 } := by
  subst hadr
  have hc : CacheInv cfg t via (fun _ => False) x := htile.cache.mono fun b ⟨_, hno, _⟩ => by
    simp [hout] at hno
  have hmsg : ∀ b l, get (cfg.l2 t) x.l2 b = some l → ∃ m, L2.evictionMsg p cfg t l = .ok m := by
    intro b l hb
    obtain ⟨rfl, -⟩ := get_eq_some hb
    have hne : l.tag ≠ acc.address := fun he => by
      rw [he, copy_eq_none.mp hcopy] at hb
      cases hb
    obtain ⟨ev, hev, -⟩ := hevict l hb hne
    exact ⟨ev, hev⟩
  obtain ⟨x', hins, hc', hout', happ', hhome', hg', hrest⟩ :=
    hc.insertCacheLineInHierarchy (p := p) (a := acc.address) (d := d) (by simp) (hch.l1Way _) hch.2.2 hout rfl
      hiss.2.1 hcopy hst hmsg
  refine ⟨x', hins, happ'.trans happ, hout'.trans hout, ?_⟩
  have hwait : ∀ b ≠ acc.address, x.waits b = none := fun b hb => waits_of_outstanding hout hb
  have hclient : ∀ b, client cfg t { x' with outstanding := none, app := .granted acc 1 } b =
      ⟨copy cfg t x' b, none, x'.up cfg b⟩ := fun _ => rfl
  rw [hcl] at hline
  unfold Filled at hrest
  cases hvic : x.l2 ((cfg.l2 t).set acc.address) ch.l2Way with
  | none =>
    rw [hvic] at hrest
    obtain ⟨hsame, hcp⟩ := hrest
    have hup : ∀ b, x'.up cfg b = x.up cfg b := fun b => by simp only [Tile.up, hsame]
    refine ⟨.granted hiss hc' (by rw [AllRouted, hsame]; exact htile.routed) ?_ hg' hperm,
      .inr ⟨acc, 1, happ, rfl⟩, hhome', fun b u => ?_, ?_⟩
    · simpa only [Tile.fromL1, hsame] using hl1
    · simp only [Tile.down, hsame]
    · refine lines_of hlines hcl (fun b hb => ?_) hhl ?_
      · rw [hclient, hcp, if_neg hb, hup, ← hwait b hb]
        rfl
      · rw [hclient, hcp, if_pos rfl, hup]
        exact hline
  | some l =>
    rw [hvic] at hrest
    obtain ⟨hne, hgl, ev, hev, hsame, hcp⟩ := hrest
    obtain ⟨ev', hev', hdir, hsnd, hline'⟩ := hevict l hgl hne
    obtain rfl : ev = ev' := Except.ok.inj (hev.symm.trans hev')
    obtain ⟨hrecv, hadr⟩ := isToDirectory_iff.mp hdir
    have hup : ∀ b, x'.up cfg b = if b = l.tag then x.up cfg b ++ [ev] else x.up cfg b := by
      intro b
      have hsend : (x.send (cfg.home ev.address) ev).up cfg b = _ := up_send hrecv
      rw [hadr] at hsend
      rw [← hsend]
      simp only [Tile.up, hsame]
    refine ⟨.granted hiss hc' ?_ ?_ hg' hperm, .inr ⟨acc, 1, happ, rfl⟩, hhome', fun b u => ?_,
      fun b => ?_⟩
    · rw [AllRouted, hsame]
      exact routed_send htile.routed (.inl ⟨hrecv, hsnd, by rw [hadr]⟩)
    · rw [← hl1, ← fromL1_send (x := x) (d := cfg.home l.tag) (m := ev) (isFromL1_of_ne (by simp [hrecv]))]
      simp only [Tile.fromL1, hsame]
    · rw [← down_send_of_ne (x := x) (d := cfg.home l.tag) (m := ev) (.inl (by simp [hrecv]))]
      simp only [Tile.down, hsame]
    · rw [hclient, hcp, hup]
      by_cases hb : b = acc.address
      · subst hb
        rw [if_pos rfl, if_neg (Ne.symm hne)]
        exact hline
      · rw [if_neg hb, hhl b hb]
        split
        · next hbl =>
          subst hbl
          rw [hcl] at hline'
          rw [← hwait _ hb]
          exact hline'
        · rw [← hwait b hb]
          have := hlines b
          rw [← update_eq_self t (cl b), hcl] at this
          exact this

end Graphite.PrL2
