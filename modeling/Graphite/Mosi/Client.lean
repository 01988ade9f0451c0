import Graphite.PrL2.Clients
import Graphite.Mosi.Directory

/-! # The L2 controller of MOSI

Each function of the L2 controller keeps the invariant of its tile and moves the tile, as a client,
along the protocol of the lines it touches. An UPGRADE_REP that finds no copy stops the machine; it
can come only if the directory scheme does not fit.
-/

namespace Graphite.Mosi

open Outcome SetAssoc PrL2 Function L2

variable {A : Type} [DecidableEq A] {N : ℕ}

variable {cfg : Config A N} {t sender : Fin N} {via : Route A} {V : A → LineData}
  {cl : A → Fin N → Client A N} {hl : A → HomeLine A N (ShmemReq A N)} {x : Tile A N} {a : A}
  {m m' r : ShmemMsg A N} {ms : List (ShmemMsg A N)} {E : Fault → Prop} {ch : Choice} {acc : Access A}

@[simp] theorem isToDirectory_toDirectory {d : Option LineData} {k : MsgType} {q : Fin N} {b w : Bool} :
    isToDirectory a (toDirectory k q b a d w) = true := by
  simp [isToDirectory, toDirectory]

theorem lineOk_client {c : Client A N} (hl' : LineOk cfg a (V a) (cl a) (hl a))
    (hc : ∀ G ask pend q ph, PortInv G t ask pend q (cl a t) ((hl a).down t) ph →
      ∃ p, Phase.Leaves ph p ∧ PortInv G t ask pend q c ms p) :
    LineOk cfg a (V a) (update (cl a) t c) (readDown hl a t ms a) := by
  obtain ⟨hw, ph, R, h⟩ := hl'
  obtain ⟨p, hp, hport⟩ := hc _ _ _ _ _ (h.port t)
  rw [readDown_self]
  exact ⟨hw, _, R, h.client hp hport⟩

theorem lineOk_giveUp {st : CacheState} {d : LineData} {k : MsgType}
    (hlines : ∀ b, LineOk cfg b (V b) (cl b) (hl b)) (hdown : (hl a).down t = m :: ms)
    (hm : grantOf m = none) (hc : (cl a t).copy = some (st, d))
    (hr : replyOf r = some (k, m.replyExpected)) (hk : k = .flushRep ∨ k = .invRep ∧ st = .shared)
    (hok : UpOk t r) (hd : ∀ d' ∈ r.dataBuf, d' = d) :
    LineOk cfg a (V a) (update (cl a) t
      { cl a t with copy := none, up := (cl a t).up ++ [r] }) (readDown hl a t ms a) := by
  refine lineOk_client (hlines a) fun G ask pend q ph hport => ?_
  rw [hdown] at hport
  have hre : r.replyExpected = m.replyExpected := by
    unfold replyOf at hr
    split at hr <;> simp_all
  refine hport.giveUp hc (List.suffix_cons m ms) (hport.grants_of_demand (by simp [hc]) hm) hr hk hok
    (fun d' hd' => ?_) ?_ (.inr (by simp))
  · rw [hd d' hd']; exact (hport.copyOk _ hc).1
  · rw [hre, tokens_cons]

theorem evictionMsg_eq (cfg : Config A N) (t : Fin N) {l : Line A L2Info LineData}
    (h : l.info.cstate = .shared ∨ l.info.cstate = .owned ∨ l.info.cstate = .modified) :
    ∃ m k, evictionMsg .mosi cfg t l = .ok m ∧ isToDirectory l.tag m = true ∧
      m.senderComponent = .l2Cache ∧ replyOf m = some (k, false) ∧
      (k = .flushRep ∨ k = .invRep ∧ l.info.cstate = .shared) ∧ UpOk t m ∧
      ∀ d ∈ m.dataBuf, d = l.data := by
  by_cases hs : l.info.cstate = .shared
  · refine ⟨⟨.invRep, .l2Cache, .dramDirectory, t, l.tag, none, cfg.isApplicationTile t, none, false⟩, .invRep,
      ?_, by simp [isToDirectory], rfl, rfl, .inr ⟨rfl, hs⟩, .inr (.inl ⟨rfl, rfl⟩), by simp⟩
    simp [evictionMsg, hs, check_pos]
  · refine ⟨⟨.flushRep, .l2Cache, .dramDirectory, t, l.tag, some l.data, cfg.isApplicationTile t, none, false⟩,
      .flushRep, ?_, by simp [isToDirectory], rfl, rfl, .inl rfl, .inr (.inr (.inl ⟨rfl, rfl⟩)), by simp⟩
    rcases h with h | h | h
    · exact absurd h hs
    · simp [evictionMsg, h]
    · simp [evictionMsg, h]

variable (hlines : ∀ b, LineOk cfg b (V b) (cl b) (hl b)) (hcl : ∀ b, cl b t = client cfg t x b)
include hlines hcl

/-! ### Demands -/

section

variable (htile : TileInv .mosi cfg t via x) (hopen : x.app.Open)
  (hdown : (hl m.address).down t = m :: ms)
include htile hopen hdown

/-- A demand finds no copy, and is answered if an answer is expected, or the copy of the line. -/
theorem demand_cases {P : Prop} (hm : grantOf m = none) (hadr : m'.address = m.address)
    (hre : m'.replyExpected = m.replyExpected)
    (hnone : getInfo cfg t x m.address = .default →
      ClientStep .mosi cfg t via (LineOk cfg) V cl (readDown hl m.address t ms) x
        (replyIfExpected (cfg.home m.address) m' x) → P)
    (hsome : ∀ {loc} st d, get (cfg.l2 t) x.l2 m.address = some ⟨m.address, ⟨st, loc⟩, d⟩ →
      (cl m.address t).copy = some (st, d) → P) : P := by
  cases hc : copy cfg t x m.address with
  | some c =>
    obtain ⟨loc, hl2⟩ := get_of_copy hc
    exact hsome _ _ hl2 (by rw [hcl]; exact hc)
  | none =>
    refine hnone (getInfo_of_none (copy_eq_none.mp hc)) ?_
    have hcopy : (cl m.address t).copy = none := by rw [hcl]; exact hc
    unfold replyIfExpected
    rw [hre, hadr]
    split
    · next hmre =>
      refine clientStep_answer hlines hcl x.l1i x.l1d x.l2 (c := none) htile hopen
        (fun b hb => readDown_of_ne hb) (htile.cache.congr rfl rfl rfl) isToDirectory_toDirectory rfl
        (fun b hb => hb) (fun b => ?_) (by simp) ?_
      · split
        · next hb => subst hb; exact hc
        · rfl
      · refine lineOk_client (hlines m.address) fun G ask pend q ph hport => ⟨ph, .stay _, ?_⟩
        rw [hdown] at hport
        have := hport.ack (r := toDirectory .invRep m'.requester true m.address none m'.modeled) hcopy hm
          hmre rfl rfl rfl
        simpa [hcopy] using this
    · next hmre =>
      refine ⟨htile, .inl rfl, rfl, fun _ _ => rfl, ?_⟩
      refine lines_of hlines hcl (fun _ _ => rfl) (fun b hb => readDown_of_ne hb) ?_
      refine lineOk_client (hlines m.address) fun G ask pend q ph hport => ⟨ph, .stay _, ?_⟩
      rw [hdown] at hport
      rw [← hcl]
      exact hport.stale hcopy hm (by simpa using hmre)

theorem processInvReqFromDramDirectory_sat (hm : grantOf m = none) (hdem : demandOf t m = .invReq)
    (hsend : sender = cfg.home m.address) (hadr : m'.address = m.address)
    (hre : m'.replyExpected = m.replyExpected) :
    Sat (processInvReqFromDramDirectory cfg t sender m' x) E
      (ClientStep .mosi cfg t via (LineOk cfg) V cl (readDown hl m.address t ms) x) := by
  subst hsend
  unfold processInvReqFromDramDirectory
  refine demand_cases hlines hcl htile hopen hdown hm hadr hre (fun hi hs => by rw [hadr, hi]; exact hs)
    fun st d hl2 hcopy => ?_
  obtain rfl : st = .shared := by
    obtain ⟨-, ph, R, h⟩ := hlines m.address
    have hport := h.port t
    rw [show (msgs (hl m.address)).down t = m :: ms from hdown] at hport
    exact hport.demand hcopy hm hdem
  obtain ⟨i, c₁, c₂, hd₁, hd₂, hinv, hg₁, hg₂⟩ :=
    htile.cache.drop (p := .mosi) (fun _ hmiss => by cases hmiss.1) hl2
  rw [hadr, getInfo_of_get hl2]
  dsimp only at hd₁ ⊢
  rw [if_pos (by simp), check_pos rfl, ok_bind, hd₁, ok_bind, hd₂, ok_bind]
  refine clientStep_answer hlines hcl _ _ _ (c := none) htile hopen (fun b hb => readDown_of_ne hb) hinv
    isToDirectory_toDirectory rfl (fun b hb => by simp [hg₁, hb]) hg₂ (by simp) ?_
  exact lineOk_giveUp hlines hdown hm hcopy (by rw [← hre]; rfl) (.inr ⟨rfl, rfl⟩)
    (.inr (.inl ⟨rfl, rfl⟩)) (by simp [toDirectory])

theorem processFlushReqFromDramDirectory_sat (hm : grantOf m = none)
    (hsend : sender = cfg.home m.address) (hadr : m'.address = m.address)
    (hre : m'.replyExpected = m.replyExpected) :
    Sat (processFlushReqFromDramDirectory cfg t sender m' x) E
      (ClientStep .mosi cfg t via (LineOk cfg) V cl (readDown hl m.address t ms) x) := by
  subst hsend
  unfold processFlushReqFromDramDirectory
  refine demand_cases hlines hcl htile hopen hdown hm hadr hre (fun hi hs => by rw [hadr, hi]; exact hs)
    fun st d hl2 hcopy => ?_
  have hst : st ≠ .invalid := htile.cache.state hl2
  obtain ⟨i, c₁, c₂, hd₁, hd₂, hinv, hg₁, hg₂⟩ :=
    htile.cache.drop (p := .mosi) (fun _ hmiss => by cases hmiss.1) hl2
  rw [hadr, getInfo_of_get hl2]
  dsimp only at hd₁ ⊢
  rw [if_pos hst, hd₁, ok_bind, readCacheLine_of_get hl2, ok_bind, hd₂, ok_bind]
  refine clientStep_answer hlines hcl _ _ _ (c := none) htile hopen (fun b hb => readDown_of_ne hb) hinv
    isToDirectory_toDirectory rfl (fun b hb => by simp [hg₁, hb]) hg₂ (by simp) ?_
  exact lineOk_giveUp hlines hdown hm hcopy (by rw [← hre]; rfl) (.inl rfl)
    (.inr (.inr (.inl ⟨rfl, rfl⟩))) (by simp [toDirectory])

theorem processWbReqFromDramDirectory_sat (hm : m.type = .wbReq) (hre : m.replyExpected = false)
    (hsend : sender = cfg.home m.address) :
    Sat (processWbReqFromDramDirectory cfg t sender m x) E
      (ClientStep .mosi cfg t via (LineOk cfg) V cl (readDown hl m.address t ms) x) := by
  subst hsend
  have hg : grantOf m = none := by simp [grantOf, hm]
  unfold processWbReqFromDramDirectory
  rw [check_pos hre, ok_bind]
  refine demand_cases hlines hcl htile hopen hdown hg rfl rfl
    (fun hi hs => by rw [hi]; rwa [replyIfExpected, hre] at hs) fun st d hl2 hcopy => ?_
  have hst : st ≠ .invalid := htile.cache.state hl2
  have hst' : (if st = .modified then .owned else st) ≠ .invalid := by
    split
    · simp
    · exact hst
  obtain ⟨i, c₁, c₂, hd₁, hd₂, hinv, hg₁, hg₂⟩ :=
    htile.cache.setState (fun hmiss => by cases hmiss.1) hl2 hst'
  rw [getInfo_of_get hl2]
  dsimp only at hd₁ hd₂ ⊢
  rw [if_pos hst, hd₁, ok_bind, readCacheLine_of_get hl2, ok_bind, hd₂, ok_bind]
  refine clientStep_answer hlines hcl _ _ _ (c := some (if st = .modified then .owned else st, d)) htile hopen
    (fun b hb => readDown_of_ne hb) hinv isToDirectory_toDirectory rfl (fun b hb => ?_) hg₂ ?_ ?_
  · rw [hg₁]
    split
    · next hba => subst hba; simp [hb]
    · exact hb
  · intro st' d' he
    obtain ⟨rfl, -⟩ := Prod.mk.inj (Option.some.inj he)
    refine ⟨st, d, copy_of_get hl2, fun op hop => ?_⟩
    split at hop
    · next hmod => subst hmod; cases op <;> rfl
    · exact hop
  · refine lineOk_client (hlines m.address) fun G ask pend q ph hport => ?_
    rw [hdown] at hport
    exact ⟨_, hport.writeBack hcopy hm rfl rfl rfl⟩

end

/-! ### Replies -/

theorem copy_states {st : CacheState} {d : LineData}
    (hc : copy cfg t x a = some (st, d)) : st = .shared ∨ st = .owned ∨ st = .modified := by
  obtain ⟨-, ph, R, h⟩ := hlines a
  exact (h.copy_eq (by rw [hcl]; exact hc)).2

theorem lines_evict (hwait : ∀ b ≠ a, x.waits b = none) :
    ∀ l, get (cfg.l2 t) x.l2 l.tag = some l → l.tag ≠ a → ∃ ev,
      evictionMsg .mosi cfg t l = .ok ev ∧ isToDirectory l.tag ev = true ∧
      ev.senderComponent = .l2Cache ∧ LineOk cfg l.tag (V l.tag) (update (cl l.tag) t
        { cl l.tag t with copy := none, up := (cl l.tag t).up ++ [ev] }) (hl l.tag) := by
  intro l hgl hne
  have hcopy : copy cfg t x l.tag = some (l.info.cstate, l.data) := by simp [copy, hgl]
  obtain ⟨ev, k, hev, hdir, hsnd, hrep, hk, hok, hdat⟩ :=
    evictionMsg_eq cfg t (copy_states hlines hcl hcopy)
  refine ⟨ev, hev, hdir, hsnd, ?_⟩
  obtain ⟨hw, ph, R, h⟩ := hlines l.tag
  have hcopy' : (cl l.tag t).copy = some (l.info.cstate, l.data) := by rw [hcl]; exact hcopy
  have hwaits : (cl l.tag t).waits = none := by rw [hcl]; exact hwait _ hne
  have hre : ev.replyExpected = false := by
    unfold replyOf at hrep
    split at hrep <;> simp_all
  have hport := h.port t
  obtain ⟨p, hp, hport'⟩ := hport.giveUp hcopy' List.suffix_rfl (hport.of_waits_none hwaits).2.2 hrep hk
    hok (fun d hd => by rw [hdat d hd]; exact (hport.copyOk _ hcopy').1) (by simp [hre]) (.inl hwaits)
  exact ⟨hw, _, R, h.client' hp hport'⟩

omit [DecidableEq A] hlines hcl in
theorem finishReply_eq (hout : x.outstanding = some (request cfg t acc))
    (happ : x.app = .waiting acc 1) (hmod : (request cfg t acc).modeled = m.modeled) :
    finishReply m x = .ok { x with outstanding := none, app := .granted acc 1 } := by
  simp only [finishReply, hout]
  rw [check_pos hmod, ok_bind]
  simp only [PrL2.Tile.wakeUpAppThread, happ, pure_eq_ok]

section

variable (htile : TileInv .mosi cfg t via x)
include htile

theorem processRepFromDramDirectory_sat {st : CacheState}
    (hdown : (hl m.address).down t = m :: ms) (hm : m.type = .exRep ∨ m.type = .shRep)
    (hst : st = if m.type = .exRep then .modified else .shared) (hch : ch.Ok cfg t) :
    Sat (do finishReply m (← processRepFromDramDirectory cfg t ch m x st)) E
      (ClientStep .mosi cfg t via (LineOk cfg) V cl (readDown hl m.address t ms) x) := by
  obtain ⟨hw, ph, R, h⟩ := hlines m.address
  have hport := h.port t
  rw [show (msgs (hl m.address)).down t = m :: ms from hdown] at hport
  obtain ⟨hcopy, hwaits, d, hdat, hport'⟩ := hport.receive hm
  rw [hcl] at hcopy hwaits
  obtain ⟨acc, happ, hiss, hl1, hout, hadr, hk⟩ := htile.of_waits hwaits
  have hperm : acc.op.permissible st := by
    subst hst
    rcases hm with hty | hty <;> cases hop : acc.op <;>
      simp_all [L1.getShmemMsgType, MemOp.permissible, CacheState.readable, CacheState.writable]
  have hsi : st ≠ .invalid := by rw [hst]; split <;> simp
  have hline : LineOk cfg m.address (V m.address) (update (cl m.address) t
      { cl m.address t with copy := some (st, d), waits := none })
      (readDown hl m.address t ms m.address) := by
    rw [readDown_self, hst]
    exact ⟨hw, _, R, h.client (.stay _) hport'⟩
  have hwait : ∀ b ≠ m.address, x.waits b = none := fun b hb =>
    waits_of_outstanding hout (ne_of_ne_of_eq hb hadr.symm)
  obtain ⟨x', hins, happ', hout', hstep⟩ := clientStep_fill hlines hcl htile
    (fun b hb => readDown_of_ne hb) hch hiss happ hl1 hout hadr hcopy hperm hsi hline
    (lines_evict hlines hcl hwait)
  simp only [processRepFromDramDirectory, hdat]
  rw [hins, ok_bind]
  have hmod : (request cfg t acc).modeled = m.modeled := (Prod.mk.inj hk).2.symm
  rw [finishReply_eq hout' happ' hmod]
  exact hstep

theorem clientStep_upgrade {d : LineData}
    (hiss : Issued cfg via acc) (happ : x.app = .waiting acc 1) (hl1 : x.fromL1 t = [])
    (hadr : acc.address = a) (hwait : ∀ b ≠ a, x.waits b = none) (hop : acc.op.permissible .modified)
    (hline : LineOk cfg a (V a) (update (cl a) t
      { cl a t with copy := some (.modified, d), waits := none }) (readDown hl a t ms a))
    (i c₁ : Store A CacheState LineData) (c₂ : Store A L2Info LineData)
    (hc : CacheInv cfg t via (fun _ => False) (x.setCaches i c₁ c₂))
    (hg : l1Copy cfg t via (x.setCaches i c₁ c₂) a = some ⟨a, .modified, d⟩)
    (hcp : ∀ b, copy cfg t (x.setCaches i c₁ c₂) b =
      if b = a then some (.modified, d) else copy cfg t x b) :
    ClientStep .mosi cfg t via (LineOk cfg) V cl (readDown hl a t ms) x
      { x with l1i := i, l1d := c₁, l2 := c₂, outstanding := none, app := .granted acc 1 } where
  tile := .granted (x := x.setCaches i c₁ c₂) hiss hc htile.routed hl1
    (hadr ▸ hg) hop
  app := .inr ⟨acc, 1, happ, rfl⟩
  home := rfl
  down _ _ := rfl
  lines := by
    have hclient : ∀ b, client cfg t
        { x with l1i := i, l1d := c₁, l2 := c₂, outstanding := none, app := .granted acc 1 } b =
        ⟨copy cfg t (x.setCaches i c₁ c₂) b, none, x.up cfg b⟩ := fun _ => rfl
    refine lines_of hlines hcl (fun b hb => ?_) (fun b hb => readDown_of_ne hb) ?_
    · rw [hclient, hcp, if_neg hb, ← hwait b hb]
      rfl
    · rw [hclient, hcp, if_pos rfl]
      rw [hcl] at hline
      exact hline

theorem processUpgradeRepFromDramDirectory_sat
    (hdown : (hl m.address).down t = m :: ms) (hm : m.type = .upgradeRep) (hch : ch.Ok cfg t) :
    Sat (do finishReply m (← processUpgradeRepFromDramDirectory cfg t ch m x)) (Allowed cfg)
      (ClientStep .mosi cfg t via (LineOk cfg) V cl (readDown hl m.address t ms) x) := by
  obtain ⟨hw, ph, R, h⟩ := hlines m.address
  have hport := h.port t
  rw [show (msgs (hl m.address)).down t = m :: ms from hdown] at hport
  obtain ⟨hwaits, ⟨hdoom, hno⟩ | ⟨st, d, hcopy, hst, hport'⟩⟩ := hport.receiveUpgrade hm
  · -- no copy to upgrade
    unfold processUpgradeRepFromDramDirectory
    rw [hcl] at hno
    rw [getInfo_of_none (copy_eq_none.mp hno)]
    exact .inr (.inr (h.not_fits_of_doomed hdoom))
  · rw [hcl] at hcopy hwaits
    obtain ⟨acc, happ, hiss, hl1, hout, hadr, hk⟩ := htile.of_waits hwaits
    have hop : acc.op ≠ .read := by
      intro hop
      rw [hop] at hk
      cases (Prod.mk.inj hk).1
    have hcomp : acc.component = .l1DCache := by
      rcases hiss.1.2.2.1 with hd | ⟨-, hr, -⟩
      · exact hd
      · exact absurd hr hop
    have hvia : via.comp m.address = .l1DCache := by rw [← hadr, ← hiss.2.1, hcomp]
    have hperm : acc.op.permissible .modified := by
      cases h' : acc.op <;> simp [MemOp.permissible, CacheState.readable, CacheState.writable]
    have hmod : (request cfg t acc).modeled = m.modeled := (Prod.mk.inj hk).2.symm
    have hwait : ∀ b ≠ m.address, x.waits b = none := fun b hb =>
      waits_of_outstanding hout (ne_of_ne_of_eq hb hadr.symm)
    have hline : LineOk cfg m.address (V m.address) (update (cl m.address) t
        { cl m.address t with copy := some (.modified, d), waits := none })
        (readDown hl m.address t ms m.address) := by
      rw [readDown_self]
      exact ⟨hw, _, R, h.client (.stay _) hport'⟩
    have hc : CacheInv cfg t via (fun _ => False) x := htile.cache.mono fun b hb => by cases hb.1
    obtain ⟨loc, hl2⟩ := get_of_copy hcopy
    have hstep := clientStep_upgrade hlines hcl htile hiss happ hl1 hadr hwait hperm hline
    unfold processUpgradeRepFromDramDirectory
    rw [getInfo_of_get hl2]
    dsimp only
    rw [check_pos hst, ok_bind, hout]
    dsimp only
    rw [check_pos (by exact hadr.symm), ok_bind, check_pos (by exact hcomp), ok_bind]
    have hsnd : (request cfg t acc).senderComponent = via.comp m.address := by
      rw [hvia]; exact hcomp
    rw [hsnd]
    split
    · next hloc =>
      have hno : l1Copy cfg t via x m.address = none := by
        rcases hc.cachedLoc_cases hl2 with ⟨-, hno⟩ | ⟨he, -⟩
        · exact hno
        · rw [hloc, hvia] at he
          cases he
      obtain ⟨-, i, c₁, c₂, c₃, hins, hset, hinv, hg, hcp⟩ :=
        hc.fillL1 (hch.l1Way _) hl2 hno (by simp) (by simp : CacheState.modified ≠ .invalid)
      have hread : readCacheLine cfg t x m.address = .ok d := by
        simp [readCacheLine, readLine, hl2]
      rw [hread, ok_bind, hins, ok_bind, hset, ok_bind]
      rw [finishReply_eq (by exact hout) (by exact happ) hmod]
      exact hstep i c₁ c₃ hinv hg hcp
    · next hloc =>
      obtain ⟨hloc', hsome⟩ : loc = via.comp m.address ∧ (l1Copy cfg t via x m.address).isSome := by
        rcases hc.cachedLoc_cases hl2 with ⟨he, -⟩ | ⟨he, hs⟩
        · exact absurd he hloc
        · exact ⟨he, hs.resolve_right id⟩
      obtain ⟨i, c₁, c₂, hd₁, hd₂, hinv, hg₁, hg₂⟩ :=
        hc.setState (by simp) hl2 (by simp : CacheState.modified ≠ .invalid)
      dsimp only at hd₁ hd₂
      rw [← hloc', hd₁, ok_bind, hd₂, ok_bind]
      rw [finishReply_eq (by exact hout) (by exact happ) hmod]
      refine hstep i c₁ c₂ hinv ?_ hg₂
      obtain ⟨l, hl⟩ := Option.isSome_iff_exists.mp hsome
      have := hc.incl hl
      rw [hl2] at this
      have hd : l.data = d := (congrArg Line.data (Option.some.inj this)).symm
      rw [hg₁, if_pos rfl, hl, ← hd]
      rfl

end

/-! ### Requests of the L1 -/

theorem handleMsgFromL1Cache_sat (hiss : Issued cfg via acc) (happ : x.app = .waiting acc 1)
    (hc : CacheInv cfg t via (fun _ => False) x) (hrouted : AllRouted cfg t x)
    (hl1 : x.fromL1 t = []) (hout : x.outstanding = none) (hlack : Lacks cfg t x acc) :
    Sat (handleMsgFromL1Cache cfg t (request cfg t acc) x) E
      (ClientStep .mosi cfg t via (LineOk cfg) V cl hl x) := by
  unfold handleMsgFromL1Cache
  rw [check_pos (by rfl), ok_bind, check_pos (by simp [hout]), ok_bind]
  refine clientStep_request hlines hcl hiss happ hc hrouted hl1 hout isToDirectory_toDirectory rfl ?_
  obtain ⟨hw, ph, R, h⟩ := hlines acc.address
  have hwaits : (cl acc.address t).waits = none := by
    rw [hcl]; simp [client, PrL2.Tile.waits, hout]
  have hk : requestOf (toDirectory (request cfg t acc).type t false acc.address none
      (cfg.isApplicationTile t)) = some (ticket (request cfg t acc)) := by
    cases hop : acc.op <;> simp [requestOf, toDirectory, ticket, request, hop, L1.getShmemMsgType]
  refine ⟨hw, _, R, h.client' (.stay _) ((h.port t).request hwaits hk (fun hs => ?_) rfl rfl rfl)⟩
  have hop : acc.op = .read := by
    cases hop : acc.op <;> simp_all [ticket, request, L1.getShmemMsgType]
  rw [hcl]
  show copy cfg t x acc.address = none
  cases hcp : copy cfg t x acc.address with
  | none => rfl
  | some c =>
    have := hlack c.1 c.2 hcp
    rcases copy_states hlines hcl hcp with h' | h' | h' <;>
      simp [hop, h', MemOp.permissible, CacheState.readable] at this

theorem handleMsgFromDramDirectory_sat (htile : TileInv .mosi cfg t via x) (hopen : x.app.Open)
    (hdown : (hl m.address).down t = m :: ms) (hsend : sender = cfg.home m.address)
    (hch : ch.Ok cfg t) :
    Sat (handleMsgFromDramDirectory cfg t ch sender m x) (Allowed cfg)
      (ClientStep .mosi cfg t via (LineOk cfg) V cl (readDown hl m.address t ms) x) := by
  have hok : DownOk m := by
    obtain ⟨-, ph, R, h⟩ := hlines m.address
    exact (h.port t).downOk m (by simp [msgs, hdown])
  unfold handleMsgFromDramDirectory
  rcases hok with ⟨hty | hty, -⟩ | ⟨hty | hty, -, hre⟩ | ⟨hty | hty | hty, -⟩ <;> rw [hty]
  · exact processRepFromDramDirectory_sat hlines hcl htile hdown (.inl hty) (by simp [hty]) hch
  · exact processRepFromDramDirectory_sat hlines hcl htile hdown (.inr hty) (by simp [hty]) hch
  · exact processUpgradeRepFromDramDirectory_sat hlines hcl htile hdown hty hch
  · exact processWbReqFromDramDirectory_sat hlines hcl htile hopen hdown hty hre hsend
  · exact processInvReqFromDramDirectory_sat hlines hcl htile hopen hdown (by simp [grantOf, hty])
      (by simp [demandOf, hty]) hsend rfl rfl
  · exact processFlushReqFromDramDirectory_sat hlines hcl htile hopen hdown (by simp [grantOf, hty])
      hsend rfl rfl
  · have hg : grantOf m = none := by simp [grantOf, hty]
    dsimp only
    unfold processInvFlushCombinedReqFromDramDirectory
    split
    · exact processFlushReqFromDramDirectory_sat hlines hcl htile hopen hdown hg hsend rfl rfl
    · next hsr =>
      exact processInvReqFromDramDirectory_sat hlines hcl htile hopen hdown hg
        (by simp [demandOf, hty, hsr]) hsend rfl rfl

end Graphite.Mosi
