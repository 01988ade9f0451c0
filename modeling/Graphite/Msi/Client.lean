import Graphite.PrL2.Clients
import Graphite.Msi.Directory

/-! # The L2 controller of MSI

Each function of the L2 controller keeps the invariant of its tile and moves the tile, as a client,
along the protocol of the lines it touches.
-/

namespace Graphite.Msi

open Outcome SetAssoc PrL2 Function L2 List

variable {A : Type} [DecidableEq A] {N : ℕ}

variable {cfg : Config A N} {t sender : Fin N} {via : Route A} {V : A → LineData} {cl : A → Fin N → Client A N}
  {hl hl' : A → HomeLine A N (ShmemMsg A N)} {x x' : Tile A N} {a : A} {m r : ShmemMsg A N} {ms : List (ShmemMsg A N)}
  {E : Fault → Prop} {ch : Choice} {acc : Access A} {k : MsgType × Bool}

@[simp] theorem isToDirectory_toDirectory {d : Option LineData} {k : MsgType} {q : Fin N} {w : Bool} :
    isToDirectory a (toDirectory k q a d w) = true := by
  simp [isToDirectory, toDirectory]

theorem evictionMsg_eq (cfg : Config A N) (t : Fin N) {l : Line A L2Info LineData}
    (h : l.info.cstate = .shared ∨ l.info.cstate = .modified) :
    ∃ m, evictionMsg .msi cfg t l = .ok m ∧ isToDirectory l.tag m = true ∧
      m.senderComponent = .l2Cache ∧ replyOf m =
        some (if l.info.cstate = .modified then (.flushRep, some l.data) else (.invRep, none)) := by
  rcases h with h | h
  · refine ⟨⟨.invRep, .l2Cache, .dramDirectory, t, l.tag, none, cfg.isApplicationTile t, none, false⟩,
      ?_, by simp [isToDirectory], rfl, by simp [h, replyOf]⟩
    simp [evictionMsg, h, check_pos]
  · refine ⟨⟨.flushRep, .l2Cache, .dramDirectory, t, l.tag, some l.data, cfg.isApplicationTile t, none,
      false⟩, ?_, by simp [isToDirectory], rfl, by simp [h, replyOf]⟩
    simp [evictionMsg, h]

variable (hlines : ∀ b, LineOk cfg b (V b) (cl b) (hl b)) (hcl : ∀ b, cl b t = client cfg t x b)
include hlines hcl

/-! ### Demands -/

section

variable (htile : TileInv .msi cfg t via x) (hopen : x.app.Open)
  (hdown : (hl m.address).down t = m :: ms)
include htile hdown

/-- A demand finds no copy, and nothing changes, or the copy that the line gives the tile. -/
theorem demand_cases {P : Prop} (hg : grantOf m = none)
    (hnone : getInfo cfg t x m.address = .default →
      ClientStep .msi cfg t via (LineOk cfg) V cl (readDown hl m.address t ms) x x → P)
    (hsome : ∀ {loc ph} st d, get (cfg.l2 t) x.l2 m.address = some ⟨m.address, ⟨st, loc⟩, d⟩ →
      LineInv cfg.directory m.address (V m.address) (cl m.address) (hl m.address) ph →
      PortInv (V m.address) t (queued (hl m.address).queue t) (cl m.address t) (m :: ms) (ph t) →
      (cl m.address t).copy = some (st, d) → P) : P := by
  obtain ⟨ph, h⟩ := hlines m.address
  have hport := h.port t
  rw [hdown] at hport
  cases hc : copy cfg t x m.address with
  | none =>
    refine hnone (getInfo_of_none (copy_eq_none.mp hc)) ⟨htile, .inl rfl, rfl, fun _ _ => rfl, ?_⟩
    refine lines_of hlines hcl (fun _ _ => rfl) (fun b hb => readDown_of_ne hb) ?_
    rw [readDown_self, ← hcl]
    exact ⟨_, h.client (.stay _) (hport.stale (by rw [hcl]; exact hc) hg)⟩
  | some c =>
    obtain ⟨loc, hl2⟩ := get_of_copy hc
    exact hsome _ _ hl2 h hport (by rw [hcl]; exact hc)

include hopen

theorem processInvReqFromDramDirectory_sat (hm : m.type = .invReq)
    (hsend : sender = cfg.home m.address) :
    Sat (processInvReqFromDramDirectory cfg t sender m x) E
      (ClientStep .msi cfg t via (LineOk cfg) V cl (readDown hl m.address t ms) x) := by
  subst hsend
  have hg : grantOf m = none := by simp [grantOf, hm]
  unfold processInvReqFromDramDirectory
  refine demand_cases hlines hcl htile hdown hg (fun hi hs => by rw [hi]; exact hs)
    fun st d hl2 h hport hcopy => ?_
  obtain rfl : st = .shared := by simpa [hm] using hport.demand hcopy
  obtain ⟨i, c₁, c₂, hd₁, hd₂, hinv, hg₁, hg₂⟩ := htile.cache.drop (p := .msi) (by simp) hl2
  rw [getInfo_of_get hl2]
  dsimp only at hd₁ ⊢
  rw [if_pos (by simp), check_pos rfl, ok_bind, hd₁, ok_bind, hd₂, ok_bind]
  refine clientStep_answer hlines hcl _ _ _ (c := none) htile hopen
    (fun b hb => readDown_of_ne hb) hinv (by simp) rfl (fun b hb => by simp [hg₁, hb]) hg₂ (by simp) ?_
  obtain ⟨p, hp, hport'⟩ := hport.giveUp hcopy (suffix_cons m ms)
    (r := toDirectory .invRep m.requester m.address none m.modeled) rfl
  rw [readDown_self]
  exact ⟨_, h.client hp hport'⟩

theorem processFlushReqFromDramDirectory_sat (hm : m.type = .flushReq)
    (hsend : sender = cfg.home m.address) :
    Sat (processFlushReqFromDramDirectory cfg t sender m x) E
      (ClientStep .msi cfg t via (LineOk cfg) V cl (readDown hl m.address t ms) x) := by
  subst hsend
  have hg : grantOf m = none := by simp [grantOf, hm]
  unfold processFlushReqFromDramDirectory
  refine demand_cases hlines hcl htile hdown hg (fun hi hs => by rw [hi]; exact hs)
    fun st d hl2 h hport hcopy => ?_
  obtain rfl : st = .modified := by simpa [hm] using hport.demand hcopy
  obtain ⟨i, c₁, c₂, hd₁, hd₂, hinv, hg₁, hg₂⟩ := htile.cache.drop (p := .msi) (by simp) hl2
  rw [getInfo_of_get hl2]
  dsimp only at hd₁ ⊢
  rw [if_pos (by simp), check_pos rfl, ok_bind, hd₁, ok_bind, readCacheLine_of_get hl2, ok_bind, hd₂,
    ok_bind]
  refine clientStep_answer hlines hcl _ _ _ (c := none) htile hopen
    (fun b hb => readDown_of_ne hb) hinv (by simp) rfl (fun b hb => by simp [hg₁, hb]) hg₂ (by simp) ?_
  obtain ⟨p, hp, hport'⟩ := hport.giveUp hcopy (suffix_cons m ms)
    (r := toDirectory .flushRep m.requester m.address (some d) m.modeled) rfl
  rw [readDown_self]
  exact ⟨_, h.client hp hport'⟩

theorem processWbReqFromDramDirectory_sat (hm : m.type = .wbReq)
    (hsend : sender = cfg.home m.address) :
    Sat (processWbReqFromDramDirectory cfg t sender m x) E
      (ClientStep .msi cfg t via (LineOk cfg) V cl (readDown hl m.address t ms) x) := by
  subst hsend
  have hg : grantOf m = none := by simp [grantOf, hm]
  unfold processWbReqFromDramDirectory
  refine demand_cases hlines hcl htile hdown hg (fun hi hs => by rw [hi]; exact hs)
    fun st d hl2 h hport hcopy => ?_
  obtain rfl : st = .modified := by simpa [hm] using hport.demand hcopy
  -- an access that waits for this line would have found it MODIFIED
  have hmiss : ¬ Missing .msi x m.address := by
    rintro ⟨-, hout, acc, n, happ, hadr⟩
    have ht := htile.thread
    simp only [ThreadInv, happ, hout, reduceCtorEq, and_false, or_false] at ht
    have := ht.2.2.2.2 .modified d (by rw [hadr]; exact copy_of_get hl2)
    cases hop : acc.op <;> simp [hop, MemOp.permissible, CacheState.readable, CacheState.writable] at this
  obtain ⟨i, c₁, c₂, hd₁, hd₂, hinv, hg₁, hg₂⟩ :=
    htile.cache.setState hmiss hl2 (by simp : CacheState.shared ≠ .invalid)
  rw [getInfo_of_get hl2]
  dsimp only at hd₁ hd₂ ⊢
  rw [if_pos (by simp), check_pos rfl, ok_bind, hd₁, ok_bind, readCacheLine_of_get hl2, ok_bind, hd₂,
    ok_bind]
  refine clientStep_answer hlines hcl _ _ _ (c := some (.shared, d)) htile hopen
    (fun b hb => readDown_of_ne hb) hinv (by simp) rfl ?_ hg₂ ?_ ?_
  · intro b hb
    rw [hg₁]
    split
    · next hba => subst hba; simp [hb]
    · exact hb
  · intro st' d' he
    refine ⟨.modified, d, copy_of_get hl2, fun op _ => ?_⟩
    cases op <;> rfl
  · obtain ⟨hp, hport'⟩ := hport.writeBack hcopy hm
      (r := toDirectory .wbRep m.requester m.address (some d) m.modeled) rfl
    rw [readDown_self]
    exact ⟨_, h.client hp hport'⟩

end

/-! ### Replies -/

theorem processRepFromDramDirectory_sat {st : CacheState} (htile : TileInv .msi cfg t via x)
    (hdown : (hl m.address).down t = m :: ms) (hm : grantOf m = some k)
    (hst : st = if m.type = .exRep then .modified else .shared) (hch : ch.Ok cfg t) :
    Sat (do finishReply (← processRepFromDramDirectory cfg t ch m x st)) E
      (ClientStep .msi cfg t via (LineOk cfg) V cl (readDown hl m.address t ms) x) := by
  obtain ⟨ph, h⟩ := hlines m.address
  have hport := h.port t
  rw [hdown] at hport
  obtain ⟨hcopy, hwaits, hdat, hport'⟩ := hport.receive hm
  rw [hcl] at hcopy hwaits
  obtain ⟨acc, happ, hiss, hl1, hout, hadr, hk⟩ := htile.of_waits hwaits
  have hstates : ∀ b l, get (cfg.l2 t) x.l2 b = some l →
      l.info.cstate = .shared ∨ l.info.cstate = .modified := by
    intro b l hb
    obtain ⟨ph', h'⟩ := hlines b
    exact (h'.copy_eq (by rw [hcl]; exact copy_of_get hb)).2
  have hperm : acc.op.permissible st := by
    subst hst hk
    rcases hport.downOk m (by simp) with ⟨hty | hty, -⟩ | hty | hty | hty <;> cases hop : acc.op <;>
      simp_all [grantOf, L1.getShmemMsgType, MemOp.permissible, CacheState.readable, CacheState.writable]
  have hsi : st ≠ .invalid := by rw [hst]; split <;> simp
  have hline : LineOk cfg m.address (V m.address) (update (cl m.address) t
      { cl m.address t with copy := some (st, V m.address), waits := none })
      (readDown hl m.address t ms m.address) := by
    rw [readDown_self, hst]
    exact ⟨_, h.client (.stay _) hport'⟩
  have hevict : ∀ l, get (cfg.l2 t) x.l2 l.tag = some l → l.tag ≠ m.address → ∃ ev,
      evictionMsg .msi cfg t l = .ok ev ∧ isToDirectory l.tag ev = true ∧
      ev.senderComponent = .l2Cache ∧ LineOk cfg l.tag (V l.tag) (update (cl l.tag) t
        { cl l.tag t with copy := none, up := (cl l.tag t).up ++ [ev] }) (hl l.tag) := by
    intro l hgl _
    obtain ⟨ev, hev, hdir, hsnd, hrep⟩ := evictionMsg_eq cfg t (hstates _ l hgl)
    obtain ⟨ph', h'⟩ := hlines l.tag
    have hcopy' : (cl l.tag t).copy = some (l.info.cstate, l.data) := by
      rw [hcl]; simp [client, copy, hgl]
    obtain ⟨p, hp, hport''⟩ := (h'.port t).giveUp hcopy' suffix_rfl hrep
    exact ⟨ev, hev, hdir, hsnd, _, h'.client' hp hport''⟩
  obtain ⟨x', hins, happ', -, hstep⟩ := clientStep_fill hlines hcl htile
    (fun b hb => readDown_of_ne hb) hch hiss happ hl1 hout hadr hcopy hperm hsi hline hevict
  simp only [processRepFromDramDirectory, hdat]
  rw [hins, ok_bind]
  simp only [finishReply, PrL2.Tile.wakeUpAppThread, happ', pure_eq_ok, sat_ok]
  exact hstep

/-! ### Requests of the L1 -/

theorem lines_request (hout : x.outstanding = none) (hcopy : copy cfg t x a = none) (hreq : r.requester = t)
    (hdat : r.dataBuf = none) (hk : requestOf r = some k) :
    LineOk cfg a (V a) (update (cl a) t
      { cl a t with waits := some k, up := (cl a t).up ++ [r] }) (hl a) := by
  obtain ⟨ph, h⟩ := hlines a
  have hw : (cl a t).waits = none := by
    rw [hcl]; simp [client, PrL2.Tile.waits, hout]
  exact ⟨_, h.client' (.stay _) ((h.port t).request hw (by rw [hcl]; exact hcopy) hk hreq hdat)⟩

theorem lines_giveUp {c : Store A L2Info LineData} {d : LineData}
    (hcopy : copy cfg t x a = some (.shared, d))
    (hg : ∀ b, get (cfg.l2 t) c b = if b = a then none else get (cfg.l2 t) x.l2 b)
    (hr : isToDirectory a r = true) (hrep : replyOf r = some (.invRep, none)) (b : A) :
    LineOk cfg b (V b) (update (cl b) t
      (client cfg t (Tile.send { x with l2 := c } (cfg.home a) r) b)) (hl b) := by
  have hclient : ∀ b, client cfg t { x with l2 := c } b =
      if b = a then { client cfg t x a with copy := none } else client cfg t x b := by
    intro b
    simp only [client, copy, hg]
    split
    · next hb => subst hb; rfl
    · rfl
  refine lines_of (a := a) hlines hcl (fun b hb => ?_) (fun _ _ => rfl) ?_ b
  · rw [client_send hr, if_neg hb, hclient, if_neg hb]
  · obtain ⟨ph, h⟩ := hlines a
    obtain ⟨p, hp, hport⟩ := (h.port t).giveUp (by rw [hcl]; exact hcopy) suffix_rfl hrep
    rw [client_send hr, if_pos rfl, hclient, if_pos rfl, ← hcl]
    exact ⟨_, h.client' hp hport⟩

/-- The L2 passes a request of the L1 on, after it has given up a SHARED copy it wants to write. -/
theorem handleMsgFromL1Cache_sat (hiss : Issued cfg via acc) (happ : x.app = .waiting acc 1)
    (hc : CacheInv cfg t via (· = acc.address) x) (hrouted : AllRouted cfg t x)
    (hl1 : x.fromL1 t = []) (hout : x.outstanding = none) (hlack : Lacks cfg t x acc)
    (hgone : l1Copy cfg t via x acc.address = none) :
    Sat (handleMsgFromL1Cache cfg t (request cfg t acc) x) E (ClientStep .msi cfg t via (LineOk cfg) V cl hl x) := by
  unfold handleMsgFromL1Cache
  rw [check_pos (by rfl), ok_bind, check_pos (by simp [hout]), ok_bind]
  have hstate : ∀ st d, copy cfg t x acc.address = some (st, d) → st = .shared ∨ st = .modified := by
    intro st d hst
    obtain ⟨ph, h⟩ := hlines acc.address
    exact (h.copy_eq (t := t) (by rw [hcl]; exact hst)).2
  by_cases hop : acc.op = .read
  · have hno : copy cfg t x acc.address = none := by
      cases hcp : copy cfg t x acc.address with
      | none => rfl
      | some c =>
        have := hlack c.1 c.2 hcp
        rcases hstate c.1 c.2 hcp with h | h <;>
          simp [hop, h, MemOp.permissible, CacheState.readable] at this
    have hm : (request cfg t acc).type = .shReq := by simp [request, hop, L1.getShmemMsgType]
    dsimp only
    rw [hm]
    refine clientStep_request hlines hcl hiss happ (hc.forget ?_) hrouted hl1 hout
      isToDirectory_toDirectory rfl (lines_request hlines hcl hout hno rfl rfl ?_)
    · rintro b rfl; exact hno
    · simp [requestOf, toDirectory, ticket, request, hop, L1.getShmemMsgType]
  · have hty : L1.getShmemMsgType acc.op = .exReq := by
      cases h : acc.op <;> simp_all [L1.getShmemMsgType]
    have hm : (request cfg t acc).type = .exReq := hty
    dsimp only
    rw [hm]
    simp only [processExReqFromL1Cache]
    cases hcp : copy cfg t x acc.address with
    | none =>
      have hinfo : getInfo cfg t { x with outstanding := some (request cfg t acc) }
          (request cfg t acc).address = .default := getInfo_of_none (copy_eq_none.mp hcp)
      rw [hinfo, check_pos (.inl rfl), ok_bind, if_neg (by simp [L2Info.default])]
      refine clientStep_request hlines hcl hiss happ (hc.forget ?_) hrouted hl1 hout
        isToDirectory_toDirectory rfl (lines_request hlines hcl hout hcp rfl rfl ?_)
      · rintro b rfl; exact hcp
      · simp [requestOf, toDirectory, ticket, hm]
    | some c =>
      obtain ⟨st, d⟩ := c
      obtain rfl : st = .shared := by
        refine (hstate st d hcp).resolve_right fun h => ?_
        have := hlack st d hcp
        cases h' : acc.op <;> simp_all [MemOp.permissible, CacheState.writable]
      obtain ⟨loc, hl2⟩ := get_of_copy hcp
      have hinfo : getInfo cfg t { x with outstanding := some (request cfg t acc) }
          (request cfg t acc).address = ⟨.shared, loc⟩ := getInfo_of_get hl2
      have hco : CacheInv cfg t via (· = acc.address) { x with outstanding := some (request cfg t acc) } :=
        hc.congr rfl rfl rfl
      obtain ⟨c, hdrop, hinv, hg⟩ := hco.invalidateL2 hl2 hgone
      have hdrop : invalidateCacheLine cfg t { x with outstanding := some (request cfg t acc) }
        (request cfg t acc).address = _ := hdrop
      rw [hinfo, check_pos (.inr rfl), ok_bind, if_pos rfl, hdrop, ok_bind]
      -- the copy is given up first, and the request follows
      let x₁ : Tile A N := Tile.send { x with l2 := c } (cfg.home acc.address)
        (toDirectory .invRep t acc.address none (cfg.isApplicationTile t))
      have hlines₁ : ∀ b, LineOk cfg b (V b) (update (cl b) t (client cfg t x₁ b)) (hl b) :=
        lines_giveUp hlines hcl hcp hg isToDirectory_toDirectory rfl
      have hinv₁ : CacheInv cfg t via (fun _ => False) x₁ :=
        (hinv.mono fun b hb => hb.2 hb.1).congr rfl rfl rfl
      have hl1₁ : x₁.fromL1 t = [] := by
        rw [fromL1_send (isFromL1_of_ne (by simp [toDirectory]))]; exact hl1
      have hrouted₁ : AllRouted cfg t x₁ :=
        routed_send hrouted (.inl ⟨rfl, rfl, rfl⟩)
      have hcopy₁ : copy cfg t x₁ acc.address = none := copy_eq_none.mpr (by simp [x₁, PrL2.Tile.send, hg])
      have hcl₁ : ∀ b, update (cl b) t (client cfg t x₁ b) t = client cfg t x₁ b :=
        fun b => update_self ..
      have hk : requestOf (toDirectory .exReq t acc.address none (cfg.isApplicationTile t)) =
          some (ticket (request cfg t acc)) := by
        simp [requestOf, toDirectory, ticket, request, hty]
      have hstep := clientStep_request (p := .msi) (x := x₁) hlines₁ hcl₁ hiss happ hinv₁ hrouted₁
        hl1₁ hout isToDirectory_toDirectory rfl
        (lines_request (t := t) (x := x₁) hlines₁ hcl₁ hout hcopy₁ rfl rfl hk)
      refine ⟨hstep.tile, hstep.app, hstep.home, fun b u => ?_, fun b => ?_⟩
      · exact (hstep.down b u).trans (down_send_of_ne (.inl (by simp [toDirectory])))
      · have := hstep.lines b
        rwa [update_idem] at this

theorem handleMsgFromDramDirectory_sat (htile : TileInv .msi cfg t via x) (hopen : x.app.Open)
    (hdown : (hl m.address).down t = m :: ms) (hsend : sender = cfg.home m.address)
    (hch : ch.Ok cfg t) :
    Sat (handleMsgFromDramDirectory cfg t ch sender m x) E
      (ClientStep .msi cfg t via (LineOk cfg) V cl (readDown hl m.address t ms) x) := by
  obtain ⟨ph, h⟩ := hlines m.address
  have hport := h.port t
  rw [hdown] at hport
  unfold handleMsgFromDramDirectory
  rcases hport.downOk m (by simp) with ⟨hty | hty, -⟩ | hty | hty | hty <;> rw [hty]
  · exact processRepFromDramDirectory_sat (k := (.exReq, m.modeled)) hlines hcl htile hdown
      (by simp [grantOf, hty]) (by simp [hty]) hch
  · exact processRepFromDramDirectory_sat (k := (.shReq, m.modeled)) hlines hcl htile hdown
      (by simp [grantOf, hty]) (by simp [hty]) hch
  · exact processInvReqFromDramDirectory_sat hlines hcl htile hopen hdown hty hsend
  · exact processFlushReqFromDramDirectory_sat hlines hcl htile hopen hdown hty hsend
  · exact processWbReqFromDramDirectory_sat hlines hcl htile hopen hdown hty hsend

end Graphite.Msi
