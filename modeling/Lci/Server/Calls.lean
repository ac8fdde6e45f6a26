/-
The calls of the application and the steps of the progress call, from a state with no packet in the hand to
another. A send takes a packet from the pool and leaves it with the transport; a receive completion
takes the packet it was posted with through the protocol; the refill posts one more.
-/
import Lci.Server.Handover

namespace Lci.Server

open Lci.Hash Lci.Proto Ledger

section Calls

variable {s : Sys} {loc : PktId → Loc} {use : ReqId → ReqLoc} {p : PktId}

/-! ## Packets for sends -/

/-- The workers that have called, with this one, have fewer than 128 deques. -/
def FewPools (d : Dev) (env : Env) : Prop := (lcPoolGetLocal d.pool env.wid).2.lpools.length < 128

instance (d : Dev) (env : Env) : Decidable (FewPools d env) := inferInstanceAs (Decidable (_ < _))

/-- The deque of a worker is made once. -/
theorem getLocal_again {pool pool' : Pool} {wid : Nat} (ht : pool'.tls = (lcPoolGetLocal pool wid).2.tls)
    (h : TlsOk pool) : lcPoolGetLocal pool' wid = ((lcPoolGetLocal pool wid).1, pool') := by
  obtain ⟨-, -, -, -, hw⟩ := getLocal_spec h wid
  rw [← ht] at hw
  rw [lcPoolGetLocal, hw]

theorem getNb_tls (pool : Pool) (env : Env) : (lcPoolGetNb pool env).2.tls = (lcPoolGetLocal pool env.wid).2.tls ∧
    (lcPoolGetNb pool env).2.lpools.length = (lcPoolGetLocal pool env.wid).2.lpools.length := by
  unfold lcPoolGetNb
  generalize lcPoolGetLocal pool env.wid = x
  obtain ⟨pid, pool'⟩ := x
  dsimp only
  split
  · exact ⟨rfl, List.length_set⟩
  · exact ⟨rfl, List.length_set⟩

/-- What a worker's tag for its deque is worth after `lc_pool_get_nb`. -/
theorem getNb_poolid {pool : Pool} (h : TlsOk pool) (env : Env)
    (hf : (lcPoolGetLocal pool env.wid).2.lpools.length < 128) :
    lcPoolGetLocal (lcPoolGetNb pool env).2 env.wid = ((lcPoolGetLocal pool env.wid).1, (lcPoolGetNb pool env).2) ∧
      int8 (lcPoolGetLocal pool env.wid).1 = (lcPoolGetLocal pool env.wid).1 ∧
      (lcPoolGetLocal pool env.wid).1 < (lcPoolGetNb pool env).2.lpools.length := by
  obtain ⟨ht, hl⟩ := getNb_tls pool env
  obtain ⟨hlt, -⟩ := getLocal_spec h env.wid
  exact ⟨getLocal_again ht h, int8_of_lt (by omega), by omega⟩

/-- `LC_POOL_GET_OR_RETN`: a packet comes to the hand, or nothing happens. -/
theorem Own.getOrRetn (h : Own s loc use) (env : Env) :
    Asks s.dev (poolGetOrRetn env s.dev).2 [] ∧
    match (poolGetOrRetn env s.dev).1 with
    | some p => loc p = .pool ∧ Own { s with dev := (poolGetOrRetn env s.dev).2 } (Function.update loc p .hand) use ∧
      (poolGetOrRetn env s.dev).2 = s.dev.setPool (lcPoolGetNb s.dev.pool env).2
    | none => Own { s with dev := (poolGetOrRetn env s.dev).2 } loc use := by
  unfold poolGetOrRetn
  split_ifs
  · exact ⟨Asks.of_eq (Frame.refl _) rfl, h⟩
  · refine ⟨Asks.of_eq (frame_setPool _ _) rfl, ?_⟩
    have hg := h.getNb env
    dsimp only
    split
    · rename_i p hp
      rw [hp] at hg
      exact ⟨hg.1, hg.2, rfl⟩
    · rename_i hp
      rw [hp] at hg
      exact hg

/-- A packet of the pool is on its way with a message that is no RTR. -/
theorem Own.sends_settle (h : Own s loc use) (hp : loc p = .pool) {d d' : Dev} {m : Msg} (ha : Asks s.dev d [])
    (ho : Own { s with dev := d } (Function.update loc p .hand) use) (hproto : (d.pk p).context.proto ≠ .rtr)
    (hm : rtrOf s.dev.pageSize m = none) (heq : d' = Server.sendOn d p m) : Settles s loc (some d') := by
  have hlt : p < LC_SERVER_NUM_PKTS := h.lt_of_ne (by simp [hp])
  have hself : Function.update loc p .hand p = .hand := Function.update_self _ _ _
  have hsend := ho.sendOn hself hlt m hproto
  rw [Function.update_idem] at hsend
  subst heq
  have hasks : Asks d (Server.sendOn d p m) [] := by
    refine ⟨?_, [m], (sendOn_spec d p m).2.2.1, ?_⟩
    · unfold Server.sendOn
      split_ifs
      · exact ((frame_ibvRmaReg d).trans (frame_postSend _ _ _)).stays
      · exact (frame_postSend _ _ _).stays
    · rw [ha.1.pageSize]
      simp [hm]
  refine ⟨_, [], _, use, rfl, ha.trans hasks, by rw [List.append_nil]; exact hsend, fun q hq => ?_⟩
  by_cases hqp : q = p
  · subst hqp
    rw [Function.update_self] at hq
    cases hq
  · rwa [Function.update_of_ne hqp] at hq

/-- A call that got no packet. -/
theorem Settles.of_own {d : Dev} (ha : Asks s.dev d []) (ho : Own { s with dev := d } loc use) :
    Settles s loc (some d) :=
  ⟨d, [], loc, use, rfl, ha, by rw [List.append_nil]; exact ho, fun _ => id⟩

/-! ## Medium messages -/

theorem Own.mediumPacket (h : Own s loc use) (env : Env) (src : Nat) {size : Nat} (hs : size ≤ POST_MSG_SIZE) (ep : Nat)
    (hf : FewPools s.dev env) :
    ∃ o d, mediumPacket env s.dev src size ep = some (o, d) ∧ Asks s.dev d [] ∧
      match o with
      | some p => loc p = .pool ∧ Own { s with dev := d } (Function.update loc p .hand) use ∧
        (d.pk p).context.proto = .data
      | none => Own { s with dev := d } loc use := by
  obtain ⟨ha, hg⟩ := h.getOrRetn env
  unfold Server.mediumPacket
  generalize hx : poolGetOrRetn env s.dev = x at *
  obtain ⟨o, D⟩ := x
  cases o with
  | none => exact ⟨none, D, rfl, ha, hg⟩
  | some p =>
    obtain ⟨hp, ho, hD⟩ := hg
    dsimp only at hD ho ha ⊢
    obtain ⟨hagain, hint, hpid⟩ := getNb_poolid h.tls env hf
    have hlocal : lcPoolGetLocal D.pool env.wid = ((lcPoolGetLocal s.dev.pool env.wid).1, D.pool) := by
      rw [hD]
      exact hagain
    have htouch : Touch p D (if 1024 < size then lciPkInit (D.setPool (lcPoolGetLocal D.pool env.wid).2) ep
        (int8 (lcPoolGetLocal D.pool env.wid).1) .data p else lciPkInit D ep (-1) .data p) := by
      split_ifs
      · rw [hlocal, show D.setPool D.pool = D from rfl, hint]
        refine touch_setCtx D p (fun _ => rfl) fun _ => .inr ?_
        have hid : ((D.setCtx p fun c => { c with
            ep := ep, poolid := ((lcPoolGetLocal s.dev.pool env.wid).1 : Int), ref := 1
            proto := .data }).pk p).context.poolid = (lcPoolGetLocal s.dev.pool env.wid).1 := by
          simp [Dev.setCtx]
        rw [hid]
        refine ⟨by omega, ?_⟩
        show _ < D.pool.lpools.length
        rw [hD, Int.toNat_natCast]
        exact hpid
      · exact touch_pkInit D ep .data p
    have hproto : ((if 1024 < size then lciPkInit (D.setPool (lcPoolGetLocal D.pool env.wid).2) ep
        (int8 (lcPoolGetLocal D.pool env.wid).1) .data p else
          lciPkInit D ep (-1) .data p).pk p).context.proto = .data := by
      split_ifs <;> simp [lciPkInit, Dev.setCtx]
    generalize (if 1024 < size then lciPkInit (D.setPool (lcPoolGetLocal D.pool env.wid).2) ep
      (int8 (lcPoolGetLocal D.pool env.wid).1) .data p else lciPkInit D ep (-1) .data p) = E at *
    have ht := htouch.trans (touch_setData E p p (.buffer (readMem E.mem src size)))
    refine ⟨some p, _, if_pos hs, ha.trans ht.asks, hp, ho.touch (Function.update_self _ _ _) ht, ?_⟩
    simpa [Dev.setData] using hproto

/-- A call on the packet of a medium message: its message is no RTR. -/
theorem Own.medium (h : Own s loc use) (env : Env) (src : Nat) {size : Nat} (hs : size ≤ POST_MSG_SIZE) (ep : Nat)
    (hf : FewPools s.dev env) {g : Option PktId × Dev → Option (LcStatus × Dev)}
    (hnone : ∀ d, g (none, d) = some (.errRetry, d))
    (hsome : ∀ p d, ∃ m, rtrOf s.dev.pageSize m = none ∧ g (some p, d) = some (.ok, Server.sendOn d p m)) :
    Settles s loc (((Server.mediumPacket env s.dev src size ep).bind g).map Prod.snd) := by
  obtain ⟨o, d, he, ha, ho⟩ := h.mediumPacket env src hs ep hf
  rw [he, Option.bind_some]
  cases o with
  | none => rw [hnone]; exact Settles.of_own ha ho
  | some p =>
    obtain ⟨hp, ho, hproto⟩ := ho
    obtain ⟨m, hm, heq⟩ := hsome p d
    rw [heq]
    exact h.sends_settle hp ha ho (by rw [hproto]; simp) hm rfl

theorem sendOn_plain {d : Dev} {m : Msg} (hm : ¬ OriginReg d.maxInline m) (p : PktId) :
    sendOn d p m = postSend d p m := by
  unfold sendOn
  rw [if_neg fun h => hm h.2]

theorem rtrOf_send (n : Nat) (dst g : CInt) {k : LcProto} (hk : k ≠ .rtr) (m : CInt) (size : Nat) (data : PkData) :
    rtrOf n (.send dst (makeProto g k m) size data) = none := by
  cases data with
  | buffer b => rfl
  | rdz r =>
    show (if protoOfBits (protoGetProto (makeProto g k m)) = .rtr then _ else none) = none
    rw [protoGetProto_word, protoOfBits_bits, if_neg hk]

theorem Own.lcSendm (h : Own s loc use) (env : Env) (src : Nat) {size : Nat} (hs : size ≤ POST_MSG_SIZE)
    (rank tag : CInt)
    (ep : Nat) (hf : FewPools s.dev env) : Settles s loc ((lcSendm env s.dev src size rank tag ep).map Prod.snd) := by
  refine h.medium env src hs ep hf (fun _ => rfl) fun p d => ?_
  refine ⟨.send rank (makeProto (BitVec.ofNat 32 ep) .data tag) size (d.pk p).data, rtrOf_send _ _ _ (by simp) _ _ _,
    ?_⟩
  rw [sendOn_plain (m := .send ..) id p]
  rfl

theorem Own.lcPutm (h : Own s loc use) (env : Env) (src : Nat) {size : Nat} (hs : size ≤ POST_MSG_SIZE) (rank : CInt)
    (addr ep : Nat) (hf : FewPools s.dev env) :
    Settles s loc ((lcPutm env s.dev src size rank addr ep).map Prod.snd) := by
  refine h.medium env src hs ep hf (fun _ => rfl) fun p d => ?_
  refine ⟨.put rank (d.rep rank).base (putOffset d rank addr) (d.rep rank).rkey
    (.bytes ((d.pk p).data.bytes.take size)) none, rfl, ?_⟩
  rw [sendOn_plain (m := .put _ _ _ _ (.bytes _) _) id p]
  rfl

theorem Own.lcPutms (h : Own s loc use) (env : Env) (src : Nat) {size : Nat} (hs : size ≤ POST_MSG_SIZE) (rank : CInt)
    (addr : Nat) (metaVal : CInt) (ep : Nat) (hf : FewPools s.dev env) :
    Settles s loc ((lcPutms env s.dev src size rank addr metaVal ep).map Prod.snd) := by
  refine h.medium env src hs ep hf (fun _ => rfl) fun p d => ?_
  refine ⟨.put rank (d.rep rank).base (putOffset d rank addr) (d.rep rank).rkey (.bytes ((d.pk p).data.bytes.take size))
    (some (makeProto (BitVec.ofNat 32 ep) .long metaVal)), rfl, ?_⟩
  rw [sendOn_plain (m := .put _ _ _ _ (.bytes _) _) id p]
  rfl

/-! ## Long messages -/

theorem Own.lcSendl (h : Own s loc use) (env : Env) (src size : Nat) (rank tag : CInt) (ep cb ce xfer : Nat) :
    Settles s loc (some (lcSendl env s.dev src size rank tag ep cb ce xfer).2) := by
  obtain ⟨ha, hg⟩ := h.getOrRetn env
  unfold Server.lcSendl
  generalize poolGetOrRetn env s.dev = x at *
  obtain ⟨_ | p, D⟩ := x
  · exact Settles.of_own ha hg
  · obtain ⟨hp, ho, -⟩ := hg
    have ht := (touch_pkInit D ep .rts p).trans (touch_setData (lciPkInit D ep (-1) .rts p) p p
      (.rdz { ((lciPkInit D ep (-1) .rts p).pk p).data.view with
        srcAddr := src, size := size, cb := cb, ce := ce, xfer := xfer }))
    refine h.sends_settle hp (ha.trans ht.asks) (ho.touch (Function.update_self _ _ _) ht) ?_
      (rtrOf_send _ _ _ (by simp) _ _ _) (sendOn_plain id p).symm
    simp [Dev.setData, lciPkInit, Dev.setCtx]

theorem Own.longPacket (h : Own s loc use) (env : Env) (ep cb ce xfer : Nat) :
    Asks s.dev (longPacket env s.dev ep cb ce xfer).2 [] ∧
    match (longPacket env s.dev ep cb ce xfer).1 with
    | some p => loc p = .pool ∧
      Own { s with dev := (longPacket env s.dev ep cb ce xfer).2 } (Function.update loc p .hand) use ∧
      ((longPacket env s.dev ep cb ce xfer).2.pk p).context.proto = .long
    | none => Own { s with dev := (longPacket env s.dev ep cb ce xfer).2 } loc use := by
  obtain ⟨ha, hg⟩ := h.getOrRetn env
  unfold Server.longPacket
  generalize poolGetOrRetn env s.dev = x at *
  obtain ⟨_ | p, D⟩ := x
  · exact ⟨ha, hg⟩
  · obtain ⟨hp, ho, -⟩ := hg
    have ht := (touch_pkInit D ep .long p).trans (touch_setData (lciPkInit D ep (-1) .long p) p p
      (.rdz { ((lciPkInit D ep (-1) .long p).pk p).data.view with cb := cb, ce := ce, xfer := xfer }))
    refine ⟨ha.trans ht.asks, hp, ho.touch (Function.update_self _ _ _) ht, ?_⟩
    simp [Dev.setData, lciPkInit, Dev.setCtx]

theorem sendOn_putl (d : Dev) (p : PktId) (rank : CInt) (src size base : Nat) (offset rkey : BitVec 32)
    (m : Option (BitVec 32)) :
    sendOn d p (.put rank base offset rkey (.mem src size) m) = lcServerPutl d rank src base offset rkey size m p := by
  unfold lcServerPutl sendOn
  dsimp only
  by_cases hb : d.backend = .ibv
  · rw [if_pos hb, if_pos ⟨hb, trivial⟩]
  · rw [if_neg hb, if_neg fun hx => hb hx.1]

/-- A long put, with or without a meta. -/
theorem Own.putl (h : Own s loc use) (env : Env) (src size : Nat) (rank : CInt) (addr ep cb ce xfer : Nat)
    (m : Option (BitVec 32)) : Settles s loc (some (match Server.longPacket env s.dev ep cb ce xfer with
      | (none, d) => d
      | (some p, d) => lcServerPutl d rank src (d.rep rank).base (putOffset d rank addr)
        (d.rep rank).rkey size m p)) := by
  obtain ⟨ha, hg⟩ := h.longPacket env ep cb ce xfer
  generalize Server.longPacket env s.dev ep cb ce xfer = x at *
  obtain ⟨_ | p, D⟩ := x
  · exact Settles.of_own ha hg
  · obtain ⟨hp, ho, hproto⟩ := hg
    exact h.sends_settle hp ha ho (by rw [hproto]; simp)
      (m := .put rank (D.rep rank).base (putOffset D rank addr) (D.rep rank).rkey (.mem src size) m) rfl
      (sendOn_putl D p rank src size (D.rep rank).base (putOffset D rank addr) (D.rep rank).rkey m).symm

theorem lcPutl_dev (env : Env) (d : Dev) (src size : Nat) (rank : CInt) (addr ep cb ce xfer : Nat) :
    (lcPutl env d src size rank addr ep cb ce xfer).2 = match longPacket env d ep cb ce xfer with
      | (none, d) => d
      | (some p, d) => lcServerPutl d rank src (d.rep rank).base (putOffset d rank addr)
        (d.rep rank).rkey size none p := by
  unfold lcPutl
  rcases longPacket env d ep cb ce xfer with ⟨_ | p, d⟩ <;> rfl

theorem lcPutls_dev (env : Env) (d : Dev) (src size : Nat) (rank : CInt) (addr : Nat) (metaVal : CInt)
    (ep cb ce xfer : Nat) :
    (lcPutls env d src size rank addr metaVal ep cb ce xfer).2 = match longPacket env d ep cb ce xfer with
      | (none, d) => d
      | (some p, d) => lcServerPutl d rank src (d.rep rank).base (putOffset d rank addr) (d.rep rank).rkey size
          (some (makeProto (BitVec.ofNat 32 ep) .long metaVal)) p := by
  unfold lcPutls
  rcases longPacket env d ep cb ce xfer with ⟨_ | p, d⟩ <;> rfl

theorem Own.lcPutl (h : Own s loc use) (env : Env) (src size : Nat) (rank : CInt) (addr ep cb ce xfer : Nat) :
    Settles s loc (some (lcPutl env s.dev src size rank addr ep cb ce xfer).2) := by
  rw [lcPutl_dev]
  exact h.putl env src size rank addr ep cb ce xfer none

theorem Own.lcPutls (h : Own s loc use) (env : Env) (src size : Nat) (rank : CInt) (addr : Nat) (metaVal : CInt)
    (ep cb ce xfer : Nat) : Settles s loc (some (lcPutls env s.dev src size rank addr metaVal ep cb ce xfer).2) := by
  rw [lcPutls_dev]
  exact h.putl env src size rank addr ep cb ce xfer _

/-! ## Posted receives -/

/-- The counter and the flag of the receives are no place. -/
theorem Own.counted (h : Own s loc use) (n : Int) (b : Bool) :
    Own { s with dev := { s.dev with recvPosted := n, deadlock := b } } loc use :=
  ⟨h.range, h.pool, h.posted, h.sends, h.owed, h.pkts, h.reqs, h.sided, h.queue, h.held, h.done, h.parent, h.rdz,
    h.plain, h.tls, h.poolid, h.buffer, h.mrs⟩

/-- The packet of a completed receive comes to the hand. -/
theorem Own.unpost (h : Own s loc use) {l : List Post} (n : Int)
    (hl : (s.dev.posted.filterMap Post.ctx).Perm (p :: l.filterMap Post.ctx)) : loc p = .posted ∧
      Own { s with dev := { s.dev with posted := l, recvPosted := n } } (Function.update loc p .hand) use := by
  have hp : loc p = .posted := h.posted.mem (hl.symm.subset List.mem_cons_self)
  have hk : Keeps p s.dev { s.dev with posted := l, recvPosted := n } := Keeps.of_eq p rfl rfl rfl rfl rfl rfl
  refine ⟨hp, h.move hk (by simp [hp, Loc.Transport]) (by simp [Loc.Transport]) (by simp) ?_ ?_ ?_ (by simp) (by simp)
    (h.mrs_of_touch (by simp [hp, Loc.Awaiting]) hk rfl rfl)⟩
  · exact h.posted.takeAt (by simp) hl
  · exact h.sends.keep (by simp [hp, Loc.Sending])
  · exact h.owed.keep (by simp [hp, Loc.Awaiting])

/-- A packet in the hand is posted. -/
theorem Own.post (h : Own s loc use) (hp : loc p = .hand) (hlt : p < LC_SERVER_NUM_PKTS) {x : Post}
    (hx : x.ctx = some p) :
    Own { s with dev := { s.dev with posted := s.dev.posted ++ [x] } } (Function.update loc p .posted) use := by
  have hk : Keeps p s.dev { s.dev with posted := s.dev.posted ++ [x] } := Keeps.of_eq p rfl rfl rfl rfl rfl rfl
  refine h.move hk (by simp [hp, Loc.Transport]) (by simp [Loc.Transport]) (fun _ => hlt) ?_ ?_ ?_ (by simp) (by simp)
    (h.mrs_of_touch (by simp [hp, Loc.Awaiting]) hk rfl rfl)
  · show Holds ((s.dev.posted ++ [x]).filterMap Post.ctx) _
    rw [List.filterMap_append]
    refine h.posted.putAt (by simp [hp]) ?_
    simp only [List.filterMap_cons, List.filterMap_nil, hx]
    exact List.perm_append_comm
  · exact h.sends.keep (by simp [hp, Loc.Sending])
  · exact h.owed.keep (by simp [hp, Loc.Awaiting])

theorem stays_posted (d : Dev) {l : List Post} (hl : EagerCtx d → ∀ x ∈ l, x.tag2 = PSM_RECV_DATA → x.ctx ≠ none)
    (n : Int) (b : Bool) : Stays d { d with posted := l, recvPosted := n, deadlock := b } :=
  ⟨rfl, rfl, rfl, fun _ => rfl, hl⟩

theorem eager_append {d : Dev} (hd : EagerCtx d) {x : Post} (hx : x.ctx ≠ none) :
    ∀ y ∈ d.posted ++ [x], y.tag2 = PSM_RECV_DATA → y.ctx ≠ none := by
  intro y hy
  rcases List.mem_append.1 hy with hy | hy
  · exact hd y hy
  · rw [List.mem_singleton.1 hy]
    exact fun _ => hx

/-- A packet that is in the hand is posted again, or for the first time. -/
theorem Own.posts (h : Own s loc use) (hp : loc p = .hand) (hlt : p < LC_SERVER_NUM_PKTS) {x : Post}
    (hx : x.ctx = some p) (n : Int) (b : Bool) :
    Hands s loc p (some { s.dev with posted := s.dev.posted ++ [x], recvPosted := n, deadlock := b }) := by
  refine ⟨_, [], .posted, use, rfl,
    Asks.of_stays (stays_posted s.dev (fun he => eager_append he ?_) n b) rfl, by simp, ?_⟩
  · rw [hx]; simp
  · rw [List.append_nil]
    exact (h.post hp hlt hx).counted n b

/-! ## Refills -/

/-- One more receive on verbs, if a packet can be had. -/
theorem Own.ibvRefill (h : Own s loc use) (env : Env) (hf : FewPools s.dev env) :
    Settles s loc (some (ibvRefill env s.dev)) := by
  unfold Server.ibvRefill
  split_ifs
  · have hg := h.getNb env
    have ha : Asks s.dev (s.dev.setPool (lcPoolGetNb s.dev.pool env).2) [] := Asks.of_eq (frame_setPool _ _) rfl
    obtain ⟨hagain, hint, hpid⟩ := getNb_poolid h.tls env hf
    cases hn : (lcPoolGetNb s.dev.pool env).1 with
    | none =>
      rw [hn] at hg
      unfold ibvPostRecv
      dsimp only
      split_ifs
      · refine Settles.of_own (ha.trans (Asks.of_stays ⟨rfl, rfl, rfl, fun _ => rfl, id⟩ rfl)) (hg.counted _ true)
      · exact Settles.of_own ha hg
    | some p =>
      rw [hn] at hg
      obtain ⟨hp, ho⟩ := hg
      have hself : Function.update loc p .hand p = .hand := Function.update_self _ _ _
      unfold ibvPostRecv
      dsimp only
      rw [show (s.dev.setPool (lcPoolGetNb s.dev.pool env).2).pool = (lcPoolGetNb s.dev.pool env).2 from rfl, hagain,
        hint]
      have ht : Touch p (s.dev.setPool (lcPoolGetNb s.dev.pool env).2)
        ((s.dev.setPool (lcPoolGetNb s.dev.pool env).2).setCtx p
          fun c => { c with poolid := ((lcPoolGetLocal s.dev.pool env.wid).1 : Int) }) := by
        refine touch_setCtx _ p (fun _ => rfl) fun _ => .inr ?_
        have hid : (((s.dev.setPool (lcPoolGetNb s.dev.pool env).2).setCtx p fun c =>
            { c with poolid := ((lcPoolGetLocal s.dev.pool env.wid).1 : Int) }).pk p).context.poolid =
            (lcPoolGetLocal s.dev.pool env.wid).1 := by simp [Dev.setCtx]
        rw [hid]
        exact ⟨by omega, by rw [Int.toNat_natCast]; exact hpid⟩
      refine Settles.trans (ha.trans ht.asks) (Hands.settles ((ho.touch hself ht).posts hself
        (h.lt_of_ne (by simp [hp])) (x := ⟨0, .pkt p, POST_MSG_SIZE, some p⟩) rfl _ _) fun q hq hl => ?_)
      rwa [Function.update_of_ne hq] at hl
  · exact Settles.of_own (Asks.of_eq (Frame.refl _) rfl) h

/-- One more receive on PSM2, if a packet can be had. -/
theorem Own.psm2Refill (h : Own s loc use) (env : Env) : Settles s loc (some (psm2Refill env s.dev)) := by
  unfold Server.psm2Refill psm2TryPost
  split_ifs
  · have hg := h.getNb env
    have ha : Asks s.dev (s.dev.setPool (lcPoolGetNb s.dev.pool env).2) [] := Asks.of_eq (frame_setPool _ _) rfl
    cases hn : (lcPoolGetNb s.dev.pool env).1 with
    | none =>
      rw [hn] at hg
      unfold lcServerPostRecv
      dsimp only
      split_ifs
      · exact Settles.of_own (ha.trans (Asks.of_stays ⟨rfl, rfl, rfl, fun _ => rfl, id⟩ rfl)) (hg.counted _ true)
      · exact Settles.of_own ha hg
    | some p =>
      rw [hn] at hg
      obtain ⟨hp, ho⟩ := hg
      refine Settles.trans ha (Hands.settles (ho.posts (Function.update_self _ _ _) (h.lt_of_ne (by simp [hp]))
        (x := ⟨PSM_RECV_DATA, .pkt p, POST_MSG_SIZE, some p⟩) rfl _ _) fun q hq hl => ?_)
      rwa [Function.update_of_ne hq] at hl
  · exact Settles.of_own (Asks.of_eq (Frame.refl _) rfl) h

/-! ## Arrivals on verbs -/

theorem takeRecv_perm {l : List Post} {p : PktId} (h : p ∈ l.filterMap Post.ctx) :
    (l.filterMap Post.ctx).Perm (p :: (l.eraseP fun x => x.ctx = some p).filterMap Post.ctx) := by
  obtain ⟨x, hx, hctx⟩ := List.mem_filterMap.1 h
  obtain ⟨y, l₁, l₂, -, hy, hl, he⟩ :=
    List.exists_of_eraseP (p := fun x : Post => x.ctx = some p) hx (by simpa using hctx)
  rw [he, hl, List.filterMap_append, List.filterMap_append, List.filterMap_cons, show y.ctx = some p by simpa using hy]
  exact List.perm_middle

/-- The device on which a receive completion is served: its packet is in the hand. -/
theorem Own.ibvTake (h : Own s loc use) {wc : Wc} (hw : wc.wrId ∈ s.dev.posted.filterMap Post.ctx) :
    loc wc.wrId = .posted ∧
    Own { s with dev := { ibvTakeRecv s.dev wc with recvPosted := s.dev.recvPosted - 1 } }
      (Function.update loc wc.wrId .hand) use ∧
    Asks s.dev { ibvTakeRecv s.dev wc with recvPosted := s.dev.recvPosted - 1 } [] := by
  obtain ⟨hp, ho⟩ := h.unpost (s.dev.recvPosted - 1) (takeRecv_perm hw)
  refine ⟨hp, ho, Asks.of_stays (stays_posted s.dev (fun he x hx => ?_) _ _) rfl⟩
  exact he x (List.mem_of_mem_eraseP hx)

/-- What the progress call writes to a packet before the protocol has it. -/
theorem touch_arrived (d : Dev) (p : PktId) (f : Req → Req)
    (hf : ∀ q, (f q).parent = q.parent ∧ (f q).buffer = q.buffer) :
    Touch p d ((d.setReqPtr p (.own p)).setReq (.own p) f) ∧
      ((d.setReqPtr p (.own p)).setReq (.own p) f).reqPtr p = .own p ∧
      ((d.setReqPtr p (.own p)).setReq (.own p) f).reqOf p = f (d.pk p).context.reqS := by
  refine ⟨(touch_setReqPtr d p (.own p)).trans (touch_setReq _ p (.inl rfl) fun q => ⟨(hf q).1, fun h => ?_⟩), ?_, ?_⟩
  · rw [(hf q).2]
    exact h
  · rw [reqPtr_setReq, reqPtr_setReqPtr]
  · simp [Dev.setReqPtr, Dev.setReq, Dev.reqOf, Dev.reqPtr, Dev.getReq, Dev.setCtx]

/-- From the packet in the hand back to none. -/
theorem Hands.settles_from {d : Dev} {r : Option Dev} (h : Hands { s with dev := d } (Function.update loc p .hand) p r)
    (ha : Asks s.dev d []) : Settles s loc r := by
  refine Settles.trans ha (Hands.settles h fun q hq hl => ?_)
  rwa [Function.update_of_ne hq] at hl

theorem Own.ibvServeRecv_recv (h : Own s loc use) {wc : Wc} (hw : wc.wrId ∈ s.dev.posted.filterMap Post.ctx)
    (hps : s.dev.pageSize < 2 ^ 30) (ho : wc.opcode = .recv) (har : Arrives s.dev wc.immData wc.rank) (env : Env) :
    Settles s loc (ibvServeRecv env (ibvTakeRecv s.dev wc) wc) := by
  obtain ⟨hp, hown, ha⟩ := h.ibvTake hw
  have hself : Function.update loc wc.wrId .hand wc.wrId = .hand := Function.update_self _ _ _
  unfold ibvServeRecv
  dsimp only
  rw [if_pos (by simp [ho])]
  show Settles s loc (lciServeRecv env
    (((({ ibvTakeRecv s.dev wc with recvPosted := s.dev.recvPosted - 1 } : Dev).setData
    wc.wrId wc.data).setReqPtr wc.wrId (.own wc.wrId)).setReq (.own wc.wrId) fun q =>
      { q with rank := wc.rank, rhandle := wc.rank, size := wc.byteLen }) wc.wrId wc.immData)
  generalize ({ ibvTakeRecv s.dev wc with recvPosted := s.dev.recvPosted - 1 } : Dev) = D at *
  have htd := touch_setData D wc.wrId wc.wrId wc.data
  generalize D.setData wc.wrId wc.data = E at *
  obtain ⟨ht, hptr, hreq⟩ :=
    touch_arrived E wc.wrId (fun q => { q with rank := wc.rank, rhandle := wc.rank, size := wc.byteLen })
    fun _ => ⟨rfl, rfl⟩
  generalize ((E.setReqPtr wc.wrId (.own wc.wrId)).setReq (.own wc.wrId) fun q =>
    { q with rank := wc.rank, rhandle := wc.rank, size := wc.byteLen }) = F at *
  have hst := ha.trans (htd.trans ht).asks
  refine Hands.settles_from (p := wc.wrId) (d := F) ?_ hst
  refine (hown.touch hself (htd.trans ht)).serveRecv hself (h.lt_of_ne (by simp [hp])) ?_ env hptr ?_
  · rw [show _ = s.dev.pageSize from hst.1.pageSize]
    exact hps
  · refine ⟨har.kind, by rw [hreq]; exact har.rank, ?_⟩
    show F.build.hasAr (F.eps _).ar = true
    rw [hst.1.build, hst.1.kinds]
    exact har.ar

theorem Own.ibvServeRecv_signal (h : Own s loc use) {wc : Wc} (hw : wc.wrId ∈ s.dev.posted.filterMap Post.ctx)
    (ho : wc.opcode = .recvRdmaWithImm) (hi : wc.immData &&& IBV_IMM_RTR = 0) (env : Env) :
    Settles s loc (ibvServeRecv env (ibvTakeRecv s.dev wc) wc) := by
  obtain ⟨hp, hown, ha⟩ := h.ibvTake hw
  have hself : Function.update loc wc.wrId .hand wc.wrId = .hand := Function.update_self _ _ _
  unfold ibvServeRecv
  dsimp only
  rw [if_neg (by simp [ho]), if_neg (by simp [hi])]
  show Settles s loc (lciServeRecvRdma env
    (({ ibvTakeRecv s.dev wc with recvPosted := s.dev.recvPosted - 1 } : Dev).setReqPtr
    wc.wrId (.own wc.wrId)) wc.wrId wc.immData)
  generalize ({ ibvTakeRecv s.dev wc with recvPosted := s.dev.recvPosted - 1 } : Dev) = D at *
  have ht := touch_setReqPtr D wc.wrId (.own wc.wrId)
  refine Hands.settles_from (p := wc.wrId) (d := D.setReqPtr wc.wrId (.own wc.wrId)) ?_ (ha.trans ht.asks)
  exact (hown.touch hself ht).serveRecvRdma hself (h.lt_of_ne (by simp [hp])) env wc.immData (reqPtr_setReqPtr _ _ _)

theorem Own.ibvServeRecv_imm (h : Own s loc use) {wc : Wc} (hw : wc.wrId ∈ s.dev.posted.filterMap Post.ctx)
    (hps : s.dev.pageSize < 2 ^ 30) (ho : wc.opcode = .recvRdmaWithImm) {q : PktId} (hq : q ∈ s.owed)
    (hi : wc.immData = BitVec.ofNat 32 (pktOffset s.dev.pageSize q) ||| IBV_IMM_RTR) (env : Env) :
    Settles { s with owed := s.owed.erase q } loc (ibvServeRecv env (ibvTakeRecv s.dev wc) wc) := by
  obtain ⟨hp, hown, ha⟩ := h.ibvTake hw
  have haw : (loc q).Awaiting := h.owed.mem hq
  have hqlt : q < LC_SERVER_NUM_PKTS := h.lt_of_ne fun e => by rw [e] at haw; exact haw
  have hne : wc.wrId ≠ q := by
    rintro rfl
    rw [hp] at haw
    exact haw
  rw [rtr_served (d := ibvTakeRecv s.dev wc) hps hqlt env ho hi rfl]
  generalize hD : ({ ibvTakeRecv s.dev wc with recvPosted := (ibvTakeRecv s.dev wc).recvPosted - 1 } : Dev) = D
  rw [show ({ ibvTakeRecv s.dev wc with recvPosted := s.dev.recvPosted - 1 } : Dev) = D from hD] at hown ha
  obtain ⟨E, ps, j, use', he, hask, hj, hE⟩ := hown.serveImm hq env
  dsimp only at he
  rw [he, Option.bind_some]
  -- the packet that brought the immediate goes to the pool
  have hhand : Function.update (Function.update loc wc.wrId .hand) q j wc.wrId = .hand := by
    rw [Function.update_of_ne hne, Function.update_self]
  obtain ⟨pool, hput, hpool⟩ := hE.poolPut hhand (h.lt_of_ne (by simp [hp])) env
  dsimp only at hput
  rw [hput]
  refine ⟨_, ps, _, use', rfl, ?_, hpool, fun x hx => ?_⟩
  · have := (ha.trans hask).trans (Asks.of_eq (frame_setPool E pool) rfl)
    rw [List.nil_append, List.append_nil] at this
    exact this
  · by_cases hxp : x = wc.wrId
    · subst hxp
      rw [Function.update_self] at hx
      cases hx
    · rw [Function.update_of_ne hxp] at hx
      by_cases hxq : x = q
      · subst hxq
        rw [Function.update_self] at hx
        exact absurd hx hj
      · rwa [Function.update_of_ne hxq, Function.update_of_ne hxp] at hx

/-! ## Arrivals on PSM2 -/

theorem touch_deposit (d : Dev) (p : PktId) (x : Post) (data : PkData) : Touch p d (deposit d x data) := by
  unfold deposit
  split
  · exact Touch.refl p d
  · exact touch_mem d p _
  · exact touch_setData d p _ data

theorem touch_copyOut (d : Dev) (p q : PktId) (tag0 : BitVec 32) (len : Nat) : Touch p d (copyOut d q tag0 len) :=
  touch_mem d p _

theorem erase_perm {l : List Post} {x : Post} (hx : x ∈ l) :
    (l.filterMap Post.ctx).Perm (x.ctx.toList ++ (l.erase x).filterMap Post.ctx) := by
  have := (List.perm_cons_erase hx).filterMap Post.ctx
  rw [List.filterMap_cons] at this
  cases hc : x.ctx <;> simpa [hc] using this

theorem stays_erase (d : Dev) (x : Post) (data : PkData) :
    Asks d (deposit { d with posted := d.posted.erase x } x data) [] := by
  have hs : Stays d { d with posted := d.posted.erase x } :=
    ⟨rfl, rfl, rfl, fun _ => rfl, fun he y hy => he y (List.mem_of_mem_erase hy)⟩
  exact (Asks.of_stays hs rfl).trans (touch_deposit { d with posted := d.posted.erase x } 0 x data).asks

/-- The device on which a message is served, when its receive was posted with a packet. -/
theorem Own.psm2Take (h : Own s loc use) {x : Post} (hx : x ∈ s.dev.posted) (hc : x.ctx = some p) (data : PkData) :
    loc p = .posted ∧ Own { s with dev := deposit { s.dev with posted := s.dev.posted.erase x } x data }
      (Function.update loc p .hand) use := by
  have hperm := erase_perm hx
  rw [hc] at hperm
  obtain ⟨hp, ho⟩ := h.unpost s.dev.recvPosted hperm
  exact ⟨hp, ho.touch (Function.update_self _ _ _) (touch_deposit _ p x data)⟩

/-- The device on which a message is served, when its receive was posted without a packet. -/
theorem Own.psm2TakeBare (h : Own s loc use) {x : Post} (hx : x ∈ s.dev.posted) (hc : x.ctx = none) (data : PkData) :
    Own { s with dev := deposit { s.dev with posted := s.dev.posted.erase x } x data } loc use := by
  have hperm := erase_perm hx
  rw [hc] at hperm
  have ho : Own { s with dev := { s.dev with posted := s.dev.posted.erase x } } loc use :=
    ⟨h.range, h.pool, h.posted.perm hperm, h.sends, h.owed, h.pkts, h.reqs, h.sided, h.queue, h.held, h.done, h.parent,
      h.rdz, h.plain, h.tls, h.poolid, h.buffer, h.mrs⟩
  exact ho.touch (h.range LC_SERVER_NUM_PKTS le_rfl) (touch_deposit _ _ x data)

theorem Hands.count {r : Option Dev} (h : Hands s loc p r) (n : Int) :
    Hands s loc p (r.bind fun d => some (countRecv d n)) := by
  obtain ⟨d, ps, j, use', rfl, ha, hj, ho⟩ := h
  refine ⟨_, ps, j, use', rfl, ?_, hj, ho.counted _ d.deadlock⟩
  have hc : Asks d (countRecv d n) [] := Asks.of_stays ⟨rfl, rfl, rfl, fun _ => rfl, id⟩ rfl
  have := ha.trans hc
  rwa [List.append_nil] at this

/-- An eager message: all four kinds hand the packet of the receive on. -/
theorem Own.psm2ServeRecv_eager (h : Own s loc use) (hp : loc p = .hand) (hlt : p < LC_SERVER_NUM_PKTS)
    (hps : s.dev.pageSize < 2 ^ 30) {m : MqMsg} (hm : Emitted m) (hk : ¬ IsKey m.tag.tag2)
    (har : m.tag.tag2 = PSM_RECV_DATA → Arrives s.dev m.tag.tag0 m.tag.tag1) (env : Env) :
    Hands s loc p (psm2ServeRecv env s.dev (some p) m) := by
  unfold psm2ServeRecv
  dsimp only
  have htr := touch_setReqPtr s.dev p (.own p)
  have hcp := htr.trans (touch_copyOut (s.dev.setReqPtr p (.own p)) p p m.tag.tag0 m.len)
  rcases hm.cases with ht | ht | ht | ⟨ht, -⟩ | hkey
  · rw [if_pos (by rw [ht]; decide)]
    obtain ⟨htouch, hptr, hreq⟩ := touch_arrived s.dev p (fun q =>
      { q with rhandle := m.peer, rank := m.tag.tag1, size := m.len }) fun _ => ⟨rfl, rfl⟩
    show Hands s loc p ((lciServeRecv env ((s.dev.setReqPtr p (.own p)).setReq (.own p) fun q =>
      { q with rhandle := m.peer, rank := m.tag.tag1, size := m.len }) p m.tag.tag0).bind fun d =>
        some (countRecv d (-1)))
    generalize ((s.dev.setReqPtr p (.own p)).setReq (.own p) fun q =>
      { q with rhandle := m.peer, rank := m.tag.tag1, size := m.len }) = E at *
    refine Hands.count (Hands.touch htouch ((h.touch hp htouch).serveRecv hp hlt ?_ env hptr ?_)) (-1)
    · rw [show _ = s.dev.pageSize from htouch.frame.pageSize]
      exact hps
    · refine ⟨(har ht).kind, by rw [hreq]; exact (har ht).rank, ?_⟩
      show E.build.hasAr (E.eps _).ar = true
      rw [htouch.frame.build, (htouch.frame.kinds _).1]
      exact (har ht).ar
  · rw [if_neg (by rw [ht]; decide), if_pos (by rw [ht]; decide)]
    exact Hands.touch hcp ((h.touch hp hcp).posts hp hlt (x := ⟨PSM_RECV_DATA, .pkt p, POST_MSG_SIZE, some p⟩) rfl _ _)
  · rw [if_neg (by rw [ht]; decide), if_neg (by rw [ht]; decide), if_pos (by rw [ht]; decide)]
    exact Hands.count (Hands.touch hcp ((h.touch hp hcp).serveRecvRdma hp hlt env m.tag.tag1 (reqPtr_setReqPtr _ _ _)))
      (-1)
  · rw [if_neg (by rw [ht]; decide), if_neg (by rw [ht]; decide), if_neg (by rw [ht]; decide),
      if_pos (by rw [ht]; decide)]
    let x : Post :=
      ⟨m.tag.tag1, .mem (m.tag.tag0.toNat + s.dev.heap), rmaLen (bytesSize (s.dev.pk p).data.bytes), some p⟩
    exact h.posts hp hlt (x := x) rfl _ _
  · exact absurd hkey hk

/-- Data under a key that is no write of a rendezvous: the data of a long put. -/
theorem Own.psm2ServeRecv_put (h : Own s loc use) (hp : loc p = .hand) (hlt : p < LC_SERVER_NUM_PKTS) {m : MqMsg}
    (hk : IsKey m.tag.tag2) (hi : m.tag.tag1 ≠ PSM_RDMA_IMM) (env : Env) :
    Hands s loc p (psm2ServeRecv env s.dev (some p) m) := by
  unfold psm2ServeRecv
  dsimp only
  have hk0 : m.tag.tag2 &&& 0xf0000000 = 0 := hk
  have ht := touch_setReqPtr s.dev p (.own p)
  rw [if_neg (by rw [hk0]; decide), if_neg (by rw [hk0]; decide), if_neg (by rw [hk0]; decide),
    if_neg (by rw [hk0]; decide), if_neg hi]
  split_ifs
  · exact Hands.touch ht ((h.touch hp ht).serveRecvRdma hp hlt env m.tag.tag1 (reqPtr_setReqPtr _ _ _))
  · obtain ⟨pool, he, ho⟩ := (h.touch hp ht).poolPut hp hlt env
    refine Hands.touch ht ⟨_, [], .pool, use, he, Asks.of_eq (frame_setPool _ _) rfl, by simp, ?_⟩
    rw [List.append_nil]
    exact ho

/-- The write of a rendezvous. -/
theorem psm2ServeRecv_imm (d : Dev) (ctx : Option PktId) {m : MqMsg} (hk : IsKey m.tag.tag2)
    (hi : m.tag.tag1 = PSM_RDMA_IMM) {q : PktId} (hq : pktAt d.pageSize m.tag.tag0.toNat = some q) (env : Env) :
    psm2ServeRecv env d ctx m = lciServeImm env d q := by
  unfold psm2ServeRecv
  dsimp only
  have hk0 : m.tag.tag2 &&& 0xf0000000 = 0 := hk
  rw [if_neg (by rw [hk0]; decide), if_neg (by rw [hk0]; decide), if_neg (by rw [hk0]; decide),
    if_neg (by rw [hk0]; decide), if_pos hi, hq]
  rfl

end Calls

end Lci.Server
