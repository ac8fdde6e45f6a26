/-
The memory registrations of a verbs device over whole runs. The receiver of a rendezvous registers its
buffer with the RTR and releases it with the immediate. The origin registers the buffer of a long put, and
that of a write too large to be sent inline, and keeps no handle: these registrations are never released.
-/
import Lci.Server.ExactlyOnce

namespace Lci.Server

open Lci.Hash Lci.Proto Ledger

/-! ## Registrations of the origin -/

/-- The messages whose buffer was registered to be sent. -/
def regs (d : Dev) : Nat := d.out.countP fun m => decide (OriginReg d.maxInline m)

/-- `d'` comes from `d` with `n` such messages more. -/
structure Adds (n : Nat) (d d' : Dev) : Prop where
  maxInline : d'.maxInline = d.maxInline
  regs : regs d' = regs d + n

theorem Adds.trans {n k : Nat} {d d' d'' : Dev} (h : Adds n d d') (h' : Adds k d' d'') : Adds (n + k) d d'' :=
  ⟨h'.maxInline.trans h.maxInline, by rw [h'.regs, h.regs, Nat.add_assoc]⟩

theorem Adds.of_frame {d d' : Dev} (hf : Frame d d') (ho : d'.out = d.out) : Adds 0 d d' := by
  refine ⟨hf.maxInline, ?_⟩
  rw [Server.regs, hf.maxInline, ho]
  rfl

/-- What follows is all that counts. -/
theorem Adds.after {n : Nat} {d d' d'' : Dev} (h : Adds 0 d d') (h' : Adds n d' d'') : Adds n d d'' := by
  have := h.trans h'
  rwa [Nat.zero_add] at this

theorem Touch.adds {p : PktId} {d d' : Dev} (h : Touch p d d') : Adds 0 d d' := Adds.of_frame h.frame h.out

theorem adds_send (d : Dev) (p : PktId) (m : Msg) :
    Adds (if OriginReg d.maxInline m then 1 else 0) d (sendOn d p m) := by
  have hm := (sendOn_keeps d p p m).maxInline
  refine ⟨hm, ?_⟩
  rw [regs, hm, (sendOn_spec d p m).2.2.1, List.countP_append]
  by_cases h : OriginReg d.maxInline m <;> simp [h, regs]

theorem not_originReg_send (n : Nat) (dst : CInt) (proto : BitVec 32) (size : Nat) (data : PkData) :
    ¬ OriginReg n (.send dst proto size data) := id

theorem not_originReg_putm (n : Nat) (dst : CInt) (base : Nat) (offset rkey : BitVec 32) (b : List Byte)
    (m : Option (BitVec 32)) : ¬ OriginReg n (.put dst base offset rkey (.bytes b) m) := id

theorem adds_ceDispatch {env : Env} {d d' : Dev} {ep : Nat} {p : PktId} (h : lciCeDispatch env d ep p = some d') :
    Adds 0 d d' := Adds.of_frame (frame_ceDispatch h) (out_ceDispatch h)

theorem adds_poolPut {env : Env} {d d' : Dev} {p : PktId} (h : poolPut env d p = some d') : Adds 0 d d' := by
  obtain ⟨pool, -, rfl⟩ := Option.map_eq_some_iff.1 h
  exact Adds.of_frame (frame_setPool d pool) rfl

theorem adds_setTbl (d : Dev) (ep : Nat) (t : Table Ptr) : Adds 0 d (d.setTbl ep t) :=
  Adds.of_frame (frame_setTbl d ep t) rfl

theorem adds_setReq (d : Dev) (r : ReqPtr) (f : Req → Req) : Adds 0 d (d.setReq r f) :=
  Adds.of_frame (frame_setReq d r f) (out_setReq d r f)

theorem adds_store {d d' : Dev} {b : Buf} {bytes : List Byte} (h : d.store b bytes = some d') : Adds 0 d d' :=
  (touch_store 0 h).adds

theorem adds_setReqPtr (d : Dev) (p : PktId) (r : ReqPtr) : Adds 0 d (d.setReqPtr p r) := (touch_setReqPtr d p r).adds

/-! ## Rendezvous -/

theorem adds_handleRts (d : Dev) (ep : Nat) (p : PktId) : Adds 0 d (lciHandleRts d ep p) := by
  refine ⟨(frame_handleRts d ep p).maxInline, ?_⟩
  have hinit := touch_pkInit d ep .rtr p
  have hout := (prepareRtr_spec (lciPkInit d ep (-1) .rtr p) (d.reqOf p).buffer (d.pk p).data.view.size p).2.1
  rw [hinit.out] at hout
  rw [regs, (frame_handleRts d ep p).maxInline]
  show List.countP _ ((lciPrepareRtr (lciPkInit d ep (-1) .rtr p) (d.reqOf p).buffer
    (d.pk p).data.view.size p).out ++ [_]) = _
  rw [hout, List.countP_append]
  rfl

theorem adds_handleRtr (d : Dev) (ep : Nat) (p : PktId) :
    Adds (if d.maxInline < (d.pk p).data.view.size then 1 else 0) d (lciHandleRtr d ep p) := by
  have hinit := touch_pkInit d ep .long p
  rw [handleRtr_eq]
  have h := hinit.adds.after (adds_send (lciPkInit d ep (-1) .long p) p
    (.rma (d.reqOf p).rhandle (d.pk p).data.view.srcAddr
    (d.pk p).data.view.tgtAddr (d.pk p).data.view.rkey (d.pk p).data.view.size (d.pk p).data.view.commId))
  exact h

/-! ## Arrivals -/

theorem adds_explMatch {d d' : Dev} {ep : Nat} {p : PktId} {k : Dev → ReqId → Option Dev}
    (hk : ∀ d r d', k d r = some d' → Adds 0 d d') (h : explMatch d ep p k = some d') : Adds 0 d d' := by
  unfold explMatch at h
  dsimp only at h
  split_ifs at h
  · split at h
    · exact (adds_setTbl _ _ _).after (hk _ _ _ h)
    · cases h
  · cases h
    exact adds_setTbl _ _ _

theorem adds_explData {env : Env} {d d' : Dev} {ep : Nat} {p : PktId} {r : ReqId}
    (h : explData env d ep p r = some d') :
    Adds 0 d d' := by
  unfold explData at h
  obtain ⟨d₁, h₁, h⟩ := Option.bind_eq_some_iff.1 h
  exact (adds_setReq _ _ _).after ((adds_store h₁).after ((adds_setReqPtr _ _ _).after (adds_ceDispatch h)))

/-- The registrations that an arrival with a word makes: one, for an RTR of a size that is not sent inline. -/
def arrivalRegs (d : Dev) (proto : BitVec 32) (data : PkData) : Nat :=
  if (d.eps (protoGetRgid proto).toNat).ar ≠ .imm ∧ protoOfBits (protoGetProto proto) = .rtr ∧
    d.maxInline < data.view.size then 1 else 0

theorem setMeta_data (d : Dev) (r : ReqPtr) (m : CInt) (p : PktId) : ((d.setMeta r m).pk p).data = (d.pk p).data := by
  cases r with
  | own q =>
    by_cases h : p = q
    · subst h; simp [Dev.setMeta, Dev.setReq, Dev.setCtx]
    · simp [Dev.setMeta, Dev.setReq, Dev.setCtx, h]
  | user r => rfl

theorem setProto_data (d : Dev) (k : LcProto) (p : PktId) : ((d.setProto p k).pk p).data = (d.pk p).data := by
  simp [Dev.setProto, Dev.setCtx]

theorem adds_serveRecvExpl {env : Env} {d d' : Dev} {ep : Nat} {p : PktId} {proto : BitVec 32}
    (h : lciServeRecvExpl env d ep p proto = some d') :
    Adds (if protoOfBits (protoGetProto proto) = .rtr ∧ d.maxInline < (d.pk p).data.view.size then 1 else 0) d d' := by
  have hm := (adds_setReq d (d.reqPtr p) fun q => { q with metaVal := protoGetMeta proto }).after
    (touch_setProto (d.setMeta (d.reqPtr p) (protoGetMeta proto)) p (protoOfBits (protoGetProto proto))).adds
  have hdata : (((d.setMeta (d.reqPtr p) (protoGetMeta proto)).setProto p
    (protoOfBits (protoGetProto proto))).pk p).data =
      (d.pk p).data := (setProto_data _ _ p).trans (setMeta_data d _ _ p)
  refine hm.after ?_
  unfold lciServeRecvExpl at h
  dsimp only at h
  rw [← hm.maxInline, ← hdata]
  generalize (d.setMeta (d.reqPtr p) (protoGetMeta proto)).setProto p (protoOfBits (protoGetProto proto)) = D at *
  cases hk : protoOfBits (protoGetProto proto) with
  | data =>
    rw [hk] at h
    exact adds_explMatch (fun _ _ _ => adds_explData) h
  | rts =>
    rw [hk] at h
    refine adds_explMatch (fun d r d' he => ?_) h
    cases he
    exact (adds_setReqPtr _ _ _).after (adds_handleRts _ _ _)
  | rtr =>
    rw [hk] at h
    cases h
    simpa using adds_handleRtr D ep p
  | long =>
    rw [hk] at h
    cases h
    exact Adds.of_frame (Frame.refl _) rfl

theorem adds_serveRecvDyn {env : Env} {d d' : Dev} {ep : Nat} {p : PktId} {proto : BitVec 32}
    (h : lciServeRecvDyn env d ep p proto = some d') :
    Adds (if protoOfBits (protoGetProto proto) = .rtr ∧ d.maxInline < (d.pk p).data.view.size then 1 else 0) d d' := by
  have hm : Adds 0 d (d.setMeta (d.reqPtr p) (protoGetMeta proto)) := adds_setReq _ _ _
  have hdata := setMeta_data d (d.reqPtr p) (protoGetMeta proto) p
  refine hm.after ?_
  unfold lciServeRecvDyn at h
  dsimp only at h
  rw [← hm.maxInline, ← hdata]
  generalize d.setMeta (d.reqPtr p) (protoGetMeta proto) = D at *
  cases hk : protoOfBits (protoGetProto proto) with
  | data =>
    rw [hk] at h
    replace h : dynData env D ep p = some d' := h
    unfold dynData at h
    obtain ⟨E, hE, h⟩ := Option.bind_eq_some_iff.1 h
    exact (adds_store hE).after ((adds_setReq _ _ _).after (adds_ceDispatch h))
  | rts =>
    rw [hk] at h
    cases h
    exact (adds_setReq _ _ _).after (adds_handleRts _ _ _)
  | rtr =>
    rw [hk] at h
    cases h
    simpa using adds_handleRtr D ep p
  | long =>
    rw [hk] at h
    cases h
    exact Adds.of_frame (Frame.refl _) rfl

theorem adds_serveRecv {env : Env} {d d' : Dev} {p : PktId} {proto : BitVec 32}
    (hk : d.build.hasAr (d.eps (protoGetRgid proto).toNat).ar = true) (h : lciServeRecv env d p proto = some d') :
    Adds (arrivalRegs d proto (d.pk p).data) d d' := by
  unfold lciServeRecv lciServeRecvDispatch at h
  unfold arrivalRegs
  cases har : (d.eps (protoGetRgid proto).toNat).ar with
  | exp =>
    rw [har] at hk
    rw [if_pos ⟨hk, har⟩] at h
    simpa using adds_serveRecvExpl h
  | dyn =>
    rw [har] at hk
    rw [if_neg (by simp [har]), if_pos ⟨hk, har⟩] at h
    simpa using adds_serveRecvDyn h
  | imm =>
    rw [har] at hk
    rw [if_neg (by simp [har]), if_neg (by simp [har]), if_pos ⟨hk, har⟩] at h
    have := (adds_setReq _ _ _).after ((adds_setReq _ _ _).after (adds_ceDispatch h))
    simpa using this

theorem adds_serveRecvRdma {env : Env} {d d' : Dev} {p : PktId} {proto : BitVec 32}
    (h : lciServeRecvRdma env d p proto = some d') : Adds 0 d d' := (adds_setReq _ _ _).after (adds_ceDispatch h)

/-! ## Completions -/

theorem adds_decRef {env : Env} {d d' : Dev} {p : PktId} (h : decRef env d p = some d') : Adds 0 d d' := by
  have hr : Adds 0 d (d.setCtx p fun c => { c with ref := c.ref - 1 }) := Adds.of_frame (frame_setCtx d p _) rfl
  unfold decRef at h
  dsimp only at h
  split_ifs at h
  · exact hr.after (adds_ceDispatch h)
  · cases h
    exact hr

theorem adds_serveSend {env : Env} {d d' : Dev} {p : PktId} (h : lciServeSend env d p = some d') : Adds 0 d d' := by
  unfold lciServeSend at h
  split at h
  · exact adds_decRef h
  · exact (touch_event d p _).adds.after (adds_poolPut h)
  · exact adds_poolPut h
  · exact Adds.of_frame (frame_pkFreeData h) (out_pkFreeData h)

theorem adds_serveImm {env : Env} {d d' : Dev} {p : PktId} (h : lciServeImm env d p = some d') : Adds 0 d d' := by
  have hr : Adds 0 d (lcServerRmaDereg d (d.pk p).context.rmaMem) := Adds.of_frame (Frame.of_eq rfl) rfl
  exact hr.after (adds_decRef h)

/-- A pass of the receive loop. -/
theorem adds_ibvServeRecv {env : Env} {d d' : Dev} {wc : Wc}
    (hk : d.build.hasAr (d.eps (protoGetRgid wc.immData).toNat).ar = true) (h : ibvServeRecv env d wc = some d') :
    Adds (if wc.opcode = .recv then arrivalRegs d wc.immData wc.data else 0) d d' := by
  have hc : Adds 0 d { d with recvPosted := d.recvPosted - 1 } := ⟨rfl, rfl⟩
  refine hc.after ?_
  unfold ibvServeRecv at h
  dsimp only at h
  generalize hD : ({ d with recvPosted := d.recvPosted - 1 } : Dev) = D at h
  have hsame : arrivalRegs d wc.immData wc.data = arrivalRegs D wc.immData wc.data := by subst hD; rfl
  have hkD : D.build.hasAr (D.eps (protoGetRgid wc.immData).toNat).ar = true := by subst hD; exact hk
  rw [hsame]
  clear hD hsame hk hc
  cases ho : wc.opcode with
  | recv =>
    rw [if_pos (by simp [ho])] at h
    rw [if_pos rfl]
    have hdata := (touch_setData D wc.wrId wc.wrId wc.data)
    obtain ⟨htouch, -, -⟩ := touch_arrived (D.setData wc.wrId wc.data) wc.wrId (fun q =>
      { q with rank := wc.rank, rhandle := wc.rank, size := wc.byteLen }) fun _ => ⟨rfl, rfl⟩
    have ht := hdata.trans htouch
    have hread : ((((D.setData wc.wrId wc.data).setReqPtr wc.wrId (.own wc.wrId)).setReq (.own wc.wrId) fun q =>
        { q with rank := wc.rank, rhandle := wc.rank, size := wc.byteLen }).pk wc.wrId).data = wc.data := by
      simp [Dev.setReq, Dev.setReqPtr, Dev.setCtx, Dev.setData]
    generalize (((D.setData wc.wrId wc.data).setReqPtr wc.wrId (.own wc.wrId)).setReq (.own wc.wrId) fun q =>
      { q with rank := wc.rank, rhandle := wc.rank, size := wc.byteLen }) = E at *
    have hE := adds_serveRecv (by rw [ht.frame.build, (ht.frame.kinds _).1]; exact hkD) h
    have hregs : arrivalRegs E wc.immData (E.pk wc.wrId).data = arrivalRegs D wc.immData wc.data := by
      unfold arrivalRegs
      rw [hread, (ht.frame.kinds _).1, ht.frame.maxInline]
    rw [hregs] at hE
    exact ht.adds.after hE
  | recvRdmaWithImm =>
    rw [if_neg (by simp [ho])] at h
    rw [if_neg (by simp)]
    split_ifs at h
    · obtain ⟨q, -, h⟩ := Option.bind_eq_some_iff.1 h
      obtain ⟨E, hE, h⟩ := Option.bind_eq_some_iff.1 h
      exact (adds_serveImm hE).after (adds_poolPut h)
    · exact (adds_setReqPtr _ _ _).after (adds_serveRecvRdma h)

/-! ## Calls -/

theorem adds_getOrRetn (env : Env) (d : Dev) : Adds 0 d (poolGetOrRetn env d).2 := by
  unfold poolGetOrRetn
  split_ifs
  · exact Adds.of_frame (Frame.refl d) rfl
  · exact Adds.of_frame (frame_setPool d _) rfl

theorem adds_mediumPacket {env : Env} {d : Dev} {src size ep : Nat} {o : Option PktId} {d' : Dev}
    (h : mediumPacket env d src size ep = some (o, d')) : Adds 0 d d' := by
  have hg := adds_getOrRetn env d
  unfold mediumPacket at h
  generalize poolGetOrRetn env d = x at *
  obtain ⟨_ | p, D⟩ := x
  · cases h
    exact hg
  · dsimp only at h hg
    have hinit : Adds 0 D (if 1024 < size then lciPkInit (D.setPool (lcPoolGetLocal D.pool env.wid).2) ep
        (int8 (lcPoolGetLocal D.pool env.wid).1) .data p else lciPkInit D ep (-1) .data p) := by
      split_ifs
      · exact Adds.of_frame ((frame_setPool _ _).trans (frame_setCtx _ _ _)) rfl
      · exact Adds.of_frame (frame_setCtx _ _ _) rfl
    generalize (if 1024 < size then lciPkInit (D.setPool (lcPoolGetLocal D.pool env.wid).2) ep
      (int8 (lcPoolGetLocal D.pool env.wid).1) .data p else lciPkInit D ep (-1) .data p) = E at *
    split_ifs at h
    cases h
    exact hg.after (hinit.after (touch_setData _ p p _).adds)

/-- A call on the packet of a medium message: its message is copied from the packet. -/
theorem adds_medium {env : Env} {d : Dev} {src size ep : Nat} {g : Option PktId × Dev → Option (LcStatus × Dev)}
    (hnone : ∀ d, g (none, d) = some (.errRetry, d))
    (hsome : ∀ p d, ∃ m, (∀ n, ¬ OriginReg n m) ∧ g (some p, d) = some (.ok, sendOn d p m)) {x : LcStatus × Dev}
    (h : (mediumPacket env d src size ep).bind g = some x) : Adds 0 d x.2 := by
  obtain ⟨⟨o, D⟩, hD, hx⟩ := Option.bind_eq_some_iff.1 h
  have hadds := adds_mediumPacket hD
  cases o with
  | none =>
    rw [hnone] at hx
    cases hx
    exact hadds
  | some p =>
    obtain ⟨m, hm, heq⟩ := hsome p D
    rw [heq] at hx
    cases hx
    have := adds_send D p m
    rw [if_neg (hm _)] at this
    exact hadds.after this

theorem adds_sendl (env : Env) (d : Dev) (src size : Nat) (rank tag : CInt) (ep cb ce xfer : Nat) :
    Adds 0 d (lcSendl env d src size rank tag ep cb ce xfer).2 := by
  have hg := adds_getOrRetn env d
  unfold lcSendl
  generalize poolGetOrRetn env d = x at *
  obtain ⟨_ | p, D⟩ := x
  · exact hg
  · dsimp only at hg ⊢
    have ht := (touch_pkInit D ep .rts p).trans (touch_setData (lciPkInit D ep (-1) .rts p) p p
      (.rdz { ((lciPkInit D ep (-1) .rts p).pk p).data.view with
        srcAddr := src, size := size, cb := cb, ce := ce, xfer := xfer }))
    have hs := adds_send (lciPrepareRts (lciPkInit D ep (-1) .rts p) src size cb ce xfer p) p (.send rank
      (makeProto (BitVec.ofNat 32 ep) .rts tag) packetRtsSize
      ((lciPrepareRts (lciPkInit D ep (-1) .rts p) src size cb ce xfer p).pk p).data)
    rw [if_neg (not_originReg_send _ _ _ _ _), sendOn_plain (not_originReg_send _ _ _ _ _)] at hs
    exact hg.after (ht.adds.after hs)

/-- A long put that gets a packet registers its buffer. -/
theorem adds_putl {env : Env} {d : Dev} (src size : Nat) (rank : CInt) (addr ep cb ce xfer : Nat)
    (m : Option (BitVec 32)) :
    Adds (if (poolGetOrRetn env d).1 ≠ none then 1 else 0) d (match longPacket env d ep cb ce xfer with
      | (none, d) => d
      | (some p, d) => lcServerPutl d rank src (d.rep rank).base (putOffset d rank addr)
        (d.rep rank).rkey size m p) := by
  have hg := adds_getOrRetn env d
  unfold longPacket
  generalize poolGetOrRetn env d = x at *
  obtain ⟨_ | p, D⟩ := x
  · simpa using hg
  · dsimp only at hg ⊢
    rw [if_pos (by simp)]
    have ht := (touch_pkInit D ep .long p).trans (touch_setData (lciPkInit D ep (-1) .long p) p p
      (.rdz { ((lciPkInit D ep (-1) .long p).pk p).data.view with cb := cb, ce := ce, xfer := xfer }))
    refine hg.after (ht.adds.after ?_)
    generalize (lciPkInit D ep (-1) .long p).setData p
      (.rdz { ((lciPkInit D ep (-1) .long p).pk p).data.view with cb := cb, ce := ce, xfer := xfer }) = E
    have hs := adds_send E p (.put rank (E.rep rank).base (putOffset E rank addr) (E.rep rank).rkey (.mem src size) m)
    have hreg : OriginReg E.maxInline (.put rank (E.rep rank).base (putOffset E rank addr) (E.rep rank).rkey
      (.mem src size) m) :=
      trivial
    rw [if_pos hreg] at hs
    rwa [sendOn_putl] at hs

theorem adds_recvMatch {d d' : Dev} {rank tag : CInt} {ep : Nat} {r : ReqId} {k : Dev → PktId → Option Dev}
    (hk : ∀ d p d', k d p = some d' → Adds 0 d d') (h : recvMatch d rank tag ep r k = some d') : Adds 0 d d' := by
  unfold recvMatch at h
  dsimp only at h
  split_ifs at h
  · split at h
    · exact (adds_setTbl _ _ _).after (hk _ _ _ h)
    · cases h
  · cases h
    exact adds_setTbl _ _ _

theorem adds_recvData {env : Env} {d d' : Dev} {src ep : Nat} {r : ReqId} {p : PktId}
    (h : recvData env d src ep r p = some d') : Adds 0 d d' := by
  unfold recvData at h
  obtain ⟨E, hE, h⟩ := Option.bind_eq_some_iff.1 h
  exact (adds_store hE).after ((adds_setReq _ _ _).after ((adds_setReqPtr _ _ _).after (adds_ceDispatch h)))

theorem adds_recvRts (d : Dev) (ep : Nat) (r : ReqId) (p : PktId) : Adds 0 d (recvRts d ep r p) :=
  (adds_setReq _ _ _).after ((adds_setReqPtr _ _ _).after (adds_handleRts _ _ _))

theorem adds_refill (env : Env) (d : Dev) : Adds 0 d (progressRefill env d) := by
  have hg : Adds 0 d (d.setPool (lcPoolGetNb d.pool env).2) := Adds.of_frame (frame_setPool d _) rfl
  unfold progressRefill
  split
  · unfold ibvRefill
    split_ifs
    · cases (lcPoolGetNb d.pool env).1 with
      | none =>
        unfold ibvPostRecv
        dsimp only
        split_ifs
        · exact hg.after ⟨rfl, rfl⟩
        · exact hg
      | some p => exact hg.after ⟨rfl, rfl⟩
    · exact Adds.of_frame (Frame.refl d) rfl
  · unfold psm2Refill psm2TryPost
    split_ifs
    · cases (lcPoolGetNb d.pool env).1 with
      | none =>
        unfold lcServerPostRecv
        dsimp only
        split_ifs
        · exact hg.after ⟨rfl, rfl⟩
        · exact hg
      | some p => exact hg.after ⟨rfl, rfl⟩
    · exact Adds.of_frame (Frame.refl d) rfl

/-! ## Runs -/

/-- The step registers a buffer that is never released: a long put that gets a packet, or the RTR of a write that is
not sent inline. -/
def Registers (s : Sys) : Op → Prop
  | .putl env _ _ _ _ _ _ _ _ | .putls env _ _ _ _ _ _ _ _ _ => (poolGetOrRetn env s.dev).1 ≠ none
  | .completed _ wc => wc.opcode = .recv ∧ (s.dev.eps (protoGetRgid wc.immData).toNat).ar ≠ .imm ∧
    protoOfBits (protoGetProto wc.immData) = .rtr ∧ s.dev.maxInline < wc.data.view.size
  | _ => False

instance (s : Sys) : DecidablePred (Registers s)
  | .putl _ _ _ _ _ _ _ _ _ | .putls _ _ _ _ _ _ _ _ _ _ => inferInstanceAs (Decidable (_ ≠ _))
  | .completed _ _ => inferInstanceAs (Decidable (_ ∧ _))
  | .sendm .. | .putm .. | .putms .. | .sendl .. | .recvm .. | .recvl .. | .recv .. | .cqPop .. | .cqReqfree ..
  | .matched .. | .sent .. | .refill .. => inferInstanceAs (Decidable False)

theorem Good.adds {s s' : Sys} (h : Good s) (hb : s.dev.backend = .ibv) {op : Op} (ha : Allowed s op)
    (hs : Server.step s op = some s') : Adds (if Registers s op then 1 else 0) s.dev s'.dev := by
  -- most operations register nothing
  have hnot : ¬ Registers s op → Adds 0 s.dev s'.dev → Adds (if Registers s op then 1 else 0) s.dev s'.dev := by
    intro hn hadds
    rwa [if_neg hn]
  cases op with
  | sendm env src size rank tag ep =>
    obtain ⟨x, hx, rfl⟩ := Option.map_eq_some_iff.1 hs
    refine hnot id (adds_medium (fun _ => rfl) (fun p d => ?_) hx)
    refine ⟨.send rank (makeProto (BitVec.ofNat 32 ep) .data tag) size (d.pk p).data,
      fun n => not_originReg_send n _ _ _ _, ?_⟩
    rw [sendOn_plain (not_originReg_send _ _ _ _ _)]
    rfl
  | putm env src size rank addr ep =>
    obtain ⟨x, hx, rfl⟩ := Option.map_eq_some_iff.1 hs
    refine hnot id (adds_medium (fun _ => rfl) (fun p d => ?_) hx)
    refine ⟨.put rank (d.rep rank).base (putOffset d rank addr) (d.rep rank).rkey
      (.bytes ((d.pk p).data.bytes.take size)) none, fun n => not_originReg_putm n _ _ _ _ _ _, ?_⟩
    rw [sendOn_plain (not_originReg_putm _ _ _ _ _ _ _)]
    rfl
  | putms env src size rank addr m ep =>
    obtain ⟨x, hx, rfl⟩ := Option.map_eq_some_iff.1 hs
    refine hnot id (adds_medium (fun _ => rfl) (fun p d => ?_) hx)
    refine ⟨.put rank (d.rep rank).base (putOffset d rank addr) (d.rep rank).rkey
      (.bytes ((d.pk p).data.bytes.take size))
      (some (makeProto (BitVec.ofNat 32 ep) .long m)), fun n => not_originReg_putm n _ _ _ _ _ _, ?_⟩
    rw [sendOn_plain (not_originReg_putm _ _ _ _ _ _ _)]
    rfl
  | sendl env src size rank tag ep cb ce xfer =>
    cases hs
    exact hnot id (adds_sendl env s.dev src size rank tag ep cb ce xfer)
  | putl env src size rank addr ep cb ce xfer =>
    cases hs
    show Adds _ s.dev (lcPutl env s.dev src size rank addr ep cb ce xfer).2
    rw [lcPutl_dev]
    exact adds_putl src size rank addr ep cb ce xfer none
  | putls env src size rank addr m ep cb ce xfer =>
    cases hs
    show Adds _ s.dev (lcPutls env s.dev src size rank addr m ep cb ce xfer).2
    rw [lcPutls_dev]
    exact adds_putl src size rank addr ep cb ce xfer _
  | recvm env src size rank tag ep r =>
    obtain ⟨d, hd, rfl⟩ := Option.map_eq_some_iff.1 hs
    exact hnot id ((adds_setReq _ _ _).after (adds_recvMatch (fun _ _ _ => adds_recvData) hd))
  | recvl src size rank tag ep r =>
    obtain ⟨d, hd, rfl⟩ := Option.map_eq_some_iff.1 hs
    refine hnot id ((adds_setReq _ _ _).after ((adds_setReq _ _ _).after (adds_recvMatch (fun d p d' he => ?_) hd)))
    cases he
    exact adds_recvRts d ep r p
  | recv env src size rank tag ep r =>
    obtain ⟨d, hd, rfl⟩ := Option.map_eq_some_iff.1 hs
    refine hnot id ((adds_setReq _ _ _).after ((adds_setReq _ _ _).after (adds_recvMatch (fun d p d' he => ?_) hd)))
    split_ifs at he
    · cases he
      exact adds_recvRts d ep r p
    · exact adds_recvData he
  | cqPop ep =>
    cases hs
    exact hnot id (Adds.of_frame
      (frame_setEp s.dev ep (fun x => { x with cq := (Server.cqPop (s.dev.eps ep).cq).2 }) rfl rfl) rfl)
  | cqReqfree env r =>
    obtain ⟨d, hd, rfl⟩ := Option.map_eq_some_iff.1 hs
    obtain ⟨p, -, hd⟩ := Option.bind_eq_some_iff.1 hd
    exact hnot id (adds_poolPut hd)
  | completed env wc =>
    obtain ⟨d, hd, rfl⟩ := Option.map_eq_some_iff.1 hs
    -- an RTR is answered with a write, which registers its buffer when it is too long to go inline
    have hadds := adds_ibvServeRecv (d := ibvTakeRecv s.dev wc) (h.kinds _) hd
    have hiff : (if wc.opcode = .recv then arrivalRegs (ibvTakeRecv s.dev wc) wc.immData wc.data else 0) =
        if Registers s (.completed env wc) then 1 else 0 := by
      by_cases ho : wc.opcode = .recv
      · rw [if_pos ho]
        simp only [arrivalRegs, Registers, ho, true_and]
        rfl
      · rw [if_neg ho, if_neg fun hr => ho hr.1]
    rw [hiff] at hadds
    exact ⟨hadds.maxInline, hadds.regs⟩
  | matched env x m =>
    obtain ⟨hb', -⟩ := ha
    rw [hb] at hb'
    cases hb'
  | sent env p =>
    obtain ⟨d, hd, rfl⟩ := Option.map_eq_some_iff.1 hs
    have hc : Adds 0 s.dev { s.dev with sends := s.dev.sends.erase p } := ⟨rfl, rfl⟩
    exact hnot id (hc.after (adds_serveSend hd))
  | refill env =>
    cases hs
    exact hnot id (adds_refill env s.dev)

/-- Along a run the messages with a registered buffer grow with the steps that register one. -/
theorem Good.accounts {s : Sys} (h : Good s) (hb : s.dev.backend = .ibv) {ops : List Op} (hops : SoundRun s ops) :
    ∃ s', Server.run s ops = some s' ∧ Good s' ∧ s'.dev.backend = .ibv ∧ regs s.dev ≤ regs s'.dev ∧
      (regs s'.dev = regs s.dev ↔ Along (fun s op => ¬ Registers s op) s ops) := by
  induction ops generalizing s with
  | nil => exact ⟨s, rfl, h, hb, le_rfl, fun _ => trivial, fun _ => rfl⟩
  | cons op ops ih =>
    obtain ⟨⟨ha, hs⟩, hrest⟩ := hops
    obtain ⟨s₁, h₁, hg, hb₁⟩ := h.step ha hs
    have hadds := (h.adds hb ha h₁).regs
    obtain ⟨s₂, h₂, hg₂, hb₂, hle, hiff⟩ := ih hg (hb₁.trans hb) (hrest s₁ h₁)
    have halong : Along (fun s op => ¬ Registers s op) s (op :: ops) ↔
        ¬ Registers s op ∧ Along (fun s op => ¬ Registers s op) s₁ ops :=
      ⟨fun h => ⟨h.1, h.2 s₁ h₁⟩, fun h => Along.cons h.1 h₁ h.2⟩
    refine ⟨s₂, by rw [Server.run, h₁]; exact h₂, hg₂, hb₂, by omega, ?_⟩
    rw [halong, ← hiff]
    by_cases hr : Registers s op
    · rw [if_pos hr] at hadds
      exact ⟨fun he => by omega, fun he => absurd hr he.1⟩
    · rw [if_neg hr] at hadds
      exact ⟨fun he => ⟨hr, by omega⟩, fun he => by omega⟩

/-- The registrations after a run: those of the immediates to come, and those of the origin. -/
theorem Fresh.registrations {d₀ d : Dev} {wid : Nat} (hf : Fresh d₀) (hb : d₀.backend = .ibv)
    (hd : lciDevInit wid d₀ = some d) {ops : List Op} (hops : SoundRun ⟨d, [], []⟩ ops) :
    ∃ s org, run ⟨d, [], []⟩ ops = some s ∧ s.dev.mrs.Perm (s.owed.map (fun p => (s.dev.pk p).context.rmaMem) ++ org) ∧
      (org = [] ↔ Along (fun s op => ¬ Registers s op) ⟨d, [], []⟩ ops) := by
  have hdb : d.backend = .ibv ∧ d.out = [] := by
    rw [lciDevInit_eq] at hd
    cases hd
    refine ⟨?_, (serverInit_spec d₀).2.2.2.2.2.1⟩
    show (lcServerInit d₀).backend = .ibv
    unfold lcServerInit
    dsimp only
    rw [hb]
  obtain ⟨s, hs, hg, hbs, -, hiff⟩ := (hf.good hd).accounts hdb.1 hops
  obtain ⟨loc, use, ho, -⟩ := hg.own
  obtain ⟨org, hperm, hlen⟩ := ho.mrs hbs
  refine ⟨s, org, hs, hperm, ?_⟩
  have h0 : regs (⟨d, [], []⟩ : Sys).dev = 0 := by
    show List.countP _ d.out = 0
    rw [hdb.2]
    rfl
  rw [← hiff, h0, ← List.length_eq_zero_iff, hlen]
  rfl

/-- The registrations of a handle that were not released: with the registration cache, the count of its entry. -/
def references (d : Dev) (mr : BitVec 32) : Nat := d.mrs.count mr

theorem references_of_perm {d : Dev} {l org : List (BitVec 32)} (h : d.mrs.Perm (l ++ org)) (mr : BitVec 32) :
    references d mr = l.count mr + org.count mr := by
  rw [references, h.count_eq, List.count_append]

theorem references_eq_zero_iff (d : Dev) : (∀ mr, references d mr = 0) ↔ d.mrs = [] := by
  simp only [references, List.count_eq_zero]
  exact List.eq_nil_iff_forall_not_mem.symm

/-- Memory registrations on verbs. After every run the registrations are those of the rendezvous whose immediate is to
come, one for each, and those that the origin made, and so for every handle, which several may share; of those of the
origin there is none exactly when no step of the run was a long put or the RTR of a write that is not sent inline. So
with no rendezvous on its way everything is released, and no entry of the cache is counted, exactly then. -/
theorem registrations_released_iff {d₀ d : Dev} {wid : Nat} (hf : Fresh d₀) (hb : d₀.backend = .ibv)
    (hd : lciDevInit wid d₀ = some d) {ops : List Op} (hops : SoundRun ⟨d, [], []⟩ ops) {s : Sys}
    (hs : run ⟨d, [], []⟩ ops = some s) :
    (∃ org, s.dev.mrs.Perm (s.owed.map (fun p => (s.dev.pk p).context.rmaMem) ++ org) ∧
      (∀ mr, references s.dev mr = (s.owed.map fun p => (s.dev.pk p).context.rmaMem).count mr + org.count mr) ∧
      (org = [] ↔ Along (fun s op => ¬ Registers s op) ⟨d, [], []⟩ ops)) ∧
    (s.dev.sends = [] ∧ s.owed = [] →
      (s.dev.mrs = [] ↔ Along (fun s op => ¬ Registers s op) ⟨d, [], []⟩ ops) ∧
      ((∀ mr, references s.dev mr = 0) ↔ Along (fun s op => ¬ Registers s op) ⟨d, [], []⟩ ops)) := by
  obtain ⟨s', org, hs', hperm, hiff⟩ := hf.registrations hb hd hops
  rw [hs] at hs'
  cases hs'
  refine ⟨⟨org, hperm, references_of_perm hperm, hiff⟩, ?_⟩
  rintro ⟨-, howed⟩
  rw [howed] at hperm
  rw [references_eq_zero_iff, and_self, ← hiff]
  exact ⟨fun h => by rw [h] at hperm; exact List.nil_perm.1 hperm,
    fun h => by rw [h] at hperm; exact List.perm_nil.1 hperm⟩

/-- Two receives are posted, an RTS is stored, a receive finds it and answers, and the RTR completes. -/
def answeredOne : List Op :=
  [.refill ⟨0, 0, 0⟩, .refill ⟨0, 0, 0⟩,
    .completed ⟨0, 0, 0⟩ ⟨1023, .recv, 3, packetRtsSize, makeProto 0 .rts 20567, .rdz ⟨7, 9, 64, 4, .null, 0, 0, 0⟩⟩,
    .recvl 128 4 3 20567 0 0, .sent ⟨0, 0, 0⟩ 1023]

/-- A rendezvous on a new device: its buffer is registered until the immediate, and then nothing is. -/
theorem registrations_released_iff_rendezvous : ∃ d s₁ s word, Fresh (rawDev .ibv 4096 .exp .null) ∧
    lciDevInit 0 (rawDev .ibv 4096 .exp .null) = some d ∧
    SoundRun ⟨d, [], []⟩ (answeredOne ++ [.completed ⟨0, 0, 0⟩ ⟨1022, .recvRdmaWithImm, 3, 4, word, .buffer []⟩]) ∧
    run ⟨d, [], []⟩ answeredOne = some s₁ ∧ s₁.dev.mrs ≠ [] ∧
    run ⟨d, [], []⟩ (answeredOne ++ [.completed ⟨0, 0, 0⟩ ⟨1022, .recvRdmaWithImm, 3, 4, word, .buffer []⟩]) = some s ∧
    s.dev.sends = [] ∧ s.owed = [] ∧ s.dev.mrs = [] := by
  have hfresh : Fresh (rawDev .ibv 4096 .exp .null) := ⟨by decide, fun e => ⟨.exp, .null, false, rfl, rfl⟩⟩
  obtain ⟨d, hd⟩ : ∃ d, lciDevInit 0 (rawDev .ibv 4096 .exp .null) = some d := ⟨_, lciDevInit_eq 0 _⟩
  obtain ⟨t₀, t₁, t₂, t₃, hr⟩ := Rendezvous.receiver_run hd ⟨7, 9, 64, 4, .null, 0, 0, 0⟩
  obtain ⟨len, n, hw⟩ := hr.waiting
  obtain ⟨s₁, h₁, hw₁, hsends₁, howed₁, hf⟩ := Rendezvous.sent_first hw ⟨0, 0, 0⟩
  rw [hr.sends] at hsends₁
  rw [hr.owed] at howed₁
  have hrun₁ : run ⟨d, [], []⟩ answeredOne = some s₁ := by
    rw [answeredOne, run, hr.refill₀, Option.bind_some, run, hr.refill₁, Option.bind_some, run, hr.stored,
      Option.bind_some, run, hr.found, Option.bind_some, run, h₁]
    rfl
  have hsound₀ : SoundRun ⟨d, [], []⟩ [.refill ⟨0, 0, 0⟩, .refill ⟨0, 0, 0⟩] :=
    Along.cons ⟨hr.few₀, trivial⟩ hr.refill₀ (Along.cons ⟨hr.few₁, trivial⟩ hr.refill₁ trivial)
  obtain ⟨t₁', ht, hg⟩ := (hfresh.good hd).run hsound₀
  rw [run, hr.refill₀, Option.bind_some, run, hr.refill₁] at ht
  cases ht
  have hsound₁ : SoundRun ⟨d, [], []⟩ answeredOne := by
    refine Along.cons ⟨hr.few₀, trivial⟩ hr.refill₀ (Along.cons ⟨hr.few₁, trivial⟩ hr.refill₁
      (Along.cons ⟨⟨hr.backend, ?_, ⟨by decide, by decide, hg.kinds _⟩⟩, by simp [Sound]⟩ hr.stored
        (Along.cons ⟨hr.idle, by simp [Sound]⟩ hr.found (Along.cons ⟨?_, trivial⟩ h₁ trivial))))
    · rw [hr.posted]
      simp
    · show 1023 ∈ t₃.dev.sends
      rw [hr.sends]
      simp
  obtain ⟨s₁', hs₁', hg₁⟩ := (hfresh.good hd).run hsound₁
  obtain rfl : s₁ = s₁' := Option.some_injective _ (hrun₁.symm.trans hs₁')
  have howes : ∃ q ∈ s₁.owed, rtrWord s₁.dev 1023 = rtrWord s₁.dev q := ⟨1023, by rw [howed₁]; simp, rfl⟩
  have hallowed : Allowed s₁ (.completed ⟨0, 0, 0⟩ ⟨1022, .recvRdmaWithImm, 3, 4, rtrWord s₁.dev 1023, .buffer []⟩) :=
    ⟨hf.backend.trans hr.spare.1, Rendezvous.mem_posted_of_frame hf hr.spare.2, .inl howes⟩
  obtain ⟨s, h₂, -⟩ := hg₁.step hallowed fun _ => .inl howes
  obtain ⟨hsends, howed, -⟩ := Rendezvous.imm_second hg₁ hw₁ (by decide) h₂
  rw [hsends₁] at hsends
  rw [howed₁] at howed
  have hops := Along.concat (fun _ _ => id) hsound₁ hrun₁ ⟨hallowed, fun _ => .inl howes⟩
  have hrun := run_concat hrun₁ h₂
  refine ⟨d, s₁, s, _, hfresh, hd, hops, hrun₁, fun hm => ?_, hrun, hsends, howed, ?_⟩
  -- the immediate of packet 1023 is to come
  · obtain ⟨org, hperm, -⟩ := (registrations_released_iff hfresh rfl hd hsound₁ hrun₁).1
    rw [hm, howed₁, List.nil_perm] at hperm
    simp at hperm
  · refine ((registrations_released_iff hfresh rfl hd hops hrun).2 ⟨hsends, howed⟩).1.2 ?_
    refine ⟨id, fun _ _ => ⟨id, fun _ _ => ⟨?_, fun _ _ => ⟨id, fun _ _ => ⟨id, fun _ _ => ⟨?_, fun _ _ => trivial⟩⟩⟩⟩⟩⟩
    · rintro ⟨-, -, hk, -⟩
      exact absurd hk (by decide)
    · rintro ⟨hk, -⟩
      cases hk

/-- What `lc_putl` leaves of a state in which it gets packet `p`. -/
theorem putl_spec {s : Sys} {env : Env} {p : PktId} {D : Dev} (hg : poolGetOrRetn env s.dev = (some p, D))
    (hD : D.sends = s.dev.sends ∧ D.out = s.dev.out) (src size : Nat) (rank : CInt) (addr ep cb ce xfer : Nat) :
    ∃ s', step s (.putl env src size rank addr ep cb ce xfer) = some s' ∧ s'.dev.sends = s.dev.sends ++ [p] ∧
      s'.owed = s.owed ∧ (s'.dev.pk p).context.proto = .long := by
  let E := (lciPkInit D ep (-1) .long p).setData p
    (.rdz { ((lciPkInit D ep (-1) .long p).pk p).data.view with cb := cb, ce := ce, xfer := xfer })
  let m : Msg := .put rank (E.rep rank).base (putOffset E rank addr) (E.rep rank).rkey (.mem src size) none
  have hcall : (lcPutl env s.dev src size rank addr ep cb ce xfer).2 = sendOn E p m := by
    rw [lcPutl_dev, longPacket, hg, sendOn_putl]
  have hE : E.sends = s.dev.sends ∧ E.out = s.dev.out ∧ (E.pk p).context.proto = .long := by
    refine ⟨hD.1, hD.2, ?_⟩
    simp [E, lciPkInit, Dev.setData, Dev.setCtx]
  obtain ⟨-, h2, h3, h4, -⟩ := sendOn_spec E p m
  refine ⟨_, rfl, ?_, ?_, ?_⟩
  · show (lcPutl env s.dev src size rank addr ep cb ce xfer).2.sends = _
    rw [hcall, h2, hE.1]
  · show s.owed ++ rtrsSince s.dev (lcPutl env s.dev src size rank addr ep cb ce xfer).2 = _
    rw [hcall, rtrsSince, h3, hE.2.1, List.drop_left]
    exact List.append_nil _
  · show ((lcPutl env s.dev src size rank addr ep cb ce xfer).2.pk p).context.proto = _
    rw [hcall, h4]
    exact hE.2.2

/-- The completion of a long put: its packet is off the wire, and no RTR goes out. -/
theorem sent_spec {s s' : Sys} {env : Env} {p : PktId} (hp : (s.dev.pk p).context.proto = .long)
    (h : step s (.sent env p) = some s') : s'.dev.sends = s.dev.sends.erase p ∧ s'.owed = s.owed := by
  obtain ⟨d, hd, rfl⟩ := Option.map_eq_some_iff.1 h
  rw [lciServeSend, show (({ s.dev with sends := s.dev.sends.erase p } : Dev).pk p).context.proto = .long from hp] at hd
  obtain ⟨pool, -, hd⟩ := Option.map_eq_some_iff.1 hd
  have hwire : d.sends = s.dev.sends.erase p ∧ d.out = s.dev.out := by
    rw [← hd]
    exact ⟨rfl, rfl⟩
  refine ⟨hwire.1, ?_⟩
  show s.owed ++ rtrsSince s.dev d = s.owed
  rw [rtrsSince_same hwire.2, List.append_nil]

/-- One long put on a new device, up to the completion of its write: nothing is on its way, and the buffer is still
registered. -/
theorem putl_stays_registered : ∃ d s, lciDevInit 0 (rawDev .ibv 4096 .exp .null) = some d ∧
    SoundRun ⟨d, [], []⟩ [.putl ⟨0, 0, 0⟩ 64 8 1 4096 0 7 8 0, .sent ⟨0, 0, 0⟩ 1023] ∧
    run ⟨d, [], []⟩ [.putl ⟨0, 0, 0⟩ 64 8 1 4096 0 7 8 0, .sent ⟨0, 0, 0⟩ 1023] = some s ∧
    s.dev.sends = [] ∧ s.owed = [] ∧ s.dev.mrs ≠ [] := by
  have hfresh : Fresh (rawDev .ibv 4096 .exp .null) := ⟨by decide, fun e => ⟨.exp, .null, false, rfl, rfl⟩⟩
  obtain ⟨d, hd, hdead, hp, hsends⟩ : ∃ d, lciDevInit 0 (rawDev .ibv 4096 .exp .null) = some d ∧ d.deadlock = false ∧
      d.pool = ⟨Function.update (fun _ => none) 0 (some 0), [List.range LC_SERVER_NUM_PKTS]⟩ ∧ d.sends = [] :=
    ⟨_, lciDevInit_eq 0 _, rfl, rfl, rfl⟩
  have hget : (poolGetOrRetn ⟨0, 0, 0⟩ d).1 = some 1023 := by
    have hr : List.range LC_SERVER_NUM_PKTS = List.range 1023 ++ [1023] := List.range_succ
    simp [poolGetOrRetn, hdead, hp, lcPoolGetNb, lcPoolGetLocal, dqPopTop, hr]
  have hrest : (poolGetOrRetn ⟨0, 0, 0⟩ d).2.sends = d.sends ∧ (poolGetOrRetn ⟨0, 0, 0⟩ d).2.out = d.out := by
    rw [poolGetOrRetn, hdead]
    exact ⟨rfl, rfl⟩
  obtain ⟨s₁, h₁, hs₁, ho₁, hpk⟩ := putl_spec (s := ⟨d, [], []⟩) (Prod.ext hget rfl) hrest 64 8 1 4096 0 7 8 0
  have hg₁ : Good s₁ := (hfresh.good hd).of_step h₁ trivial trivial
  rw [show (⟨d, [], []⟩ : Sys).dev.sends = [] from hsends] at hs₁
  have hmem : Allowed s₁ (.sent ⟨0, 0, 0⟩ 1023) := by
    show 1023 ∈ s₁.dev.sends
    rw [hs₁]
    simp
  obtain ⟨s₂, h₂, -⟩ := hg₁.step hmem trivial
  obtain ⟨hs₂, ho₂⟩ := sent_spec hpk h₂
  have hops : SoundRun ⟨d, [], []⟩ [.putl ⟨0, 0, 0⟩ 64 8 1 4096 0 7 8 0, .sent ⟨0, 0, 0⟩ 1023] :=
    Along.cons ⟨trivial, trivial⟩ h₁ (Along.cons ⟨hmem, trivial⟩ h₂ trivial)
  have hrun : run ⟨d, [], []⟩ [.putl ⟨0, 0, 0⟩ 64 8 1 4096 0 7 8 0, .sent ⟨0, 0, 0⟩ 1023] = some s₂ := by
    rw [run, h₁, Option.bind_some, run, h₂]
    rfl
  refine ⟨d, s₂, hd, hops, hrun, ?_, ho₂.trans ho₁, fun hmrs => ?_⟩
  · rw [hs₂, hs₁]
    rfl
  -- the origin registered the buffer of the put
  · obtain ⟨s, org, hs, hperm, hiff⟩ := hfresh.registrations rfl hd hops
    rw [hrun] at hs
    cases hs
    rw [hmrs, List.nil_perm, List.append_eq_nil_iff] at hperm
    refine absurd (hiff.1 hperm.2).1 (not_not_intro ?_)
    show (poolGetOrRetn ⟨0, 0, 0⟩ d).1 ≠ none
    rw [hget]
    simp

end Lci.Server
