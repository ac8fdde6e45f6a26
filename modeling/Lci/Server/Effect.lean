/-
What the functions of the rendezvous do to a device, besides handing a packet on: the packets other than
the one in the hand stay as they are, and the contexts, messages and events they add are known.
-/
import Lci.Server.Conserve

namespace Lci.Server

open Lci.Hash Lci.Proto

/-- Of the packets only `p` may be new; no slot of a table is; memory and the buffers and handles of requests
are as they were; contexts `cs`, messages `ms` and events `vs` are added. -/
structure Does (p : PktId) (d d' : Dev) (cs : List PktId) (ms : List Msg) (vs : List Event) : Prop where
  pk : ∀ q, q ≠ p → d'.pk q = d.pk q
  slots : ∀ e b, ∀ y ∈ entries d' e b, y ∈ entries d e b
  req : ∀ u, (d'.req u).buffer = (d.req u).buffer ∧ (d'.req u).rhandle = (d.req u).rhandle
  mem : d'.mem = d.mem
  fixed : d'.pageSize = d.pageSize ∧ d'.backend = d.backend ∧ ∀ e, (d'.eps e).ar = (d.eps e).ar
  sends : d'.sends = d.sends ++ cs
  out : d'.out = d.out ++ ms
  events : d'.events = d.events ++ vs

namespace Does

variable {p : PktId} {d d' d'' : Dev} {cs cs' : List PktId} {ms ms' : List Msg} {vs vs' : List Event}

/-- A change of the packet alone, or of fields that `Does` does not look at. -/
theorem of_eq (hpk : ∀ q, q ≠ p → d'.pk q = d.pk q) (h : { d' with
    pk := d.pk, pool := d.pool, posted := d.posted, recvPosted := d.recvPosted, deadlock := d.deadlock, mrs := d.mrs,
    nextKey := d.nextKey, mrKeys := d.mrKeys } = d) : Does p d d' [] [] [] := by
  have := congrArg (fun x : Dev => (x.eps, x.req, x.mem, x.sends, x.out, x.events, x.pageSize, x.backend)) h
  simp only [Prod.mk.injEq] at this
  obtain ⟨h1, h2, h3, h4, h5, h6, h7, h8⟩ := this
  exact ⟨hpk, fun e b y hy => by unfold entries at hy; rwa [h1] at hy, fun u => by rw [h2]; exact ⟨rfl, rfl⟩, h3,
    ⟨h7, h8, fun e => by rw [h1]⟩, by simp [h4], by simp [h5], by simp [h6]⟩

theorem refl (p : PktId) (d : Dev) : Does p d d [] [] [] := of_eq (fun _ _ => rfl) rfl

theorem trans (h : Does p d d' cs ms vs) (h' : Does p d' d'' cs' ms' vs') :
    Does p d d'' (cs ++ cs') (ms ++ ms') (vs ++ vs') where
  pk q hq := (h'.pk q hq).trans (h.pk q hq)
  slots e b y hy := h.slots e b y (h'.slots e b y hy)
  req u := ⟨(h'.req u).1.trans (h.req u).1, (h'.req u).2.trans (h.req u).2⟩
  mem := h'.mem.trans h.mem
  fixed := ⟨h'.fixed.1.trans h.fixed.1, h'.fixed.2.1.trans h.fixed.2.1, fun e => (h'.fixed.2.2 e).trans (h.fixed.2.2 e)⟩
  sends := by rw [h'.sends, h.sends, List.append_assoc]
  out := by rw [h'.out, h.out, List.append_assoc]
  events := by rw [h'.events, h.events, List.append_assoc]

/-- The buffers of the requests stay, if that of the packet's own does. -/
theorem buffer (h : Does p d d' cs ms vs) (hp : (d'.pk p).context.reqS.buffer = (d.pk p).context.reqS.buffer)
    (r : ReqPtr) :
    (d'.getReq r).buffer = (d.getReq r).buffer := by
  cases r with
  | own q =>
    by_cases hq : q = p
    · subst hq
      exact hp
    · exact congrArg (fun x : Packet => x.context.reqS.buffer) (h.pk q hq)
  | user u => exact (h.req u).1

/-- After a step that adds nothing. -/
theorem after (h : Does p d d' [] [] []) (h' : Does p d' d'' cs ms vs) : Does p d d'' cs ms vs := h.trans h'

end Does

theorem does_setCtx (d : Dev) (p : PktId) (f : Context → Context) : Does p d (d.setCtx p f) [] [] [] :=
  Does.of_eq (fun q hq => by simp [Dev.setCtx, hq]) rfl

theorem does_setData (d : Dev) (p : PktId) (x : PkData) : Does p d (d.setData p x) [] [] [] :=
  Does.of_eq (fun q hq => by simp [Dev.setData, hq]) rfl

theorem does_setPool (d : Dev) (p : PktId) (pool : Pool) : Does p d (d.setPool pool) [] [] [] :=
  Does.of_eq (fun _ _ => rfl) rfl

/-- A write to the request of the packet, or to one of the application that leaves its buffer and handle. -/
theorem does_setReq (d : Dev) {p : PktId} {r : ReqPtr} {f : Req → Req}
    (hr : r = .own p ∨ (∃ u, r = .user u) ∧ ∀ q, (f q).buffer = q.buffer ∧ (f q).rhandle = q.rhandle) :
    Does p d (d.setReq r f) [] [] [] := by
  rcases hr with rfl | ⟨⟨u, rfl⟩, hf⟩
  · exact does_setCtx d p fun c => { c with reqS := f c.reqS }
  · refine ⟨fun _ _ => rfl, fun _ _ _ => id, fun v => ?_, rfl, ⟨rfl, rfl, fun _ => rfl⟩, by simp [Dev.setReq],
      by simp [Dev.setReq], by simp [Dev.setReq]⟩
    by_cases hv : v = u
    · subst hv
      simpa [Dev.setReq] using hf (d.req v)
    · simp [Dev.setReq, hv]

theorem does_event (d : Dev) (p : PktId) (v : Event) : Does p d (d.event v) [] [] [v] :=
  ⟨fun _ _ => rfl, fun _ _ _ => id, fun _ => ⟨rfl, rfl⟩, rfl,
    ⟨rfl, rfl, fun _ => rfl⟩, by simp [Dev.event], by simp [Dev.event], rfl⟩

/-- A change of an endpoint that leaves its table. -/
theorem does_setEp (d : Dev) (p : PktId) (e : Nat) {f : Ep → Ep} (hf : (f (d.eps e)).tbl = (d.eps e).tbl)
    (har : (f (d.eps e)).ar = (d.eps e).ar) : Does p d (d.setEp e f) [] [] [] := by
  refine ⟨fun _ _ => rfl, fun x b y hy => ?_, fun _ => ⟨rfl, rfl⟩, rfl, ⟨rfl, rfl, fun x => ?_⟩, by simp [Dev.setEp],
    by simp [Dev.setEp], by simp [Dev.setEp]⟩
  · unfold entries at hy ⊢
    by_cases hx : x = e
    · subst hx
      simpa [Dev.setEp, hf] using hy
    · simpa [Dev.setEp, hx] using hy
  · by_cases hx : x = e
    · subst hx
      simpa [Dev.setEp] using har
    · simp [Dev.setEp, hx]

theorem does_postSend (d : Dev) (p q : PktId) (m : Msg) : Does p d (postSend d q m) [q] [m] [] :=
  ⟨fun _ _ => rfl, fun _ _ _ => id, fun _ => ⟨rfl, rfl⟩, rfl, ⟨rfl, rfl, fun _ => rfl⟩, rfl, rfl, by simp [postSend]⟩

/-- A slot leaves a table. -/
theorem does_takeSlot {d : Dev} (p : PktId) {ep : Nat} {t : Table Ptr} {b : Fin (2 ^ tblBitSize)}
    {l r : List (Slot Ptr)} {x : Slot Ptr} (hl : entries d ep b = l ++ x :: r) (hb : NewBucket d ep t b (l ++ r)) :
    Does p d (d.setTbl ep t) [] [] [] := by
  refine ⟨fun _ _ => rfl, fun e c y hy => ?_, fun _ => ⟨rfl, rfl⟩, rfl, ⟨rfl, rfl, fun e => (setTbl_cq d ep t e).2⟩,
    by simp [Dev.setTbl, Dev.setEp], by simp [Dev.setTbl, Dev.setEp], by simp [Dev.setTbl, Dev.setEp]⟩
  rw [hb.entries] at hy
  split_ifs at hy with hec
  · obtain ⟨rfl, rfl⟩ := hec
    rw [hl]
    simp only [List.mem_append, List.mem_cons] at hy ⊢
    tauto
  · exact hy

/-! ## Completion events -/

theorem does_freeData {env : Env} {d d' : Dev} {p : PktId} (h : lciPkFreeData env d p = some d') :
    Does p d d' [] [] [] ∧ d'.pk = d.pk ∧ d'.req = d.req := by
  unfold lciPkFreeData at h
  split_ifs at h
  · obtain ⟨pool, -, rfl⟩ := Option.map_eq_some_iff.1 h
    exact ⟨does_setPool d p pool, rfl, rfl⟩
  · obtain ⟨pool, -, rfl⟩ := Option.map_eq_some_iff.1 h
    exact ⟨does_setPool d p pool, rfl, rfl⟩

/-- The handler of an endpoint. -/
def Event.IsHandler : Event → Prop
  | .handler _ _ => True
  | _ => False

theorem getReq_congr {d d' : Dev} (hpk : d'.pk = d.pk) (hreq : d'.req = d.req) (r : ReqPtr) :
    d'.getReq r = d.getReq r := by
  cases r <;> simp [Dev.getReq, hpk, hreq]

theorem getReq_setReq_buffer (d : Dev) (r : ReqPtr) {f : Req → Req} (hf : ∀ q, (f q).buffer = q.buffer) :
    ((d.setReq r f).getReq r).buffer = (d.getReq r).buffer := by
  cases r with
  | own p => simp [Dev.setReq, Dev.getReq, Dev.setCtx, hf]
  | user u => simp [Dev.setReq, Dev.getReq, hf]

theorem does_ceServe {env : Env} {d d' : Dev} {ep : Nat} {p : PktId}
    (hr : d.reqPtr p = .own p ∨ ∃ u, d.reqPtr p = .user u)
    (h : ceServe env d ep p = some d') : ∃ hs, Does p d d' [] [] hs ∧ (∀ v ∈ hs, v.IsHandler) ∧
      (d'.getReq (d.reqPtr p)).buffer = (d.getReq (d.reqPtr p)).buffer := by
  unfold ceServe at h
  split_ifs at h
  · obtain ⟨hd, hpk, hreq⟩ := does_freeData h
    have hs : Does p d (d.signal (d.reqPtr p)) [] [] [] :=
      does_setReq d (hr.imp_right fun hu => ⟨hu, fun _ => ⟨rfl, rfl⟩⟩)
    refine ⟨[], hs.after hd, by simp, ?_⟩
    rw [getReq_congr hpk hreq]
    exact getReq_setReq_buffer d _ fun _ => rfl
  · obtain ⟨cq, -, rfl⟩ := Option.map_eq_some_iff.1 h
    have hs : Does p d (d.setParent (d.reqPtr p) p) [] [] [] :=
      does_setReq d (hr.imp_right fun hu => ⟨hu, fun _ => ⟨rfl, rfl⟩⟩)
    refine ⟨[], hs.after (does_setEp _ p ep rfl rfl), by simp, ?_⟩
    exact (congrArg Req.buffer (getReq_congr rfl rfl _)).trans (getReq_setReq_buffer d (d.reqPtr p) fun _ => rfl)
  · obtain ⟨hd, hpk, hreq⟩ := does_freeData h
    refine ⟨[.handler ep (d.reqPtr p)], (does_event d p _).trans hd, by simp [Event.IsHandler], ?_⟩
    rw [getReq_congr (d := d) hpk hreq]
  · obtain ⟨hd, hpk, hreq⟩ := does_freeData h
    refine ⟨[], hd, by simp, ?_⟩
    rw [getReq_congr hpk hreq]

/-- A completion raises one completion event, and after it at most that of the handler. -/
theorem does_ceDispatch {env : Env} {d d' : Dev} {ep : Nat} {p : PktId}
    (hr : d.reqPtr p = .own p ∨ ∃ u, d.reqPtr p = .user u) (h : lciCeDispatch env d ep p = some d') : ∃ hs,
      Does p d d' [] [] (.completed ep (d.reqPtr p) (d.pk p).data :: hs) ∧ (∀ v ∈ hs, v.IsHandler) ∧
      (d'.getReq (d.reqPtr p)).buffer = (d.getReq (d.reqPtr p)).buffer := by
  obtain ⟨d₁, h₁, rfl⟩ := Option.map_eq_some_iff.1 h
  obtain ⟨hs, hd, hh, hb⟩ := does_ceServe (d := d.event _) hr h₁
  have hd₁ := (does_event d p (.completed ep (d.reqPtr p) (d.pk p).data)).trans hd
  have hb₁ : (d₁.getReq (d.reqPtr p)).buffer = (d.getReq (d.reqPtr p)).buffer :=
    hb.trans (congrArg Req.buffer (getReq_congr (d := d) rfl rfl _))
  split_ifs
  · have hg : Does p d₁ (lciCeGlob d₁ ep) [] [] [] := does_setEp d₁ p ep rfl rfl
    exact ⟨hs, by simpa using hd₁.trans hg, hh, (congrArg Req.buffer (getReq_congr rfl rfl _)).trans hb₁⟩
  · exact ⟨hs, hd₁, hh, hb₁⟩

/-! ## Rendezvous -/

theorem does_rmaReg (d : Dev) (p : PktId) (b : Buf) (n : Nat) : Does p d (lcServerRmaReg d b n).2 [] [] [] := by
  unfold lcServerRmaReg
  split
  · exact Does.of_eq (fun _ _ => rfl) rfl
  · exact Does.of_eq (fun _ _ => rfl) rfl

theorem rmaReg_req (d : Dev) (b : Buf) (n : Nat) : (lcServerRmaReg d b n).2.req = d.req := by
  unfold lcServerRmaReg
  split <;> rfl

/-- A registration on PSM2 has a key of 28 bits. -/
theorem rmaReg_key {d : Dev} (hb : d.backend = .psm2) (b : Buf) (n : Nat) : IsKey (lcServerRmaReg d b n).1 := by
  unfold lcServerRmaReg IsKey
  rw [hb]
  show (d.nextKey &&& 0x0fffffff) &&& 0xf0000000 = 0
  rw [BitVec.and_assoc]
  simp

/-- The fields of an RTS that its sender needs again, and the transfer it names. -/
def SameRts (r r' : Rdz) : Prop :=
  r'.cb = r.cb ∧ r'.ce = r.ce ∧ r'.srcAddr = r.srcAddr ∧ r'.size = r.size ∧ r'.xfer = r.xfer

/-- The packet of an RTS becomes the RTR: the fields of the RTS stay in it, with the buffer of the request and
the offset of the packet beside them. -/
theorem does_handleRts (d : Dev) (ep : Nat) (p : PktId) : ∃ r,
    Does p d (lciHandleRts d ep p) [p] [.send (d.reqOf p).rhandle (makeProto (BitVec.ofNat 32 ep) .rtr 0) packetRtrSize
      (.rdz r)] [] ∧
    SameRts (d.pk p).data.view r ∧ r.tgtAddr = (d.reqOf p).buffer ∧
      r.commId = BitVec.ofNat 32 (pktOffset d.pageSize p) ∧
    (d.backend = .psm2 → IsKey r.rkey) ∧ ((lciHandleRts d ep p).pk p).data = .rdz r ∧
    ((lciHandleRts d ep p).pk p).context.proto = .rtr ∧ (lciHandleRts d ep p).reqPtr p = d.reqPtr p ∧
    ((lciHandleRts d ep p).reqOf p).buffer = (d.reqOf p).buffer := by
  have hinit : Does p d (lciPkInit d ep (-1) .rtr p) [] [] [] := does_setCtx d p _
  have hpk : (lciPkInit d ep (-1) .rtr p).pk p =
      ⟨{ (d.pk p).context with ep := ep, poolid := -1, ref := 1, proto := .rtr }, (d.pk p).data⟩ := by
    simp [lciPkInit, Dev.setCtx]
  obtain ⟨hps, hbk, hrq⟩ : (lciPkInit d ep (-1) .rtr p).pageSize = d.pageSize ∧
      (lciPkInit d ep (-1) .rtr p).backend = d.backend ∧ (lciPkInit d ep (-1) .rtr p).req = d.req := ⟨rfl, rfl, rfl⟩
  unfold lciHandleRts lcServerSendm lciPrepareRtr
  dsimp only
  generalize lciPkInit d ep (-1) .rtr p = D at *
  have hreg := does_rmaReg D p (d.reqOf p).buffer (d.pk p).data.view.size
  have hkey := fun h : D.backend = .psm2 => rmaReg_key h (d.reqOf p).buffer (d.pk p).data.view.size
  obtain ⟨-, -, hpkE, hpsE, -, -⟩ := rmaReg_spec D (d.reqOf p).buffer (d.pk p).data.view.size
  have hrqE := rmaReg_req D (d.reqOf p).buffer (d.pk p).data.view.size
  generalize (lcServerRmaReg D (d.reqOf p).buffer (d.pk p).data.view.size).2 = E at *
  generalize (lcServerRmaReg D (d.reqOf p).buffer (d.pk p).data.view.size).1 = k at *
  rw [hpsE, hpkE, hps, hpk]
  dsimp only
  generalize hr : ({ (d.pk p).data.view with
    commId := BitVec.ofNat 32 (pktOffset d.pageSize p), tgtAddr := (d.reqOf p).buffer, rkey := k } : Rdz) = r
  -- the packet initialised, the buffer registered, the RTR written over the RTS
  have hset : Does p d ((E.setCtx p fun c => { c with rmaMem := k, ref := 2 }).setData p (.rdz r)) [] [] [] :=
    (hinit.after hreg).after ((does_setCtx E p _).after (does_setData _ p _))
  have hF : ((E.setCtx p fun c => { c with rmaMem := k, ref := 2 }).setData p (.rdz r)).pk p =
      ⟨{ (d.pk p).context with ep := ep, poolid := -1, ref := 2, proto := .rtr, rmaMem := k }, .rdz r⟩ := by
    simp [Dev.setCtx, Dev.setData, hpkE, hpk]
  have hG : ((E.setCtx p fun c => { c with rmaMem := k, ref := 2 }).setData p (.rdz r)).req = d.req := hrqE.trans hrq
  generalize (E.setCtx p fun c => { c with rmaMem := k, ref := 2 }).setData p (.rdz r) = F at *
  refine ⟨r, ?_, ?_, by rw [← hr], by rw [← hr], fun h => ?_, ?_, ?_, ?_, ?_⟩
  · rw [hF]
    exact hset.after (does_postSend F p p _)
  · rw [← hr]
    exact ⟨rfl, rfl, rfl, rfl, rfl⟩
  · rw [← hr]
    exact hkey (hbk.trans h)
  · show (F.pk p).data = _
    rw [hF]
  · show (F.pk p).context.proto = _
    rw [hF]
  · show (F.pk p).context.req = _
    rw [hF]
    rfl
  · show (F.getReq (F.pk p).context.req).buffer = _
    rw [hF]
    exact hset.buffer (by rw [hF]) _

/-- The packet of an RTR becomes the context of the write that the RTR asks for. -/
theorem does_handleRtr (d : Dev) (ep : Nat) (p : PktId) :
    Does p d (lciHandleRtr d ep p) [p] [.rma (d.reqOf p).rhandle (d.pk p).data.view.srcAddr (d.pk p).data.view.tgtAddr
      (d.pk p).data.view.rkey (d.pk p).data.view.size (d.pk p).data.view.commId] [] ∧
    ((lciHandleRtr d ep p).pk p).data = (d.pk p).data ∧ ((lciHandleRtr d ep p).pk p).context.proto = .long := by
  have hinit : Does p d (lciPkInit d ep (-1) .long p) [] [] [] := does_setCtx d p _
  have hpk : ((lciPkInit d ep (-1) .long p).pk p).data = (d.pk p).data ∧
      ((lciPkInit d ep (-1) .long p).pk p).context.proto = .long := by simp [lciPkInit, Dev.setCtx]
  rw [handleRtr_eq]
  generalize lciPkInit d ep (-1) .long p = D at *
  obtain ⟨-, -, -, hpkE, -⟩ :=
    sendOn_spec D p (.rma (d.reqOf p).rhandle (d.pk p).data.view.srcAddr (d.pk p).data.view.tgtAddr
    (d.pk p).data.view.rkey (d.pk p).data.view.size (d.pk p).data.view.commId)
  refine ⟨hinit.after ?_, by rw [hpkE]; exact hpk.1, by rw [hpkE]; exact hpk.2⟩
  unfold sendOn
  split_ifs
  · have hreg : Does p D (ibvRmaReg D).2 [] [] [] := Does.of_eq (fun _ _ => rfl) rfl
    exact hreg.after (does_postSend _ p p _)
  · exact does_postSend D p p _

/-! ## A receive and an RTS that have met -/

/-- `d'` comes from `d` by granting the RTS in packet `p` a buffer: an RTR for it is sent to rank `o`, and the packet
waits for the write. -/
structure Grants (p : PktId) (ep : Nat) (d d' : Dev) (o : CInt) (buf : Nat) (r : Rdz) : Prop where
  does : Does p d d' [p] [.send o (makeProto (BitVec.ofNat 32 ep) .rtr 0) packetRtrSize (.rdz r)] []
  rts : SameRts (d.pk p).data.view r
  tgtAddr : r.tgtAddr = .mem buf
  commId : r.commId = BitVec.ofNat 32 (pktOffset d.pageSize p)
  key : d.backend = .psm2 → IsKey r.rkey
  data : (d'.pk p).data = .rdz r
  proto : (d'.pk p).context.proto = .rtr
  buffer : (d'.reqOf p).buffer = .mem buf

/-- The packet and the request have been brought together on `D`. -/
theorem grants_handleRts {p : PktId} {d D : Dev} (ep : Nat) {o : CInt} {buf : Nat} (h : Does p d D [] [] [])
    (hdata : (D.pk p).data = (d.pk p).data) (ho : (D.reqOf p).rhandle = o) (hbuf : (D.reqOf p).buffer = .mem buf) :
    ∃ r, Grants p ep d (lciHandleRts D ep p) o buf r := by
  obtain ⟨r, h1, h2, h3, h4, h5, h6, h7, -, h9⟩ := does_handleRts D ep p
  rw [ho] at h1
  rw [hdata] at h2
  exact ⟨r, h.after h1, h2, h3.trans hbuf, by rw [h4, h.fixed.1], fun hp => h5 (h.fixed.2.1.trans hp), h6, h7,
    h9.trans hbuf⟩

/-- A packet is stored in a table under a key. -/
structure Stores (p : PktId) (ep : Nat) (d d' : Dev) (key : Key) (D : Dev) : Prop where
  does : Does p d D [] [] []
  data : (D.pk p).data = (d.pk p).data
  proto : (D.pk p).context.proto = .rts
  table : ∃ t, d' = D.setTbl ep t ∧
    NewBucket D ep t (bucket key) (entries D ep (bucket key) ++ [⟨tagOf key .server, .pkt p⟩])

theorem cmpKeyOf_server {key : Key} (hkey : ValidKey key) : cmpKeyOf key .server ≠ EMPTY := by
  rw [cmpKeyOf_eq]
  exact tagOf_ne_empty hkey _

/-- The first lines of `lci_serve_recv_expl`. -/
theorem does_setMeta {d : Dev} {p : PktId} (hr : d.reqPtr p = .own p) (m : CInt) (k : LcProto) :
    Does p d ((d.setMeta (d.reqPtr p) m).setProto p k) [] [] [] ∧
      (((d.setMeta (d.reqPtr p) m).setProto p k).pk p).data = (d.pk p).data ∧
      (((d.setMeta (d.reqPtr p) m).setProto p k).pk p).context.proto = k := by
  refine ⟨(does_setReq d (.inl hr)).after (does_setCtx _ p _), ?_, ?_⟩
  · rw [hr]
    simp [Dev.setMeta, Dev.setReq, Dev.setProto, Dev.setCtx]
  · simp [Dev.setProto, Dev.setCtx]

theorem data_setReqPtr (d : Dev) (p : PktId) (r : ReqPtr) : ((d.setReqPtr p r).pk p).data = (d.pk p).data := by
  simp [Dev.setReqPtr, Dev.setCtx]

theorem reqOf_setReqPtr (d : Dev) (p : PktId) (u : ReqId) : (d.setReqPtr p (.user u)).reqOf p = d.req u := by
  simp [Dev.setReqPtr, Dev.setCtx, Dev.reqOf, Dev.reqPtr, Dev.getReq]

/-- An RTS arrives on an EXP endpoint. The requests in the table under its key are of receives from rank `o`. -/
theorem does_recvExpl {env : Env} {d d' : Dev} {ep : Nat} {p : PktId} {word : BitVec 32} {o : CInt}
    (hk : protoOfBits (protoGetProto word) = .rts) (hr : d.reqPtr p = .own p) (hrank : (d.reqOf p).rank.toNat < 2 ^ 31)
    (hslots : ∀ b, ∀ y ∈ entries d ep b, ∀ u, y.val = .req u →
      y.tag = tagOf (lcMakeKey (d.reqOf p).rank (protoGetMeta word)) .client →
      (d.req u).rhandle = o ∧ ∃ buf, (d.req u).buffer = .mem buf)
    (h : lciServeRecvExpl env d ep p word = some d') :
    (∃ D, Stores p ep d d' (lcMakeKey (d.reqOf p).rank (protoGetMeta word)) D) ∨ ∃ buf r, Grants p ep d d' o buf r := by
  obtain ⟨hd, hdata, hproto⟩ := does_setMeta hr (protoGetMeta word) .rts
  obtain ⟨-, hreq⟩ := setMeta_own hr (protoGetMeta word) .rts
  unfold lciServeRecvExpl at h
  rw [hk] at h
  dsimp only at h
  generalize (d.setMeta (d.reqPtr p) (protoGetMeta word)).setProto p .rts = D at *
  have hkeyEq : lcMakeKey (D.reqOf p).rank (D.reqOf p).metaVal = lcMakeKey (d.reqOf p).rank (protoGetMeta word) := by
    rw [hreq]
  have hkey : ValidKey (lcMakeKey (d.reqOf p).rank (protoGetMeta word)) :=
    validKey_of_tag hrank ((protoGetMeta_lt word).trans (by decide))
  unfold explMatch explInsert at h
  rw [hkeyEq] at h
  generalize lcMakeKey (d.reqOf p).rank (protoGetMeta word) = key at *
  rcases insert_entries D ep key (.pkt p) .server (cmpKeyOf_server hkey) (tagOf_ne_empty hkey _) with
    ⟨l, y, r, hl, ht, hret, hval, hb⟩ | ⟨hret, hb⟩
  · dsimp only at h
    rw [if_pos hret, hval] at h
    rw [cmpKeyOf_eq] at ht
    cases hv : y.val with
    | req u =>
      rw [hv] at h
      cases h
      obtain ⟨ho, buf, hbuf⟩ := hslots _ y (hd.slots _ _ _ (by rw [hl]; simp)) u hv ht
      have hE := does_takeSlot p hl hb
      have hE' : Does p d ((D.setTbl ep (lcHashInsert .null (D.eps ep).tbl key (.pkt p) .server).table).setReqPtr p
        (.user u))
          [] [] [] := (hd.after hE).after (does_setCtx _ p _)
      refine .inr ⟨buf, grants_handleRts ep hE' ?_ ?_ ?_⟩
      · exact (data_setReqPtr _ _ _).trans hdata
      · rw [reqOf_setReqPtr]
        exact (hd.req u).2.trans ho
      · rw [reqOf_setReqPtr]
        exact (hd.req u).1.trans hbuf
    | _ => rw [hv] at h; cases h
  · dsimp only at h
    rw [if_neg (by rw [hret]; decide)] at h
    cases h
    exact .inl ⟨D, hd, hdata, hproto, _, rfl, hb⟩

/-- An RTS arrives on a DYN endpoint: the buffer is the one that `alloc` returns. -/
theorem does_recvDyn {env : Env} {d d' : Dev} {ep : Nat} {p : PktId} {word : BitVec 32}
    (hk : protoOfBits (protoGetProto word) = .rts) (hr : d.reqPtr p = .own p)
    (h : lciServeRecvDyn env d ep p word = some d') : ∃ r, Grants p ep d d' (d.reqOf p).rhandle env.alloc r := by
  unfold lciServeRecvDyn at h
  rw [hk] at h
  dsimp only at h
  cases h
  rw [hr]
  have hreq : (d.pk p).context.req = .own p := hr
  have hptr : (d.setMeta (.own p) (protoGetMeta word)).reqPtr p = .own p := by
    simp [Dev.setMeta, Dev.setReq, Dev.setCtx, Dev.reqPtr, hreq]
  have hdata : ((d.setMeta (.own p) (protoGetMeta word)).pk p).data = (d.pk p).data := by
    simp [Dev.setMeta, Dev.setReq, Dev.setCtx]
  rw [hptr, hdata]
  have hd : Does p d (lciInitReq (d.setMeta (.own p) (protoGetMeta word)) (.mem env.alloc) (d.pk p).data.view.size
    (.own p))
      [] [] [] := (does_setReq d (.inl rfl)).after (does_setReq _ (.inl rfl))
  refine grants_handleRts ep hd ?_ ?_ ?_
  · simp [lciInitReq, Dev.setMeta, Dev.setReq, Dev.setCtx]
  · simp [lciInitReq, Dev.setMeta, Dev.setReq, Dev.setCtx, Dev.reqOf, Dev.reqPtr, Dev.getReq, hreq]
  · simp [lciInitReq, Dev.setMeta, Dev.setReq, Dev.setCtx, Dev.reqOf, Dev.reqPtr, Dev.getReq, hreq]

/-- An RTS arrives. -/
theorem does_serveRts {env : Env} {d d' : Dev} {p : PktId} {word : BitVec 32} {o : CInt} {ep : Nat}
    (hep : (protoGetRgid word).toNat = ep) (hk : protoOfBits (protoGetProto word) = .rts) (hr : d.reqPtr p = .own p)
    (hrank : (d.reqOf p).rank.toNat < 2 ^ 31) (hhandle : (d.reqOf p).rhandle = o)
    (hkind : d.build.hasAr (d.eps ep).ar = true ∧ (d.eps ep).ar ≠ .imm)
    (hslots : ∀ b, ∀ y ∈ entries d ep b, ∀ u, y.val = .req u →
      y.tag = tagOf (lcMakeKey (d.reqOf p).rank (protoGetMeta word)) .client →
      (d.req u).rhandle = o ∧ ∃ buf, (d.req u).buffer = .mem buf)
    (h : lciServeRecv env d p word = some d') :
    (∃ D, Stores p ep d d' (lcMakeKey (d.reqOf p).rank (protoGetMeta word)) D) ∨ ∃ buf r, Grants p ep d d' o buf r := by
  unfold lciServeRecv lciServeRecvDispatch at h
  rw [hep] at h
  cases ha : (d.eps ep).ar with
  | exp =>
    rw [ha] at hkind
    rw [if_pos ⟨hkind.1, ha⟩] at h
    exact does_recvExpl hk hr hrank hslots h
  | dyn =>
    rw [ha] at hkind
    rw [if_neg (by simp [ha]), if_pos ⟨hkind.1, ha⟩] at h
    obtain ⟨r, hg⟩ := does_recvDyn hk hr h
    rw [hhandle] at hg
    exact .inr ⟨_, r, hg⟩
  | imm => exact absurd ha hkind.2

/-- An RTR arrives. -/
theorem does_serveRtr {env : Env} {d d' : Dev} {p : PktId} {word : BitVec 32} {ep : Nat}
    (hep : (protoGetRgid word).toNat = ep) (hk : protoOfBits (protoGetProto word) = .rtr) (hr : d.reqPtr p = .own p)
    (hkind : d.build.hasAr (d.eps ep).ar = true ∧ (d.eps ep).ar ≠ .imm) (h : lciServeRecv env d p word = some d') :
    Does p d d' [p] [.rma (d.reqOf p).rhandle (d.pk p).data.view.srcAddr (d.pk p).data.view.tgtAddr
      (d.pk p).data.view.rkey (d.pk p).data.view.size (d.pk p).data.view.commId] [] ∧
    (d'.pk p).data = (d.pk p).data ∧ (d'.pk p).context.proto = .long := by
  -- the endpoint's lines before `lci_handle_rtr` touch the packet alone
  have hrtr : ∀ {D : Dev}, Does p d D [] [] [] → (D.pk p).data = (d.pk p).data →
    (D.reqOf p).rhandle = (d.reqOf p).rhandle →
      d' = lciHandleRtr D ep p → Does p d d' [p] [.rma (d.reqOf p).rhandle (d.pk p).data.view.srcAddr
        (d.pk p).data.view.tgtAddr (d.pk p).data.view.rkey (d.pk p).data.view.size (d.pk p).data.view.commId] [] ∧
      (d'.pk p).data = (d.pk p).data ∧ (d'.pk p).context.proto = .long := by
    rintro D hd hdata ho rfl
    obtain ⟨h1, h2, h3⟩ := does_handleRtr D ep p
    rw [hdata, ho] at h1
    exact ⟨hd.after h1, h2.trans hdata, h3⟩
  unfold lciServeRecv lciServeRecvDispatch at h
  rw [hep] at h
  cases ha : (d.eps ep).ar with
  | exp =>
    rw [ha] at hkind
    rw [if_pos ⟨hkind.1, ha⟩, lciServeRecvExpl, hk] at h
    obtain ⟨hd, hdata, -⟩ := does_setMeta hr (protoGetMeta word) .rtr
    obtain ⟨-, hreq⟩ := setMeta_own hr (protoGetMeta word) .rtr
    exact hrtr hd hdata (by rw [hreq]) (Option.some_injective _ h).symm
  | dyn =>
    rw [ha] at hkind
    rw [if_neg (by simp [ha]), if_pos ⟨hkind.1, ha⟩, lciServeRecvDyn, hk] at h
    have hreq : (d.pk p).context.req = .own p := hr
    have hd : Does p d (d.setMeta (d.reqPtr p) (protoGetMeta word)) [] [] [] := does_setReq d (.inl hr)
    rw [hr] at h hd
    refine hrtr hd ?_ ?_ (Option.some_injective _ h).symm
    · simp [Dev.setMeta, Dev.setReq, Dev.setCtx]
    · simp [Dev.setMeta, Dev.setReq, Dev.setCtx, Dev.reqOf, Dev.reqPtr, Dev.getReq, hreq]
  | imm => exact absurd ha hkind.2

/-! ## Receives -/

/-- A receive from rank `rank` is stored, or it finds the packet of an RTS. `d` is the device with the request of the
receive written. -/
theorem does_recvMatch {d d' : Dev} {ep : Nat} {rank tag : CInt} {u : ReqId} {src : Nat} (htag : tag ≠ -1)
    (ho : (d.req u).rhandle = rank) (hbuf : (d.req u).buffer = .mem src) {k : Dev → PktId → Option Dev}
    (hk : ∀ t q, (∃ b, ∃ y ∈ entries d ep b, y.val = .pkt q) →
    k (d.setTbl ep t) q = some (recvRts (d.setTbl ep t) ep u q)) (h : recvMatch d rank tag ep u k = some d') :
    (∃ t, d' = d.setTbl ep t ∧ NewBucket d ep t (bucket (lcMakeKey rank tag))
      (entries d ep (bucket (lcMakeKey rank tag)) ++ [⟨tagOf (lcMakeKey rank tag) .client, .req u⟩])) ∨
    ∃ q b, ∃ y ∈ entries d ep b, y.val = .pkt q ∧ y.tag = tagOf (lcMakeKey rank tag) .server ∧
      ∃ r, Grants q ep d d' rank src r := by
  unfold recvMatch recvInsert at h
  rcases insert_entries d ep (lcMakeKey rank tag) (.req u) .client (cmpKeyOf_recv_ne htag) (tagOf_client_ne _) with
    ⟨l, y, r, hl, ht, hret, hval, hb⟩ | ⟨hret, hb⟩
  · dsimp only at h
    rw [if_pos hret, hval] at h
    rw [cmpKeyOf_eq] at ht
    have hy : y ∈ entries d ep (bucket (lcMakeKey rank tag)) := by rw [hl]; simp
    cases hv : y.val with
    | pkt q =>
      rw [hv] at h
      dsimp only at h
      rw [hk _ q ⟨_, y, hy, hv⟩] at h
      cases h
      have hE := does_takeSlot q hl hb
      generalize (lcHashInsert .null (d.eps ep).tbl (lcMakeKey rank tag) (.req u) .client).table = t at *
      have hS : Does q (d.setTbl ep t) ((d.setTbl ep t).setSize (.user u) ((d.setTbl ep t).pk q).data.view.size) [] []
        [] :=
        does_setReq _ (.inr ⟨⟨u, rfl⟩, fun _ => ⟨rfl, rfl⟩⟩)
      have hD : Does q d (((d.setTbl ep t).setSize (.user u) ((d.setTbl ep t).pk q).data.view.size).setReqPtr q
        (.user u))
          [] [] [] := hE.after (hS.after (does_setCtx _ q _))
      refine .inr ⟨q, _, y, hy, hv, ht, grants_handleRts ep hD (data_setReqPtr _ _ _) ?_ ?_⟩
      · rw [reqOf_setReqPtr]
        exact ((hE.after hS).req u).2.trans ho
      · rw [reqOf_setReqPtr]
        exact ((hE.after hS).req u).1.trans hbuf
    | _ => rw [hv] at h; cases h
  · dsimp only at h
    rw [if_neg (by rw [hret]; decide)] at h
    cases h
    exact .inl ⟨_, rfl, hb⟩

/-! ## Long sends -/

/-- `lc_sendl` takes a packet of the pool and sends an RTS with it, or does nothing. -/
theorem does_sendl {s : Sys} {loc : PktId → Loc} {use : ReqId → ReqLoc} (h : Own s loc use) (env : Env) (src size : Nat)
    (rank tag : CInt) (ep cb ce xfer : Nat) :
    Does LC_SERVER_NUM_PKTS s.dev (lcSendl env s.dev src size rank tag ep cb ce xfer).2 [] [] [] ∨
    ∃ p r, loc p = .pool ∧ Does p s.dev (lcSendl env s.dev src size rank tag ep cb ce xfer).2 [p]
        [.send rank (makeProto (BitVec.ofNat 32 ep) .rts tag) packetRtsSize (.rdz r)] [] ∧
      r.cb = cb ∧ r.ce = ce ∧ r.srcAddr = src ∧ r.size = size ∧ r.xfer = xfer ∧
      ((lcSendl env s.dev src size rank tag ep cb ce xfer).2.pk p).data = .rdz r ∧
      ((lcSendl env s.dev src size rank tag ep cb ce xfer).2.pk p).context.proto = .rts := by
  obtain ⟨-, hg⟩ := h.getOrRetn env
  have hd : ∀ q, Does q s.dev (poolGetOrRetn env s.dev).2 [] [] [] := by
    intro q
    unfold poolGetOrRetn
    split_ifs
    · exact Does.refl _ _
    · exact does_setPool _ _ _
  unfold lcSendl
  generalize poolGetOrRetn env s.dev = x at *
  obtain ⟨_ | p, D⟩ := x
  · exact .inl (hd _)
  · refine .inr ⟨p, { (D.pk p).data.view with srcAddr := src, size := size, cb := cb, ce := ce, xfer := xfer }, hg.1,
      ?_, rfl, rfl, rfl, rfl, rfl, ?_, ?_⟩
    · have hinit : Does p s.dev (lciPrepareRts (lciPkInit D ep (-1) .rts p) src size cb ce xfer p) [] [] [] :=
        (hd p).after ((does_setCtx D p _).after (does_setData _ p _))
      have hdata : ((lciPrepareRts (lciPkInit D ep (-1) .rts p) src size cb ce xfer p).pk p).data =
          .rdz { (D.pk p).data.view with srcAddr := src, size := size, cb := cb, ce := ce, xfer := xfer } := by
        simp [lciPrepareRts, lciPkInit, Dev.setData, Dev.setCtx]
      rw [← hdata]
      exact hinit.after (does_postSend _ p p _)
    · simp [lcServerSendm, postSend, lciPrepareRts, lciPkInit, Dev.setData, Dev.setCtx]
    · simp [lcServerSendm, postSend, lciPrepareRts, lciPkInit, Dev.setData, Dev.setCtx]

/-! ## Completions of sends and immediates -/

/-- A packet that waits counts one event off, or its completion event is raised. -/
theorem does_decRef {env : Env} {d d' : Dev} {p : PktId} (hr : d.reqPtr p = .own p ∨ ∃ u, d.reqPtr p = .user u)
    (h : decRef env d p = some d') :
    (if (d.pk p).context.ref = 1 then ∃ hs ep, (∀ v ∈ hs, v.IsHandler) ∧
      Does p d d' [] [] (.completed ep (d.reqPtr p) (d.pk p).data :: hs)
    else Does p d d' [] [] [] ∧ (d'.pk p).data = (d.pk p).data ∧ (d'.pk p).context.proto = (d.pk p).context.proto ∧
      d'.reqPtr p = d.reqPtr p) ∧ (d'.getReq (d.reqPtr p)).buffer = (d.getReq (d.reqPtr p)).buffer := by
  have hdec : Does p d (d.setCtx p fun c => { c with ref := c.ref - 1 }) [] [] [] := does_setCtx d p _
  have hpk : (d.setCtx p fun c => { c with ref := c.ref - 1 }).pk p =
      ⟨{ (d.pk p).context with ref := (d.pk p).context.ref - 1 }, (d.pk p).data⟩ := by simp [Dev.setCtx]
  have hbuf := hdec.buffer (by rw [hpk]) (d.reqPtr p)
  unfold decRef at h
  dsimp only at h
  generalize d.setCtx p (fun c => { c with ref := c.ref - 1 }) = D at *
  have hreq : D.reqPtr p = d.reqPtr p := by
    unfold Dev.reqPtr
    rw [hpk]
  have hdata : (D.pk p).data = (d.pk p).data := by rw [hpk]
  have hproto : (D.pk p).context.proto = (d.pk p).context.proto := by rw [hpk]
  have href : (D.pk p).context.ref = (d.pk p).context.ref - 1 := by rw [hpk]
  rw [href] at h
  by_cases h1 : (d.pk p).context.ref = 1
  · rw [if_pos (by omega)] at h
    obtain ⟨hs, hd, hh, hb⟩ := does_ceDispatch (by rw [hreq]; exact hr) h
    rw [hreq] at hd hb
    rw [hdata] at hd
    rw [if_pos h1]
    exact ⟨⟨hs, _, hh, hdec.after hd⟩, hb.trans hbuf⟩
  · rw [if_neg (by omega)] at h
    cases h
    rw [if_neg h1]
    exact ⟨⟨hdec, hdata, hproto, hreq⟩, hbuf⟩

/-! ## Packets that no transfer needs -/

/-- The packet is neither stored nor the context of a send, and no immediate is owed for it. -/
structure Unused (s : Sys) (p : PktId) : Prop where
  owed : p ∉ s.owed
  sends : p ∉ s.dev.sends
  slots : ∀ e b, ∀ y ∈ entries s.dev e b, y.val ≠ .pkt p

theorem Own.unused {s : Sys} {loc : PktId → Loc} {use : ReqId → ReqLoc} (h : Own s loc use) {p : PktId}
    (hp : loc p = .hand ∨ loc p = .pool ∨ loc p = .posted) : Unused s p := by
  refine ⟨fun hm => ?_, fun hm => ?_, fun e b y hy hv => ?_⟩
  · have haw : (loc p).Awaiting := h.owed.mem hm
    rcases hp with hp | hp | hp <;> rw [hp] at haw <;> exact haw
  · have hse : (loc p).Sending := h.sends.mem hm
    rcases hp with hp | hp | hp <;> rw [hp] at hse <;> exact hse
  · have hm : p ∈ pktsOf (entries s.dev e b) := List.mem_filterMap.2 ⟨y, hy, by rw [hv]; rfl⟩
    have ht : loc p = .table e b := (h.pkts e b).mem hm
    rcases hp with hp | hp | hp <;> rw [hp] at ht <;> cases ht

namespace Good

variable {s : Sys} (h : Good s) {p : PktId}

include h

theorem unused_pool (hp : p ∈ s.dev.pool.lpools.flatten) : Unused s p := by
  obtain ⟨loc, use, ho, -⟩ := h.own
  exact ho.unused (.inr (.inl (ho.pool.mem hp)))

theorem unused_posted (hp : p ∈ s.dev.posted.filterMap Post.ctx) : Unused s p := by
  obtain ⟨loc, use, ho, -⟩ := h.own
  exact ho.unused (.inr (.inr (ho.posted.mem hp)))

/-- A number that names no packet. -/
theorem unused_end : Unused s LC_SERVER_NUM_PKTS := by
  obtain ⟨loc, use, ho, -⟩ := h.own
  exact ho.unused (.inl (ho.range _ le_rfl))

theorem send_lt (hp : p ∈ s.dev.sends) : p < LC_SERVER_NUM_PKTS := by
  obtain ⟨loc, use, ho, -⟩ := h.own
  have hse : (loc p).Sending := ho.sends.mem hp
  exact ho.lt_of_ne fun e => by rw [e] at hse; exact hse

/-- A context of the transport is in no table. -/
theorem send_slots (hp : p ∈ s.dev.sends) (e : Nat) (b : Fin (2 ^ tblBitSize)) :
    ∀ y ∈ entries s.dev e b, y.val ≠ .pkt p := by
  obtain ⟨loc, use, ho, -⟩ := h.own
  intro y hy hv
  have hm : p ∈ pktsOf (entries s.dev e b) := List.mem_filterMap.2 ⟨y, hy, by rw [hv]; rfl⟩
  have ht : loc p = .table e b := (ho.pkts e b).mem hm
  have hse : (loc p).Sending := ho.sends.mem hp
  rw [ht] at hse
  exact hse

/-- A packet that waits is in a rendezvous. -/
theorem waiting_loc (hp : p ∈ s.owed ∨ (p ∈ s.dev.sends ∧ (s.dev.pk p).context.proto = .rtr)) :
    ∃ loc use a b, Own s loc use ∧ loc p = .rdz a b := by
  obtain ⟨loc, use, ho, -⟩ := h.own
  rcases hp with hp | ⟨hp, hk⟩
  · have haw : (loc p).Awaiting := ho.owed.mem hp
    cases hl : loc p with
    | rdz a b => exact ⟨loc, use, a, b, ho, hl⟩
    | _ => rw [hl] at haw; exact haw.elim
  · obtain ⟨b, hb⟩ := (ho.sends_iff p).2.1 ⟨hp, hk⟩
    exact ⟨loc, use, true, b, ho, hb⟩

/-- What waits in a rendezvous counts its events, and its request is its own or one of the application. -/
theorem waiting (hp : p ∈ s.owed ∨ (p ∈ s.dev.sends ∧ (s.dev.pk p).context.proto = .rtr)) :
    (s.dev.pk p).context.proto = .rtr ∧
    (s.dev.pk p).context.ref = ((decide (p ∈ s.dev.sends)).toNat : Int) + (decide (p ∈ s.owed)).toNat ∧
    (s.dev.reqPtr p = .own p ∨ ∃ u, s.dev.reqPtr p = .user u) := by
  obtain ⟨loc, use, a, b, ho, hl⟩ := h.waiting_loc hp
  obtain ⟨-, hk, href, hreq⟩ := ho.rdz p a b hl
  have ha : p ∈ s.dev.sends ↔ a = true := (ho.sends.mem_iff p).trans (by rw [hl]; rfl)
  have hb : p ∈ s.owed ↔ b = true := (ho.owed.mem_iff p).trans (by rw [hl]; rfl)
  refine ⟨hk, ?_, hreq.cases⟩
  rw [href]
  simp only [ha, hb, Bool.decide_eq_true]

/-- What waits in a rendezvous is in no table. -/
theorem waiting_slots (hp : p ∈ s.owed ∨ (p ∈ s.dev.sends ∧ (s.dev.pk p).context.proto = .rtr)) (e : Nat)
    (b : Fin (2 ^ tblBitSize)) : ∀ y ∈ entries s.dev e b, y.val ≠ .pkt p := by
  obtain ⟨loc, use, a, c, ho, hl⟩ := h.waiting_loc hp
  intro y hy hv
  have hm : p ∈ pktsOf (entries s.dev e b) := List.mem_filterMap.2 ⟨y, hy, by rw [hv]; rfl⟩
  have ht : loc p = .table e b := (ho.pkts e b).mem hm
  rw [hl] at ht
  cases ht

theorem sends_nodup : s.dev.sends.Nodup := by
  obtain ⟨loc, use, ho, -⟩ := h.own
  exact ho.sends.nodup

theorem owed_nodup : s.owed.Nodup := by
  obtain ⟨loc, use, ho, -⟩ := h.own
  exact ho.owed.nodup

end Good

/-! ## Calls that send nothing -/

theorem does_posted (d : Dev) (p : PktId) (l : List Post) (n : Int) (b : Bool) :
    Does p d { d with posted := l, recvPosted := n, deadlock := b } [] [] [] := Does.of_eq (fun _ _ => rfl) rfl

theorem does_ibvPostRecv (env : Env) (d : Dev) (p : PktId) : Does p d (ibvPostRecv env d (some p)) [] [] [] := by
  unfold ibvPostRecv
  dsimp only
  have hset : Does p d ((d.setPool (lcPoolGetLocal d.pool env.wid).2).setCtx p
      fun c => { c with poolid := int8 (lcPoolGetLocal d.pool env.wid).1 }) [] [] [] :=
    (does_setPool d p _).after (does_setCtx _ p _)
  generalize (d.setPool (lcPoolGetLocal d.pool env.wid).2).setCtx p
    (fun c => { c with poolid := int8 (lcPoolGetLocal d.pool env.wid).1 }) = D at *
  exact hset.after (does_posted D p _ _ _)

/-- The packet that a refill posts comes from the pool. -/
theorem does_refill {s : Sys} (h : Good s) (env : Env) :
    ∃ p, Unused s p ∧ Does p s.dev (progressRefill env s.dev) [] [] [] := by
  obtain ⟨loc, use, ho, -⟩ := h.own
  obtain ⟨-, -, hget⟩ := getNb_spec ho.tls env
  have hquiet : ∀ {d : Dev}, Does LC_SERVER_NUM_PKTS s.dev d [] [] [] → ∃ p, Unused s p ∧ Does p s.dev d [] [] [] :=
    fun hd => ⟨_, h.unused_end, hd⟩
  unfold progressRefill
  split
  · unfold ibvRefill
    split_ifs
    · cases hn : (lcPoolGetNb s.dev.pool env).1 with
      | none =>
        refine hquiet ((does_setPool s.dev _ (lcPoolGetNb s.dev.pool env).2).after ?_)
        unfold ibvPostRecv
        dsimp only
        split_ifs
        · exact Does.of_eq (fun _ _ => rfl) rfl
        · exact Does.refl _ _
      | some p =>
        rw [hn] at hget
        refine ⟨p, h.unused_pool (hget.symm.subset List.mem_cons_self),
          (does_setPool s.dev p (lcPoolGetNb s.dev.pool env).2).after ?_⟩
        exact does_ibvPostRecv env _ p
    · exact hquiet (Does.refl _ _)
  · unfold psm2Refill psm2TryPost
    split_ifs
    · refine hquiet ((does_setPool s.dev _ (lcPoolGetNb s.dev.pool env).2).after ?_)
      unfold lcServerPostRecv
      cases (lcPoolGetNb s.dev.pool env).1 with
      | none =>
        dsimp only
        split_ifs
        · exact Does.of_eq (fun _ _ => rfl) rfl
        · exact Does.refl _ _
      | some p => exact Does.of_eq (fun _ _ => rfl) rfl
    · exact hquiet (Does.refl _ _)

end Lci.Server
