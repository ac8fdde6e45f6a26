/-
What the protocol functions leave alone: the constants of the device, the receive counter and the
deadlock flag, and of the receives posted before everything; a registration on PSM2 may add a
receive that has no packet and a key of 28 bits.
-/
import Lci.Server.Api

namespace Lci.Server

open Lci.Hash Lci.Proto

/-- The masked part of a tag: `LCI_PSM2_TAGSEL` keeps the low 28 bits of `tag2`. -/
def LCI_PSM2_TAGSEL : MqTag := ⟨0x0, 0x0, 0x0FFFFFFF⟩

/-- `d'` comes from `d` by protocol functions. -/
structure Frame (d d' : Dev) : Prop where
  backend : d'.backend = d.backend
  build : d'.build = d.build
  pageSize : d'.pageSize = d.pageSize
  maxInline : d'.maxInline = d.maxInline
  me : d'.me = d.me
  rep : d'.rep = d.rep
  heap : d'.heap = d.heap
  heapRkey : d'.heapRkey = d.heapRkey
  recvPosted : d'.recvPosted = d.recvPosted
  deadlock : d'.deadlock = d.deadlock
  kinds : ∀ e, (d'.eps e).ar = (d.eps e).ar ∧ (d'.eps e).ce = (d.eps e).ce
  posted : ∃ l, d'.posted = d.posted ++ l ∧ ∀ x ∈ l, x.ctx = none ∧ x.tag2 = x.tag2 &&& 0x0fffffff

namespace Frame

theorem refl (d : Dev) : Frame d d :=
  ⟨rfl, rfl, rfl, rfl, rfl, rfl, rfl, rfl, rfl, rfl, fun _ => ⟨rfl, rfl⟩, [], by simp, by simp⟩

theorem trans {d d' d'' : Dev} (h : Frame d d') (h' : Frame d' d'') : Frame d d'' := by
  obtain ⟨l, hl, hx⟩ := h.posted
  obtain ⟨l', hl', hx'⟩ := h'.posted
  refine ⟨h'.backend.trans h.backend, h'.build.trans h.build, h'.pageSize.trans h.pageSize,
    h'.maxInline.trans h.maxInline, h'.me.trans h.me, h'.rep.trans h.rep, h'.heap.trans h.heap,
    h'.heapRkey.trans h.heapRkey, h'.recvPosted.trans h.recvPosted, h'.deadlock.trans h.deadlock,
    fun e => ⟨(h'.kinds e).1.trans (h.kinds e).1, (h'.kinds e).2.trans (h.kinds e).2⟩,
    l ++ l', by rw [hl', hl, List.append_assoc], fun x hm => ?_⟩
  rcases List.mem_append.1 hm with hm | hm
  · exact hx x hm
  · exact hx' x hm

/-- An update that touches none of the fields of the frame. -/
theorem of_eq {d d' : Dev} (h : { d' with
    pool := d.pool, pk := d.pk, req := d.req, mem := d.mem, nextKey := d.nextKey, mrKeys := d.mrKeys, mrs := d.mrs,
    sends := d.sends, out := d.out, events := d.events } = d) : Frame d d' := by
  have := congrArg (fun x : Dev => (x.backend, x.build, x.pageSize, x.maxInline, x.me, x.rep, x.heap, x.heapRkey,
    x.recvPosted, x.deadlock, x.eps, x.posted)) h
  simp only [Prod.mk.injEq] at this
  obtain ⟨h1, h2, h3, h4, h5, h6, h7, h8, h9, h10, h11, h12⟩ := this
  exact ⟨h1, h2, h3, h4, h5, h6, h7, h8, h9, h10, fun e => by rw [h11]; exact ⟨rfl, rfl⟩, [], by simp [h12], by simp⟩

end Frame

theorem frame_setCtx (d : Dev) (p : PktId) (f : Context → Context) : Frame d (d.setCtx p f) := Frame.of_eq rfl

theorem frame_setData (d : Dev) (p : PktId) (x : PkData) : Frame d (d.setData p x) := Frame.of_eq rfl

theorem frame_setReq (d : Dev) (r : ReqPtr) (f : Req → Req) : Frame d (d.setReq r f) := by
  cases r <;> exact Frame.of_eq rfl

theorem frame_setReqPtr (d : Dev) (p : PktId) (r : ReqPtr) : Frame d (d.setReqPtr p r) := frame_setCtx d p _

theorem frame_event (d : Dev) (v : Event) : Frame d (d.event v) := Frame.of_eq rfl

theorem frame_setPool (d : Dev) (pool : Pool) : Frame d (d.setPool pool) := Frame.of_eq rfl

theorem frame_postSend (d : Dev) (p : PktId) (m : Msg) : Frame d (postSend d p m) := Frame.of_eq rfl

theorem frame_setEp (d : Dev) (e : Nat) (f : Ep → Ep) (har : (f (d.eps e)).ar = (d.eps e).ar)
    (hce : (f (d.eps e)).ce = (d.eps e).ce) : Frame d (d.setEp e f) := by
  refine ⟨rfl, rfl, rfl, rfl, rfl, rfl, rfl, rfl, rfl, rfl, fun x => ?_, [], by simp [Dev.setEp], by simp⟩
  by_cases hx : x = e
  · subst hx; simp [Dev.setEp, har, hce]
  · simp [Dev.setEp, hx]

theorem frame_setTbl (d : Dev) (e : Nat) (t : Table Ptr) : Frame d (d.setTbl e t) := frame_setEp d e _ rfl rfl

theorem frame_store {d d' : Dev} {b : Buf} {bytes : List Byte} (h : d.store b bytes = some d') : Frame d d' := by
  cases b with
  | null => cases h
  | mem a => cases h; exact Frame.of_eq rfl
  | pkt p => cases h; exact Frame.of_eq rfl

theorem frame_poolPut {env : Env} {d d' : Dev} {p : PktId} (h : poolPut env d p = some d') : Frame d d' := by
  obtain ⟨pool, -, rfl⟩ := Option.map_eq_some_iff.1 h
  exact frame_setPool d pool

theorem frame_pkFreeData {env : Env} {d d' : Dev} {p : PktId} (h : lciPkFreeData env d p = some d') : Frame d d' := by
  unfold lciPkFreeData at h
  split_ifs at h
  · obtain ⟨pool, -, rfl⟩ := Option.map_eq_some_iff.1 h
    exact frame_setPool d pool
  · exact frame_poolPut h

theorem frame_ceServe {env : Env} {d d' : Dev} {ep : Nat} {p : PktId} (h : ceServe env d ep p = some d') :
    Frame d d' := by
  unfold ceServe at h
  split_ifs at h
  · exact (frame_setReq _ _ _).trans (frame_pkFreeData h)
  · obtain ⟨cq, -, rfl⟩ := Option.map_eq_some_iff.1 h
    exact (frame_setReq _ _ _).trans (frame_setEp _ _ _ rfl rfl)
  · exact (frame_event _ _).trans (frame_pkFreeData h)
  · exact frame_pkFreeData h

theorem frame_ceDispatch {env : Env} {d d' : Dev} {ep : Nat} {p : PktId}
    (h : lciCeDispatch env d ep p = some d') : Frame d d' := by
  obtain ⟨d₁, h₁, rfl⟩ := Option.map_eq_some_iff.1 h
  have hd₁ : Frame d d₁ := (frame_event _ _).trans (frame_ceServe h₁)
  split_ifs
  · exact hd₁.trans (frame_setEp _ _ _ rfl rfl)
  · exact hd₁

/-! ## Rendezvous -/

theorem frame_ibvRmaReg (d : Dev) : Frame d (ibvRmaReg d).2 := Frame.of_eq rfl

theorem frame_psm2RmaReg (d : Dev) (buf : Buf) (size : Nat) : Frame d (psm2RmaReg d buf size).2 := by
  refine ⟨rfl, rfl, rfl, rfl, rfl, rfl, rfl, rfl, rfl, rfl, fun _ => ⟨rfl, rfl⟩, [_], rfl, ?_⟩
  intro x hx
  rw [List.mem_singleton] at hx
  subst hx
  refine ⟨rfl, ?_⟩
  show d.nextKey &&& 0x0fffffff = d.nextKey &&& 0x0fffffff &&& 0x0fffffff
  rw [BitVec.and_assoc, BitVec.and_self]

theorem frame_rmaReg (d : Dev) (buf : Buf) (size : Nat) : Frame d (lcServerRmaReg d buf size).2 := by
  unfold lcServerRmaReg
  split
  · exact frame_ibvRmaReg d
  · exact frame_psm2RmaReg d buf size

theorem frame_handleRtr (d : Dev) (ep : Nat) (p : PktId) : Frame d (lciHandleRtr d ep p) := by
  unfold lciHandleRtr lcServerRmaRtr
  have h : Frame d (lciPkInit d ep (-1) .long p) := frame_setCtx d p _
  dsimp only
  split_ifs
  · exact (h.trans (frame_ibvRmaReg _)).trans (frame_postSend _ _ _)
  · exact h.trans (frame_postSend _ _ _)

theorem frame_prepareRtr (d : Dev) (src : Buf) (size : Nat) (p : PktId) : Frame d (lciPrepareRtr d src size p) :=
  ((frame_rmaReg d src size).trans (frame_setCtx _ _ _)).trans (frame_setData _ _ _)

theorem frame_handleRts (d : Dev) (ep : Nat) (p : PktId) : Frame d (lciHandleRts d ep p) := by
  have h : Frame d (lciPkInit d ep (-1) .rtr p) := frame_setCtx d p _
  exact (h.trans (frame_prepareRtr _ _ _ _)).trans (frame_postSend _ _ _)

/-! ## Arrivals and completions -/

theorem frame_serveRecvImm {env : Env} {d d' : Dev} {ep : Nat} {p : PktId} {proto : BitVec 32}
    (h : lciServeRecvImm env d ep p proto = some d') : Frame d d' :=
  ((frame_setReq _ _ _).trans (frame_setReq _ _ _)).trans (frame_ceDispatch h)

theorem frame_dynData {env : Env} {d d' : Dev} {ep : Nat} {p : PktId} (h : dynData env d ep p = some d') :
    Frame d d' := by
  unfold dynData at h
  obtain ⟨d₁, h₁, h⟩ := Option.bind_eq_some_iff.1 h
  exact ((frame_store h₁).trans (frame_setReq _ _ _)).trans (frame_ceDispatch h)

theorem frame_serveRecvDyn {env : Env} {d d' : Dev} {ep : Nat} {p : PktId} {proto : BitVec 32}
    (h : lciServeRecvDyn env d ep p proto = some d') : Frame d d' := by
  have hm : Frame d (d.setMeta (d.reqPtr p) (protoGetMeta proto)) := frame_setReq _ _ _
  refine hm.trans ?_
  unfold lciServeRecvDyn at h
  dsimp only at h
  split at h
  · exact frame_dynData h
  · cases h
    exact (frame_setReq _ _ _).trans (frame_handleRts _ _ _)
  · cases h
    exact frame_handleRtr _ _ _
  · cases h
    exact Frame.refl _

theorem frame_explMatch {d d' : Dev} {ep : Nat} {p : PktId} {k : Dev → ReqId → Option Dev}
    (hk : ∀ d r d', k d r = some d' → Frame d d') (h : explMatch d ep p k = some d') : Frame d d' := by
  unfold explMatch at h
  dsimp only at h
  split_ifs at h
  · split at h
    · exact (frame_setTbl _ _ _).trans (hk _ _ _ h)
    · cases h
  · cases h
    exact frame_setTbl _ _ _

theorem frame_explData {env : Env} {d d' : Dev} {ep : Nat} {p : PktId} {r : ReqId}
    (h : explData env d ep p r = some d') : Frame d d' := by
  unfold explData at h
  obtain ⟨d₁, h₁, h⟩ := Option.bind_eq_some_iff.1 h
  exact (((frame_setReq _ _ _).trans (frame_store h₁)).trans (frame_setReqPtr _ _ _)).trans (frame_ceDispatch h)

theorem frame_explRts (d : Dev) (ep : Nat) (p : PktId) (r : ReqId) : Frame d (explRts d ep p r) :=
  (frame_setReqPtr _ _ _).trans (frame_handleRts _ _ _)

theorem frame_serveRecvExpl {env : Env} {d d' : Dev} {ep : Nat} {p : PktId} {proto : BitVec 32}
    (h : lciServeRecvExpl env d ep p proto = some d') : Frame d d' := by
  have hm : Frame d ((d.setMeta (d.reqPtr p) (protoGetMeta proto)).setProto p (protoOfBits (protoGetProto proto))) :=
    (frame_setReq _ _ _).trans (frame_setCtx _ _ _)
  refine hm.trans ?_
  unfold lciServeRecvExpl at h
  split at h
  · exact frame_explMatch (fun _ _ _ => frame_explData) h
  · refine frame_explMatch (fun d r d' hk => ?_) h
    cases hk
    exact frame_explRts _ _ _ _
  · cases h
    exact frame_handleRtr _ _ _
  · cases h
    exact Frame.refl _

theorem frame_serveRecv {env : Env} {d d' : Dev} {p : PktId} {proto : BitVec 32}
    (h : lciServeRecv env d p proto = some d') : Frame d d' := by
  unfold lciServeRecv lciServeRecvDispatch at h
  split_ifs at h
  · exact frame_serveRecvExpl h
  · exact frame_serveRecvDyn h
  · exact frame_serveRecvImm h
  · cases h
    exact Frame.refl d

theorem frame_serveRecvRdma {env : Env} {d d' : Dev} {p : PktId} {proto : BitVec 32}
    (h : lciServeRecvRdma env d p proto = some d') : Frame d d' :=
  (frame_setReq _ _ _).trans (frame_ceDispatch h)

theorem frame_decRef {env : Env} {d d' : Dev} {p : PktId} (h : decRef env d p = some d') : Frame d d' := by
  unfold decRef at h
  dsimp only at h
  split_ifs at h
  · exact (frame_setCtx _ _ _).trans (frame_ceDispatch h)
  · cases h
    exact frame_setCtx _ _ _

theorem frame_serveSend {env : Env} {d d' : Dev} {p : PktId} (h : lciServeSend env d p = some d') : Frame d d' := by
  unfold lciServeSend at h
  split at h
  · exact frame_decRef h
  · exact (frame_event _ _).trans (frame_poolPut h)
  · exact frame_poolPut h
  · exact frame_pkFreeData h

theorem frame_serveImm {env : Env} {d d' : Dev} {p : PktId} (h : lciServeImm env d p = some d') : Frame d d' := by
  have h₁ : Frame d (lcServerRmaDereg d (d.pk p).context.rmaMem) := Frame.of_eq rfl
  exact h₁.trans (frame_decRef h)

end Lci.Server
