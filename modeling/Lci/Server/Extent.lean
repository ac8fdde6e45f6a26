/-
How far a transfer reaches. A receive is posted with a length, and a message has one of its own: the copy of an eager
message and the registration and the write of a rendezvous are as long as the message, whatever was posted. The size of
a message is a `size_t` in the RTS and the RTR, and goes to the wire through the 32 bits of a scatter/gather element.
-/
import Lci.Server.Outcome

namespace Lci.Server

open Lci.Hash Lci.Proto

/-! ## Registrations -/

/-- A region given to `lc_server_rma_reg`. -/
structure Mr where
  addr : Buf
  length : Nat
deriving DecidableEq, Repr

/-- The region that `lci_handle_rts` registers: the buffer of the request, with the size in the RTS. -/
def rtsMr (d : Dev) (p : PktId) : Mr := ⟨(d.reqOf p).buffer, (d.pk p).data.view.size⟩

/-- The region lies in the first `n` bytes at `src`. -/
def Mr.Within (mr : Mr) (src n : Nat) : Prop := ∃ a, mr.addr = .mem a ∧ src ≤ a ∧ a + mr.length ≤ src + n

/-- On PSM2 the registration is a receive for the region, as far as 32 bits say how long it is. -/
theorem handleRts_posted {d : Dev} (hb : d.backend = .psm2) (ep : Nat) (p : PktId) :
    (lciHandleRts d ep p).posted = d.posted ++
      [⟨d.nextKey &&& 0x0fffffff, (rtsMr d p).addr, rmaLen (rtsMr d p).length, none⟩] := by
  have hb' : (lciPkInit d ep (-1) .rtr p).backend = .psm2 := hb
  show (lcServerRmaReg (lciPkInit d ep (-1) .rtr p) (d.reqOf p).buffer (d.pk p).data.view.size).2.posted = _
  unfold lcServerRmaReg
  rw [hb']
  rfl

/-- The RTR that goes out has the size of the RTS, and so has the packet. -/
theorem handleRts_out (d : Dev) (ep : Nat) (p : PktId) : ∃ data,
    (lciHandleRts d ep p).out =
      d.out ++ [.send (d.reqOf p).rhandle (makeProto (BitVec.ofNat 32 ep) .rtr 0) packetRtrSize data] ∧
    ((lciHandleRts d ep p).pk p).data = data ∧ data.view.size = (d.pk p).data.view.size ∧
    data.view.srcAddr = (d.pk p).data.view.srcAddr := by
  unfold lciHandleRts lcServerSendm lciPrepareRtr postSend
  have hF : ((lciPkInit d ep (-1) .rtr p).pk p).data = (d.pk p).data := by simp [lciPkInit, Dev.setCtx]
  have hFo : (lciPkInit d ep (-1) .rtr p).out = d.out := rfl
  generalize lciPkInit d ep (-1) .rtr p = F at hF hFo
  have hpk := (rmaReg_rest F (d.reqOf p).buffer (d.pk p).data.view.size).2.2.2.2.2
  have hout : (lcServerRmaReg F (d.reqOf p).buffer (d.pk p).data.view.size).2.out = F.out := by
    unfold lcServerRmaReg
    split <;> rfl
  generalize (lcServerRmaReg F (d.reqOf p).buffer (d.pk p).data.view.size).1 = rkey
  generalize (lcServerRmaReg F (d.reqOf p).buffer (d.pk p).data.view.size).2 = G at hpk hout
  refine ⟨_, ?_, rfl, ?_, ?_⟩
  · simp only [Dev.setData, Dev.setCtx, hout, hFo]
  · simp [Dev.setData, Dev.setCtx, PkData.view, hpk, hF]
  · simp [Dev.setData, Dev.setCtx, PkData.view, hpk, hF]

/-! ## The bytes of a receive -/

/-- Which of the two is in the matching table when the other one comes. -/
inductive Order
  | recvFirst
  | msgFirst
deriving DecidableEq

/-- A message and its receive up to their match. -/
def meet (o : Order) (env : Nat → Env) (d : Dev) (p : PktId) (x : Posting) (m : Incoming) : Option Dev :=
  match o with
  | .recvFirst => (postRecv (env 0) d x).bind fun d => arrive (env 1) d p x m
  | .msgFirst => (arrive (env 0) d p x m).bind fun d => postRecv (env 1) d x

/-- The whole transfer. -/
def transfer (o : Order) (env : Nat → Env) (rtrFirst : Bool) (d : Dev) (p : PktId) (x : Posting) (m : Incoming) :
    Option Dev :=
  (meet o env d p x m).bind fun d => finish (env 2) (env 3) rtrFirst d p m

theorem transfer_eq (o : Order) (env : Nat → Env) (rtrFirst : Bool) (d : Dev) (p : PktId) (x : Posting) (m : Incoming) :
    transfer o env rtrFirst d p x m =
      match o with
      | .recvFirst => recvFirst env rtrFirst d p x m
      | .msgFirst => msgFirst env rtrFirst d p x m := by
  cases o with
  | recvFirst => exact (recvFirst_eq ..).symm
  | msgFirst => exact (msgFirst_eq ..).symm

/-- Whatever the memory holds, a run changes none of it outside of the first `n` bytes at `src`. -/
def WritesWithin (run : Dev → Option Dev) (d : Dev) (src n : Nat) : Prop :=
  ∀ (mem : Nat → Byte) (d' : Dev), run { d with mem := mem } = some d' →
    ∀ a, ¬ (src ≤ a ∧ a < src + n) → d'.mem a = mem a

/-- The receive stays within the length it was posted with: the bytes written, and of a rendezvous the region
registered. -/
def Bounded (o : Order) (env : Nat → Env) (rtrFirst : Bool) (d : Dev) (p : PktId) (x : Posting) (m : Incoming) : Prop :=
  WritesWithin (fun d => transfer o env rtrFirst d p x m) d x.src x.size ∧
    ∀ rts bytes, m = .rendezvous rts bytes → ∀ d', meet o env d p x m = some d' → (rtsMr d' p).Within x.src x.size

/-- A transfer writes its message at the address of the receive, as far as the write goes, and nothing else. -/
theorem transfer_mem {d : Dev} {p : PktId} {x : Posting} {m : Incoming} (h : Ready d p x) (hp : x.call.Pairs m)
    (o : Order) (env : Nat → Env) (rtrFirst : Bool) :
    ∃ d', transfer o env rtrFirst d p x m = some d' ∧ d'.mem = writeMem d.mem x.src m.written := by
  rw [transfer_eq]
  cases m with
  | eager bytes =>
    obtain ⟨⟨D, he, hm, -⟩, ⟨D', he', hm', -⟩⟩ := eager_endsWell h hp env rtrFirst
    cases o with
    | recvFirst => exact ⟨D, he, hm⟩
    | msgFirst => exact ⟨D', he', hm'⟩
  | rendezvous rts bytes =>
    cases o with
    | recvFirst =>
      obtain ⟨D, he, hm, -⟩ := recvFirst_rendezvous h rts bytes env rtrFirst
      exact ⟨D, he, hm⟩
    | msgFirst =>
      obtain ⟨D, he, hm, -⟩ := msgFirst_rendezvous h hp env rtrFirst
      exact ⟨D, he, hm⟩

/-- The bytes written are those of the message. -/
theorem writesWithin_iff {d : Dev} {p : PktId} {x : Posting} {m : Incoming} (h : Ready d p x) (hp : x.call.Pairs m)
    (o : Order) (env : Nat → Env) (rtrFirst : Bool) :
    WritesWithin (fun d => transfer o env rtrFirst d p x m) d x.src x.size ↔ m.written.length ≤ x.size := by
  constructor
  · intro hw
    by_contra hn
    have hlt : x.size < m.written.length := by omega
    -- a memory that differs from the message at the first byte behind the receive
    obtain ⟨d', he, hm⟩ := transfer_mem (h.withMem fun _ => m.written[x.size] + 1) hp o env rtrFirst
    have hsame := hw _ d' he (x.src + x.size) (by omega)
    rw [hm, writeMem, if_pos (by omega), Nat.add_sub_cancel_left, List.getElem?_eq_getElem hlt,
      Option.getD_some] at hsame
    exact absurd hsame (by simp)
  · intro hle mem d' he a ha
    obtain ⟨d'', he', hm⟩ := transfer_mem (h.withMem mem) hp o env rtrFirst
    have heq : d'' = d' := Option.some.inj (he'.symm.trans he)
    rw [← heq, hm]
    exact writeMem_outside mem (by omega)

/-- What a packet with its receive registers. -/
theorem handleRts_rtsMr {d D : Dev} {p : PktId} {x : Posting} {size : Nat} (hev : D.events = d.events)
    (hroom : Room D p) (hbuf : (D.req x.req).buffer = .mem x.src) (hsize : (D.req x.req).size = size) {rts : Rdz}
    (hdata : (D.pk p).data = .rdz rts) :
    rtsMr (lciHandleRts (D.setReqPtr p (.user x.req)) x.ep p) p = ⟨.mem x.src, rts.size⟩ := by
  have hw := handleRts_waiting hev hroom hbuf hsize
  obtain ⟨data, -, h1, h2, -⟩ := handleRts_out (D.setReqPtr p (.user x.req)) x.ep p
  have hview : ((D.setReqPtr p (.user x.req)).pk p).data = .rdz rts := by
    simpa [Dev.setReqPtr, Dev.setCtx] using hdata
  rw [hview] at h2
  unfold rtsMr Dev.reqOf
  rw [hw.req, h1, h2]
  show (⟨(Dev.req _ x.req).buffer, _⟩ : Mr) = _
  rw [hw.buffer]
  rfl

/-- The region of a rendezvous is as long as the message, in both orders. -/
theorem meet_rtsMr {d : Dev} {p : PktId} {x : Posting} (h : Ready d p x) {rts : Rdz} {bytes : List Byte}
    (hp : x.call.Pairs (.rendezvous rts bytes)) (o : Order) (env : Nat → Env) :
    ∃ d', meet o env d p x (.rendezvous rts bytes) = some d' ∧ rtsMr d' p = ⟨.mem x.src, rts.size⟩ := by
  cases o with
  | recvFirst =>
    obtain ⟨D, hm, -, he⟩ := recvFirst_met h (.rendezvous rts bytes) env
    exact ⟨_, he, handleRts_rtsMr hm.events hm.room hm.buffer hm.size hm.data⟩
  | msgFirst =>
    obtain ⟨D, hm, -, he⟩ := msgFirst_met h (.rendezvous rts bytes) env
    rw [recvFound_rts hp hm] at he
    refine ⟨_, he, ?_⟩
    have hbuf : ((D.setSize (.user x.req) (D.pk p).data.view.size).req x.req).buffer = .mem x.src := by
      simp [Dev.setSize, Dev.setReq, hm.buffer]
    exact handleRts_rtsMr (D := D.setSize (.user x.req) (D.pk p).data.view.size) hm.events
      (hm.room.of_eq _ rfl rfl fun _ => rfl) hbuf rfl hm.data

/-- A receive stays within the length it was posted with exactly when the message is not longer. -/
theorem recv_bounded_iff {d : Dev} {p : PktId} {x : Posting} {m : Incoming} (h : Ready d p x) (hp : x.call.Pairs m)
    (hw : m.WellFormed) (o : Order) (env : Nat → Env) (rtrFirst : Bool) :
    Bounded o env rtrFirst d p x m ↔ m.bytes.length ≤ x.size := by
  constructor
  · intro hb
    cases m with
    | eager bytes => exact (writesWithin_iff h hp o env rtrFirst).1 hb.1
    | rendezvous rts bytes =>
      -- the region is as long as the message also where the write is not
      obtain ⟨d', he, hmr⟩ := meet_rtsMr h hp o env
      obtain ⟨a, ha, hlo, hhi⟩ := hb.2 rts bytes rfl d' he
      have hlen : rts.size = bytes.length := hw
      rw [hmr] at ha hhi
      cases ha
      rw [← show rts.size = (Incoming.rendezvous rts bytes).bytes.length from hlen]
      exact Nat.le_of_add_le_add_left hhi
  · intro hle
    refine ⟨(writesWithin_iff h hp o env rtrFirst).2 (m.written_le.trans hle), ?_⟩
    rintro rts bytes rfl d' he
    obtain ⟨d'', he', hmr⟩ := meet_rtsMr h hp o env
    have heq : d'' = d' := Option.some.inj (he'.symm.trans he)
    have hlen : rts.size = bytes.length := hw
    rw [← heq, hmr]
    exact ⟨x.src, rfl, le_rfl, by simp only [hlen]; exact Nat.add_le_add_left hle _⟩

/-- Three bytes by rendezvous, received by `lc_recvl` with room for ten. -/
theorem recv_bounded_iff_three_bytes : ∃ d, Ready d 0 ⟨.recvl, 64, 10, 1, 5, 0, 0⟩ ∧
    Bounded .msgFirst (fun _ => ⟨0, 0, 0⟩) true d 0 ⟨.recvl, 64, 10, 1, 5, 0, 0⟩
      (.rendezvous ⟨0, 0, 0, 3, .null, 0, 0, 0⟩ [1, 2, 3]) := by
  obtain ⟨d, -, h⟩ := ready_init ⟨.recvl, 64, 10, 1, 5, 0, 0⟩ (by decide) (by decide) (by decide)
  exact ⟨d, h, (recv_bounded_iff (m := .rendezvous ⟨0, 0, 0, 3, .null, 0, 0, 0⟩ [1, 2, 3]) h trivial rfl .msgFirst
    (fun _ => ⟨0, 0, 0⟩) true).2 (by decide)⟩

/-- Three bytes in one packet, received by `lc_recvm` with room for one: all three are written. -/
theorem recv_overrun : ∃ d, Ready d 0 ⟨.recvm, 64, 1, 1, 5, 0, 0⟩ ∧
    ¬ Bounded .recvFirst (fun _ => ⟨0, 0, 0⟩) true d 0 ⟨.recvm, 64, 1, 1, 5, 0, 0⟩ (.eager [1, 2, 3]) := by
  obtain ⟨d, -, h⟩ := ready_init ⟨.recvm, 64, 1, 1, 5, 0, 0⟩ (by decide) (by decide) (by decide)
  refine ⟨d, h, fun hb => ?_⟩
  have hle := (writesWithin_iff (m := .eager [1, 2, 3]) h trivial .recvFirst (fun _ => ⟨0, 0, 0⟩) true).1 hb.1
  exact absurd hle (by decide)

/-! ## The length of a write -/

/-- The scatter/gather element of the work request that carries a message on verbs: `.length = (unsigned) size`. -/
def sgeLength : Msg → BitVec 32
  | .send _ _ size _ => BitVec.ofNat 32 size
  | .put _ _ _ _ (.bytes b) _ => BitVec.ofNat 32 b.length
  | .put _ _ _ _ (.mem _ size) _ => BitVec.ofNat 32 size
  | .rma _ _ _ _ size _ => BitVec.ofNat 32 size

/-- A call has posted one more write, and it is `size` bytes long. -/
def PostsWrite (d d' : Dev) (size : Nat) : Prop := ∃ m, d'.out = d.out ++ [m] ∧ (sgeLength m).toNat = size

theorem ofNat32_eq_iff (size : Nat) : (BitVec.ofNat 32 size).toNat = size ↔ size < 2 ^ 32 := by
  rw [BitVec.toNat_ofNat]
  omega

theorem postsWrite_iff {d d' : Dev} {m : Msg} (h : d'.out = d.out ++ [m]) (size : Nat)
    (hm : sgeLength m = BitVec.ofNat 32 size) : PostsWrite d d' size ↔ size < 2 ^ 32 := by
  rw [← ofNat32_eq_iff, ← hm]
  constructor
  · rintro ⟨m', h', hlen⟩
    rw [h] at h'
    rw [List.append_cancel_left h' |> List.singleton_inj.1]
    exact hlen
  · intro hlen
    exact ⟨m, h, hlen⟩

/-- `lc_server_rma_rtr` posts a write of the size in the packet. -/
theorem handleRtr_out (d : Dev) (ep : Nat) (p : PktId) : ∃ dst src addr rkey sid,
    (lciHandleRtr d ep p).out = d.out ++ [.rma dst src addr rkey (d.pk p).data.view.size sid] := by
  unfold lciHandleRtr lcServerRmaRtr
  dsimp only
  split_ifs
  · exact ⟨_, _, _, _, _, rfl⟩
  · exact ⟨_, _, _, _, _, rfl⟩

theorem getOrRetn_out (env : Env) (d : Dev) : (poolGetOrRetn env d).2.out = d.out := by
  unfold poolGetOrRetn
  split_ifs <;> rfl

/-- `lc_server_putl` and `lc_server_putls` post a write of the size given. -/
theorem serverPutl_out (d : Dev) (rep : CInt) (buf base : Nat) (offset rkey : BitVec 32) (size : Nat)
    (metaVal : Option (BitVec 32)) (ctx : PktId) :
    (lcServerPutl d rep buf base offset rkey size metaVal ctx).out =
      d.out ++ [.put rep base offset rkey (.mem buf size) metaVal] := by
  unfold lcServerPutl
  dsimp only
  split_ifs <;> rfl

/-- `longPacket` sends nothing. -/
theorem longPacket_out {env : Env} {d d' : Dev} {ep cb ce xfer : Nat} {q : Option PktId}
    (h : longPacket env d ep cb ce xfer = (q, d')) : d'.out = d.out := by
  unfold longPacket at h
  have hout := getOrRetn_out env d
  generalize poolGetOrRetn env d = r at h hout
  obtain ⟨o, D⟩ := r
  cases o with
  | none =>
    cases h
    exact hout
  | some p =>
    cases h
    exact hout

/-- The write of `lc_putl`. -/
theorem lcPutl_postsWrite_iff {env : Env} {d d' : Dev} {src size : Nat} {rank : CInt} {addr ep cb ce xfer : Nat}
    (h : lcPutl env d src size rank addr ep cb ce xfer = (.ok, d')) : PostsWrite d d' size ↔ size < 2 ^ 32 := by
  unfold lcPutl at h
  rcases hl : longPacket env d ep cb ce xfer with ⟨q, D⟩
  rw [hl] at h
  cases q with
  | none => cases h
  | some p =>
    cases h
    have hout := serverPutl_out D rank src (D.rep rank).base (putOffset D rank addr) (D.rep rank).rkey size none p
    rw [longPacket_out hl] at hout
    exact postsWrite_iff hout size rfl

/-- The write of `lc_putls`. -/
theorem lcPutls_postsWrite_iff {env : Env} {d d' : Dev} {src size : Nat} {rank metaVal : CInt}
    {addr ep cb ce xfer : Nat} (h : lcPutls env d src size rank addr metaVal ep cb ce xfer = (.ok, d')) :
    PostsWrite d d' size ↔ size < 2 ^ 32 := by
  unfold lcPutls at h
  rcases hl : longPacket env d ep cb ce xfer with ⟨q, D⟩
  rw [hl] at h
  cases q with
  | none => cases h
  | some p =>
    cases h
    have hout := serverPutl_out D rank src (D.rep rank).base (putOffset D rank addr) (D.rep rank).rkey size
      (some (makeProto (BitVec.ofNat 32 ep) .long metaVal)) p
    rw [longPacket_out hl] at hout
    exact postsWrite_iff hout size rfl

/-! ## The size of a rendezvous -/

/-- The RTS of `lc_sendl` says its size. -/
theorem lcSendl_out {env : Env} {d d' : Dev} {src size : Nat} {rank tag : CInt} {ep cb ce xfer : Nat}
    (h : lcSendl env d src size rank tag ep cb ce xfer = (.ok, d')) : ∃ data,
      d'.out = d.out ++ [.send rank (makeProto (BitVec.ofNat 32 ep) .rts tag) packetRtsSize data] ∧
        data.view.size = size := by
  unfold lcSendl at h
  have hout := getOrRetn_out env d
  generalize poolGetOrRetn env d = r at h hout
  obtain ⟨o, D⟩ := r
  cases o with
  | none => cases h
  | some p =>
    cases h
    refine ⟨_, congrArg (· ++ _) hout, ?_⟩
    simp [lciPrepareRts, Dev.setData, PkData.view]

/-- A rendezvous of a message of `size` bytes: `lc_sendl` on the sender, its RTS in packet `p` of the receiver when
`lci_handle_rts` is called on it, and the RTR in packet `q` of the sender when `lci_handle_rtr` is. -/
structure Rendezvous (size : Nat) where
  (env : Env) (d d₁ : Dev) (src : Nat) (rank tag : CInt) (ep cb ce xfer : Nat)
  sendl : lcSendl env d src size rank tag ep cb ce xfer = (.ok, d₁)
  (proto : BitVec 32) (len : Nat) (rts : PkData)
  rtsOut : d₁.out = d.out ++ [.send rank proto len rts]
  (receiver : Dev) (epr : Nat) (p : PktId)
  rtsIn : (receiver.pk p).data = rts
  (dst' : CInt) (proto' : BitVec 32) (len' : Nat) (rtr : PkData)
  rtrOut : (lciHandleRts receiver epr p).out = receiver.out ++ [.send dst' proto' len' rtr]
  (sender : Dev) (q : PktId)
  rtrIn : (sender.pk q).data = rtr

/-- The write posted, the region registered for it, and the size of a receive that has found the RTS, are all of the
size requested. -/
structure Rendezvous.Whole {size : Nat} (t : Rendezvous size) : Prop where
  write : PostsWrite t.sender (lciHandleRtr t.sender t.ep t.q) size
  region : (rtsMr t.receiver t.p).length = size
  found : ∀ r, ((recvRts t.receiver t.epr r t.p).req r).size = size

/-- Both messages carry the size as it is. -/
theorem Rendezvous.sizes {size : Nat} (t : Rendezvous size) :
    (t.receiver.pk t.p).data.view.size = size ∧ (t.sender.pk t.q).data.view.size = size := by
  obtain ⟨data, h1, h2⟩ := lcSendl_out t.sendl
  obtain ⟨data', h3, -, h4, -⟩ := handleRts_out t.receiver t.epr t.p
  have hrts : t.rts = data := by
    have := List.append_cancel_left (t.rtsOut.symm.trans h1)
    simp only [List.cons.injEq, Msg.send.injEq] at this
    exact this.1.2.2.2
  have hrtr : t.rtr = data' := by
    have := List.append_cancel_left (t.rtrOut.symm.trans h3)
    simp only [List.cons.injEq, Msg.send.injEq] at this
    exact this.1.2.2.2
  have hsize : (t.receiver.pk t.p).data.view.size = size := by rw [t.rtsIn, hrts, h2]
  exact ⟨hsize, by rw [t.rtrIn, hrtr, h4, hsize]⟩

/-- A receive that has found an RTS reports its size. -/
theorem recvRts_size (d : Dev) (ep : Nat) (r : ReqId) (p : PktId) :
    ((recvRts d ep r p).req r).size = (d.pk p).data.view.size := by
  unfold recvRts
  have hreq : ∀ D : Dev, (lciHandleRts D ep p).req = D.req := fun D =>
    (rmaReg_rest (lciPkInit D ep (-1) .rtr p) (D.reqOf p).buffer (D.pk p).data.view.size).2.1
  rw [hreq]
  simp [Dev.setReqPtr, Dev.setCtx, Dev.setSize, Dev.setReq]

/-- A rendezvous moves the whole message exactly when its size fits 32 bits. -/
theorem Rendezvous.whole_iff {size : Nat} (t : Rendezvous size) : t.Whole ↔ size < 2 ^ 32 := by
  obtain ⟨h1, h2⟩ := t.sizes
  obtain ⟨dst, src, addr, rkey, sid, hout⟩ := handleRtr_out t.sender t.ep t.q
  rw [h2] at hout
  have hwrite := postsWrite_iff hout size rfl
  constructor
  · intro hw
    exact hwrite.1 hw.write
  · intro hlt
    exact ⟨hwrite.2 hlt, h1, fun r => (recvRts_size t.receiver t.epr r t.p).trans h1⟩

/-- On verbs, the write of a long transfer is as long as the transfer exactly when its size fits 32 bits; the region
registered for it and the size reported are always that of the transfer. -/
theorem long_transfers_whole_iff (size : Nat) :
    (∀ t : Rendezvous size, (t.Whole ↔ size < 2 ^ 32) ∧ (rtsMr t.receiver t.p).length = size ∧
      ∀ r, ((recvRts t.receiver t.epr r t.p).req r).size = size) ∧
    (∀ (env : Env) (d d' : Dev) (src : Nat) (rank : CInt) (addr ep cb ce xfer : Nat),
      lcPutl env d src size rank addr ep cb ce xfer = (.ok, d') → (PostsWrite d d' size ↔ size < 2 ^ 32)) ∧
    ∀ (env : Env) (d d' : Dev) (src : Nat) (rank metaVal : CInt) (addr ep cb ce xfer : Nat),
      lcPutls env d src size rank addr metaVal ep cb ce xfer = (.ok, d') → (PostsWrite d d' size ↔ size < 2 ^ 32) := by
  refine ⟨fun t => ⟨t.whole_iff, t.sizes.1, fun r => ?_⟩, ?_, ?_⟩
  · exact (recvRts_size t.receiver t.epr r t.p).trans t.sizes.1
  · intro env d d' src rank addr ep cb ce xfer h
    exact lcPutl_postsWrite_iff h
  · intro env d d' src rank metaVal addr ep cb ce xfer h
    exact lcPutls_postsWrite_iff h

/-- A verbs device with one packet in its pool. -/
def onePacket : Dev := (rawDev .ibv 4096 .exp .sync).setPool ⟨fun _ => some 0, [[0]]⟩

/-- There are rendezvous of every size. -/
theorem exists_rendezvous (size : Nat) : Nonempty (Rendezvous size) := by
  have hs : ∃ d₁, lcSendl ⟨0, 0, 0⟩ onePacket 64 size 1 5 0 0 0 0 = (.ok, d₁) := ⟨_, rfl⟩
  obtain ⟨d₁, hs⟩ := hs
  obtain ⟨rts, h1, -⟩ := lcSendl_out hs
  obtain ⟨rtr, h2, -⟩ := handleRts_out (onePacket.setData 0 rts) 0 0
  exact ⟨⟨_, _, d₁, 64, 1, 5, 0, 0, 0, 0, hs, _, _, rts, h1, onePacket.setData 0 rts, 0, 0, by simp [Dev.setData],
    _, _, _, rtr, h2, onePacket.setData 0 rtr, 0, by simp [Dev.setData]⟩⟩

/-- A long put, and a rendezvous, of 2^32 bytes write none of them. -/
theorem long_transfer_cut : (∃ d', lcPutl ⟨0, 0, 0⟩ onePacket 64 (2 ^ 32) 1 4096 0 0 0 0 = (.ok, d') ∧
      PostsWrite onePacket d' 0 ∧ ¬ PostsWrite onePacket d' (2 ^ 32)) ∧
    ∃ t : Rendezvous (2 ^ 32), ¬ t.Whole := by
  constructor
  · have hput : lcPutl ⟨0, 0, 0⟩ onePacket 64 (2 ^ 32) 1 4096 0 0 0 0 =
        (.ok, (lcPutl ⟨0, 0, 0⟩ onePacket 64 (2 ^ 32) 1 4096 0 0 0 0).2) := rfl
    refine ⟨_, hput, ⟨_, rfl, by decide⟩, fun h => ?_⟩
    exact absurd ((lcPutl_postsWrite_iff hput).1 h) (by decide)
  · obtain ⟨t⟩ := exists_rendezvous (2 ^ 32)
    exact ⟨t, fun h => absurd (t.whole_iff.1 h) (by decide)⟩

end Lci.Server
