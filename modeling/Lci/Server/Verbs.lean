/-
The verbs backend of `src/include/server/server_ibv.h`: the progress call over the completions that
`ibv_poll_cq` returns, and the two meanings of the immediate word of a write. A signalled put carries
`MAKE_PROTO(gid, LC_PROTO_LONG, meta)`, the write of a rendezvous `comm_id | IBV_IMM_RTR`; the receiver
tells them apart by bit 31, which is also the top bit of `meta`.
-/
import Lci.Server.Api

namespace Lci.Server

open Lci.Hash Lci.Proto

/-- `IBV_IMM_RTR`. -/
def IBV_IMM_RTR : BitVec 32 := 1 <<< 31

/-- `MAX_CQ`. -/
def MAX_CQ : Nat := 16

/-- The receive opcodes that the server tells apart. -/
inductive WcOpcode
  | recv
  | recvRdmaWithImm
deriving DecidableEq, Repr

/-- `struct ibv_wc` of a receive: `rank` is what `qp2rank` gives for its queue pair, and `data` what the
transport has put in the data area of the packet. -/
structure Wc where
  wrId : PktId
  opcode : WcOpcode
  rank : CInt
  byteLen : Nat
  immData : BitVec 32
  data : PkData
deriving DecidableEq, Repr

/-- `ibv_poll_cq` returns a receive: its work request leaves the shared receive queue. -/
def ibvTakeRecv (d : Dev) (wc : Wc) : Dev :=
  { d with posted := d.posted.eraseP fun x => x.ctx = some wc.wrId }

/-- The body of the receive loop of `lc_server_progress`. -/
def ibvServeRecv (env : Env) (d : Dev) (wc : Wc) : Option Dev :=
  let d := { d with recvPosted := d.recvPosted - 1 }
  let p := wc.wrId
  if wc.opcode ≠ .recvRdmaWithImm then
    let d := d.setData p wc.data
    let d := d.setReqPtr p (.own p)
    let d := d.setReq (.own p) fun q => { q with rank := wc.rank, rhandle := wc.rank, size := wc.byteLen }
    lciServeRecv env d p wc.immData
  else if wc.immData &&& IBV_IMM_RTR ≠ 0 then do
    let q ← pktAt d.pageSize (wc.immData ^^^ IBV_IMM_RTR).toNat
    let d ← lciServeImm env d q
    poolPut env d p
  else lciServeRecvRdma env (d.setReqPtr p (.own p)) p wc.immData

/-- The receive loop. -/
def ibvServeRecvs (env : Env) : Dev → List Wc → Option Dev
  | d, [] => some d
  | d, wc :: wcs => do
    let d ← ibvServeRecv env (ibvTakeRecv d wc) wc
    ibvServeRecvs env d wcs

/-- The send loop; a short send has no context. -/
def ibvServeSends (env : Env) : Dev → List (Option PktId) → Option Dev
  | d, [] => some d
  | d, none :: wcs => ibvServeSends env d wcs
  | d, some p :: wcs => do
    let d ← lciServeSend env { d with sends := d.sends.erase p } p
    ibvServeSends env d wcs

/-- `ibv_post_recv_`. -/
def ibvPostRecv (env : Env) (d : Dev) (p : Option PktId) : Dev :=
  match p with
  | none =>
    if d.recvPosted < (LC_SERVER_MAX_RCVS : Int) / 2 ∧ ¬ d.deadlock then { d with deadlock := true } else d
  | some p =>
    let pool := lcPoolGetLocal d.pool env.wid
    let d := (d.setPool pool.2).setCtx p fun c => { c with poolid := int8 pool.1 }
    { d with
      posted := d.posted ++ [⟨0, .pkt p, POST_MSG_SIZE, some p⟩]
      recvPosted := d.recvPosted + 1
      deadlock := if d.recvPosted + 1 = (LC_SERVER_MAX_RCVS : Int) ∧ d.deadlock then false else d.deadlock }

/-- The end of `lc_server_progress`: one more receive, if a packet can be had. -/
def ibvRefill (env : Env) (d : Dev) : Dev :=
  if d.recvPosted < (LC_SERVER_MAX_RCVS : Int) then
    ibvPostRecv env (d.setPool (lcPoolGetNb d.pool env).2) (lcPoolGetNb d.pool env).1
  else d

/-- `lc_server_progress` of the verbs backend, for the completions that the two polls return. -/
def ibvProgress (env : Env) (d : Dev) (recvs : List Wc) (sends : List (Option PktId)) : Option Dev := do
  let d ← ibvServeRecvs env d recvs
  let d ← ibvServeSends env d sends
  pure (ibvRefill env d)

/-! ## The immediate word -/

/-- A device while a receive completion of packet `p` is served as a signalled put. -/
def signalling (d : Dev) (p : PktId) (metaVal : CInt) : Dev :=
  (({ d with recvPosted := d.recvPosted - 1 } : Dev).setReqPtr p (.own p)).setMeta (.own p) metaVal

/-- The two immediates are served each in its own way: `MAKE_PROTO(gid, LC_PROTO_LONG, meta)` as a
completion on endpoint `gid` of the packet the receive was posted with, its request's meta being `meta`,
and `comm_id | IBV_IMM_RTR` by `lci_serve_imm` on the packet at offset `comm_id` and on no other. -/
structure ImmExact (pageSize : Nat) (gid metaVal : CInt) (q : PktId) : Prop where
  signal : ∀ env d wc, wc.opcode = .recvRdmaWithImm → wc.immData = makeProto gid .long metaVal →
    d.pageSize = pageSize →
      ibvServeRecv env d wc = lciCeDispatch env (signalling d wc.wrId metaVal) gid.toNat wc.wrId
  rtr : ∀ env d wc, wc.opcode = .recvRdmaWithImm →
    wc.immData = BitVec.ofNat 32 (pktOffset pageSize q) ||| IBV_IMM_RTR → d.pageSize = pageSize →
      ibvServeRecv env d wc = (lciServeImm env { d with recvPosted := d.recvPosted - 1 } q).bind
        fun d => poolPut env d wc.wrId
  apart : makeProto gid .long metaVal ≠ BitVec.ofNat 32 (pktOffset pageSize q) ||| IBV_IMM_RTR

theorem rtr_eq_twoPow : IBV_IMM_RTR = BitVec.twoPow 32 31 := by decide

/-- The test of the receive loop looks at bit 31 alone. -/
theorem and_rtr_ne_zero_iff (w : BitVec 32) : w &&& IBV_IMM_RTR ≠ 0 ↔ 2 ^ 31 ≤ w.toNat := by
  have hm : w.getLsbD 31 = decide (2 ^ 31 ≤ w.toNat) := by
    have := BitVec.msb_eq_getLsbD_last w
    rw [← this, BitVec.msb_eq_decide]
  rw [rtr_eq_twoPow, BitVec.and_twoPow, hm]
  by_cases h : 2 ^ 31 ≤ w.toNat
  · simp only [h, decide_true, if_true, iff_true]
    decide
  · simp only [h, decide_false, Bool.false_eq_true, if_false, iff_false, ne_eq]
    exact fun hne => hne rfl

theorem or_rtr_toNat {c : BitVec 32} (hc : c.toNat < 2 ^ 31) : (c ||| IBV_IMM_RTR).toNat = 2 ^ 31 + c.toNat := by
  have hr : IBV_IMM_RTR.toNat = 2 ^ 31 * 1 := by decide
  rw [BitVec.toNat_or, hr, Nat.or_comm, ← Nat.two_pow_add_eq_or_of_lt hc, Nat.mul_one]

/-- The receiver takes off what the sender put on. -/
theorem or_rtr_xor_rtr {c : BitVec 32} (hc : c.toNat < 2 ^ 31) : (c ||| IBV_IMM_RTR) ^^^ IBV_IMM_RTR = c := by
  have hm : c.getLsbD 31 = false := by
    rw [← BitVec.msb_eq_getLsbD_last c]
    exact BitVec.msb_eq_false_iff_two_mul_lt.2 (by omega)
  apply BitVec.eq_of_getLsbD_eq
  intro i hi
  rw [BitVec.getLsbD_xor, BitVec.getLsbD_or, rtr_eq_twoPow, BitVec.getLsbD_twoPow]
  by_cases h31 : 31 = i
  · subst h31; rw [hm]; simp
  · simp [h31]

theorem pktOffset_lt {pageSize q : Nat} (hps : pageSize < 2 ^ 30) (hq : q < LC_SERVER_NUM_PKTS) :
    pktOffset pageSize q < 2 ^ 31 := by
  unfold pktOffset LC_PACKET_SIZE
  unfold LC_SERVER_NUM_PKTS at hq
  omega

/-- Packets lie at multiples of four, and the word of a signalled put is three more than one. -/
theorem pktAt_of_mod {pageSize off : Nat} (h4 : 4 ∣ pageSize) (hps : packetContextSize ≤ pageSize)
    (hoff : off % 4 = 3) : pktAt pageSize off = none := by
  unfold pktAt
  rw [List.find?_eq_none]
  intro p _ hp
  have hp : pktOffset pageSize p = off := by simpa using hp
  unfold packetContextSize at hps
  unfold pktOffset LC_PACKET_SIZE packetContextSize at hp
  omega

/-- The word of a signalled put has bit 31 exactly when its meta has bit 15. -/
theorem signal_rtr_iff {gid metaVal : CInt} (hg : gid.toNat < 2 ^ 14) (hm : metaVal.toNat < 2 ^ 16) :
    makeProto gid .long metaVal &&& IBV_IMM_RTR ≠ 0 ↔ 2 ^ 15 ≤ metaVal.toNat := by
  rw [and_rtr_ne_zero_iff, makeProto_toNat hg]
  have := LcProto.long.bits_lt
  omega

theorem signal_served {gid metaVal : CInt} (hg : gid.toNat < 2 ^ 14) (hm : metaVal.toNat < 2 ^ 15)
    (env : Env) (d : Dev) {wc : Wc} (ho : wc.opcode = .recvRdmaWithImm)
    (hi : wc.immData = makeProto gid .long metaVal) :
    ibvServeRecv env d wc = lciCeDispatch env (signalling d wc.wrId metaVal) gid.toNat wc.wrId := by
  have hlow : ¬ wc.immData &&& IBV_IMM_RTR ≠ 0 := by
    rw [hi, signal_rtr_iff hg (by omega)]; omega
  have hmeta : protoGetMeta wc.immData = metaVal := by
    apply BitVec.eq_of_toNat_eq
    rw [hi, protoGetMeta_toNat hg, Nat.mod_eq_of_lt (by omega)]
  unfold ibvServeRecv
  rw [if_neg (by simp [ho]), if_neg hlow]
  unfold lciServeRecvRdma signalling
  rw [hmeta, hi, protoGetRgid_makeProto hg]
  simp [Dev.reqPtr, Dev.setReqPtr, Dev.setCtx]

theorem rtr_served {pageSize q : Nat} (hps : pageSize < 2 ^ 30) (hq : q < LC_SERVER_NUM_PKTS)
    (env : Env) {d : Dev} {wc : Wc} (ho : wc.opcode = .recvRdmaWithImm)
    (hi : wc.immData = BitVec.ofNat 32 (pktOffset pageSize q) ||| IBV_IMM_RTR) (hd : d.pageSize = pageSize) :
    ibvServeRecv env d wc = (lciServeImm env { d with recvPosted := d.recvPosted - 1 } q).bind
      fun d => poolPut env d wc.wrId := by
  have hlt := pktOffset_lt hps hq
  have hc : (BitVec.ofNat 32 (pktOffset pageSize q)).toNat = pktOffset pageSize q := by
    rw [BitVec.toNat_ofNat, Nat.mod_eq_of_lt (by omega)]
  have hrtr : wc.immData &&& IBV_IMM_RTR ≠ 0 := by
    rw [and_rtr_ne_zero_iff, hi, or_rtr_toNat (by omega)]; omega
  unfold ibvServeRecv
  rw [if_neg (by simp [ho]), if_pos hrtr]
  have hat : pktAt d.pageSize (wc.immData ^^^ IBV_IMM_RTR).toNat = some q := by
    rw [hi, or_rtr_xor_rtr (by omega), hc, hd, pktAt_pktOffset hq]
  simp only [hat, Option.bind_eq_bind, Option.bind_some]

/-- A signalled put whose meta has bit 15 is taken for the immediate of a rendezvous, with an offset at
which there is no packet. -/
theorem signal_lost {gid metaVal : CInt} (hg : gid.toNat < 2 ^ 14) (hm : metaVal.toNat < 2 ^ 16)
    (hhi : 2 ^ 15 ≤ metaVal.toNat) (env : Env) (d : Dev) (h4 : 4 ∣ d.pageSize)
    (hps : packetContextSize ≤ d.pageSize) (wc : Wc) (ho : wc.opcode = .recvRdmaWithImm)
    (hi : wc.immData = makeProto gid .long metaVal) : ibvServeRecv env d wc = none := by
  have hrtr : wc.immData &&& IBV_IMM_RTR ≠ 0 := by
    rw [hi, signal_rtr_iff hg hm]; exact hhi
  have hmod : (wc.immData ^^^ IBV_IMM_RTR).toNat % 4 = 3 := by
    have h1 : (wc.immData ^^^ IBV_IMM_RTR).toNat % 2 ^ 2 = wc.immData.toNat % 2 ^ 2 := by
      rw [BitVec.toNat_xor, Nat.xor_mod_two_pow, show IBV_IMM_RTR.toNat % 2 ^ 2 = 0 from by decide, Nat.xor_zero]
    have h2 : wc.immData.toNat % 4 = 3 := by
      rw [hi, makeProto_toNat hg, show LcProto.long.bits.toNat = 3 from rfl]; omega
    rw [← h2]
    exact h1
  unfold ibvServeRecv
  rw [if_neg (by simp [ho]), if_pos hrtr, pktAt_of_mod h4 hps hmod]
  rfl

/-- A device on which every completion returns its packet to the pool. -/
theorem dispatch_null_some (env : Env) (d : Dev) (ep : Nat) (p : PktId) {dq : List PktId}
    (hce : (d.eps ep).ce = .null) (hl : d.pool.lpools = [dq]) (hlen : dq.length + 1 < MAX_SIZE)
    (hp : (d.pk p).context.poolid = 0) : lciCeDispatch env d ep p ≠ none := by
  simp [lciCeDispatch, ceServe, Dev.event, hce, lciPkFreeData, hp, hl, lcPoolPutTo, dqPushTop, hlen]

/-- A signalled put whose meta has bit 15 is not served as one: on a device of null endpoints the
completion it should raise exists. -/
theorem ImmExact.meta_lt {pageSize : Nat} (h4 : 4 ∣ pageSize) (hlo : packetContextSize ≤ pageSize)
    {gid metaVal : CInt} (hg : gid.toNat < 2 ^ 14) (hm : metaVal.toNat < 2 ^ 16) {q : PktId}
    (h : ImmExact pageSize gid metaVal q) : metaVal.toNat < 2 ^ 15 := by
  by_contra hge
  let env : Env := ⟨0, 0, 0⟩
  let wc : Wc := ⟨0, .recvRdmaWithImm, 0, 0, makeProto gid .long metaVal, .buffer []⟩
  obtain ⟨d, -, hps, hce, hl, hpk⟩ : ∃ d, lciDevInit 0 (rawDev .ibv pageSize .imm .null) = some d ∧
      d.pageSize = pageSize ∧ (∀ e, (d.eps e).ce = .null) ∧
      d.pool.lpools = [List.range LC_SERVER_NUM_PKTS] ∧ (d.pk 0).context.poolid = 0 :=
    ⟨_, lciDevInit_eq _ _, rfl, fun _ => rfl, rfl, rfl⟩
  have hnone := signal_lost hg hm (by omega) env d (hps ▸ h4) (hps ▸ hlo) wc rfl rfl
  have hsome := dispatch_null_some env (signalling d 0 metaVal) gid.toNat 0 (hce _) hl
    (by simp [LC_SERVER_NUM_PKTS, MAX_SIZE]) hpk
  exact hsome ((h.signal env d wc rfl rfl hps).symm.trans hnone)

/-- The immediates of signalled puts and of rendezvous writes are told apart exactly for the metas below
2^15. -/
theorem imm_demux_iff {pageSize : Nat} (h4 : 4 ∣ pageSize) (hlo : packetContextSize ≤ pageSize)
    (hhi : pageSize < 2 ^ 30) {gid metaVal : CInt} (hg : gid.toNat < 2 ^ 14) (hm : metaVal.toNat < 2 ^ 16)
    {q : PktId} (hq : q < LC_SERVER_NUM_PKTS) :
    ImmExact pageSize gid metaVal q ↔ metaVal.toNat < 2 ^ 15 := by
  refine ⟨fun h => h.meta_lt h4 hlo hg hm, fun hlt => ?_⟩
  refine ⟨fun env d wc ho hi _ => signal_served hg hlt env d ho hi,
    fun env d wc ho hi hd => rtr_served hhi hq env ho hi hd, fun heq => ?_⟩
  have h1 := (signal_rtr_iff hg hm).not.2 (by omega)
  have h2 := pktOffset_lt hhi hq
  have h3 : (BitVec.ofNat 32 (pktOffset pageSize q)).toNat = pktOffset pageSize q := by
    rw [BitVec.toNat_ofNat, Nat.mod_eq_of_lt (by omega)]
  rw [heq, and_rtr_ne_zero_iff, or_rtr_toNat (by omega)] at h1
  omega

/-- Endpoint 3 with meta 7, and packet 5. -/
theorem imm_demux_iff_meta_seven :
    4 ∣ 4096 ∧ packetContextSize ≤ 4096 ∧ 4096 < 2 ^ 30 ∧ (3 : CInt).toNat < 2 ^ 14 ∧ (7 : CInt).toNat < 2 ^ 16 ∧
      5 < LC_SERVER_NUM_PKTS ∧ ImmExact 4096 3 7 5 :=
  ⟨by decide, by decide, by decide, by decide, by decide, by decide,
    (imm_demux_iff (by decide) (by decide) (by decide) (by decide) (by decide) (by decide)).2 (by decide)⟩

/-- Meta 32768 on endpoint 0: bit 31 of the word is set, and the completion is served by `lci_serve_imm`
on what lies at offset 3 of the heap. -/
theorem signalled_put_taken_for_rtr :
    makeProto 0 .long 32768 &&& IBV_IMM_RTR ≠ 0 ∧ (makeProto 0 .long 32768 ^^^ IBV_IMM_RTR).toNat = 3 ∧
      ¬ ImmExact 4096 0 32768 0 :=
  ⟨by decide, by decide, fun h => absurd (h.meta_lt (by decide) (by decide) (by decide) (by decide)) (by decide)⟩

end Lci.Server
