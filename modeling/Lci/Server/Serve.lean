/-
The pool of `include/lc/pool.h`, the completion queue of `src/include/cq.h` and the protocol
functions of `src/include/proto.h`, as they act on a device. Each call runs to its end on the state
it finds; `env` is what the call reads outside of the device.
-/
import Lci.Server.State

namespace Lci.Server

open Lci.Hash Lci.Proto

/-! ## Deques and pools -/

/-- `dq_push_top`: the ring is full when `top` meets `bot`, and then the program exits. -/
def dqPushTop (dq : List PktId) (p : PktId) : Option (List PktId) :=
  if dq.length + 1 < MAX_SIZE then some (dq ++ [p]) else none

/-- `dq_pop_top`. -/
def dqPopTop (dq : List PktId) : Option PktId × List PktId := (dq.getLast?, dq.dropLast)

/-- `dq_pop_bot`. -/
def dqPopBot (dq : List PktId) : Option PktId × List PktId := (dq.head?, dq.tail)

/-- `lc_pool_get_local`: the index of the worker's deque, which is made at its first call. -/
def lcPoolGetLocal (pool : Pool) (wid : Nat) : Nat × Pool :=
  match pool.tls wid with
  | some pid => (pid, pool)
  | none => (pool.lpools.length,
      { tls := Function.update pool.tls wid (some pool.lpools.length), lpools := pool.lpools ++ [[]] })

/-- `lc_pool_put_to`. -/
def lcPoolPutTo (pool : Pool) (p : PktId) (pid : Nat) : Option Pool := do
  let dq ← pool.lpools[pid]?
  let dq ← dqPushTop dq p
  pure { pool with lpools := pool.lpools.set pid dq }

/-- `lc_pool_put`. -/
def lcPoolPut (pool : Pool) (wid : Nat) (p : PktId) : Option Pool :=
  let (pid, pool) := lcPoolGetLocal pool wid
  lcPoolPutTo pool p pid

/-- `lc_pool_get_nb`: the top of the worker's deque, else the bottom of a deque chosen at random. -/
def lcPoolGetNb (pool : Pool) (env : Env) : Option PktId × Pool :=
  let (pid, pool) := lcPoolGetLocal pool env.wid
  match dqPopTop (pool.lpools.getD pid []) with
  | (some p, dq) => (some p, { pool with lpools := pool.lpools.set pid dq })
  | (none, _) =>
    let steal := env.rand % pool.lpools.length
    let (p, dq) := dqPopBot (pool.lpools.getD steal [])
    (p, { pool with lpools := pool.lpools.set steal dq })

/-- The value of a number in an `int8_t`. -/
def int8 (n : Nat) : Int := (BitVec.ofNat 8 n).toInt

theorem int8_eq (n : Nat) :
    int8 n = if n % 256 < 128 then ((n % 256 : Nat) : Int) else ((n % 256 : Nat) : Int) - 256 := by
  unfold int8
  rw [BitVec.toInt_eq_toNat_cond, BitVec.toNat_ofNat]
  norm_num
  split_ifs <;> omega

theorem int8_of_lt {n : Nat} (h : n < 128) : int8 n = n := by
  rw [int8_eq, Nat.mod_eq_of_lt (by omega), if_pos h]

/-! ## Completion queue -/

/-- `cq_push`: the ring is full when `top` meets `bot`, and then the program exits. -/
def cqPush (cq : List ReqPtr) (r : ReqPtr) : Option (List ReqPtr) :=
  if cq.length + 1 < CQ_MAX_SIZE then some (cq ++ [r]) else none

/-- `cq_pop`. -/
def cqPop (cq : List ReqPtr) : Option ReqPtr × List ReqPtr := (cq.head?, cq.tail)

/-! ## Requests and packets -/

/-- `lci_pk_init`. -/
def lciPkInit (d : Dev) (ep : Nat) (pid : Int) (proto : LcProto) (p : PktId) : Dev :=
  d.setCtx p fun c => { c with ep := ep, poolid := pid, ref := 1, proto := proto }

/-- `lci_init_req`. -/
def lciInitReq (d : Dev) (buf : Buf) (size : Nat) (r : ReqPtr) : Dev :=
  d.setReq r fun q => { q with buffer := buf, size := size, sync := false }

/-- `lc_pool_put(ep->pkpool, p)`. -/
def poolPut (env : Env) (d : Dev) (p : PktId) : Option Dev := (lcPoolPut d.pool env.wid p).map d.setPool

/-- `lci_pk_free`. -/
def lciPkFree (env : Env) (d : Dev) (p : PktId) : Option Dev := poolPut env d p

/-- `lci_pk_free_data`: to the pool the packet is tagged with, if any. -/
def lciPkFreeData (env : Env) (d : Dev) (p : PktId) : Option Dev :=
  if (d.pk p).context.poolid ≠ -1 then
    if 0 ≤ (d.pk p).context.poolid then (lcPoolPutTo d.pool p (d.pk p).context.poolid.toNat).map d.setPool
    else none
  else poolPut env d p

/-! ## Transport calls of the protocol -/

/-- `lc_server_get_free_key`. -/
def lcServerGetFreeKey (d : Dev) : BitVec 32 × Dev :=
  (d.nextKey &&& 0x0fffffff, { d with nextKey := d.nextKey + 1 })

/-- The length of a write: a work request of verbs has 32 bits for it, and so have a send and a receive of PSM2. -/
def rmaLen (size : Nat) : Nat := size % 2 ^ 32

theorem rmaLen_of_lt {n : Nat} (h : n < 2 ^ 32) : rmaLen n = n := Nat.mod_eq_of_lt h

theorem rmaLen_le (n : Nat) : rmaLen n ≤ n := Nat.mod_le n _

/-- `lc_server_post_recv_rma`. -/
def lcServerPostRecvRma (d : Dev) (addr : Buf) (size : Nat) (rkey : BitVec 32) (ctx : Option PktId) : Dev :=
  { d with posted := d.posted ++ [⟨rkey, addr, rmaLen size, ctx⟩] }

/-- `lc_server_rma_reg` on verbs: the driver chooses the key, or the buffer is in the registration cache and has the key
that it was given before; `mrs` then has it once for each reference. -/
def ibvRmaReg (d : Dev) : BitVec 32 × Dev :=
  (d.mrKeys 0, { d with mrKeys := fun n => d.mrKeys (n + 1), mrs := d.mrs ++ [d.mrKeys 0] })

/-- `lc_server_rma_reg` on PSM2: a receive with a new key as its tag is posted for the buffer. -/
def psm2RmaReg (d : Dev) (buf : Buf) (size : Nat) : BitVec 32 × Dev :=
  let rkey := (lcServerGetFreeKey d).1
  let d := (lcServerGetFreeKey d).2
  (rkey, lcServerPostRecvRma { d with mrs := d.mrs ++ [rkey] } buf size rkey none)

/-- `lc_server_rma_reg`: the key of the registration. -/
def lcServerRmaReg (d : Dev) (buf : Buf) (size : Nat) : BitVec 32 × Dev :=
  match d.backend with
  | .ibv => ibvRmaReg d
  | .psm2 => psm2RmaReg d buf size

/-- `lc_server_rma_dereg`. -/
def lcServerRmaDereg (d : Dev) (mem : BitVec 32) : Dev := { d with mrs := d.mrs.erase mem }

/-- A message with a context: the context stays with the transport until the send is completed. -/
def postSend (d : Dev) (ctx : PktId) (m : Msg) : Dev := { d with sends := d.sends ++ [ctx], out := d.out ++ [m] }

/-- `lc_server_sendm`. -/
def lcServerSendm (d : Dev) (rep : CInt) (size : Nat) (ctx : PktId) (proto : BitVec 32) : Dev :=
  postSend d ctx (.send rep proto size (d.pk ctx).data)

/-- `lc_server_rma_rtr`; on verbs a buffer that is not sent inline is registered first. -/
def lcServerRmaRtr (d : Dev) (rep : CInt) (buf : Nat) (addr : Buf) (rkey : BitVec 32) (size : Nat)
    (sid : BitVec 32) (ctx : PktId) : Dev :=
  let d := if d.backend = .ibv ∧ d.maxInline < size then (ibvRmaReg d).2 else d
  postSend d ctx (.rma rep buf addr rkey size sid)

/-! ## Completion events -/

/-- `lci_ce_glob`. -/
def lciCeGlob (d : Dev) (ep : Nat) : Dev := d.setEp ep fun e => { e with completed := e.completed + 1 }

/-- `lci_ce_am`. -/
def lciCeAm (env : Env) (d : Dev) (ep : Nat) (p : PktId) : Option Dev :=
  lciPkFreeData env (d.event (.handler ep (d.reqPtr p))) p

/-- `lci_ce_signal`. -/
def lciCeSignal (env : Env) (d : Dev) (p : PktId) : Option Dev := lciPkFreeData env (d.signal (d.reqPtr p)) p

/-- `lci_ce_queue`. -/
def lciCeQueue (d : Dev) (ep : Nat) (p : PktId) : Option Dev :=
  (cqPush (d.eps ep).cq (d.reqPtr p)).map fun q => (d.setParent (d.reqPtr p) p).setCq ep q

/-- The completion mode of an endpoint; one that is not compiled in returns the packet to the pool. -/
def ceServe (env : Env) (d : Dev) (ep : Nat) (p : PktId) : Option Dev :=
  if d.build.hasCe .sync ∧ (d.eps ep).ce = .sync then lciCeSignal env d p
  else if d.build.hasCe .cq ∧ (d.eps ep).ce = .cq then lciCeQueue d ep p
  else if d.build.hasCe .am ∧ (d.eps ep).ce = .am then lciCeAm env d ep p
  else lciPkFreeData env d p

/-- `lci_ce_dispatch`. -/
def lciCeDispatch (env : Env) (d : Dev) (ep : Nat) (p : PktId) : Option Dev :=
  (ceServe env (d.event (.completed ep (d.reqPtr p) (d.pk p).data)) ep p).map fun d =>
    if d.build.hasGlob ∧ (d.eps ep).glob then lciCeGlob d ep else d

/-! ## Rendezvous -/

/-- `lci_prepare_rtr`. -/
def lciPrepareRtr (d : Dev) (src : Buf) (size : Nat) (p : PktId) : Dev :=
  let rkey := (lcServerRmaReg d src size).1
  let d := (lcServerRmaReg d src size).2
  (d.setCtx p fun c => { c with rmaMem := rkey, ref := 2 }).setData p (.rdz { (d.pk p).data.view with
    commId := BitVec.ofNat 32 (pktOffset d.pageSize p), tgtAddr := src, rkey := rkey })

/-- `lci_prepare_rts`. -/
def lciPrepareRts (d : Dev) (src size cb ce xfer : Nat) (p : PktId) : Dev :=
  d.setData p (.rdz { (d.pk p).data.view with srcAddr := src, size := size, cb := cb, ce := ce, xfer := xfer })

/-- `sizeof(struct packet_rts)`. -/
def packetRtsSize : Nat := 40

/-- `sizeof(struct packet_rtr)`. -/
def packetRtrSize : Nat := 48

/-- `lci_handle_rtr`: the received packet becomes the context of the write. -/
def lciHandleRtr (d : Dev) (ep : Nat) (p : PktId) : Dev :=
  let r := (d.pk p).data.view
  lcServerRmaRtr (lciPkInit d ep (-1) .long p) (d.reqOf p).rhandle r.srcAddr r.tgtAddr r.rkey r.size r.commId p

/-- `lci_handle_rts`: the received packet becomes the RTR. -/
def lciHandleRts (d : Dev) (ep : Nat) (p : PktId) : Dev :=
  lcServerSendm (lciPrepareRtr (lciPkInit d ep (-1) .rtr p) (d.reqOf p).buffer (d.pk p).data.view.size p)
    (d.reqOf p).rhandle packetRtrSize p (makeProto (BitVec.ofNat 32 ep) .rtr 0)

/-! ## Arrivals -/

/-- The enumerator of the two bits of a word. -/
def protoOfBits (b : BitVec 32) : LcProto :=
  if b = LcProto.data.bits then .data
  else if b = LcProto.rtr.bits then .rtr
  else if b = LcProto.rts.bits then .rts
  else .long

theorem protoOfBits_bits (k : LcProto) : protoOfBits k.bits = k := by cases k <;> decide

/-- `lci_serve_recv_imm`. -/
def lciServeRecvImm (env : Env) (d : Dev) (ep : Nat) (p : PktId) (proto : BitVec 32) : Option Dev :=
  lciCeDispatch env ((d.setMeta (d.reqPtr p) (protoGetMeta proto)).setBuffer (d.reqPtr p) (.pkt p)) ep p

/-- The data branch of `lci_serve_recv_dyn`; the address that `alloc` returns comes with the environment. -/
def dynData (env : Env) (d : Dev) (ep : Nat) (p : PktId) : Option Dev := do
  let d ← d.store (.mem env.alloc) ((d.pk p).data.bytes.take (d.reqOf p).size)
  lciCeDispatch env (d.setBuffer (d.reqPtr p) (.mem env.alloc)) ep p

/-- `lci_serve_recv_dyn`. -/
def lciServeRecvDyn (env : Env) (d : Dev) (ep : Nat) (p : PktId) (proto : BitVec 32) : Option Dev :=
  let d := d.setMeta (d.reqPtr p) (protoGetMeta proto)
  match protoOfBits (protoGetProto proto) with
  | .data => dynData env d ep p
  | .rts => some (lciHandleRts (lciInitReq d (.mem env.alloc) (d.pk p).data.view.size (d.reqPtr p)) ep p)
  | .rtr => some (lciHandleRtr d ep p)
  | .long => some d

/-- `lc_hash_insert` of an arrived packet in the table of its endpoint. -/
def explInsert (d : Dev) (ep : Nat) (p : PktId) : Insert Ptr :=
  lcHashInsert .null (d.eps ep).tbl (lcMakeKey (d.reqOf p).rank (d.reqOf p).metaVal) (.pkt p) .server

/-- A data packet that has found its receive. -/
def explData (env : Env) (d : Dev) (ep : Nat) (p : PktId) (r : ReqId) : Option Dev := do
  let size := (d.reqOf p).size
  let d := d.setSize (.user r) size
  let d ← d.store (d.req r).buffer ((d.pk p).data.bytes.take size)
  lciCeDispatch env (d.setReqPtr p (.user r)) ep p

/-- An RTS packet that has found its receive. -/
def explRts (d : Dev) (ep : Nat) (p : PktId) (r : ReqId) : Dev := lciHandleRts (d.setReqPtr p (.user r)) ep p

/-- What follows the insertion of a packet: nothing if it was stored, `k` on the receive it has found. -/
def explMatch (d : Dev) (ep : Nat) (p : PktId) (k : Dev → ReqId → Option Dev) : Option Dev :=
  let i := explInsert d ep p
  if i.ret = 0 then
    match i.value with
    | .req r => k (d.setTbl ep i.table) r
    | _ => none
  else some (d.setTbl ep i.table)

/-- `lci_serve_recv_expl`. -/
def lciServeRecvExpl (env : Env) (d : Dev) (ep : Nat) (p : PktId) (proto : BitVec 32) : Option Dev :=
  let d := (d.setMeta (d.reqPtr p) (protoGetMeta proto)).setProto p (protoOfBits (protoGetProto proto))
  match protoOfBits (protoGetProto proto) with
  | .data => explMatch d ep p fun d r => explData env d ep p r
  | .rts => explMatch d ep p fun d r => some (explRts d ep p r)
  | .rtr => some (lciHandleRtr d ep p)
  | .long => some d

/-- `lci_serve_recv_dispatch`; a packet for an addressing mode that is not compiled in is left alone. -/
def lciServeRecvDispatch (env : Env) (d : Dev) (ep : Nat) (p : PktId) (proto : BitVec 32) : Option Dev :=
  if d.build.hasAr .exp ∧ (d.eps ep).ar = .exp then lciServeRecvExpl env d ep p proto
  else if d.build.hasAr .dyn ∧ (d.eps ep).ar = .dyn then lciServeRecvDyn env d ep p proto
  else if d.build.hasAr .imm ∧ (d.eps ep).ar = .imm then lciServeRecvImm env d ep p proto
  else some d

/-- `lci_serve_recv`. -/
def lciServeRecv (env : Env) (d : Dev) (p : PktId) (proto : BitVec 32) : Option Dev :=
  lciServeRecvDispatch env d (protoGetRgid proto).toNat p proto

/-- `lci_serve_recv_rdma`. -/
def lciServeRecvRdma (env : Env) (d : Dev) (p : PktId) (proto : BitVec 32) : Option Dev :=
  lciCeDispatch env (d.setMeta (d.reqPtr p) (protoGetMeta proto)) (protoGetRgid proto).toNat p

/-! ## Completions of sends and immediates -/

/-- `--p->context.ref`, and the completion event when that was the last one. -/
def decRef (env : Env) (d : Dev) (p : PktId) : Option Dev :=
  let d := d.setCtx p fun c => { c with ref := c.ref - 1 }
  if (d.pk p).context.ref = 0 then lciCeDispatch env d (d.pk p).context.ep p else some d

/-- `lci_serve_send`. -/
def lciServeSend (env : Env) (d : Dev) (p : PktId) : Option Dev :=
  match (d.pk p).context.proto with
  | .rtr => decRef env d p
  | .long =>
    let r := (d.pk p).data.view
    lciPkFree env (d.event (.callback r.cb r.ce r.xfer)) p
  | .rts => lciPkFree env d p
  | .data => lciPkFreeData env d p

/-- `lci_serve_imm`. -/
def lciServeImm (env : Env) (d : Dev) (p : PktId) : Option Dev :=
  decRef env (lcServerRmaDereg d (d.pk p).context.rmaMem) p

end Lci.Server
