/-
The calls of the application: `src/short.c`, `src/medium.c`, `src/long.c`, `src/tag.c` and `src/cq.c`,
with the transport calls they make.
-/
import Lci.Server.Serve

namespace Lci.Server

open Lci.Hash Lci.Proto

/-- `lc_status`. -/
inductive LcStatus
  | ok
  | errRetry
deriving DecidableEq, Repr

/-- `LC_MAX_INLINE`. -/
def LC_MAX_INLINE : Nat := 128

/-! ## Transport calls -/

/-- `lc_server_sends`: the message is copied out, there is no context. -/
def lcServerSends (d : Dev) (rep : CInt) (bytes : List Byte) (proto : BitVec 32) : Dev :=
  { d with out := d.out ++ [.send rep proto bytes.length (.buffer bytes)] }

/-- `lc_server_puts` and, with a meta, `lc_server_putss`. -/
def lcServerPuts (d : Dev) (rep : CInt) (bytes : List Byte) (base : Nat) (offset rkey : BitVec 32)
    (metaVal : Option (BitVec 32)) : Dev :=
  { d with out := d.out ++ [.put rep base offset rkey (.bytes bytes) metaVal] }

/-- `lc_server_putm` and, with a meta, `lc_server_putms`. -/
def lcServerPutm (d : Dev) (rep : CInt) (base : Nat) (offset rkey : BitVec 32) (size : Nat)
    (metaVal : Option (BitVec 32)) (ctx : PktId) : Dev :=
  postSend d ctx (.put rep base offset rkey (.bytes ((d.pk ctx).data.bytes.take size)) metaVal)

/-- `lc_server_putl` and, with a meta, `lc_server_putls`; on verbs the buffer is registered first. -/
def lcServerPutl (d : Dev) (rep : CInt) (buf base : Nat) (offset rkey : BitVec 32) (size : Nat)
    (metaVal : Option (BitVec 32)) (ctx : PktId) : Dev :=
  let d := if d.backend = .ibv then (ibvRmaReg d).2 else d
  postSend d ctx (.put rep base offset rkey (.mem buf size) metaVal)

/-! ## Sends and puts -/

/-- `LC_POOL_GET_OR_RETN`. -/
def poolGetOrRetn (env : Env) (d : Dev) : Option PktId × Dev :=
  if d.deadlock then (none, d)
  else
    ((lcPoolGetNb d.pool env).1, d.setPool (lcPoolGetNb d.pool env).2)

/-- `(uint32_t) (addr - rep->base)`. -/
def putOffset (d : Dev) (rank : CInt) (addr : Nat) : BitVec 32 :=
  BitVec.ofInt 32 ((addr : Int) - (d.rep rank).base)

/-- The packet of a medium message: taken from the pool, tagged with the local pool when the message
is larger than 1024 bytes, and filled. A message that does not fit the data area of its packet runs
into the next one. -/
def mediumPacket (env : Env) (d : Dev) (src size ep : Nat) : Option (Option PktId × Dev) :=
  match poolGetOrRetn env d with
  | (none, d) => some (none, d)
  | (some p, d) =>
    let pool := lcPoolGetLocal d.pool env.wid
    let d := if 1024 < size then lciPkInit (d.setPool pool.2) ep (int8 pool.1) .data p
      else lciPkInit d ep (-1) .data p
    if size ≤ POST_MSG_SIZE then some (some p, d.setData p (.buffer (readMem d.mem src size)))
    else none

/-- `lc_sendm`. -/
def lcSendm (env : Env) (d : Dev) (src size : Nat) (rank tag : CInt) (ep : Nat) : Option (LcStatus × Dev) := do
  match ← mediumPacket env d src size ep with
  | (none, d) => pure (.errRetry, d)
  | (some p, d) => pure (.ok, lcServerSendm d rank size p (makeProto (BitVec.ofNat 32 ep) .data tag))

/-- `lc_putm`. -/
def lcPutm (env : Env) (d : Dev) (src size : Nat) (rank : CInt) (addr ep : Nat) : Option (LcStatus × Dev) := do
  match ← mediumPacket env d src size ep with
  | (none, d) => pure (.errRetry, d)
  | (some p, d) =>
    pure (.ok, lcServerPutm d rank (d.rep rank).base (putOffset d rank addr) (d.rep rank).rkey size none p)

/-- `lc_putms`. -/
def lcPutms (env : Env) (d : Dev) (src size : Nat) (rank : CInt) (addr : Nat) (metaVal : CInt) (ep : Nat) :
    Option (LcStatus × Dev) := do
  match ← mediumPacket env d src size ep with
  | (none, d) => pure (.errRetry, d)
  | (some p, d) =>
    pure (.ok, lcServerPutm d rank (d.rep rank).base (putOffset d rank addr) (d.rep rank).rkey size
      (some (makeProto (BitVec.ofNat 32 ep) .long metaVal)) p)

/-- `lc_sendl`. -/
def lcSendl (env : Env) (d : Dev) (src size : Nat) (rank tag : CInt) (ep cb ce xfer : Nat) : LcStatus × Dev :=
  match poolGetOrRetn env d with
  | (none, d) => (.errRetry, d)
  | (some p, d) =>
    let d := lciPkInit d ep (-1) .rts p
    let d := lciPrepareRts d src size cb ce xfer p
    (.ok, lcServerSendm d rank packetRtsSize p (makeProto (BitVec.ofNat 32 ep) .rts tag))

/-- The packet of `lc_putl` and `lc_putls`: taken from the pool, with the callback in it. -/
def longPacket (env : Env) (d : Dev) (ep cb ce xfer : Nat) : Option PktId × Dev :=
  match poolGetOrRetn env d with
  | (none, d) => (none, d)
  | (some p, d) =>
    let d := lciPkInit d ep (-1) .long p
    (some p, d.setData p (.rdz { (d.pk p).data.view with cb := cb, ce := ce, xfer := xfer }))

/-- `lc_putl`. -/
def lcPutl (env : Env) (d : Dev) (src size : Nat) (rank : CInt) (addr ep cb ce xfer : Nat) : LcStatus × Dev :=
  match longPacket env d ep cb ce xfer with
  | (none, d) => (.errRetry, d)
  | (some p, d) =>
    (.ok, lcServerPutl d rank src (d.rep rank).base (putOffset d rank addr) (d.rep rank).rkey size none p)

/-- `lc_putls`. -/
def lcPutls (env : Env) (d : Dev) (src size : Nat) (rank : CInt) (addr : Nat) (metaVal : CInt)
    (ep cb ce xfer : Nat) : LcStatus × Dev :=
  match longPacket env d ep cb ce xfer with
  | (none, d) => (.errRetry, d)
  | (some p, d) =>
    (.ok, lcServerPutl d rank src (d.rep rank).base (putOffset d rank addr) (d.rep rank).rkey size
      (some (makeProto (BitVec.ofNat 32 ep) .long metaVal)) p)

/-- `lc_sends`. -/
def lcSends (d : Dev) (src size : Nat) (rank tag : CInt) (ep : Nat) : Dev :=
  lcServerSends d rank (readMem d.mem src size) (makeProto (BitVec.ofNat 32 ep) .data tag)

/-- `lc_puts`. -/
def lcPuts (d : Dev) (src size : Nat) (rank : CInt) (addr : Nat) : Dev :=
  lcServerPuts d rank (readMem d.mem src size) (d.rep rank).base (putOffset d rank addr) (d.rep rank).rkey none

/-- `lc_putss`. -/
def lcPutss (d : Dev) (src size : Nat) (rank : CInt) (addr : Nat) (metaVal : CInt) (ep : Nat) : Dev :=
  lcServerPuts d rank (readMem d.mem src size) (d.rep rank).base (putOffset d rank addr) (d.rep rank).rkey
    (some (makeProto (BitVec.ofNat 32 ep) .long metaVal))

/-- `lc_send`; the callback of a message that is copied out is called at once. -/
def lcSend (env : Env) (d : Dev) (src size : Nat) (rank tag : CInt) (ep cb ce xfer : Nat) :
    Option (LcStatus × Dev) :=
  if size ≤ LC_MAX_INLINE then
    some (.ok, (lcSends d src size rank tag ep).event (.callback cb ce xfer))
  else if size ≤ LC_PACKET_SIZE then do
    match ← lcSendm env d src size rank tag ep with
    | (.ok, d) => pure (.ok, d.event (.callback cb ce xfer))
    | (.errRetry, d) => pure (.errRetry, d)
  else some (lcSendl env d src size rank tag ep cb ce xfer)

/-! ## Receives -/

/-- `lc_hash_insert` of a receive in the table of its endpoint. -/
def recvInsert (d : Dev) (rank tag : CInt) (ep : Nat) (r : ReqId) : Insert Ptr :=
  lcHashInsert .null (d.eps ep).tbl (lcMakeKey rank tag) (.req r) .client

/-- What follows the insertion of a receive: nothing if it was stored, `k` on the packet it has found. -/
def recvMatch (d : Dev) (rank tag : CInt) (ep : Nat) (r : ReqId) (k : Dev → PktId → Option Dev) : Option Dev :=
  let i := recvInsert d rank tag ep r
  if i.ret = 0 then
    match i.value with
    | .pkt p => k (d.setTbl ep i.table) p
    | _ => none
  else some (d.setTbl ep i.table)

/-- A receive that has found a data packet. -/
def recvData (env : Env) (d : Dev) (src ep : Nat) (r : ReqId) (p : PktId) : Option Dev := do
  let d ← d.store (.mem src) ((d.pk p).data.bytes.take (d.reqOf p).size)
  lciCeDispatch env ((d.setSize (.user r) (d.reqOf p).size).setReqPtr p (.user r)) ep p

/-- A receive that has found an RTS packet. -/
def recvRts (d : Dev) (ep : Nat) (r : ReqId) (p : PktId) : Dev :=
  lciHandleRts ((d.setSize (.user r) (d.pk p).data.view.size).setReqPtr p (.user r)) ep p

/-- `lc_recvm`. -/
def lcRecvm (env : Env) (d : Dev) (src size : Nat) (rank tag : CInt) (ep : Nat) (r : ReqId) : Option Dev :=
  recvMatch (lciInitReq d (.mem src) size (.user r)) rank tag ep r fun d p => recvData env d src ep r p

/-- `lc_recvl`. -/
def lcRecvl (d : Dev) (src size : Nat) (rank tag : CInt) (ep : Nat) (r : ReqId) : Option Dev :=
  recvMatch ((lciInitReq d (.mem src) size (.user r)).setRhandle (.user r) rank) rank tag ep r
    fun d p => some (recvRts d ep r p)

/-- `lc_recv`. -/
def lcRecv (env : Env) (d : Dev) (src size : Nat) (rank tag : CInt) (ep : Nat) (r : ReqId) : Option Dev :=
  recvMatch ((lciInitReq d (.mem src) size (.user r)).setRhandle (.user r) rank) rank tag ep r fun d p =>
    if (d.pk p).context.proto = .rts then some (recvRts d ep r p) else recvData env d src ep r p

/-! ## Completion queue -/

/-- `lc_cq_pop`: `*req_ptr`, or `LC_ERR_RETRY`. -/
def lcCqPop (d : Dev) (ep : Nat) : Option ReqPtr × Dev :=
  ((cqPop (d.eps ep).cq).1, d.setCq ep (cqPop (d.eps ep).cq).2)

/-- `lc_cq_reqfree`. -/
def lcCqReqfree (env : Env) (d : Dev) (r : ReqPtr) : Option Dev := do
  let p ← (d.getReq r).parent
  poolPut env d p

/-! ## Initialisation -/

/-- The loop of `lci_dev_init` that puts the packets in the pool made by `lc_pool_create`. -/
def fillPool (wid : Nat) : Nat → Option Pool
  | 0 => some ⟨fun _ => none, []⟩
  | n + 1 => do
    let pool ← fillPool wid n
    lcPoolPut pool wid n

/-- `lc_server_init` on raw memory: nothing is posted, and on PSM2 the heap gets the next key. -/
def lcServerInit (d : Dev) : Dev :=
  let d := { d with recvPosted := 0, mrs := [], posted := [], sends := [], out := [], events := [] }
  match d.backend with
  | .ibv => d
  | .psm2 => { (lcServerGetFreeKey d).2 with heapRkey := (lcServerGetFreeKey d).1 }

/-- `lci_dev_init`: of a packet only the pool index and the parent of its own request are written. -/
def lciDevInit (wid : Nat) (d : Dev) : Option Dev := do
  let d := lcServerInit d
  let pool ← fillPool wid LC_SERVER_NUM_PKTS
  pure { d with
    pool := pool
    pk := fun p => { d.pk p with context := { (d.pk p).context with
      poolid := 0, reqS := { (d.pk p).context.reqS with parent := some p } } } }

/-- An endpoint as `lci_ep_open` and `lc_ep_dup` make it, its completion queue empty. -/
def lciEpOpen (ar : Ar) (ce : Ce) (glob : Bool) : Ep := ⟨ar, ce, glob, 0, lcHashCreate .null, []⟩

/-- Memory before `lci_dev_init`, zeroed, on a build with every switch on and all endpoints alike. -/
def rawDev (backend : Backend) (pageSize : Nat) (ar : Ar) (ce : Ce) : Dev where
  backend := backend
  build := ⟨fun _ => true, fun _ => true, true⟩
  pageSize := pageSize
  maxInline := 0
  me := 0
  rep := fun _ => ⟨0, 0⟩
  heap := 0
  heapRkey := 0
  eps := fun _ => lciEpOpen ar ce false
  pool := ⟨fun _ => none, []⟩
  pk := fun p => ⟨⟨⟨false, .null, none, 0, 0, 0, 0⟩, .own p, 0, 0, .data, 0, 0⟩, .buffer []⟩
  req := fun _ => ⟨false, .null, none, 0, 0, 0, 0⟩
  mem := fun _ => 0
  recvPosted := 0
  deadlock := false
  nextKey := 1
  mrKeys := fun n => BitVec.ofNat 32 (n + 1)
  mrs := []
  posted := []
  sends := []
  out := []
  events := []

theorem lcPoolPut_one {pool : Pool} {wid : Nat} {dq : List PktId} (ht : pool.tls wid = some 0)
    (hl : pool.lpools = [dq]) (p : PktId) (hlen : dq.length + 1 < MAX_SIZE) :
    lcPoolPut pool wid p = some { pool with lpools := [dq ++ [p]] } := by
  simp [lcPoolPut, lcPoolGetLocal, lcPoolPutTo, dqPushTop, ht, hl, hlen]

/-- All the packets are in the deque of the worker that made the device. -/
theorem fillPool_eq (wid : Nat) : ∀ n, 0 < n → n < MAX_SIZE →
    fillPool wid n = some ⟨Function.update (fun _ => none) wid (some 0), [List.range n]⟩
  | 0, h, _ => absurd h (lt_irrefl 0)
  | 1, _, _ => by
    simp [fillPool, lcPoolPut, lcPoolGetLocal, lcPoolPutTo, dqPushTop, MAX_SIZE]
  | n + 2, _, hn => by
    have ih := fillPool_eq wid (n + 1) (by omega) (by omega)
    rw [fillPool, ih]
    simp only [Option.bind_eq_bind, Option.bind_some]
    rw [lcPoolPut_one (by simp) rfl _ (by simpa using hn), List.range_succ (n := n + 1)]

/-- The device that `lci_dev_init` makes. -/
theorem lciDevInit_eq (wid : Nat) (d : Dev) : lciDevInit wid d = some { lcServerInit d with
    pool := ⟨Function.update (fun _ => none) wid (some 0), [List.range LC_SERVER_NUM_PKTS]⟩
    pk := fun p => { (lcServerInit d).pk p with context := { ((lcServerInit d).pk p).context with
      poolid := 0, reqS := { ((lcServerInit d).pk p).context.reqS with parent := some p } } } } := by
  unfold lciDevInit
  rw [fillPool_eq wid _ (by decide) (by decide)]
  rfl

end Lci.Server
