/-
The state of one device: packets, requests, endpoints, the packet pool with its local deques, and
what the device has handed to the transport. Addresses of the process are numbers; a packet is
named by its place in the heap, counted from `base_packet` in steps of `LC_PACKET_SIZE`. The word
`none` of a function of this model is what C leaves undefined, or `exit`.
-/
import Lci.Hash.Table
import Lci.Proto.Word

namespace Lci.Server

open Lci.Hash Lci.Proto

/-! ## Sizes -/

/-- `LC_SERVER_NUM_PKTS`. -/
def LC_SERVER_NUM_PKTS : Nat := 1024

/-- `LC_SERVER_MAX_RCVS`. -/
def LC_SERVER_MAX_RCVS : Nat := 64

/-- `LC_PACKET_SIZE` without the OFI server. -/
def LC_PACKET_SIZE : Nat := 8 * 1024 + 4096

/-- `sizeof(struct packet_context)`: 16 bytes of hardware context, a request of 64, three words and
four bytes. -/
def packetContextSize : Nat := 108

/-- `POST_MSG_SIZE`. -/
def POST_MSG_SIZE : Nat := LC_PACKET_SIZE - packetContextSize

/-- `CQ_MAX_SIZE`. -/
def CQ_MAX_SIZE : Nat := LC_SERVER_NUM_PKTS * 2

/-- `MAX_SIZE` of a deque. -/
def MAX_SIZE : Nat := 2 ^ 12

/-! ## Packets and requests -/

abbrev Byte := BitVec 8

/-- A packet: `i` for the one at `base_packet + i * LC_PACKET_SIZE`. -/
abbrev PktId := Nat

/-- A request of the application. -/
abbrev ReqId := Nat

/-- What an address of a message can be: memory of the process, or the data area of a packet. -/
inductive Buf
  | null
  | mem (addr : Nat)
  | pkt (p : PktId)
deriving DecidableEq, Repr

/-- `lc_req*`: the request inside a packet's context, `req_s`, or one of the application. -/
inductive ReqPtr
  | own (p : PktId)
  | user (r : ReqId)
deriving DecidableEq, Repr

/-- `struct lc_req`; a handle stands for the rank it leads to. -/
structure Req where
  sync : Bool
  buffer : Buf
  parent : Option PktId
  rhandle : CInt
  size : Nat
  rank : CInt
  metaVal : CInt
deriving DecidableEq, Repr

/-- `struct packet_rtr`; `struct packet_rts` is its first five fields. A callback is named by a number,
and so is its argument. `xfer` is not in the source: it names the transfer for the proofs, and no
function reads it. -/
structure Rdz where
  cb : Nat
  ce : Nat
  srcAddr : Nat
  size : Nat
  tgtAddr : Buf
  rkey : BitVec 32
  commId : BitVec 32
  xfer : Nat
deriving DecidableEq, Repr

/-- `struct packet_data`. -/
inductive PkData
  | buffer (bytes : List Byte)
  | rdz (r : Rdz)
deriving DecidableEq, Repr

/-- `p->data.buffer`. -/
def PkData.bytes : PkData → List Byte
  | .buffer b => b
  | .rdz _ => []

/-- `p->data.rts` and `p->data.rtr`; a packet that holds the bytes of a message has nothing there. -/
def PkData.view : PkData → Rdz
  | .buffer _ => ⟨0, 0, 0, 0, .null, 0, 0, 0⟩
  | .rdz r => r

/-- `struct packet_context`. -/
structure Context where
  reqS : Req
  req : ReqPtr
  ep : Nat
  rmaMem : BitVec 32
  proto : LcProto
  poolid : Int
  ref : Int
deriving DecidableEq, Repr

/-- `struct lc_packet`. -/
structure Packet where
  context : Context
  data : PkData
deriving DecidableEq, Repr

/-! ## Endpoints -/

/-- `lc_ep_addr`. -/
inductive Ar
  | dyn
  | exp
  | imm
deriving DecidableEq, Repr

/-- `lc_ep_ce` without `EP_CE_GLOB`, which is a flag of its own. -/
inductive Ce
  | null
  | sync
  | cq
  | am
deriving DecidableEq, Repr

/-- What a matching table holds: a packet for a message, a request for a receive. -/
inductive Ptr
  | null
  | pkt (p : PktId)
  | req (r : ReqId)
deriving DecidableEq, Repr

/-- `struct lci_ep`; the ring of `struct comp_q` is the list of its requests, oldest first. -/
structure Ep where
  ar : Ar
  ce : Ce
  glob : Bool
  completed : Nat
  tbl : Table Ptr
  cq : List ReqPtr

/-- The `LC_SERVER_HAS_` switches of the build. -/
structure Build where
  hasAr : Ar → Bool
  hasCe : Ce → Bool
  hasGlob : Bool

/-! ## Pool -/

/-- `struct lc_pool` with its column of `tls_pool_struct`; a deque is listed from `bot` to `top`. -/
structure Pool where
  tls : Nat → Option Nat
  lpools : List (List PktId)

/-! ## Transport -/

inductive Backend
  | ibv
  | psm2
deriving DecidableEq, Repr

/-- `psm2_mq_tag_t`. -/
structure MqTag where
  tag0 : BitVec 32
  tag1 : BitVec 32
  tag2 : BitVec 32
deriving DecidableEq, Repr

/-- A receive handed to the transport: its tag (`tag2` is all that `LCI_PSM2_TAGSEL` looks at), its buffer
and the packet of its context, if any. -/
structure Post where
  tag2 : BitVec 32
  buf : Buf
  size : Nat
  ctx : Option PktId
deriving DecidableEq, Repr

/-- What is written by a put: the data area of a packet, or memory of the process. -/
inductive Src
  | bytes (b : List Byte)
  | mem (addr size : Nat)
deriving DecidableEq, Repr

/-- A message handed to the transport. -/
inductive Msg
  | send (dst : CInt) (proto : BitVec 32) (size : Nat) (data : PkData)
  | put (dst : CInt) (base : Nat) (offset rkey : BitVec 32) (src : Src) (metaVal : Option (BitVec 32))
  | rma (dst : CInt) (src : Nat) (addr : Buf) (rkey : BitVec 32) (size : Nat) (sid : BitVec 32)
deriving DecidableEq, Repr

/-- `struct lci_rep`; its handle is the rank. -/
structure Rep where
  base : Nat
  rkey : BitVec 32

/-- What the application sees: the completion event of a request on an endpoint, with what its packet
held, the handler of an endpoint called on a request, and a send callback called on its argument. -/
inductive Event
  | completed (ep : Nat) (r : ReqPtr) (data : PkData)
  | handler (ep : Nat) (r : ReqPtr)
  | callback (cb ce : Nat) (xfer : Nat)
deriving DecidableEq, Repr

/-- A device: `lc_server`, the objects it reaches, and the transport's side of it. -/
structure Dev where
  backend : Backend
  build : Build
  pageSize : Nat
  maxInline : Nat
  me : CInt
  rep : CInt → Rep
  heap : Nat
  heapRkey : BitVec 32
  eps : Nat → Ep
  pool : Pool
  pk : PktId → Packet
  req : ReqId → Req
  mem : Nat → Byte
  recvPosted : Int
  deadlock : Bool
  nextKey : BitVec 32
  /-- keys of the registrations to come, as the verbs driver or the registration cache chooses them -/
  mrKeys : Nat → BitVec 32
  /-- registrations made and not released -/
  mrs : List (BitVec 32)
  /-- receives posted whose completion was not returned -/
  posted : List Post
  /-- contexts of sends and writes whose completion was not returned -/
  sends : List PktId
  /-- messages the transport has not yet carried away -/
  out : List Msg
  events : List Event

/-- What a call gets from outside: the worker it runs on, the number `rand` returns, and the address
the endpoint's `alloc` returns. -/
structure Env where
  wid : Nat
  rand : Nat
  alloc : Nat

/-! ## Field updates -/

namespace Dev

/-- Writes to the context of a packet. -/
def setCtx (d : Dev) (p : PktId) (f : Context → Context) : Dev :=
  { d with pk := Function.update d.pk p { d.pk p with context := f (d.pk p).context } }

/-- Writes the data area of a packet. -/
def setData (d : Dev) (p : PktId) (x : PkData) : Dev :=
  { d with pk := Function.update d.pk p { d.pk p with data := x } }

def setEp (d : Dev) (e : Nat) (f : Ep → Ep) : Dev :=
  { d with eps := Function.update d.eps e (f (d.eps e)) }

/-- `ep->tbl` after a call to the table. -/
def setTbl (d : Dev) (e : Nat) (t : Table Ptr) : Dev := d.setEp e fun x => { x with tbl := t }

/-- `ep->cq` after a call to the queue. -/
def setCq (d : Dev) (e : Nat) (q : List ReqPtr) : Dev := d.setEp e fun x => { x with cq := q }

def setPool (d : Dev) (pool : Pool) : Dev := { d with pool := pool }

/-- `*r`. -/
def getReq (d : Dev) : ReqPtr → Req
  | .own p => (d.pk p).context.reqS
  | .user r => d.req r

/-- Writes through a request pointer. -/
def setReq (d : Dev) : ReqPtr → (Req → Req) → Dev
  | .own p, f => d.setCtx p fun c => { c with reqS := f c.reqS }
  | .user r, f => { d with req := Function.update d.req r (f (d.req r)) }

/-- `p->context.req`. -/
def reqPtr (d : Dev) (p : PktId) : ReqPtr := (d.pk p).context.req

/-- `*p->context.req`. -/
def reqOf (d : Dev) (p : PktId) : Req := d.getReq (d.reqPtr p)

/-- `p->context.req = r`. -/
def setReqPtr (d : Dev) (p : PktId) (r : ReqPtr) : Dev := d.setCtx p fun c => { c with req := r }

/-- `p->context.proto = proto`. -/
def setProto (d : Dev) (p : PktId) (proto : LcProto) : Dev := d.setCtx p fun c => { c with proto := proto }

/-- `r->size = n`. -/
def setSize (d : Dev) (r : ReqPtr) (n : Nat) : Dev := d.setReq r fun q => { q with size := n }

/-- `r->buffer = b`. -/
def setBuffer (d : Dev) (r : ReqPtr) (b : Buf) : Dev := d.setReq r fun q => { q with buffer := b }

/-- `r->meta = m`. -/
def setMeta (d : Dev) (r : ReqPtr) (m : CInt) : Dev := d.setReq r fun q => { q with metaVal := m }

/-- `r->rhandle = h`. -/
def setRhandle (d : Dev) (r : ReqPtr) (h : CInt) : Dev := d.setReq r fun q => { q with rhandle := h }

/-- `r->parent = p`. -/
def setParent (d : Dev) (r : ReqPtr) (p : PktId) : Dev := d.setReq r fun q => { q with parent := some p }

/-- `lc_signal(&r->sync)`. -/
def signal (d : Dev) (r : ReqPtr) : Dev := d.setReq r fun q => { q with sync := true }

def event (d : Dev) (v : Event) : Dev := { d with events := d.events ++ [v] }

end Dev

/-- `memcpy` to memory of the process. -/
def writeMem (mem : Nat → Byte) (addr : Nat) (bytes : List Byte) : Nat → Byte :=
  fun x => if addr ≤ x then (bytes[x - addr]?).getD (mem x) else mem x

/-- `memcpy(buf, bytes, ..)`. -/
def Dev.store (d : Dev) (buf : Buf) (bytes : List Byte) : Option Dev :=
  match buf with
  | .null => none
  | .mem a => some { d with mem := writeMem d.mem a bytes }
  | .pkt p => some (d.setData p (.buffer bytes))

/-- The bytes of a range of the process's memory. -/
def readMem (mem : Nat → Byte) (addr size : Nat) : List Byte :=
  (List.range size).map fun i => mem (addr + i)

theorem readMem_writeMem (mem : Nat → Byte) (a : Nat) (bytes : List Byte) :
    readMem (writeMem mem a bytes) a bytes.length = bytes := by
  apply List.ext_getElem
  · simp [readMem]
  · intro i h1 h2
    simp [readMem, writeMem, List.getElem?_eq_getElem h2]

theorem writeMem_outside (mem : Nat → Byte) {src : Nat} {bytes : List Byte} {a : Nat}
    (h : ¬ (src ≤ a ∧ a < src + bytes.length)) : writeMem mem src bytes a = mem a := by
  unfold writeMem
  split
  · rw [List.getElem?_eq_none (by omega)]
    rfl
  · rfl

/-! ## Offsets in the heap -/

/-- The offset of a packet from `lc_server_heap_ptr`. -/
def pktOffset (pageSize : Nat) (p : PktId) : Nat := pageSize - packetContextSize + p * LC_PACKET_SIZE

/-- The packet at an offset, if there is one. -/
def pktAt (pageSize off : Nat) : Option PktId :=
  (List.range LC_SERVER_NUM_PKTS).find? fun p => pktOffset pageSize p = off

theorem pktOffset_inj {pageSize p q : Nat} (h : pktOffset pageSize p = pktOffset pageSize q) : p = q := by
  unfold pktOffset LC_PACKET_SIZE at h
  omega

theorem pktAt_pktOffset {pageSize p : Nat} (hp : p < LC_SERVER_NUM_PKTS) :
    pktAt pageSize (pktOffset pageSize p) = some p := by
  unfold pktAt
  cases h : (List.range LC_SERVER_NUM_PKTS).find? fun q => pktOffset pageSize q = pktOffset pageSize p with
  | none =>
    rw [List.find?_eq_none] at h
    simpa using h p (List.mem_range.2 hp)
  | some q =>
    have := List.find?_some h
    exact congrArg some (pktOffset_inj (by simpa using this))

end Lci.Server
