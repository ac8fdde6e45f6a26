/-
The two orders in which a message and its receive can meet on an EXP endpoint. The receive is inserted in
the matching table first and `lci_serve_recv_expl` finds it, or the packet is inserted first and `lc_recv`,
`lc_recvm` or `lc_recvl` finds the packet. Both orders leave the same bytes, the same buffer and one
completion event; the size of the request is that of the message in all cases but one, the RTS branch
of `lci_serve_recv_expl`, which leaves the size the receive was posted with. Both orders lose what a message
has over the 12180 bytes of a packet, or over the 32 bits of the length of a write.
-/
import Lci.Hash.Refine
import Lci.Server.Psm2
import Lci.Server.Verbs

namespace Lci.Server

open Lci.Hash Lci.Proto Matcher

/-! ## Messages, receives and runs -/

/-- A message on its way: the packet of an eager one, or the RTS packet with the bytes that its sender
writes once it has the RTR. -/
inductive Incoming
  | eager (bytes : List Byte)
  | rendezvous (rts : Rdz) (bytes : List Byte)

namespace Incoming

def bytes : Incoming → List Byte
  | .eager b => b
  | .rendezvous _ b => b

def proto : Incoming → LcProto
  | .eager _ => .data
  | .rendezvous _ _ => .rts

def data : Incoming → PkData
  | .eager b => .buffer b
  | .rendezvous r _ => .rdz r

/-- The length of the packet. -/
def wireLen : Incoming → Nat
  | .eager b => b.length
  | .rendezvous _ _ => packetRtsSize

/-- The RTS says how long the message is. -/
def WellFormed : Incoming → Prop
  | .eager _ => True
  | .rendezvous r b => r.size = b.length

/-- A packet holds the message, and so does the receive that waits for the packet; `lc_send` routes up to 108 bytes
more to the eager path. A rendezvous takes no more than its RTS. -/
def Fits : Incoming → Prop
  | .eager b => b.length ≤ POST_MSG_SIZE
  | .rendezvous _ _ => True

instance : DecidablePred Fits
  | .eager b => inferInstanceAs (Decidable (b.length ≤ POST_MSG_SIZE))
  | .rendezvous _ _ => inferInstanceAs (Decidable True)

/-- The bytes that come to the receive: a write is as long as 32 bits of the size say. -/
def written : Incoming → List Byte
  | .eager b => b
  | .rendezvous r b => b.take (rmaLen r.size)

end Incoming

theorem Incoming.written_le (m : Incoming) : m.written.length ≤ m.bytes.length := by
  cases m with
  | eager bytes => exact le_rfl
  | rendezvous rts bytes => exact List.length_take_le' _ _

/-- The call that posts the receive. -/
inductive RecvCall
  | recv
  | recvm
  | recvl
deriving DecidableEq

/-- `lc_recv` is paired with any message, `lc_recvm` with `lc_sendm`, `lc_recvl` with `lc_sendl`. -/
def RecvCall.Pairs : RecvCall → Incoming → Prop
  | .recv, _ => True
  | .recvm, .eager _ => True
  | .recvl, .rendezvous _ _ => True
  | _, _ => False

/-- A receive: where it is posted, for what, and with which request. -/
structure Posting where
  call : RecvCall
  src : Nat
  size : Nat
  rank : CInt
  tag : CInt
  ep : Nat
  req : ReqId

def postRecv (env : Env) (d : Dev) (x : Posting) : Option Dev :=
  match x.call with
  | .recv => lcRecv env d x.src x.size x.rank x.tag x.ep x.req
  | .recvm => lcRecvm env d x.src x.size x.rank x.tag x.ep x.req
  | .recvl => lcRecvl d x.src x.size x.rank x.tag x.ep x.req

/-- A packet that a message from the rank of the receive has arrived in. -/
def arrived (d : Dev) (p : PktId) (x : Posting) (m : Incoming) : Dev :=
  ((d.setData p m.data).setReqPtr p (.own p)).setReq (.own p) fun q =>
    { q with rank := x.rank, rhandle := x.rank, size := m.wireLen }

/-- The arrival of a message with the tag and the endpoint of the receive. -/
def arrive (env : Env) (d : Dev) (p : PktId) (x : Posting) (m : Incoming) : Option Dev :=
  lciServeRecv env (arrived d p x m) p (makeProto (BitVec.ofNat 32 x.ep) m.proto x.tag)

/-- An arrival is what the receive loop of verbs makes of the completion of the message. -/
theorem arrive_ibv (env : Env) (d : Dev) (p : PktId) (x : Posting) (m : Incoming) :
    ibvServeRecv env d ⟨p, .recv, x.rank, m.wireLen, makeProto (BitVec.ofNat 32 x.ep) m.proto x.tag, m.data⟩ =
      arrive env { d with recvPosted := d.recvPosted - 1 } p x m := rfl

/-- And what PSM2 makes of it, once the message is in the buffer of the receive it has matched. -/
theorem arrive_psm2 (env : Env) (d : Dev) (p : PktId) (x : Posting) (m : Incoming) :
    psm2ServeRecv env (d.setData p m.data) (some p)
        ⟨psmTagTsendData (makeProto (BitVec.ofNat 32 x.ep) m.proto x.tag) x.rank, x.rank, m.wireLen, m.data⟩ =
      (arrive env d p x m).map (countRecv · (-1)) := by
  unfold psm2ServeRecv
  dsimp only [psmTagTsendData]
  rw [if_pos (by decide)]
  exact Option.map_eq_bind.symm

/-- The sender's write of a rendezvous, at the address and of the size it has from the RTR. -/
def rdmaWrite (d : Dev) (p : PktId) (bytes : List Byte) : Option Dev :=
  d.store (d.pk p).data.view.tgtAddr (bytes.take (rmaLen (d.pk p).data.view.size))

/-- The rest of a transfer: of a rendezvous the write, its immediate, and the completion of the RTR, which
may come before them or after. -/
def finish (env env' : Env) (rtrFirst : Bool) (d : Dev) (p : PktId) : Incoming → Option Dev
  | .eager _ => some d
  | .rendezvous _ bytes =>
    if rtrFirst then do
      let d ← lciServeSend env { d with sends := d.sends.erase p } p
      let d ← rdmaWrite d p bytes
      lciServeImm env' d p
    else do
      let d ← rdmaWrite d p bytes
      let d ← lciServeImm env d p
      lciServeSend env' { d with sends := d.sends.erase p } p

/-- The run in which the receive is in the table first. -/
def recvFirst (env : Nat → Env) (rtrFirst : Bool) (d : Dev) (p : PktId) (x : Posting) (m : Incoming) : Option Dev := do
  let d ← postRecv (env 0) d x
  let d ← arrive (env 1) d p x m
  finish (env 2) (env 3) rtrFirst d p m

/-- The run in which the packet is in the table first. -/
def msgFirst (env : Nat → Env) (rtrFirst : Bool) (d : Dev) (p : PktId) (x : Posting) (m : Incoming) : Option Dev := do
  let d ← arrive (env 0) d p x m
  let d ← postRecv (env 1) d x
  finish (env 2) (env 3) rtrFirst d p m

/-- A run of a message from its sender on. The copy of one that does not fit runs over its packet, and the transport has
an error for it. -/
def carried (m : Incoming) (run : Option Dev) : Option Dev := if m.Fits then run else none

/-- The completion events of a request. -/
def completions (d : Dev) (r : ReqId) : Nat :=
  d.events.countP fun v => match v with
    | .completed _ (.user r') _ => r' = r
    | _ => false

/-- A run from `d` has ended as the receive is to end: the message in its buffer, the buffer as given, the
size of the message, and one completion event more. -/
def EndsWell (d : Dev) (x : Posting) (m : Incoming) (run : Option Dev) : Prop :=
  ∃ d', run = some d' ∧ readMem d'.mem x.src m.bytes.length = m.bytes ∧ (d'.req x.req).buffer = .mem x.src ∧
    (d'.req x.req).size = m.bytes.length ∧ completions d' x.req = completions d x.req + 1

/-- The state before: the endpoint is compiled in, its table holds nothing under the key of the receive,
and neither the pool nor a completion queue is full. -/
structure Ready (d : Dev) (p : PktId) (x : Posting) : Prop where
  exp : d.build.hasAr .exp = true ∧ (d.eps x.ep).ar = .exp
  ep_lt : x.ep < 2 ^ 14
  rank_lt : x.rank.toNat < 2 ^ 31 - 1
  tag_lt : x.tag.toNat < 2 ^ 16
  table : ∃ q, Represents (d.eps x.ep).tbl q ∧ ∀ e ∈ q, e.key ≠ lcMakeKey x.rank x.tag
  tls : ∀ wid pid, d.pool.tls wid = some pid → pid < d.pool.lpools.length
  deques : ∀ dq ∈ d.pool.lpools, dq.length + 1 < MAX_SIZE
  poolid : (d.pk p).context.poolid = -1 ∨
    (0 ≤ (d.pk p).context.poolid ∧ (d.pk p).context.poolid.toNat < d.pool.lpools.length)
  cq : ∀ e, (d.eps e).cq.length + 1 < CQ_MAX_SIZE

/-! ## The table -/

/-- The first of the two is stored. -/
theorem insert_first {t : Table Ptr} {q : List (Call Ptr)} (h : Represents t q) {c : Call Ptr} (hc : ValidKey c.key)
    (hq : ∀ e ∈ q, e.key ≠ c.key) :
    (lcHashInsert .null t c.key c.val c.side).ret = 1 ∧
      Represents (lcHashInsert .null t c.key c.val c.side).table (q ++ [c]) := by
  obtain ⟨hr, ht⟩ := lcHashInsert_refines .null h c hc
  rw [insert_stored InsertType.other fun e he hm => hq e he hm.1] at hr ht
  exact ⟨congrArg Prod.fst hr, ht⟩

/-- The second finds the first. -/
theorem insert_second {t : Table Ptr} {q : List (Call Ptr)} {a c : Call Ptr} (h : Represents t (q ++ [a]))
    (hc : ValidKey c.key) (hq : ∀ e ∈ q, e.key ≠ c.key) (ha : Meets InsertType.other c a) :
    (lcHashInsert .null t c.key c.val c.side).ret = 0 ∧ (lcHashInsert .null t c.key c.val c.side).value = a.val := by
  obtain ⟨hr, -⟩ := lcHashInsert_refines .null h c hc
  have hf : (q ++ [a]).find? (fun e => decide (Meets InsertType.other c e)) = some a := by
    rw [List.find?_append, List.find?_eq_none.2 fun e he => by simpa using fun hm => hq e he hm.1]
    simp [ha]
  rw [insert_matched InsertType.other hf] at hr
  exact ⟨congrArg Prod.fst hr, congrArg Prod.snd hr⟩

/-- The entry of the receive, and that of the packet. -/
def recvEntry (x : Posting) : Call Ptr := ⟨lcMakeKey x.rank x.tag, .client, .req x.req⟩

def pktEntry (x : Posting) (p : PktId) : Call Ptr := ⟨lcMakeKey x.rank x.tag, .server, .pkt p⟩

theorem Ready.validKey {d : Dev} {p : PktId} {x : Posting} (h : Ready d p x) : ValidKey (lcMakeKey x.rank x.tag) := by
  have h1 := h.rank_lt
  have h2 := h.tag_lt
  unfold ValidKey
  rw [lcMakeKey_toNat (by omega) (by omega)]
  omega

/-! ## Memory and events -/

/-- What a free or a completion of packet `p` needs of the pool and the queues. -/
structure Room (d : Dev) (p : PktId) : Prop where
  tls : ∀ wid pid, d.pool.tls wid = some pid → pid < d.pool.lpools.length
  deques : ∀ dq ∈ d.pool.lpools, dq.length + 1 < MAX_SIZE
  poolid : (d.pk p).context.poolid = -1 ∨
    (0 ≤ (d.pk p).context.poolid ∧ (d.pk p).context.poolid.toNat < d.pool.lpools.length)
  cq : ∀ e, (d.eps e).cq.length + 1 < CQ_MAX_SIZE

/-- The receives are as before, in memory and in their requests. -/
structure SameRecv (d d' : Dev) : Prop where
  mem : d'.mem = d.mem
  req : ∀ r, (d'.req r).buffer = (d.req r).buffer ∧ (d'.req r).size = (d.req r).size

theorem sameRecv_setReq (d : Dev) (r : ReqPtr) {f : Req → Req}
    (hf : ∀ q, (f q).buffer = q.buffer ∧ (f q).size = q.size) :
    SameRecv d (d.setReq r f) := by
  cases r with
  | own p => exact ⟨rfl, fun _ => ⟨rfl, rfl⟩⟩
  | user r =>
    refine ⟨rfl, fun r' => ?_⟩
    by_cases hr : r' = r
    · subst hr
      simpa [Dev.setReq] using hf (d.req r')
    · simp [Dev.setReq, hr]

theorem putTo_some {pool : Pool} (hd : ∀ dq ∈ pool.lpools, dq.length + 1 < MAX_SIZE) {pid : Nat}
    (hp : pid < pool.lpools.length) (p : PktId) : ∃ pool', lcPoolPutTo pool p pid = some pool' := by
  have hget : pool.lpools[pid]? = some pool.lpools[pid] := List.getElem?_eq_getElem hp
  unfold lcPoolPutTo dqPushTop
  rw [hget]
  simp [hd _ (List.getElem_mem hp)]

theorem put_some {pool : Pool} (ht : ∀ wid pid, pool.tls wid = some pid → pid < pool.lpools.length)
    (hd : ∀ dq ∈ pool.lpools, dq.length + 1 < MAX_SIZE) (wid : Nat) (p : PktId) :
    ∃ pool', lcPoolPut pool wid p = some pool' := by
  unfold lcPoolPut lcPoolGetLocal
  cases h : pool.tls wid with
  | some pid => exact putTo_some hd (ht wid pid h) p
  | none =>
    refine putTo_some (fun dq hm => ?_) (by simp) p
    rcases List.mem_append.1 hm with hm | hm
    · exact hd dq hm
    · rw [List.mem_singleton.1 hm]
      decide

/-- A packet goes back to a pool with room. -/
theorem freeData_some (env : Env) {d : Dev} {p : PktId} (h : Room d p) :
    ∃ pool, lciPkFreeData env d p = some (d.setPool pool) := by
  unfold lciPkFreeData
  rcases h.poolid with hp | ⟨h0, hlt⟩
  · obtain ⟨pool, he⟩ := put_some h.tls h.deques env.wid p
    exact ⟨pool, by rw [if_neg (not_not.2 hp), poolPut, he]; rfl⟩
  · obtain ⟨pool, he⟩ := putTo_some h.deques hlt p
    exact ⟨pool, by rw [if_pos (by omega), if_pos h0, he]; rfl⟩

theorem Room.of_eq {d : Dev} {p : PktId} (h : Room d p) (d' : Dev) (hpool : d'.pool = d.pool)
    (hp : (d'.pk p).context.poolid = (d.pk p).context.poolid) (hcq : ∀ e, (d'.eps e).cq = (d.eps e).cq) : Room d' p :=
  ⟨hpool ▸ h.tls, hpool ▸ h.deques, by rw [hp, hpool]; exact h.poolid, fun e => by rw [hcq]; exact h.cq e⟩

/-- The completion mode of an endpoint: the receives stay, no other completion event is raised. -/
theorem ceServe_some (env : Env) {d : Dev} (ep : Nat) {p : PktId} (h : Room d p) {r : ReqId}
    (hr : d.reqPtr p = .user r) : ∃ d', ceServe env d ep p = some d' ∧ SameRecv d d' ∧
      completions d' r = completions d r := by
  unfold ceServe
  split_ifs
  · have hs : SameRecv d (d.signal (.user r)) := sameRecv_setReq d _ fun _ => ⟨rfl, rfl⟩
    obtain ⟨pool, he⟩ := freeData_some env (h.of_eq (d.signal (.user r)) rfl rfl fun _ => rfl)
    exact ⟨(d.signal (.user r)).setPool pool, by rw [lciCeSignal, hr]; exact he, ⟨hs.mem, hs.req⟩, rfl⟩
  · have hs : SameRecv d (d.setParent (.user r) p) := sameRecv_setReq d _ fun _ => ⟨rfl, rfl⟩
    have hq : cqPush (d.eps ep).cq (.user r) = some ((d.eps ep).cq ++ [.user r]) := if_pos (h.cq ep)
    exact ⟨(d.setParent (.user r) p).setCq ep ((d.eps ep).cq ++ [.user r]), by rw [lciCeQueue, hr, hq]; rfl,
      ⟨hs.mem, hs.req⟩, rfl⟩
  · obtain ⟨pool, he⟩ := freeData_some env (h.of_eq (d.event (.handler ep (.user r))) rfl rfl fun _ => rfl)
    refine ⟨(d.event (.handler ep (.user r))).setPool pool, by rw [lciCeAm, hr]; exact he,
      ⟨rfl, fun _ => ⟨rfl, rfl⟩⟩, ?_⟩
    simp [completions, Dev.event, Dev.setPool, List.countP_append]
  · obtain ⟨pool, he⟩ := freeData_some env h
    exact ⟨d.setPool pool, he, ⟨rfl, fun _ => ⟨rfl, rfl⟩⟩, rfl⟩

/-- The completion of a packet on any endpoint: one event, and the receives as they were. -/
theorem dispatch_some (env : Env) {d : Dev} (ep : Nat) {p : PktId} (h : Room d p) {r : ReqId}
    (hr : d.reqPtr p = .user r) : ∃ d', lciCeDispatch env d ep p = some d' ∧ SameRecv d d' ∧
      completions d' r = completions d r + 1 := by
  let v : Event := .completed ep (d.reqPtr p) (d.pk p).data
  obtain ⟨d', he, hs, hc⟩ := ceServe_some env ep (h.of_eq (d.event v) rfl rfl fun _ => rfl) hr
  have hcv : completions (d.event v) r = completions d r + 1 := by
    simp [completions, Dev.event, v, hr, List.countP_append]
  refine ⟨if d'.build.hasGlob ∧ (d'.eps ep).glob then lciCeGlob d' ep else d', by rw [lciCeDispatch, he]; rfl, ?_, ?_⟩
  · split_ifs
    · exact ⟨hs.mem, hs.req⟩
    · exact ⟨hs.mem, hs.req⟩
  · split_ifs
    · exact hc.trans hcv
    · exact hc.trans hcv

/-! ## Before the match -/

/-- The device after the first lines of the call that posts the receive. -/
def posting (d : Dev) (x : Posting) : Dev :=
  match x.call with
  | .recvm => lciInitReq d (.mem x.src) x.size (.user x.req)
  | _ => (lciInitReq d (.mem x.src) x.size (.user x.req)).setRhandle (.user x.req) x.rank

/-- The rest of the call, once the receive has found packet `p`. -/
def recvFound (env : Env) (x : Posting) (d : Dev) (p : PktId) : Option Dev :=
  match x.call with
  | .recv => if (d.pk p).context.proto = .rts then some (recvRts d x.ep x.req p) else recvData env d x.src x.ep x.req p
  | .recvm => recvData env d x.src x.ep x.req p
  | .recvl => some (recvRts d x.ep x.req p)

theorem postRecv_eq (env : Env) (d : Dev) (x : Posting) :
    postRecv env d x = recvMatch (posting d x) x.rank x.tag x.ep x.req (recvFound env x) := by
  unfold postRecv posting recvFound
  cases x.call <;> rfl

/-- A posted receive asks for `size` bytes at `src`; the rest of the device is as it was. -/
theorem posting_spec (d : Dev) (x : Posting) :
    (posting d x).eps = d.eps ∧ (posting d x).mem = d.mem ∧ (posting d x).events = d.events ∧
      (posting d x).pool = d.pool ∧ (posting d x).pk = d.pk ∧ ((posting d x).req x.req).buffer = .mem x.src ∧
      ((posting d x).req x.req).size = x.size := by
  unfold posting
  cases x.call <;> simp [lciInitReq, Dev.setRhandle, Dev.setReq]

/-- The device when `lci_serve_recv_expl` looks in the table. -/
def looking (d : Dev) (p : PktId) (x : Posting) (m : Incoming) : Dev :=
  ((arrived d p x m).setMeta (.own p) x.tag).setProto p m.proto

/-- What `lci_serve_recv_expl` does with the packet of a message. -/
def pktFound (env : Env) (x : Posting) (p : PktId) (m : Incoming) (d : Dev) (r : ReqId) : Option Dev :=
  match m with
  | .eager _ => explData env d x.ep p r
  | .rendezvous _ _ => some (explRts d x.ep p r)

theorem arrive_eq (env : Env) {d : Dev} {p : PktId} {x : Posting} (h : Ready d p x) {D : Dev}
    (heps : (D.eps x.ep).ar = (d.eps x.ep).ar) (hb : D.build = d.build) (m : Incoming) :
    arrive env D p x m = explMatch (looking D p x m) x.ep p (pktFound env x p m) := by
  have hg : (BitVec.ofNat 32 x.ep).toNat = x.ep := by
    have := h.ep_lt
    rw [BitVec.toNat_ofNat, Nat.mod_eq_of_lt (by omega)]
  have hg' : (BitVec.ofNat 32 x.ep).toNat < 2 ^ 14 := by rw [hg]; exact h.ep_lt
  have hmeta : protoGetMeta (makeProto (BitVec.ofNat 32 x.ep) m.proto x.tag) = x.tag := by
    apply BitVec.eq_of_toNat_eq
    rw [protoGetMeta_toNat hg', Nat.mod_eq_of_lt h.tag_lt]
  have hexp : (arrived D p x m).build.hasAr .exp = true ∧ ((arrived D p x m).eps x.ep).ar = .exp :=
    ⟨by rw [← h.exp.1, ← hb]; rfl, by rw [← h.exp.2, ← heps]; rfl⟩
  have hreq : (arrived D p x m).reqPtr p = .own p := by
    simp [arrived, Dev.reqPtr, Dev.setReqPtr, Dev.setReq, Dev.setCtx]
  unfold arrive lciServeRecv lciServeRecvDispatch
  rw [protoGetRgid_makeProto hg', hg, if_pos hexp]
  unfold lciServeRecvExpl
  rw [hmeta, protoGetProto_makeProto hg', protoOfBits_bits, hreq]
  cases m <;> rfl

/-! ## After the match -/

/-- The packet and the receive have met on `D`, in a run from `d`. -/
structure Met (d D : Dev) (p : PktId) (x : Posting) (m : Incoming) : Prop where
  events : D.events = d.events
  room : Room D p
  buffer : (D.req x.req).buffer = .mem x.src
  size : (D.req x.req).size = x.size
  data : (D.pk p).data = m.data
  proto : (D.pk p).context.proto = m.proto
  reqPtr : D.reqPtr p = .own p
  wireLen : (D.pk p).context.reqS.size = m.wireLen

theorem Ready.room {d : Dev} {p : PktId} {x : Posting} (h : Ready d p x) : Room d p := ⟨h.tls, h.deques, h.poolid, h.cq⟩

/-- The packet of a message that is looked up has its rank and tag in its request. -/
theorem looking_spec (d : Dev) (p : PktId) (x : Posting) (m : Incoming) :
    (looking d p x m).reqPtr p = .own p ∧ ((looking d p x m).pk p).context.reqS.size = m.wireLen ∧
      ((looking d p x m).pk p).data = m.data ∧ ((looking d p x m).pk p).context.proto = m.proto ∧
      ((looking d p x m).pk p).context.poolid = (d.pk p).context.poolid ∧
      ((looking d p x m).reqOf p).rank = x.rank ∧ ((looking d p x m).reqOf p).metaVal = x.tag := by
  simp [looking, arrived, Dev.reqPtr, Dev.reqOf, Dev.getReq, Dev.setReqPtr, Dev.setProto, Dev.setMeta, Dev.setReq,
    Dev.setCtx, Dev.setData]

theorem explInsert_looking {d : Dev} {p : PktId} {x : Posting} {m : Incoming} :
    explInsert (looking d p x m) x.ep p =
      lcHashInsert .null (d.eps x.ep).tbl (pktEntry x p).key (pktEntry x p).val (pktEntry x p).side := by
  obtain ⟨-, -, -, -, -, hr, ht⟩ := looking_spec d p x m
  unfold explInsert
  rw [hr, ht]
  rfl

theorem setTbl_tbl (d : Dev) (e : Nat) (t : Table Ptr) : ((d.setTbl e t).eps e).tbl = t := by
  simp [Dev.setTbl, Dev.setEp]

theorem setTbl_cq (d : Dev) (e : Nat) (t : Table Ptr) (e' : Nat) :
    ((d.setTbl e t).eps e').cq = (d.eps e').cq ∧ ((d.setTbl e t).eps e').ar = (d.eps e').ar := by
  by_cases h : e' = e
  · subst h
    simp [Dev.setTbl, Dev.setEp]
  · simp [Dev.setTbl, Dev.setEp, h]

/-- What looking a packet up leaves of the rest of the device. -/
theorem looking_rest (d : Dev) (p : PktId) (x : Posting) (m : Incoming) :
    (looking d p x m).eps = d.eps ∧ (looking d p x m).events = d.events ∧ (looking d p x m).pool = d.pool ∧
      (looking d p x m).req = d.req := by
  simp [looking, arrived, Dev.setReqPtr, Dev.setProto, Dev.setMeta, Dev.setReq, Dev.setCtx, Dev.setData]

theorem setTbl_rest (d : Dev) (e : Nat) (t : Table Ptr) :
    (d.setTbl e t).events = d.events ∧ (d.setTbl e t).pool = d.pool ∧ (d.setTbl e t).req = d.req ∧
      (d.setTbl e t).pk = d.pk ∧ (d.setTbl e t).build = d.build := by
  simp [Dev.setTbl, Dev.setEp]

/-- Nothing is written before the packet and the receive meet. -/
theorem looking_mem (d : Dev) (p : PktId) (x : Posting) (m : Incoming) : (looking d p x m).mem = d.mem := by
  simp [looking, arrived, Dev.setReqPtr, Dev.setProto, Dev.setMeta, Dev.setReq, Dev.setCtx, Dev.setData]

theorem setTbl_mem (d : Dev) (e : Nat) (t : Table Ptr) : (d.setTbl e t).mem = d.mem := rfl

/-- The message has found the receive, whatever the table is now. -/
theorem met_recvFirst {d : Dev} {p : PktId} {x : Posting} (h : Ready d p x) (m : Incoming) (t t' : Table Ptr) :
    Met d ((looking ((posting d x).setTbl x.ep t) p x m).setTbl x.ep t') p x m := by
  obtain ⟨heps, -, hev, hpool, hpk, hbuf, hsize⟩ := posting_spec d x
  obtain ⟨t1, t2, t3, t4, -⟩ := setTbl_rest (posting d x) x.ep t
  generalize hD : (posting d x).setTbl x.ep t = D at t1 t2 t3 t4
  obtain ⟨h1, h2, h3, h4, h5, -, -⟩ := looking_spec D p x m
  obtain ⟨l1, l2, l3, l4⟩ := looking_rest D p x m
  generalize looking D p x m = E at h1 h2 h3 h4 h5 l1 l2 l3 l4
  obtain ⟨s1, s2, s3, s4, -⟩ := setTbl_rest E x.ep t'
  refine ⟨by rw [s1, l2, t1, hev], ?_, by rw [s3, l4, t3, hbuf], by rw [s3, l4, t3, hsize], by rw [s4, h3],
    by rw [s4, h4], by rw [Dev.reqPtr, s4]; exact h1, by rw [s4, h2]⟩
  refine h.room.of_eq _ (by rw [s2, l3, t2, hpool]) (by rw [s4, h5, t4, hpk]) fun e => ?_
  rw [(setTbl_cq _ _ _ _).1, l1, ← hD, (setTbl_cq _ _ _ _).1, heps]

/-- The receive has found the message, whatever the table is now. -/
theorem met_msgFirst {d : Dev} {p : PktId} {x : Posting} (h : Ready d p x) (m : Incoming) (t t' : Table Ptr) :
    Met d ((posting ((looking d p x m).setTbl x.ep t) x).setTbl x.ep t') p x m := by
  obtain ⟨h1, h2, h3, h4, h5, -, -⟩ := looking_spec d p x m
  obtain ⟨l1, l2, l3, -⟩ := looking_rest d p x m
  generalize looking d p x m = E at h1 h2 h3 h4 h5 l1 l2 l3
  obtain ⟨t1, t2, -, t4, -⟩ := setTbl_rest E x.ep t
  generalize hD : E.setTbl x.ep t = D at t1 t2 t4
  obtain ⟨heps, -, hev, hpool, hpk, hbuf, hsize⟩ := posting_spec D x
  generalize posting D x = F at heps hev hpool hpk hbuf hsize
  obtain ⟨s1, s2, s3, s4, -⟩ := setTbl_rest F x.ep t'
  refine ⟨by rw [s1, hev, t1, l2], ?_, by rw [s3, hbuf], by rw [s3, hsize], by rw [s4, hpk, t4, h3],
    by rw [s4, hpk, t4, h4], by rw [Dev.reqPtr, s4, hpk, t4]; exact h1, by rw [s4, hpk, t4, h2]⟩
  refine h.room.of_eq _ (by rw [s2, hpool, t2, l3]) (by rw [s4, hpk, t4, h5]) fun e => ?_
  rw [(setTbl_cq _ _ _ _).1, heps, ← hD, (setTbl_cq _ _ _ _).1, l1]

theorem recvMatch_stored {d : Dev} {rank tag : CInt} {ep : Nat} {r : ReqId} (k : Dev → PktId → Option Dev)
    (h : (recvInsert d rank tag ep r).ret = 1) :
    recvMatch d rank tag ep r k = some (d.setTbl ep (recvInsert d rank tag ep r).table) := by
  unfold recvMatch
  exact if_neg (by rw [h]; decide)

theorem recvMatch_found {d : Dev} {rank tag : CInt} {ep : Nat} {r : ReqId} (k : Dev → PktId → Option Dev) {p : PktId}
    (h : (recvInsert d rank tag ep r).ret = 0) (hv : (recvInsert d rank tag ep r).value = .pkt p) :
    recvMatch d rank tag ep r k = k (d.setTbl ep (recvInsert d rank tag ep r).table) p := by
  unfold recvMatch
  dsimp only
  rw [if_pos h, hv]

theorem explMatch_stored {d : Dev} {ep : Nat} {p : PktId} (k : Dev → ReqId → Option Dev)
    (h : (explInsert d ep p).ret = 1) : explMatch d ep p k = some (d.setTbl ep (explInsert d ep p).table) := by
  unfold explMatch
  exact if_neg (by rw [h]; decide)

theorem explMatch_found {d : Dev} {ep : Nat} {p : PktId} (k : Dev → ReqId → Option Dev) {r : ReqId}
    (h : (explInsert d ep p).ret = 0) (hv : (explInsert d ep p).value = .req r) :
    explMatch d ep p k = k (d.setTbl ep (explInsert d ep p).table) r := by
  unfold explMatch
  dsimp only
  rw [if_pos h, hv]

theorem recvInsert_posting (d : Dev) (x : Posting) : recvInsert (posting d x) x.rank x.tag x.ep x.req =
    lcHashInsert .null (d.eps x.ep).tbl (recvEntry x).key (recvEntry x).val (recvEntry x).side := by
  unfold recvInsert
  rw [(posting_spec d x).1]
  rfl

theorem recvFirst_eq (env : Nat → Env) (rtrFirst : Bool) (d : Dev) (p : PktId) (x : Posting) (m : Incoming) :
    recvFirst env rtrFirst d p x m = ((postRecv (env 0) d x).bind fun d => arrive (env 1) d p x m).bind fun d =>
      finish (env 2) (env 3) rtrFirst d p m := by
  rw [Option.bind_assoc]
  rfl

theorem msgFirst_eq (env : Nat → Env) (rtrFirst : Bool) (d : Dev) (p : PktId) (x : Posting) (m : Incoming) :
    msgFirst env rtrFirst d p x m = ((arrive (env 0) d p x m).bind fun d => postRecv (env 1) d x).bind fun d =>
      finish (env 2) (env 3) rtrFirst d p m := by
  rw [Option.bind_assoc]
  rfl

/-- The receive is posted first: it is stored, and the message finds it. -/
theorem recvFirst_met {d : Dev} {p : PktId} {x : Posting} (h : Ready d p x) (m : Incoming) (env : Nat → Env) :
    ∃ D, Met d D p x m ∧ D.mem = d.mem ∧
      ((postRecv (env 0) d x).bind fun d => arrive (env 1) d p x m) = pktFound (env 1) x p m D x.req := by
  obtain ⟨q, hq, hfree⟩ := h.table
  have hi := recvInsert_posting d x
  obtain ⟨hr, ht⟩ := insert_first hq (c := recvEntry x) h.validKey hfree
  rw [← hi] at hr ht
  have hpost := postRecv_eq (env 0) d x
  rw [recvMatch_stored _ hr] at hpost
  generalize (recvInsert (posting d x) x.rank x.tag x.ep x.req).table = t at hpost ht
  have harr := arrive_eq (env 1) h (D := (posting d x).setTbl x.ep t)
    (by rw [(setTbl_cq _ _ _ _).2, (posting_spec d x).1]) (by unfold posting; cases x.call <;> rfl) m
  have hi' : explInsert (looking ((posting d x).setTbl x.ep t) p x m) x.ep p =
      lcHashInsert .null t (pktEntry x p).key (pktEntry x p).val (pktEntry x p).side := by
    rw [explInsert_looking, setTbl_tbl]
  obtain ⟨hr', hv'⟩ := insert_second ht (c := pktEntry x p) h.validKey hfree ⟨rfl, rfl⟩
  rw [← hi'] at hr' hv'
  rw [explMatch_found _ hr' hv'] at harr
  generalize (explInsert (looking ((posting d x).setTbl x.ep t) p x m) x.ep p).table = t' at harr
  refine ⟨(looking ((posting d x).setTbl x.ep t) p x m).setTbl x.ep t', met_recvFirst h m t t',
    by rw [setTbl_mem, looking_mem, setTbl_mem, (posting_spec d x).2.1], ?_⟩
  rw [hpost, Option.bind_some, harr]

/-- The message arrives first: it is stored, and the receive finds it. -/
theorem msgFirst_met {d : Dev} {p : PktId} {x : Posting} (h : Ready d p x) (m : Incoming) (env : Nat → Env) :
    ∃ D, Met d D p x m ∧ D.mem = d.mem ∧
      ((arrive (env 0) d p x m).bind fun d => postRecv (env 1) d x) = recvFound (env 1) x D p := by
  obtain ⟨q, hq, hfree⟩ := h.table
  have hi : explInsert (looking d p x m) x.ep p = _ := explInsert_looking
  obtain ⟨hr, ht⟩ := insert_first hq (c := pktEntry x p) h.validKey hfree
  rw [← hi] at hr ht
  have harr := arrive_eq (env 0) h (D := d) rfl rfl m
  rw [explMatch_stored _ hr] at harr
  generalize (explInsert (looking d p x m) x.ep p).table = t at harr ht
  have hpost := postRecv_eq (env 1) ((looking d p x m).setTbl x.ep t) x
  have hi' := recvInsert_posting ((looking d p x m).setTbl x.ep t) x
  rw [setTbl_tbl] at hi'
  obtain ⟨hr', hv'⟩ := insert_second ht (c := recvEntry x) h.validKey hfree ⟨rfl, rfl⟩
  rw [← hi'] at hr' hv'
  rw [recvMatch_found _ hr' hv'] at hpost
  generalize (recvInsert (posting ((looking d p x m).setTbl x.ep t) x) x.rank x.tag x.ep x.req).table = t' at hpost
  refine ⟨(posting ((looking d p x m).setTbl x.ep t) x).setTbl x.ep t', met_msgFirst h m t t',
    by rw [setTbl_mem, (posting_spec _ x).2.1, setTbl_mem, looking_mem], ?_⟩
  rw [harr, Option.bind_some, hpost]

/-! ## The eager path -/

theorem completions_eq {d d' : Dev} (h : d'.events = d.events) (r : ReqId) : completions d' r = completions d r := by
  unfold completions
  rw [h]

/-- A packet whose message is in the buffer, its receive being the request of its context. -/
theorem endsWell_dispatch {d E : Dev} {p : PktId} {x : Posting} {m : Incoming} (env : Env) (hroom : Room E p)
    (hev : E.events = d.events) (hmem : ∃ mem, E.mem = writeMem mem x.src m.bytes)
    (hbuf : (E.req x.req).buffer = .mem x.src) (hsize : (E.req x.req).size = m.bytes.length) :
    ∃ d', lciCeDispatch env (E.setReqPtr p (.user x.req)) x.ep p = some d' ∧ d'.mem = E.mem ∧
      EndsWell d x m (some d') := by
  have hroom' : Room (E.setReqPtr p (.user x.req)) p :=
    hroom.of_eq _ rfl (by simp [Dev.setReqPtr, Dev.setCtx]) fun _ => rfl
  obtain ⟨d', he, hs, hc⟩ :=
    dispatch_some env x.ep hroom' (r := x.req) (by simp [Dev.reqPtr, Dev.setReqPtr, Dev.setCtx])
  obtain ⟨mem, hmem⟩ := hmem
  refine ⟨d', he, hs.mem, d', rfl, ?_, (hs.req _).1.trans hbuf, (hs.req _).2.trans hsize, hc.trans ?_⟩
  · rw [hs.mem]
    exact (congrArg (readMem · x.src m.bytes.length) hmem).trans (readMem_writeMem _ _ _)
  · exact congrArg (· + 1) (completions_eq (show (E.setReqPtr p (.user x.req)).events = d.events from hev) x.req)

theorem reqOf_own {D : Dev} {p : PktId} (h : D.reqPtr p = .own p) : D.reqOf p = (D.pk p).context.reqS := by
  unfold Dev.reqOf
  rw [h]
  rfl

/-- The message has found the receive, or the receive the message. -/
theorem eager_explData {d D : Dev} {p : PktId} {x : Posting} {bytes : List Byte} (h : Met d D p x (.eager bytes))
    (env : Env) : ∃ d', explData env D x.ep p x.req = some d' ∧ d'.mem = writeMem D.mem x.src bytes ∧
      EndsWell d x (.eager bytes) (some d') := by
  have hlen : (D.reqOf p).size = bytes.length := by rw [reqOf_own h.reqPtr]; exact h.wireLen
  have hdata : (D.pk p).data = .buffer bytes := h.data
  unfold explData
  dsimp only
  rw [hlen]
  have hbuf : ((D.setSize (.user x.req) bytes.length).req x.req).buffer = .mem x.src := by
    simp [Dev.setSize, Dev.setReq, h.buffer]
  have hb : ((D.setSize (.user x.req) bytes.length).pk p).data.bytes.take bytes.length = bytes := by
    rw [show (D.setSize (.user x.req) bytes.length).pk p = D.pk p from rfl, hdata]
    exact List.take_length
  rw [hbuf, hb]
  refine endsWell_dispatch env ?_ h.events ⟨D.mem, rfl⟩ hbuf ?_
  · exact h.room.of_eq _ rfl rfl fun _ => rfl
  · simp [Dev.setSize, Dev.setReq, Incoming.bytes]

theorem eager_recvData {d D : Dev} {p : PktId} {x : Posting} {bytes : List Byte} (h : Met d D p x (.eager bytes))
    (env : Env) : ∃ d', recvData env D x.src x.ep x.req p = some d' ∧ d'.mem = writeMem D.mem x.src bytes ∧
      EndsWell d x (.eager bytes) (some d') := by
  have hlen : (D.reqOf p).size = bytes.length := by rw [reqOf_own h.reqPtr]; exact h.wireLen
  have hdata : (D.pk p).data = .buffer bytes := h.data
  have hb : (D.pk p).data.bytes.take (D.reqOf p).size = bytes := by
    rw [hlen, hdata]
    exact List.take_length
  unfold recvData
  rw [hb]
  let E : Dev := { D with mem := writeMem D.mem x.src bytes }
  have hlenE : (E.reqOf p).size = bytes.length := by
    rw [← hlen]
    unfold Dev.reqOf Dev.getReq Dev.reqPtr
    rfl
  refine endsWell_dispatch (E := E.setSize (.user x.req) (E.reqOf p).size) env ?_ h.events ⟨D.mem, rfl⟩ ?_ ?_
  · exact h.room.of_eq _ rfl rfl fun _ => rfl
  · simp [Dev.setSize, Dev.setReq, E, h.buffer]
  · rw [hlenE]
    simp [Dev.setSize, Dev.setReq, Incoming.bytes]

/-! ## The rendezvous path -/

/-- A registration leaves the packets, the receives and the pool alone. -/
theorem rmaReg_rest (d : Dev) (buf : Buf) (size : Nat) :
    (lcServerRmaReg d buf size).2.mem = d.mem ∧ (lcServerRmaReg d buf size).2.req = d.req ∧
      (lcServerRmaReg d buf size).2.events = d.events ∧ (lcServerRmaReg d buf size).2.pool = d.pool ∧
      (lcServerRmaReg d buf size).2.eps = d.eps ∧ (lcServerRmaReg d buf size).2.pk = d.pk := by
  unfold lcServerRmaReg
  cases d.backend <;> simp [ibvRmaReg, psm2RmaReg, lcServerGetFreeKey, lcServerPostRecvRma]

theorem handleRts_mem (d : Dev) (ep : Nat) (p : PktId) : (lciHandleRts d ep p).mem = d.mem :=
  (rmaReg_rest (lciPkInit d ep (-1) .rtr p) (d.reqOf p).buffer (d.pk p).data.view.size).1

/-- Packet `p` waits for `ref` more completions on endpoint `ep`, the write of `len` bytes going to `src`. -/
structure Waiting (d D : Dev) (p : PktId) (x : Posting) (len size : Nat) (ref : Int) : Prop where
  events : D.events = d.events
  room : Room D p
  buffer : (D.req x.req).buffer = .mem x.src
  size : (D.req x.req).size = size
  req : D.reqPtr p = .user x.req
  proto : (D.pk p).context.proto = .rtr
  ep : (D.pk p).context.ep = x.ep
  ref : (D.pk p).context.ref = ref
  tgt : (D.pk p).data.view.tgtAddr = .mem x.src
  len : (D.pk p).data.view.size = len

/-- `lci_handle_rts` on a packet that has its receive. -/
theorem handleRts_waiting {d D : Dev} {p : PktId} {x : Posting} {size : Nat} (hev : D.events = d.events)
    (hroom : Room D p) (hbuf : (D.req x.req).buffer = .mem x.src) (hsize : (D.req x.req).size = size) :
    Waiting d (lciHandleRts (D.setReqPtr p (.user x.req)) x.ep p) p x (D.pk p).data.view.size size 2 := by
  have hreq : ((D.setReqPtr p (.user x.req)).reqOf p).buffer = .mem x.src := by
    simpa [Dev.reqOf, Dev.getReq, Dev.reqPtr, Dev.setReqPtr, Dev.setCtx] using hbuf
  unfold lciHandleRts lcServerSendm lciPrepareRtr
  rw [hreq]
  dsimp only
  generalize hF : lciPkInit (D.setReqPtr p (.user x.req)) x.ep (-1) .rtr p = F
  generalize ((D.setReqPtr p (.user x.req)).pk p).data.view.size = n
  have hFc : (F.pk p).context.req = .user x.req ∧ (F.pk p).context.proto = .rtr ∧ (F.pk p).context.ep = x.ep ∧
      (F.pk p).context.poolid = -1 ∧ (F.pk p).data = (D.pk p).data := by
    rw [← hF]
    simp [lciPkInit, Dev.setReqPtr, Dev.setCtx]
  have hFr : F.events = D.events ∧ F.pool = D.pool ∧ F.eps = D.eps ∧ F.req = D.req := by
    rw [← hF]
    simp [lciPkInit, Dev.setReqPtr, Dev.setCtx]
  obtain ⟨-, r2, r3, r4, r5, r6⟩ := rmaReg_rest F (.mem x.src) n
  generalize (lcServerRmaReg F (.mem x.src) n).1 = rkey
  generalize (lcServerRmaReg F (.mem x.src) n).2 = G at r2 r3 r4 r5 r6
  refine ⟨?_, ⟨?_, ?_, .inl ?_, fun e => ?_⟩, ?_, ?_, ?_, ?_, ?_, ?_, ?_, ?_⟩
  · simpa [postSend, Dev.setData, Dev.setCtx] using r3.trans (hFr.1.trans hev)
  · have : G.pool = D.pool := r4.trans hFr.2.1
    simpa [postSend, Dev.setData, Dev.setCtx, this] using hroom.tls
  · have : G.pool = D.pool := r4.trans hFr.2.1
    simpa [postSend, Dev.setData, Dev.setCtx, this] using hroom.deques
  · simpa [postSend, Dev.setData, Dev.setCtx, r6] using hFc.2.2.2.1
  · have : G.eps = D.eps := r5.trans hFr.2.2.1
    simpa [postSend, Dev.setData, Dev.setCtx, this] using hroom.cq e
  · have : G.req = D.req := r2.trans hFr.2.2.2
    simpa [postSend, Dev.setData, Dev.setCtx, this] using hbuf
  · have : G.req = D.req := r2.trans hFr.2.2.2
    simpa [postSend, Dev.setData, Dev.setCtx, this] using hsize
  · simpa [postSend, Dev.setData, Dev.setCtx, Dev.reqPtr, r6] using hFc.1
  · simpa [postSend, Dev.setData, Dev.setCtx, r6] using hFc.2.1
  · simpa [postSend, Dev.setData, Dev.setCtx, r6] using hFc.2.2.1
  · simp [postSend, Dev.setData, Dev.setCtx]
  · simp [postSend, Dev.setData, Dev.setCtx, PkData.view]
  · have hdata := hFc.2.2.2.2
    rw [← r6] at hdata
    rw [← hdata]
    simp [postSend, Dev.setData, Dev.setCtx, PkData.view]

namespace Waiting

variable {d D : Dev} {p : PktId} {x : Posting} {len size : Nat} {ref : Int}

/-- An update that keeps what is waited for. -/
theorem of_eq (h : Waiting d D p x len size ref) (D' : Dev) (hpk : D'.pk = D.pk) (hreq : D'.req = D.req)
    (hev : D'.events = D.events) (hpool : D'.pool = D.pool) (heps : D'.eps = D.eps) : Waiting d D' p x len size ref :=
  ⟨hev.trans h.events, h.room.of_eq _ hpool (by rw [hpk]) fun e => by rw [heps], by rw [hreq]; exact h.buffer,
    by rw [hreq]; exact h.size, by rw [Dev.reqPtr, hpk]; exact h.req, by rw [hpk]; exact h.proto,
    by rw [hpk]; exact h.ep, by rw [hpk]; exact h.ref, by rw [hpk]; exact h.tgt, by rw [hpk]; exact h.len⟩

/-- The first of two completions. -/
theorem decRef_first (h : Waiting d D p x len size 2) (env : Env) :
    ∃ D', decRef env D p = some D' ∧ D'.mem = D.mem ∧ Waiting d D' p x len size 1 := by
  have href : ((D.setCtx p fun c => { c with ref := c.ref - 1 }).pk p).context.ref = 1 := by
    simp [Dev.setCtx, h.ref]
  refine ⟨D.setCtx p fun c => { c with ref := c.ref - 1 }, ?_, rfl, ?_⟩
  · unfold decRef
    dsimp only
    rw [href]
    rfl
  · refine ⟨h.events, h.room.of_eq _ rfl (by simp [Dev.setCtx]) fun _ => rfl, h.buffer, h.size, ?_, ?_, ?_, href, ?_,
      ?_⟩
    · simpa [Dev.reqPtr, Dev.setCtx] using h.req
    · simpa [Dev.setCtx] using h.proto
    · simpa [Dev.setCtx] using h.ep
    · simpa [Dev.setCtx] using h.tgt
    · simpa [Dev.setCtx] using h.len

/-- The second of two completions raises the event of the receive. -/
theorem decRef_second (h : Waiting d D p x len size 1) (env : Env) :
    ∃ D', decRef env D p = some D' ∧ SameRecv D D' ∧ completions D' x.req = completions d x.req + 1 := by
  have href : ((D.setCtx p fun c => { c with ref := c.ref - 1 }).pk p).context.ref = 0 := by
    simp [Dev.setCtx, h.ref]
  have hep : ((D.setCtx p fun c => { c with ref := c.ref - 1 }).pk p).context.ep = x.ep := by
    simpa [Dev.setCtx] using h.ep
  have hroom : Room (D.setCtx p fun c => { c with ref := c.ref - 1 }) p :=
    h.room.of_eq _ rfl (by simp [Dev.setCtx]) fun _ => rfl
  obtain ⟨D', he, hs, hc⟩ := dispatch_some env x.ep hroom (r := x.req) (by simpa [Dev.reqPtr, Dev.setCtx] using h.req)
  refine ⟨D', ?_, ⟨hs.mem, hs.req⟩, hc.trans (congrArg (· + 1) (completions_eq h.events x.req))⟩
  unfold decRef
  dsimp only
  rw [if_pos href, hep, he]

theorem serveSend_eq (h : Waiting d D p x len size ref) (env : Env) :
    lciServeSend env { D with sends := D.sends.erase p } p = decRef env { D with sends := D.sends.erase p } p := by
  unfold lciServeSend
  rw [show (({ D with sends := D.sends.erase p } : Dev).pk p).context.proto = .rtr from h.proto]

/-- The rest of a rendezvous, in either order of its two completions. -/
theorem finish (h : Waiting d D p x len size 2) (env env' : Env) (rtrFirst : Bool) (rts : Rdz) (bytes : List Byte) :
    ∃ D', Server.finish env env' rtrFirst D p (.rendezvous rts bytes) = some D' ∧
      D'.mem = writeMem D.mem x.src (bytes.take (rmaLen len)) ∧ (D'.req x.req).buffer = .mem x.src ∧
      (D'.req x.req).size = size ∧ completions D' x.req = completions d x.req + 1 := by
  have hwrite : ∀ {E : Dev} {k : Int}, Waiting d E p x len size k →
      rdmaWrite E p bytes = some { E with mem := writeMem E.mem x.src (bytes.take (rmaLen len)) } := fun hE => by
    unfold rdmaWrite
    rw [hE.tgt, hE.len]
    rfl
  unfold Server.finish
  dsimp only
  cases rtrFirst with
  | true =>
    rw [if_pos rfl, h.serveSend_eq]
    obtain ⟨D₁, h₁, hm₁, hw₁⟩ := (h.of_eq { D with sends := D.sends.erase p } rfl rfl rfl rfl rfl).decRef_first env
    have hw₂ : Waiting d (lcServerRmaDereg { D₁ with mem := writeMem D₁.mem x.src (bytes.take (rmaLen len)) }
        (D₁.pk p).context.rmaMem) p x len size 1 := hw₁.of_eq _ rfl rfl rfl rfl rfl
    obtain ⟨D₂, h₂, hs, hc⟩ := hw₂.decRef_second env'
    refine ⟨D₂, ?_, ?_, (hs.req _).1.trans hw₂.buffer, (hs.req _).2.trans hw₂.size, hc⟩
    · rw [h₁, Option.bind_eq_bind, Option.bind_some, hwrite hw₁]
      exact h₂
    · rw [hs.mem]
      exact congrArg (writeMem · x.src (bytes.take (rmaLen len))) hm₁
  | false =>
    rw [if_neg Bool.false_ne_true, hwrite h, Option.bind_eq_bind, Option.bind_some]
    have hw₁ : Waiting d (lcServerRmaDereg { D with mem := writeMem D.mem x.src (bytes.take (rmaLen len)) }
        (D.pk p).context.rmaMem) p x len size 2 := h.of_eq _ rfl rfl rfl rfl rfl
    obtain ⟨D₁, h₁, hm₁, hw₁⟩ := hw₁.decRef_first env
    have h₁ : lciServeImm env { D with mem := writeMem D.mem x.src (bytes.take (rmaLen len)) } p = some D₁ := h₁
    obtain ⟨D₂, h₂, hs, hc⟩ :=
      (hw₁.of_eq { D₁ with sends := D₁.sends.erase p } rfl rfl rfl rfl rfl).decRef_second env'
    refine ⟨D₂, ?_, ?_, (hs.req _).1.trans hw₁.buffer, (hs.req _).2.trans hw₁.size, hc⟩
    · rw [h₁, Option.bind_some, hw₁.serveSend_eq]
      exact h₂
    · rw [hs.mem]
      exact hm₁

end Waiting

/-- The size that the request of a receive has in the end when the receive was posted first. -/
theorem recvFirst_rendezvous {d : Dev} {p : PktId} {x : Posting} (h : Ready d p x) (rts : Rdz) (bytes : List Byte)
    (env : Nat → Env) (rtrFirst : Bool) :
    ∃ D', recvFirst env rtrFirst d p x (.rendezvous rts bytes) = some D' ∧
      D'.mem = writeMem d.mem x.src (bytes.take (rmaLen rts.size)) ∧ (D'.req x.req).buffer = .mem x.src ∧
        (D'.req x.req).size = x.size ∧
      completions D' x.req = completions d x.req + 1 := by
  obtain ⟨D, hm, hmem, he⟩ := recvFirst_met h (.rendezvous rts bytes) env
  have hE : (lciHandleRts (D.setReqPtr p (.user x.req)) x.ep p).mem = d.mem := (handleRts_mem _ _ _).trans hmem
  have hw := handleRts_waiting hm.events hm.room hm.buffer hm.size
  rw [show (D.pk p).data = .rdz rts from hm.data] at hw
  rw [recvFirst_eq, he, ← hE]
  exact hw.finish (env 2) (env 3) rtrFirst rts bytes

/-- A receive that finds an RTS goes on with the rendezvous. -/
theorem recvFound_rts {d D : Dev} {p : PktId} {x : Posting} {rts : Rdz} {bytes : List Byte}
    (hp : x.call.Pairs (.rendezvous rts bytes)) (hm : Met d D p x (.rendezvous rts bytes)) {env : Env} :
    recvFound env x D p = some (recvRts D x.ep x.req p) := by
  have hproto : (D.pk p).context.proto = .rts := hm.proto
  unfold recvFound
  cases hcall : x.call with
  | recv => exact if_pos hproto
  | recvm => rw [hcall] at hp; exact hp.elim
  | recvl => rfl

/-- And when the message arrived first. -/
theorem msgFirst_rendezvous {d : Dev} {p : PktId} {x : Posting} (h : Ready d p x) {rts : Rdz} {bytes : List Byte}
    (hp : x.call.Pairs (.rendezvous rts bytes)) (env : Nat → Env) (rtrFirst : Bool) :
    ∃ D', msgFirst env rtrFirst d p x (.rendezvous rts bytes) = some D' ∧
      D'.mem = writeMem d.mem x.src (bytes.take (rmaLen rts.size)) ∧ (D'.req x.req).buffer = .mem x.src ∧
        (D'.req x.req).size = rts.size ∧
      completions D' x.req = completions d x.req + 1 := by
  obtain ⟨D, hm, hmem, he⟩ := msgFirst_met h (.rendezvous rts bytes) env
  have hdata : (D.pk p).data = .rdz rts := hm.data
  rw [msgFirst_eq, he, recvFound_rts hp hm]
  let E : Dev := D.setSize (.user x.req) (D.pk p).data.view.size
  have hsize : (E.req x.req).size = rts.size := by
    simp [E, Dev.setSize, Dev.setReq, hdata, PkData.view]
  have hbuf : (E.req x.req).buffer = .mem x.src := by
    simp [E, Dev.setSize, Dev.setReq, hm.buffer]
  have hroom : Room E p := hm.room.of_eq _ rfl rfl fun _ => rfl
  have hE : (lciHandleRts (E.setReqPtr p (.user x.req)) x.ep p).mem = d.mem := (handleRts_mem _ _ _).trans hmem
  have hw := handleRts_waiting (D := E) hm.events hroom hbuf hsize
  rw [show (E.pk p).data = .rdz rts from hdata] at hw
  rw [← hE]
  exact hw.finish (env 2) (env 3) rtrFirst rts bytes

/-- A receive that an eager message has found, and one that has found it. -/
theorem eager_endsWell {d : Dev} {p : PktId} {x : Posting} (h : Ready d p x) {bytes : List Byte}
    (hp : x.call.Pairs (.eager bytes)) (env : Nat → Env) (rtrFirst : Bool) :
    (∃ D', recvFirst env rtrFirst d p x (.eager bytes) = some D' ∧ D'.mem = writeMem d.mem x.src bytes ∧
        EndsWell d x (.eager bytes) (some D')) ∧
      ∃ D', msgFirst env rtrFirst d p x (.eager bytes) = some D' ∧ D'.mem = writeMem d.mem x.src bytes ∧
        EndsWell d x (.eager bytes) (some D') := by
  have hfin : ∀ (o : Option Dev), (o.bind fun d => finish (env 2) (env 3) rtrFirst d p (.eager bytes)) = o :=
    fun o => by
    cases o <;> rfl
  constructor
  · obtain ⟨D, hm, hmem, he⟩ := recvFirst_met h (.eager bytes) env
    rw [recvFirst_eq, he, hfin, ← hmem]
    exact eager_explData hm (env 1)
  · obtain ⟨D, hm, hmem, he⟩ := msgFirst_met h (.eager bytes) env
    have hfound : recvFound (env 1) x D p = recvData (env 1) D x.src x.ep x.req p := by
      have hproto : (D.pk p).context.proto = .data := hm.proto
      unfold recvFound
      cases hcall : x.call with
      | recv => exact if_neg (by rw [hproto]; decide)
      | recvm => rfl
      | recvl => rw [hcall] at hp; exact hp.elim
    rw [msgFirst_eq, he, hfin, hfound, ← hmem]
    exact eager_recvData hm (env 1)

theorem Ready.withMem {d : Dev} {p : PktId} {x : Posting} (h : Ready d p x) (mem : Nat → Byte) :
    Ready { d with mem := mem } p x :=
  ⟨h.exp, h.ep_lt, h.rank_lt, h.tag_lt, h.table, h.tls, h.deques, h.poolid, h.cq⟩

/-- A write that is cut leaves what the buffer held behind it. -/
theorem written_whole {bytes : List Byte} {src : Nat}
    (h : ∀ mem, readMem (writeMem mem src (bytes.take (rmaLen bytes.length))) src bytes.length = bytes) :
    bytes.length < 2 ^ 32 := by
  by_contra hge
  have hk : rmaLen bytes.length < bytes.length := by
    unfold rmaLen
    omega
  -- a memory that differs from the message at the first byte that is not written
  have hmem := congrArg (·[rmaLen bytes.length]?) (h fun _ => bytes[rmaLen bytes.length] + 1)
  have hout : ¬(src ≤ src + rmaLen bytes.length ∧
      src + rmaLen bytes.length < src + (bytes.take (rmaLen bytes.length)).length) := by
    rw [List.length_take]
    omega
  simp only [readMem, List.getElem?_map, List.getElem?_range hk, Option.map_some] at hmem
  rw [writeMem_outside _ hout, List.getElem?_eq_getElem hk] at hmem
  exact absurd (Option.some.inj hmem) (by simp)

/-- A new device is ready for any receive on its endpoints. -/
theorem ready_init (x : Posting) (hep : x.ep < 2 ^ 14) (hrank : x.rank.toNat < 2 ^ 31 - 1)
    (htag : x.tag.toNat < 2 ^ 16) :
    ∃ d, lciDevInit 0 (rawDev .ibv 4096 .exp .sync) = some d ∧ Ready d 0 x := by
  have ht : Represents (lcHashCreate Ptr.null) [] := represents_create Ptr.null
  refine ⟨_, lciDevInit_eq 0 _, ⟨rfl, rfl⟩, hep, hrank, htag, ⟨[], ht, by simp⟩, ?_, ?_, .inr ?_, ?_⟩
  · intro wid pid hp
    dsimp only at hp ⊢
    by_cases hw : wid = 0
    · subst hw
      rw [Function.update_self] at hp
      cases hp
      simp
    · rw [Function.update_of_ne hw] at hp
      cases hp
  · intro dq hd
    have hd : dq = List.range LC_SERVER_NUM_PKTS := by simpa using hd
    rw [hd, List.length_range]
    decide
  · exact ⟨le_rfl, Nat.zero_lt_one⟩
  · intro e
    exact (by decide : 0 + 1 < CQ_MAX_SIZE)

end Lci.Server
