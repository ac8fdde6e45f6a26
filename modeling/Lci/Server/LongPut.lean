/-
Long puts on the PSM2 backend, from many origins to one target. A long put is two messages, a control message
with its size and then its data; the target posts a receive for the data when it handles the control message. The
matched queue gives a data message the oldest receive of its masked tag. All puts to a target have the tag of its
heap, `heap_rkey`, and a receive takes a message of any sender, so that control and data messages are paired by
their order alone: the data of a put is received at its own address as long as the data messages of the origins
arrive in the order in which their control messages did.
-/
import Lci.Lib.Matcher
import Lci.Lib.Merge
import Lci.Server.Psm2

namespace Lci.Server.LongPut

open Lci.Hash Lci.Proto Matcher Merge Relation

/-! ## Puts and the matched queue -/

/-- A long put as its origin called it, with its number there: for the proofs only, no function reads it. -/
structure Put where
  origin : CInt
  id : Nat
  addr : Nat
  bytes : List Byte
  signal : Option (BitVec 32)
deriving DecidableEq, Repr

inductive Side
  | posted
  | arrived
deriving DecidableEq, Repr

def Side.opp : Side → Side
  | .posted => .arrived
  | .arrived => .posted

/-- What the matched queue holds: a receive, with the put it was posted for, or a message with its put. -/
inductive Item
  | recv (x : Post) (owner : Option Put)
  | msg (u : Put) (m : MqMsg)
deriving DecidableEq, Repr

/-- The entry of an item in the queue: what is compared is the masked tag. -/
def Item.entry : Item → Entry (BitVec 32) Side Item
  | .recv x o => ⟨masked x.tag2, .posted, .recv x o⟩
  | .msg u m => ⟨masked m.tag.tag2, .arrived, .msg u m⟩

/-- The put an item belongs to. -/
def Item.put : Item → Option Put
  | .recv _ o => o
  | .msg u _ => some u

/-- A receive that has a message, whose completion was not returned. -/
structure Done where
  post : Post
  owner : Option Put
  put : Put
  msg : MqMsg
deriving DecidableEq, Repr

/-! ## The system -/

/-- The origins, the target, the messages of each origin that have not arrived, the matched queue and the receives it
has completed; then the history: the puts called, those whose control message or data has arrived and those that a
receive was posted for, each in order, the data messages with the owner of the receive they got, those of them that
were handled, and the signals with the memory at the time. -/
structure Net where
  org : CInt → Dev
  dev : Dev
  chan : CInt → List (Put × MqMsg)
  mq : List (Entry (BitVec 32) Side Item)
  done : List Done
  issued : CInt → List Put
  rtps : List Put
  dats : List Put
  posts : List Put
  pairs : List (Option Put × Put)
  landed : List (Option Put × Put)
  signals : List (Put × (Nat → Byte))

/-- A message has got a receive. -/
def Net.meet (s : Net) (x : Post) (o : Option Put) (u : Put) (m : MqMsg) : Net :=
  { s with
    done := s.done ++ [⟨x, o, u, m⟩]
    pairs := s.pairs ++ if IsKey m.tag.tag2 then [(o, u)] else [] }

/-- The history of an item that comes to the queue. -/
def Net.note (s : Net) : Item → Net
  | .recv _ none => s
  | .recv _ (some u) => { s with posts := s.posts ++ [u] }
  | .msg u m => if IsKey m.tag.tag2 then { s with dats := s.dats ++ [u] } else { s with rtps := s.rtps ++ [u] }

/-- An item comes to the queue: it takes the oldest item it matches, or waits. -/
def Net.offer (s : Net) (i : Item) : Net :=
  let t := { s.note i with mq := (insert Side.opp s.mq i.entry).2 }
  match i, (insert Side.opp s.mq i.entry).1 with
  | .recv x o, .matched (.msg u m) => t.meet x o u m
  | .msg u m, .matched (.recv x o) => t.meet x o u m
  | _, _ => t

/-- The receives that a progress call has posted come to the queue; `u` is the put whose message it handled. -/
def Net.offerAll (s : Net) (u : Option Put) (l : List Post) : Net :=
  l.foldl (fun s x => s.offer (.recv x (if x.tag2 = PSM_RECV_DATA then none else u))) s

/-- A call of origin `o` has left it in `d`: what it handed to the transport is on its way. -/
def Net.issue (s : Net) (o : CInt) (d : Dev) (u : Put) : Net :=
  { s with
    org := Function.update s.org o d
    issued := Function.update s.issued o (s.issued o ++ [u])
    chan := Function.update s.chan o (s.chan o ++
      ((d.out.drop (s.org o).out.length).flatMap (psm2Wire o (s.org o).mem)).map fun m => (u, m)) }

/-- A completion was handled, and left the target in `d`. -/
def Net.handle (s : Net) (e : Done) (d : Dev) : Net :=
  if IsKey e.msg.tag.tag2 then
    { s with
      dev := d
      landed := s.landed ++ [(e.owner, e.put)]
      signals := s.signals ++ (e.put.signal.map fun _ => (e.put, d.mem)).toList }
  else { s with dev := d }

/-- A step: a call of an origin, anything else an origin does, the arrival of the next message of an origin, anything
the application of the target does to the library, and a progress call of the target, which returns nothing or one
completion. The transport completes control messages in the order in which they got their receives, and data in any
order. -/
inductive Step : Net → Net → Prop
  | putl {s : Net} (o : CInt) (env : Env) (src size addr ep cb ce xfer : Nat) {d : Dev} : o ≠ s.dev.me → size < 2 ^ 64 →
    lcPutl env (s.org o) src size s.dev.me addr ep cb ce xfer = (.ok, d) →
    Step s (s.issue o d ⟨o, (s.issued o).length, addr, readMem (s.org o).mem src size, none⟩)
  | putls {s : Net} (o : CInt) (env : Env) (src size addr : Nat) (metaVal : CInt) (ep cb ce xfer : Nat) {d : Dev} :
    o ≠ s.dev.me → size < 2 ^ 64 → lcPutls env (s.org o) src size s.dev.me addr metaVal ep cb ce xfer = (.ok, d) →
    Step s (s.issue o d ⟨o, (s.issued o).length, addr, readMem (s.org o).mem src size,
      some (makeProto (BitVec.ofNat 32 ep) .long metaVal)⟩)
  | org {s : Net} (o : CInt) {d : Dev} : d.backend = (s.org o).backend → d.rep = (s.org o).rep →
    Step s { s with org := Function.update s.org o d }
  | arrive {s : Net} (o : CInt) {u : Put} {m : MqMsg} {l : List (Put × MqMsg)} : s.chan o = (u, m) :: l →
    Step s (({ s with chan := Function.update s.chan o l } : Net).offer (.msg u m))
  | app {s : Net} {d : Dev} : d.me = s.dev.me → d.heap = s.dev.heap → d.heapRkey = s.dev.heapRkey → d.mem = s.dev.mem →
    d.events = s.dev.events → Step s { s with dev := d }
  | idle {s : Net} (env : Env) {d : Dev} : psm2Progress env s.dev none = some d →
    Step s (({ s with dev := d } : Net).offerAll none (d.posted.drop s.dev.posted.length))
  | progress {s : Net} (env : Env) {l r : List Done} {e : Done} {d : Dev} : s.done = l ++ e :: r →
    (¬ IsKey e.msg.tag.tag2 → ∀ x ∈ l, IsKey x.msg.tag.tag2) →
    psm2Progress env s.dev (some (.recv e.post e.msg)) = some d →
    Step s ((({ s with done := l ++ r } : Net).handle e d).offerAll (some e.put)
      (d.posted.drop (s.dev.posted.erase e.post).length))

/-- The system once the devices are open: the origins know the target's heap and its key, which is not zero. -/
structure Starts (s : Net) : Prop where
  init : ∃ wid d₀, d₀.backend = .psm2 ∧ lciDevInit wid d₀ = some s.dev
  key : s.dev.heapRkey ≠ 0
  rep : ∀ o, o ≠ s.dev.me → (s.org o).backend = .psm2 ∧ (s.org o).rep s.dev.me = ⟨s.dev.heap, s.dev.heapRkey⟩
  empty : (∀ o, s.chan o = [] ∧ s.issued o = []) ∧ s.mq = [] ∧ s.done = [] ∧ s.rtps = [] ∧ s.dats = [] ∧ s.posts = [] ∧
    s.pairs = [] ∧ s.landed = [] ∧ s.signals = []

/-! ## Messages and receives of a put -/

/-- The address that the target computes from the offset in the control message. -/
def landing (heap : Nat) (u : Put) : Nat := (BitVec.ofInt 32 ((u.addr : Int) - heap)).toNat + heap

def ctlMsg (heap : Nat) (key : BitVec 32) (u : Put) : MqMsg :=
  ⟨psmTagSrdmaRts (BitVec.ofInt 32 ((u.addr : Int) - heap)) key, u.origin, 8, .buffer (sizeBytes u.bytes.length)⟩

/-- The bytes of the data message. -/
def Put.sent (u : Put) : List Byte := u.bytes.take (rmaLen u.bytes.length)

def datMsg (key : BitVec 32) (u : Put) : MqMsg :=
  ⟨psm2DatTag key u.signal, u.origin, rmaLen u.bytes.length, .buffer u.sent⟩

def eagerPost (p : PktId) : Post := ⟨PSM_RECV_DATA, .pkt p, POST_MSG_SIZE, some p⟩

def putPost (heap : Nat) (key : BitVec 32) (u : Put) (p : PktId) : Post :=
  ⟨key, .mem (landing heap u), rmaLen u.bytes.length, some p⟩

/-- The offset is taken modulo 2^32: the address is reached in the 4 GiB above the heap's base. -/
theorem landing_eq_iff {heap : Nat} {u : Put} : landing heap u = u.addr ↔ heap ≤ u.addr ∧ u.addr < heap + 2 ^ 32 := by
  unfold landing
  rw [BitVec.toNat_ofInt]
  omega

/-- A put of less than 2^32 bytes is sent whole. -/
theorem Put.sent_of_lt {u : Put} (h : u.bytes.length < 2 ^ 32) : u.sent = u.bytes := by
  rw [Put.sent, rmaLen_of_lt h, List.take_length]

theorem readMem_take (mem : Nat → Byte) (a : Nat) {n k : Nat} (h : k ≤ n) :
    (readMem mem a n).take k = readMem mem a k := by
  rw [readMem, ← List.map_take, List.take_range, Nat.min_eq_left h]
  rfl

theorem bytesSize_sizeBytes {n : Nat} (h : n < 2 ^ 64) : bytesSize (sizeBytes n) = n := by
  simp [bytesSize, sizeBytes, List.range, List.range.loop]
  omega

theorem ctlMsg_not_key (heap : Nat) (key : BitVec 32) (u : Put) : ¬ IsKey (ctlMsg heap key u).tag.tag2 := by
  show ¬ IsKey PSM_RECV_RDMA_RTP
  decide

theorem datMsg_tag2 (key : BitVec 32) (u : Put) : (datMsg key u).tag.tag2 = key := by
  unfold datMsg psm2DatTag
  cases u.signal <;> rfl

theorem longPacket_wire {env : Env} {d D : Dev} {ep cb ce xfer : Nat} {p : PktId}
    (h : longPacket env d ep cb ce xfer = (some p, D)) : D.out = d.out ∧ D.rep = d.rep := by
  unfold longPacket poolGetOrRetn at h
  split_ifs at h
  · cases h
  · generalize lcPoolGetNb d.pool env = g at h
    obtain ⟨q | q, pool⟩ := g
    · cases h
    · cases h
      exact ⟨rfl, rfl⟩

/-- What a long put hands to the transport. -/
theorem longPacket_putl {env : Env} {d D : Dev} {ep cb ce xfer : Nat} {p : PktId}
    (h : longPacket env d ep cb ce xfer = (some p, D)) (src size : Nat) (rank : CInt) (addr : Nat)
    (m : Option (BitVec 32)) :
    (lcServerPutl D rank src (D.rep rank).base (putOffset D rank addr) (D.rep rank).rkey size m p).out =
      d.out ++ [.put rank (d.rep rank).base (putOffset d rank addr) (d.rep rank).rkey (.mem src size) m] ∧
    (lcServerPutl D rank src (D.rep rank).base (putOffset D rank addr) (D.rep rank).rkey size m p).rep = d.rep := by
  obtain ⟨hout, hrep⟩ := longPacket_wire h
  have hoff : putOffset D rank addr = putOffset d rank addr := by rw [putOffset, hrep]; rfl
  rw [hoff, hrep, ← hout]
  unfold lcServerPutl
  dsimp only
  split_ifs
  · exact ⟨rfl, hrep⟩
  · exact ⟨rfl, hrep⟩

theorem lcPutl_wire {env : Env} {d d' : Dev} {src size : Nat} {rank : CInt} {addr ep cb ce xfer : Nat}
    (h : lcPutl env d src size rank addr ep cb ce xfer = (.ok, d')) :
    d'.out = d.out ++ [.put rank (d.rep rank).base (putOffset d rank addr) (d.rep rank).rkey (.mem src size) none] ∧
      d'.rep = d.rep := by
  unfold lcPutl at h
  cases hp : longPacket env d ep cb ce xfer with
  | mk q D =>
    rw [hp] at h
    cases q with
    | none => cases h
    | some p => cases h; exact longPacket_putl hp src size rank addr none

theorem lcPutls_wire {env : Env} {d d' : Dev} {src size : Nat} {rank : CInt} {addr : Nat} {metaVal : CInt}
    {ep cb ce xfer : Nat} (h : lcPutls env d src size rank addr metaVal ep cb ce xfer = (.ok, d')) :
    d'.out = d.out ++ [.put rank (d.rep rank).base (putOffset d rank addr) (d.rep rank).rkey (.mem src size)
      (some (makeProto (BitVec.ofNat 32 ep) .long metaVal))] ∧ d'.rep = d.rep := by
  unfold lcPutls at h
  cases hp : longPacket env d ep cb ce xfer with
  | mk q D =>
    rw [hp] at h
    cases q with
    | none => cases h
    | some p => cases h; exact longPacket_putl hp src size rank addr _

/-- The two messages of a put. -/
theorem psm2Wire_put {o : CInt} {mem : Nat → Byte} {rank : CInt} {heap : Nat} {key : BitVec 32} {src size addr n : Nat}
    {m : Option (BitVec 32)} :
    psm2Wire o mem (.put rank heap (BitVec.ofInt 32 ((addr : Int) - heap)) key (.mem src size) m) =
      [ctlMsg heap key ⟨o, n, addr, readMem mem src size, m⟩, datMsg key ⟨o, n, addr, readMem mem src size, m⟩] := by
  have hlen : (readMem mem src size).length = size := by simp [readMem]
  simp [psm2Wire, ctlMsg, datMsg, Put.sent, hlen, readMem_take mem src (rmaLen_le size)]

/-! ## Progress calls of the target -/

/-- The endpoint of a completion event. -/
def signalEp : Event → Option Nat
  | .completed ep _ _ => some ep
  | _ => none

def signals (d : Dev) : List Nat := d.events.filterMap signalEp

/-- A step of the target that leaves memory and the constants alone. -/
structure Still (d d' : Dev) : Prop where
  me : d'.me = d.me
  heap : d'.heap = d.heap
  heapRkey : d'.heapRkey = d.heapRkey
  mem : d'.mem = d.mem
  posted : d'.posted = d.posted

theorem Still.trans {d d' d'' : Dev} (h : Still d d') (h' : Still d' d'') : Still d d'' :=
  ⟨h'.me.trans h.me, h'.heap.trans h.heap, h'.heapRkey.trans h.heapRkey, h'.mem.trans h.mem, h'.posted.trans h.posted⟩

theorem still_event (d : Dev) (v : Event) : Still d (d.event v) := ⟨rfl, rfl, rfl, rfl, rfl⟩

theorem still_setReq (d : Dev) (r : ReqPtr) (f : Req → Req) : Still d (d.setReq r f) ∧
    signals (d.setReq r f) = signals d := by
  cases r <;> exact ⟨⟨rfl, rfl, rfl, rfl, rfl⟩, rfl⟩

theorem still_poolPut {env : Env} {d d' : Dev} {p : PktId} (h : poolPut env d p = some d') :
    Still d d' ∧ signals d' = signals d := by
  obtain ⟨pool, -, rfl⟩ := Option.map_eq_some_iff.1 h
  exact ⟨⟨rfl, rfl, rfl, rfl, rfl⟩, rfl⟩

theorem still_pkFreeData {env : Env} {d d' : Dev} {p : PktId} (h : lciPkFreeData env d p = some d') :
    Still d d' ∧ signals d' = signals d := by
  unfold lciPkFreeData at h
  split_ifs at h
  · obtain ⟨pool, -, rfl⟩ := Option.map_eq_some_iff.1 h
    exact ⟨⟨rfl, rfl, rfl, rfl, rfl⟩, rfl⟩
  · exact still_poolPut h

theorem still_ceServe {env : Env} {d d' : Dev} {ep : Nat} {p : PktId} (h : ceServe env d ep p = some d') :
    Still d d' ∧ signals d' = signals d := by
  unfold ceServe at h
  split_ifs at h
  · obtain ⟨h1, h2⟩ := still_setReq d (d.reqPtr p) fun q => { q with sync := true }
    obtain ⟨h3, h4⟩ := still_pkFreeData h
    exact ⟨h1.trans h3, h4.trans h2⟩
  · obtain ⟨cq, -, rfl⟩ := Option.map_eq_some_iff.1 h
    obtain ⟨h1, h2⟩ := still_setReq d (d.reqPtr p) fun q => { q with parent := some p }
    exact ⟨h1.trans ⟨rfl, rfl, rfl, rfl, rfl⟩, h2⟩
  · obtain ⟨h1, h2⟩ := still_pkFreeData h
    refine ⟨(still_event _ _).trans h1, h2.trans ?_⟩
    simp [signals, Dev.event, signalEp]
  · exact still_pkFreeData h

/-- A signal is one completion event of the endpoint in its word. -/
theorem still_serveRecvRdma {env : Env} {d d' : Dev} {p : PktId} {w : BitVec 32}
    (h : lciServeRecvRdma env d p w = some d') :
    Still d d' ∧ signals d' = signals d ++ [(protoGetRgid w).toNat] := by
  unfold lciServeRecvRdma at h
  obtain ⟨d₁, h₁, rfl⟩ := Option.map_eq_some_iff.1 h
  obtain ⟨hs, hv⟩ := still_setReq d (d.reqPtr p) fun q => { q with metaVal := protoGetMeta w }
  obtain ⟨hs', hv'⟩ := still_ceServe h₁
  have he : signals d₁ = signals d ++ [(protoGetRgid w).toNat] := by
    refine hv'.trans ?_
    rw [← hv]
    simp [signals, Dev.event, signalEp, Dev.setMeta]
  have hd : Still d d₁ := (hs.trans (still_event _ _)).trans hs'
  split_ifs
  · exact ⟨hd.trans ⟨rfl, rfl, rfl, rfl, rfl⟩, he⟩
  · exact ⟨hd, he⟩

/-- The end of a progress call posts receives for eager messages only. -/
theorem psm2Refill_still (env : Env) (d : Dev) : ∃ ps : List PktId,
    Still { d with posted := d.posted ++ ps.map eagerPost } (psm2Refill env d) ∧
      signals (psm2Refill env d) = signals d := by
  have hnone : Still { d with posted := d.posted ++ ([] : List PktId).map eagerPost } d :=
    ⟨rfl, rfl, rfl, rfl, (List.append_nil _).symm⟩
  unfold psm2Refill psm2TryPost
  by_cases hr : d.recvPosted < (LC_SERVER_MAX_RCVS : Int)
  · rw [if_pos hr]
    cases hp : lcPoolGetNb d.pool env with
    | mk q pool =>
      cases q with
      | none =>
        refine ⟨[], ?_⟩
        unfold lcServerPostRecv
        dsimp only
        split_ifs
        · exact ⟨hnone.trans ⟨rfl, rfl, rfl, rfl, rfl⟩, rfl⟩
        · exact ⟨hnone.trans ⟨rfl, rfl, rfl, rfl, rfl⟩, rfl⟩
      | some p => exact ⟨[p], ⟨rfl, rfl, rfl, rfl, rfl⟩, rfl⟩
  · rw [if_neg hr]
    exact ⟨[], hnone, rfl⟩

/-- The control message of a put: a receive for the data is posted. -/
theorem psm2Serve_ctl {env : Env} {d d' : Dev} {p : PktId} {heap : Nat} {key : BitVec 32} {u : Put} (hd : d.heap = heap)
    (hlen : u.bytes.length < 2 ^ 64)
    (h : psm2Serve env d (some (.recv (eagerPost p) (ctlMsg heap key u))) = some d') :
    Still { d with posted := d.posted.erase (eagerPost p) ++ [putPost heap key u p] } d' ∧ signals d' = signals d := by
  unfold psm2Serve psm2ServeRecv at h
  dsimp only at h
  have ht : (ctlMsg heap key u).tag.tag2 = PSM_RECV_RDMA_RTP := rfl
  rw [ht, if_neg (by decide), if_neg (by decide), if_neg (by decide), if_pos (by decide)] at h
  simp only [eagerPost, Option.bind_eq_bind, Option.bind_some, Option.some.injEq] at h
  subst h
  refine ⟨⟨rfl, rfl, rfl, rfl, ?_⟩, rfl⟩
  simp [countRecv, lcServerPostRecvRma, deposit, Dev.setData, ctlMsg, psmTagSrdmaRts, putPost, landing, PkData.bytes,
    bytesSize_sizeBytes hlen, hd, eagerPost]

/-- The data of a put: it is written to the buffer of the receive, and a signal is raised if it asks for one. -/
theorem psm2Serve_dat {env : Env} {d d' : Dev} {p : PktId} {heap : Nat} {key : BitVec 32} {u v : Put} (hk : IsKey key)
    (hw : ∀ w, u.signal = some w → w ≠ PSM_RDMA_IMM)
    (h : psm2Serve env d (some (.recv (putPost heap key v p) (datMsg key u))) = some d') :
    Still { d with
      posted := d.posted.erase (putPost heap key v p)
      mem := writeMem d.mem (landing heap v) (u.sent.take (rmaLen v.bytes.length)) } d' ∧
    signals d' = signals d ++ (u.signal.map fun w => (protoGetRgid w).toNat).toList := by
  unfold psm2Serve psm2ServeRecv at h
  dsimp only at h
  have hk0 : (datMsg key u).tag.tag2 &&& 0xf0000000 = 0 := by rw [datMsg_tag2]; exact hk
  rw [if_neg (by rw [hk0]; decide), if_neg (by rw [hk0]; decide), if_neg (by rw [hk0]; decide),
    if_neg (by rw [hk0]; decide)] at h
  have hdep : deposit { d with posted := d.posted.erase (putPost heap key v p) } (putPost heap key v p)
    (datMsg key u).data =
      { d with
        posted := d.posted.erase (putPost heap key v p)
        mem := writeMem d.mem (landing heap v) (u.sent.take (rmaLen v.bytes.length)) } := rfl
  rw [hdep] at h
  generalize hD : ({ d with
    posted := d.posted.erase (putPost heap key v p)
    mem := writeMem d.mem (landing heap v) (u.sent.take (rmaLen v.bytes.length)) } : Dev) = D at h ⊢
  have hctx : (putPost heap key v p).ctx = some p := rfl
  have hDs : signals D = signals d := by subst hD; rfl
  have hR : Still D (D.setReqPtr p (.own p)) ∧ signals (D.setReqPtr p (.own p)) = signals d :=
    ⟨⟨rfl, rfl, rfl, rfl, rfl⟩, hDs⟩
  rw [hctx] at h
  cases hs : u.signal with
  | none =>
    have ht : (datMsg key u).tag = psmTagSrdmaDat key := by simp [datMsg, psm2DatTag, hs]
    rw [ht, if_neg (by show (0 : BitVec 32) ≠ _; decide), if_neg (by simp [psmTagSrdmaDat])] at h
    obtain ⟨h1, h2⟩ := still_poolPut h
    exact ⟨hR.1.trans h1, by rw [h2, hR.2]; simp⟩
  | some w =>
    have ht : (datMsg key u).tag = psmTagSrdmaDatMeta key w := by simp [datMsg, psm2DatTag, hs]
    rw [ht, if_neg (show (psmTagSrdmaDatMeta key w).tag1 ≠ PSM_RDMA_IMM from hw w hs),
      if_pos (by simp [psmTagSrdmaDatMeta])] at h
    obtain ⟨h1, h2⟩ := still_serveRecvRdma h
    exact ⟨hR.1.trans h1, by rw [h2, hR.2]; rfl⟩

/-! ## What the queue holds -/

/-- The size of the put is a `size_t`, and the word of its signal is none of an immediate. -/
def Put.Ok (u : Put) : Prop := u.bytes.length < 2 ^ 64 ∧ ∀ w, u.signal = some w → w ≠ PSM_RDMA_IMM

section

variable {heap : Nat} {key : BitVec 32}

/-- The four kinds of items. -/
inductive ItemOk (heap : Nat) (key : BitVec 32) : Item → Prop
  | eager (p : PktId) : ItemOk heap key (.recv (eagerPost p) none)
  | post (u : Put) (p : PktId) : ItemOk heap key (.recv (putPost heap key u p) (some u))
  | ctl (u : Put) : u.Ok → ItemOk heap key (.msg u (ctlMsg heap key u))
  | dat (u : Put) : u.Ok → ItemOk heap key (.msg u (datMsg key u))

/-- The two kinds of completions. -/
inductive DoneOk (heap : Nat) (key : BitVec 32) : Done → Prop
  | ctl (p : PktId) (u : Put) : u.Ok → DoneOk heap key ⟨eagerPost p, none, u, ctlMsg heap key u⟩
  | dat (v : Put) (p : PktId) (u : Put) : u.Ok → DoneOk heap key ⟨putPost heap key v p, some v, u, datMsg key u⟩

theorem eager_key (p : PktId) (o : Option Put) : (Item.recv (eagerPost p) o).entry.key = 0 := by
  show masked PSM_RECV_DATA = 0
  decide

theorem ctl_key (u v : Put) : (Item.msg u (ctlMsg heap key v)).entry.key = 0 := by
  show masked PSM_RECV_RDMA_RTP = 0
  decide

theorem post_key (hk : IsKey key) (u : Put) (p : PktId) (o : Option Put) :
    (Item.recv (putPost heap key u p) o).entry.key = key := masked_key hk

theorem dat_key (hk : IsKey key) (u v : Put) : (Item.msg u (datMsg key v)).entry.key = key := by
  show masked (datMsg key v).tag.tag2 = key
  rw [datMsg_tag2]
  exact masked_key hk

/-- An item meets only the items of the other part of its protocol. -/
theorem ItemOk.meets (hk : IsKey key) (h0 : key ≠ 0) {i j : Item} (hi : ItemOk heap key i) (hj : ItemOk heap key j)
    (h : Meets Side.opp i.entry j.entry) :
    (∃ p u, u.Ok ∧ i = .recv (eagerPost p) none ∧ j = .msg u (ctlMsg heap key u)) ∨
    (∃ p u, u.Ok ∧ i = .msg u (ctlMsg heap key u) ∧ j = .recv (eagerPost p) none) ∨
    (∃ v p u, u.Ok ∧ i = .recv (putPost heap key v p) (some v) ∧ j = .msg u (datMsg key u)) ∨
    (∃ v p u, u.Ok ∧ i = .msg u (datMsg key u) ∧ j = .recv (putPost heap key v p) (some v)) := by
  obtain ⟨hkey, hside⟩ := h
  cases hi with
  | eager p =>
    cases hj with
    | eager q => cases hside
    | post u q => cases hside
    | ctl u hu => exact .inl ⟨p, u, hu, rfl, rfl⟩
    | dat u hu => rw [eager_key, dat_key hk] at hkey; exact absurd hkey h0
  | post v p =>
    cases hj with
    | eager q => cases hside
    | post u q => cases hside
    | ctl u hu => rw [ctl_key, post_key hk] at hkey; exact absurd hkey.symm h0
    | dat u hu => exact .inr (.inr (.inl ⟨v, p, u, hu, rfl, rfl⟩))
  | ctl u hu =>
    cases hj with
    | eager q => exact .inr (.inl ⟨q, u, hu, rfl, rfl⟩)
    | post v q => rw [ctl_key, post_key hk] at hkey; exact absurd hkey h0
    | ctl v hv => cases hside
    | dat v hv => cases hside
  | dat u hu =>
    cases hj with
    | eager q => rw [eager_key, dat_key hk] at hkey; exact absurd hkey.symm h0
    | post v q => exact .inr (.inr (.inr ⟨v, q, u, hu, rfl, rfl⟩))
    | ctl v hv => cases hside
    | dat v hv => cases hside

/-- The control messages of some completions. -/
def ctls (l : List Done) : List (Option Put) :=
  l.filterMap fun e => if IsKey e.msg.tag.tag2 then none else some (some e.put)

/-- The data messages of some completions, each with the owner of the receive it got. -/
def datas (l : List Done) : List (Option Put × Put) :=
  l.filterMap fun e => if IsKey e.msg.tag.tag2 then some (e.owner, e.put) else none

theorem ctls_append (l r : List Done) : ctls (l ++ r) = ctls l ++ ctls r := List.filterMap_append

theorem datas_append (l r : List Done) : datas (l ++ r) = datas l ++ datas r := List.filterMap_append

theorem ctls_ctl (p : PktId) (u : Put) : ctls [⟨eagerPost p, none, u, ctlMsg heap key u⟩] = [some u] := by
  simp [ctls, ctlMsg_not_key]

theorem datas_ctl (p : PktId) (u : Put) : datas [⟨eagerPost p, none, u, ctlMsg heap key u⟩] = [] := by
  simp [datas, ctlMsg_not_key]

theorem ctls_dat (hk : IsKey key) (v : Put) (p : PktId) (u : Put) :
    ctls [⟨putPost heap key v p, some v, u, datMsg key u⟩] = [] := by
  simp [ctls, datMsg_tag2, hk]

theorem datas_dat (hk : IsKey key) (v : Put) (p : PktId) (u : Put) :
    datas [⟨putPost heap key v p, some v, u, datMsg key u⟩] = [(some v, u)] := by
  simp [datas, datMsg_tag2, hk]

/-- The queue along a run: its receives and messages of puts are those that one side is ahead of the other, data
message and receive of the same number have met, and the control messages are handled in the order in which they
arrived, `pend` being those whose receive is still to be posted. -/
structure Queue (heap : Nat) (key : BitVec 32) (pend : List Put) (s : Net) : Prop where
  items : ∀ e ∈ s.mq, ∃ i, ItemOk heap key i ∧ e = i.entry
  done : ∀ e ∈ s.done, DoneOk heap key e
  oneSided : OneSided Side.opp s.mq
  recvs : (waiting key .posted s.mq).map Item.put = (s.posts.map some).drop (s.dats.map some).length
  msgs : (waiting key .arrived s.mq).map Item.put = (s.dats.map some).drop (s.posts.map some).length
  pairs : s.pairs.map (Prod.map id some) = (s.posts.map some).zip (s.dats.map some)
  ctl : s.posts.map some ++ pend.map some ++ ctls s.done ++ (waiting 0 .arrived s.mq).map Item.put = s.rtps.map some

theorem Side.opp_opp (s : Side) : s.opp.opp = s := by cases s <;> rfl

theorem Side.opp_ne (s : Side) : s.opp ≠ s := by cases s <;> simp [Side.opp]

/-! ## An item comes to the queue -/

theorem Item.entry_val (i : Item) : i.entry.val = i := by cases i <;> rfl

theorem note_rest (s : Net) (i : Item) : (s.note i).org = s.org ∧ (s.note i).dev = s.dev ∧ (s.note i).chan = s.chan ∧
    (s.note i).done = s.done ∧ (s.note i).issued = s.issued ∧ (s.note i).pairs = s.pairs ∧
    (s.note i).landed = s.landed ∧ (s.note i).signals = s.signals := by
  unfold Net.note
  split
  · exact ⟨rfl, rfl, rfl, rfl, rfl, rfl, rfl, rfl⟩
  · exact ⟨rfl, rfl, rfl, rfl, rfl, rfl, rfl, rfl⟩
  · split_ifs <;> exact ⟨rfl, rfl, rfl, rfl, rfl, rfl, rfl, rfl⟩

/-- What an offer leaves alone, and the history it writes. -/
theorem offer_rest (s : Net) (i : Item) : (s.offer i).org = s.org ∧ (s.offer i).dev = s.dev ∧
    (s.offer i).chan = s.chan ∧
    (s.offer i).issued = s.issued ∧ (s.offer i).landed = s.landed ∧ (s.offer i).signals = s.signals := by
  obtain ⟨h1, h2, h3, -, h5, -, h7, h8⟩ := note_rest s i
  unfold Net.offer
  dsimp only
  split <;> exact ⟨h1, h2, h3, h5, h7, h8⟩

theorem offer_hist (s : Net) (i : Item) : (s.offer i).mq = (insert Side.opp s.mq i.entry).2 ∧
    (s.offer i).rtps = (s.note i).rtps ∧ (s.offer i).dats = (s.note i).dats ∧ (s.offer i).posts = (s.note i).posts := by
  unfold Net.offer
  dsimp only
  split <;> exact ⟨rfl, rfl, rfl, rfl⟩

theorem offer_stored {s : Net} {i : Item} (h : (insert Side.opp s.mq i.entry).1 = .stored) :
    (s.offer i).done = s.done ∧ (s.offer i).pairs = s.pairs := by
  obtain ⟨-, -, -, h4, -, h6, -⟩ := note_rest s i
  unfold Net.offer
  dsimp only
  rw [h]
  cases i <;> exact ⟨h4, h6⟩

theorem offer_msg {s : Net} {u : Put} {m : MqMsg} {x : Post} {o : Option Put}
    (h : (insert Side.opp s.mq (Item.msg u m).entry).1 = .matched (.recv x o)) :
    (s.offer (.msg u m)).done = s.done ++ [⟨x, o, u, m⟩] ∧
      (s.offer (.msg u m)).pairs = s.pairs ++ if IsKey m.tag.tag2 then [(o, u)] else [] := by
  obtain ⟨-, -, -, h4, -, h6, -⟩ := note_rest s (.msg u m)
  unfold Net.offer Net.meet
  dsimp only
  rw [h, h4, h6]
  exact ⟨rfl, rfl⟩

theorem offer_recv {s : Net} {u : Put} {m : MqMsg} {x : Post} {o : Option Put}
    (h : (insert Side.opp s.mq (Item.recv x o).entry).1 = .matched (.msg u m)) :
    (s.offer (.recv x o)).done = s.done ++ [⟨x, o, u, m⟩] ∧
      (s.offer (.recv x o)).pairs = s.pairs ++ if IsKey m.tag.tag2 then [(o, u)] else [] := by
  obtain ⟨-, -, -, h4, -, h6, -⟩ := note_rest s (.recv x o)
  unfold Net.offer Net.meet
  dsimp only
  rw [h, h4, h6]
  exact ⟨rfl, rfl⟩

theorem Queue.items_insert {pend : List Put} {s : Net} (h : Queue heap key pend s) {i : Item} (hi : ItemOk heap key i) :
    ∀ e ∈ (insert Side.opp s.mq i.entry).2, ∃ j, ItemOk heap key j ∧ e = j.entry := by
  rintro e he
  rcases insert_mem Side.opp he with he | rfl
  · exact h.items e he
  · exact ⟨i, hi, rfl⟩

/-- What comes of an item: it meets the item of the other part of its protocol, or it waits. -/
theorem Queue.offer_cases (hk : IsKey key) (h0 : key ≠ 0) {pend : List Put} {s : Net} (h : Queue heap key pend s)
    {i : Item} (hi : ItemOk heap key i) :
    (∃ j e, DoneOk heap key e ∧
      (i = .recv e.post e.owner ∧ j = .msg e.put e.msg ∨ i = .msg e.put e.msg ∧ j = .recv e.post e.owner) ∧
      j.entry ∈ s.mq ∧ (insert Side.opp s.mq i.entry).1 = .matched j ∧
      (s.offer i).done = s.done ++ [e] ∧ (s.offer i).pairs = s.pairs ++ datas [e]) ∨
    (insert Side.opp s.mq i.entry).1 = .stored ∧ (s.offer i).done = s.done ∧ (s.offer i).pairs = s.pairs := by
  rcases Matcher.insert_cases Side.opp s.mq i.entry with ⟨l, x, r, hq, -, hm, he⟩ | ⟨-, he⟩
  · left
    have hx : x ∈ s.mq := by
      rw [hq]
      simp
    obtain ⟨j, hj, rfl⟩ := h.items x hx
    rw [j.entry_val] at he
    have hmat := congrArg Prod.fst he
    rcases hi.meets hk h0 hj hm with ⟨p, u, hu, rfl, rfl⟩ | ⟨p, u, hu, rfl, rfl⟩ | ⟨v, p, u, hu, rfl, rfl⟩ |
      ⟨v, p, u, hu, rfl, rfl⟩
    · obtain ⟨hdone, hpairs⟩ := offer_recv hmat
      rw [if_neg (ctlMsg_not_key heap key u)] at hpairs
      exact ⟨_, _, .ctl p u hu, .inl ⟨rfl, rfl⟩, hx, hmat, hdone, by rw [hpairs, datas_ctl]⟩
    · obtain ⟨hdone, hpairs⟩ := offer_msg hmat
      rw [if_neg (ctlMsg_not_key heap key u)] at hpairs
      exact ⟨_, _, .ctl p u hu, .inr ⟨rfl, rfl⟩, hx, hmat, hdone, by rw [hpairs, datas_ctl]⟩
    · obtain ⟨hdone, hpairs⟩ := offer_recv hmat
      rw [if_pos (by rw [datMsg_tag2]; exact hk)] at hpairs
      exact ⟨_, _, .dat v p u hu, .inl ⟨rfl, rfl⟩, hx, hmat, hdone, by rw [hpairs, datas_dat hk]⟩
    · obtain ⟨hdone, hpairs⟩ := offer_msg hmat
      rw [if_pos (by rw [datMsg_tag2]; exact hk)] at hpairs
      exact ⟨_, _, .dat v p u hu, .inr ⟨rfl, rfl⟩, hx, hmat, hdone, by rw [hpairs, datas_dat hk]⟩
  · right
    have hst := congrArg Prod.fst he
    exact ⟨hst, offer_stored hst⟩

/-- What an item of the control part meets makes a completion of that part. -/
theorem DoneOk.of_control (hk : IsKey key) (h0 : key ≠ 0) {i j : Item} {e : Done} (he : DoneOk heap key e)
    (hor : i = .recv e.post e.owner ∧ j = .msg e.put e.msg ∨ i = .msg e.put e.msg ∧ j = .recv e.post e.owner)
    (hi : i.entry.key = 0) : ∃ p u, u.Ok ∧ e = ⟨eagerPost p, none, u, ctlMsg heap key u⟩ := by
  cases he with
  | ctl p u hu => exact ⟨p, u, hu, rfl⟩
  | dat v p u hu =>
    rcases hor with ⟨rfl, -⟩ | ⟨rfl, -⟩
    · rw [post_key hk] at hi
      exact absurd hi h0
    · rw [dat_key hk] at hi
      exact absurd hi h0

/-- And an item of the data part one of that. -/
theorem DoneOk.of_data (h0 : key ≠ 0) {i j : Item} {e : Done} (he : DoneOk heap key e)
    (hor : i = .recv e.post e.owner ∧ j = .msg e.put e.msg ∨ i = .msg e.put e.msg ∧ j = .recv e.post e.owner)
    (hi : i.entry.key = key) :
    ∃ v p u, u.Ok ∧ e = ⟨putPost heap key v p, some v, u, datMsg key u⟩ := by
  cases he with
  | dat v p u hu => exact ⟨v, p, u, hu, rfl⟩
  | ctl p u hu =>
    rcases hor with ⟨rfl, -⟩ | ⟨rfl, -⟩
    · rw [eager_key] at hi
      exact absurd hi.symm h0
    · rw [ctl_key] at hi
      exact absurd hi.symm h0

/-- The part of the invariant that does not depend on the kind of the item. -/
theorem Queue.offer_kept (hk : IsKey key) (h0 : key ≠ 0) {pend : List Put} {s : Net} (h : Queue heap key pend s)
    {i : Item} (hi : ItemOk heap key i) : (∀ e ∈ (s.offer i).mq, ∃ j, ItemOk heap key j ∧ e = j.entry) ∧
      (∀ e ∈ (s.offer i).done, DoneOk heap key e) ∧ OneSided Side.opp (s.offer i).mq := by
  rw [(offer_hist s i).1]
  refine ⟨h.items_insert hi, ?_, insert_oneSided Side.opp Side.opp_opp Side.opp_ne h.oneSided i.entry⟩
  rcases h.offer_cases hk h0 hi with ⟨j, e, he, -, -, -, hdone, -⟩ | ⟨-, hdone, -⟩
  · rw [hdone]
    intro e' he'
    rcases List.mem_append.1 he' with he' | he'
    · exact h.done e' he'
    · rw [List.mem_singleton.1 he']
      exact he
  · rw [hdone]
    exact h.done

section

variable {pend : List Put} {s : Net} (hk : IsKey key) (h0 : key ≠ 0)

include hk h0

/-- An item of the control part leaves the receives and the data of puts alone. -/
theorem Queue.offer_control (h : Queue heap key pend s) {i : Item} (hi : ItemOk heap key i) (h0i : i.entry.key = 0)
    (hp : (s.note i).posts = s.posts) (hd : (s.note i).dats = s.dats)
    (hctl : s.posts.map some ++ pend.map some ++ ctls (s.offer i).done ++
      (waiting 0 .arrived (s.offer i).mq).map Item.put = (s.note i).rtps.map some) :
    Queue heap key pend (s.offer i) := by
  obtain ⟨hmq, hr, hd', hp'⟩ := offer_hist s i
  obtain ⟨h1, h2, h3⟩ := h.offer_kept hk h0 hi
  have hne : i.entry.key ≠ key := by
    rw [h0i]
    exact h0.symm
  rw [hp] at hp'
  rw [hd] at hd'
  refine ⟨h1, h2, h3, ?_, ?_, ?_, ?_⟩
  · rw [hmq, waiting_of_ne Side.opp hne, hp', hd']
    exact h.recvs
  · rw [hmq, waiting_of_ne Side.opp hne, hp', hd']
    exact h.msgs
  · have hpairs : (s.offer i).pairs = s.pairs := by
      rcases h.offer_cases hk h0 hi with ⟨j, e, he, hor, -, -, -, hpairs⟩ | ⟨-, -, hpairs⟩
      · obtain ⟨p, u, -, rfl⟩ := he.of_control hk h0 hor h0i
        rw [hpairs, datas_ctl, List.append_nil]
      · exact hpairs
    rw [hpairs, hp', hd']
    exact h.pairs
  · rw [hp', hr]
    exact hctl

/-- A control message arrives. -/
theorem Queue.offer_ctl (h : Queue heap key pend s) {u : Put} (hu : u.Ok) :
    Queue heap key pend (s.offer (.msg u (ctlMsg heap key u))) := by
  have hi : ItemOk heap key (.msg u (ctlMsg heap key u)) := .ctl u hu
  have hnote : s.note (.msg u (ctlMsg heap key u)) = { s with rtps := s.rtps ++ [u] } :=
    if_neg (ctlMsg_not_key heap key u)
  have hmq := (offer_hist s (.msg u (ctlMsg heap key u))).1
  refine h.offer_control hk h0 hi (ctl_key u u) (by rw [hnote]) (by rw [hnote]) ?_
  have hfifo := run_fifo Side.opp 0 .arrived [(Item.msg u (ctlMsg heap key u)).entry] s.mq
  have hkey : (Item.msg u (ctlMsg heap key u)).entry.key = 0 := ctl_key u u
  have hside : (Item.msg u (ctlMsg heap key u)).entry.side = .arrived := rfl
  rw [hnote, hmq, List.map_append, ← h.ctl]
  rcases h.offer_cases hk h0 hi with ⟨j, e, he, hor, hj, hmat, hdone, -⟩ | ⟨hst, hdone, -⟩
  · obtain ⟨p, v, -, rfl⟩ := he.of_control hk h0 hor hkey
    obtain ⟨hc, -⟩ | ⟨hc, rfl⟩ := hor
    · cases hc
    obtain ⟨rfl, -⟩ := Item.msg.inj hc
    -- an eager receive waits, so no control message does
    have hnone : waiting 0 .arrived s.mq = [] := by
      refine waiting_eq_nil.2 ?_
      rintro x hx ⟨hx0, hxs⟩
      refine h.oneSided _ hj x hx ?_ hxs
      rw [hx0]
      exact (eager_key p none).symm
    simp only [run, hmat, puts, takes, hkey, hside, hnone] at hfifo
    have hafter : waiting 0 .arrived (insert Side.opp s.mq (Item.msg u (ctlMsg heap key u)).entry).2 = [] := by
      simpa [Side.opp] using hfifo.symm
    rw [hafter, hnone, hdone, ctls_append, ctls_ctl]
    simp
  · simp only [run, hst, puts, takes, hkey, hside, and_self, if_true, List.nil_append] at hfifo
    rw [← hfifo, hdone, List.map_append]
    simp [Item.put, Item.entry_val]

/-- A receive for eager messages is posted. -/
theorem Queue.offer_eager (h : Queue heap key pend s) (p : PktId) :
    Queue heap key pend (s.offer (.recv (eagerPost p) none)) := by
  have hi : ItemOk heap key (.recv (eagerPost p) none) := .eager p
  have hkey : (Item.recv (eagerPost p) none).entry.key = 0 := eager_key p none
  have hside : (Item.recv (eagerPost p) none).entry.side = .posted := rfl
  have hmq := (offer_hist s (.recv (eagerPost p) none)).1
  refine h.offer_control hk h0 hi hkey rfl rfl ?_
  have hfifo := run_fifo Side.opp 0 .arrived [(Item.recv (eagerPost p) none).entry] s.mq
  have hnote : s.note (.recv (eagerPost p) none) = s := rfl
  rw [hmq, hnote, ← h.ctl]
  rcases h.offer_cases hk h0 hi with ⟨j, e, he, hor, -, hmat, hdone, -⟩ | ⟨hst, hdone, -⟩
  · obtain ⟨q, u, -, rfl⟩ := he.of_control hk h0 hor hkey
    obtain ⟨hc, rfl⟩ | ⟨hc, -⟩ := hor
    · -- it takes the control message that has waited longest
      simp only [run, hmat, puts, takes, hkey, hside, Side.opp, and_self, if_true, List.append_nil] at hfifo
      rw [hfifo, hdone, ctls_append, ctls_ctl]
      simp [Item.put]
    · cases hc
  · simp only [run, hst, puts, takes, hkey, hside] at hfifo
    rw [hdone]
    congr 2
    simpa using hfifo.symm

/-- The control messages that are under way do not change when an item of the data part comes. -/
theorem Queue.offer_data (h : Queue heap key pend s) {i : Item} (hi : ItemOk heap key i) (hki : i.entry.key = key) :
    ctls (s.offer i).done = ctls s.done ∧ waiting 0 .arrived (s.offer i).mq = waiting 0 .arrived s.mq := by
  constructor
  · rcases h.offer_cases hk h0 hi with ⟨j, e, he, hor, -, -, hdone, -⟩ | ⟨-, hdone, -⟩
    · obtain ⟨v, p, u, -, rfl⟩ := he.of_data h0 hor hki
      rw [hdone, ctls_append, ctls_dat hk, List.append_nil]
    · rw [hdone]
  · rw [(offer_hist s i).1, waiting_of_ne Side.opp (by rw [hki]; exact h0)]

/-- The receive for the data of a put is posted. -/
theorem Queue.offer_put {v : Put} (h : Queue heap key (v :: pend) s) (p : PktId) :
    Queue heap key pend (s.offer (.recv (putPost heap key v p) (some v))) := by
  have hi : ItemOk heap key (.recv (putPost heap key v p) (some v)) := .post v p
  have hkey : (Item.recv (putPost heap key v p) (some v)).entry.key = key := post_key hk v p (some v)
  have hside : (Item.recv (putPost heap key v p) (some v)).entry.side = .posted := rfl
  have hnote : s.note (.recv (putPost heap key v p) (some v)) = { s with posts := s.posts ++ [v] } := rfl
  obtain ⟨hmq, hr, hd, hp⟩ := offer_hist s (.recv (putPost heap key v p) (some v))
  rw [hnote] at hr hd hp
  obtain ⟨h1, h2, h3⟩ := h.offer_kept hk h0 hi
  obtain ⟨hctls, hwait⟩ := h.offer_data hk h0 hi hkey
  have hrecvs : (waiting (Item.recv (putPost heap key v p) (some v)).entry.key .posted s.mq).map Item.put =
      (s.posts.map some).drop (s.dats.map some).length := by
    rw [hkey]
    exact h.recvs
  have hmsgs : (waiting (Item.recv (putPost heap key v p) (some v)).entry.key .arrived s.mq).map Item.put =
      (s.dats.map some).drop (s.posts.map some).length := by
    rw [hkey]
    exact h.msgs
  obtain ⟨-, hown, hother⟩ := insert_nth Side.opp Item.put Side.opp_ne hrecvs hmsgs
  have hzip := insert_zip Side.opp Item.put Side.opp_ne hrecvs hmsgs
  rw [hkey, hside] at hown hother
  have hposts : (s.offer (.recv (putPost heap key v p) (some v))).posts.map some = s.posts.map some ++ [some v] := by
    rw [hp, List.map_append]
    rfl
  refine ⟨h1, h2, h3, ?_, ?_, ?_, ?_⟩
  · rw [hmq, hown, hposts, hd]
    rfl
  · rw [hmq, hposts, hd, List.length_append]
    exact hother
  · rw [hposts, hd]
    refine Eq.trans ?_ hzip.symm
    rcases h.offer_cases hk h0 hi with ⟨j, e, he, hor, -, hmat, -, hpairs⟩ | ⟨hst, -, hpairs⟩
    · obtain ⟨w, q, u, -, rfl⟩ := he.of_data h0 hor hkey
      obtain ⟨hc, rfl⟩ | ⟨hc, -⟩ := hor
      · obtain ⟨-, hc⟩ := Item.recv.inj hc
        cases hc
        rw [hpairs, datas_dat hk, List.map_append, h.pairs, hmat]
        rfl
      · cases hc
    · rw [hpairs, h.pairs, hst]
      simp [Outcome.meets]
  · rw [hposts, hctls, hwait, hr, ← h.ctl]
    simp

/-- The data of a put arrives. -/
theorem Queue.offer_dat (h : Queue heap key pend s) {u : Put} (hu : u.Ok) :
    Queue heap key pend (s.offer (.msg u (datMsg key u))) := by
  have hi : ItemOk heap key (.msg u (datMsg key u)) := .dat u hu
  have hkey : (Item.msg u (datMsg key u)).entry.key = key := dat_key hk u u
  have hside : (Item.msg u (datMsg key u)).entry.side = .arrived := rfl
  have hnote : s.note (.msg u (datMsg key u)) = { s with dats := s.dats ++ [u] } :=
    if_pos (by rw [datMsg_tag2]; exact hk)
  obtain ⟨hmq, hr, hd, hp⟩ := offer_hist s (.msg u (datMsg key u))
  rw [hnote] at hr hd hp
  obtain ⟨h1, h2, h3⟩ := h.offer_kept hk h0 hi
  obtain ⟨hctls, hwait⟩ := h.offer_data hk h0 hi hkey
  have hrecvs : (waiting (Item.msg u (datMsg key u)).entry.key .posted s.mq).map Item.put =
      (s.posts.map some).drop (s.dats.map some).length := by
    rw [hkey]
    exact h.recvs
  have hmsgs : (waiting (Item.msg u (datMsg key u)).entry.key .arrived s.mq).map Item.put =
      (s.dats.map some).drop (s.posts.map some).length := by
    rw [hkey]
    exact h.msgs
  obtain ⟨-, hown, hother⟩ := insert_nth Side.opp Item.put Side.opp_ne hmsgs hrecvs
  have hzip := insert_zip Side.opp Item.put Side.opp_ne hmsgs hrecvs
  rw [hkey, hside] at hown hother
  have hdats : (s.offer (.msg u (datMsg key u))).dats.map some = s.dats.map some ++ [some u] := by
    rw [hd, List.map_append]
    rfl
  refine ⟨h1, h2, h3, ?_, ?_, ?_, ?_⟩
  · rw [hmq, hdats, hp, List.length_append]
    exact hother
  · rw [hmq, hown, hdats, hp]
    rfl
  · -- the pairs of the two sides, the other way round
    rw [hdats, hp, ← List.zip_swap]
    refine Eq.trans ?_ (congrArg (List.map Prod.swap) hzip).symm
    rw [List.map_append, List.zip_swap, ← h.pairs]
    rcases h.offer_cases hk h0 hi with ⟨j, e, he, hor, -, hmat, -, hpairs⟩ | ⟨hst, -, hpairs⟩
    · obtain ⟨w, q, v, -, rfl⟩ := he.of_data h0 hor hkey
      obtain ⟨hc, -⟩ | ⟨hc, rfl⟩ := hor
      · cases hc
      · obtain ⟨hc, -⟩ := Item.msg.inj hc
        subst hc
        rw [hpairs, datas_dat hk, List.map_append, hmat]
        rfl
    · rw [hpairs, hst]
      simp [Outcome.meets]
  · rw [hp, hctls, hwait, hr]
    exact h.ctl

end

end

end Lci.Server.LongPut
