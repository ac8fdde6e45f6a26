/-
The PSM2 backend of `src/include/server/server_psm2.h`: tags, the messages each call emits, the progress
call, and its count of the receives posted for eager messages. Every branch that consumes an eager
receive takes one off `recv_posted` except that of an unsignalled buffered put, which posts the packet
again through `lc_server_post_recv` and so counts it twice.
-/
import Lci.Server.Frame

namespace Lci.Server

open Lci.Hash Lci.Proto

/-! ## Tags -/

def PSM_RECV_DATA : BitVec 32 := 0x1 <<< 28

def PSM_RECV_RDMA : BitVec 32 := 0x2 <<< 28

def PSM_RECV_RDMA_SID : BitVec 32 := 0x3 <<< 28

def PSM_RECV_RDMA_RTP : BitVec 32 := 0x4 <<< 28

def PSM_RDMA_IMM : BitVec 32 := 1 <<< 31

/-- `PSM_TAG_TSEND_DATA`. -/
def psmTagTsendData (proto : BitVec 32) (rank : CInt) : MqTag := ⟨proto, rank, PSM_RECV_DATA⟩

/-- `PSM_TAG_SRDMA`. -/
def psmTagSrdma (offset : BitVec 32) : MqTag := ⟨offset, 0x0, PSM_RECV_RDMA⟩

/-- `PSM_TAG_SRDMA_META`. -/
def psmTagSrdmaMeta (offset metaVal : BitVec 32) : MqTag := ⟨offset, metaVal, PSM_RECV_RDMA_SID⟩

/-- `PSM_TAG_SRDMA_RTS`. -/
def psmTagSrdmaRts (offset rkey : BitVec 32) : MqTag := ⟨offset, rkey, PSM_RECV_RDMA_RTP⟩

/-- `PSM_TAG_SRDMA_DAT`. -/
def psmTagSrdmaDat (rkey : BitVec 32) : MqTag := ⟨0, 0, rkey⟩

/-- `PSM_TAG_SRDMA_DAT_META`. -/
def psmTagSrdmaDatMeta (rkey metaVal : BitVec 32) : MqTag := ⟨1, metaVal, rkey⟩

/-- `PSM_TAG_SRDMA_DAT_IMM`. -/
def psmTagSrdmaDatImm (rkey sid : BitVec 32) : MqTag := ⟨sid, PSM_RDMA_IMM, rkey⟩

/-- What the matched queue compares of a message and a receive. -/
def masked (tag2 : BitVec 32) : BitVec 32 := tag2 &&& LCI_PSM2_TAGSEL.tag2

/-! ## Messages -/

/-- A message of the matched queue. -/
structure MqMsg where
  tag : MqTag
  peer : CInt
  len : Nat
  data : PkData
deriving DecidableEq, Repr

/-- The bytes of a `size_t`. -/
def sizeBytes (n : Nat) : List Byte := (List.range 8).map fun i => BitVec.ofNat 8 (n / 2 ^ (8 * i))

/-- The `size_t` of eight bytes. -/
def bytesSize (b : List Byte) : Nat := (b.take 8).foldr (fun x n => x.toNat + 2 ^ 8 * n) 0

/-- The message of a put in one piece. -/
def psm2PutWire (me : CInt) (offset : BitVec 32) (bytes : List Byte) : Option (BitVec 32) → MqMsg
  | none => ⟨psmTagSrdma offset, me, bytes.length, .buffer bytes⟩
  | some m => ⟨psmTagSrdmaMeta offset m, me, bytes.length, .buffer bytes⟩

/-- The data message of a put in two pieces. -/
def psm2DatTag (rkey : BitVec 32) : Option (BitVec 32) → MqTag
  | none => psmTagSrdmaDat rkey
  | some m => psmTagSrdmaDatMeta rkey m

/-- The messages of one call, as rank `me` puts them on the wire; `mem` is the memory they are read
from. A long put is a control message with its size, then its data, as far as 32 bits say how long it is. -/
def psm2Wire (me : CInt) (mem : Nat → Byte) : Msg → List MqMsg
  | .send _ proto size data => [⟨psmTagTsendData proto me, me, size, data⟩]
  | .put _ _ offset _ (.bytes b) m => [psm2PutWire me offset b m]
  | .put _ _ offset rkey (.mem addr size) m =>
    [⟨psmTagSrdmaRts offset rkey, me, 8, .buffer (sizeBytes size)⟩,
      ⟨psm2DatTag rkey m, me, rmaLen size, .buffer (readMem mem addr (rmaLen size))⟩]
  | .rma _ src _ rkey size sid =>
    [⟨psmTagSrdmaDatImm rkey sid, me, rmaLen size, .buffer (readMem mem src (rmaLen size))⟩]

/-! ## Progress -/

/-- `++recv_posted` and `recv_posted--` of a `size_t`. -/
def countRecv (d : Dev) (n : Int) : Dev := { d with recvPosted := (d.recvPosted + n) % 2 ^ 64 }

/-- `lc_server_post_recv`. -/
def lcServerPostRecv (d : Dev) (p : Option PktId) : Dev :=
  match p with
  | none =>
    if d.recvPosted = (LC_SERVER_MAX_RCVS : Int) / 2 ∧ ¬ d.deadlock then { d with deadlock := true } else d
  | some p =>
    let d := countRecv { d with posted := d.posted ++ [⟨PSM_RECV_DATA, .pkt p, POST_MSG_SIZE, some p⟩] } 1
    { d with
      deadlock := if d.recvPosted = (LC_SERVER_MAX_RCVS : Int) ∧ d.deadlock then false else d.deadlock }

/-- The transport's copy of a message to the buffer of the receive it has matched. -/
def deposit (d : Dev) (x : Post) (data : PkData) : Dev :=
  match x.buf with
  | .null => d
  | .mem a => { d with mem := writeMem d.mem a (data.bytes.take x.size) }
  | .pkt p => d.setData p data

/-- `memcpy((void*) (tag0 + s->heap), p->data.buffer, msg_length)`. -/
def copyOut (d : Dev) (p : PktId) (tag0 : BitVec 32) (len : Nat) : Dev :=
  { d with mem := writeMem d.mem (tag0.toNat + d.heap) ((d.pk p).data.bytes.take len) }

/-- The receive part of `lc_server_progress`, for a message and the context of the receive it completed. -/
def psm2ServeRecv (env : Env) (d : Dev) (ctx : Option PktId) (m : MqMsg) : Option Dev :=
  let pkType := m.tag.tag2 &&& 0xf0000000
  if pkType = PSM_RECV_DATA then do
    let p ← ctx
    let d := (d.setReqPtr p (.own p)).setReq (.own p) fun q =>
      { q with rhandle := m.peer, rank := m.tag.tag1, size := m.len }
    let d ← lciServeRecv env d p m.tag.tag0
    some (countRecv d (-1))
  else if pkType = PSM_RECV_RDMA then do
    let p ← ctx
    some (lcServerPostRecv (copyOut (d.setReqPtr p (.own p)) p m.tag.tag0 m.len) (some p))
  else if pkType = PSM_RECV_RDMA_SID then do
    let p ← ctx
    let d ← lciServeRecvRdma env (copyOut (d.setReqPtr p (.own p)) p m.tag.tag0 m.len) p m.tag.tag1
    some (countRecv d (-1))
  else if pkType = PSM_RECV_RDMA_RTP then do
    let p ← ctx
    let addr := m.tag.tag0.toNat + d.heap
    some (countRecv (lcServerPostRecvRma d (.mem addr) (bytesSize (d.pk p).data.bytes) m.tag.tag1 (some p)) (-1))
  else if m.tag.tag1 = PSM_RDMA_IMM then do
    let q ← pktAt d.pageSize m.tag.tag0.toNat
    lciServeImm env d q
  else if m.tag.tag0 ≠ 0 then do
    let p ← ctx
    lciServeRecvRdma env (d.setReqPtr p (.own p)) p m.tag.tag1
  else do
    let p ← ctx
    poolPut env (d.setReqPtr p (.own p)) p

/-- What `psm2_mq_ipeek2` returns: a receive with the message that completed it, or the context of a send. -/
inductive MqDone
  | recv (x : Post) (m : MqMsg)
  | send (ctx : Option PktId)
deriving DecidableEq, Repr

/-- The first part of `lc_server_progress`. -/
def psm2Serve (env : Env) (d : Dev) : Option MqDone → Option Dev
  | none => some d
  | some (.recv x m) => psm2ServeRecv env (deposit { d with posted := d.posted.erase x } x m.data) x.ctx m
  | some (.send none) => some d
  | some (.send (some p)) => lciServeSend env { d with sends := d.sends.erase p } p

/-- The end of `lc_server_progress`: a receive for one more packet, if one can be had. -/
def psm2TryPost (env : Env) (d : Dev) : Dev :=
  lcServerPostRecv (d.setPool (lcPoolGetNb d.pool env).2) (lcPoolGetNb d.pool env).1

def psm2Refill (env : Env) (d : Dev) : Dev :=
  if d.recvPosted < (LC_SERVER_MAX_RCVS : Int) then psm2TryPost env d else d

/-- `lc_server_progress` of the PSM2 backend. -/
def psm2Progress (env : Env) (d : Dev) (c : Option MqDone) : Option Dev :=
  (psm2Serve env d c).map (psm2Refill env)

/-! ## The count of posted receives -/

/-- The receives that `lc_server_post_recv` has posted and no message has consumed. -/
def eagerPosts (d : Dev) : Nat := d.posted.countP fun x => x.tag2 = PSM_RECV_DATA

/-- A key of a registration: 28 bits. -/
def IsKey (k : BitVec 32) : Prop := k &&& 0xf0000000 = 0

instance : DecidablePred IsKey := fun _ => inferInstanceAs (Decidable (_ = _))

/-- A message that some call of a peer has put on the wire. -/
inductive Emitted : MqMsg → Prop
  | send (me : CInt) (mem : Nat → Byte) {m : MqMsg} (dst : CInt) (proto : BitVec 32) (size : Nat) (data : PkData) :
    m ∈ psm2Wire me mem (.send dst proto size data) → Emitted m
  | put (me : CInt) (mem : Nat → Byte) {m : MqMsg} (dst : CInt) (base : Nat) (offset rkey : BitVec 32) (src : Src)
    (metaVal : Option (BitVec 32)) : IsKey rkey → m ∈ psm2Wire me mem (.put dst base offset rkey src metaVal) →
    Emitted m
  | rma (me : CInt) (mem : Nat → Byte) {m : MqMsg} (dst : CInt) (src : Nat) (addr : Buf) (rkey : BitVec 32) (size : Nat)
    (sid : BitVec 32) : IsKey rkey → m ∈ psm2Wire me mem (.rma dst src addr rkey size sid) → Emitted m

/-- What `psm2_mq_ipeek2` can return: a posted receive with a message of its masked tag, or a send. -/
def Completes (d : Dev) : Option MqDone → Prop
  | some (.recv x m) => x ∈ d.posted ∧ masked x.tag2 = masked m.tag.tag2 ∧ Emitted m
  | _ => True

/-- No registration uses key 0, which is what the masked tags of eager messages are. -/
def KeyZeroFree (d : Dev) : Option MqDone → Prop
  | some (.recv _ m) => (∀ x ∈ d.posted, masked x.tag2 = 0 → x.tag2 = PSM_RECV_DATA) ∧ m.tag.tag2 ≠ 0
  | _ => True

instance (d : Dev) : ∀ c, Decidable (KeyZeroFree d c)
  | some (.recv _ _) => inferInstanceAs (Decidable (_ ∧ _))
  | some (.send _) => inferInstanceAs (Decidable True)
  | none => inferInstanceAs (Decidable True)

/-- The unsignalled buffered puts in what a call handles. -/
def bufferedPuts : Option MqDone → Nat
  | some (.recv _ m) => if m.tag.tag2 = PSM_RECV_RDMA then 1 else 0
  | _ => 0

/-- The device along a run of progress calls from its initialisation, `n` unsignalled buffered puts having
been handled. Between two calls the application may do anything that leaves the eager receives alone. -/
inductive PsmRun : Nat → Dev → Prop
  | init {wid : Nat} {d₀ d : Dev} : d₀.backend = .psm2 → lciDevInit wid d₀ = some d → PsmRun 0 d
  | app {n : Nat} {d d' : Dev} : PsmRun n d → d'.recvPosted = d.recvPosted → eagerPosts d' = eagerPosts d → PsmRun n d'
  | progress {n : Nat} {d d' : Dev} (env : Env) (c : Option MqDone) : PsmRun n d → Completes d c → KeyZeroFree d c →
    psm2Progress env d c = some d' → PsmRun (n + bufferedPuts c) d'

/-- The counter is ahead of the eager receives by `n`. -/
def Ahead (n : Nat) (d : Dev) : Prop := d.recvPosted = ((eagerPosts d : Int) + n) % 2 ^ 64

theorem Frame.eagerPosts {d d' : Dev} (h : Frame d d') : eagerPosts d' = eagerPosts d := by
  obtain ⟨l, hl, hx⟩ := h.posted
  have h0 : l.countP (fun x => x.tag2 = PSM_RECV_DATA) = 0 := by
    rw [List.countP_eq_zero]
    intro x hm
    have hk := (hx x hm).2
    simp only [decide_eq_true_eq]
    rintro h
    rw [h] at hk
    exact absurd hk (by decide)
  simp only [Server.eagerPosts, hl, List.countP_append, h0, Nat.add_zero]

theorem Ahead.frame {n : Nat} {d d' : Dev} (h : Ahead n d) (hf : Frame d d') : Ahead n d' := by
  unfold Ahead
  rw [hf.recvPosted, hf.eagerPosts]
  exact h

theorem Ahead.count {n : Nat} {d : Dev} (h : Ahead n d) {d' : Dev} {k : Int} {n' : Nat}
    (hr : d'.recvPosted = (d.recvPosted + k) % 2 ^ 64) (he : (eagerPosts d' : Int) + n' = eagerPosts d + n + k) :
    Ahead n' d' := by
  unfold Ahead at h ⊢
  rw [hr, h, he]
  omega

theorem eagerPosts_erase {d : Dev} {x : Post} (hx : x ∈ d.posted) :
    eagerPosts { d with posted := d.posted.erase x } + (if x.tag2 = PSM_RECV_DATA then 1 else 0) = eagerPosts d := by
  have h := (List.perm_cons_erase hx).countP_eq fun x => decide (x.tag2 = PSM_RECV_DATA)
  rw [List.countP_cons] at h
  unfold eagerPosts
  simpa using h.symm

theorem eagerPosts_append (d : Dev) (x : Post) : eagerPosts { d with posted := d.posted ++ [x] } =
    eagerPosts d + (if x.tag2 = PSM_RECV_DATA then 1 else 0) := by
  simp [eagerPosts, List.countP_append, List.countP_cons]

/-- The messages of the backend by their `tag2`: four eager kinds, and data under a key. -/
theorem Emitted.cases {m : MqMsg} (h : Emitted m) :
    m.tag.tag2 = PSM_RECV_DATA ∨ m.tag.tag2 = PSM_RECV_RDMA ∨ m.tag.tag2 = PSM_RECV_RDMA_SID ∨
      (m.tag.tag2 = PSM_RECV_RDMA_RTP ∧ IsKey m.tag.tag1) ∨ IsKey m.tag.tag2 := by
  cases h with
  | send me mem dst proto size data h =>
    rw [psm2Wire, List.mem_singleton] at h
    subst h
    exact .inl rfl
  | put me mem dst base offset rkey src mt hk h =>
    cases src with
    | bytes b =>
      rw [psm2Wire, List.mem_singleton] at h
      subst h
      cases mt with
      | none => exact .inr (.inl rfl)
      | some m => exact .inr (.inr (.inl rfl))
    | mem a n =>
      simp only [psm2Wire, List.mem_cons, List.not_mem_nil, or_false] at h
      rcases h with rfl | rfl
      · exact .inr (.inr (.inr (.inl ⟨rfl, hk⟩)))
      · cases mt <;> exact .inr (.inr (.inr (.inr hk)))
  | rma me mem dst src addr rkey size sid hk h =>
    rw [psm2Wire, List.mem_singleton] at h
    subst h
    exact .inr (.inr (.inr (.inr hk)))

theorem lcServerPostRecv_some (d : Dev) (p : PktId) :
    (lcServerPostRecv d (some p)).recvPosted = (d.recvPosted + 1) % 2 ^ 64 ∧
      eagerPosts (lcServerPostRecv d (some p)) = eagerPosts d + 1 := by
  exact ⟨rfl, eagerPosts_append d ⟨PSM_RECV_DATA, .pkt p, POST_MSG_SIZE, some p⟩⟩

theorem lcServerPostRecv_none (d : Dev) :
    (lcServerPostRecv d none).recvPosted = d.recvPosted ∧ eagerPosts (lcServerPostRecv d none) = eagerPosts d := by
  unfold lcServerPostRecv
  dsimp only
  split_ifs <;> exact ⟨rfl, rfl⟩

theorem countRecv_recvPosted (d : Dev) (k : Int) : (countRecv d k).recvPosted = (d.recvPosted + k) % 2 ^ 64 := rfl

theorem countRecv_eagerPosts (d : Dev) (k : Int) : eagerPosts (countRecv d k) = eagerPosts d := rfl

/-- An eager message is counted off; an unsignalled buffered put is counted on, its packet being posted
again. -/
theorem psm2ServeRecv_eager {env : Env} {d d' : Dev} {ctx : Option PktId} {m : MqMsg} (hm : Emitted m)
    (hk : ¬ IsKey m.tag.tag2) (h : psm2ServeRecv env d ctx m = some d') :
    if m.tag.tag2 = PSM_RECV_RDMA then
      eagerPosts d' = eagerPosts d + 1 ∧ d'.recvPosted = (d.recvPosted + 1) % 2 ^ 64
    else eagerPosts d' = eagerPosts d ∧ d'.recvPosted = (d.recvPosted + -1) % 2 ^ 64 := by
  unfold psm2ServeRecv at h
  dsimp only at h
  -- one case for each word that the backend puts in a tag
  rcases hm.cases with ht | ht | ht | ⟨ht, hkey⟩ | hkey
  · rw [if_pos (by rw [ht]; decide)] at h
    obtain ⟨p, -, h⟩ := Option.bind_eq_some_iff.1 h
    obtain ⟨d₁, h₁, h⟩ := Option.bind_eq_some_iff.1 h
    cases h
    have hf := ((frame_setReqPtr d p (.own p)).trans (frame_setReq _ _ _)).trans (frame_serveRecv h₁)
    rw [if_neg (by rw [ht]; decide), countRecv_eagerPosts, countRecv_recvPosted, hf.eagerPosts, hf.recvPosted]
    exact ⟨rfl, rfl⟩
  · rw [if_neg (by rw [ht]; decide), if_pos (by rw [ht]; decide)] at h
    obtain ⟨p, -, h⟩ := Option.bind_eq_some_iff.1 h
    cases h
    have hf : Frame d (copyOut (d.setReqPtr p (.own p)) p m.tag.tag0 m.len) :=
      (frame_setReqPtr d p (.own p)).trans (Frame.of_eq rfl)
    obtain ⟨hr, he⟩ := lcServerPostRecv_some (copyOut (d.setReqPtr p (.own p)) p m.tag.tag0 m.len) p
    rw [if_pos ht, he, hr, hf.eagerPosts, hf.recvPosted]
    exact ⟨rfl, rfl⟩
  · rw [if_neg (by rw [ht]; decide), if_neg (by rw [ht]; decide), if_pos (by rw [ht]; decide)] at h
    obtain ⟨p, -, h⟩ := Option.bind_eq_some_iff.1 h
    obtain ⟨d₁, h₁, h⟩ := Option.bind_eq_some_iff.1 h
    cases h
    have hc : Frame d (copyOut (d.setReqPtr p (.own p)) p m.tag.tag0 m.len) :=
      (frame_setReqPtr d p (.own p)).trans (Frame.of_eq rfl)
    have hf := hc.trans (frame_serveRecvRdma h₁)
    rw [if_neg (by rw [ht]; decide), countRecv_eagerPosts, countRecv_recvPosted, hf.eagerPosts, hf.recvPosted]
    exact ⟨rfl, rfl⟩
  · rw [if_neg (by rw [ht]; decide), if_neg (by rw [ht]; decide), if_neg (by rw [ht]; decide),
      if_pos (by rw [ht]; decide)] at h
    obtain ⟨p, -, h⟩ := Option.bind_eq_some_iff.1 h
    cases h
    have he := eagerPosts_append d
      ⟨m.tag.tag1, .mem (m.tag.tag0.toNat + d.heap), rmaLen (bytesSize (d.pk p).data.bytes), some p⟩
    rw [if_neg (fun hd => by rw [show m.tag.tag1 = PSM_RECV_DATA from hd] at hkey; exact absurd hkey (by decide))] at he
    rw [if_neg (by rw [ht]; decide)]
    exact ⟨he, rfl⟩
  · exact absurd hkey hk

/-- Data under a key is not counted. -/
theorem psm2ServeRecv_rma {env : Env} {d d' : Dev} {ctx : Option PktId} {m : MqMsg} (hk : IsKey m.tag.tag2)
    (h : psm2ServeRecv env d ctx m = some d') : Frame d d' := by
  unfold psm2ServeRecv at h
  dsimp only at h
  have hk0 : m.tag.tag2 &&& 0xf0000000 = 0 := hk
  rw [if_neg (by rw [hk0]; decide), if_neg (by rw [hk0]; decide), if_neg (by rw [hk0]; decide),
    if_neg (by rw [hk0]; decide)] at h
  split_ifs at h
  · obtain ⟨q, -, h⟩ := Option.bind_eq_some_iff.1 h
    exact frame_serveImm h
  · obtain ⟨p, -, h⟩ := Option.bind_eq_some_iff.1 h
    exact (frame_setReqPtr d p (.own p)).trans (frame_serveRecvRdma h)
  · obtain ⟨p, -, h⟩ := Option.bind_eq_some_iff.1 h
    exact (frame_setReqPtr d p (.own p)).trans (frame_poolPut h)

theorem deposit_posted (d : Dev) (x : Post) (data : PkData) :
    (deposit d x data).posted = d.posted ∧ (deposit d x data).recvPosted = d.recvPosted := by
  unfold deposit
  split <;> exact ⟨rfl, rfl⟩

theorem masked_key {k : BitVec 32} (hk : IsKey k) : masked k = k := by
  unfold IsKey at hk
  unfold masked LCI_PSM2_TAGSEL
  have hsplit : k &&& (0xf0000000 ||| 0x0fffffff) = (k &&& 0xf0000000) ||| (k &&& 0x0fffffff) :=
    BitVec.and_or_distrib_left
  rw [hk, show (0xf0000000 ||| 0x0fffffff : BitVec 32) = BitVec.allOnes 32 from by decide, BitVec.and_allOnes] at hsplit
  exact (hsplit.trans BitVec.zero_or).symm

/-- The step of the count: what one call handles moves the counter with the eager receives, except for
an unsignalled buffered put, and adds no receive. -/
theorem psm2Serve_ahead {env : Env} {n : Nat} {d d' : Dev} {c : Option MqDone} (hc : Completes d c)
    (hz : KeyZeroFree d c) (h : psm2Serve env d c = some d') (hd : Ahead n d) :
    Ahead (n + bufferedPuts c) d' ∧ eagerPosts d' ≤ eagerPosts d := by
  match c, hc, hz, h with
  | none, _, _, h => cases h; exact ⟨hd, le_rfl⟩
  | some (.send none), _, _, h => cases h; exact ⟨hd, le_rfl⟩
  | some (.send (some p)), _, _, h =>
    have hf : Frame d { d with sends := d.sends.erase p } := Frame.of_eq rfl
    have hf' := hf.trans (frame_serveSend h)
    exact ⟨hd.frame hf', hf'.eagerPosts.le⟩
  | some (.recv x m), ⟨hx, hmask, hm⟩, ⟨hzero, hne⟩, h =>
    -- the device the message is served on: the receive is gone, its buffer filled
    have he := eagerPosts_erase hx
    have hdep : eagerPosts (deposit { d with posted := d.posted.erase x } x m.data) =
        eagerPosts { d with posted := d.posted.erase x } ∧
        (deposit { d with posted := d.posted.erase x } x m.data).recvPosted = d.recvPosted := by
      obtain ⟨hp, hr⟩ := deposit_posted { d with posted := d.posted.erase x } x m.data
      exact ⟨by unfold eagerPosts; rw [hp], hr⟩
    by_cases hk : IsKey m.tag.tag2
    · have hxd : x.tag2 ≠ PSM_RECV_DATA := by
        rintro hxd
        rw [hxd, masked_key hk] at hmask
        exact hne (hmask.symm.trans (by decide))
      rw [if_neg hxd] at he
      have hb : bufferedPuts (some (.recv x m)) = 0 := by
        refine if_neg fun hh => ?_
        rw [hh] at hk
        exact absurd hk (by decide)
      have hf := psm2ServeRecv_rma hk h
      have hd' : eagerPosts d' = eagerPosts d := by rw [hf.eagerPosts, hdep.1]; exact he
      refine ⟨?_, hd'.le⟩
      unfold Ahead
      rw [hf.recvPosted, hdep.2, hd', hb]
      exact hd
    · have hxd : x.tag2 = PSM_RECV_DATA := by
        refine hzero x hx (hmask.trans ?_)
        rcases hm.cases with ht | ht | ht | ⟨ht, -⟩ | hkey
        · rw [ht]; decide
        · rw [ht]; decide
        · rw [ht]; decide
        · rw [ht]; decide
        · exact absurd hkey hk
      rw [if_pos hxd] at he
      have hs := psm2ServeRecv_eager hm hk h
      rw [hdep.1, hdep.2] at hs
      have hb : bufferedPuts (some (.recv x m)) = if m.tag.tag2 = PSM_RECV_RDMA then 1 else 0 := rfl
      rw [hb]
      split_ifs at hs ⊢
      · exact ⟨hd.count hs.2 (by push_cast; omega), by omega⟩
      · exact ⟨hd.count hs.2 (by push_cast; omega), by omega⟩

theorem psm2TryPost_ahead {env : Env} {n : Nat} {d : Dev} (hd : Ahead n d) : Ahead n (psm2TryPost env d) := by
  have hf : Ahead n (d.setPool (lcPoolGetNb d.pool env).2) := hd.frame (frame_setPool _ _)
  unfold psm2TryPost
  cases (lcPoolGetNb d.pool env).1 with
  | none =>
    obtain ⟨hr, he⟩ := lcServerPostRecv_none (d.setPool (lcPoolGetNb d.pool env).2)
    unfold Ahead
    rw [hr, he]
    exact hf
  | some p =>
    obtain ⟨hr, he⟩ := lcServerPostRecv_some (d.setPool (lcPoolGetNb d.pool env).2) p
    exact hf.count hr (by rw [he]; push_cast; ring)

/-- Along every run the counter is ahead of the eager receives by the unsignalled buffered puts handled. -/
theorem PsmRun.ahead {n : Nat} {d : Dev} (h : PsmRun n d) : Ahead n d := by
  induction h with
  | init hb hi =>
    rw [lciDevInit_eq] at hi
    cases hi
    unfold Ahead eagerPosts
    simp [lcServerInit, hb, lcServerGetFreeKey]
  | app _ hr he ih =>
    unfold Ahead
    rw [hr, he]
    exact ih
  | progress env c _ hc hz hp ih =>
    obtain ⟨d₁, h₁, rfl⟩ := Option.map_eq_some_iff.1 hp
    have hd₁ := (psm2Serve_ahead hc hz h₁ ih).1
    unfold psm2Refill
    split_ifs
    · exact psm2TryPost_ahead hd₁
    · exact hd₁

/-- The receives posted never exceed the limit while no unsignalled buffered put is handled. -/
theorem PsmRun.eager_le {n : Nat} {d : Dev} (h : PsmRun n d) (hn : n = 0) : eagerPosts d ≤ LC_SERVER_MAX_RCVS := by
  induction h with
  | init hb hi =>
    rw [lciDevInit_eq] at hi
    cases hi
    simp [eagerPosts, lcServerInit, hb, lcServerGetFreeKey]
  | app _ _ he ih => exact he ▸ ih hn
  | @progress n d d' env c hd hc hz hp ih =>
    obtain ⟨rfl, hb⟩ := Nat.add_eq_zero_iff.1 hn
    obtain ⟨d₁, h₁, rfl⟩ := Option.map_eq_some_iff.1 hp
    obtain ⟨ha, hle⟩ := psm2Serve_ahead hc hz h₁ hd.ahead
    rw [hb] at ha
    have hle₁ : eagerPosts d₁ ≤ LC_SERVER_MAX_RCVS := hle.trans (ih rfl)
    unfold psm2Refill
    split_ifs with hlt
    · have hlt' : eagerPosts d₁ < LC_SERVER_MAX_RCVS := by
        unfold Ahead at ha
        unfold LC_SERVER_MAX_RCVS at hlt hle₁ ⊢
        omega
      unfold psm2TryPost
      have hp := (frame_setPool d₁ (lcPoolGetNb d₁.pool env).2).eagerPosts
      cases (lcPoolGetNb d₁.pool env).1 with
      | none => rw [(lcServerPostRecv_none _).2, hp]; exact hle₁
      | some p => rw [(lcServerPostRecv_some _ p).2, hp]; exact hlt'
    · exact hle₁

/-- The receive accounting of PSM2. Along every run the counter exceeds the receives really posted by the
number of unsignalled buffered puts handled (modulo the `size_t`). While there has been none, it is the
number of receives posted, stays within the limit, and the next call tries to post another receive
whenever it leaves fewer than the limit. -/
theorem psm2_recv_accounting {n : Nat} {d : Dev} (h : PsmRun n d) :
    d.recvPosted = ((eagerPosts d : Int) + n) % 2 ^ 64 ∧
    (n = 0 → d.recvPosted = eagerPosts d ∧ d.recvPosted ≤ LC_SERVER_MAX_RCVS ∧
      ∀ env c d₁, Completes d c → KeyZeroFree d c → bufferedPuts c = 0 → psm2Serve env d c = some d₁ →
        eagerPosts d₁ < LC_SERVER_MAX_RCVS → psm2Progress env d c = some (psm2TryPost env d₁)) := by
  refine ⟨h.ahead, fun hn => ?_⟩
  have ha := h.ahead
  have hle := h.eager_le hn
  unfold Ahead at ha
  unfold LC_SERVER_MAX_RCVS at hle ⊢
  refine ⟨by omega, by omega, fun env c d₁ hc hz hb h₁ hlt => ?_⟩
  have ha₁ := (psm2Serve_ahead hc hz h₁ h.ahead).1
  unfold Ahead at ha₁
  have hlt₁ : d₁.recvPosted < (LC_SERVER_MAX_RCVS : Int) := by
    unfold LC_SERVER_MAX_RCVS
    omega
  rw [psm2Progress, h₁, Option.map_some, psm2Refill, if_pos hlt₁]

/-- A call on a new device posts its last packet. -/
theorem psm2Refill_init (d₀ : Dev) (hb : d₀.backend = .psm2) : ∃ d, lciDevInit 0 d₀ = some d ∧
    (psm2Refill ⟨0, 0, 0⟩ d).posted = [⟨PSM_RECV_DATA, .pkt 1023, POST_MSG_SIZE, some 1023⟩] ∧
    PsmRun 0 (psm2Refill ⟨0, 0, 0⟩ d) := by
  refine ⟨_, lciDevInit_eq 0 d₀, ?_, ?_⟩
  · simp [psm2Refill, psm2TryPost, lcPoolGetNb, lcPoolGetLocal, dqPopTop, lcServerPostRecv, countRecv, Dev.setPool,
      lcServerInit, hb, lcServerGetFreeKey, LC_SERVER_MAX_RCVS, LC_SERVER_NUM_PKTS, List.getLast?_range]
  · exact .progress (n := 0) ⟨0, 0, 0⟩ none (.init hb (lciDevInit_eq 0 d₀)) trivial trivial rfl

/-- The first call on a new device posts one receive, and counts it; the control message of a long put completes it,
and after the next call the counter is the number of receives posted again. -/
theorem psm2_recv_accounting_control_message :
    ∃ d x m d', PsmRun 0 d ∧ eagerPosts d = 1 ∧ d.recvPosted = eagerPosts d ∧ Completes d (some (.recv x m)) ∧
      psm2Progress ⟨0, 0, 0⟩ d (some (.recv x m)) = some d' ∧ d'.recvPosted = eagerPosts d' := by
  obtain ⟨d, -, hp, hr⟩ := psm2Refill_init (rawDev .psm2 4096 .exp .sync) rfl
  let m : MqMsg := ⟨psmTagSrdmaRts 65536 5, 1, 8, .buffer (sizeBytes 4)⟩
  let x : Post := ⟨PSM_RECV_DATA, .pkt 1023, POST_MSG_SIZE, some 1023⟩
  have hm : Emitted m := .put 1 (fun _ => 0) 0 0 65536 5 (.mem 0 4) none (by decide) (by simp [psm2Wire, m])
  have hc : Completes (psm2Refill ⟨0, 0, 0⟩ d) (some (.recv x m)) := ⟨by rw [hp]; simp [x], by decide, hm⟩
  obtain ⟨d', hd'⟩ : ∃ d', psm2Progress ⟨0, 0, 0⟩ (psm2Refill ⟨0, 0, 0⟩ d) (some (.recv x m)) = some d' := by
    unfold psm2Progress psm2Serve psm2ServeRecv
    dsimp only
    rw [if_neg (by decide), if_neg (by decide), if_neg (by decide), if_pos (by decide)]
    exact ⟨_, rfl⟩
  have hrun : PsmRun 0 d' := .progress ⟨0, 0, 0⟩ (some (.recv x m)) hr hc ⟨by rw [hp]; simp, by decide⟩ hd'
  exact ⟨_, x, m, d', hr, by rw [eagerPosts, hp]; decide, ((psm2_recv_accounting hr).2 rfl).1, hc, hd',
    ((psm2_recv_accounting hrun).2 rfl).1⟩

/-- One unsignalled buffered put of four bytes on a new device: the counter stays one ahead. -/
theorem psm2_counter_drifts : ∃ d, PsmRun 1 d ∧ d.recvPosted ≠ eagerPosts d := by
  obtain ⟨d, -, hp, hr⟩ := psm2Refill_init (rawDev .psm2 4096 .exp .sync) rfl
  let m : MqMsg := ⟨psmTagSrdma 65536, 1, 4, .buffer [1, 2, 3, 4]⟩
  let x : Post := ⟨PSM_RECV_DATA, .pkt 1023, POST_MSG_SIZE, some 1023⟩
  have hm : Emitted m := .put 1 (fun _ => 0) 0 0 65536 1 (.bytes [1, 2, 3, 4]) none (by decide)
    (by simp [psm2Wire, psm2PutWire, m])
  obtain ⟨d', hd'⟩ : ∃ d', psm2Progress ⟨0, 0, 0⟩ (psm2Refill ⟨0, 0, 0⟩ d) (some (.recv x m)) = some d' := by
    unfold psm2Progress psm2Serve psm2ServeRecv
    dsimp only
    rw [if_neg (by decide), if_pos (by decide)]
    exact ⟨_, rfl⟩
  have hrun : PsmRun 1 d' := .progress ⟨0, 0, 0⟩ (some (.recv x m)) hr ⟨by rw [hp]; simp [x], by decide, hm⟩
    ⟨by rw [hp]; simp, by decide⟩ hd'
  have ha := hrun.ahead
  unfold Ahead at ha
  exact ⟨d', hrun, by omega⟩

end Lci.Server
