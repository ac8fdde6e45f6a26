/-
The tags of the PSM2 backend tell its messages apart. A message of one of the four eager kinds is taken
by the receives of `lc_server_post_recv` and by no receive of a registration; data under a key is taken
by the receives of that key alone; and `lc_server_progress` serves either as the kind it was sent as.
-/
import Lci.Server.Psm2

namespace Lci.Server

open Lci.Proto

/-! ## Kinds of messages -/

/-- A message by what its sender put in the tag. -/
inductive Kind
  | data (proto : BitVec 32) (rank : CInt)
  | put (offset : BitVec 32)
  | putSignal (offset word : BitVec 32)
  | rtp (offset rkey : BitVec 32)
  | dat (rkey : BitVec 32)
  | datSignal (rkey word : BitVec 32)
  | datImm (rkey sid : BitVec 32)
deriving DecidableEq, Repr

namespace Kind

def tag : Kind → MqTag
  | .data proto rank => psmTagTsendData proto rank
  | .put offset => psmTagSrdma offset
  | .putSignal offset word => psmTagSrdmaMeta offset word
  | .rtp offset rkey => psmTagSrdmaRts offset rkey
  | .dat rkey => psmTagSrdmaDat rkey
  | .datSignal rkey word => psmTagSrdmaDatMeta rkey word
  | .datImm rkey sid => psmTagSrdmaDatImm rkey sid

/-- The key of RMA data; the eager kinds have none. -/
def key : Kind → Option (BitVec 32)
  | .dat rkey | .datSignal rkey _ | .datImm rkey _ => some rkey
  | _ => none

end Kind

/-- A key that `lc_server_get_free_key` gives out, 0 apart. -/
def ValidRkey (k : BitVec 32) : Prop := 1 ≤ k.toNat ∧ k.toNat < 2 ^ 28

instance : DecidablePred ValidRkey := fun _ => inferInstanceAs (Decidable (_ ∧ _))

/-- The word of an endpoint, with a meta of 16 bits. -/
def ValidWord (proto : LcProto) (w : BitVec 32) : Prop :=
  ∃ g m : CInt, g.toNat < 2 ^ 14 ∧ m.toNat < 2 ^ 16 ∧ w = makeProto g proto m

/-- The field values of a message of each kind; a signal is sent under `LC_PROTO_LONG`. -/
def Kind.Valid : Kind → Prop
  | .data proto _ => ∃ k, ValidWord k proto
  | .put _ => True
  | .putSignal _ word => ValidWord .long word
  | .rtp _ rkey => ValidRkey rkey
  | .dat rkey => ValidRkey rkey
  | .datSignal rkey word => ValidRkey rkey ∧ ValidWord .long word
  | .datImm rkey _ => ValidRkey rkey

/-- The kinds of the messages of one call. -/
def psm2Kinds (me : CInt) : Msg → List Kind
  | .send _ proto _ _ => [.data proto me]
  | .put _ _ offset _ (.bytes _) none => [.put offset]
  | .put _ _ offset _ (.bytes _) (some word) => [.putSignal offset word]
  | .put _ _ offset rkey (.mem _ _) none => [.rtp offset rkey, .dat rkey]
  | .put _ _ offset rkey (.mem _ _) (some word) => [.rtp offset rkey, .datSignal rkey word]
  | .rma _ _ _ rkey _ sid => [.datImm rkey sid]

/-- What a call puts on the wire are messages of its kinds. -/
theorem psm2Wire_tags (me : CInt) (mem : Nat → Byte) (msg : Msg) :
    (psm2Wire me mem msg).map (·.tag) = (psm2Kinds me msg).map Kind.tag := by
  cases msg with
  | send dst proto size data => rfl
  | put dst base offset rkey src m => cases src <;> cases m <;> rfl
  | rma dst src addr rkey size sid => rfl

/-! ## Matching -/

/-- `PSM_TAG_TRECV_DATA`. -/
def psmTagTrecvData : MqTag := ⟨0x0, 0x0, PSM_RECV_DATA⟩

/-- `PSM_TAG_RRDMA_DAT`. -/
def psmTagRrdmaDat (rkey : BitVec 32) : MqTag := ⟨0, 0, rkey⟩

/-- A message takes a receive whose tag is its own under the receive's selector. -/
def mqMatches (rtag rtagsel tag : MqTag) : Prop :=
  rtag.tag0 &&& rtagsel.tag0 = tag.tag0 &&& rtagsel.tag0 ∧
    rtag.tag1 &&& rtagsel.tag1 = tag.tag1 &&& rtagsel.tag1 ∧
    rtag.tag2 &&& rtagsel.tag2 = tag.tag2 &&& rtagsel.tag2

theorem ValidRkey.isKey {k : BitVec 32} (h : ValidRkey k) : IsKey k := by
  have hlow : k &&& BitVec.ofNat 32 (2 ^ 28 - 1) = k := by
    apply BitVec.eq_of_toNat_eq
    rw [and_low k 28 (by decide)]
    exact Nat.mod_eq_of_lt h.2
  unfold IsKey
  rw [← hlow, BitVec.and_assoc, show BitVec.ofNat 32 (2 ^ 28 - 1) &&& 0xf0000000 = (0 : BitVec 32) from by decide]
  exact BitVec.and_zero

theorem ValidRkey.ne_zero {k : BitVec 32} (h : ValidRkey k) : k ≠ 0 := by
  rintro rfl
  exact absurd h.1 (by decide)

/-- The selector looks at `tag2` alone. -/
theorem mqMatches_iff (r m : MqTag) : mqMatches r LCI_PSM2_TAGSEL m ↔ masked r.tag2 = masked m.tag2 := by
  simp [mqMatches, masked, LCI_PSM2_TAGSEL]

/-- What the selector keeps of a message: its key, or 0. -/
theorem Kind.masked_tag {k : Kind} (hk : k.Valid) : masked k.tag.tag2 = k.key.getD 0 := by
  cases k with
  | data proto rank => exact (by decide : masked PSM_RECV_DATA = 0)
  | put offset => exact (by decide : masked PSM_RECV_RDMA = 0)
  | putSignal offset word => exact (by decide : masked PSM_RECV_RDMA_SID = 0)
  | rtp offset rkey => exact (by decide : masked PSM_RECV_RDMA_RTP = 0)
  | dat rkey => exact masked_key hk.isKey
  | datSignal rkey word => exact masked_key hk.1.isKey
  | datImm rkey sid => exact masked_key hk.isKey

theorem Kind.key_valid {k : Kind} (hk : k.Valid) {key : BitVec 32} (h : k.key = some key) : ValidRkey key := by
  cases k <;> cases h
  · exact hk
  · exact hk.1
  · exact hk

/-! ## Serving -/

/-- What `lc_server_progress` is to do with a message of each kind, from `peer` and `len` bytes long, that
has completed a receive with context `ctx`. -/
def Kind.serve (env : Env) (d : Dev) (ctx : Option PktId) (peer : CInt) (len : Nat) : Kind → Option Dev
  | .data proto rank => do
    let p ← ctx
    let d ← lciServeRecv env ((d.setReqPtr p (.own p)).setReq (.own p) fun q =>
      { q with rhandle := peer, rank := rank, size := len }) p proto
    some (countRecv d (-1))
  | .put offset => do
    let p ← ctx
    some (lcServerPostRecv (copyOut (d.setReqPtr p (.own p)) p offset len) (some p))
  | .putSignal offset word => do
    let p ← ctx
    let d ← lciServeRecvRdma env (copyOut (d.setReqPtr p (.own p)) p offset len) p word
    some (countRecv d (-1))
  | .rtp offset rkey => do
    let p ← ctx
    some (countRecv (lcServerPostRecvRma d (.mem (offset.toNat + d.heap)) (bytesSize (d.pk p).data.bytes) rkey
      (some p)) (-1))
  | .dat _ => do
    let p ← ctx
    poolPut env (d.setReqPtr p (.own p)) p
  | .datSignal _ word => do
    let p ← ctx
    lciServeRecvRdma env (d.setReqPtr p (.own p)) p word
  | .datImm _ sid => do
    let q ← pktAt d.pageSize sid.toNat
    lciServeImm env d q

/-- The word of a signal is not the mark of an immediate: its low bits are those of `LC_PROTO_LONG`. -/
theorem ValidWord.ne_imm {w : BitVec 32} (h : ValidWord .long w) : w ≠ PSM_RDMA_IMM := by
  obtain ⟨g, m, hg, -, rfl⟩ := h
  rintro he
  have hp := protoGetProto_makeProto hg .long m
  rw [he] at hp
  exact absurd hp (by decide)

/-- The branches of `lc_server_progress` on a tag whose kind bits are 0. -/
theorem psm2ServeRecv_key {env : Env} {d : Dev} {ctx : Option PktId} {m : MqMsg} (hk : IsKey m.tag.tag2) :
    psm2ServeRecv env d ctx m =
      if m.tag.tag1 = PSM_RDMA_IMM then (do let q ← pktAt d.pageSize m.tag.tag0.toNat; lciServeImm env d q)
      else if m.tag.tag0 ≠ 0 then (do let p ← ctx; lciServeRecvRdma env (d.setReqPtr p (.own p)) p m.tag.tag1)
      else (do let p ← ctx; poolPut env (d.setReqPtr p (.own p)) p) := by
  have hk0 : m.tag.tag2 &&& 0xf0000000 = 0 := hk
  unfold psm2ServeRecv
  dsimp only
  rw [if_neg (by rw [hk0]; decide), if_neg (by rw [hk0]; decide), if_neg (by rw [hk0]; decide),
    if_neg (by rw [hk0]; decide)]

/-- A message is served as the kind it was sent as, with the fields it was sent with. -/
theorem Kind.serve_eq {k : Kind} (hk : k.Valid) (env : Env) (d : Dev) (ctx : Option PktId) (m : MqMsg)
    (hm : m.tag = k.tag) : psm2ServeRecv env d ctx m = k.serve env d ctx m.peer m.len := by
  obtain ⟨tag, peer, len, data⟩ := m
  subst hm
  cases k with
  | data proto rank =>
    unfold psm2ServeRecv
    dsimp only [tag, psmTagTsendData]
    rw [if_pos (by decide)]
    rfl
  | put offset =>
    unfold psm2ServeRecv
    dsimp only [tag, psmTagSrdma]
    rw [if_neg (by decide), if_pos (by decide)]
    rfl
  | putSignal offset word =>
    unfold psm2ServeRecv
    dsimp only [tag, psmTagSrdmaMeta]
    rw [if_neg (by decide), if_neg (by decide), if_pos (by decide)]
    rfl
  | rtp offset rkey =>
    unfold psm2ServeRecv
    dsimp only [tag, psmTagSrdmaRts]
    rw [if_neg (by decide), if_neg (by decide), if_neg (by decide), if_pos (by decide)]
    rfl
  | dat rkey =>
    rw [psm2ServeRecv_key hk.isKey]
    rfl
  | datSignal rkey word =>
    rw [psm2ServeRecv_key hk.1.isKey]
    exact (if_neg hk.2.ne_imm).trans (if_pos (by decide : (1 : BitVec 32) ≠ 0))
  | datImm rkey sid =>
    rw [psm2ServeRecv_key hk.isKey]
    rfl

/-- The tags of the PSM2 backend are unambiguous. A message of any kind matches a receive of
`lc_server_post_recv` if and only if it is eager, that is, has no key; it matches the receive posted for a
key if and only if it is RMA data with that key; and `lc_server_progress` serves it as its kind, with the
offset, key, word, rank and sid it was sent with. The messages of a call are of the kinds of that call. -/
theorem psm2_tags_demultiplex :
    (∀ me mem msg, (psm2Wire me mem msg).map (·.tag) = (psm2Kinds me msg).map Kind.tag) ∧
    ∀ k : Kind, k.Valid →
      (mqMatches psmTagTrecvData LCI_PSM2_TAGSEL k.tag ↔ k.key = none) ∧
      (∀ key, ValidRkey key → (mqMatches (psmTagRrdmaDat key) LCI_PSM2_TAGSEL k.tag ↔ k.key = some key)) ∧
      ∀ env d ctx m, m.tag = k.tag → psm2ServeRecv env d ctx m = k.serve env d ctx m.peer m.len := by
  refine ⟨psm2Wire_tags, fun k hk => ⟨?_, fun key hkey => ?_, fun env d ctx m hm => Kind.serve_eq hk env d ctx m hm⟩⟩
  · rw [mqMatches_iff, Kind.masked_tag hk, show masked psmTagTrecvData.tag2 = 0 from by decide]
    cases h : k.key with
    | none => simp
    | some key => simpa using (Kind.key_valid hk h).ne_zero.symm
  · rw [mqMatches_iff, Kind.masked_tag hk, show masked (psmTagRrdmaDat key).tag2 = key from masked_key hkey.isKey]
    cases k.key with
    | none => simpa using hkey.ne_zero
    | some key' => simpa using eq_comm

/-- Signalled put data with key 5, word of endpoint 0 and meta 2^15. -/
theorem psm2_tags_demultiplex_signal :
    mqMatches (psmTagRrdmaDat 5) LCI_PSM2_TAGSEL (Kind.datSignal 5 (makeProto 0 .long 32768)).tag ∧
      ¬ mqMatches psmTagTrecvData LCI_PSM2_TAGSEL (Kind.datSignal 5 (makeProto 0 .long 32768)).tag := by
  have h := psm2_tags_demultiplex.2 (.datSignal 5 (makeProto 0 .long 32768))
    ⟨by decide, 0, 32768, by decide, by decide, rfl⟩
  exact ⟨(h.2.1 5 (by decide)).2 rfl, fun hm => absurd (h.1.1 hm) (by decide)⟩

end Lci.Server
