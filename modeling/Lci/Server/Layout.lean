/-
The heap as `lci_dev_init` lays it out, and what a medium message writes of it. Packets are
`LC_PACKET_SIZE` apart and begin with their context, so the data area of one is shorter than that by a
context; `lc_send` and `lc_max_medium` take the whole of `LC_PACKET_SIZE` for it.
-/
import Lci.Server.Api

namespace Lci.Server

open Lci.Proto

/-- `base_packet + p * LC_PACKET_SIZE`, where packet `p` and its context begin. -/
def packetAddr (heap pageSize : Nat) (p : PktId) : Nat := heap + pktOffset pageSize p

/-- `&p->data`. -/
def dataAddr (heap pageSize : Nat) (p : PktId) : Nat := packetAddr heap pageSize p + packetContextSize

/-- The addresses written by `memcpy(p->data.buffer, src, size)`. -/
def copied (heap pageSize : Nat) (p : PktId) (size : Nat) : List Nat :=
  (List.range size).map fun i => dataAddr heap pageSize p + i

/-- `lc_max_short`. -/
def lcMaxShort : Nat := LC_MAX_INLINE

/-- `lc_max_medium`. -/
def lcMaxMedium : Nat := LC_PACKET_SIZE

/-- The addresses that are written stay in the data area. -/
def InPacket (heap pageSize : Nat) (p : PktId) (size : Nat) : Prop :=
  ∀ a ∈ copied heap pageSize p size, dataAddr heap pageSize p ≤ a ∧ a < packetAddr heap pageSize (p + 1)

/-- The payload stays between its packet's context and the next packet, and is not longer than what the
peer posts its receives with. -/
structure MediumFits (heap pageSize : Nat) (p : PktId) (size : Nat) : Prop where
  own : InPacket heap pageSize p size
  posted : size ≤ POST_MSG_SIZE

theorem dataAddr_add (heap pageSize : Nat) (p : PktId) :
    dataAddr heap pageSize p + POST_MSG_SIZE = packetAddr heap pageSize (p + 1) := by
  unfold dataAddr packetAddr pktOffset POST_MSG_SIZE LC_PACKET_SIZE packetContextSize
  omega

/-- What `lc_send` does with the result of `lc_sendm`. -/
def sendmDone (cb ce xfer : Nat) : LcStatus × Dev → LcStatus × Dev
  | (.ok, d) => (.ok, d.event (.callback cb ce xfer))
  | (.errRetry, d) => (.errRetry, d)

/-- `lc_send` takes the medium path for every size above `lc_max_short` up to `lc_max_medium`. -/
theorem lcSend_medium (env : Env) (d : Dev) (src : Nat) {size : Nat} (rank tag : CInt) (ep cb ce xfer : Nat)
    (hlo : lcMaxShort < size) (hhi : size ≤ lcMaxMedium) :
    lcSend env d src size rank tag ep cb ce xfer =
      (lcSendm env d src size rank tag ep).map (sendmDone cb ce xfer) := by
  have h1 : ¬ size ≤ LC_MAX_INLINE := not_le.2 hlo
  have h2 : size ≤ LC_PACKET_SIZE := hhi
  unfold lcSend
  rw [if_neg h1, if_pos h2]
  cases h : lcSendm env d src size rank tag ep with
  | none => rfl
  | some r =>
    obtain ⟨st, d'⟩ := r
    cases st <;> rfl

/-- What goes over the data area is in the context of the next packet. -/
theorem overrun_mem (heap pageSize : Nat) (p : PktId) {size : Nat} (h : POST_MSG_SIZE < size) :
    packetAddr heap pageSize (p + 1) ∈ copied heap pageSize p size := by
  rw [← dataAddr_add]
  exact List.mem_map.2 ⟨POST_MSG_SIZE, List.mem_range.2 h, rfl⟩

theorem inPacket_iff (heap pageSize : Nat) (p : PktId) (size : Nat) :
    InPacket heap pageSize p size ↔ size ≤ POST_MSG_SIZE := by
  constructor
  · intro h
    by_contra hs
    exact absurd (h _ (overrun_mem heap pageSize p (not_le.1 hs))).2 (lt_irrefl _)
  · intro hs a ha
    obtain ⟨i, hi, rfl⟩ := List.mem_map.1 ha
    have hi := List.mem_range.1 hi
    have hnext := dataAddr_add heap pageSize p
    constructor <;> omega

section

variable {env : Env} {d : Dev} {src size ep : Nat} {p : PktId}

/-- The copy of a medium message fills its packet, a byte for every address, and is defined where it stays in it. -/
theorem mediumPacket_copied (hp : (poolGetOrRetn env d).1 = some p) :
    (InPacket d.heap d.pageSize p size ∧ ∃ d', mediumPacket env d src size ep = some (some p, d') ∧
      ((d'.pk p).data.bytes.length = (copied d.heap d.pageSize p size).length)) ∨
    (¬ InPacket d.heap d.pageSize p size ∧ mediumPacket env d src size ep = none) := by
  unfold mediumPacket
  generalize poolGetOrRetn env d = r at hp
  obtain ⟨o, d₁⟩ := r
  subst hp
  rw [inPacket_iff]
  by_cases hs : size ≤ POST_MSG_SIZE
  · exact .inl ⟨hs, _, if_pos hs, by simp [PkData.bytes, copied, readMem, Dev.setData]⟩
  · exact .inr ⟨hs, if_neg hs⟩

/-- `lc_sendm`, `lc_putm` and `lc_putms` are defined exactly where what they copy stays in the packet they have got. -/
theorem medium_defined_iff (hp : (poolGetOrRetn env d).1 = some p) (rank tag : CInt) (addr : Nat) (metaVal : CInt) :
    ((lcSendm env d src size rank tag ep).isSome ↔ InPacket d.heap d.pageSize p size) ∧
    ((lcPutm env d src size rank addr ep).isSome ↔ InPacket d.heap d.pageSize p size) ∧
    ((lcPutms env d src size rank addr metaVal ep).isSome ↔ InPacket d.heap d.pageSize p size) := by
  unfold lcSendm lcPutm lcPutms
  obtain ⟨h, d', he, -⟩ | ⟨h, he⟩ := @mediumPacket_copied env d src size ep p hp
  · rw [he]
    exact ⟨iff_of_true rfl h, iff_of_true rfl h, iff_of_true rfl h⟩
  · rw [he]
    exact ⟨iff_of_false nofun h, iff_of_false nofun h, iff_of_false nofun h⟩

end

/-- For every size up to `lc_max_medium` and every packet: `lc_send` routes the size to `lc_sendm` unless
it is short, and the payload fits its packet if and only if it is at most 12180 bytes long, which is
`LC_PACKET_SIZE` less a context. -/
theorem medium_fits_iff (heap pageSize : Nat) (p : PktId) {size : Nat} (hs : size ≤ lcMaxMedium) :
    (lcMaxShort < size → ∀ env d src rank tag ep cb ce xfer, lcSend env d src size rank tag ep cb ce xfer =
      (lcSendm env d src size rank tag ep).map (sendmDone cb ce xfer)) ∧
    (MediumFits heap pageSize p size ↔ size ≤ 12180) := by
  refine ⟨fun hlo env d src rank tag ep cb ce xfer => lcSend_medium env d src rank tag ep cb ce xfer hlo hs,
    fun h => h.posted, fun h => ⟨(inPacket_iff heap pageSize p size).2 h, h⟩⟩

/-- A payload of 8192 bytes in packet 3. -/
theorem medium_fits_iff_8192 : 8192 ≤ lcMaxMedium ∧ MediumFits 0 4096 3 8192 :=
  ⟨by decide, (medium_fits_iff 0 4096 3 (by decide)).2.2 (by decide)⟩

/-- The largest medium size in packet 0 of a heap at address 0: `lc_send` routes it to `lc_sendm`, and the
copy reaches the context of packet 1. -/
theorem medium_overrun :
    lcMaxShort < 12288 ∧ 12288 ≤ lcMaxMedium ∧ packetAddr 0 4096 1 ∈ copied 0 4096 0 12288 ∧
      ¬ MediumFits 0 4096 0 12288 :=
  ⟨by decide, by decide, overrun_mem 0 4096 0 (by decide), fun h => absurd h.posted (by decide)⟩

end Lci.Server
