/-
The schedules of the non-blocking collectives (coll/common.h, coll/ialreduce.h, coll/ibarrier.h): a
request holds the operations of its rank, and the call that starts a collective appends them in
order. The operations of one request share their size, tag and endpoint, so these stand in the
request once.
-/
import Mathlib.Data.Nat.Log
import Mathlib.Tactic

namespace Lci.Coll

abbrev Bytes := List UInt8

/-- The buffers a collective works on: the caller's two, the temporary one (`inplacebuf`), and the
request's own byte (`req->empty`). -/
inductive Buf
  | sbuf
  | rbuf
  | tmp
  | empty
deriving DecidableEq

/-- The contents of the buffers, of each the bytes that the call names. -/
abbrev Mem := Buf → Bytes

/-- An operation of a schedule (`lc_col_sched`). -/
inductive ColSched
  | send (src : Buf) (rank : Nat)
  | recv (src : Buf) (rank : Nat)
  | sendrecv (src dst : Buf) (rank : Nat)
  | op (dst src : Buf)
  | mem (dst src : Buf)
  | free (src : Buf)
deriving DecidableEq

/-- A request (`lc_colreq`); `sync0` and `sync1` are the flags of `pending[0]` and `pending[1]`, and
`total` is the length of `next`. -/
structure ColReq where
  flag : Bool
  cur : Nat
  sync0 : Bool
  sync1 : Bool
  op : Bytes → Bytes → Bytes
  next : List ColSched
  size : Nat
  tag : Nat

/-- `lc_colreq_init`. -/
def lcColreqInit (req : ColReq) : ColReq :=
  { req with flag := false, cur := 0, next := [], sync0 := true, sync1 := true }

def LC_MAX_INLINE : Nat := 128

def LC_PACKET_SIZE : Nat := 12288

/-- Whether `lc_send` of `size` bytes leaves its completion to the peer: short and medium messages run
their callback before it returns. -/
def lcSendWaits (size : Nat) : Bool :=
  if size ≤ LC_MAX_INLINE then false else if size ≤ LC_PACKET_SIZE then false else true

/-- `opal_next_poweroftwo`, on 32-bit integers. -/
def opalNextPoweroftwo (value : BitVec 32) : BitVec 32 :=
  if value = 0 then 1 else (1 : BitVec 32) <<< (32 - value.clz)

/-! ## Allreduce: recursive doubling -/

def MCA_COLL_BASE_TAG_IALLREDUCE : Nat := 1340

/-- The nearest power of two less than or equal to `size`. -/
def adjsize (size : Nat) : Nat := ((opalNextPoweroftwo (BitVec.ofNat 32 size)).sshiftRight 1).toNat

def extraRanks (size : Nat) : Nat := size - adjsize size

/-- The rank among those that exchange; `none` is the -1 of the ranks that only hand in their data. -/
def newrank (size rank : Nat) : Option Nat :=
  if rank < 2 * extraRanks size then
    if rank % 2 = 0 then none else some (rank >>> 1)
  else some (rank - extraRanks size)

/-- The rank behind a new rank. -/
def remote (size newremote : Nat) : Nat :=
  if newremote < extraRanks size then newremote * 2 + 1 else newremote + extraRanks size

/-- What precedes the loop: extra ranks hand their data to their neighbour. -/
def foldIn (size rank : Nat) : List ColSched :=
  if rank < 2 * extraRanks size then
    if rank % 2 = 0 then [.send .tmp (rank + 1)] else [.recv .rbuf (rank - 1), .op .tmp .rbuf]
  else []

/-- The loop over `distance = 2^k`. -/
def exchange (size newrank k : Nat) : List ColSched :=
  if 1 <<< k < adjsize size then
    .sendrecv .tmp .rbuf (remote size (newrank ^^^ (1 <<< k))) :: .op .tmp .rbuf :: exchange size newrank (k + 1)
  else []
termination_by adjsize size - 1 <<< k
decreasing_by
  have : 1 <<< (k + 1) = 2 * 1 <<< k := by simp [Nat.shiftLeft_eq, pow_succ, mul_comm]
  have : 0 < 1 <<< k := by simp [Nat.shiftLeft_eq]
  omega

/-- What follows the loop: the results go back to the extra ranks, and to `rbuf`. -/
def foldOut (size rank : Nat) : List ColSched :=
  if rank < 2 * extraRanks size then
    if rank % 2 = 0 then [.recv .rbuf (rank + 1)] else [.send .tmp (rank - 1), .mem .rbuf .tmp]
  else [.mem .rbuf .tmp]

/-- The operations of a rank, for more than one process. -/
def allreduceSched (size rank : Nat) : List ColSched :=
  foldIn size rank ++
    (match newrank size rank with
      | some nr => exchange size nr 0
      | none => []) ++
    foldOut size rank ++ [.free .tmp]

/-- `lc_ialreduce` up to its first `lc_col_progress`: the buffers and the request it leaves. `none` is
the fault of reading from the address `LC_COL_IN_PLACE`. -/
def lcIalreduce (size rank : Nat) (inPlace : Bool) (count : Nat) (op : Bytes → Bytes → Bytes) (m : Mem)
    (req : ColReq) : Option (Mem × ColReq) :=
  if size = 1 then
    if inPlace then none else some (Function.update m .rbuf (m .sbuf), { req with flag := true })
  else
    some (Function.update m .tmp (if inPlace then m .rbuf else m .sbuf),
      { lcColreqInit req with
        op, size := count, tag := MCA_COLL_BASE_TAG_IALLREDUCE, next := allreduceSched size rank })

/-! ## Barrier: dissemination -/

def MCA_COLL_BASE_TAG_IBARRIER : Nat := 1341

/-- The loop of `lc_ibarrier` over `distance = 2^k`. -/
def barrierSched (size rank k : Nat) : List ColSched :=
  if 1 <<< k < size then
    .send .empty ((rank + 1 <<< k) % size) :: .recv .empty ((rank + size - 1 <<< k) % size) ::
      barrierSched size rank (k + 1)
  else []
termination_by size - 1 <<< k
decreasing_by
  have : 1 <<< (k + 1) = 2 * 1 <<< k := by simp [Nat.shiftLeft_eq, pow_succ, mul_comm]
  have : 0 < 1 <<< k := by simp [Nat.shiftLeft_eq]
  omega

/-- `lc_ibarrier` up to its first `lc_col_progress`. -/
def lcIbarrier (size rank : Nat) (req : ColReq) : ColReq :=
  { lcColreqInit req with size := 1, tag := MCA_COLL_BASE_TAG_IBARRIER, next := barrierSched size rank 0 }

/-! ## The sizes -/

theorem opalNextPoweroftwo_toNat {n : Nat} (h0 : 0 < n) (h : n < 2 ^ 31) :
    (opalNextPoweroftwo (BitVec.ofNat 32 n)).toNat = 2 ^ (n.log2 + 1) := by
  have hn : (BitVec.ofNat 32 n).toNat = n := by
    rw [BitVec.toNat_ofNat, Nat.mod_eq_of_lt (by omega)]
  have hne : BitVec.ofNat 32 n ≠ 0 := by
    intro e
    rw [e] at hn
    simp at hn
    omega
  -- the highest bit set is bit `31 - clz`
  have hlow : 2 ^ (31 - (BitVec.ofNat 32 n).clz.toNat) ≤ (BitVec.ofNat 32 n).toNat :=
    BitVec.two_pow_sub_clz_le_toNat_of_ne_zero (by decide) hne
  have hhigh := BitVec.toNat_lt_two_pow_sub_clz (x := BitVec.ofNat 32 n)
  have hclz : (BitVec.ofNat 32 n).clz.toNat < 32 := BitVec.clz_lt_iff_ne_zero.2 hne
  rw [hn] at hlow hhigh
  unfold opalNextPoweroftwo
  rw [if_neg hne]
  generalize (BitVec.ofNat 32 n).clz = z at *
  have hz : 31 - z.toNat < 31 := by
    by_contra hz
    have := Nat.pow_le_pow_right (n := 2) (by decide) (Nat.le_of_not_lt hz)
    omega
  have hlog : n.log2 = 31 - z.toNat := by
    rw [Nat.log2_eq_iff h0.ne']
    refine ⟨hlow, ?_⟩
    rwa [show 31 - z.toNat + 1 = 32 - z.toNat by omega]
  have hsub : (32 - z : BitVec 32).toNat = 32 - z.toNat := by
    rw [BitVec.toNat_sub, show (32 : BitVec 32).toNat = 32 from rfl]
    omega
  rw [BitVec.shiftLeft_eq', BitVec.toNat_shiftLeft, hsub, Nat.shiftLeft_eq,
    show (1 : BitVec 32).toNat = 1 from rfl, Nat.one_mul, hlog, show 31 - z.toNat + 1 = 32 - z.toNat by omega,
    Nat.mod_eq_of_lt]
  exact Nat.pow_lt_pow_right (by decide) (by omega)

theorem adjsize_eq {n : Nat} (h0 : 0 < n) (h : n < 2 ^ 30) : adjsize n = 2 ^ n.log2 := by
  have hop := opalNextPoweroftwo_toNat h0 (show n < 2 ^ 31 by omega)
  have hlog : n.log2 + 1 ≤ 30 := (Nat.log2_lt h0.ne').2 h
  have hle : 2 ^ (n.log2 + 1) ≤ 2 ^ 30 := Nat.pow_le_pow_right (by decide) hlog
  have hmsb : (opalNextPoweroftwo (BitVec.ofNat 32 n)).msb = false := by
    rw [BitVec.msb_eq_decide, hop]
    simp only [decide_eq_false_iff_not, not_le]
    omega
  unfold adjsize
  rw [BitVec.sshiftRight_eq_of_msb_false hmsb, BitVec.toNat_ushiftRight, hop, Nat.shiftRight_eq_div_pow,
    pow_succ]
  simp

theorem adjsize_le {n : Nat} (h0 : 0 < n) (h : n < 2 ^ 30) : adjsize n ≤ n := by
  rw [adjsize_eq h0 h]
  exact Nat.log2_self_le h0.ne'

theorem lt_two_mul_adjsize {n : Nat} (h0 : 0 < n) (h : n < 2 ^ 30) : n < 2 * adjsize n := by
  rw [adjsize_eq h0 h, ← pow_succ']
  exact Nat.lt_log2_self

end Lci.Coll
