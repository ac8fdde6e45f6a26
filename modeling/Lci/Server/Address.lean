/-
The names under which the ranks of a job publish their endpoints: `lc_server_init` prints the numbers that a peer
connects with, and reads those of its peers from what `lc_pm_getname` returns. A dash stands between two numbers, also
before a negative one.
-/
import Lci.Lib.Stdio

namespace Lci.Server.Address

open Stdio

/-- The length that `lc_pm_getname` gives to `PMI_KVS_Get`, terminator included. -/
def PM_VALUE_LEN : Nat := 255

/-! ## Verbs -/

/-- `struct conn_ctx`, without the `gid` that is not exchanged. -/
structure ConnCtx where
  addr : BitVec 64
  rkey : BitVec 32
  qpNum : BitVec 32
  lid : BitVec 16
deriving DecidableEq, Repr

/-- `"%llu-%d-%d-%d"`. -/
def ibvFormat : List Dir := [.llu, .lit '-', .d, .lit '-', .d, .lit '-', .d]

/-- The name for a peer; `lid` is printed as an `int`. -/
def ibvName (lctx : ConnCtx) : Option (List Char) :=
  sprintf ibvFormat [.ull lctx.addr, .int lctx.rkey, .int lctx.qpNum, .int (lctx.lid.setWidth 32)]

/-- The fields of a `conn_ctx` in memory. -/
def ConnCtx.ofMem (m : Mem) : ConnCtx where
  addr := BitVec.ofNat 64 (load m 0 8)
  rkey := BitVec.ofNat 32 (load m 8 4)
  qpNum := BitVec.ofNat 32 (load m 12 4)
  lid := BitVec.ofNat 16 (load m 16 2)

/-- `rctx` after the name of a peer is read into it. `lid` is stored as an `int`, over the padding behind it. -/
def ibvRead (name : List Char) (rctx : Mem) : ConnCtx :=
  ConnCtx.ofMem (assign [0, 8, 12, 16] (sscanf ibvFormat name) rctx)

/-! ## PSM2 -/

/-- What a name of this backend holds. -/
structure PsmAddr where
  epid : BitVec 64
  heap : BitVec 64
  rkey : BitVec 32
deriving DecidableEq, Repr

/-- `"%llu-%llu-%d"`. -/
def psm2Format : List Dir := [.llu, .lit '-', .llu, .lit '-', .d]

def psm2Name (a : PsmAddr) : Option (List Char) := sprintf psm2Format [.ull a.epid, .ull a.heap, .int a.rkey]

/-- `destaddr`, `baseaddr` and `rkey` after the name of a peer is read into them. -/
def psm2Read (name : List Char) (a : PsmAddr) : PsmAddr :=
  match sscanf psm2Format name with
  | [.ull epid, .ull heap, .int rkey] => ⟨epid, heap, rkey⟩
  | [.ull epid, .ull heap] => { a with epid, heap }
  | [.ull epid] => { a with epid }
  | _ => a

/-! ## Round trips -/

theorem ibvFormat_separated : Separated ibvFormat := ⟨rfl, rfl, rfl, trivial, trivial⟩

theorem psm2Format_separated : Separated psm2Format := ⟨rfl, rfl, trivial, trivial⟩

/-- The fields are found in memory as they were stored, whatever was there. -/
theorem ofMem_assign (c : ConnCtx) (m : Mem) :
    ConnCtx.ofMem (assign [0, 8, 12, 16] [.ull c.addr, .int c.rkey, .int c.qpNum, .int (c.lid.setWidth 32)] m) = c := by
  obtain ⟨addr, rkey, qpNum, lid⟩ := c
  simp only [assign, ConnCtx.ofMem, ConnCtx.mk.injEq]
  refine ⟨?_, ?_, ?_, ?_⟩
  · rw [load_store_of_disjoint (by omega), load_store_of_disjoint (by omega), load_store_of_disjoint (by omega),
      load_store _ _ _ _ _ le_rfl, Nat.mod_eq_of_lt (show addr.toNat < 256 ^ 8 from addr.isLt), BitVec.ofNat_toNat,
        BitVec.setWidth_eq]
  · rw [load_store_of_disjoint (by omega), load_store_of_disjoint (by omega), load_store _ _ _ _ _ le_rfl,
      Nat.mod_eq_of_lt (show rkey.toNat < 256 ^ 4 from rkey.isLt), BitVec.ofNat_toNat, BitVec.setWidth_eq]
  · rw [load_store_of_disjoint (by omega), load_store _ _ _ _ _ le_rfl,
      Nat.mod_eq_of_lt (show qpNum.toNat < 256 ^ 4 from qpNum.isLt), BitVec.ofNat_toNat, BitVec.setWidth_eq]
  · -- Two of the four bytes that are stored are read, and they are the low ones.
    have hl := lid.isLt
    rw [load_store _ _ _ _ _ (by omega), BitVec.toNat_setWidth, Nat.mod_eq_of_lt (by omega),
      Nat.mod_eq_of_lt (by omega), BitVec.ofNat_toNat, BitVec.setWidth_eq]

theorem ibvRead_ibvName (c : ConnCtx) {s : List Char} (h : ibvName c = some s) (rctx : Mem) : ibvRead s rctx = c := by
  rw [ibvRead, sscanf_sprintf ibvFormat_separated h]
  exact ofMem_assign c rctx

theorem psm2Read_psm2Name (a : PsmAddr) {s : List Char} (h : psm2Name a = some s) (init : PsmAddr) :
    psm2Read s init = a := by
  rw [psm2Read, sscanf_sprintf psm2Format_separated h]

/-- Both backends: every address has a name, which is read back as that address whatever the variables held before and
is not longer than what the process manager returns. -/
theorem names_read_back :
    (∀ (c : ConnCtx) (rctx : Mem), ∃ s, ibvName c = some s ∧ ibvRead s rctx = c ∧ s.length + 1 ≤ PM_VALUE_LEN) ∧
      ∀ a init : PsmAddr, ∃ s, psm2Name a = some s ∧ psm2Read s init = a ∧ s.length + 1 ≤ PM_VALUE_LEN := by
  constructor
  · intro c rctx
    obtain ⟨s, hs⟩ : ∃ s, ibvName c = some s := ⟨_, rfl⟩
    have hlen : s.length ≤ 56 := sprintf_length_le hs
    exact ⟨s, hs, ibvRead_ibvName c hs rctx, (Nat.succ_le_succ hlen).trans (by decide)⟩
  · intro a init
    obtain ⟨s, hs⟩ : ∃ s, psm2Name a = some s := ⟨_, rfl⟩
    have hlen : s.length ≤ 53 := sprintf_length_le hs
    exact ⟨s, hs, psm2Read_psm2Name a hs init, (Nat.succ_le_succ hlen).trans (by decide)⟩

-- Keys with the top bit set are printed with a sign next to the dash.
example : ibvName ⟨1, 0xfffffffe, 0xfffffffd, 4⟩ = some "1--2--3-4".toList := by decide

end Lci.Server.Address
