/-
The protocol word of `src/include/proto.h` and the matching keys built from it: `MAKE_PROTO` packs
the endpoint, the protocol and the meta (tag) in 32 bits, `lc_make_key` puts a rank over a tag in
64 bits. Arithmetic is that of C's `int` and `uint64_t`, as bit vectors.
-/
import Mathlib.Tactic

namespace Lci.Proto

/-- C's `int`, two's complement. -/
abbrev CInt := BitVec 32

/-- `lc_proto`. -/
inductive LcProto
  | data
  | rtr
  | rts
  | long
deriving DecidableEq, Repr

/-- The value of the enumerator. -/
def LcProto.bits : LcProto → BitVec 32
  | .data => 0
  | .rtr => 1
  | .rts => 2
  | .long => 3

/-- `MAKE_PROTO(rgid, proto, meta)`. -/
def makeProto (rgid : CInt) (proto : LcProto) (metaVal : CInt) : BitVec 32 :=
  proto.bits ||| (rgid <<< 2) ||| (metaVal <<< 16)

/-- `PROTO_GET_PROTO`. -/
def protoGetProto (proto : BitVec 32) : BitVec 32 := proto &&& 0b011

/-- `PROTO_GET_RGID`. -/
def protoGetRgid (proto : BitVec 32) : BitVec 32 := (proto >>> 2) &&& 0b011111111111111

/-- `PROTO_GET_META`. -/
def protoGetMeta (proto : BitVec 32) : BitVec 32 := (proto >>> 16) &&& 0xffff

/-- `lc_make_key(r, t)`: both `int`s are converted to `uint64_t`, so a negative one is
sign-extended. -/
def lcMakeKey (r t : CInt) : BitVec 64 := (r.signExtend 64 <<< 32) ||| t.signExtend 64

/-! ## The fields of a word -/

theorem LcProto.bits_lt (p : LcProto) : p.bits.toNat < 4 := by cases p <;> decide

/-- The value of a word, field by field, for an endpoint that fits its field. -/
theorem makeProto_toNat {g : CInt} (hg : g.toNat < 2 ^ 14) (p : LcProto) (m : CInt) :
    (makeProto g p m).toNat = 2 ^ 16 * (m.toNat % 2 ^ 16) + (2 ^ 2 * g.toNat + p.bits.toNat) := by
  have hp := p.bits_lt
  have h1 : (g <<< 2).toNat = 2 ^ 2 * g.toNat := by
    simp only [BitVec.toNat_shiftLeft, Nat.shiftLeft_eq]; omega
  have h2 : (m <<< 16).toNat = 2 ^ 16 * (m.toNat % 2 ^ 16) := by
    simp only [BitVec.toNat_shiftLeft, Nat.shiftLeft_eq]; omega
  unfold makeProto
  rw [BitVec.toNat_or, BitVec.toNat_or, h1, h2, Nat.or_comm p.bits.toNat,
    ← Nat.two_pow_add_eq_or_of_lt (by omega), Nat.or_comm, ← Nat.two_pow_add_eq_or_of_lt (by omega)]

theorem and_low (x : BitVec 32) (i : Nat) (hi : i < 32) :
    (x &&& BitVec.ofNat 32 (2 ^ i - 1)).toNat = x.toNat % 2 ^ i := by
  have h : 2 ^ i < 2 ^ 32 := Nat.pow_lt_pow_right (by decide) hi
  rw [BitVec.toNat_and, BitVec.toNat_ofNat, Nat.mod_eq_of_lt (by omega), Nat.and_two_pow_sub_one_eq_mod]

theorem protoGetProto_makeProto {g : CInt} (hg : g.toNat < 2 ^ 14) (p : LcProto) (m : CInt) :
    protoGetProto (makeProto g p m) = p.bits := by
  have hp := p.bits_lt
  apply BitVec.eq_of_toNat_eq
  rw [protoGetProto, show (0b011 : BitVec 32) = BitVec.ofNat 32 (2 ^ 2 - 1) from rfl, and_low _ 2 (by decide),
    makeProto_toNat hg]
  omega

/-- The two lowest bits of a shifted word. -/
theorem shiftLeft_and_three (x : BitVec 32) {i : Nat} (hi : 2 ≤ i) : (x <<< i) &&& 0b011 = 0 := by
  apply BitVec.eq_of_toNat_eq
  rw [show (0b011 : BitVec 32) = BitVec.ofNat 32 (2 ^ 2 - 1) from rfl, and_low _ 2 (by decide), BitVec.toNat_shiftLeft,
    Nat.shiftLeft_eq]
  obtain ⟨k, rfl⟩ := Nat.exists_eq_add_of_le hi
  rw [Nat.pow_add, Nat.mul_left_comm, Nat.mod_mod_of_dvd _ (by decide), Nat.mul_mod_right]
  rfl

/-- The protocol of a word is the one it was made with, whatever the endpoint. -/
theorem protoGetProto_word (g : CInt) (p : LcProto) (m : CInt) : protoGetProto (makeProto g p m) = p.bits := by
  have hp : p.bits &&& 0b011 = p.bits := by cases p <;> decide
  unfold protoGetProto makeProto
  rw [BitVec.and_or_distrib_right, BitVec.and_or_distrib_right, hp, shiftLeft_and_three g le_rfl,
    shiftLeft_and_three m (by decide)]
  exact BitVec.or_zero.trans BitVec.or_zero

theorem protoGetRgid_makeProto {g : CInt} (hg : g.toNat < 2 ^ 14) (p : LcProto) (m : CInt) :
    protoGetRgid (makeProto g p m) = g := by
  have hp := p.bits_lt
  apply BitVec.eq_of_toNat_eq
  rw [protoGetRgid, show (0b011111111111111 : BitVec 32) = BitVec.ofNat 32 (2 ^ 14 - 1) from rfl,
    and_low _ 14 (by decide), BitVec.toNat_ushiftRight, Nat.shiftRight_eq_div_pow, makeProto_toNat hg]
  omega

/-- The meta that comes out is the low half of the one that went in. -/
theorem protoGetMeta_toNat {g : CInt} (hg : g.toNat < 2 ^ 14) (p : LcProto) (m : CInt) :
    (protoGetMeta (makeProto g p m)).toNat = m.toNat % 2 ^ 16 := by
  have hp := p.bits_lt
  rw [protoGetMeta, show (0xffff : BitVec 32) = BitVec.ofNat 32 (2 ^ 16 - 1) from rfl,
    and_low _ 16 (by decide), BitVec.toNat_ushiftRight, Nat.shiftRight_eq_div_pow, makeProto_toNat hg]
  omega

theorem protoGetMeta_makeProto {g : CInt} (hg : g.toNat < 2 ^ 14) (p : LcProto) (m : CInt) :
    protoGetMeta (makeProto g p m) = m &&& 0xffff := by
  apply BitVec.eq_of_toNat_eq
  rw [protoGetMeta_toNat hg, show (0xffff : BitVec 32) = BitVec.ofNat 32 (2 ^ 16 - 1) from rfl,
    and_low _ 16 (by decide)]

/-! ## Keys -/

theorem signExtend_toNat {x : CInt} (h : x.toNat < 2 ^ 31) : (x.signExtend 64).toNat = x.toNat := by
  rw [BitVec.signExtend_eq_setWidth_of_msb_false (BitVec.msb_eq_false_iff_two_mul_lt.2 (by omega)),
    BitVec.toNat_setWidth]
  omega

/-- The key of a rank and a non-negative tag. -/
theorem lcMakeKey_toNat {r t : CInt} (hr : r.toNat < 2 ^ 31) (ht : t.toNat < 2 ^ 31) :
    (lcMakeKey r t).toNat = 2 ^ 32 * r.toNat + t.toNat := by
  have h1 : (r.signExtend 64 <<< 32).toNat = 2 ^ 32 * r.toNat := by
    rw [BitVec.toNat_shiftLeft, signExtend_toNat hr, Nat.shiftLeft_eq]; omega
  unfold lcMakeKey
  rw [BitVec.toNat_or, h1, signExtend_toNat ht, ← Nat.two_pow_add_eq_or_of_lt (by omega)]

theorem lcMakeKey_inj {r t r' t' : CInt} (hr : r.toNat < 2 ^ 31) (ht : t.toNat < 2 ^ 31)
    (hr' : r'.toNat < 2 ^ 31) (ht' : t'.toNat < 2 ^ 31) (h : lcMakeKey r t = lcMakeKey r' t') :
    r = r' ∧ t = t' := by
  have h1 := lcMakeKey_toNat hr ht
  rw [h, lcMakeKey_toNat hr' ht'] at h1
  exact ⟨BitVec.eq_of_toNat_eq (by omega), BitVec.eq_of_toNat_eq (by omega)⟩

/-- Bit 31 of a key is the sign of the tag. -/
theorem lcMakeKey_bit31 (r t : CInt) : (lcMakeKey r t).getLsbD 31 = t.msb := by
  have h : (t.signExtend 64).getLsbD 31 = t.msb := by
    rw [BitVec.getLsbD_signExtend, BitVec.msb_eq_getLsbD_last]; rfl
  rw [lcMakeKey, BitVec.getLsbD_or, BitVec.getLsbD_shiftLeft, h]
  rfl

/-- The key of tag -1 is all ones, whatever the rank. -/
theorem lcMakeKey_neg_one (r : CInt) : lcMakeKey r (-1) = -1 := by
  have : (-1 : CInt).signExtend 64 = BitVec.allOnes 64 := by decide
  rw [lcMakeKey, this, BitVec.or_allOnes]
  rfl

end Lci.Proto
