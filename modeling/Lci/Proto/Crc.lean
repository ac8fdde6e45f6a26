/-
`crc32c` of `src/include/proto.h`, against CRC-32C as a remainder of polynomials over the field of two elements. The
function xors a `char` in the register. A `char` from 0x80 on is negative, and its sign fills the upper 24 bits; what it
adds to the remainder cancels only if the top bits of the bytes form a multiple of the factor of degree 31.
-/
import Lci.Lib.Gf2

namespace Lci.Proto

open Polynomial Gf2

/-! ## The function -/

/-- `POLY`. -/
def POLY : BitVec 32 := 0x82f63b78

/-- The body of the loop over the bits. -/
def crcBit (crc : BitVec 32) : BitVec 32 := if crc &&& 1 ≠ 0 then (crc >>> 1) ^^^ POLY else crc >>> 1

/-- The body of the loop over the bytes; `*buf` is an `int` when it is xored in. -/
def crcByte (crc : BitVec 32) (c : BitVec 8) : BitVec 32 := crcBit^[8] (crc ^^^ c.signExtend 32)

/-- `crc32c` of the `len` bytes at `buf`. -/
def crc32c (buf : List (BitVec 8)) : BitVec 32 := ~~~ buf.foldl crcByte (~~~ 0)

/-! ## CRC-32C -/

/-- The Castagnoli polynomial. -/
noncomputable def castagnoli : (ZMod 2)[X] := ofBits (bits 33 0x11EDC6F41)

/-- A message, the lowest bit of each octet first. -/
noncomputable def message (buf : List (BitVec 8)) : (ZMod 2)[X] := buf.foldl (fun p c => X ^ 8 * p + rev c) 0

/-- `w` is the CRC-32C of a message: with the order of its bits reversed and all of them inverted, it is the remainder
of the message after 32 bits of ones, with 32 zeros at its end. -/
def IsCrc32c (buf : List (BitVec 8)) (w : BitVec 32) : Prop :=
  rev (~~~ w) = (X ^ (8 * buf.length) * rev (BitVec.allOnes 32) + X ^ 32 * message buf) %ₘ castagnoli

/-- The factor of degree 31 of the Castagnoli polynomial. -/
noncomputable def castagnoli31 : (ZMod 2)[X] := ofBits (bits 32 0xf5b4253f)

/-- The top bits of the bytes, as a polynomial. -/
noncomputable def topBits (buf : List (BitVec 8)) : (ZMod 2)[X] := buf.foldl (fun p c => X * p + C (bit c.msb)) 0

/-! ## Factors -/

theorem gen_POLY : gen POLY = castagnoli := by
  unfold gen castagnoli
  rw [← ofBits_X_pow, rev_eq_ofBits, ← ofBits_add]
  exact ofBits_congr (by decide)

theorem castagnoli_eq : castagnoli = (X + 1) * castagnoli31 := by
  have hX : (X + 1 : (ZMod 2)[X]) = ofBits [true, true] := by simp [ofBits, bit, add_comm]
  unfold castagnoli castagnoli31
  rw [hX, ← ofBits_mul]
  exact ofBits_congr (by decide)

theorem ofBits_one : ofBits [true] = 1 := by simp [ofBits, bit]

/-- What the sign of a negative `char` is in the register. -/
noncomputable def signs : (ZMod 2)[X] := rev (BitVec.allOnes 24)

theorem signs_eq : signs = (X + 1) * ofBits (bits 23 0x555555) := by
  have hX : (X + 1 : (ZMod 2)[X]) = ofBits [true, true] := by simp [ofBits, bit, add_comm]
  unfold signs
  rw [hX, rev_eq_ofBits, ← ofBits_mul]
  exact ofBits_congr (by decide)

theorem castagnoli31_coprime_signs : IsCoprime castagnoli31 signs := by
  refine ⟨ofBits (bits 23 0x62d0bc), ofBits (bits 31 0x6688abbf), ?_⟩
  unfold castagnoli31 signs
  rw [rev_eq_ofBits, ← ofBits_mul, ← ofBits_mul, ← ofBits_add, ← ofBits_one]
  exact ofBits_congr (by decide)

theorem castagnoli31_squarefree : Squarefree castagnoli31 := by
  refine Separable.squarefree ⟨ofBits (bits 29 0x11010110), ofBits (bits 30 0x32075275), ?_⟩
  unfold castagnoli31
  rw [derivative_ofBits, ← ofBits_mul, ← ofBits_mul, ← ofBits_add, ← ofBits_one]
  exact ofBits_congr (by decide)

theorem castagnoli31_coprime_X : IsCoprime castagnoli31 X := by
  refine ⟨1, ofBits (bits 31 0x7ada129f), ?_⟩
  have hX : (X : (ZMod 2)[X]) = ofBits [false, true] := by simp [ofBits, bit]
  unfold castagnoli31
  rw [one_mul, hX, ← ofBits_mul, ← ofBits_add, ← ofBits_one]
  exact ofBits_congr (by decide)

/-- What the signs of the bytes add is a multiple of the Castagnoli polynomial exactly if its factor of degree 31
divides the top bits. -/
theorem castagnoli_dvd_iff (F : (ZMod 2)[X]) : castagnoli ∣ X ^ 8 * signs * F ^ 8 ↔ castagnoli31 ∣ F := by
  constructor
  · intro h
    have h31 : castagnoli31 ∣ X ^ 8 * signs * F ^ 8 := (Dvd.intro_left _ castagnoli_eq.symm).trans h
    have hcop : IsCoprime castagnoli31 (X ^ 8 * signs) :=
      castagnoli31_coprime_X.pow_right.mul_right castagnoli31_coprime_signs
    exact (castagnoli31_squarefree.dvd_pow_iff_dvd (by decide)).1 (hcop.dvd_of_dvd_mul_left h31)
  · rintro ⟨k, rfl⟩
    rw [castagnoli_eq, signs_eq]
    exact ⟨X ^ 8 * ofBits (bits 23 0x555555) * castagnoli31 ^ 7 * k ^ 8, by ring⟩

/-! ## The register -/

theorem crcBit_eq (crc : BitVec 32) : crcBit crc = step POLY crc := by
  unfold crcBit step
  have h : crc &&& 1 ≠ 0 ↔ crc.getLsbD 0 = true := by
    rw [show (1 : BitVec 32) = 1#32 from rfl, BitVec.and_one_eq_setWidth_ofBool_getLsbD]
    cases crc.getLsbD 0 <;> decide
  simp only [h]

/-- A byte with its sign. -/
theorem rev_signExtend (c : BitVec 8) : rev (c.signExtend 32) = X ^ 24 * rev c + C (bit c.msb) * signs := by
  ext k
  rw [coeff_add, coeff_X_pow_mul', coeff_C_mul, signs, rev_coeff, rev_coeff, rev_coeff, BitVec.getLsbD_signExtend]
  by_cases h32 : k < 32
  · have h1 : 32 - 1 - k < 32 := by omega
    by_cases h24 : 24 ≤ k
    · have h2 : 32 - 1 - k < 8 := by omega
      have h3 : k - 24 < 8 := by omega
      rw [if_pos h32, if_pos h24, if_pos h3, if_pos h2, if_neg (show ¬ k < 24 by omega), mul_zero, add_zero,
        show 8 - 1 - (k - 24) = 32 - 1 - k by omega, decide_eq_true h1, Bool.true_and]
    · have h2 : ¬ 32 - 1 - k < 8 := by omega
      have h3 : 24 - 1 - k < 24 := by omega
      rw [if_pos h32, if_neg h24, if_neg h2, if_pos (show k < 24 by omega), zero_add, BitVec.getLsbD_allOnes,
        decide_eq_true h1, decide_eq_true h3, Bool.true_and]
      simp [bit]
  · rw [if_neg h32, if_pos (show 24 ≤ k by omega), if_neg (show ¬ k - 24 < 8 by omega), if_neg (show ¬ k < 24 by omega),
      mul_zero, add_zero]

theorem add_pow_eight (p q : (ZMod 2)[X]) : (p + q) ^ 8 = p ^ 8 + q ^ 8 := add_pow_char_pow p q (p := 2) (n := 3)

/-- The register after the bytes of a message. -/
theorem dvd_register (crc : BitVec 32) (buf : List (BitVec 8)) : castagnoli ∣ rev (buf.foldl crcByte crc) +
    (X ^ (8 * buf.length) * rev crc + X ^ 32 * message buf + X ^ 8 * signs * topBits buf ^ 8) := by
  induction buf using List.reverseRecOn with
  | nil => simp [message, topBits, CharTwo.add_self_eq_zero]
  | append_singleton buf c ih =>
    have hbyte : castagnoli ∣ rev (crcByte (buf.foldl crcByte crc) c) +
        X ^ 8 * (rev (buf.foldl crcByte crc) + (X ^ 24 * rev c + C (bit c.msb) * signs)) := by
      rw [← rev_signExtend, ← rev_xor, ← gen_POLY]
      unfold crcByte
      rw [show crcBit = step POLY from funext crcBit_eq]
      exact dvd_rev_steps _ (by decide) POLY 8
    have htop : topBits (buf ++ [c]) ^ 8 = X ^ 8 * topBits buf ^ 8 + C (bit c.msb) := by
      have hsnoc : topBits (buf ++ [c]) = X * topBits buf + C (bit c.msb) := by
        unfold topBits
        rw [List.foldl_append, List.foldl_cons, List.foldl_nil]
      rw [hsnoc, add_pow_eight, mul_pow]
      cases c.msb <;> simp [bit]
    have hmsg : message (buf ++ [c]) = X ^ 8 * message buf + rev c := by
      unfold message
      rw [List.foldl_append, List.foldl_cons, List.foldl_nil]
    obtain ⟨q, hq⟩ := ih
    obtain ⟨p, hp⟩ := hbyte
    refine ⟨p + X ^ 8 * q, ?_⟩
    rw [List.foldl_append, List.foldl_cons, List.foldl_nil, htop, hmsg, List.length_append, List.length_singleton]
    linear_combination hp + X ^ 8 * hq - X ^ 8 * rev (buf.foldl crcByte crc) * (CharTwo.two_eq_zero (R := (ZMod 2)[X]))

/-! ## Correctness -/

/-- The value of `crc32c` is the CRC-32C of the bytes exactly if what their signs add is zero modulo the polynomial. -/
theorem isCrc32c_iff_dvd (buf : List (BitVec 8)) : IsCrc32c buf (crc32c buf) ↔
    castagnoli ∣ X ^ 8 * signs * topBits buf ^ 8 := by
  have hreg := dvd_register (~~~ 0) buf
  have hnot : ~~~ crc32c buf = buf.foldl crcByte (~~~ 0) := by
    unfold crc32c
    rw [BitVec.not_not]
  unfold IsCrc32c
  rw [hnot, show BitVec.allOnes 32 = ~~~ 0 by decide]
  generalize buf.foldl crcByte (~~~ 0) = w at *
  generalize X ^ (8 * buf.length) * rev (~~~ (0 : BitVec 32)) + X ^ 32 * message buf = A at *
  generalize X ^ 8 * signs * topBits buf ^ 8 = D at *
  have h2 : (2 : (ZMod 2)[X]) = 0 := CharTwo.two_eq_zero
  have hmod : castagnoli ∣ A + A %ₘ castagnoli := by
    refine ⟨A /ₘ castagnoli, ?_⟩
    linear_combination -(modByMonic_add_div A castagnoli) + A %ₘ castagnoli * h2
  constructor
  · intro h
    rw [← h] at hmod
    have hdiff := dvd_sub hreg hmod
    rwa [show rev w + (A + D) - (A + rev w) = D by ring] at hdiff
  · intro h
    have hsum := dvd_add (dvd_sub hreg h) hmod
    rw [show rev w + (A + D) - D + (A + A %ₘ castagnoli) = rev w + A %ₘ castagnoli by linear_combination A * h2] at hsum
    have hdeg : (rev w + A %ₘ castagnoli).degree < castagnoli.degree := by
      rw [← gen_POLY]
      refine (degree_add_le _ _).trans_lt (max_lt ?_ (degree_modByMonic_lt _ (gen_monic POLY)))
      rw [gen_degree]
      exact rev_degree_lt w
    exact CharTwo.add_eq_zero.1 (eq_zero_of_dvd_of_degree_lt hsum hdeg)

/-- `crc32c` is CRC-32C exactly on the strings whose top bits, one for each byte, are a multiple of the factor of degree
31 of the Castagnoli polynomial: so on all strings of bytes below 0x80. -/
theorem crc32c_iff (buf : List (BitVec 8)) : IsCrc32c buf (crc32c buf) ↔ castagnoli31 ∣ topBits buf := by
  rw [isCrc32c_iff_dvd, castagnoli_dvd_iff]

/-- The check value of CRC-32C. -/
example : crc32c [0x31, 0x32, 0x33, 0x34, 0x35, 0x36, 0x37, 0x38, 0x39] = 0xe3069283 := by decide +kernel

/-- The byte 0x80. -/
theorem crc32c_negative : ¬ IsCrc32c [0x80] (crc32c [0x80]) := by
  rw [isCrc32c_iff_dvd, castagnoli_dvd_iff]
  intro h
  have hmsb : (128#8).msb = true := by decide
  have hone : topBits [0x80] = 1 := by simp [topBits, bit, hmsb]
  rw [hone] at h
  have hdeg : castagnoli31.natDegree = 0 := natDegree_eq_zero_of_isUnit (isUnit_of_dvd_one h)
  have hcoeff : castagnoli31.coeff 31 = 0 := coeff_eq_zero_of_natDegree_lt (by omega)
  rw [castagnoli31, ofBits_coeff] at hcoeff
  exact absurd hcoeff (by decide)

end Lci.Proto
