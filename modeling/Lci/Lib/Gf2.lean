/-
Polynomials over the field of two elements, as words and as lists of bits. A word of `n` bits stands for a polynomial
with its lowest bit as the coefficient of the highest power, the order in which serial lines send bits. A shift
register with a feedback word multiplies by `X` modulo its generator. Identities between given polynomials are
checked on lists of coefficients.
-/
import Mathlib.Algebra.CharP.Lemmas
import Mathlib.Algebra.CharP.Two
import Mathlib.Algebra.Polynomial.Div
import Mathlib.Data.ZMod.Basic
import Mathlib.FieldTheory.Separable
import Mathlib.Tactic

namespace Gf2

open Polynomial

/-- A bit as an element of the field. -/
def bit (b : Bool) : ZMod 2 := if b then 1 else 0

theorem bit_xor (a b : Bool) : bit (a ^^ b) = bit a + bit b := by cases a <;> cases b <;> decide

/-! ## Words -/

/-- The polynomial of a word in reversed bit order. -/
noncomputable def rev {n : Nat} (w : BitVec n) : (ZMod 2)[X] :=
  ∑ k ∈ Finset.range n, C (bit (w.getLsbD (n - 1 - k))) * X ^ k

section Words

variable {n : Nat} (a b w : BitVec n)

theorem rev_coeff (k : Nat) : (rev w).coeff k = if k < n then bit (w.getLsbD (n - 1 - k)) else 0 := by
  unfold rev
  simp [coeff_X_pow]

theorem rev_xor : rev (a ^^^ b) = rev a + rev b := by
  ext k
  rw [coeff_add, rev_coeff, rev_coeff, rev_coeff]
  split_ifs
  · rw [BitVec.getLsbD_xor, bit_xor]
  · rw [add_zero]

theorem rev_degree_lt : (rev w).degree < n := by
  refine (degree_lt_iff_coeff_zero _ _).2 fun k hk => ?_
  rw [rev_coeff, if_neg (by omega)]

/-- A shift to the right multiplies by `X`, but for the bit that is shifted out. -/
theorem rev_shift (hn : 0 < n) : rev (w >>> 1) = X * rev w + C (bit (w.getLsbD 0)) * X ^ n := by
  ext k
  rw [coeff_add, rev_coeff, coeff_C_mul_X_pow]
  cases k with
  | zero =>
    rw [coeff_X_mul_zero, if_pos hn, BitVec.getLsbD_ushiftRight, BitVec.getLsbD_of_ge _ _ (by omega), if_neg (by omega)]
    rfl
  | succ k =>
    rw [coeff_X_mul, rev_coeff, BitVec.getLsbD_ushiftRight]
    by_cases hk : k + 1 < n
    · rw [if_pos hk, if_pos (by omega), if_neg (by omega), add_zero, show 1 + (n - 1 - (k + 1)) = n - 1 - k by omega]
    · rw [if_neg hk]
      by_cases hkn : k + 1 = n
      · rw [if_pos (by omega), if_pos hkn, show n - 1 - k = 0 by omega, CharTwo.add_self_eq_zero]
      · rw [if_neg (by omega), if_neg hkn, add_zero]

/-! ## Shift registers -/

/-- The generator of a shift register with feedback word `g`. -/
noncomputable def gen (g : BitVec n) : (ZMod 2)[X] := X ^ n + rev g

theorem gen_monic (g : BitVec n) : (gen g).Monic := monic_X_pow_add (rev_degree_lt g)

theorem gen_degree (g : BitVec n) : (gen g).degree = n := by
  unfold gen
  rw [degree_add_eq_left_of_degree_lt, degree_X_pow]
  rw [degree_X_pow]
  exact rev_degree_lt g

/-- One step of a shift register. -/
def step (g w : BitVec n) : BitVec n := if w.getLsbD 0 then (w >>> 1) ^^^ g else w >>> 1

theorem rev_step (hn : 0 < n) (g : BitVec n) : rev (step g w) = X * rev w + C (bit (w.getLsbD 0)) * gen g := by
  unfold step gen
  split_ifs with h
  · rw [rev_xor, rev_shift w hn, h]
    simp only [bit, if_true, C_1, one_mul]
    ring
  · rw [rev_shift w hn, show w.getLsbD 0 = false by simpa using h]
    simp [bit]

/-- Steps of a register multiply by a power of `X`, modulo the generator. -/
theorem dvd_rev_steps (hn : 0 < n) (g : BitVec n) (m : Nat) : gen g ∣ rev ((step g)^[m] w) + X ^ m * rev w := by
  induction m with
  | zero => simp [CharTwo.add_self_eq_zero]
  | succ m ih =>
    rw [Function.iterate_succ_apply', rev_step _ hn, pow_succ']
    obtain ⟨q, hq⟩ := ih
    refine ⟨C (bit (((step g)^[m] w).getLsbD 0)) + X * q, ?_⟩
    linear_combination X * hq

end Words

/-! ## Lists of coefficients -/

/-- The polynomial with these coefficients, the lowest first. -/
noncomputable def ofBits : List Bool → (ZMod 2)[X]
  | [] => 0
  | b :: l => C (bit b) + X * ofBits l

/-- The sum of two lists of coefficients. -/
def addBits : List Bool → List Bool → List Bool
  | [], l => l
  | a :: k, [] => a :: k
  | a :: k, b :: l => (a ^^ b) :: addBits k l

/-- Their product. -/
def mulBits : List Bool → List Bool → List Bool
  | [], _ => []
  | a :: k, l => addBits (if a then l else []) (false :: mulBits k l)

/-- The derivative. -/
def derivBits : List Bool → List Bool
  | [] => []
  | _ :: l => addBits l (false :: derivBits l)

/-- The bits of a number, the lowest first. -/
def bits (n m : Nat) : List Bool := (List.range n).map m.testBit

theorem ofBits_add : ∀ k l : List Bool, ofBits (addBits k l) = ofBits k + ofBits l
  | [], l => by simp [addBits, ofBits]
  | a :: k, [] => by simp [addBits, ofBits]
  | a :: k, b :: l => by
    rw [addBits, ofBits, ofBits_add k l, ofBits, ofBits, bit_xor, C_add]
    ring

theorem ofBits_mul : ∀ k l : List Bool, ofBits (mulBits k l) = ofBits k * ofBits l
  | [], l => by simp [mulBits, ofBits]
  | a :: k, l => by
    rw [mulBits, ofBits_add, ofBits, ofBits_mul k l, ofBits]
    cases a <;> simp [ofBits, bit] <;> ring

theorem ofBits_X_pow (n : Nat) : ofBits (List.replicate n false ++ [true]) = X ^ n := by
  induction n with
  | zero => simp [ofBits, bit]
  | succ n ih =>
    rw [List.replicate_succ, List.cons_append, ofBits, ih, pow_succ']
    simp [bit]

theorem derivative_ofBits : ∀ l : List Bool, derivative (ofBits l) = ofBits (derivBits l)
  | [] => by simp [derivBits, ofBits]
  | b :: l => by
    rw [derivBits, ofBits_add, ofBits, ofBits, derivative_add, derivative_mul, derivative_C, derivative_X,
      derivative_ofBits l]
    simp [bit]

theorem ofBits_coeff : ∀ (l : List Bool) (k : Nat), (ofBits l).coeff k = bit (l.getD k false)
  | [], k => by simp [ofBits, bit]
  | b :: l, 0 => by simp [ofBits]
  | b :: l, k + 1 => by
    rw [ofBits, coeff_add, coeff_C_succ, coeff_X_mul, ofBits_coeff l k, zero_add]
    rfl

/-- Lists that differ in zeros at the end are the same polynomial. -/
theorem ofBits_congr {k l : List Bool} (h : ∀ i < max k.length l.length, k.getD i false = l.getD i false) :
    ofBits k = ofBits l := by
  ext i
  rw [ofBits_coeff, ofBits_coeff]
  by_cases hi : i < max k.length l.length
  · rw [h i hi]
  · rw [List.getD_eq_getElem?_getD, List.getD_eq_getElem?_getD, List.getElem?_eq_none (by omega),
      List.getElem?_eq_none (by omega)]

theorem rev_eq_ofBits {n : Nat} (w : BitVec n) :
    rev w = ofBits ((List.range n).map fun k => w.getLsbD (n - 1 - k)) := by
  ext k
  rw [rev_coeff, ofBits_coeff]
  split_ifs with h
  · simp [List.getD_eq_getElem?_getD, h]
  · simp [List.getD_eq_getElem?_getD, Nat.not_lt.1 h, bit]

end Gf2
