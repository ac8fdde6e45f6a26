/-
Decimal integers in the formatted output and input of the C library: `%llu`, `%d` and characters that stand for
themselves. Input skips white space before a number, takes a sign and as many digits as there are, and stops at the
first directive that fails. What was printed is read back wherever no digit can follow a number (`sscanf_sprintf`).
-/
import Mathlib.Tactic

namespace Stdio

/-- A directive of a format; a literal character is no white space. -/
inductive Dir
  | llu
  | d
  | lit (c : Char)
deriving DecidableEq, Repr

/-- A value that is printed or stored: an `unsigned long long`, or an `int`. -/
inductive Val
  | ull (v : BitVec 64)
  | int (v : BitVec 32)
deriving DecidableEq, Repr

/-! ## Output -/

/-- `%d` of an integer. -/
def signed (i : Int) : List Char := if i < 0 then '-' :: Nat.toDigits 10 i.natAbs else Nat.toDigits 10 i.natAbs

/-- `sprintf`, without the terminator; `none` when the values are not those of the format. -/
def sprintf : List Dir → List Val → Option (List Char)
  | [], [] => some []
  | .lit c :: f, vs => (sprintf f vs).map (c :: ·)
  | .llu :: f, .ull v :: vs => (sprintf f vs).map (Nat.toDigits 10 v.toNat ++ ·)
  | .d :: f, .int v :: vs => (sprintf f vs).map (signed v.toInt ++ ·)
  | _, _ => none

/-! ## Input -/

/-- `isspace`. -/
def isspace (c : Char) : Bool := c = ' ' ∨ ('\t' ≤ c ∧ c ≤ '\r')

/-- The sign before a number. -/
def takeSign : List Char → Bool × List Char
  | '-' :: s => (true, s)
  | '+' :: s => (false, s)
  | s => (false, s)

/-- The number that a string starts with: whether it has a minus sign, its digits, and the rest of the string. -/
def takeInt (s : List Char) : Option (Bool × Nat × List Char) :=
  let x := takeSign (s.dropWhile isspace)
  let ds := x.2.takeWhile Char.isDigit
  if ds = [] then none else some (x.1, Nat.ofDigitChars 10 ds 0, x.2.dropWhile Char.isDigit)

/-- The value of `strtoull`. -/
def strtoull (neg : Bool) (n : Nat) : BitVec 64 :=
  if 2 ^ 64 ≤ n then BitVec.allOnes 64 else if neg then -BitVec.ofNat 64 n else BitVec.ofNat 64 n

/-- The value of `strtol`, as an `int`. -/
def strtol (neg : Bool) (n : Nat) : BitVec 32 :=
  BitVec.ofInt 32 (max (-2 ^ 63) (min (2 ^ 63 - 1) (if neg then -(n : Int) else n)))

/-- The values that `sscanf` stores. -/
def sscanf : List Dir → List Char → List Val
  | [], _ => []
  | .lit c :: f, x :: s => if x = c then sscanf f s else []
  | .lit _ :: _, [] => []
  | .llu :: f, s => match takeInt s with
    | some (neg, n, s) => .ull (strtoull neg n) :: sscanf f s
    | none => []
  | .d :: f, s => match takeInt s with
    | some (neg, n, s) => .int (strtol neg n) :: sscanf f s
    | none => []

/-! ## Round trip -/

/-- What is printed with the format starts with no digit. -/
def DigitFree : List Dir → Prop
  | [] => True
  | .lit c :: _ => c.isDigit = false
  | _ => False

/-- No digit can follow a number in the format. -/
def Separated : List Dir → Prop
  | [] => True
  | .lit _ :: f => Separated f
  | _ :: f => DigitFree f ∧ Separated f

theorem digitFree_head {f : List Dir} (hf : DigitFree f) {vs : List Val} {s : List Char} (h : sprintf f vs = some s) :
    ∀ c r, s = c :: r → c.isDigit = false := by
  intro c r hs
  match f, vs, hf with
  | [], [], _ =>
    cases h
    cases hs
  | .lit c' :: f, vs, hc =>
    obtain ⟨t, -, rfl⟩ := Option.map_eq_some_iff.1 h
    cases hs
    exact hc

theorem toDigits_digits (n : Nat) : ∀ c ∈ Nat.toDigits 10 n, c.isDigit = true :=
  fun _ hc => Nat.isDigit_of_mem_toDigits (by decide) (by decide) hc

/-- The digits of a number and the rest after them. -/
theorem digits_append (n : Nat) {s : List Char} (hs : ∀ c r, s = c :: r → c.isDigit = false) :
    (Nat.toDigits 10 n ++ s).takeWhile Char.isDigit = Nat.toDigits 10 n ∧
    (Nat.toDigits 10 n ++ s).dropWhile Char.isDigit = s := by
  have hd := toDigits_digits n
  rw [List.takeWhile_append_of_pos hd, List.dropWhile_append_of_pos hd]
  cases s with
  | nil => simp
  | cons c r => simp [hs c r rfl]

/-- A digit is neither white space nor a sign. -/
theorem digit_plain {c : Char} (h : c.isDigit = true) : isspace c = false ∧ c ≠ '-' ∧ c ≠ '+' := by
  have h0 : 48 ≤ c.toNat ∧ c.toNat ≤ 57 := Char.isDigit_iff_toNat.1 h
  refine ⟨?_, ?_, ?_⟩
  · have hne : c ≠ ' ' := by
      rintro rfl
      exact absurd h0.1 (by decide)
    have hlt : ¬c ≤ '\r' := fun hc => absurd (h0.1.trans (show c.toNat ≤ 13 from hc)) (by decide)
    simp [isspace, hne, hlt]
  all_goals
    rintro rfl
    exact absurd h0.1 (by decide)

/-- No white space and no sign is skipped before a digit. -/
theorem skip_digits (n : Nat) (s : List Char) :
    takeSign ((Nat.toDigits 10 n ++ s).dropWhile isspace) = (false, Nat.toDigits 10 n ++ s) := by
  obtain ⟨c, r, hr⟩ := List.exists_cons_of_ne_nil (Nat.toDigits_ne_nil (n := n) (b := 10))
  have hc : c.isDigit = true := toDigits_digits n c (by rw [hr]; exact List.mem_cons_self)
  obtain ⟨hsp, hm, hp⟩ := digit_plain hc
  rw [hr, List.cons_append, List.dropWhile_cons_of_neg (by simp [hsp])]
  unfold takeSign
  split
  · rename_i he
    exact absurd (List.cons.inj he).1 hm
  · rename_i he
    exact absurd (List.cons.inj he).1 hp
  · rfl

theorem takeInt_digits (n : Nat) {s : List Char} (hs : ∀ c r, s = c :: r → c.isDigit = false) :
    takeInt (Nat.toDigits 10 n ++ s) = some (false, n, s) := by
  rw [takeInt, skip_digits]
  simp only [digits_append n hs, Nat.toDigits_ne_nil, if_false, Nat.ofDigitChars_ten_toDigits]

theorem takeInt_signed (i : Int) {s : List Char} (hs : ∀ c r, s = c :: r → c.isDigit = false) :
    takeInt (signed i ++ s) = some (decide (i < 0), i.natAbs, s) := by
  unfold signed
  by_cases hi : i < 0
  · rw [if_pos hi, List.cons_append, takeInt, List.dropWhile_cons_of_neg (by decide)]
    simp only [takeSign, digits_append _ hs, Nat.toDigits_ne_nil, if_false, Nat.ofDigitChars_ten_toDigits, hi,
      decide_true]
  · rw [if_neg hi, takeInt_digits _ hs, decide_eq_false hi]

theorem strtoull_toNat (v : BitVec 64) : strtoull false v.toNat = v := by
  have := v.isLt
  unfold strtoull
  rw [if_neg (by omega), if_neg (by simp), BitVec.ofNat_toNat, BitVec.setWidth_eq]

theorem strtol_toInt (v : BitVec 32) : strtol (decide (v.toInt < 0)) v.toInt.natAbs = v := by
  have h1 := BitVec.toInt_lt (x := v)
  have h2 := BitVec.le_toInt (x := v)
  have hv : (if decide (v.toInt < 0) = true then -(v.toInt.natAbs : Int) else v.toInt.natAbs) = v.toInt := by
    simp only [decide_eq_true_eq]
    split <;> omega
  rw [strtol, hv, min_eq_right (by omega), max_eq_right (by omega), BitVec.ofInt_toInt]

/-- What was printed is read back. -/
theorem sscanf_sprintf {f : List Dir} (hf : Separated f) {vs : List Val} {s : List Char} (h : sprintf f vs = some s) :
    sscanf f s = vs := by
  induction f generalizing vs s with
  | nil =>
    cases vs with
    | nil => rfl
    | cons => cases h
  | cons x f ih =>
    match x, vs, h, hf with
    | .lit c, vs, h, hf =>
      obtain ⟨t, ht, rfl⟩ := Option.map_eq_some_iff.1 h
      rw [sscanf, if_pos rfl]
      exact ih hf ht
    | .llu, .ull v :: vs, h, hf =>
      obtain ⟨t, ht, rfl⟩ := Option.map_eq_some_iff.1 h
      rw [sscanf, takeInt_digits _ (digitFree_head hf.1 ht)]
      show Val.ull (strtoull false v.toNat) :: sscanf f t = _
      rw [strtoull_toNat, ih hf.2 ht]
    | .d, .int v :: vs, h, hf =>
      obtain ⟨t, ht, rfl⟩ := Option.map_eq_some_iff.1 h
      rw [sscanf, takeInt_signed _ (digitFree_head hf.1 ht)]
      show Val.int (strtol (decide (v.toInt < 0)) v.toInt.natAbs) :: sscanf f t = _
      rw [strtol_toInt, ih hf.2 ht]

/-! ## Length -/

/-- The most characters that a directive prints. -/
def Dir.width : Dir → Nat
  | .llu => 20
  | .d => 11
  | .lit _ => 1

theorem toDigits_length_le (v : BitVec 64) : (Nat.toDigits 10 v.toNat).length ≤ 20 := by
  have hv := v.isLt
  exact (Nat.length_toDigits_le_iff (by omega) (by omega)).2 (hv.trans (by norm_num))

theorem signed_length_le (v : BitVec 32) : (signed v.toInt).length ≤ 11 := by
  have h1 := BitVec.toInt_lt (x := v)
  have h2 := BitVec.le_toInt (x := v)
  have hd : (Nat.toDigits 10 v.toInt.natAbs).length ≤ 10 :=
    (Nat.length_toDigits_le_iff (by omega) (by omega)).2 (by omega)
  unfold signed
  split
  · exact Nat.succ_le_succ hd
  · exact hd.trans (by omega)

theorem sprintf_length_le {f : List Dir} {vs : List Val} {s : List Char} (h : sprintf f vs = some s) :
    s.length ≤ (f.map Dir.width).sum := by
  induction f generalizing vs s with
  | nil =>
    cases vs with
    | nil =>
      cases h
      exact le_rfl
    | cons => cases h
  | cons x f ih =>
    rw [List.map_cons, List.sum_cons]
    match x, vs, h with
    | .lit c, vs, h =>
      obtain ⟨t, ht, rfl⟩ := Option.map_eq_some_iff.1 h
      rw [List.length_cons, Nat.add_comm]
      exact Nat.add_le_add_left (ih ht) 1
    | .llu, .ull v :: vs, h =>
      obtain ⟨t, ht, rfl⟩ := Option.map_eq_some_iff.1 h
      rw [List.length_append]
      exact Nat.add_le_add (toDigits_length_le v) (ih ht)
    | .d, .int v :: vs, h =>
      obtain ⟨t, ht, rfl⟩ := Option.map_eq_some_iff.1 h
      rw [List.length_append]
      exact Nat.add_le_add (signed_length_le v) (ih ht)

/-! ## Memory -/

/-- Memory, byte by byte. -/
abbrev Mem := Nat → BitVec 8

/-- A value of `w` bytes at `a`, the lowest byte first. -/
def load (m : Mem) (a : Nat) : Nat → Nat
  | 0 => 0
  | w + 1 => (m a).toNat + 256 * load m (a + 1) w

def store (m : Mem) (a w v : Nat) : Mem :=
  fun i => if a ≤ i ∧ i < a + w then BitVec.ofNat 8 (v / 256 ^ (i - a)) else m i

/-- The stores that `sscanf` makes through its pointers; those after the last value stay as they are. -/
def assign : List Nat → List Val → Mem → Mem
  | p :: ps, .ull v :: vs, m => assign ps vs (store m p 8 v.toNat)
  | p :: ps, .int v :: vs, m => assign ps vs (store m p 4 v.toNat)
  | _, _, m => m

/-- Bytes read back from within a value. -/
theorem load_store_within {m : Mem} {a w v : Nat} (n j : Nat) (h : j + n ≤ w) :
    load (store m a w v) (a + j) n = v / 256 ^ j % 256 ^ n := by
  induction n generalizing j with
  | zero => simp [load, Nat.mod_one]
  | succ n ih =>
    have hj : (store m a w v (a + j)).toNat = v / 256 ^ j % 256 := by
      rw [store, if_pos (by omega), Nat.add_sub_cancel_left, BitVec.toNat_ofNat]
    rw [load, hj, Nat.add_assoc, ih (j + 1) (by omega), Nat.pow_succ, ← Nat.div_div_eq_div_mul, Nat.pow_succ,
      Nat.mul_comm (256 ^ n) 256, Nat.mod_mul]

theorem load_store (m : Mem) (a w n v : Nat) (h : n ≤ w) : load (store m a w v) a n = v % 256 ^ n := by
  have := load_store_within (m := m) (a := a) (v := v) n 0 (by omega : 0 + n ≤ w)
  rwa [Nat.add_zero, Nat.pow_zero, Nat.div_one] at this

theorem load_store_of_disjoint {m : Mem} {a w v b n : Nat} (h : b + n ≤ a ∨ a + w ≤ b) :
    load (store m a w v) b n = load m b n := by
  induction n generalizing b with
  | zero => rfl
  | succ n ih => rw [load, load, ih (by omega), store, if_neg (by omega)]

end Stdio
