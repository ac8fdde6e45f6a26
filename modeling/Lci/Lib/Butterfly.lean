/-
Recursive doubling: in round k every index combines its value with that of the index that differs in
bit k. With a commutative operation all indices of a block agree after the rounds within the block
(`value_eq_of_div_eq`), and with an associative one as well the common value combines every value of
the block once (`foldAll_block`).
-/
import Mathlib.Data.List.Perm.Basic
import Mathlib.Data.Nat.Bitwise
import Mathlib.Tactic

namespace Butterfly

variable {α β : Type}

/-! ## Combinations of lists -/

/-- All elements of a list combined, from the left. -/
def foldAll (op : α → α → α) (l : List α) : Option α := l.foldl (fun acc a => acc.merge op (some a)) none

section Fold

variable {op : α → α → α} [Std.Associative op]

theorem foldl_merge (l : List α) (acc : Option α) :
    l.foldl (fun acc a => acc.merge op (some a)) acc = acc.merge op (foldAll op l) := by
  induction l generalizing acc with
  | nil => simp [foldAll]
  | cons a l ih =>
    have hassoc : ∀ a b c : Option α, (a.merge op b).merge op c = a.merge op (b.merge op c) :=
      Std.Associative.assoc
    unfold foldAll
    rw [List.foldl_cons, List.foldl_cons, ih, ih, Option.merge_none_left, hassoc]

theorem foldAll_append (l l' : List α) : foldAll op (l ++ l') = (foldAll op l).merge op (foldAll op l') := by
  conv_lhs => unfold foldAll
  rw [List.foldl_append, foldl_merge]
  rfl

/-- Combining the combinations of parts combines the whole. -/
theorem foldAll_flatMap {l : List β} {g : β → List α} {v : β → α} (h : ∀ i ∈ l, foldAll op (g i) = some (v i)) :
    foldAll op (l.flatMap g) = foldAll op (l.map v) := by
  induction l with
  | nil => rfl
  | cons i l ih =>
    rw [List.flatMap_cons, List.map_cons, foldAll_append, h i List.mem_cons_self,
      ih fun j hj => h j (List.mem_cons_of_mem _ hj), ← List.singleton_append, foldAll_append]
    rfl

theorem foldAll_perm [Std.Commutative op] {l l' : List α} (h : l.Perm l') : foldAll op l = foldAll op l' := by
  have hassoc : ∀ a b c : Option α, (a.merge op b).merge op c = a.merge op (b.merge op c) :=
    Std.Associative.assoc
  have hcomm : ∀ a b : Option α, a.merge op b = b.merge op a := Std.Commutative.comm
  refine h.foldl_eq' (fun a _ b _ acc => ?_) none
  rw [hassoc, hcomm (some a), hassoc]

end Fold

/-! ## The rounds -/

/-- The value of index `n` after `k` rounds. -/
def value (op : α → α → α) (x : Nat → α) : Nat → Nat → α
  | 0, n => x n
  | k + 1, n => op (value op x k n) (value op x k (n ^^^ 2 ^ k))

theorem xor_two_pow_div (n k : Nat) : (n ^^^ 2 ^ k) / 2 ^ k = n / 2 ^ k ^^^ 1 := by
  rw [Nat.xor_div_two_pow, Nat.div_self (Nat.two_pow_pos k)]

theorem xor_one (n : Nat) : n ^^^ 1 = if n % 2 = 0 then n + 1 else n - 1 := by
  split
  · rename_i h
    exact Nat.xor_one_of_even (Nat.even_iff.2 h)
  · rename_i h
    exact Nat.xor_one_of_odd (Nat.odd_iff.2 (by omega))

/-- The two halves of a block of round `k + 1`. -/
theorem halves (n k : Nat) : ((n / 2 ^ k = 2 * (n / 2 ^ (k + 1)) ∧
      (n ^^^ 2 ^ k) / 2 ^ k = 2 * (n / 2 ^ (k + 1)) + 1) ∨
    (n / 2 ^ k = 2 * (n / 2 ^ (k + 1)) + 1 ∧ (n ^^^ 2 ^ k) / 2 ^ k = 2 * (n / 2 ^ (k + 1)))) := by
  have hq : n / 2 ^ (k + 1) = n / 2 ^ k / 2 := by rw [pow_succ, Nat.div_div_eq_div_mul]
  rw [xor_two_pow_div, xor_one, hq]
  split
  · left; omega
  · right; omega

section Rounds

variable {op : α → α → α} {x : Nat → α} [Std.Commutative op]

/-- After `k` rounds the indices of a block of size `2^k` agree. -/
theorem value_eq_of_div_eq {k n m : Nat} (h : n / 2 ^ k = m / 2 ^ k) : value op x k n = value op x k m := by
  induction k generalizing n m with
  | zero =>
    obtain rfl : n = m := by simpa using h
    rfl
  | succ k ih =>
    have hcomm : ∀ a b : α, op a b = op b a := Std.Commutative.comm
    unfold value
    -- the halves of the one index are those of the other, perhaps in the other order
    rcases halves n k with ⟨h1, h2⟩ | ⟨h1, h2⟩ <;> rcases halves m k with ⟨h3, h4⟩ | ⟨h3, h4⟩
    · rw [ih (h1.trans (h ▸ h3.symm)), ih (h2.trans (h ▸ h4.symm))]
    · rw [ih (h1.trans (h ▸ h4.symm)), ih (h2.trans (h ▸ h3.symm)), hcomm]
    · rw [ih (h1.trans (h ▸ h4.symm)), ih (h2.trans (h ▸ h3.symm)), hcomm]
    · rw [ih (h1.trans (h ▸ h3.symm)), ih (h2.trans (h ▸ h4.symm))]

theorem range'_block (q k : Nat) : List.range' (q * 2 ^ (k + 1)) (2 ^ (k + 1)) =
    List.range' (2 * q * 2 ^ k) (2 ^ k) ++ List.range' ((2 * q + 1) * 2 ^ k) (2 ^ k) := by
  rw [show (2 * q + 1) * 2 ^ k = 2 * q * 2 ^ k + 1 * 2 ^ k by ring, List.range'_append,
    show q * 2 ^ (k + 1) = 2 * q * 2 ^ k by ring, show 2 ^ (k + 1) = 2 ^ k + 2 ^ k by ring]

/-- After `k` rounds an index holds the combination of all values of its block. -/
theorem foldAll_block [Std.Associative op] (k n : Nat) :
    foldAll op ((List.range' (n / 2 ^ k * 2 ^ k) (2 ^ k)).map x) = some (value op x k n) := by
  induction k generalizing n with
  | zero => simp [foldAll, value, List.range'_one]
  | succ k ih =>
    rw [range'_block, List.map_append, foldAll_append]
    unfold value
    rcases halves n k with ⟨h1, h2⟩ | ⟨h1, h2⟩
    · rw [← h2, ih, ← h1, ih]
      rfl
    · rw [← h1, ← h2, ih, ih, Option.merge_some_some]
      exact congrArg some (Std.Commutative.comm _ _)

end Rounds

end Butterfly
