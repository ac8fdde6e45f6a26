/-
Ring buffers over an array of `2^k` pointers, with two indices that are masked to the array: pushed and
popped at the top, popped at the bottom. The buffer is empty when the indices meet, so one slot stays
free, and a push that makes them meet has overflown. A buffer represents the list of its elements from
the bottom to the top; each operation is the one on lists, across every wrap of an index.
-/
import Mathlib.Data.List.Basic
import Mathlib.Tactic

/-- Two indices and the slots; a slot holds a pointer or `NULL`. -/
structure RingBuf (α : Type) where
  top : Nat
  bot : Nat
  slot : Nat → Option α

namespace RingBuf

variable {α : Type} (k : Nat)

/-- An index masked to the array. -/
def mask (i : Nat) : Nat := i &&& (2 ^ k - 1)

/-- A push at the top; `none` when the indices meet. -/
def push (r : RingBuf α) (x : α) : Option (RingBuf α) :=
  let top := mask k (r.top + 1)
  if top = r.bot then none
  else some { r with top := top, slot := Function.update r.slot r.top (some x) }

/-- A pop at the top; `none` when the buffer is empty. -/
def popTop (r : RingBuf α) : Option α × RingBuf α :=
  if r.top ≠ r.bot then
    let top := mask k (r.top + 2 ^ k - 1)
    (r.slot top, { r with top := top })
  else (none, r)

/-- A pop at the bottom; `none` when the buffer is empty. -/
def popBot (r : RingBuf α) : Option α × RingBuf α :=
  if r.top ≠ r.bot then (r.slot r.bot, { r with bot := mask k (r.bot + 1) }) else (none, r)

/-- The elements from the bottom to the top. -/
def items (r : RingBuf α) : List α :=
  (List.range ((r.top + 2 ^ k - r.bot) % 2 ^ k)).filterMap fun i => r.slot ((r.bot + i) % 2 ^ k)

/-- The buffer holds the list `l`, oldest first. -/
structure Repr (r : RingBuf α) (l : List α) : Prop where
  bot_lt : r.bot < 2 ^ k
  length_lt : l.length < 2 ^ k
  top_eq : r.top = (r.bot + l.length) % 2 ^ k
  slot_eq : ∀ i, i < l.length → r.slot ((r.bot + i) % 2 ^ k) = l[i]?

variable {k}

theorem mask_eq (i : Nat) : mask k i = i % 2 ^ k := Nat.and_two_pow_sub_one_eq_mod i k

/-- An index at most one turn on. -/
theorem wrap_eq {n a b : Nat} (ha : a < n) (hb : b ≤ n) : (a + b) % n = if a + b < n then a + b else a + b - n := by
  split_ifs with h
  · exact Nat.mod_eq_of_lt h
  · rw [Nat.mod_eq_sub_mod (not_lt.1 h), Nat.mod_eq_of_lt (by omega)]

/-- Less than a turn apart, two places are not the same. -/
theorem wrap_ne {n a b c : Nat} (ha : a < n) (hb : b < n) (hc : c < n) (hbc : b ≠ c) : (a + b) % n ≠ (a + c) % n := by
  rw [wrap_eq ha hb.le, wrap_eq ha hc.le]
  split_ifs <;> omega

theorem wrap_succ {n a : Nat} (b : Nat) : ((a + b) % n + 1) % n = (a + (b + 1)) % n := by
  rw [Nat.mod_add_mod, Nat.add_assoc]

theorem wrap_pred {n a b : Nat} (hn : 0 < n) : ((a + (b + 1)) % n + n - 1) % n = (a + b) % n := by
  have h : (a + (b + 1)) % n + n - 1 = (a + (b + 1)) % n + (n - 1) := by omega
  rw [h, Nat.mod_add_mod, show a + (b + 1) + (n - 1) = a + b + n by omega, Nat.add_mod_right]

namespace Repr

variable {r : RingBuf α} {l : List α}

theorem top_lt (h : r.Repr k l) : r.top < 2 ^ k := by
  rw [h.top_eq]
  exact Nat.mod_lt _ (Nat.two_pow_pos k)

/-- Indices that meet, within the array. -/
theorem empty {slot : Nat → Option α} {i : Nat} (hi : i < 2 ^ k) : Repr k ⟨i, i, slot⟩ [] :=
  ⟨hi, Nat.two_pow_pos k, (Nat.mod_eq_of_lt hi).symm, fun j hj => absurd hj (Nat.not_lt_zero j)⟩

theorem length_eq (h : r.Repr k l) : (r.top + 2 ^ k - r.bot) % 2 ^ k = l.length := by
  have hb := h.bot_lt
  have hl := h.length_lt
  rw [h.top_eq, wrap_eq hb hl.le]
  split_ifs with hw
  · rw [show r.bot + l.length + 2 ^ k - r.bot = l.length + 2 ^ k by omega, Nat.add_mod_right, Nat.mod_eq_of_lt hl]
  · rw [show r.bot + l.length - 2 ^ k + 2 ^ k - r.bot = l.length by omega, Nat.mod_eq_of_lt hl]

/-- The indices meet if and only if there is no element. -/
theorem top_eq_bot_iff (h : r.Repr k l) : r.top = r.bot ↔ l = [] := by
  have hb := h.bot_lt
  have hl := h.length_lt
  rw [h.top_eq, wrap_eq hb hl.le, ← List.length_eq_zero_iff]
  split_ifs <;> omega

/-- The list is what the buffer holds. -/
theorem items_eq (h : r.Repr k l) : r.items k = l := by
  have hmap : (List.range l.length).map (fun i => r.slot ((r.bot + i) % 2 ^ k)) = l.map some := by
    apply List.ext_getElem
    · simp
    · intro i hi _
      have hi : i < l.length := by simpa using hi
      rw [List.getElem_map, List.getElem_range, List.getElem_map, h.slot_eq i hi, List.getElem?_eq_getElem hi]
  have hid := congrArg (List.filterMap id) hmap
  rw [List.filterMap_map, List.filterMap_map] at hid
  unfold items
  rw [h.length_eq]
  exact hid.trans List.filterMap_some

/-- A push appends while a slot is left. -/
theorem push (h : r.Repr k l) (x : α) (hlen : l.length + 1 < 2 ^ k) :
    ∃ r', r.push k x = some r' ∧ r'.Repr k (l ++ [x]) := by
  have hb := h.bot_lt
  have htop : mask k (r.top + 1) = (r.bot + (l.length + 1)) % 2 ^ k := by
    rw [mask_eq, h.top_eq, wrap_succ]
  have hne : mask k (r.top + 1) ≠ r.bot := by
    rw [htop, wrap_eq hb hlen.le]
    split_ifs <;> omega
  refine ⟨_, if_neg hne, hb, by simpa using hlen, by simpa using htop, fun i hi => ?_⟩
  rw [List.length_append, List.length_singleton] at hi
  dsimp only
  rcases Nat.lt_succ_iff_lt_or_eq.1 hi with hi | rfl
  · rw [Function.update_of_ne, h.slot_eq i hi, List.getElem?_append_left hi]
    rw [h.top_eq]
    exact wrap_ne hb (by omega) (by omega) (by omega)
  · rw [h.top_eq, Function.update_self, List.getElem?_append_right le_rfl, Nat.sub_self]
    rfl

/-- A push in the last slot makes the indices meet. -/
theorem push_full (h : r.Repr k l) (x : α) (hlen : l.length + 1 = 2 ^ k) : r.push k x = none := by
  have htop : mask k (r.top + 1) = r.bot := by
    rw [mask_eq, h.top_eq, wrap_succ, hlen, Nat.add_mod_right, Nat.mod_eq_of_lt h.bot_lt]
  exact if_pos htop

/-- A pop at the top takes the element pushed last. -/
theorem popTop (h : r.Repr k l) : (r.popTop k).1 = l.getLast? ∧ (r.popTop k).2.Repr k l.dropLast := by
  unfold RingBuf.popTop
  cases l using List.reverseRecOn with
  | nil =>
    rw [if_neg (not_not.2 (h.top_eq_bot_iff.2 rfl))]
    exact ⟨rfl, h⟩
  | append_singleton l x =>
    have hl := h.length_lt
    rw [List.length_append, List.length_singleton] at hl
    have hne : r.top ≠ r.bot := fun he => absurd (h.top_eq_bot_iff.1 he) (by simp)
    have htop : mask k (r.top + 2 ^ k - 1) = (r.bot + l.length) % 2 ^ k := by
      rw [mask_eq, h.top_eq, List.length_append, List.length_singleton, wrap_pred (Nat.two_pow_pos k)]
    rw [if_pos hne, List.getLast?_concat, List.dropLast_concat]
    dsimp only
    rw [htop]
    refine ⟨?_, h.bot_lt, by omega, rfl, fun i hi => ?_⟩
    · rw [h.slot_eq l.length (by simp), List.getElem?_append_right le_rfl, Nat.sub_self]
      rfl
    · rw [h.slot_eq i (by simp; omega), List.getElem?_append_left hi]

/-- A pop at the bottom takes the element pushed first. -/
theorem popBot (h : r.Repr k l) : (r.popBot k).1 = l.head? ∧ (r.popBot k).2.Repr k l.tail := by
  unfold RingBuf.popBot
  cases l with
  | nil =>
    rw [if_neg (not_not.2 (h.top_eq_bot_iff.2 rfl))]
    exact ⟨rfl, h⟩
  | cons x l =>
    have hl := h.length_lt
    have hb := h.bot_lt
    rw [List.length_cons] at hl
    have hne : r.top ≠ r.bot := fun he => absurd (h.top_eq_bot_iff.1 he) (by simp)
    rw [if_pos hne]
    have hslot : ∀ i, ((r.bot + 1) % 2 ^ k + i) % 2 ^ k = (r.bot + (i + 1)) % 2 ^ k := fun i => by
      rw [Nat.mod_add_mod]
      congr 1
      omega
    refine ⟨?_, ?_, by simpa using Nat.lt_of_succ_lt hl, ?_, fun i hi => ?_⟩
    · have h0 := h.slot_eq 0 (by simp)
      rw [Nat.add_zero, Nat.mod_eq_of_lt hb] at h0
      exact h0
    · dsimp only
      rw [mask_eq]
      exact Nat.mod_lt _ (Nat.two_pow_pos k)
    · dsimp only
      rw [mask_eq, List.tail_cons, hslot, h.top_eq, List.length_cons]
    · rw [List.tail_cons] at hi ⊢
      dsimp only
      rw [mask_eq, hslot, h.slot_eq (i + 1) (by simpa using hi), List.getElem?_cons_succ]

end Repr

end RingBuf
