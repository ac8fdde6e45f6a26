/-
The broadcast of `coll/ibcast.h` and the room that the three collectives take in a request. The
builders append to `next[128]` without a check: recursive doubling and dissemination append a
logarithmic number of operations, the root of the linear broadcast one for every other process.
-/
import Lci.Coll.Sched

namespace Lci.Coll

/-- The operations that `next` has room for. -/
def nextRoom : Nat := 128

def MCA_COLL_BASE_TAG_IBCAST : Nat := 1342

/-- The operations of a rank in the linear broadcast. -/
def bcastSched (size rank root : Nat) : List ColSched :=
  if rank ≠ root then [.recv .rbuf root]
  else ((List.range size).filter fun i => i ≠ rank).map fun i => .send .rbuf i

/-- `lc_ibcast` up to its first `lc_col_progress`. -/
def lcIbcast (size rank root count : Nat) (req : ColReq) : ColReq :=
  { lcColreqInit req with size := count, tag := MCA_COLL_BASE_TAG_IBCAST, next := bcastSched size rank root }

/-- Every call of the rank leaves no more operations than `next` has room for; with one process
`lc_ialreduce` appends none. -/
structure FitsRequest (size rank root : Nat) : Prop where
  allreduce : ∀ inPlace count op m req m' req', size ≠ 1 →
    lcIalreduce size rank inPlace count op m req = some (m', req') → req'.next.length ≤ nextRoom
  barrier : ∀ req, (lcIbarrier size rank req).next.length ≤ nextRoom
  bcast : ∀ count req, (lcIbcast size rank root count req).next.length ≤ nextRoom

/-! ## The lengths of the schedules -/

/-- From distance `2^k` on, two operations a round, and at most `j` rounds below `2^(k + j)`. -/
theorem exchange_length_le (size nr : Nat) : ∀ j k, adjsize size ≤ 2 ^ (k + j) →
    (exchange size nr k).length ≤ 2 * j
  | 0, k, h => by
    rw [exchange, if_neg (by rw [Nat.shiftLeft_eq, Nat.one_mul]; simpa using h)]
    exact le_rfl
  | j + 1, k, h => by
    rw [exchange]
    split_ifs
    · have ih := exchange_length_le size nr j (k + 1) (by rwa [show k + 1 + j = k + (j + 1) by omega])
      simp only [List.length_cons]
      omega
    · exact Nat.zero_le _

theorem barrierSched_length_le (size rank : Nat) : ∀ j k, size ≤ 2 ^ (k + j) →
    (barrierSched size rank k).length ≤ 2 * j
  | 0, k, h => by
    rw [barrierSched, if_neg (by rw [Nat.shiftLeft_eq, Nat.one_mul]; simpa using h)]
    exact le_rfl
  | j + 1, k, h => by
    rw [barrierSched]
    split_ifs
    · have ih := barrierSched_length_le size rank j (k + 1) (by rwa [show k + 1 + j = k + (j + 1) by omega])
      simp only [List.length_cons]
      omega
    · exact Nat.zero_le _

theorem foldIn_length_le (size rank : Nat) : (foldIn size rank).length ≤ 2 := by
  unfold foldIn
  split_ifs <;> simp

theorem foldOut_length_le (size rank : Nat) : (foldOut size rank).length ≤ 2 := by
  unfold foldOut
  split_ifs <;> simp

theorem allreduceSched_length_le {size : Nat} (rank : Nat) (h0 : 0 < size) (h : size < 2 ^ 30) :
    (allreduceSched size rank).length ≤ 65 := by
  have hadj : adjsize size ≤ 2 ^ (0 + 30) := (adjsize_le h0 h).trans (by omega)
  have hin := foldIn_length_le size rank
  have hout := foldOut_length_le size rank
  unfold allreduceSched
  simp only [List.length_append, List.length_singleton]
  cases newrank size rank with
  | none =>
    simp only [List.length_nil]
    omega
  | some nr =>
    have hx := exchange_length_le size nr 30 0 hadj
    simp only
    omega

/-- The root sends to every other process. -/
theorem bcastSched_root_length {size rank : Nat} (hr : rank < size) :
    (bcastSched size rank rank).length = size - 1 := by
  unfold bcastSched
  rw [if_neg (not_not.2 rfl), List.length_map, ← List.countP_eq_length_filter]
  have hall := List.length_eq_countP_add_countP (fun i => decide (i ≠ rank)) (l := List.range size)
  have hone : (List.range size).countP (fun i => !decide (i ≠ rank)) = 1 := by
    have := List.count_eq_one_of_mem List.nodup_range (List.mem_range.2 hr)
    rw [List.count] at this
    rw [← this]
    exact List.countP_congr fun i _ => by simp
  rw [List.length_range] at hall
  simp only [Bool.not_eq_true, Bool.decide_eq_false] at hall
  omega

/-- The schedules of a rank fit its request if and only if it is not the root of a broadcast to more than
128 others. -/
theorem schedules_fit_iff {size rank root : Nat} (h0 : 1 ≤ size) (h : size < 2 ^ 30) (hr : rank < size) :
    FitsRequest size rank root ↔ rank ≠ root ∨ size ≤ 129 := by
  constructor
  · intro hf
    by_contra hc
    rw [not_or, not_not, not_le] at hc
    obtain ⟨rfl, hgt⟩ := hc
    have := hf.bcast 0 ⟨false, 0, false, false, fun x _ => x, [], 0, 0⟩
    rw [lcIbcast, bcastSched_root_length hr, nextRoom] at this
    omega
  · intro hc
    refine ⟨fun inPlace count op m req m' req' h1 he => ?_, fun req => ?_, fun count req => ?_⟩
    · rw [lcIalreduce, if_neg h1, Option.some.injEq, Prod.mk.injEq] at he
      rw [← he.2]
      exact (allreduceSched_length_le rank h0 h).trans (by decide)
    · exact (barrierSched_length_le size rank 30 0 (by omega)).trans (by decide)
    · by_cases hroot : rank = root
      · subst hroot
        have hle := hc.resolve_left (not_not.2 rfl)
        rw [lcIbcast, bcastSched_root_length hr, nextRoom]
        omega
      · rw [lcIbcast, bcastSched, if_pos hroot]
        exact Nat.le_of_ble_eq_true rfl

/-- Rank 5 of a thousand, the root being rank 0. -/
theorem schedules_fit_iff_thousand :
    1 ≤ 1000 ∧ 1000 < 2 ^ 30 ∧ 5 < 1000 ∧ FitsRequest 1000 5 0 :=
  ⟨by decide, by decide, by decide, (schedules_fit_iff (by decide) (by decide) (by decide)).2 (.inl (by decide))⟩

/-- The root of a broadcast over 130 processes appends 129 operations. -/
theorem bcast_root_overflows :
    (bcastSched 130 0 0).length = 129 ∧ ¬ FitsRequest 130 0 0 := by
  have hlen : (bcastSched 130 0 0).length = 129 := bcastSched_root_length (by decide)
  refine ⟨hlen, fun hf => ?_⟩
  have := hf.bcast 0 ⟨false, 0, false, false, fun x _ => x, [], 0, 0⟩
  rw [lcIbcast, hlen, nextRoom] at this
  omega

end Lci.Coll
