/-
`lc_ialreduce` on every number of processes: the plan of its schedules, what each rank holds after
each round, and the three results about every interleaving of any number of allreduces: some rank can
go on until all flags are 1, a commutative operation gives all ranks the same result, and an
associative one as well makes it the combination of all contributions.
-/
import Lci.Coll.Plan
import Lci.Lib.Butterfly

namespace Lci.Coll

open Butterfly (value foldAll)

variable {P : Nat}

/-! ## The ranks that exchange -/

section Ranks

variable (h0 : 0 < P) (hP : P < 2 ^ 30)

include h0 hP

theorem extraRanks_lt : extraRanks P < adjsize P := by
  have := lt_two_mul_adjsize h0 hP
  unfold extraRanks
  omega

theorem adjsize_add : adjsize P + extraRanks P = P := by
  have := adjsize_le h0 hP
  unfold extraRanks
  omega

theorem newrank_eq_some {r a : Nat} (hr : r < P) (h : newrank P r = some a) : a < adjsize P ∧ remote P a = r := by
  have h1 := extraRanks_lt h0 hP
  have h2 := adjsize_add h0 hP
  unfold newrank at h
  unfold remote
  split at h
  · split at h
    · cases h
    · cases h
      rw [Nat.shiftRight_one, if_pos (by omega)]
      omega
  · cases h
    rw [if_neg (by omega)]
    omega

theorem remote_lt {a : Nat} (ha : a < adjsize P) : remote P a < P := by
  have h1 := extraRanks_lt h0 hP
  have h2 := adjsize_add h0 hP
  unfold remote
  split <;> omega

omit h0 hP in
theorem newrank_remote (a : Nat) : newrank P (remote P a) = some a := by
  unfold newrank remote
  split
  · rw [if_pos (by omega), if_neg (by omega), Nat.shiftRight_one]
    congr 1
    omega
  · rw [if_neg (by omega), Nat.add_sub_cancel]

theorem xor_lt {a k : Nat} (ha : a < adjsize P) (hk : k < P.log2) : a ^^^ 2 ^ k < adjsize P := by
  rw [adjsize_eq h0 hP] at *
  exact Nat.xor_lt_two_pow ha (Nat.pow_lt_pow_right (by decide) hk)

end Ranks

theorem newrank_eq_none {r : Nat} : newrank P r = none ↔ r < 2 * extraRanks P ∧ r % 2 = 0 := by
  unfold newrank
  split
  · rename_i h
    split <;> simp_all
  · rename_i h
    simp [h]

theorem newrank_odd {r : Nat} (h : r < 2 * extraRanks P) (ho : r % 2 = 1) : newrank P r = some (r / 2) := by
  unfold newrank
  rw [if_pos h, if_neg (by omega), Nat.shiftRight_one]

theorem newrank_main {r : Nat} (h : ¬ r < 2 * extraRanks P) : newrank P r = some (r - extraRanks P) := by
  unfold newrank
  rw [if_neg h]

/-! ## The schedules, round by round -/

/-- The two operations of round `k`. -/
def round (P a k : Nat) : List ColSched := [.sendrecv .tmp .rbuf (remote P (a ^^^ 2 ^ k)), .op .tmp .rbuf]

theorem exchange_eq (h0 : 0 < P) (hP : P < 2 ^ 30) (a : Nat) {k n : Nat} (hk : k + n = P.log2) :
    exchange P a k = (List.range' k n).flatMap (round P a) := by
  induction n generalizing k with
  | zero =>
    rw [exchange, if_neg]
    · rfl
    · rw [adjsize_eq h0 hP, Nat.shiftLeft_eq, Nat.one_mul, ← hk]
      simp
  | succ n ih =>
    rw [exchange, if_pos, ih (by omega), List.range'_succ, List.flatMap_cons]
    · simp [round, Nat.shiftLeft_eq]
    · rw [adjsize_eq h0 hP, Nat.shiftLeft_eq, Nat.one_mul]
      exact Nat.pow_lt_pow_right (by decide) (by omega)

/-- The labelled operations of a rank: 1 for the hand-in, `k + 2` for round `k`, `log2 P + 2` for the
results that go back. -/
def planIn (P r : Nat) : List (Nat × ColSched) :=
  if r < 2 * extraRanks P then
    if r % 2 = 0 then [(1, .send .tmp (r + 1))] else [(1, .recv .rbuf (r - 1)), (2, .op .tmp .rbuf)]
  else []

def planRounds (P r : Nat) : List (Nat × ColSched) := match newrank P r with
  | some a => (List.range' 0 P.log2).flatMap fun k =>
      [(k + 2, .sendrecv .tmp .rbuf (remote P (a ^^^ 2 ^ k))), (k + 3, .op .tmp .rbuf)]
  | none => []

def planOut (P r : Nat) : List (Nat × ColSched) :=
  if r < 2 * extraRanks P then
    if r % 2 = 0 then [(P.log2 + 2, .recv .rbuf (r + 1))]
    else [(P.log2 + 2, .send .tmp (r - 1)), (P.log2 + 3, .mem .rbuf .tmp)]
  else [(P.log2 + 3, .mem .rbuf .tmp)]

def planOps (P r : Nat) : List (Nat × ColSched) :=
  planIn P r ++ planRounds P r ++ planOut P r ++ [(P.log2 + 3, .free .tmp)]

theorem planOps_sched (h0 : 0 < P) (hP : P < 2 ^ 30) (r : Nat) : (planOps P r).map Prod.snd = allreduceSched P r := by
  unfold planOps allreduceSched
  rw [List.map_append, List.map_append, List.map_append]
  congr 1
  · congr 1
    · congr 1
      · unfold planIn foldIn
        split
        · split <;> rfl
        · rfl
      · unfold planRounds
        cases newrank P r with
        | none => rfl
        | some a =>
          simp only
          rw [exchange_eq h0 hP a (n := P.log2) (by omega), List.map_flatMap]
          rfl
    · unfold planOut foldOut
      split
      · split <;> rfl
      · rfl

/-- What the operations of a plan can be. -/
theorem mem_planOps {r : Nat} {x : Nat × ColSched} (hx : x ∈ planOps P r) :
    (r < 2 * extraRanks P ∧ r % 2 = 0 ∧
      (x = (1, .send .tmp (r + 1)) ∨ x = (P.log2 + 2, .recv .rbuf (r + 1)))) ∨
    (r < 2 * extraRanks P ∧ r % 2 = 1 ∧
      (x = (1, .recv .rbuf (r - 1)) ∨ x = (P.log2 + 2, .send .tmp (r - 1)))) ∨
    (∃ a k, newrank P r = some a ∧ k < P.log2 ∧ x = (k + 2, .sendrecv .tmp .rbuf (remote P (a ^^^ 2 ^ k)))) ∨
    (x.2.peer = none ∧ x.1 ≤ P.log2 + 3) := by
  simp only [planOps, List.mem_append, List.mem_singleton] at hx
  -- the fold of the extra ranks, the rounds, the way back, and the free
  rcases hx with ((hx | hx) | hx) | rfl
  · unfold planIn at hx
    split at hx
    · split at hx
      · simp only [List.mem_singleton] at hx
        exact .inl ⟨‹_›, ‹_›, .inl hx⟩
      · simp only [List.mem_cons, List.not_mem_nil, or_false] at hx
        rcases hx with rfl | rfl
        · exact .inr (.inl ⟨‹_›, by omega, .inl rfl⟩)
        · exact .inr (.inr (.inr ⟨rfl, by simp⟩))
    · cases hx
  · unfold planRounds at hx
    split at hx
    · rename_i a ha
      simp only [List.mem_flatMap, List.mem_range'_1, List.mem_cons, List.not_mem_nil, or_false] at hx
      obtain ⟨k, hk, rfl | rfl⟩ := hx
      · exact .inr (.inr (.inl ⟨a, k, ha, by omega, rfl⟩))
      · exact .inr (.inr (.inr ⟨rfl, by simp only; omega⟩))
    · cases hx
  · unfold planOut at hx
    split at hx
    · split at hx
      · simp only [List.mem_singleton] at hx
        exact .inl ⟨‹_›, ‹_›, .inr hx⟩
      · simp only [List.mem_cons, List.not_mem_nil, or_false] at hx
        rcases hx with rfl | rfl
        · exact .inr (.inl ⟨‹_›, by omega, .inr rfl⟩)
        · exact .inr (.inr (.inr ⟨rfl, le_rfl⟩))
    · simp only [List.mem_singleton] at hx
      subst hx
      exact .inr (.inr (.inr ⟨rfl, le_rfl⟩))
  · exact .inr (.inr (.inr ⟨rfl, le_rfl⟩))

theorem round_mem_planOps {r a k : Nat} (ha : newrank P r = some a) (hk : k < P.log2) :
    (k + 2, .sendrecv .tmp .rbuf (remote P (a ^^^ 2 ^ k))) ∈ planOps P r := by
  simp only [planOps, List.mem_append]
  refine .inl (.inl (.inr ?_))
  simp only [planRounds, ha, List.mem_flatMap, List.mem_range'_1]
  exact ⟨k, by omega, List.mem_cons_self⟩

theorem even_mem_planOps {r : Nat} (h : r < 2 * extraRanks P) (he : r % 2 = 0) :
    (1, .send .tmp (r + 1)) ∈ planOps P r ∧ (P.log2 + 2, .recv .rbuf (r + 1)) ∈ planOps P r := by
  simp [planOps, planIn, planOut, h, he]

theorem odd_mem_planOps {r : Nat} (h : r < 2 * extraRanks P) (ho : r % 2 = 1) :
    (1, .recv .rbuf (r - 1)) ∈ planOps P r ∧ (P.log2 + 2, .send .tmp (r - 1)) ∈ planOps P r := by
  simp [planOps, planIn, planOut, h, ho]

/-- Labels grow, strictly after a communication. -/
def LabelLe (x y : Nat × ColSched) : Prop := x.1 ≤ y.1 ∧ (x.2.peer.isSome → x.1 < y.1)

theorem planOps_sorted (P r : Nat) : (planOps P r).Pairwise LabelLe := by
  -- the labels of the three phases lie in intervals that follow each other
  have hin : ∀ x ∈ planIn P r, x.1 ≤ 2 ∧ (x.2.peer.isSome → x.1 = 1) := by
    intro x hx
    unfold planIn at hx
    split at hx
    · split at hx <;> simp only [List.mem_cons, List.not_mem_nil, or_false] at hx
      · subst hx; simp
      · rcases hx with rfl | rfl <;> simp [ColSched.peer]
    · cases hx
  have hrounds : ∀ x ∈ planRounds P r, 2 ≤ x.1 ∧ x.1 ≤ P.log2 + 2 ∧ (x.2.peer.isSome → x.1 < P.log2 + 2) := by
    intro x hx
    unfold planRounds at hx
    split at hx
    · simp only [List.mem_flatMap, List.mem_range'_1, List.mem_cons, List.not_mem_nil, or_false] at hx
      obtain ⟨k, hk, rfl | rfl⟩ := hx
      · simp only; omega
      · simp [ColSched.peer]; omega
    · cases hx
  have hout : ∀ x ∈ planOut P r, P.log2 + 2 ≤ x.1 ∧ x.1 ≤ P.log2 + 3 ∧ (x.2.peer.isSome → x.1 < P.log2 + 3) := by
    intro x hx
    unfold planOut at hx
    split at hx
    · split at hx <;> simp only [List.mem_cons, List.not_mem_nil, or_false] at hx
      · subst hx; simp
      · rcases hx with rfl | rfl <;> simp [ColSched.peer]
    · simp only [List.mem_cons, List.not_mem_nil, or_false] at hx
      subst hx
      simp [ColSched.peer]
  unfold planOps
  refine List.pairwise_append.2 ⟨List.pairwise_append.2 ⟨List.pairwise_append.2 ⟨?_, ?_, ?_⟩, ?_, ?_⟩,
    List.pairwise_singleton _ _, ?_⟩
  · unfold planIn
    split
    · split <;> simp [LabelLe]
    · exact List.Pairwise.nil
  · unfold planRounds
    split
    · refine List.pairwise_flatMap.2 ⟨fun k _ => by simp [LabelLe], ?_⟩
      refine List.Pairwise.imp ?_ (List.pairwise_lt_range' 1)
      intro k l hkl x hx y hy
      simp only [List.mem_cons, List.not_mem_nil, or_false] at hx hy
      rcases hx with rfl | rfl <;> rcases hy with rfl | rfl <;> simp [LabelLe, ColSched.peer] <;> omega
    · exact List.Pairwise.nil
  · intro x hx y hy
    obtain ⟨h1, h2⟩ := hin x hx
    obtain ⟨h3, -⟩ := hrounds y hy
    exact ⟨by omega, fun hp => by have := h2 hp; omega⟩
  · unfold planOut
    split
    · split <;> simp [LabelLe]
    · exact List.pairwise_singleton _ _
  · intro x hx y hy
    obtain ⟨h3, -⟩ := hout y hy
    rcases List.mem_append.1 hx with hx | hx
    · obtain ⟨h1, h2⟩ := hin x hx
      exact ⟨by omega, fun hp => by have := h2 hp; omega⟩
    · obtain ⟨-, h1, h2⟩ := hrounds x hx
      exact ⟨by omega, fun hp => by have := h2 hp; omega⟩
  · intro x hx y hy
    obtain rfl := List.mem_singleton.1 hy
    rcases List.mem_append.1 hx with hx | hx
    · rcases List.mem_append.1 hx with hx | hx
      · obtain ⟨h1, h2⟩ := hin x hx
        exact ⟨by simp only; omega, fun hp => by have := h2 hp; simp only; omega⟩
      · obtain ⟨-, h1, h2⟩ := hrounds x hx
        exact ⟨by simp only; omega, fun hp => by have := h2 hp; simp only; omega⟩
    · obtain ⟨-, h1, h2⟩ := hout x hx
      exact ⟨h1, h2⟩

/-- The label of the message from rank `i` to rank `j`. -/
def msgLab (P i j : Nat) : Nat := match newrank P i, newrank P j with
  | none, _ => 1
  | some _, none => P.log2 + 2
  | some a, some b => (a ^^^ b).log2 + 2

theorem xor_xor_log2 (a k : Nat) : (a ^^^ (a ^^^ 2 ^ k)).log2 = k ∧ ((a ^^^ 2 ^ k) ^^^ a).log2 = k := by
  constructor
  · rw [← Nat.xor_assoc, Nat.xor_self, Nat.zero_xor, Nat.log2_two_pow]
  · rw [Nat.xor_comm, ← Nat.xor_assoc, Nat.xor_self, Nat.zero_xor, Nat.log2_two_pow]

/-- The neighbour of an odd extra rank hands in its data. -/
theorem newrank_pred {r : Nat} (h : r < 2 * extraRanks P) (ho : r % 2 = 1) : newrank P (r - 1) = none :=
  newrank_eq_none.2 ⟨by omega, by omega⟩

theorem newrank_succ {r : Nat} (h : r < 2 * extraRanks P) (he : r % 2 = 0) : newrank P (r + 1) = some (r / 2) := by
  rw [newrank_odd (by omega) (by omega)]
  congr 1
  omega

theorem planOps_send {i j : Nat} {x : Nat × ColSched} (hx : x ∈ planOps P i) (hs : x.2.sendsTo j) :
    x.1 = msgLab P i j := by
  obtain ⟨src, ht⟩ := hs
  rcases mem_planOps hx with ⟨h, he, rfl | rfl⟩ | ⟨h, ho, rfl | rfl⟩ | ⟨a, k, ha, hk, rfl⟩ | ⟨hp, -⟩
  · simp [msgLab, newrank_eq_none.2 ⟨h, he⟩]
  · cases ht
  · cases ht
  · obtain ⟨-, rfl⟩ : Buf.tmp = src ∧ i - 1 = j := by simpa [ColSched.target] using ht
    simp [msgLab, newrank_odd h ho, newrank_pred h ho]
  · obtain ⟨-, rfl⟩ : Buf.tmp = src ∧ remote P (a ^^^ 2 ^ k) = j := by simpa [ColSched.target] using ht
    simp [msgLab, ha, newrank_remote]
  · have := ColSched.peer_of_sendsTo ⟨src, ht⟩
    rw [hp] at this
    cases this

theorem planOps_recv {i j : Nat} {x : Nat × ColSched} (hx : x ∈ planOps P j) (hr : x.2.recvsFrom i) :
    x.1 = msgLab P i j := by
  obtain ⟨dst, ht⟩ := hr
  rcases mem_planOps hx with ⟨h, he, rfl | rfl⟩ | ⟨h, ho, rfl | rfl⟩ | ⟨a, k, ha, hk, rfl⟩ | ⟨hp, -⟩
  · cases ht
  · obtain ⟨-, rfl⟩ : Buf.rbuf = dst ∧ j + 1 = i := by simpa [ColSched.source] using ht
    simp [msgLab, newrank_eq_none.2 ⟨h, he⟩, newrank_succ h he]
  · obtain ⟨-, rfl⟩ : Buf.rbuf = dst ∧ j - 1 = i := by simpa [ColSched.source] using ht
    simp [msgLab, newrank_pred h ho]
  · cases ht
  · obtain ⟨-, rfl⟩ : Buf.rbuf = dst ∧ remote P (a ^^^ 2 ^ k) = i := by simpa [ColSched.source] using ht
    simp only [msgLab, ha, newrank_remote, (xor_xor_log2 a k).2]
  · have := ColSched.peer_of_recvsFrom ⟨dst, ht⟩
    rw [hp] at this
    cases this

/-- One rank sends to another exactly when the other receives from it. -/
theorem planOps_paired (h0 : 0 < P) (hP : P < 2 ^ 30) {i j : Nat} (hi : i < P) (hj : j < P) :
    (∃ x ∈ planOps P i, x.2.sendsTo j) ↔ ∃ x ∈ planOps P j, x.2.recvsFrom i := by
  constructor
  · rintro ⟨x, hx, src, ht⟩
    rcases mem_planOps hx with ⟨h, he, rfl | rfl⟩ | ⟨h, ho, rfl | rfl⟩ | ⟨a, k, ha, hk, rfl⟩ | ⟨hp, -⟩
    · obtain ⟨-, rfl⟩ : Buf.tmp = src ∧ i + 1 = j := by simpa [ColSched.target] using ht
      exact ⟨_, (odd_mem_planOps (by omega) (by omega)).1, .rbuf, rfl⟩
    · cases ht
    · cases ht
    · obtain ⟨-, rfl⟩ : Buf.tmp = src ∧ i - 1 = j := by simpa [ColSched.target] using ht
      refine ⟨_, (even_mem_planOps (by omega) (by omega)).2, .rbuf, ?_⟩
      simp only [ColSched.source, Option.some.injEq, Prod.mk.injEq, true_and]
      omega
    · obtain ⟨-, rfl⟩ : Buf.tmp = src ∧ remote P (a ^^^ 2 ^ k) = j := by simpa [ColSched.target] using ht
      refine ⟨_, round_mem_planOps (newrank_remote _) hk, .rbuf, ?_⟩
      simp only [ColSched.source, Option.some.injEq, Prod.mk.injEq, true_and]
      rw [Nat.xor_assoc, Nat.xor_self, Nat.xor_zero, (newrank_eq_some h0 hP hi ha).2]
    · have := ColSched.peer_of_sendsTo ⟨src, ht⟩
      rw [hp] at this
      cases this
  · rintro ⟨x, hx, dst, ht⟩
    rcases mem_planOps hx with ⟨h, he, rfl | rfl⟩ | ⟨h, ho, rfl | rfl⟩ | ⟨a, k, ha, hk, rfl⟩ | ⟨hp, -⟩
    · cases ht
    · obtain ⟨-, rfl⟩ : Buf.rbuf = dst ∧ j + 1 = i := by simpa [ColSched.source] using ht
      exact ⟨_, (odd_mem_planOps (by omega) (by omega)).2, .tmp, rfl⟩
    · obtain ⟨-, rfl⟩ : Buf.rbuf = dst ∧ j - 1 = i := by simpa [ColSched.source] using ht
      refine ⟨_, (even_mem_planOps (by omega) (by omega)).1, .tmp, ?_⟩
      simp only [ColSched.target, Option.some.injEq, Prod.mk.injEq, true_and]
      omega
    · cases ht
    · obtain ⟨-, rfl⟩ : Buf.rbuf = dst ∧ remote P (a ^^^ 2 ^ k) = i := by simpa [ColSched.source] using ht
      refine ⟨_, round_mem_planOps (newrank_remote _) hk, .tmp, ?_⟩
      simp only [ColSched.target, Option.some.injEq, Prod.mk.injEq, true_and]
      rw [Nat.xor_assoc, Nat.xor_self, Nat.xor_zero, (newrank_eq_some h0 hP hj ha).2]
    · have := ColSched.peer_of_recvsFrom ⟨dst, ht⟩
      rw [hp] at this
      cases this

/-! ## The calls -/

/-- A buffer of `n` bytes. -/
abbrev Buffer (n : Nat) := { l : Bytes // l.length = n }

/-- The allreduces that the ranks call one after another: of each its size and operation, and for each
rank what its buffers hold and whether `sbuf` is `LC_COL_IN_PLACE`. -/
structure Workload (P : Nat) where
  count : Nat → Nat
  op : (c : Nat) → Buffer (count c) → Buffer (count c) → Buffer (count c)
  inPlace : Nat → Fin P → Bool
  sbuf : (c : Nat) → Fin P → Buffer (count c)
  rbuf : (c : Nat) → Fin P → Buffer (count c)

/-- What a rank contributes. -/
def Workload.contribution (w : Workload P) (c : Nat) (r : Fin P) : Buffer (w.count c) :=
  if w.inPlace c r then w.rbuf c r else w.sbuf c r

/-- An operation on buffers of one size, as the function that a request holds. -/
def liftOp {n : Nat} (op : Buffer n → Buffer n → Buffer n) (a b : Bytes) : Bytes :=
  if h : a.length = n ∧ b.length = n then (op ⟨a, h.1⟩ ⟨b, h.2⟩).1 else a

theorem liftOp_val {n : Nat} (op : Buffer n → Buffer n → Buffer n) (a b : Buffer n) :
    liftOp op a.1 b.1 = (op a b).1 := by
  rw [liftOp, dif_pos ⟨a.2, b.2⟩]

/-- The caller's buffers at the c-th call. -/
def Workload.buffers (w : Workload P) (c : Nat) (r : Fin P) (m : Mem) : Mem :=
  Function.update (Function.update m .sbuf (w.sbuf c r).1) .rbuf (w.rbuf c r).1

/-- The c-th call of `lc_ialreduce` at rank `r`. -/
def Workload.start (w : Workload P) : Start P := fun c r m req =>
  lcIalreduce P r (w.inPlace c r) (w.count c) (liftOp (w.op c)) (w.buffers c r m) req

theorem planOps_peer_lt (h0 : 0 < P) (hP : P < 2 ^ 30) {r k : Nat} (hr : r < P) {x : Nat × ColSched}
    (hx : x ∈ planOps P r) (hp : x.2.peer = some k) : k < P := by
  have h1 := extraRanks_lt h0 hP
  have h2 := adjsize_add h0 hP
  rcases mem_planOps hx with ⟨h, he, rfl | rfl⟩ | ⟨h, ho, rfl | rfl⟩ | ⟨a, l, ha, hk, rfl⟩ | ⟨hp', -⟩
  · cases hp; omega
  · cases hp; omega
  · cases hp; omega
  · cases hp; omega
  · cases hp
    exact remote_lt h0 hP (xor_lt h0 hP (newrank_eq_some h0 hP hr ha).1 hk)
  · rw [hp'] at hp
    cases hp

/-- The allreduces of a workload. -/
def Workload.collective (w : Workload P) (h0 : 0 < P) (hP : P < 2 ^ 30) : Collective P where
  sched r := allreduceSched P r
  setup c r m := Function.update (w.buffers c r m) .tmp (w.contribution c r).1
  op c := liftOp (w.op c)
  size := w.count
  tag := MCA_COLL_BASE_TAG_IALLREDUCE
  inRange r op hop k hk := by
    rw [← planOps_sched h0 hP] at hop
    obtain ⟨x, hx, rfl⟩ := List.mem_map.1 hop
    exact planOps_peer_lt h0 hP r.isLt hx hk

theorem Workload.start_eq (w : Workload P) (h2 : 2 ≤ P) (c : Nat) (r : Fin P) (m : Mem) (req : ColReq) :
    w.start c r m req = some (Function.update (w.buffers c r m) .tmp (w.contribution c r).1,
      { flag := false, cur := 0, sync0 := true, sync1 := true, op := liftOp (w.op c), size := w.count c,
        tag := MCA_COLL_BASE_TAG_IALLREDUCE, next := allreduceSched P r }) := by
  have hne : P ≠ 1 := by omega
  simp only [Workload.start, lcIalreduce, if_neg hne, lcColreqInit, Workload.contribution, Option.some.injEq,
    Prod.mk.injEq, and_true]
  congr 1
  simp only [Workload.buffers]
  split <;> simp

theorem Workload.starts (w : Workload P) (h2 : 2 ≤ P) (hP : P < 2 ^ 30) :
    (w.collective (by omega) hP).Starts w.start :=
  fun c r m req => ⟨_, w.start_eq h2 c r m req, ⟨rfl, rfl, rfl, rfl, rfl, rfl, rfl, fun _ _ _ => rfl⟩⟩

def Workload.plan (w : Workload P) (h0 : 0 < P) (hP : P < 2 ^ 30) : Plan (w.collective h0 hP) where
  ops r := planOps P r
  bound := P.log2 + 4
  sendLab i j := msgLab P i j
  recvLab i j := msgLab P i j
  sched_eq r := planOps_sched h0 hP r
  bound_pos := by omega
  lt_bound r x hx := by
    rcases mem_planOps hx with ⟨-, -, rfl | rfl⟩ | ⟨-, -, rfl | rfl⟩ | ⟨a, k, -, hk, rfl⟩ | ⟨-, h⟩
    · simp only; omega
    · simp only; omega
    · simp only; omega
    · simp only; omega
    · simp only; omega
    · omega
  sorted r := planOps_sorted P r
  send_lab i j x hx hs := planOps_send hx hs
  recv_lab i j x hx hr := planOps_recv hx hr
  paired i j := planOps_paired h0 hP i.isLt j.isLt
  send_le _ _ _ := le_rfl

/-! ## The values -/

namespace Workload

variable (w : Workload P) (c : Nat)

/-- The contribution of the rank with number `k`. -/
def x (k : Nat) : Buffer (w.count c) :=
  if h : k < P then w.contribution c ⟨k, h⟩ else ⟨List.replicate _ 0, List.length_replicate⟩

/-- What a rank that exchanges starts with. -/
def folded (a : Nat) : Buffer (w.count c) :=
  if a < extraRanks P then w.op c (w.x c (2 * a + 1)) (w.x c (2 * a)) else w.x c (a + extraRanks P)

/-- What it holds after `k` rounds. -/
def val (k a : Nat) : Buffer (w.count c) := value (w.op c) (w.folded c) k a

/-- What rank `i` sends to rank `j`. -/
def sent (i j : Nat) : Bytes := match newrank P i, newrank P j with
  | none, _ => (w.x c i).1
  | some a, none => (w.val c P.log2 a).1
  | some a, some b => (w.val c (a ^^^ b).log2 a).1

/-- What a rank ends with. -/
def final (r : Nat) : Buffer (w.count c) := match newrank P r with
  | some a => w.val c P.log2 a
  | none => w.val c P.log2 (r / 2)

end Workload

section Values

variable (w : Workload P) (h0 : 0 < P) (hP : P < 2 ^ 30) (c : Nat) {r : Nat} (hr : r < P)

/-- The two ends of the messages of rank `r`. -/
abbrev Workload.recvd (r : Nat) : Nat → Bytes := byRank fun i : Fin P => w.sent c i r

abbrev Workload.sends (r : Nat) : Nat → Bytes := byRank fun j : Fin P => w.sent c r j

theorem Workload.recvd_eq {k : Nat} (hk : k < P) : w.recvd c r k = w.sent c k r :=
  byRank_val (fun i : Fin P => w.sent c i r) ⟨k, hk⟩

theorem Workload.sends_eq {k : Nat} (hk : k < P) : w.sends c r k = w.sent c r k :=
  byRank_val (fun j : Fin P => w.sent c r j) ⟨k, hk⟩

include h0 hP hr

omit h0 hP in
theorem foldIn_some {a : Nat} (ha : newrank P r = some a) {m : Mem} (hm : m .tmp = (w.x c r).1) :
    SendsOk (liftOp (w.op c)) (w.recvd c r) (w.sends c r) (foldIn P r) m ∧
      (foldIn P r).foldl (runOp (liftOp (w.op c)) (w.recvd c r)) m .tmp = (w.val c 0 a).1 := by
  unfold foldIn
  split
  · rename_i h
    split
    · rename_i he
      rw [newrank_eq_none.2 ⟨h, he⟩] at ha
      cases ha
    · have ho : r % 2 = 1 := by omega
      rw [newrank_odd h ho] at ha
      cases ha
      refine ⟨by simp [SendsOk, ColSched.target], ?_⟩
      have hx : w.recvd c r (r - 1) = (w.x c (r - 1)).1 := by
        rw [w.recvd_eq c (show r - 1 < P by omega)]
        simp [Workload.sent, newrank_pred h ho]
      have hfold : w.val c 0 (r / 2) = w.op c (w.x c r) (w.x c (r - 1)) := by
        simp only [Workload.val, value, Workload.folded]
        rw [if_pos (by omega), show 2 * (r / 2) + 1 = r by omega, show 2 * (r / 2) = r - 1 by omega]
      simp only [List.foldl_cons, List.foldl_nil, runOp, write, Function.update_self,
        Function.update_of_ne (show Buf.tmp ≠ Buf.rbuf by decide), hm, hx]
      rw [hfold, liftOp_val]
  · rename_i h
    rw [newrank_main h] at ha
    cases ha
    refine ⟨trivial, ?_⟩
    simp only [List.foldl_nil, hm, Workload.val, value, Workload.folded]
    rw [if_neg (by omega), show r - extraRanks P + extraRanks P = r by omega]

theorem rounds_run {a : Nat} (ha : newrank P r = some a) {k n : Nat} (hk : k + n = P.log2) {m : Mem}
    (hm : m .tmp = (w.val c k a).1) :
    SendsOk (liftOp (w.op c)) (w.recvd c r) (w.sends c r) ((List.range' k n).flatMap (round P a)) m ∧
      ((List.range' k n).flatMap (round P a)).foldl (runOp (liftOp (w.op c)) (w.recvd c r)) m .tmp =
        (w.val c P.log2 a).1 := by
  induction n generalizing k m with
  | zero =>
    obtain rfl : k = P.log2 := by omega
    exact ⟨trivial, hm⟩
  | succ n ih =>
    have hrem : remote P (a ^^^ 2 ^ k) < P :=
      remote_lt h0 hP (xor_lt h0 hP (newrank_eq_some h0 hP hr ha).1 (by omega))
    have hsend : w.sends c r (remote P (a ^^^ 2 ^ k)) = (w.val c k a).1 := by
      rw [w.sends_eq c hrem]
      simp only [Workload.sent, ha, newrank_remote, xor_xor_log2]
    have hrecv : w.recvd c r (remote P (a ^^^ 2 ^ k)) = (w.val c k (a ^^^ 2 ^ k)).1 := by
      rw [w.recvd_eq c hrem]
      simp only [Workload.sent, ha, newrank_remote, xor_xor_log2]
    -- after round `k` the buffer holds the value of round `k + 1`
    have hround : (round P a k).foldl (runOp (liftOp (w.op c)) (w.recvd c r)) m .tmp = (w.val c (k + 1) a).1 := by
      simp only [round, List.foldl_cons, List.foldl_nil, runOp, write, Function.update_self,
        Function.update_of_ne (show Buf.tmp ≠ Buf.rbuf by decide), hm, hrecv]
      rw [liftOp_val]
      rfl
    obtain ⟨h1, h2⟩ := ih (k := k + 1) (by omega) hround
    rw [List.range'_succ, List.flatMap_cons, sendsOk_append, List.foldl_append]
    refine ⟨⟨?_, h1⟩, h2⟩
    simp [round, SendsOk, ColSched.target, hm, hsend]

omit h0 hP in
/-- What a rank does after the rounds. -/
theorem foldOut_some {a : Nat} (ha : newrank P r = some a) {m : Mem} (hm : m .tmp = (w.val c P.log2 a).1) :
    SendsOk (liftOp (w.op c)) (w.recvd c r) (w.sends c r) (foldOut P r) m ∧
      (foldOut P r).foldl (runOp (liftOp (w.op c)) (w.recvd c r)) m .rbuf = (w.val c P.log2 a).1 := by
  unfold foldOut
  split
  · rename_i h
    split
    · rename_i he
      rw [newrank_eq_none.2 ⟨h, he⟩] at ha
      cases ha
    · have ho : r % 2 = 1 := by omega
      have hsend : w.sends c r (r - 1) = (w.val c P.log2 a).1 := by
        rw [w.sends_eq c (show r - 1 < P by omega)]
        simp only [Workload.sent, ha, newrank_pred h ho]
      exact ⟨by simp [SendsOk, ColSched.target, hm, hsend], by simp [runOp, hm]⟩
  · exact ⟨by simp [SendsOk, ColSched.target], by simp [runOp, hm]⟩

/-- An extra rank hands in its data and gets the result. -/
theorem extra_run (hn : newrank P r = none) {m : Mem} (hm : m .tmp = (w.x c r).1) :
    SendsOk (liftOp (w.op c)) (w.recvd c r) (w.sends c r) (foldIn P r ++ foldOut P r) m ∧
      (foldIn P r ++ foldOut P r).foldl (runOp (liftOp (w.op c)) (w.recvd c r)) m .rbuf =
        (w.val c P.log2 (r / 2)).1 := by
  obtain ⟨h, he⟩ := newrank_eq_none.1 hn
  have hlt := extraRanks_lt h0 hP
  have hadd := adjsize_add h0 hP
  have hsend : w.sends c r (r + 1) = (w.x c r).1 := by
    rw [w.sends_eq c (show r + 1 < P by omega)]
    simp [Workload.sent, hn]
  have hrecv : w.recvd c r (r + 1) = (w.val c P.log2 (r / 2)).1 := by
    rw [w.recvd_eq c (show r + 1 < P by omega)]
    simp only [Workload.sent, hn, newrank_succ h he]
  simp only [foldIn, foldOut, if_pos h, if_pos he]
  exact ⟨by simp [SendsOk, ColSched.target, runOp, hm, hsend], by simp [runOp, write, hrecv]⟩

/-- A rank sends what it is to send, and ends with its final value. -/
theorem sched_run {m : Mem} (hm : m .tmp = (w.x c r).1) :
    SendsOk (liftOp (w.op c)) (w.recvd c r) (w.sends c r) (allreduceSched P r) m ∧
      (allreduceSched P r).foldl (runOp (liftOp (w.op c)) (w.recvd c r)) m .rbuf = (w.final c r).1 := by
  unfold allreduceSched Workload.final
  rw [sendsOk_append, List.foldl_append]
  cases hn : newrank P r with
  | none =>
    obtain ⟨h1, h2⟩ := extra_run w h0 hP c hr hn hm
    simp only [List.append_nil]
    exact ⟨⟨h1, by simp [SendsOk, ColSched.target]⟩, by simpa [runOp] using h2⟩
  | some a =>
    obtain ⟨h1, h2⟩ := foldIn_some w c hr hn hm
    obtain ⟨h3, h4⟩ := rounds_run w h0 hP c hr hn (n := P.log2) (by omega) h2
    obtain ⟨h5, h6⟩ := foldOut_some w c hr hn h4
    simp only [exchange_eq h0 hP a (k := 0) (n := P.log2) (by omega), sendsOk_append, List.foldl_append]
    exact ⟨⟨⟨⟨h1, h3⟩, h5⟩, by simp [SendsOk, ColSched.target]⟩, by simpa [runOp] using h6⟩

end Values

/-! ## All contributions, once -/

/-- The ranks whose data a rank that exchanges starts with. -/
def ranksOf (P a : Nat) : List Nat := if a < extraRanks P then [2 * a + 1, 2 * a] else [a + extraRanks P]

theorem ranksOf_perm (P n : Nat) :
    ((List.range n).flatMap (ranksOf P)).Perm (List.range (n + min n (extraRanks P))) := by
  induction n with
  | zero => simp
  | succ n ih =>
    rw [List.range_succ, List.flatMap_append, List.flatMap_singleton]
    unfold ranksOf at ih ⊢
    split
    · rename_i h
      have hlt : n + 1 + min (n + 1) (extraRanks P) = n + min n (extraRanks P) + 1 + 1 := by omega
      rw [hlt, List.range_succ, List.range_succ, List.append_assoc]
      refine ih.append ?_
      rw [show n + min n (extraRanks P) = 2 * n by omega]
      exact List.Perm.swap _ _ _
    · rename_i h
      have hlt : n + 1 + min (n + 1) (extraRanks P) = n + min n (extraRanks P) + 1 := by omega
      rw [hlt, List.range_succ]
      refine ih.append ?_
      rw [show n + min n (extraRanks P) = n + extraRanks P by omega]

section Result

variable (w : Workload P) (h0 : 0 < P) (hP : P < 2 ^ 30) (c : Nat)

include h0 hP

/-- A commutative operation leaves all ranks with one value. -/
theorem Workload.final_agrees (hcomm : ∀ a b, w.op c a b = w.op c b a) (r r' : Fin P) :
    w.final c r = w.final c r' := by
  have : Std.Commutative (w.op c) := ⟨hcomm⟩
  have hval : ∀ {a b : Nat}, a < adjsize P → b < adjsize P → w.val c P.log2 a = w.val c P.log2 b := by
    intro a b ha hb
    rw [adjsize_eq h0 hP] at ha hb
    exact Butterfly.value_eq_of_div_eq (by rw [Nat.div_eq_of_lt ha, Nat.div_eq_of_lt hb])
  have hidx : ∀ r : Fin P, ∃ a, a < adjsize P ∧ w.final c r = w.val c P.log2 a := by
    intro r
    unfold Workload.final
    cases hn : newrank P r with
    | some a => exact ⟨a, (newrank_eq_some h0 hP r.isLt hn).1, rfl⟩
    | none =>
      have := extraRanks_lt h0 hP
      have := newrank_eq_none.1 hn
      exact ⟨r / 2, by omega, rfl⟩
  obtain ⟨a, ha, hra⟩ := hidx r
  obtain ⟨b, hb, hrb⟩ := hidx r'
  rw [hra, hrb, hval ha hb]

/-- An associative one as well makes it the combination of all contributions. -/
theorem Workload.final_combines (hcomm : ∀ a b, w.op c a b = w.op c b a)
    (hassoc : ∀ a b d, w.op c (w.op c a b) d = w.op c a (w.op c b d)) (r : Fin P) :
    foldAll (w.op c) (List.ofFn (w.contribution c)) = some (w.final c r) := by
  have : Std.Commutative (w.op c) := ⟨hcomm⟩
  have : Std.Associative (w.op c) := ⟨hassoc⟩
  -- the rank that exchanges as number 0 holds the value of the whole block
  have hlt : remote P 0 < P := remote_lt h0 hP (by rw [adjsize_eq h0 hP]; positivity)
  have hzero : w.final c r = w.val c P.log2 0 := by
    rw [w.final_agrees h0 hP c hcomm r ⟨remote P 0, hlt⟩]
    simp only [Workload.final, newrank_remote]
  rw [hzero]
  have hblock := @Butterfly.foldAll_block _ (w.op c) (w.folded c) _ _ P.log2 0
  rw [Nat.zero_div, Nat.zero_mul, ← adjsize_eq h0 hP, ← List.range_eq_range'] at hblock
  have hfold : ∀ a ∈ List.range (adjsize P), foldAll (w.op c) ((ranksOf P a).map (w.x c)) = some (w.folded c a) := by
    intro a _
    unfold ranksOf Workload.folded
    split <;> rfl
  have hflat := Butterfly.foldAll_flatMap hfold
  have hperm := ranksOf_perm P (adjsize P)
  rw [show adjsize P + min (adjsize P) (extraRanks P) = P by
    have := extraRanks_lt h0 hP
    have := adjsize_add h0 hP
    omega] at hperm
  have hofFn : (List.range P).map (w.x c) = List.ofFn (w.contribution c) := by
    apply List.ext_getElem
    · simp
    · intro k h1 h2
      have hk : k < P := by simpa using h1
      simp [Workload.x, hk]
  calc foldAll (w.op c) (List.ofFn (w.contribution c))
      = foldAll (w.op c) ((List.range P).map (w.x c)) := by rw [hofFn]
    _ = foldAll (w.op c) (((List.range (adjsize P)).flatMap (ranksOf P)).map (w.x c)) :=
        (Butterfly.foldAll_perm (hperm.map _)).symm
    _ = foldAll (w.op c) ((List.range (adjsize P)).map (w.folded c)) := by rw [List.map_flatMap, hflat]
    _ = some (w.val c P.log2 0) := hblock

end Result

/-! ## Every run -/

theorem Workload.x_rank (w : Workload P) (c : Nat) (r : Fin P) : w.x c r = w.contribution c r := by
  simp [Workload.x]

section Runs

variable (w : Workload P) (h2 : 2 ≤ P) (hP : P < 2 ^ 30) {mayWait : Nat → Bool} {s₀ s : State P}

include h2 hP

theorem Workload.reach_inv (hr : Reachable w.start mayWait s₀ s) :
    JobInv (w.collective (by omega) hP) s ∧
      Network.Inv (w.collective (by omega) hP).prog (fun r => (s₀.rank r).mem)
        ((w.collective (by omega) hP).rv fun c i j => w.sent c i j) true ((w.collective (by omega) hP).abs s) := by
  have h0 : 0 < P := by omega
  refine hr.inv (w.starts h2 hP) (fun _ _ => rfl) ((w.plan h0 hP).matched ?_) (stable_of_ne ?_)
  · intro c r m
    refine (sched_run w h0 hP c r.isLt ?_).1
    simp [Workload.collective, Workload.x_rank]
  · intro r src dst k hmem
    change _ ∈ allreduceSched P r at hmem
    rw [← planOps_sched h0 hP] at hmem
    obtain ⟨x, hx, he⟩ := List.mem_map.1 hmem
    rcases mem_planOps hx with ⟨-, -, rfl | rfl⟩ | ⟨-, -, rfl | rfl⟩ | ⟨a, l, -, -, rfl⟩ | ⟨hp, -⟩
    · cases he
    · cases he
    · cases he
    · cases he
    · cases he; decide
    · rw [he] at hp; cases hp

/-- A rank whose flag is 1 has its final value in `rbuf`. -/
theorem Workload.rbuf_final (hr : Reachable w.start mayWait s₀ s) {c : Nat} {r : Fin P}
    (hc : (s.rank r).calls = c + 1) (hf : (s.rank r).req.flag = true) :
    (s.rank r).mem .rbuf = (w.final c r).1 := by
  have h0 : 0 < P := by omega
  obtain ⟨hj, hn⟩ := w.reach_inv h2 hP hr
  have hx := hj.rank r
  obtain ⟨hcur, hrecv, -, hpc⟩ := hx.flag (by omega) hf
  have hidle : absRecv (s.rank r) = .idle :=
    absRecv_of_none hrecv (by rcases hpc with e | e <;> rw [e] <;> simp)
  have hpos := pos_eq (K := w.collective h0 hP) (r := r) (x := s.rank r) (by omega)
  have hmem : (s.rank r).mem = Network.ref (w.collective h0 hP).prog (fun r => (s₀.rank r).mem)
      ((w.collective h0 hP).rv fun c i j => w.sent c i j) r ((w.collective h0 hP).pos r (s.rank r)) :=
    (hn.proc r).mem_idle hidle
  have hlen : (s.rank r).req.cur = ((w.collective h0 hP).sched r).length := hcur
  rw [hmem, hpos, hc, Nat.add_sub_cancel, hlen, ref_block _ _ _ _ _ le_rfl, List.take_length]
  refine (sched_run w h0 hP c r.isLt ?_).2
  simp [Workload.collective, Workload.x_rank]

end Runs

/-- Any number of allreduces one after another, in every interleaving of polls and deliveries. Until
every rank has completed a call that all have made, some rank or message can go on; with a commutative
operation all ranks end with the same contents of `rbuf`; and when it is associative as well, these are
the contributions of all ranks combined, each once. -/
theorem lcIalreduce_correct {P : Nat} (h2 : 2 ≤ P) (hP : P < 2 ^ 30) (w : Workload P) (mayWait : Nat → Bool)
    (s₀ : State P) :
    (∀ s, Reachable w.start mayWait s₀ s → ∀ c, (∀ r, c < (s.rank r).calls) →
      (∃ r, ¬ Finished s c r) → Progresses w.start mayWait s) ∧
    (∀ c, (∀ a b, w.op c a b = w.op c b a) → ∀ s s' r r', Reachable w.start mayWait s₀ s →
      Reachable w.start mayWait s₀ s' → (s.rank r).calls = c + 1 → (s.rank r).req.flag = true →
      (s'.rank r').calls = c + 1 → (s'.rank r').req.flag = true →
      (s.rank r).mem .rbuf = (s'.rank r').mem .rbuf) ∧
    (∀ c, (∀ a b, w.op c a b = w.op c b a) → (∀ a b d, w.op c (w.op c a b) d = w.op c a (w.op c b d)) →
      ∀ s r, Reachable w.start mayWait s₀ s → (s.rank r).calls = c + 1 → (s.rank r).req.flag = true →
      ∃ v, foldAll (w.op c) (List.ofFn (w.contribution c)) = some v ∧ (s.rank r).mem .rbuf = v.1) := by
  have h0 : 0 < P := by omega
  refine ⟨?_, ?_, ?_⟩
  · rintro s hr c hcalls ⟨r, hf⟩
    obtain ⟨hj, hn⟩ := w.reach_inv h2 hP hr
    exact hj.progress hn (w.plan h0 hP).off_lt ((w.plan h0 hP).labels fun _ => rfl) hcalls hf
  · intro c hcomm s s' r r' hr hr' hc hf hc' hf'
    rw [w.rbuf_final h2 hP hr hc hf, w.rbuf_final h2 hP hr' hc' hf', w.final_agrees h0 hP c hcomm r r']
  · intro c hcomm hassoc s r hr hc hf
    exact ⟨_, w.final_combines h0 hP c hcomm hassoc r, w.rbuf_final h2 hP hr hc hf⟩

/-! ## Two ranks that add one byte -/

/-- Rank 0 contributes 1 and rank 1 contributes 2. -/
def sumOfTwo : Workload 2 where
  count _ := 1
  op _ a b := ⟨[a.1.headD 0 + b.1.headD 0], rfl⟩
  inPlace _ _ := false
  sbuf _ r := ⟨[if r = 0 then 1 else 2], rfl⟩
  rbuf _ _ := ⟨[0], rfl⟩

/-- A run in which the send of rank 0 waits for its receive and that of rank 1 does not. -/
def sumOfTwoRun : List (Event 2) :=
  [.call 0, .next 0 true, .post 0, .test 0, .call 1, .next 1 false, .post 1, .test 1, .meet 1 0, .land 0,
    .meet 0 1, .land 1, .ack 0, .poll 0, .next 0 false, .test 0, .next 0 false, .test 0, .next 0 false, .test 0,
    .fin 0, .poll 1, .next 1 false, .test 1, .next 1 false, .test 1, .next 1 false, .test 1, .fin 1]

theorem sumOfTwo_sched (r : Fin 2) : allreduceSched 2 r =
    [.sendrecv .tmp .rbuf (if r = 0 then 1 else 0), .op .tmp .rbuf, .mem .rbuf .tmp, .free .tmp] := by
  rw [← planOps_sched (by decide) (by decide)]
  revert r
  decide

theorem sumOfTwo_start : sumOfTwo.start = fun c r m _ =>
    some (Function.update (sumOfTwo.buffers c r m) .tmp (sumOfTwo.contribution c r).1,
      { flag := false, cur := 0, sync0 := true, sync1 := true, op := liftOp (sumOfTwo.op c), size := 1, tag := 1340,
        next := [.sendrecv .tmp .rbuf (if r = 0 then 1 else 0), .op .tmp .rbuf, .mem .rbuf .tmp, .free .tmp] }) := by
  funext c r m req
  rw [sumOfTwo.start_eq (by decide), sumOfTwo_sched]
  rfl

theorem sumOfTwo_reaches : ∃ s, Reachable sumOfTwo.start (fun _ => true) (State.init 2) s ∧
    ∀ r, (s.rank r).calls = 1 ∧ (s.rank r).req.flag = true := by
  have hrun : ((State.init 2).run? sumOfTwo.start (fun _ => true) sumOfTwoRun).any
      (fun s => (List.finRange 2).all fun r => (s.rank r).calls = 1 ∧ (s.rank r).req.flag = true) = true := by
    rw [sumOfTwo_start]
    decide +kernel
  obtain ⟨s, hs, hall⟩ := (Option.any_eq_true _ _).1 hrun
  refine ⟨s, ⟨State.init_initial 2, State.run?_sound hs⟩, fun r => ?_⟩
  simpa using List.all_eq_true.1 hall r (List.mem_finRange r)

/-- Both ranks end with 3. -/
theorem lcIalreduce_correct_sum_of_two : 2 ≤ 2 ∧ 2 < 2 ^ 30 ∧
    ∃ s, Reachable sumOfTwo.start (fun _ => true) (State.init 2) s ∧
      ∀ r, (s.rank r).req.flag = true ∧ (s.rank r).mem .rbuf = [3] := by
  have hcorrect := lcIalreduce_correct (le_refl 2) (by decide) sumOfTwo (fun _ => true) (State.init 2)
  obtain ⟨s, hr, hs⟩ := sumOfTwo_reaches
  refine ⟨le_refl 2, by decide, s, hr, fun r => ⟨(hs r).2, ?_⟩⟩
  have hcomm : ∀ a b, sumOfTwo.op 0 a b = sumOfTwo.op 0 b a := by
    intro a b
    simp only [sumOfTwo, UInt8.add_comm]
  have hassoc : ∀ a b d, sumOfTwo.op 0 (sumOfTwo.op 0 a b) d = sumOfTwo.op 0 a (sumOfTwo.op 0 b d) := by
    intro a b d
    simp [sumOfTwo, UInt8.add_assoc]
  obtain ⟨v, hv, hbuf⟩ := hcorrect.2.2 0 hcomm hassoc s r hr (hs r).1 (hs r).2
  have hsum : foldAll (sumOfTwo.op 0) (List.ofFn (sumOfTwo.contribution 0)) = some ⟨[3], rfl⟩ := rfl
  rw [hsum] at hv
  cases hv
  exact hbuf

end Lci.Coll
