/-
The send queues of the verbs backend under short sends. `lc_server_sends` asks for a completion on every
65th call, by one counter for all destinations, and a queue pair gives its entries back only up to a
request that asked for one.
-/
import Mathlib.Data.List.Basic
import Mathlib.Tactic

namespace Lci.Server

/-- `cap.max_send_wr` of `qp_create`. -/
def maxSendWr : Nat := 256

/-- The queue pairs of a device: of each the requests posted and not reclaimed, oldest first, as the flag
`IBV_SEND_SIGNALED`; `ninline` is the static counter of `lc_server_sends`, and `rejected` counts the
requests that `ibv_post_send` has refused. -/
structure SendQueues where
  ninline : Nat
  qps : Nat → List Bool
  rejected : Nat

/-- `lc_server_sends` to the queue pair of a rank; its result is not looked at. -/
def lcServerSendsQp (s : SendQueues) (q : Nat) : SendQueues :=
  let signalled := decide (s.ninline = 64)
  let s := { s with ninline := if signalled then 0 else s.ninline + 1 }
  if (s.qps q).length < maxSendWr then
    { s with qps := Function.update s.qps q (s.qps q ++ [signalled]) }
  else { s with rejected := s.rejected + 1 }

/-- What stays of a queue pair when the completions of all its signalled requests have been polled. -/
def reclaim : List Bool → List Bool
  | [] => []
  | b :: l => if true ∈ l then reclaim l else if b then l else b :: l

/-- `lc_server_progress` with every completion available. -/
def drain (s : SendQueues) : SendQueues := { s with qps := fun q => reclaim (s.qps q) }

/-- Short sends to the ranks of a list, the completions being drained after each. -/
def sendAll (dests : List Nat) : SendQueues :=
  dests.foldl (fun s q => drain (lcServerSendsQp s q)) ⟨0, fun _ => [], 0⟩

/-- Of the calls in a list, those to `q` that no call to `q` with a number divisible by 65 follows or is;
calls are numbered from 1. -/
def backlog (dests : List Nat) (q : Nat) : Nat :=
  ((List.range dests.length).filter fun i => decide (dests[i]? = some q ∧
    ∀ j ∈ List.range dests.length, i ≤ j → dests[j]? = some q → ¬ 65 ∣ j + 1)).length

theorem backlog_nil (q : Nat) : backlog [] q = 0 := rfl

theorem reclaim_unsignalled {l : List Bool} (h : true ∉ l) : reclaim l = l := by
  cases l with
  | nil => rfl
  | cons b l =>
    rw [List.mem_cons, not_or] at h
    have hb : b = false := by cases b with
      | true => exact absurd rfl h.1
      | false => rfl
    rw [reclaim, if_neg h.2, hb]
    rfl

theorem reclaim_signalled {l : List Bool} (h : true ∉ l) : reclaim (l ++ [true]) = [] := by
  induction l with
  | nil => rfl
  | cons b l ih =>
    rw [List.mem_cons, not_or] at h
    rw [List.cons_append, reclaim, if_pos (by simp)]
    exact ih h.2

/-- Call `i` to `q` is not covered by a signalled call to `q`. -/
def Uncovered (dests : List Nat) (q i : Nat) : Prop :=
  dests[i]? = some q ∧ ∀ j ∈ List.range dests.length, i ≤ j → dests[j]? = some q → ¬ 65 ∣ j + 1

instance (dests : List Nat) (q i : Nat) : Decidable (Uncovered dests q i) := inferInstanceAs (Decidable (_ ∧ _))

theorem uncovered_concat_lt {dests : List Nat} {x q i : Nat} (hi : i < dests.length) :
    Uncovered (dests ++ [x]) q i ↔ Uncovered dests q i ∧ (x = q → ¬ 65 ∣ dests.length + 1) := by
  have hget : ∀ j, j < dests.length → (dests ++ [x])[j]? = dests[j]? := fun j hj => List.getElem?_append_left hj
  have hlast : (dests ++ [x])[dests.length]? = some x := by simp
  constructor
  · rintro ⟨h, hall⟩
    refine ⟨⟨by rwa [hget i hi] at h, fun j hj hij hq => ?_⟩, fun hx => ?_⟩
    · have hj' := List.mem_range.1 hj
      exact hall j (by simp; omega) hij (by rwa [hget j hj'])
    · exact hall dests.length (by simp) hi.le (by rw [hlast, hx])
  · rintro ⟨⟨h, hall⟩, hx⟩
    refine ⟨by rwa [hget i hi], fun j hj hij hq => ?_⟩
    have hj' : j < dests.length + 1 := by simpa using hj
    rcases Nat.lt_succ_iff_lt_or_eq.1 hj' with hlt | rfl
    · exact hall j (List.mem_range.2 hlt) hij (by rwa [hget j hlt] at hq)
    · rw [hlast, Option.some.injEq] at hq
      exact hx hq

theorem uncovered_concat_last (dests : List Nat) (x q : Nat) :
    Uncovered (dests ++ [x]) q dests.length ↔ x = q ∧ ¬ 65 ∣ dests.length + 1 := by
  have hlast : (dests ++ [x])[dests.length]? = some x := by simp
  constructor
  · rintro ⟨h, hall⟩
    rw [hlast, Option.some.injEq] at h
    exact ⟨h, hall dests.length (by simp) le_rfl (by rw [hlast, h])⟩
  · rintro ⟨rfl, hd⟩
    refine ⟨hlast, fun j hj hij _ => ?_⟩
    have hj' : j < dests.length + 1 := by simpa using hj
    rwa [show j = dests.length by omega]

theorem backlog_eq (dests : List Nat) (q : Nat) :
    backlog dests q = ((List.range dests.length).filter fun i => decide (Uncovered dests q i)).length := rfl

/-- One more call, to `x`. -/
theorem backlog_concat (dests : List Nat) (x q : Nat) :
    backlog (dests ++ [x]) q =
      if x = q then if 65 ∣ dests.length + 1 then 0 else backlog dests q + 1 else backlog dests q := by
  have hold : (List.range dests.length).filter (fun i => decide (Uncovered (dests ++ [x]) q i)) =
      (List.range dests.length).filter
        (fun i => decide (Uncovered dests q i ∧ (x = q → ¬ 65 ∣ dests.length + 1))) :=
    List.filter_congr fun i hi => decide_eq_decide.2 (uncovered_concat_lt (List.mem_range.1 hi))
  rw [backlog_eq, List.length_append, List.length_singleton, List.range_succ, List.filter_append, hold,
    List.length_append, backlog_eq]
  by_cases hx : x = q
  · by_cases hd : 65 ∣ dests.length + 1
    · simp [uncovered_concat_last, hx, hd]
    · simp [uncovered_concat_last, hx, hd]
  · simp [uncovered_concat_last, hx]

/-! ## The queues of a run -/

theorem sendAll_concat (dests : List Nat) (x : Nat) :
    sendAll (dests ++ [x]) = drain (lcServerSendsQp (sendAll dests) x) := by
  simp [sendAll, List.foldl_append]

/-- No call of a list finds 256 uncovered calls to its destination before it. -/
def Covered (dests : List Nat) : Prop :=
  ∀ n q, dests[n]? = some q → backlog (dests.take n) q < maxSendWr

theorem covered_concat (dests : List Nat) (x : Nat) :
    Covered (dests ++ [x]) ↔ Covered dests ∧ backlog dests x < maxSendWr := by
  constructor
  · intro h
    refine ⟨fun n q hn => ?_, ?_⟩
    · have hlt : n < dests.length := by
        by_contra hge
        rw [List.getElem?_eq_none (by omega)] at hn
        cases hn
      have := h n q (by rw [List.getElem?_append_left hlt]; exact hn)
      rwa [List.take_append_of_le_length hlt.le] at this
    · have := h dests.length x (by simp)
      rwa [List.take_append_of_le_length le_rfl, List.take_length] at this
  · rintro ⟨h, hx⟩ n q hn
    rcases lt_trichotomy n dests.length with hlt | rfl | hgt
    · rw [List.getElem?_append_left hlt] at hn
      rw [List.take_append_of_le_length hlt.le]
      exact h n q hn
    · rw [List.getElem?_concat_length, Option.some.injEq] at hn
      subst hn
      rwa [List.take_append_of_le_length le_rfl, List.take_length]
    · rw [List.getElem?_eq_none (by simp; omega)] at hn
      cases hn

/-- While nothing was refused, the counter is the number of calls modulo 65 and each queue pair holds its
uncovered calls, none of them signalled. -/
theorem sendAll_queues (dests : List Nat) (h : Covered dests) :
    (sendAll dests).ninline = dests.length % 65 ∧
      (∀ q, (sendAll dests).qps q = List.replicate (backlog dests q) false) ∧ (sendAll dests).rejected = 0 := by
  induction dests using List.reverseRecOn with
  | nil => exact ⟨rfl, fun q => by rw [backlog_nil]; rfl, rfl⟩
  | append_singleton dests x ih =>
    obtain ⟨hc, hx⟩ := (covered_concat dests x).1 h
    obtain ⟨hn, hq, hr⟩ := ih hc
    have hdvd : (sendAll dests).ninline = 64 ↔ 65 ∣ dests.length + 1 := by rw [hn]; omega
    have hroom : ((sendAll dests).qps x).length < maxSendWr := by rw [hq, List.length_replicate]; exact hx
    rw [sendAll_concat]
    unfold lcServerSendsQp drain
    simp only [hroom, if_true, hr, and_true]
    refine ⟨?_, fun q => ?_⟩
    · simp only [decide_eq_true_eq, hdvd]
      rw [List.length_append, List.length_singleton]
      split_ifs with hd
      · omega
      · rw [hn]; omega
    · have hno : true ∉ List.replicate (backlog dests q) false := by simp
      rw [backlog_concat]
      by_cases hxq : x = q
      · subst hxq
        rw [Function.update_self, hq, if_pos rfl]
        by_cases hd : 65 ∣ dests.length + 1
        · simp only [hdvd, hd, decide_true, if_true, reclaim_signalled hno, List.replicate_zero]
        · simp only [hdvd, hd, decide_false, if_false]
          rw [← List.replicate_succ']
          exact reclaim_unsignalled (by simp)
      · rw [Function.update_of_ne (Ne.symm hxq), hq, if_neg hxq, reclaim_unsignalled hno]

theorem rejected_mono (s : SendQueues) (q : Nat) : s.rejected ≤ (drain (lcServerSendsQp s q)).rejected := by
  unfold lcServerSendsQp drain
  dsimp only
  split_ifs <;> simp

/-- A call that finds 256 uncovered calls to its destination is refused. -/
theorem covered_of_accepted (dests : List Nat) (h : (sendAll dests).rejected = 0) : Covered dests := by
  induction dests using List.reverseRecOn with
  | nil => intro n q hn; cases hn
  | append_singleton dests x ih =>
    rw [sendAll_concat] at h
    have hc := ih (Nat.le_zero.1 (h ▸ rejected_mono (sendAll dests) x))
    refine (covered_concat dests x).2 ⟨hc, ?_⟩
    by_contra hge
    have hfull : ¬ ((sendAll dests).qps x).length < maxSendWr := by
      rw [(sendAll_queues dests hc).2.1, List.length_replicate]; exact hge
    unfold lcServerSendsQp drain at h
    simp only [hfull, if_false] at h
    omega

/-- Short sends overrun no queue pair if and only if every call finds fewer than 256 earlier calls to its
destination after the last one to it whose number is divisible by 65. -/
theorem short_sends_fit_iff (dests : List Nat) :
    (sendAll dests).rejected = 0 ↔ ∀ n q, dests[n]? = some q → backlog (dests.take n) q < maxSendWr :=
  ⟨covered_of_accepted dests, fun h => (sendAll_queues dests h).2.2⟩

/-- Sends to one rank between two signalled ones add up. -/
theorem backlog_replicate {l : List Nat} (hl : 65 ∣ l.length) (q : Nat) : ∀ k ≤ 64,
    backlog (l ++ List.replicate k q) q = backlog l q + k
  | 0, _ => by simp
  | k + 1, hk => by
    have ih := backlog_replicate hl q k (by omega)
    rw [List.replicate_succ', ← List.append_assoc, backlog_concat, if_pos rfl, if_neg, ih, Nat.add_assoc]
    rw [List.length_append, List.length_replicate]
    omega

/-- Rounds of 64 sends to rank 0 and one to rank 1: all the signalled requests go to rank 1. -/
def lopsided : Nat → List Nat
  | 0 => []
  | n + 1 => lopsided n ++ List.replicate 64 0 ++ [1]

theorem lopsided_backlog : ∀ n, (lopsided n).length = 65 * n ∧ backlog (lopsided n) 0 = 64 * n
  | 0 => ⟨rfl, backlog_nil 0⟩
  | n + 1 => by
    obtain ⟨hl, hb⟩ := lopsided_backlog n
    refine ⟨?_, ?_⟩
    · simp only [lopsided, List.length_append, List.length_replicate, List.length_singleton, hl]
      omega
    · rw [lopsided, backlog_concat, if_neg (by decide), backlog_replicate (by rw [hl]; exact ⟨n, rfl⟩) 0 64 le_rfl, hb]
      omega

/-- Four such rounds leave 256 unreclaimed requests to rank 0, and the next send to it is refused. -/
theorem short_send_refused : (sendAll (lopsided 4 ++ [0])).rejected ≠ 0 := by
  intro h
  have := ((covered_concat _ _).1 (covered_of_accepted _ h)).2
  rw [(lopsided_backlog 4).2] at this
  exact absurd this (by decide)

end Lci.Server
