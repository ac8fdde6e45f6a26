/-
Networks whose processes repeat one block of actions, where in a block a process sends at most one
message to another, and exactly when the other receives one from it. Then the k-th message of a pair
is that of the k-th block, and labels of the actions of one block extend to the whole run.
-/
import Lci.Lib.Network
import Mathlib.Data.Int.CardIntervalMod

namespace Network

variable {ι α M : Type} [DecidableEq ι] {prog : Prog ι α M}

/-- Process `i` repeats blocks of `len i` actions; `Sends i j w` and `Recvs j i w` say that the action
at offset `w` of a block sends to, or receives from, the other process. -/
structure Rounds (prog : Prog ι α M) (len : ι → Nat) (Sends Recvs : ι → ι → Nat → Prop) : Prop where
  len_pos : ∀ i, 0 < len i
  out_iff : ∀ i j n, (∃ get, (prog i n).out = some (j, get)) ↔ Sends i j (n % len i)
  inp_iff : ∀ j i n, (∃ put, (prog j n).inp = some (i, put)) ↔ Recvs j i (n % len j)
  send_lt : ∀ {i j w}, Sends i j w → w < len i
  recv_lt : ∀ {j i w}, Recvs j i w → w < len j
  send_unique : ∀ {i j w w'}, Sends i j w → Sends i j w' → w = w'
  recv_unique : ∀ {j i w w'}, Recvs j i w → Recvs j i w' → w = w'
  recv_of_send : ∀ {i j w}, Sends i j w → ∃ u, Recvs j i u
  send_of_recv : ∀ {j i u}, Recvs j i u → ∃ w, Sends i j w

theorem nsends_eq_count (i j : ι) (N : Nat) [DecidablePred fun n => ∃ get, (prog i n).out = some (j, get)] :
    nsends prog i j N = N.count fun n => ∃ get, (prog i n).out = some (j, get) := by
  induction N with
  | zero => rfl
  | succ n ih =>
    rw [Nat.count_succ, ← ih]
    by_cases h : ∃ get, (prog i n).out = some (j, get)
    · rw [if_pos h, nsends_succ_of_out h.choose_spec]
    · rw [if_neg h, nsends_succ_of_ne (not_exists.1 h), Nat.add_zero]

theorem nrecvs_eq_count (j i : ι) (N : Nat) [DecidablePred fun n => ∃ put, (prog j n).inp = some (i, put)] :
    nrecvs prog j i N = N.count fun n => ∃ put, (prog j n).inp = some (i, put) := by
  induction N with
  | zero => rfl
  | succ n ih =>
    rw [Nat.count_succ, ← ih]
    by_cases h : ∃ put, (prog j n).inp = some (i, put)
    · rw [if_pos h, nrecvs_succ_of_inp h.choose_spec]
    · rw [if_neg h, nrecvs_succ_of_ne (not_exists.1 h), Nat.add_zero]

/-- How often an offset of a block has been passed before position `N`. -/
theorem count_offset {p : Nat → Prop} [DecidablePred p] {len w : Nat} (hlen : 0 < len) (hw : w < len)
    (hp : ∀ n, p n ↔ n % len = w) (N : Nat) : N.count p = N / len + if w < N % len then 1 else 0 := by
  have hcongr : N.count p = N.count (· ≡ w [MOD len]) := by
    rw [Nat.count_eq_card_filter_range, Nat.count_eq_card_filter_range]
    congr 1
    exact Finset.filter_congr fun n _ => by rw [hp, Nat.ModEq, Nat.mod_eq_of_lt hw]
  rw [hcongr, Nat.count_modEq_card N hlen, Nat.mod_eq_of_lt hw]

section

variable {len : ι → Nat} {Sends Recvs : ι → ι → Nat → Prop} (h : Rounds prog len Sends Recvs)

include h

/-- Before its message to `j` in block `c`, `i` has sent `c` messages to `j`. -/
theorem Rounds.nsends_at {i j : ι} {w : Nat} (hw : Sends i j w) (c : Nat) :
    nsends prog i j (c * len i + w) = c := by
  classical
  rw [nsends_eq_count, count_offset (h.len_pos i) (h.send_lt hw) fun n => ?_]
  · have hw' := h.send_lt hw
    rw [Nat.mul_comm, Nat.mul_add_div (h.len_pos i), Nat.mul_add_mod, Nat.div_eq_of_lt hw',
      Nat.mod_eq_of_lt hw', if_neg (lt_irrefl w)]
    rfl
  · rw [h.out_iff]
    exact ⟨fun hs => h.send_unique hs hw, fun e => e ▸ hw⟩

theorem Rounds.nrecvs_at {j i : ι} {w : Nat} (hw : Recvs j i w) (c : Nat) :
    nrecvs prog j i (c * len j + w) = c := by
  classical
  rw [nrecvs_eq_count, count_offset (h.len_pos j) (h.recv_lt hw) fun n => ?_]
  · have hw' := h.recv_lt hw
    rw [Nat.mul_comm, Nat.mul_add_div (h.len_pos j), Nat.mul_add_mod, Nat.div_eq_of_lt hw',
      Nat.mod_eq_of_lt hw', if_neg (lt_irrefl w)]
    rfl
  · rw [h.inp_iff]
    exact ⟨fun hs => h.recv_unique hs hw, fun e => e ▸ hw⟩

omit [DecidableEq ι] in
theorem Rounds.mod_send {i j : ι} {w : Nat} (hw : Sends i j w) (c : Nat) : (c * len i + w) % len i = w := by
  rw [Nat.mul_comm, Nat.mul_add_mod, Nat.mod_eq_of_lt (h.send_lt hw)]

omit [DecidableEq ι] in
theorem Rounds.mod_recv {j i : ι} {w : Nat} (hw : Recvs j i w) (c : Nat) : (c * len j + w) % len j = w := by
  rw [Nat.mul_comm, Nat.mul_add_mod, Nat.mod_eq_of_lt (h.recv_lt hw)]

/-- The send of a receive is the one of the same block. -/
theorem Rounds.send_of_inp {j i : ι} {n : Nat} {put : α → M → M} (hi : (prog j n).inp = some (i, put)) :
    ∃ w get, Sends i j w ∧ Recvs j i (n % len j) ∧ (prog i (n / len j * len i + w)).out = some (j, get) ∧
      nsends prog i j (n / len j * len i + w) = nrecvs prog j i n := by
  have hr := (h.inp_iff j i n).1 ⟨put, hi⟩
  obtain ⟨w, hw⟩ := h.send_of_recv hr
  obtain ⟨get, ho⟩ := (h.out_iff i j (n / len j * len i + w)).2 ((h.mod_send hw _).symm ▸ hw)
  refine ⟨w, get, hw, hr, ho, ?_⟩
  have := h.nrecvs_at hr (n / len j)
  rw [Nat.div_add_mod'] at this
  rw [h.nsends_at hw, this]

/-- The receive of a send is the one of the same block. -/
theorem Rounds.recv_of_out {i j : ι} {p : Nat} {get : M → α} (ho : (prog i p).out = some (j, get)) :
    ∃ w put, Recvs j i w ∧ Sends i j (p % len i) ∧ (prog j (p / len i * len j + w)).inp = some (i, put) ∧
      nrecvs prog j i (p / len i * len j + w) = nsends prog i j p := by
  have hs := (h.out_iff i j p).1 ⟨get, ho⟩
  obtain ⟨w, hw⟩ := h.recv_of_send hs
  obtain ⟨put, hi⟩ := (h.inp_iff j i (p / len i * len j + w)).2 ((h.mod_recv hw _).symm ▸ hw)
  refine ⟨w, put, hw, hs, hi, ?_⟩
  have := h.nsends_at hs (p / len i)
  rw [Nat.div_add_mod'] at this
  rw [h.nrecvs_at hw, this]

/-! ## Labels -/

/-- Labels of the offsets of one block, all below `bound`, make labels of the whole run. -/
theorem Rounds.labels {mayWait : Bool} {off : ι → Nat → Nat} {bound : Nat} (hbound : ∀ i w, off i w < bound)
    (hmono : ∀ i w, w + 1 < len i → off i w ≤ off i (w + 1))
    (hstrict : ∀ i j w, w + 1 < len i → Sends i j w ∨ Recvs i j w → off i w < off i (w + 1))
    (hrecv : ∀ i j w u, Sends i j w → Recvs j i u → off i w ≤ off j u)
    (hsend : mayWait = true → ∀ i j w u, Sends i j w → Recvs j i u → off j u ≤ off i w) :
    Labels prog mayWait fun i n => n / len i * bound + off i (n % len i) := by
  -- the next position is in the same block, or is the first of the next one
  have hnext : ∀ i n, (n % len i + 1 < len i ∧ (n + 1) / len i = n / len i ∧ (n + 1) % len i = n % len i + 1) ∨
      ((n + 1) / len i = n / len i + 1) := by
    intro i n
    have hpos := h.len_pos i
    have hn := Nat.div_add_mod n (len i)
    have hlt := Nat.mod_lt n hpos
    rcases Nat.lt_or_ge (n % len i + 1) (len i) with hw | hw
    · left
      refine ⟨hw, ?_, ?_⟩
      · rw [← hn, Nat.add_assoc, Nat.mul_add_div hpos, Nat.div_eq_of_lt hw, Nat.mul_add_div hpos,
          Nat.div_eq_of_lt hlt]
      · rw [← hn, Nat.add_assoc, Nat.mul_add_mod, Nat.mod_eq_of_lt hw, Nat.mul_add_mod,
          Nat.mod_eq_of_lt hlt]
    · right
      rw [show n + 1 = len i * (n / len i + 1) by rw [Nat.mul_add]; omega, Nat.mul_div_cancel_left _ hpos]
  have hjump : ∀ i n, (n + 1) / len i = n / len i + 1 →
      n / len i * bound + off i (n % len i) < (n + 1) / len i * bound + off i ((n + 1) % len i) := by
    intro i n hn
    have := hbound i (n % len i)
    rw [hn, Nat.add_mul]
    omega
  refine ⟨?_, ?_, ?_, ?_⟩
  · intro i n
    rcases hnext i n with ⟨hw, hd, hm⟩ | hd
    · simp only [hd, hm]
      exact Nat.add_le_add_left (hmono i _ hw) _
    · exact (hjump i n hd).le
  · intro i n hcomm
    rcases hnext i n with ⟨hw, hd, hm⟩ | hd
    · simp only [hd, hm]
      refine Nat.add_lt_add_left ?_ _
      rcases hcomm with ho | hi
      · obtain ⟨⟨j, get⟩, ho⟩ := Option.isSome_iff_exists.1 ho
        exact hstrict i j _ hw (.inl ((h.out_iff i j n).1 ⟨get, ho⟩))
      · obtain ⟨⟨j, put⟩, hi⟩ := Option.isSome_iff_exists.1 hi
        exact hstrict i j _ hw (.inr ((h.inp_iff i j n).1 ⟨put, hi⟩))
    · exact hjump i n hd
  · intro j n i put hi
    obtain ⟨w, get, hw, hr, ho, hn⟩ := h.send_of_inp hi
    refine ⟨_, get, ho, hn, ?_⟩
    simp only [h.mod_send hw]
    rw [Nat.mul_comm _ (len i), Nat.mul_add_div (h.len_pos i), Nat.div_eq_of_lt (h.send_lt hw)]
    exact Nat.add_le_add_left (hrecv i j w _ hw hr) _
  · intro hw i p j get ho
    obtain ⟨w, put, hr, hs, hi, hn⟩ := h.recv_of_out ho
    refine ⟨_, put, hi, hn, ?_⟩
    simp only [h.mod_recv hr]
    rw [Nat.mul_comm _ (len j), Nat.mul_add_div (h.len_pos j), Nat.div_eq_of_lt (h.recv_lt hr)]
    exact Nat.add_le_add_left (hsend hw i j _ w hs hr) _

end

end Network
