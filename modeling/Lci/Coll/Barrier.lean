/-
`lc_ibarrier` on every number of processes: the plan of its schedules, and three results about every
interleaving of any number of barriers. A rank leaves a barrier only after all have entered it, since
after round k it has heard, directly or not, of the 2^(k+1) ranks before it; a message meets the receive
of its own round of its own barrier; and some rank can go on until all have left.
-/
import Lci.Coll.Plan

namespace Lci.Coll

variable {P : Nat}

/-! ## Ranks on a ring -/

theorem mod_eq_of_lt_two_mul {a n : Nat} (h : a < 2 * n) : a % n = if a < n then a else a - n := by
  split
  · exact Nat.mod_eq_of_lt ‹_›
  · rw [Nat.mod_eq_sub_mod (by omega), Nat.mod_eq_of_lt (by omega)]

/-- `j` is `d` ahead of `i` exactly when `i` is `d` behind `j`. -/
theorem ring_iff {i j d n : Nat} (hi : i < n) (hj : j < n) (hd : d < n) :
    ((i + d) % n = j ↔ (j + n - d) % n = i) ∧ ((i + d) % n = j ↔ (j + n - i) % n = d) := by
  rw [mod_eq_of_lt_two_mul (show i + d < 2 * n by omega), mod_eq_of_lt_two_mul (show j + n - d < 2 * n by omega),
    mod_eq_of_lt_two_mul (show j + n - i < 2 * n by omega)]
  constructor
  · split <;> split <;> omega
  · split <;> split <;> omega

/-- The ranks behind the one that is `d` behind. -/
theorem ring_behind {r d e n : Nat} (hr : r < n) (hd : d < n) (he : e < n) :
    ((r + n - d) % n + n - e) % n = (r + n - (d + e) % n) % n := by
  rw [mod_eq_of_lt_two_mul (show r + n - d < 2 * n by omega), mod_eq_of_lt_two_mul (show d + e < 2 * n by omega)]
  split <;> split <;> (rw [mod_eq_of_lt_two_mul (by omega), mod_eq_of_lt_two_mul (by omega)]; split <;> split <;> omega)

/-! ## The schedules, round by round -/

/-- The number of rounds. -/
def rounds (P : Nat) : Nat := Nat.clog 2 P

theorem lt_rounds {k : Nat} : k < rounds P ↔ 2 ^ k < P := Nat.lt_clog_iff_pow_lt (by decide)

/-- The labelled operations of a rank; the label of an operation is its number. -/
def barrierPlan (P r : Nat) : List (Nat × ColSched) := (List.range' 0 (rounds P)).flatMap fun k =>
  [(2 * k + 1, .send .empty ((r + 2 ^ k) % P)), (2 * k + 2, .recv .empty ((r + P - 2 ^ k) % P))]

theorem barrierSched_eq (r : Nat) {k n : Nat} (hk : k + n = rounds P) : barrierSched P r k =
    (List.range' k n).flatMap fun k => [.send .empty ((r + 2 ^ k) % P), .recv .empty ((r + P - 2 ^ k) % P)] := by
  induction n generalizing k with
  | zero =>
    have : ¬ 2 ^ k < P := fun h => by
      have := lt_rounds.2 h
      omega
    rw [barrierSched, if_neg (by rwa [Nat.shiftLeft_eq, Nat.one_mul])]
    rfl
  | succ n ih =>
    have : 2 ^ k < P := lt_rounds.1 (by omega)
    rw [barrierSched, if_pos (by rwa [Nat.shiftLeft_eq, Nat.one_mul]), ih (by omega), List.range'_succ,
      List.flatMap_cons]
    simp [Nat.shiftLeft_eq]

theorem barrierPlan_sched (r : Nat) : (barrierPlan P r).map Prod.snd = barrierSched P r 0 := by
  rw [barrierSched_eq r (n := rounds P) (by omega), barrierPlan, List.map_flatMap]
  rfl

theorem mem_barrierPlan {r : Nat} {x : Nat × ColSched} : x ∈ barrierPlan P r ↔ ∃ k, 2 ^ k < P ∧
    (x = (2 * k + 1, .send .empty ((r + 2 ^ k) % P)) ∨ x = (2 * k + 2, .recv .empty ((r + P - 2 ^ k) % P))) := by
  simp only [barrierPlan, List.mem_flatMap, List.mem_range'_1, List.mem_cons, List.not_mem_nil, or_false]
  constructor
  · rintro ⟨k, hk, h⟩
    exact ⟨k, lt_rounds.1 (by omega), h⟩
  · rintro ⟨k, hk, h⟩
    exact ⟨k, by have := lt_rounds.2 hk; omega, h⟩

/-- The operations at even and odd places of a list of pairs. -/
theorem getElem?_pairs {α : Type} (a b : Nat → α) {s n k : Nat} (hk : k < n) :
    ((List.range' s n).flatMap fun k => [a k, b k])[2 * k]? = some (a (s + k)) ∧
      ((List.range' s n).flatMap fun k => [a k, b k])[2 * k + 1]? = some (b (s + k)) := by
  induction n generalizing s k with
  | zero => omega
  | succ n ih =>
    rw [List.range'_succ, List.flatMap_cons]
    cases k with
    | zero => exact ⟨rfl, rfl⟩
    | succ k =>
      obtain ⟨h1, h2⟩ := ih (s := s + 1) (k := k) (by omega)
      refine ⟨?_, ?_⟩
      · rw [show s + (k + 1) = s + 1 + k by omega, ← h1]
        rfl
      · rw [show s + (k + 1) = s + 1 + k by omega, ← h2]
        rfl

theorem length_pairs {α : Type} (a b : Nat → α) (s n : Nat) :
    ((List.range' s n).flatMap fun k => [a k, b k]).length = 2 * n := by
  induction n generalizing s with
  | zero => rfl
  | succ n ih =>
    rw [List.range'_succ, List.flatMap_cons, List.length_append, ih]
    simp
    omega

/-! ## The calls -/

/-- The c-th call of `lc_ibarrier`. -/
def barrierStart (P : Nat) : Start P := fun _ r m req => some (m, lcIbarrier P r req)

/-- Barriers one after another. -/
def barriers (P : Nat) : Collective P where
  sched r := barrierSched P r 0
  setup _ _ m := m
  op _ a _ := a
  size _ := 1
  tag := MCA_COLL_BASE_TAG_IBARRIER
  inRange r op hop k hk := by
    have hpos := r.pos
    rw [← barrierPlan_sched] at hop
    obtain ⟨x, hx, rfl⟩ := List.mem_map.1 hop
    obtain ⟨l, -, rfl | rfl⟩ := mem_barrierPlan.1 hx
    · cases hk
      exact Nat.mod_lt _ hpos
    · cases hk
      exact Nat.mod_lt _ hpos

theorem barriers_no_op (r : Fin P) (dst src : Buf) : ColSched.op dst src ∉ (barriers P).sched r := by
  intro hop
  change _ ∈ barrierSched P r 0 at hop
  rw [← barrierPlan_sched] at hop
  obtain ⟨x, hx, he⟩ := List.mem_map.1 hop
  obtain ⟨l, -, rfl | rfl⟩ := mem_barrierPlan.1 hx <;> cases he

theorem barriers_starts : (barriers P).Starts (barrierStart P) :=
  fun _ r _ _ => ⟨_, rfl, ⟨rfl, rfl, rfl, rfl, rfl, rfl, rfl, fun dst src h => absurd h (barriers_no_op r dst src)⟩⟩

/-- The distance that a message goes, as a power of two. -/
def hop (P i j : Nat) : Nat := ((j + P - i) % P).log2

theorem hop_of_send {i j k : Nat} (hi : i < P) (hj : j < P) (hk : 2 ^ k < P) (h : (i + 2 ^ k) % P = j) :
    hop P i j = k := by
  rw [hop, ((ring_iff hi hj hk).2.1 h), Nat.log2_two_pow]

theorem barrierPlan_lt (r : Fin P) : ∀ x ∈ barrierPlan P r, x.1 < 2 * rounds P + 1 := by
  intro x hx
  obtain ⟨k, hk, rfl | rfl⟩ := mem_barrierPlan.1 hx
  · have := lt_rounds.2 hk
    simp only
    omega
  · have := lt_rounds.2 hk
    simp only
    omega

theorem barrierPlan_sorted (r : Fin P) :
    (barrierPlan P r).Pairwise fun x y => x.1 ≤ y.1 ∧ (x.2.peer.isSome → x.1 < y.1) := by
  refine List.pairwise_flatMap.2 ⟨fun k _ => by simp, ?_⟩
  refine List.Pairwise.imp ?_ (List.pairwise_lt_range' 1)
  intro k l hkl x hx y hy
  simp only [List.mem_cons, List.not_mem_nil, or_false] at hx hy
  rcases hx with rfl | rfl <;> rcases hy with rfl | rfl <;> simp <;> omega

theorem barrierPlan_send (i j : Fin P) : ∀ x ∈ barrierPlan P i, x.2.sendsTo j → x.1 = 2 * hop P i j + 1 := by
  rintro x hx ⟨src, ht⟩
  obtain ⟨k, hk, rfl | rfl⟩ := mem_barrierPlan.1 hx
  · obtain ⟨-, h⟩ : Buf.empty = src ∧ (i.val + 2 ^ k) % P = j := by simpa [ColSched.target] using ht
    rw [hop_of_send i.isLt j.isLt hk h]
  · cases ht

theorem barrierPlan_recv (i j : Fin P) : ∀ x ∈ barrierPlan P j, x.2.recvsFrom i → x.1 = 2 * hop P i j + 2 := by
  rintro x hx ⟨dst, ht⟩
  obtain ⟨k, hk, rfl | rfl⟩ := mem_barrierPlan.1 hx
  · cases ht
  · obtain ⟨-, h⟩ : Buf.empty = dst ∧ (j.val + P - 2 ^ k) % P = i := by simpa [ColSched.source] using ht
    rw [hop_of_send i.isLt j.isLt hk ((ring_iff i.isLt j.isLt hk).1.2 h)]

theorem barrierPlan_paired (i j : Fin P) :
    (∃ x ∈ barrierPlan P i, x.2.sendsTo j) ↔ ∃ x ∈ barrierPlan P j, x.2.recvsFrom i := by
  constructor
  · rintro ⟨x, hx, src, ht⟩
    obtain ⟨k, hk, rfl | rfl⟩ := mem_barrierPlan.1 hx
    · obtain ⟨-, h⟩ : Buf.empty = src ∧ (i.val + 2 ^ k) % P = j := by simpa [ColSched.target] using ht
      refine ⟨_, mem_barrierPlan.2 ⟨k, hk, .inr rfl⟩, .empty, ?_⟩
      simp only [ColSched.source, (ring_iff i.isLt j.isLt hk).1.1 h]
    · cases ht
  · rintro ⟨x, hx, dst, ht⟩
    obtain ⟨k, hk, rfl | rfl⟩ := mem_barrierPlan.1 hx
    · cases ht
    · obtain ⟨-, h⟩ : Buf.empty = dst ∧ (j.val + P - 2 ^ k) % P = i := by simpa [ColSched.source] using ht
      refine ⟨_, mem_barrierPlan.2 ⟨k, hk, .inl rfl⟩, .empty, ?_⟩
      simp only [ColSched.target, (ring_iff i.isLt j.isLt hk).1.2 h]

def barriersPlan (P : Nat) : Plan (barriers P) where
  ops r := barrierPlan P r
  bound := 2 * rounds P + 1
  sendLab i j := 2 * hop P i j + 1
  recvLab i j := 2 * hop P i j + 2
  sched_eq r := barrierPlan_sched r
  bound_pos := Nat.succ_pos _
  lt_bound := barrierPlan_lt
  sorted := barrierPlan_sorted
  send_lab := barrierPlan_send
  recv_lab := barrierPlan_recv
  paired := barrierPlan_paired
  send_le _ _ _ := Nat.le_succ _

/-! ## The operations of a barrier in the network -/

theorem barriers_sched (r : Fin P) : (barriers P).sched r = (List.range' 0 (rounds P)).flatMap
    fun k => [.send .empty ((r + 2 ^ k) % P), .recv .empty ((r + P - 2 ^ k) % P)] :=
  barrierSched_eq r (by omega)

theorem barriers_len (r : Fin P) : (barriers P).len r = 2 * rounds P + 1 := by
  rw [Collective.len, barriers_sched, length_pairs]

theorem barriers_get (r : Fin P) {k : Nat} (hk : 2 ^ k < P) :
    ((barriers P).sched r)[2 * k]? = some (.send .empty ((r + 2 ^ k) % P)) ∧
      ((barriers P).sched r)[2 * k + 1]? = some (.recv .empty ((r + P - 2 ^ k) % P)) := by
  rw [barriers_sched]
  have := getElem?_pairs (fun k => ColSched.send .empty ((r + 2 ^ k) % P))
    (fun k => ColSched.recv .empty ((r + P - 2 ^ k) % P)) (s := 0) (lt_rounds.2 hk)
  rwa [Nat.zero_add] at this

theorem barriers_sends {i j : Fin P} {k : Nat} (hk : 2 ^ k < P) (h : (i.val + 2 ^ k) % P = j) :
    (barriers P).sends i j (2 * k + 1) :=
  ⟨2 * k, _, rfl, (barriers_get i hk).1, .empty, by simp only [ColSched.target, h]⟩

theorem barriers_recvs {i j : Fin P} {k : Nat} (hk : 2 ^ k < P) (h : (j.val + P - 2 ^ k) % P = i) :
    (barriers P).recvs j i (2 * k + 2) :=
  ⟨2 * k + 1, _, rfl, (barriers_get j hk).2, .empty, by simp only [ColSched.source, h]⟩

/-- A message of a barrier is that of the round of its distance. -/
theorem sends_offset {i j : Fin P} {w : Nat} (h : (barriers P).sends i j w) : w = 2 * hop P i j + 1 := by
  obtain ⟨h1, x, hx, src, ht⟩ := (barriersPlan P).off_sends h
  obtain ⟨k, hk, rfl | rfl⟩ := mem_barrierPlan.1 hx
  · obtain ⟨-, hj⟩ : Buf.empty = src ∧ (i.val + 2 ^ k) % P = j := by simpa [ColSched.target] using ht
    have := hop_of_send i.isLt j.isLt hk hj
    rw [this]
    exact (barriersPlan P).rounds.send_unique h (barriers_sends hk hj)
  · cases ht

theorem recvs_offset {j i : Fin P} {w : Nat} (h : (barriers P).recvs j i w) : w = 2 * hop P i j + 2 := by
  obtain ⟨u, op, rfl, ho, dst, ht⟩ := h
  obtain ⟨l, hx, -⟩ := (barriersPlan P).ops_of_sched ho
  obtain ⟨k, hk, he | he⟩ := mem_barrierPlan.1 (List.mem_of_getElem? hx)
  · cases he
    cases ht
  · cases he
    obtain ⟨-, hi⟩ : Buf.empty = dst ∧ (j.val + P - 2 ^ k) % P = i := by simpa [ColSched.source] using ht
    have := hop_of_send i.isLt j.isLt hk ((ring_iff i.isLt j.isLt hk).1.2 hi)
    rw [this]
    exact (barriersPlan P).rounds.recv_unique ⟨u, _, rfl, ho, dst, ht⟩ (barriers_recvs hk hi)

/-! ## Dissemination -/

section Heard

variable {mem0 : Fin P → Mem} {rv : Fin P → Nat → Bytes} {wait : Bool} {t : Network.State (Fin P) Bytes Mem}

/-- A rank whose receive of round `k` has been met hears of a rank that has started that round. -/
theorem sender_started (hn : Network.Inv (barriers P).prog mem0 rv wait t) {c k : Nat} (hk : 2 ^ k < P)
    {r i : Fin P} (hi : (r.val + P - 2 ^ k) % P = i)
    (hmet : c * (2 * rounds P + 1) + (2 * k + 2) < (t.proc r).metPos) :
    c * (2 * rounds P + 1) + (2 * k + 1) < (t.proc i).pc := by
  have hr := barriers_recvs hk hi
  have hs := barriers_sends hk ((ring_iff i.isLt r.isLt hk).1.2 hi)
  have hrounds := (barriersPlan P).rounds
  obtain ⟨put, hinp⟩ := ((barriers P).inp_iff r i (c * (barriers P).len r + (2 * k + 2))).2
    ((hrounds.mod_recv hr c).symm ▸ hr)
  have hnum := (hrounds.nsends_at hs c).trans (hrounds.nrecvs_at hr c).symm
  rw [← barriers_len r] at hmet
  rw [← barriers_len i]
  exact hn.sent_of_met hinp hnum hmet

/-- After `k` rounds of its c-th barrier a rank has heard of the `2^k` ranks up to itself. -/
theorem heard (hn : Network.Inv (barriers P).prog mem0 rv wait t) {c k : Nat} (hk : k ≤ rounds P) {r : Fin P}
    (hmet : c * (2 * rounds P + 1) + (2 * k + 1) ≤ (t.proc r).metPos) {d : Nat} (hd : d < 2 ^ k) (hdP : d < P)
    {r' : Fin P} (hr' : (r.val + P - d) % P = r') : c * (2 * rounds P + 1) < (t.proc r').pc := by
  induction k generalizing r d with
  | zero =>
    obtain rfl : d = 0 := by simpa using hd
    obtain rfl : r = r' := Fin.ext (by rw [← hr', Nat.sub_zero, Nat.add_mod_right, Nat.mod_eq_of_lt r.isLt])
    have := Network.metPos_le (t.proc r)
    omega
  | succ k ih =>
    by_cases hlt : d < 2 ^ k
    · exact ih (by omega) (by omega) hlt hdP hr'
    · -- the others are those that the sender of round `k` has heard of
      have hk' : 2 ^ k < P := lt_rounds.1 (by omega)
      have hi : (r.val + P - 2 ^ k) % P < P := Nat.mod_lt _ r.pos
      have hstart := sender_started hn hk' (c := c) (r := r) (i := ⟨_, hi⟩) rfl (by omega)
      have hle := Network.le_metPos (t.proc ⟨_, hi⟩)
      have hpow : 2 ^ (k + 1) = 2 * 2 ^ k := by ring
      refine ih (r := ⟨_, hi⟩) (d := d - 2 ^ k) (by omega) (by omega) (by omega) (by omega) ?_
      rw [← hr', ring_behind r.isLt hk' (by omega), show 2 ^ k + (d - 2 ^ k) = d by omega, Nat.mod_eq_of_lt hdP]

end Heard

/-! ## Every run -/

section Runs

variable {s₀ s : State P}

theorem barriers_reach (hr : Reachable (barrierStart P) lcSendWaits s₀ s) :
    JobInv (barriers P) s ∧ ∃ rv, Network.Inv (barriers P).prog (fun r => (s₀.rank r).mem) rv false
      ((barriers P).abs s) := by
  have hl : Network.Labels (barriers P).prog false _ := (barriersPlan P).labels (by simp)
  obtain ⟨rv, hm⟩ := hl.exists_matched fun r => (s₀.rank r).mem
  have hstable : Network.Stable (barriers P).prog := by
    refine stable_of_ne fun r src dst k hop => ?_
    change _ ∈ barrierSched P r 0 at hop
    rw [← barrierPlan_sched] at hop
    obtain ⟨x, hx, he⟩ := List.mem_map.1 hop
    obtain ⟨l, -, rfl | rfl⟩ := mem_barrierPlan.1 hx <;> cases he
  have hwait : ∀ c, lcSendWaits ((barriers P).size c) = true → false = true := fun _ h => by cases h
  obtain ⟨hj, hn⟩ := hr.inv barriers_starts hwait hm hstable
  exact ⟨hj, rv, hn⟩

/-- A rank that has left its c-th barrier has had all its receives met. -/
theorem met_of_finished (hj : JobInv (barriers P) s) {c : Nat} {r : Fin P} (hf : Finished s c r) :
    (c + 1) * (2 * rounds P + 1) ≤ (((barriers P).abs s).proc r).metPos := by
  have hx := hj.rank r
  have hlen := barriers_len r
  rcases hf with hf | ⟨hc, hf⟩
  · have hpos : (((barriers P).abs s).proc r).pc = _ := pos_eq (K := barriers P) (r := r) (x := s.rank r) (by omega)
    have hle := Network.le_metPos (((barriers P).abs s).proc r)
    have hmul : (c + 1) * (barriers P).len r ≤ ((s.rank r).calls - 1) * (barriers P).len r :=
      Nat.mul_le_mul_right _ (by omega)
    rw [hlen] at hpos hmul
    omega
  · have hpos : (((barriers P).abs s).proc r).pc = _ := hx.pos_call (.inr hf)
    obtain ⟨-, hrecv, -, hpc⟩ := hx.flag (by omega) hf
    have hidle : (((barriers P).abs s).proc r).recvSt = .idle :=
      absRecv_of_none hrecv (by rcases hpc with e | e <;> rw [e] <;> simp)
    rw [Network.metPos_idle hidle, hpos, hc, hlen]

theorem called_of_pos {c : Nat} {r : Fin P} (h : c * (2 * rounds P + 1) < (((barriers P).abs s).proc r).pc)
    (hj : JobInv (barriers P) s) : c < (s.rank r).calls := by
  by_contra hle
  have hlen := barriers_len r
  have hpos : (((barriers P).abs s).proc r).pc ≤ (s.rank r).calls * (barriers P).len r := by
    change (barriers P).pos r (s.rank r) ≤ _
    by_cases hc : (s.rank r).calls = 0
    · simp [Collective.pos, hc]
    · have hcur := (hj.rank r).cur hc
      obtain ⟨n, hn⟩ := Nat.exists_eq_succ_of_ne_zero hc
      rw [pos_eq hc, hn, Nat.succ_eq_add_one, Nat.add_sub_cancel, Nat.add_mul, Collective.len]
      omega
  have hmul : (s.rank r).calls * (barriers P).len r ≤ c * (barriers P).len r := Nat.mul_le_mul_right _ (by omega)
  rw [hlen] at hpos hmul
  omega

/-- What a message and a receive that meet have in common: the barrier and the round. -/
theorem meets_round (hj : JobInv (barriers P) s) {mem0 : Fin P → Mem} {rv : Fin P → Nat → Bytes} {wait : Bool}
    (hn : Network.Inv (barriers P).prog mem0 rv wait ((barriers P).abs s)) {i j : Fin P} {v : Recv} {m : Msg}
    {pre rest : List Msg} (hm : s.Meets i j v m pre rest) :
    m.call + 1 = (s.rank j).calls ∧ ∃ k, m.idx = 2 * k ∧ (s.rank j).req.cur = 2 * k + 2 := by
  obtain rfl := hj.pre_eq_nil hm
  have hx := hj.rank j
  have hc := hx.calls_of_recv hm.posted
  obtain ⟨-, hcur, -⟩ := hx.recv v hm.posted
  have hrounds := (barriersPlan P).rounds
  -- the receive, as an action of its process
  have hinp := hx.inp hm.posted hm.source
  rw [pos_pred hc hcur, show ((s.rank j).calls - 1) * (barriers P).len j + 1 + ((s.rank j).req.cur - 1) =
    ((s.rank j).calls - 1) * (barriers P).len j + (s.rank j).req.cur by omega] at hinp
  obtain ⟨w, get, hs, hr, ho, hnum⟩ := hrounds.send_of_inp hinp
  have hlt : (s.rank j).req.cur < (barriers P).len j := Nat.lt_succ_of_le (hx.cur hc)
  have hdiv : (((s.rank j).calls - 1) * (barriers P).len j + (s.rank j).req.cur) / (barriers P).len j =
      (s.rank j).calls - 1 := by
    rw [Nat.mul_comm, Nat.mul_add_div ((barriers P).len_pos j), Nat.div_eq_of_lt hlt, Nat.add_zero]
  have hmod : (((s.rank j).calls - 1) * (barriers P).len j + (s.rank j).req.cur) % (barriers P).len j =
      (s.rank j).req.cur := by
    rw [Nat.mul_comm, Nat.mul_add_mod, Nat.mod_eq_of_lt hlt]
  rw [hmod] at hr
  rw [hdiv] at ho hnum
  -- the message, as that of its process
  have hchan : ((barriers P).abs s).chan i j = (barriers P).absMsg i m :: rest.map ((barriers P).absMsg i) := by
    simp only [Collective.abs, hm.chan, List.nil_append, List.map_cons]
  have hmet : (((barriers P).abs s).proc j).metPos = ((s.rank j).calls - 1) * (barriers P).len j +
    (s.rank j).req.cur := by
    have hposted : (((barriers P).abs s).proc j).recvSt = .posted := by
      simp only [Collective.abs, Collective.absRank]
      rw [absRecv_of_some hm.posted (hx.not_post hm.posted), hm.empty]
    rw [Network.metPos_posted hposted]
    have : (((barriers P).abs s).proc j).pc = _ := pos_eq (K := barriers P) (r := j) hc
    omega
  rw [← hmet] at hnum
  obtain ⟨hpos, -⟩ := hn.head_matched hchan ho hnum
  have hidx : m.idx + 1 < (barriers P).len i := by
    obtain ⟨-, op, hop, -⟩ := hj.chan i j m (by rw [hm.chan]; simp)
    exact Nat.succ_lt_succ (lt_length_of_getElem? hop)
  have hw := hrounds.send_lt hs
  have hpos' : (barriers P).len i * m.call + (m.idx + 1) = (barriers P).len i * ((s.rank j).calls - 1) + w := by
    have : m.call * (barriers P).len i + 1 + m.idx = ((s.rank j).calls - 1) * (barriers P).len i + w := hpos
    rw [Nat.mul_comm, Nat.mul_comm (_ - 1)] at this
    omega
  have hcall : m.call = (s.rank j).calls - 1 := by
    have := congrArg (· / (barriers P).len i) hpos'
    simpa [Nat.mul_add_div ((barriers P).len_pos i), Nat.div_eq_of_lt hidx, Nat.div_eq_of_lt hw] using this
  have hwidx : m.idx + 1 = w := by
    rw [hcall] at hpos'
    omega
  refine ⟨by omega, hop P i j, ?_, ?_⟩
  · have := sends_offset hs
    omega
  · exact recvs_offset hr

end Runs

/-- Any number of barriers one after another, in every interleaving of polls and deliveries. A rank
whose flag of a barrier is 1 can be sure that every rank has called it; a message only meets the receive
of its own barrier and round; and until all have left a barrier that all have entered, some rank or
message can go on. The sends are those of `lc_send`, which completes such short messages at once. -/
theorem lcIbarrier_correct {P : Nat} (s₀ s : State P) (hr : Reachable (barrierStart P) lcSendWaits s₀ s) :
    (∀ c r, Finished s c r → ∀ r', c < (s.rank r').calls) ∧
    (∀ i j v m pre rest, s.Meets i j v m pre rest → m.call + 1 = (s.rank j).calls ∧
      ∃ k, m.idx = 2 * k ∧ (s.rank j).req.cur = 2 * k + 2) ∧
    (∀ c, (∀ r, c < (s.rank r).calls) → (∃ r, ¬ Finished s c r) → Progresses (barrierStart P) lcSendWaits s) := by
  obtain ⟨hj, rv, hn⟩ := barriers_reach hr
  refine ⟨?_, fun i j v m pre rest hm => meets_round hj hn hm, ?_⟩
  · intro c r hf r'
    have hmet := met_of_finished hj hf
    rw [Nat.add_mul, Nat.one_mul] at hmet
    -- `r'` is some distance behind `r`, and the last round reaches all distances
    have hd : (r.val + P - r'.val) % P < P := Nat.mod_lt _ r.pos
    refine called_of_pos (heard hn le_rfl (r := r) hmet (hd.trans_le ?_) hd ?_) hj
    · exact Nat.le_pow_clog (by decide) P
    · exact (ring_iff r'.isLt r.isLt hd).1.1 ((ring_iff r'.isLt r.isLt hd).2.2 rfl)
  · rintro c hcalls ⟨r, hf⟩
    exact hj.progress hn (barriersPlan P).off_lt ((barriersPlan P).labels (by simp)) hcalls hf

/-! ## A barrier of two ranks -/

/-- Rank `i` enters, rank `j` enters, and rank `i` leaves. -/
def barrierOfTwoRun (i j : Fin 2) : List (Event 2) :=
  [.call i, .next i false, .test i, .next i false, .test i, .call j, .next j false, .meet j i, .land i, .poll i, .fin i]

theorem barrierOfTwo_sched (r : Fin 2) : barrierSched 2 r 0 =
    [.send .empty (if r = 0 then 1 else 0), .recv .empty (if r = 0 then 1 else 0)] := by
  rw [← barrierPlan_sched]
  revert r
  decide

theorem barrierOfTwo_start : barrierStart 2 = fun _ r m req =>
    some (m, { lcColreqInit req with
      size := 1, tag := 1341,
      next := [.send .empty (if r = 0 then 1 else 0), .recv .empty (if r = 0 then 1 else 0)] }) := by
  funext c r m req
  rw [barrierStart, lcIbarrier, barrierOfTwo_sched]
  rfl

theorem barrierOfTwo_reaches : ∃ s, Reachable (barrierStart 2) lcSendWaits (State.init 2) s ∧ Finished s 0 0 := by
  have hrun : ((State.init 2).run? (barrierStart 2) lcSendWaits (barrierOfTwoRun 0 1)).any
      (fun s => (s.rank 0).calls = 1 ∧ (s.rank 0).req.flag = true) = true := by
    rw [barrierOfTwo_start]
    decide +kernel
  obtain ⟨s, hs, hf⟩ := (Option.any_eq_true _ _).1 hrun
  exact ⟨s, ⟨State.init_initial 2, State.run?_sound hs⟩, .inr (by simpa using hf)⟩

/-- Rank 0 has left its first barrier, so both have entered it. -/
theorem lcIbarrier_correct_two_ranks : ∃ s, Reachable (barrierStart 2) lcSendWaits (State.init 2) s ∧
    Finished s 0 0 ∧ ∀ r, 0 < (s.rank r).calls := by
  obtain ⟨s, hr, hf⟩ := barrierOfTwo_reaches
  exact ⟨s, hr, hf, (lcIbarrier_correct (State.init 2) s hr).1 0 0 hf⟩

end Lci.Coll
