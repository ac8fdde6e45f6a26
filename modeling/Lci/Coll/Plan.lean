/-
Plans: schedules whose operations carry labels, by which one can see that a collective fits together.
Labels grow along a schedule, the two ends of a message bear labels that depend on the pair only, and
one end is in a plan exactly when the other is. A collective with a plan never gets stuck
(`Plan.labels`), and what its ranks compute follows from what each of them does with the messages of
the others (`Plan.matched`).
-/
import Lci.Coll.Refine

namespace Lci.Coll

open Network (Rounds Labels Matched Stable)

variable {P : Nat}

/-- The buffer and the source of what an operation receives. -/
def ColSched.source : ColSched → Option (Buf × Nat)
  | .recv dst rank => some (dst, rank)
  | .sendrecv _ dst rank => some (dst, rank)
  | _ => none

/-- The operation sends to, or receives from, a rank. -/
def ColSched.sendsTo (op : ColSched) (k : Nat) : Prop := ∃ src, op.target = some (src, k)

def ColSched.recvsFrom (op : ColSched) (k : Nat) : Prop := ∃ dst, op.source = some (dst, k)

/-- Labels for the schedules of a collective. -/
structure Plan (K : Collective P) where
  ops : Fin P → List (Nat × ColSched)
  bound : Nat
  sendLab : Fin P → Fin P → Nat
  recvLab : Fin P → Fin P → Nat
  sched_eq : ∀ r, (ops r).map Prod.snd = K.sched r
  bound_pos : 0 < bound
  lt_bound : ∀ r, ∀ x ∈ ops r, x.1 < bound
  sorted : ∀ r, (ops r).Pairwise fun x y => x.1 ≤ y.1 ∧ (x.2.peer.isSome → x.1 < y.1)
  send_lab : ∀ i j : Fin P, ∀ x ∈ ops i, x.2.sendsTo j → x.1 = sendLab i j
  recv_lab : ∀ i j : Fin P, ∀ x ∈ ops j, x.2.recvsFrom i → x.1 = recvLab i j
  paired : ∀ i j : Fin P, (∃ x ∈ ops i, x.2.sendsTo j) ↔ ∃ x ∈ ops j, x.2.recvsFrom i
  send_le : ∀ i j : Fin P, (∃ x ∈ ops i, x.2.sendsTo j) → sendLab i j ≤ recvLab i j

variable {K : Collective P}

/-- The action at offset `w` of a block of rank `r`. -/
def Collective.sends (K : Collective P) (i j : Fin P) (w : Nat) : Prop :=
  ∃ u op, w = u + 1 ∧ (K.sched i)[u]? = some op ∧ op.sendsTo j

def Collective.recvs (K : Collective P) (j i : Fin P) (w : Nat) : Prop :=
  ∃ u op, w = u + 1 ∧ (K.sched j)[u]? = some op ∧ op.recvsFrom i

theorem act_out_iff {f : Bytes → Bytes → Bytes} {op : ColSched} {j : Fin P} :
    (∃ get, (act P f op).out = some (j, get)) ↔ op.sendsTo j := by
  unfold ColSched.sendsTo
  cases op with
  | send src k =>
    by_cases hk : k < P <;> simp [act, toRank, ColSched.target, hk, Fin.ext_iff]
    exact fun e => hk (e ▸ j.isLt)
  | sendrecv src dst k =>
    by_cases hk : k < P <;> simp [act, toRank, ColSched.target, hk, Fin.ext_iff]
    exact fun e => hk (e ▸ j.isLt)
  | _ => simp [act, ColSched.target]

theorem act_inp_iff {f : Bytes → Bytes → Bytes} {op : ColSched} {j : Fin P} :
    (∃ put, (act P f op).inp = some (j, put)) ↔ op.recvsFrom j := by
  unfold ColSched.recvsFrom
  cases op with
  | recv dst k =>
    by_cases hk : k < P <;> simp [act, toRank, ColSched.source, hk, Fin.ext_iff]
    exact fun e => hk (e ▸ j.isLt)
  | sendrecv src dst k =>
    by_cases hk : k < P <;> simp [act, toRank, ColSched.source, hk, Fin.ext_iff]
    exact fun e => hk (e ▸ j.isLt)
  | _ => simp [act, ColSched.source]

/-- An action is a call, or an operation of the schedule. -/
theorem Collective.prog_cases (K : Collective P) (r : Fin P) (n : Nat) :
    (n % K.len r = 0 ∧ K.prog r n = ⟨none, none, K.setup (n / K.len r) r⟩) ∨
      ∃ w op, n % K.len r = w + 1 ∧ (K.sched r)[w]? = some op ∧ K.prog r n = act P (K.op (n / K.len r)) op := by
  have hlt := Nat.mod_lt n (K.len_pos r)
  rcases hw : n % K.len r with _ | w
  · exact .inl ⟨rfl, by simp [Collective.prog, hw]⟩
  · have hlt' : w < (K.sched r).length := by unfold Collective.len at *; omega
    refine .inr ⟨w, (K.sched r)[w], rfl, List.getElem?_eq_getElem hlt', ?_⟩
    simp only [Collective.prog, hw, List.getElem?_eq_getElem hlt']

theorem Collective.out_iff (K : Collective P) (i j : Fin P) (n : Nat) :
    (∃ get, (K.prog i n).out = some (j, get)) ↔ K.sends i j (n % K.len i) := by
  unfold Collective.sends
  rcases K.prog_cases i n with ⟨hm, hp⟩ | ⟨w, op, hm, ho, hp⟩
  · rw [hm, hp]
    simp
  · rw [hm, hp, act_out_iff]
    constructor
    · exact fun h => ⟨w, op, rfl, ho, h⟩
    · rintro ⟨u, op', e, ho', h⟩
      obtain rfl : w = u := by omega
      rw [ho] at ho'
      cases ho'
      exact h

theorem Collective.inp_iff (K : Collective P) (j i : Fin P) (n : Nat) :
    (∃ put, (K.prog j n).inp = some (i, put)) ↔ K.recvs j i (n % K.len j) := by
  unfold Collective.recvs
  rcases K.prog_cases j n with ⟨hm, hp⟩ | ⟨w, op, hm, ho, hp⟩
  · rw [hm, hp]
    simp
  · rw [hm, hp, act_inp_iff]
    constructor
    · exact fun h => ⟨w, op, rfl, ho, h⟩
    · rintro ⟨u, op', e, ho', h⟩
      obtain rfl : w = u := by omega
      rw [ho] at ho'
      cases ho'
      exact h

theorem ColSched.peer_of_sendsTo {op : ColSched} {k : Nat} (h : op.sendsTo k) : op.peer.isSome := by
  obtain ⟨src, h⟩ := h
  cases op <;> simp_all [ColSched.target, ColSched.peer]

theorem ColSched.peer_of_recvsFrom {op : ColSched} {k : Nat} (h : op.recvsFrom k) : op.peer.isSome := by
  obtain ⟨src, h⟩ := h
  cases op <;> simp_all [ColSched.source, ColSched.peer]

/-! ## The rounds of a plan -/

namespace Plan

variable (p : Plan K)

/-- The label at offset `w` of a block. -/
def off (r : Fin P) (w : Nat) : Nat := match w with
  | 0 => 0
  | w + 1 => match (p.ops r)[w]? with
    | some x => x.1
    | none => 0

theorem off_lt (r : Fin P) (w : Nat) : p.off r w < p.bound := by
  unfold off
  split
  · exact p.bound_pos
  · split
    · rename_i x hx
      exact p.lt_bound r x (List.mem_of_getElem? hx)
    · exact p.bound_pos

/-- The labelled operation behind an operation of the schedule. -/
theorem ops_of_sched {r : Fin P} {w : Nat} {op : ColSched} (h : (K.sched r)[w]? = some op) :
    ∃ l, (p.ops r)[w]? = some (l, op) ∧ p.off r (w + 1) = l := by
  rw [← p.sched_eq, List.getElem?_map] at h
  obtain ⟨⟨l, op'⟩, hx, rfl⟩ := Option.map_eq_some_iff.1 h
  exact ⟨l, hx, by simp only [off, hx]⟩

theorem sched_of_mem {r : Fin P} {x : Nat × ColSched} (h : x ∈ p.ops r) :
    ∃ w : Nat, (K.sched r)[w]? = some x.2 ∧ (p.ops r)[w]? = some x := by
  obtain ⟨w, hw⟩ := List.mem_iff_getElem?.1 h
  refine ⟨w, ?_, hw⟩
  rw [← p.sched_eq, List.getElem?_map, hw]
  rfl

theorem sorted_getElem? {r : Fin P} {w u : Nat} {x y : Nat × ColSched} (hx : (p.ops r)[w]? = some x)
    (hy : (p.ops r)[u]? = some y) (h : w < u) : x.1 ≤ y.1 ∧ (x.2.peer.isSome → x.1 < y.1) := by
  obtain ⟨hw, rfl⟩ := List.getElem?_eq_some_iff.1 hx
  obtain ⟨hu, rfl⟩ := List.getElem?_eq_some_iff.1 hy
  exact List.pairwise_iff_getElem.1 (p.sorted r) w u hw hu h

/-- Two communications of a rank with one label are one. -/
theorem eq_of_label {r : Fin P} {w u : Nat} {x y : Nat × ColSched} (hx : (p.ops r)[w]? = some x)
    (hy : (p.ops r)[u]? = some y) (h : x.1 = y.1) (hpx : x.2.peer.isSome) (hpy : y.2.peer.isSome) : w = u := by
  rcases lt_trichotomy w u with hlt | rfl | hlt
  · have := (p.sorted_getElem? hx hy hlt).2 hpx
    omega
  · rfl
  · have := (p.sorted_getElem? hy hx hlt).2 hpy
    omega

include p in
theorem rounds : Rounds K.prog K.len K.sends K.recvs := by
  refine ⟨K.len_pos, K.out_iff, K.inp_iff, ?_, ?_, ?_, ?_, ?_, ?_⟩
  · rintro i j w ⟨u, op, rfl, ho, -⟩
    exact Nat.succ_lt_succ (lt_length_of_getElem? ho)
  · rintro j i w ⟨u, op, rfl, ho, -⟩
    exact Nat.succ_lt_succ (lt_length_of_getElem? ho)
  · rintro i j w w' ⟨u, op, rfl, ho, hs⟩ ⟨u', op', rfl, ho', hs'⟩
    obtain ⟨l, hx, -⟩ := p.ops_of_sched ho
    obtain ⟨l', hx', -⟩ := p.ops_of_sched ho'
    have h1 := p.send_lab i j _ (List.mem_of_getElem? hx) hs
    have h2 := p.send_lab i j _ (List.mem_of_getElem? hx') hs'
    rw [p.eq_of_label hx hx' (h1.trans h2.symm) (ColSched.peer_of_sendsTo hs) (ColSched.peer_of_sendsTo hs')]
  · rintro j i w w' ⟨u, op, rfl, ho, hs⟩ ⟨u', op', rfl, ho', hs'⟩
    obtain ⟨l, hx, -⟩ := p.ops_of_sched ho
    obtain ⟨l', hx', -⟩ := p.ops_of_sched ho'
    have h1 := p.recv_lab i j _ (List.mem_of_getElem? hx) hs
    have h2 := p.recv_lab i j _ (List.mem_of_getElem? hx') hs'
    rw [p.eq_of_label hx hx' (h1.trans h2.symm) (ColSched.peer_of_recvsFrom hs) (ColSched.peer_of_recvsFrom hs')]
  · rintro i j w ⟨u, op, rfl, ho, hs⟩
    obtain ⟨l, hx, -⟩ := p.ops_of_sched ho
    obtain ⟨y, hy, hr⟩ := (p.paired i j).1 ⟨_, List.mem_of_getElem? hx, hs⟩
    obtain ⟨v, hv, -⟩ := p.sched_of_mem hy
    exact ⟨v + 1, v, y.2, rfl, hv, hr⟩
  · rintro j i w ⟨u, op, rfl, ho, hs⟩
    obtain ⟨l, hx, -⟩ := p.ops_of_sched ho
    obtain ⟨y, hy, hr⟩ := (p.paired i j).2 ⟨_, List.mem_of_getElem? hx, hs⟩
    obtain ⟨v, hv, -⟩ := p.sched_of_mem hy
    exact ⟨v + 1, v, y.2, rfl, hv, hr⟩

theorem off_sends {i j : Fin P} {w : Nat} (h : K.sends i j w) :
    p.off i w = p.sendLab i j ∧ ∃ x ∈ p.ops i, x.2.sendsTo j := by
  obtain ⟨u, op, rfl, ho, hs⟩ := h
  obtain ⟨l, hx, hl⟩ := p.ops_of_sched ho
  have hmem := List.mem_of_getElem? hx
  exact ⟨hl.trans (p.send_lab i j _ hmem hs), _, hmem, hs⟩

theorem off_recvs {j i : Fin P} {w : Nat} (h : K.recvs j i w) : p.off j w = p.recvLab i j := by
  obtain ⟨u, op, rfl, ho, hs⟩ := h
  obtain ⟨l, hx, hl⟩ := p.ops_of_sched ho
  exact hl.trans (p.recv_lab i j _ (List.mem_of_getElem? hx) hs)

/-- The labels of a plan; when sends may wait, both ends of a message must bear one label. -/
theorem labels {wait : Bool} (hwait : wait = true → p.sendLab = p.recvLab) :
    Labels K.prog wait fun i n => n / K.len i * p.bound + p.off i (n % K.len i) := by
  have hsome : ∀ {r w}, w < (K.sched r).length → ∃ x, (p.ops r)[w]? = some x ∧ p.off r (w + 1) = x.1 := by
    intro r w hw
    obtain ⟨l, hx, hl⟩ := p.ops_of_sched (List.getElem?_eq_getElem hw)
    exact ⟨_, hx, hl⟩
  refine p.rounds.labels p.off_lt ?_ ?_ ?_ ?_
  · intro i w hw
    rcases w with _ | w
    · exact Nat.zero_le _
    · unfold Collective.len at hw
      obtain ⟨x, hx, hox⟩ := hsome (r := i) (w := w) (by omega)
      obtain ⟨y, hy, hoy⟩ := hsome (r := i) (w := w + 1) (by omega)
      rw [hox, hoy]
      exact (p.sorted_getElem? hx hy w.lt_succ_self).1
  · intro i j w hw hcomm
    obtain ⟨u, op, rfl, ho, hpeer⟩ : ∃ u op, w = u + 1 ∧ (K.sched i)[u]? = some op ∧ op.peer.isSome := by
      rcases hcomm with ⟨u, op, rfl, ho, hs⟩ | ⟨u, op, rfl, ho, hs⟩
      · exact ⟨u, op, rfl, ho, ColSched.peer_of_sendsTo hs⟩
      · exact ⟨u, op, rfl, ho, ColSched.peer_of_recvsFrom hs⟩
    obtain ⟨l, hx, hl⟩ := p.ops_of_sched ho
    unfold Collective.len at hw
    obtain ⟨y, hy, hoy⟩ := hsome (r := i) (w := u + 1) (by omega)
    rw [hl, hoy]
    exact (p.sorted_getElem? hx hy u.lt_succ_self).2 hpeer
  · intro i j w u hs hr
    obtain ⟨h1, h2⟩ := p.off_sends hs
    rw [h1, p.off_recvs hr]
    exact p.send_le i j h2
  · intro hw i j w u hs hr
    rw [(p.off_sends hs).1, p.off_recvs hr, hwait hw]

end Plan

/-! ## What the ranks compute -/

/-- The effect of an operation when a receive from rank `k` returns `recvd k`. -/
def runOp (f : Bytes → Bytes → Bytes) (recvd : Nat → Bytes) (m : Mem) : ColSched → Mem
  | .send _ _ => m
  | .recv dst k => write dst (recvd k) m
  | .sendrecv _ dst k => write dst (recvd k) m
  | .op dst src => Function.update m dst (f (m dst) (m src))
  | .mem dst src => Function.update m dst (m src)
  | .free src => Function.update m src []

/-- Every send of a schedule finds what is to be sent in its buffer. -/
def SendsOk (f : Bytes → Bytes → Bytes) (recvd sent : Nat → Bytes) : List ColSched → Mem → Prop
  | [], _ => True
  | op :: ops, m => (∀ src k, op.target = some (src, k) → m src = sent k) ∧
    SendsOk f recvd sent ops (runOp f recvd m op)

variable {f : Bytes → Bytes → Bytes} {recvd sent : Nat → Bytes}

theorem sendsOk_append {l l' : List ColSched} {m : Mem} : SendsOk f recvd sent (l ++ l') m ↔
    SendsOk f recvd sent l m ∧ SendsOk f recvd sent l' (l.foldl (runOp f recvd) m) := by
  induction l generalizing m with
  | nil => simp [SendsOk]
  | cons op l ih => simp [SendsOk, ih, and_assoc]

theorem SendsOk.getElem? {l : List ColSched} {m : Mem} (h : SendsOk f recvd sent l m) {w : Nat} {op : ColSched}
    (hw : l[w]? = some op) {src : Buf} {k : Nat} (ht : op.target = some (src, k)) :
    (l.take w).foldl (runOp f recvd) m src = sent k := by
  induction l generalizing m w with
  | nil => simp at hw
  | cons op' l ih =>
    cases w with
    | zero =>
      obtain rfl : op' = op := by simpa using hw
      exact h.1 src k ht
    | succ w => exact ih h.2 (by simpa using hw)

/-- The family indexed by ranks as numbers. -/
def byRank {P : Nat} (v : Fin P → Bytes) (k : Nat) : Bytes := match toRank P k with
  | some j => v j
  | none => []

@[simp] theorem byRank_val (v : Fin P → Bytes) (j : Fin P) : byRank v j.val = v j := by
  simp [byRank, toRank_val]

/-- What the receive at position `n` of rank `j` returns when in the c-th call rank `i` sends
`sent c i j` to rank `j`. -/
def Collective.rv (K : Collective P) (sent : Nat → Fin P → Fin P → Bytes) (j : Fin P) (n : Nat) : Bytes :=
  match (K.prog j n).inp with
  | some (i, _) => sent (n / K.len j) i j
  | none => []

theorem act_inp {f : Bytes → Bytes → Bytes} {op : ColSched} {dst : Buf} {k : Nat}
    (ht : op.source = some (dst, k)) (hk : k < P) : (act P f op).inp = some (⟨k, hk⟩, write dst) := by
  cases op <;> simp only [ColSched.source, Option.some.injEq, Prod.mk.injEq, reduceCtorEq] at ht
  all_goals
    obtain ⟨rfl, rfl⟩ := ht
    simp [act, toRank, hk]

section

variable {sent : Nat → Fin P → Fin P → Bytes} {mem0 : Fin P → Mem}

/-- The memory of a rank after the first `w` operations of its c-th call. -/
theorem ref_block (K : Collective P) (sent : Nat → Fin P → Fin P → Bytes) (mem0 : Fin P → Mem) (c : Nat) (r : Fin P)
    {w : Nat} (hw : w ≤ (K.sched r).length) :
    Network.ref K.prog mem0 (K.rv sent) r (c * K.len r + 1 + w) =
      ((K.sched r).take w).foldl (runOp (K.op c) (byRank fun i => sent c i r))
        (K.setup c r (Network.ref K.prog mem0 (K.rv sent) r (c * K.len r))) := by
  induction w with
  | zero =>
    rw [Nat.add_zero, Network.ref_succ, K.prog_call]
    simp
  | succ w ih =>
    have hlt : w < (K.sched r).length := hw
    have ho := List.getElem?_eq_getElem hlt
    have hprog := K.prog_op ho c
    have hpeer := K.inRange r _ (List.getElem_mem hlt)
    rw [← Nat.add_assoc, Network.ref_succ, hprog, ih hlt.le, List.take_add_one, ho, List.foldl_append]
    generalize ((K.sched r).take w).foldl _ _ = m
    have hrv : ∀ i put, (K.prog r (c * K.len r + 1 + w)).inp = some (i, put) →
        K.rv sent r (c * K.len r + 1 + w) = sent c i r := by
      intro i put hi
      simp only [Collective.rv, hi, (K.pos_mod hlt c).2]
    rw [hprog] at hrv
    generalize (K.sched r)[w] = op at hrv hpeer ⊢
    cases op with
    | recv dst k =>
      have hi := @act_inp P (K.op c) (.recv dst k) dst k rfl (hpeer k rfl)
      rw [hi, hrv _ _ hi]
      exact congrArg (fun v => write dst v m) (byRank_val (fun i => sent c i r) ⟨k, hpeer k rfl⟩).symm
    | sendrecv src dst k =>
      have hi := @act_inp P (K.op c) (.sendrecv src dst k) dst k rfl (hpeer k rfl)
      rw [hi, hrv _ _ hi]
      exact congrArg (fun v => write dst v m) (byRank_val (fun i => sent c i r) ⟨k, hpeer k rfl⟩).symm
    | _ => rfl

/-- When every rank finds in its buffers what it is to send, the messages are those that `sent` says. -/
theorem Plan.matched (p : Plan K)
    (hok : ∀ c r m, SendsOk (K.op c) (byRank fun i => sent c i r) (byRank (sent c r)) (K.sched r) (K.setup c r m)) :
    Matched K.prog mem0 (K.rv sent) := by
  intro j n i put hi
  obtain ⟨w, get, hs, hr, ho, hn⟩ := p.rounds.send_of_inp hi
  refine ⟨_, get, ho, hn, ?_⟩
  obtain ⟨u, op, rfl, hop, src, ht⟩ := hs
  rw [← Nat.add_assoc, Nat.add_right_comm] at ho ⊢
  have hout := K.prog_op hop (n / K.len j)
  rw [hout, act_out ht j.isLt] at ho
  obtain ⟨-, rfl⟩ := Prod.mk.inj (Option.some.inj ho)
  simp only [ref_block K sent mem0 _ i (lt_length_of_getElem? hop).le, (hok _ _ _).getElem? hop ht, byRank_val,
    Collective.rv, hi]

/-- Sources that no exchange overwrites. -/
theorem stable_of_ne (h : ∀ r src dst k, ColSched.sendrecv src dst k ∈ K.sched r → src ≠ dst) : Stable K.prog := by
  intro i n j get ho
  rcases K.prog_cases i n with ⟨-, hp⟩ | ⟨w, op, -, hop, hp⟩
  · rw [hp] at ho
    cases ho
  · rw [hp] at ho ⊢
    have hpeer := K.inRange i op (List.mem_of_getElem? hop)
    cases op with
    | send src k =>
      rw [act_out rfl (hpeer k rfl)] at ho
      obtain ⟨-, rfl⟩ := Prod.mk.inj (Option.some.inj ho)
      exact ⟨fun m => rfl, by simp [act]⟩
    | sendrecv src dst k =>
      rw [act_out rfl (hpeer k rfl)] at ho
      obtain ⟨-, rfl⟩ := Prod.mk.inj (Option.some.inj ho)
      refine ⟨fun m => rfl, ?_⟩
      intro l put hi v m
      rw [act_inp rfl (hpeer k rfl)] at hi
      obtain ⟨-, rfl⟩ := Prod.mk.inj (Option.some.inj hi)
      exact Function.update_of_ne (h i src dst k (List.mem_of_getElem? hop)) _ _
    | _ => simp [act] at ho

end

end Lci.Coll
