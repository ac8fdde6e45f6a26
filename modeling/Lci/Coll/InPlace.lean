/-
`lc_ialreduce` with `LC_COL_IN_PLACE` and with a send buffer of its own (coll/ialreduce.h). The two forms differ in what
the set-up copies to the temporary buffer; from then on the schedule works on that buffer and on `rbuf`.
-/
import Lci.Coll.Allreduce

namespace Lci.Coll

variable {P : Nat}

/-! ## Operations that do not touch `sbuf` -/

/-- Other contents for the `sbuf` of rank `r`. -/
def State.over (s : State P) (r : Fin P) (b : Bytes) : State P :=
  s.set r { s.rank r with mem := Function.update (s.rank r).mem .sbuf b }

/-- What the operation does is the same whatever `sbuf` holds, and it leaves that there. -/
def ColSched.Spares (P : Nat) (o : ColSched) : Prop :=
  ∀ (s : State P) (r : Fin P) (sync : Bool) (b : Bytes), (s.over r b).exec r o sync = (s.exec r o sync).over r b

/-- The buffers that an operation names. -/
def ColSched.bufs : ColSched → List Buf
  | .send b _ | .recv b _ | .free b => [b]
  | .sendrecv b b' _ | .op b b' | .mem b b' => [b, b']

theorem Rank.next_over {x : Rank} {o : ColSched} (h : .sbuf ∉ o.bufs) (sync : Bool) (b : Bytes) :
    ({ x with mem := Function.update x.mem .sbuf b } : Rank).next o sync =
      { x.next o sync with mem := Function.update (x.next o sync).mem .sbuf b } := by
  cases o with
  | send src k => rfl
  | recv src k => rfl
  | sendrecv src dst k => rfl
  | op dst src =>
    have hd : dst ≠ .sbuf := fun e => h (by simp [ColSched.bufs, e])
    have hs : src ≠ .sbuf := fun e => h (by simp [ColSched.bufs, e])
    simp [Rank.next, Function.update_of_ne hd, Function.update_of_ne hs, Function.update_comm hd.symm]
  | mem dst src =>
    have hd : dst ≠ .sbuf := fun e => h (by simp [ColSched.bufs, e])
    have hs : src ≠ .sbuf := fun e => h (by simp [ColSched.bufs, e])
    simp [Rank.next, Function.update_of_ne hs, Function.update_comm hd.symm]
  | free src =>
    have hs : src ≠ .sbuf := fun e => h (by simp [ColSched.bufs, e])
    simp [Rank.next, Function.update_comm hs.symm]

/-- An operation that does not name `sbuf` spares it. -/
theorem spares_of_bufs {o : ColSched} (h : .sbuf ∉ o.bufs) : o.Spares P := by
  intro s r sync b
  have htgt : ∀ src k, o.target = some (src, k) → src ≠ .sbuf := by
    rintro src k ht rfl
    cases o <;> simp_all [ColSched.target, ColSched.bufs]
  have hrank : ((s.over r b).exec r o sync).rank = ((s.exec r o sync).over r b).rank := by
    simp only [State.exec, State.over, State.set, Function.update_self, Function.update_idem]
    rw [Rank.next_over h]
  have hchan : ((s.over r b).exec r o sync).chan = ((s.exec r o sync).over r b).chan := by
    funext i j
    simp only [State.exec, State.over, State.set, Function.update_self]
    rcases ht : o.target with _ | ⟨src, k⟩
    · rfl
    · simp only [Function.update_of_ne (htgt src k ht)]
  calc (s.over r b).exec r o sync
      = ⟨((s.over r b).exec r o sync).rank, ((s.over r b).exec r o sync).chan⟩ := rfl
    _ = (s.exec r o sync).over r b := by rw [hrank, hchan]

theorem exchange_bufs {nr k : Nat} {o : ColSched} (h : o ∈ exchange P nr k) : .sbuf ∉ o.bufs := by
  fun_induction exchange P nr k with
  | case1 k hlt ih =>
    simp only [List.mem_cons] at h
    rcases h with rfl | rfl | h
    · simp [ColSched.bufs]
    · simp [ColSched.bufs]
    · exact ih h
  | case2 k hge => cases h

/-- The schedule of an allreduce does not name `sbuf`. -/
theorem allreduceSched_bufs {r : Nat} {o : ColSched} (h : o ∈ allreduceSched P r) : .sbuf ∉ o.bufs := by
  simp only [allreduceSched, List.mem_append, List.mem_singleton] at h
  rcases h with ((h | h) | h) | rfl
  · unfold foldIn at h
    split_ifs at h <;> simp only [List.mem_cons, List.not_mem_nil, or_false] at h
    · subst h
      simp [ColSched.bufs]
    · rcases h with rfl | rfl <;> simp [ColSched.bufs]
  · split at h
    · exact exchange_bufs h
    · cases h
  · unfold foldOut at h
    split_ifs at h <;> simp only [List.mem_cons, List.not_mem_nil, or_false] at h
    · subst h
      simp [ColSched.bufs]
    · rcases h with rfl | rfl <;> simp [ColSched.bufs]
    · subst h
      simp [ColSched.bufs]
  · simp [ColSched.bufs]

/-! ## The send buffer is kept -/

/-- A rank of a workload has its `sbuf` as the call gave it, and nothing that it has begun will write there. -/
structure Keeps (w : Workload P) (r : Fin P) (x : Rank) : Prop where
  idle : x.calls = 0 → x.pc = .idle
  next : x.calls ≠ 0 → ∀ o ∈ x.req.next, .sbuf ∉ o.bufs
  post : ∀ dst k, x.pc = .post dst k → dst ≠ .sbuf
  recv : ∀ v, x.recv = some v → v.dst ≠ .sbuf
  sbuf : ∀ c, x.calls = c + 1 → x.mem .sbuf = (w.sbuf c r).1

/-- An operation that does not name `sbuf`. -/
theorem Keeps.exec {w : Workload P} {r : Fin P} {x : Rank} (h : Keeps w r x) (hc : x.calls ≠ 0) {o : ColSched}
    (ho : .sbuf ∉ o.bufs) (sync : Bool) : Keeps w r (x.next o sync) := by
  obtain ⟨hidle, hnext, hpost, hrecv, hsbuf⟩ := h
  cases o with
  | send src k => exact ⟨fun e => absurd e hc, hnext, fun _ _ e => (by cases e), hrecv, hsbuf⟩
  | recv src k =>
    refine ⟨fun e => absurd e hc, hnext, fun _ _ e => (by cases e), ?_, hsbuf⟩
    intro v hv e
    cases hv
    have e : src = .sbuf := e
    exact ho (by simp [ColSched.bufs, e])
  | sendrecv src dst k =>
    refine ⟨fun e => absurd e hc, hnext, ?_, hrecv, hsbuf⟩
    rintro dst' k' e rfl
    cases e
    exact ho (by simp [ColSched.bufs])
  | op dst src | mem dst src | free dst =>
    refine ⟨fun e => absurd e hc, hnext, fun _ _ e => (by cases e), hrecv, ?_⟩
    intro c e
    have hd : Buf.sbuf ≠ dst := fun e => ho (by simp [ColSched.bufs, e])
    rw [← hsbuf c e]
    exact Function.update_of_ne hd _ _

theorem Keeps.call {w : Workload P} (h2 : 2 ≤ P) {r : Fin P} {x : Rank} (h : Keeps w r x) {m : Mem} {req : ColReq}
    (hs : w.start x.calls r x.mem x.req = some (m, req)) :
    Keeps w r { x with calls := x.calls + 1, pc := if req.flag then .idle else .loop, req, mem := m } := by
  rw [w.start_eq h2] at hs
  cases hs
  refine ⟨fun e => absurd e (Nat.succ_ne_zero _), fun _ o ho => allreduceSched_bufs ho, fun _ _ e => (by cases e),
    h.recv, ?_⟩
  intro c e
  cases e
  simp [Workload.buffers]

theorem Keeps.step {w : Workload P} {mayWait : Nat → Bool} (h2 : 2 ≤ P) {s t : State P}
    (h : ∀ r, Keeps w r (s.rank r)) (hs : Step w.start mayWait s t) (r : Fin P) : Keeps w r (t.rank r) := by
  -- a step that sets one rank
  have hset : ∀ (q : Fin P) (x : Rank), Keeps w q x → Keeps w r ((s.set q x).rank r) := by
    intro q x hx
    by_cases e : r = q
    · subst e
      simpa [State.set] using hx
    · simpa [State.set, e] using h r
  cases hs with
  | call q m req hp hf hs => exact hset q _ ((h q).call h2 hs)
  | poll q hp hc =>
    obtain ⟨hidle, hnext, hpost, hrecv, hsbuf⟩ := h q
    refine hset q _ ⟨fun e => absurd e hc, hnext, ?_, hrecv, hsbuf⟩
    intro dst k e
    dsimp only at e
    split at e <;> cases e
  | next q op sync hp ho ht hs =>
    have hc : (s.rank q).calls ≠ 0 := by
      intro e
      rw [(h q).idle e] at hp
      cases hp
    have hx := (h q).exec hc ((h q).next hc op (List.mem_of_getElem? ho)) sync
    exact hset q _ hx
  | fin q hp ho =>
    obtain ⟨hidle, hnext, hpost, hrecv, hsbuf⟩ := h q
    exact hset q _ ⟨fun _ => rfl, hnext, fun _ _ e => (by cases e), hrecv, hsbuf⟩
  | post q dst k hp =>
    obtain ⟨hidle, hnext, hpost, hrecv, hsbuf⟩ := h q
    refine hset q _ ⟨fun e => ?_, hnext, fun _ _ e => (by cases e), ?_, hsbuf⟩
    · rw [hidle e] at hp
      cases hp
    · intro v hv
      cases hv
      exact hpost dst k hp
  | test q hp =>
    obtain ⟨hidle, hnext, hpost, hrecv, hsbuf⟩ := h q
    refine hset q _ ⟨fun e => ?_, hnext, ?_, hrecv, hsbuf⟩
    · rw [hidle e] at hp
      cases hp
    · intro dst k e
      dsimp only at e
      split at e <;> cases e
  | meet i j v m pre rest hm =>
    obtain ⟨hidle, hnext, hpost, hrecv, hsbuf⟩ := h r
    refine ⟨hidle, hnext, hpost, ?_, hsbuf⟩
    intro v' hv'
    dsimp only [State.meet] at hv'
    split at hv'
    · next e =>
      cases hv'
      exact hrecv v (e ▸ hm.posted)
    · exact hrecv v' hv'
  | land j v a hv hg =>
    obtain ⟨hidle, hnext, hpost, hrecv, hsbuf⟩ := h j
    refine hset j _ ⟨hidle, hnext, hpost, fun v' e => (by cases e), ?_⟩
    intro c e
    rw [← hsbuf c e]
    exact Function.update_of_ne (hrecv v hv).symm _ _
  | ack i hs =>
    obtain ⟨hidle, hnext, hpost, hrecv, hsbuf⟩ := h i
    exact hset i _ ⟨hidle, hnext, hpost, hrecv, hsbuf⟩

theorem Keeps.run {w : Workload P} {mayWait : Nat → Bool} (h2 : 2 ≤ P) {s₀ s : State P}
    (hr : Reachable w.start mayWait s₀ s) (r : Fin P) : Keeps w r (s.rank r) := by
  obtain ⟨hi, hr⟩ := hr
  induction hr generalizing r with
  | refl =>
    refine ⟨fun _ => hi.pc r, fun h => absurd (hi.calls r) h, fun dst k e => ?_, fun v e => ?_, fun c e => ?_⟩
    · rw [hi.pc r] at e
      cases e
    · rw [hi.recv r] at e
      cases e
    · rw [hi.calls r] at e
      cases e
  | tail _ hs ih => exact Keeps.step h2 ih hs r

/-! ## The two forms -/

section Forms

variable (count : Nat → Nat) (op : (c : Nat) → Buffer (count c) → Buffer (count c) → Buffer (count c))
  (x other : (c : Nat) → Fin P → Buffer (count c))

/-- Every rank calls with `LC_COL_IN_PLACE` and its contribution in `rbuf`. -/
def inPlaceCalls : Workload P := ⟨count, op, fun _ _ => true, other, x⟩

/-- Every rank calls with its contribution in `sbuf`, whatever is in `rbuf`. -/
def outOfPlaceCalls : Workload P := ⟨count, op, fun _ _ => false, x, other⟩

theorem final_forms (other' : (c : Nat) → Fin P → Buffer (count c)) (c r : Nat) :
    (inPlaceCalls count op x other).final c r = (outOfPlaceCalls count op x other').final c r := by
  have hx : (inPlaceCalls count op x other).x c = (outOfPlaceCalls count op x other').x c := by
    funext k
    simp [Workload.x, Workload.contribution, inPlaceCalls, outOfPlaceCalls]
  have hfold : (inPlaceCalls count op x other).folded c = (outOfPlaceCalls count op x other').folded c := by
    funext a
    unfold Workload.folded
    rw [hx]
    rfl
  have hval : (inPlaceCalls count op x other).val c = (outOfPlaceCalls count op x other').val c := by
    funext k a
    unfold Workload.val
    rw [hfold]
    rfl
  unfold Workload.final
  rw [hval]
  rfl

end Forms

/-- No run of the calls is stuck before all ranks have completed what they have called. -/
def NeverStuck (w : Workload P) : Prop :=
  ∀ (mayWait : Nat → Bool) (s₀ s : State P), Reachable w.start mayWait s₀ s → ∀ c, (∀ r, c < (s.rank r).calls) →
    (∃ r, ¬ Finished s c r) → Progresses w.start mayWait s

/-- With `P` processes the two forms are the same to their callers. -/
structure FormsAgree (P : Nat) : Prop where
  /-- the shift of `opal_next_poweroftwo` stays in an `int` -/
  inRange : (opalNextPoweroftwo (BitVec.ofNat 32 P)).msb = false
  /-- in place, neither the set-up nor the schedule looks at an `sbuf` -/
  reads : ∀ (r : Fin P) (count : Nat) (op : Bytes → Bytes → Bytes) (m : Mem) (req : ColReq),
    ∃ m' req', lcIalreduce P r true count op m req = some (m', req') ∧
      (∀ b, lcIalreduce P r true count op (Function.update m .sbuf b) req = some (Function.update m' .sbuf b, req')) ∧
      ∀ o ∈ req'.next, o.Spares P
  ends : ∀ count op (x other : (c : Nat) → Fin P → Buffer (count c)),
    NeverStuck (inPlaceCalls count op x other) ∧ NeverStuck (outOfPlaceCalls count op x other)
  same : ∀ count op (x other other' : (c : Nat) → Fin P → Buffer (count c)) (mayWait mayWait' : Nat → Bool)
    (s₀ s t₀ t : State P), Reachable (inPlaceCalls count op x other).start mayWait s₀ s →
    Reachable (outOfPlaceCalls count op x other').start mayWait' t₀ t →
    ∀ (c : Nat) (r : Fin P), (s.rank r).calls = c + 1 → (s.rank r).req.flag = true →
      (t.rank r).calls = c + 1 → (t.rank r).req.flag = true → (s.rank r).mem .rbuf = (t.rank r).mem .rbuf
  kept : ∀ count op (x other : (c : Nat) → Fin P → Buffer (count c)) (mayWait : Nat → Bool) (s₀ s : State P),
    Reachable (outOfPlaceCalls count op x other).start mayWait s₀ s →
    ∀ (c : Nat) (r : Fin P), (s.rank r).calls = c + 1 → (s.rank r).mem .sbuf = (x c r).1

theorem msb_opalNextPoweroftwo {n : Nat} (h0 : 0 < n) (h : n < 2 ^ 31) :
    (opalNextPoweroftwo (BitVec.ofNat 32 n)).msb = false ↔ n < 2 ^ 30 := by
  have hlog : n.log2 < 30 ↔ n < 2 ^ 30 := Nat.log2_lt h0.ne'
  have hlog' : n.log2 < 31 := (Nat.log2_lt h0.ne').2 h
  rw [BitVec.msb_eq_decide, opalNextPoweroftwo_toNat h0 h, ← hlog, decide_eq_false_iff_not, not_le]
  constructor
  · intro hlt
    by_contra hn
    rw [show n.log2 = 30 by omega] at hlt
    exact absurd hlt (by decide)
  · intro hlt
    exact Nat.pow_lt_pow_right (by decide) (by omega)

theorem neverStuck {w : Workload P} (h2 : 2 ≤ P) (hP : P < 2 ^ 30) : NeverStuck w := by
  rintro mayWait s₀ s hr c hcalls ⟨r, hf⟩
  have h0 : 0 < P := by omega
  obtain ⟨hj, hn⟩ := w.reach_inv h2 hP hr
  exact hj.progress hn (w.plan h0 hP).off_lt ((w.plan h0 hP).labels fun _ => rfl) hcalls hf

/-- The set-up in place. -/
theorem lcIalreduce_inPlace (h1 : P ≠ 1) (r : Nat) (count : Nat) (op : Bytes → Bytes → Bytes) (m : Mem) (req : ColReq) :
    lcIalreduce P r true count op m req = some (Function.update m .tmp (m .rbuf),
      { lcColreqInit req with
        op, size := count, tag := MCA_COLL_BASE_TAG_IALLREDUCE, next := allreduceSched P r }) := by
  rw [lcIalreduce, if_neg h1]
  rfl

/-- One process copies from the address `LC_COL_IN_PLACE`. -/
theorem lcIalreduce_alone (r count : Nat) (op : Bytes → Bytes → Bytes) (m : Mem) (req : ColReq) :
    lcIalreduce 1 r true count op m req = none := rfl

theorem FormsAgree.ne_one (h : FormsAgree P) : P ≠ 1 := by
  rintro rfl
  obtain ⟨m', req', he, -⟩ := h.reads 0 1 (fun a _ => a) (fun _ => [7]) ⟨false, 0, true, true, fun a _ => a, [], 0, 0⟩
  rw [lcIalreduce_alone] at he
  cases he

/-- The two forms agree from two processes on, up to the number whose power of two is not an `int` any more. -/
theorem forms_agree_iff {P : Nat} (h1 : 1 ≤ P) (hP : P < 2 ^ 31) : FormsAgree P ↔ 2 ≤ P ∧ P < 2 ^ 30 := by
  constructor
  · intro h
    have hne := h.ne_one
    exact ⟨by omega, (msb_opalNextPoweroftwo h1 hP).1 h.inRange⟩
  · rintro ⟨h2, hlt⟩
    constructor
    case inRange => exact (msb_opalNextPoweroftwo h1 hP).2 hlt
    case reads =>
      intro r count op m req
      refine ⟨_, _, lcIalreduce_inPlace (by omega) r count op m req, fun b => ?_, fun o ho => ?_⟩
      · rw [lcIalreduce_inPlace (by omega), Function.update_comm (by decide)]
        rfl
      · exact spares_of_bufs (allreduceSched_bufs ho)
    case ends =>
      intro count op x other
      exact ⟨neverStuck h2 hlt, neverStuck h2 hlt⟩
    case same =>
      intro count op x other other' mayWait mayWait' s₀ s t₀ t hs ht c r hc hf hc' hf'
      rw [Workload.rbuf_final _ h2 hlt hs hc hf, Workload.rbuf_final _ h2 hlt ht hc' hf',
        final_forms count op x other other']
    case kept =>
      intro count op x other mayWait s₀ s hr c r hc
      exact (Keeps.run h2 hr r).sbuf c hc

/-- Five processes, one of which hands in its data and takes the result back. -/
theorem forms_agree_five : 1 ≤ 5 ∧ 5 < 2 ^ 31 ∧ extraRanks 5 = 1 ∧ FormsAgree 5 := by
  have hextra : extraRanks 5 = 1 := by
    rw [extraRanks, adjsize_eq (by decide) (by decide)]
    decide
  exact ⟨by decide, by decide, hextra, (forms_agree_iff (by decide) (by decide)).2 ⟨by decide, by decide⟩⟩

/-- One process, one byte in `rbuf`: the copy reads from `LC_COL_IN_PLACE`. -/
theorem in_place_alone_faults :
    lcIalreduce 1 0 true 1 (fun a _ => a) (fun _ => [7]) ⟨false, 0, true, true, fun a _ => a, [], 0, 0⟩ = none ∧
      ¬ FormsAgree 1 :=
  ⟨lcIalreduce_alone _ _ _ _ _, fun h => h.ne_one rfl⟩

end Lci.Coll
