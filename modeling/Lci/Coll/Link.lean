/-
The two accounts of `lc_col_progress` agree. `Coll.Engine` has the ranks of a job with their buffers and messages,
`Coll.Progress` one request and the order of what happens to it; between two calls of a rank, what `Coll.Engine` lets
happen to it is a run of `Coll.Progress` on the schedule of the call. A send that does not wait is there an `lc_send`
and its completion, and what only moves messages is no step at all.
-/
import Lci.Coll.Allreduce
import Lci.Coll.Barrier
import Lci.Coll.Progress

namespace Lci.Coll

variable {P : Nat}

/-! ## A rank as an engine -/

/-- An operation as `lc_col_send` and so on store it: with the addresses of its buffers, and with the size, tag and
endpoint that the operations of a request share. -/
def ColSched.stored (addr : Buf → Nat) (ep size tag : Nat) : ColSched → Progress.LcColSched
  | .send src rank => .send (addr src) size rank tag ep
  | .recv src rank => .recv (addr src) size rank tag ep
  | .sendrecv src dst rank => .sendrecv (addr src) (addr dst) size rank tag ep
  | .op dst src => .op (addr dst) (addr src) size
  | .mem dst src => .mem (addr dst) (addr src) size
  | .free src => .free (addr src)

def ColReq.stored (addr : Buf → Nat) (ep : Nat) (req : ColReq) : Progress.LcColreq where
  flag := req.flag
  cur := req.cur
  sync0 := req.sync0
  sync1 := req.sync1
  next := req.next.map (ColSched.stored addr ep req.size req.tag)

def Pc.point : Pc → Progress.Pc
  | .idle => .idle
  | .loop => .loop
  | .post _ _ => .posting
  | .test => .test

/-- What is pending at a rank belongs to the operation that it started last. -/
def Rank.engine (addr : Buf → Nat) (ep : Nat) (x : Rank) (hist : List Progress.Event) : Progress.St where
  req := x.req.stored addr ep
  pc := x.pc.point
  send := if x.send = .idle then none else some (x.req.cur - 1)
  recv := x.recv.map fun v => (x.req.cur - 1, v.second)
  hist := hist

/-- `x` becomes `y` without a call, and the engine takes it there, whatever has happened before. -/
structure Rank.Runs (addr : Buf → Nat) (ep : Nat) (x y : Rank) : Prop where
  calls : y.calls = x.calls
  run : ∀ hist, ∃ hist', Relation.ReflTransGen Progress.Step (x.engine addr ep hist) (y.engine addr ep hist')

variable {addr : Buf → Nat} {ep : Nat} {x y : Rank}

theorem Rank.Runs.of_eq (hc : y.calls = x.calls) (h : ∀ hist, x.engine addr ep hist = y.engine addr ep hist) :
    x.Runs addr ep y :=
  ⟨hc, fun hist => ⟨hist, h hist ▸ .refl⟩⟩

theorem Rank.Runs.refl (x : Rank) : x.Runs addr ep x := .of_eq rfl fun _ => rfl

theorem Rank.Runs.single (hc : y.calls = x.calls)
    (h : ∀ hist, ∃ hist', Progress.Step (x.engine addr ep hist) (y.engine addr ep hist')) : x.Runs addr ep y := by
  refine ⟨hc, fun hist => ?_⟩
  obtain ⟨hist', hs⟩ := h hist
  exact ⟨hist', .single hs⟩

/-! ## The steps of a rank -/

/-- The test at the entry and the test after an operation. -/
theorem Rank.runs_check (hp : x.pc = .idle ∨ x.pc = .test) :
    x.Runs addr ep { x with pc := if x.req.done then .loop else .idle } := by
  refine .single rfl fun hist => ⟨hist, ?_⟩
  have hpc : (if x.req.done then Pc.loop else Pc.idle).point = if x.req.done then .loop else .idle := by
    split <;> rfl
  have heq : ({ x with pc := if x.req.done then .loop else .idle } : Rank).engine addr ep hist =
      { x.engine addr ep hist with pc := if (x.engine addr ep hist).req.done then .loop else .idle } := by
    unfold Rank.engine
    rw [hpc]
    rfl
  rw [heq]
  rcases hp with hp | hp
  · exact .poll (by simp [Rank.engine, hp, Pc.point])
  · exact .test (by simp [Rank.engine, hp, Pc.point])

theorem Rank.runs_fin (hp : x.pc = .loop) (ho : x.req.next.length ≤ x.req.cur) :
    x.Runs addr ep { x with pc := .idle, req := { x.req with flag := true } } := by
  refine .single rfl fun hist => ⟨hist, ?_⟩
  exact .fin (s := x.engine addr ep hist) (by simp [Rank.engine, hp, Pc.point]) (by simpa [Rank.engine, ColReq.stored])

/-- The `lc_recv` of an exchange. -/
theorem Rank.runs_post {dst : Buf} {k : Nat} (hp : x.pc = .post dst k) :
    x.Runs addr ep { x.lcRecv true dst k with pc := .test } := by
  refine .single rfl fun hist => ⟨hist, ?_⟩
  exact .post (s := x.engine addr ep hist) (by simp [Rank.engine, hp, Pc.point])

theorem Rank.runs_land {v : Recv} (hv : x.recv = some v) (a : Bytes) : x.Runs addr ep (x.land v a) := by
  refine .single rfl fun hist => ⟨hist ++ [.received (x.req.cur - 1)], ?_⟩
  exact .recvDone (s := x.engine addr ep hist) (x.req.cur - 1) v.second (by simp [Rank.engine, hv])

theorem Rank.runs_ack (hs : x.send = .acked) :
    x.Runs addr ep { x with send := .idle, req := { x.req with sync0 := true } } := by
  refine .single rfl fun hist => ⟨hist ++ [.sent (x.req.cur - 1)], ?_⟩
  exact .sendDone (s := x.engine addr ep hist) (x.req.cur - 1) (by simp [Rank.engine, hs])

/-- A send that has been accepted is pending, or its callback has run. -/
theorem Rank.runs_sent {op : Progress.LcColSched} {t : Progress.St} {hist : List Progress.Event} (sync : Bool)
    (hr : Relation.ReflTransGen Progress.Step (x.engine addr ep hist) t) (hp : t.pc = .sending op)
    (hw : sync = true → ∃ hist', y.engine addr ep hist' =
      { t with send := some (t.req.cur - 1), pc := if op.second then .posting else .test })
    (hd : sync = false → ∃ hist', y.engine addr ep hist' =
      { t with
        send := none
        pc := if op.second then .posting else .test
        req := { t.req with sync0 := true }
        hist := t.hist ++ [.sent (t.req.cur - 1)] }) :
    ∃ hist', Relation.ReflTransGen Progress.Step (x.engine addr ep hist) (y.engine addr ep hist') := by
  have hsend := hr.tail (.send op hp)
  cases sync with
  | true =>
    obtain ⟨hist', he⟩ := hw rfl
    exact ⟨hist', he ▸ hsend⟩
  | false =>
    obtain ⟨hist', he⟩ := hd rfl
    exact ⟨hist', he ▸ hsend.tail (.sendDone _ rfl)⟩

/-- The body of the loop. A send that does not wait completes inside of `lc_send`. -/
theorem Rank.runs_next {op : ColSched} (hp : x.pc = .loop) (hr : x.recv = none) (hi : x.send = .idle)
    (ho : x.req.next[x.req.cur]? = some op) (sync : Bool) : x.Runs addr ep (x.next op sync) := by
  refine ⟨x.next_calls op sync, fun hist => ?_⟩
  obtain ⟨calls, pc, req, mem, recv, send⟩ := x
  simp only at hp hr hi ho
  subst hp hr hi
  have hop : (req.stored addr ep).next[(req.stored addr ep).cur]? = some (op.stored addr ep req.size req.tag) := by
    simp [ColReq.stored, ho]
  have hstart : Relation.ReflTransGen Progress.Step
      (Rank.engine addr ep ⟨calls, .loop, req, mem, none, .idle⟩ hist) _ := .single (.next _ rfl hop)
  cases op with
  | send src k =>
    refine Rank.runs_sent sync hstart rfl ?_ ?_ <;> rintro rfl <;> exact ⟨_, rfl⟩
  | sendrecv src dst k =>
    refine Rank.runs_sent sync hstart rfl ?_ ?_ <;> rintro rfl <;> exact ⟨_, rfl⟩
  | recv dst k => exact ⟨_, hstart⟩
  | op dst src => exact ⟨_, hstart⟩
  | mem dst src => exact ⟨_, hstart⟩
  | free src => exact ⟨_, hstart⟩

/-! ## The steps of a job -/

section Job

variable {K : Collective P} {start : Start P} {mayWait : Nat → Bool} {s s' : State P}

theorem State.runs_set {r : Fin P} {x : Rank} (hx : (s.rank r).Runs addr ep x) (k : Fin P) :
    (s.rank k).Runs addr ep ((s.set r x).rank k) := by
  rw [State.set_rank]
  split
  · rename_i e
    exact e ▸ hx
  · exact .refl _

/-- A message that meets its receive is seen by neither rank, until the receive lands and the send is acknowledged. -/
theorem State.runs_meet (hw : SyncWaits s) {i j : Fin P} {v : Recv} {m : Msg} {pre rest : List Msg}
    (hm : s.Meets i j v m pre rest) (k : Fin P) :
    (s.rank k).Runs addr ep ((s.meet i j v m (pre ++ rest)).rank k) := by
  refine .of_eq rfl fun hist => ?_
  have hrecv : ((s.meet i j v m (pre ++ rest)).rank k).recv.map Recv.second = (s.rank k).recv.map Recv.second := by
    simp only [State.meet]
    split
    · rename_i e
      rw [e, hm.posted]
      rfl
    · rfl
  have hsend : (((s.meet i j v m (pre ++ rest)).rank k).send = .idle) = ((s.rank k).send = .idle) := by
    simp only [State.meet]
    split
    · rename_i e
      have := hw i j m (by rw [hm.chan]; simp) e.2
      rw [e.1, this]
      simp
    · rfl
  have hpair : ∀ x : Rank, (x.recv.map fun v => (x.req.cur - 1, v.second)) =
      (x.recv.map Recv.second).map fun second => (x.req.cur - 1, second) := by
    intro x
    rw [Option.map_map]
    rfl
  unfold Rank.engine
  simp only [hpair, hrecv, hsend]
  rfl

/-- A step of the job is a run of the engine of rank `r`, or `r` calls, having nothing pending. -/
theorem Step.runs (hst : K.Starts start) (h : JobInv K s) (hw : SyncWaits s) (hs : Step start mayWait s s')
    (r : Fin P) :
    (s.rank r).Runs addr ep (s'.rank r) ∨
      ∃ m req, K.Begins (s.rank r).calls r req ∧ (s.rank r).recv = none ∧ (s.rank r).send = .idle ∧
        s'.rank r = { s.rank r with
          calls := (s.rank r).calls + 1, pc := if req.flag then .idle else .loop, req, mem := m } := by
  cases hs with
  | call k m req hp hf hk =>
    by_cases e : r = k
    · subst e
      obtain ⟨hr, hi⟩ := (h.rank r).quiet_of_call hf
      obtain ⟨req', hk', hb⟩ := hst (s.rank r).calls r (s.rank r).mem (s.rank r).req
      obtain ⟨-, rfl⟩ := Prod.mk.inj (Option.some.inj (hk'.symm.trans hk))
      exact .inr ⟨m, req', hb, hr, hi, by rw [State.set_rank, if_pos rfl]⟩
    · rw [State.set_rank, if_neg e]
      exact .inl (.refl _)
  | poll k hp _ => exact .inl (State.runs_set (Rank.runs_check (.inl hp)) r)
  | next k op sync hp ho _ _ =>
    obtain ⟨hr, hi⟩ := (h.rank k).loop hp
    exact .inl (State.runs_set (Rank.runs_next hp hr hi ho sync) r)
  | fin k hp ho => exact .inl (State.runs_set (Rank.runs_fin hp ho) r)
  | post k dst l hp => exact .inl (State.runs_set (Rank.runs_post hp) r)
  | test k hp => exact .inl (State.runs_set (Rank.runs_check (.inr hp)) r)
  | meet i j v m pre rest hm => exact .inl (State.runs_meet hw hm r)
  | land j v a hv hg => exact .inl (State.runs_set (Rank.runs_land hv a) r)
  | ack i hi => exact .inl (State.runs_set (Rank.runs_ack hi) r)

end Job

/-! ## The runs of a job -/

section Runs

variable {K : Collective P} {start : Start P} {mayWait : Nat → Bool} {s₀ s : State P}

/-- What the engine of a rank has been through since its last call: the schedule of the collective, from its start. -/
def Called (addr : Buf → Nat) (ep : Nat) (K : Collective P) (r : Fin P) (x : Rank) : Prop :=
  ∃ hist, ∀ req, Relation.ReflTransGen Progress.Step
    (.start req ((K.sched r).map (ColSched.stored addr ep (K.size (x.calls - 1)) K.tag))) (x.engine addr ep hist)

/-- A rank that has just called polls once. -/
theorem Collective.Begins.called {c : Nat} {r : Fin P} {req : ColReq} (hb : K.Begins c r req) {m : Mem}
    (hr : x.recv = none) (hi : x.send = .idle) :
    Called addr ep K r { x with calls := c + 1, pc := if req.flag then .idle else .loop, req, mem := m } := by
  refine ⟨[], fun req' => .single ?_⟩
  have hstart := Progress.Step.poll
    (s := .start req' ((K.sched r).map (ColSched.stored addr ep (K.size c) K.tag))) (by rw [Progress.St.start_eq])
  rw [Progress.St.start_eq] at hstart ⊢
  have he : Rank.engine addr ep
      { x with calls := c + 1, pc := if req.flag then .idle else .loop, req, mem := m } [] =
      ⟨⟨false, 0, true, true, (K.sched r).map (ColSched.stored addr ep (K.size c) K.tag)⟩, .loop, none, none, []⟩ := by
    simp [Rank.engine, ColReq.stored, hr, hi, hb.flag, hb.cur, hb.sync0, hb.sync1, hb.next, hb.size, hb.tag, Pc.point]
  rw [he]
  exact hstart

theorem Step.called {s' : State P} (hst : K.Starts start) (h : JobInv K s) (hw : SyncWaits s)
    (hs : Step start mayWait s s') {r : Fin P} (hr : (s.rank r).calls ≠ 0 → Called addr ep K r (s.rank r))
    (hc : (s'.rank r).calls ≠ 0) : Called addr ep K r (s'.rank r) := by
  have hx : (s.rank r).Runs addr ep (s'.rank r) ∨ _ := hs.runs hst h hw r
  rcases hx with hx | ⟨m, req, hb, hrecv, hsend, he⟩
  · obtain ⟨hist, hrun⟩ := hr (hx.calls ▸ hc)
    obtain ⟨hist', hrun'⟩ := hx.run hist
    exact ⟨hist', fun req => (hx.calls ▸ hrun req).trans hrun'⟩
  · rw [he]
    exact hb.called hrecv hsend

/-- In every state of a job, a rank that has called is where a run of `lc_col_progress` on its schedule has come to. -/
theorem Reachable.called (hst : K.Starts start)
    (hinv : ∀ s, Reachable start mayWait s₀ s → JobInv K s ∧ SyncWaits s) (hr : Reachable start mayWait s₀ s)
    (r : Fin P) (hc : (s.rank r).calls ≠ 0) : Called addr ep K r (s.rank r) := by
  obtain ⟨hinit, hrun⟩ := hr
  induction hrun with
  | refl => exact absurd (hinit.calls r) hc
  | tail hrun hs ih =>
    obtain ⟨hj, hw⟩ := hinv _ ⟨hinit, hrun⟩
    exact hs.called hst hj hw ih hc

/-- So the operations that a rank has started are those of its schedule in order, none before the communication of those
before it had completed, and when its flag is 1 all are done. -/
theorem Called.in_order {r : Fin P} {x : Rank} (h : Called addr ep K r x) :
    ∃ hist, Progress.starts hist = (((K.sched r).map
          (ColSched.stored addr ep (K.size (x.calls - 1)) K.tag)).take x.req.cur).zipIdx ∧
      Progress.InOrder ((K.sched r).map (ColSched.stored addr ep (K.size (x.calls - 1)) K.tag)) hist ∧
      (x.req.flag = true → Progress.AllDone (x.engine addr ep hist)) := by
  obtain ⟨hist, hrun⟩ := h
  have hinv := Progress.Inv.run (hrun ⟨false, 0, false, false, []⟩)
  exact ⟨hist, hinv.book.starts_eq, hinv.book.order, hinv.allDone_of_flag⟩

end Runs

/-! ## Allreduce and barrier -/

section Collectives

variable {s₀ s : State P}

theorem Workload.called (w : Workload P) (h2 : 2 ≤ P) (hP : P < 2 ^ 30) {mayWait : Nat → Bool}
    (hr : Reachable w.start mayWait s₀ s) (r : Fin P) (hc : (s.rank r).calls ≠ 0) :
    Called addr ep (w.collective (Nat.zero_lt_of_lt h2) hP) r (s.rank r) := by
  refine hr.called (w.starts h2 hP) (fun t ht => ?_) r hc
  obtain ⟨hj, hn⟩ := w.reach_inv h2 hP ht
  exact ⟨hj, syncWaits_of_inv hn⟩

theorem barriers_called (hr : Reachable (barrierStart P) lcSendWaits s₀ s) (r : Fin P) (hc : (s.rank r).calls ≠ 0) :
    Called addr ep (barriers P) r (s.rank r) := by
  refine hr.called barriers_starts (fun t ht => ?_) r hc
  obtain ⟨hj, _, hn⟩ := barriers_reach ht
  exact ⟨hj, syncWaits_of_inv hn⟩

end Collectives

end Lci.Coll
