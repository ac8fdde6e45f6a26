/-
Allreduces that are outstanding at the same time (coll/ialreduce.h, coll/common.h). Each rank drives
the requests of several operations in an order of its own. All of them use one endpoint and one tag:
a message from a rank meets the oldest receive posted for that rank and tag, whatever operation posted
it. As long as every two ranks send and post in the same order of operations, each operation runs as if
it were alone (`Job.Inv.alone`).
-/
import Lci.Coll.Allreduce

namespace Lci.Coll

open Butterfly (foldAll)

variable {P : Nat}

/-! ## Requests that share an endpoint -/

/-- The k-th operation of a workload, called alone. -/
def Workload.only (w : Workload P) (k : Nat) : Workload P where
  count _ := w.count k
  op _ := w.op k
  inPlace _ := w.inPlace k
  sbuf _ := w.sbuf k
  rbuf _ := w.rbuf k

/-- A receive in the table of a rank: its operation, its place in the schedule, and its tag. -/
structure Post where
  op : Nat
  idx : Nat
  tag : Nat

/-- The requests of each rank, one for each operation; the messages from each rank to each, with their
operations; and the receives that the second rank has posted for the first, oldest first. `sends`,
`recvs` and `met` record what was sent, posted and met so far, as operations and places in schedules;
no step looks at them. -/
structure Job (P : Nat) where
  rank : Fin P → Nat → Rank
  chan : Fin P → Fin P → List (Nat × Msg)
  posted : Fin P → Fin P → List Post
  sends : Fin P → Fin P → List (Nat × Nat)
  recvs : Fin P → Fin P → List (Nat × Nat)
  met : Fin P → Fin P → List ((Nat × Nat) × (Nat × Nat))

/-- The messages of one operation. -/
def ofOp (k : Nat) (l : List (Nat × Msg)) : List Msg := l.filterMap fun x => if x.1 = k then some x.2 else none

/-- What one operation sees of the job. -/
def Job.proj (s : Job P) (k : Nat) : State P where
  rank r := s.rank r k
  chan i j := ofOp k (s.chan i j)

/-- The messages that operation `k` sends from `i` to `j` when it goes on to `t`. -/
def Job.news (s : Job P) (k : Nat) (t : State P) (i j : Fin P) : List Msg :=
  (t.chan i j).drop (ofOp k (s.chan i j)).length

/-- The receive that operation `k` posts at `j` for `i` when it goes on to `t`. -/
def Job.posts (s : Job P) (k : Nat) (t : State P) (i j : Fin P) : List Post :=
  match (s.rank j k).recv, (t.rank j).recv with
  | none, some v => if v.rank = i.val then [⟨k, (t.rank j).req.cur - 1, v.tag⟩] else []
  | _, _ => []

/-- Operation `k` goes on to `t`; what it sends and posts comes after what is there. -/
def Job.put (s : Job P) (k : Nat) (t : State P) : Job P where
  rank r c := if c = k then t.rank r else s.rank r c
  chan i j := s.chan i j ++ (s.news k t i j).map (k, ·)
  posted i j := s.posted i j ++ s.posts k t i j
  sends i j := s.sends i j ++ (s.news k t i j).map fun m => (k, m.idx)
  recvs i j := s.recvs i j ++ (s.posts k t i j).map fun p => (p.op, p.idx)
  met := s.met

/-- Message `m` of operation `k` meets the receive `p`, whose request holds it as `v`. -/
def Job.meet (s : Job P) (i j : Fin P) (p : Post) (v : Recv) (k : Nat) (m : Msg) (posted : List Post)
    (chan : List (Nat × Msg)) : Job P where
  rank r c :=
    { s.rank r c with
      recv := if r = j ∧ c = p.op then
        some { v with got := some (if m.sync then (s.rank i k).mem m.src else m.val) } else (s.rank r c).recv
      send := if (r = i ∧ c = k) ∧ m.sync = true then .acked else (s.rank r c).send }
  chan a b := if a = i ∧ b = j then chan else s.chan a b
  posted a b := if a = i ∧ b = j then posted else s.posted a b
  sends := s.sends
  recvs := s.recvs
  met a b := if a = i ∧ b = j then s.met i j ++ [((k, m.idx), (p.op, p.idx))] else s.met a b

/-- The oldest message of its tag on its way from `i` to `j`, and the oldest receive posted at `j` for
`i` and that tag. -/
structure Job.Meets (s : Job P) (i j : Fin P) (p : Post) (v : Recv) (k : Nat) (m : Msg) (newer older : List Post)
    (pre rest : List (Nat × Msg)) : Prop where
  recv : (s.rank j p.op).recv = some v
  posted : s.posted i j = older ++ p :: newer
  first : ∀ p' ∈ older, p'.tag ≠ p.tag
  chan : s.chan i j = pre ++ (k, m) :: rest
  tag : m.tag = p.tag
  oldest : ∀ x ∈ pre, x.2.tag ≠ p.tag

/-- Rank `r` may call operation `k`: it has called the ones before, and their calls have returned. -/
def Job.MayCall (s : Job P) (k : Nat) (r : Fin P) : Prop :=
  (s.rank r k).calls = 0 ∧ ∀ l < k, (s.rank r l).calls ≠ 0 ∧ (s.rank r l).pc = .idle

/-- A step of the job: one of its operations does a step that takes nothing from a channel, or a message
and a receive meet. -/
inductive Job.Step (w : Workload P) (mayWait : Nat → Bool) (s : Job P) : Job P → Prop
  | own (k : Nat) (t : State P) (ht : Coll.Step (w.only k).start mayWait (s.proj k) t)
      (hchan : ∀ i j, (s.proj k).chan i j <+: t.chan i j)
      (hcall : ∀ r, (t.rank r).calls ≠ (s.rank r k).calls → s.MayCall k r) : Step w mayWait s (s.put k t)
  | meet (i j : Fin P) (p : Post) (v : Recv) (k : Nat) (m : Msg) (newer older : List Post)
      (pre rest : List (Nat × Msg)) (hm : s.Meets i j p v k m newer older pre rest) :
      Step w mayWait s (s.meet i j p v k m (older ++ newer) (pre ++ rest))

/-- Ranks that have called nothing yet. -/
structure Job.Initial (s : Job P) : Prop where
  op : ∀ k, Coll.Initial (s.proj k)
  chan : ∀ i j, s.chan i j = []
  posted : ∀ i j, s.posted i j = []
  sends : ∀ i j, s.sends i j = []
  recvs : ∀ i j, s.recvs i j = []
  met : ∀ i j, s.met i j = []

def Job.Reachable (w : Workload P) (mayWait : Nat → Bool) (s₀ s : Job P) : Prop :=
  s₀.Initial ∧ Relation.ReflTransGen (Job.Step w mayWait) s₀ s

/-- The n-th message from `i` to `j` and the n-th receive that `j` posts for `i` are of one operation. -/
def Job.InOrder (s : Job P) : Prop :=
  ∀ i j (n : Nat) (x y : Nat × Nat), (s.sends i j)[n]? = some x → (s.recvs i j)[n]? = some y → x.1 = y.1

/-- The label that a place in the schedule of a rank has in its plan: its round. -/
def roundOf (P r idx : Nat) : Option Nat := ((planOps P r)[idx]?).map Prod.fst

/-! ## One operation of the job -/

@[simp] theorem ofOp_append (k : Nat) (l l' : List (Nat × Msg)) : ofOp k (l ++ l') = ofOp k l ++ ofOp k l' :=
  List.filterMap_append

theorem ofOp_cons (k c : Nat) (m : Msg) (l : List (Nat × Msg)) :
    ofOp k ((c, m) :: l) = if c = k then m :: ofOp k l else ofOp k l := by
  unfold ofOp
  rw [List.filterMap_cons]
  split <;> rename_i h <;> split at h <;> simp_all

theorem ofOp_map (k c : Nat) (l : List Msg) : ofOp k (l.map (c, ·)) = if c = k then l else [] := by
  induction l with
  | nil => simp [ofOp]
  | cons m l ih =>
    rw [List.map_cons, ofOp_cons, ih]
    split <;> rfl

theorem mem_ofOp {k : Nat} {m : Msg} {l : List (Nat × Msg)} : m ∈ ofOp k l ↔ (k, m) ∈ l := by
  simp only [ofOp, List.mem_filterMap]
  constructor
  · rintro ⟨⟨c, m'⟩, hx, he⟩
    split at he
    · rename_i hc
      cases he
      exact hc ▸ hx
    · cases he
  · intro h
    exact ⟨(k, m), h, if_pos rfl⟩

theorem Job.proj_put_self {s : Job P} {k : Nat} {t : State P}
    (hchan : ∀ i j, (s.proj k).chan i j <+: t.chan i j) : (s.put k t).proj k = t := by
  have hc : ((s.put k t).proj k).chan = t.chan := by
    funext i j
    simp only [Job.proj, Job.put, ofOp_append, ofOp_map, if_true, Job.news]
    exact List.prefix_append_drop (hchan i j) |>.symm
  have hr : ((s.put k t).proj k).rank = t.rank := by
    funext r
    simp [Job.proj, Job.put]
  rcases t with ⟨rank, chan⟩
  simp only [Job.proj, State.mk.injEq] at *
  exact ⟨hr, hc⟩

theorem Job.proj_put_ne {s : Job P} {k c : Nat} {t : State P} (h : c ≠ k) : (s.put k t).proj c = s.proj c := by
  simp only [Job.proj, Job.put, ofOp_append, ofOp_map, if_neg h, if_neg (Ne.symm h), List.append_nil]

/-- What a step that takes nothing from a channel does to the receive of a rank: nothing, it posts one, or
it completes one that has its message. -/
theorem Step.recv_cases {K : Collective P} {start : Start P} {mayWait : Nat → Bool} {s t : State P}
    (hj : JobInv K s) (ht : Step start mayWait s t) (hchan : ∀ i j, s.chan i j <+: t.chan i j) (r : Fin P) :
    (t.rank r).recv = (s.rank r).recv ∨
    ((s.rank r).recv = none ∧ ∃ v, (t.rank r).recv = some v ∧ v.got = none) ∨
    (∃ v, (s.rank r).recv = some v ∧ v.got ≠ none ∧ (t.rank r).recv = none) := by
  -- a rank that is set to `x` is the only one that changes
  have hset : ∀ (a : Fin P) (x : Rank), (r = a → x.recv = (s.rank a).recv ∨
      ((s.rank a).recv = none ∧ ∃ v, x.recv = some v ∧ v.got = none) ∨
      (∃ v, (s.rank a).recv = some v ∧ v.got ≠ none ∧ x.recv = none)) →
      ((s.set a x).rank r).recv = (s.rank r).recv ∨
      ((s.rank r).recv = none ∧ ∃ v, ((s.set a x).rank r).recv = some v ∧ v.got = none) ∨
      (∃ v, (s.rank r).recv = some v ∧ v.got ≠ none ∧ ((s.set a x).rank r).recv = none) := by
    intro a x h
    rw [State.set_rank]
    split
    · rename_i e
      subst e
      exact h rfl
    · exact .inl rfl
  cases ht with
  | call a m req hp hf hs => exact hset a _ fun _ => .inl rfl
  | poll a hp hc => exact hset a _ fun _ => .inl rfl
  | next a op sync hp ho ht hs =>
    have hnone := ((hj.rank a).loop hp).1
    refine hset a ((s.rank a).next op sync) fun _ => ?_
    cases op with
    | recv src rank => exact .inr (.inl ⟨hnone, _, rfl, rfl⟩)
    | _ => exact .inl rfl
  | fin a hp ho => exact hset a _ fun _ => .inl rfl
  | post a dst k hp => exact hset a _ fun _ => .inr (.inl ⟨((hj.rank a).post dst k hp).1, _, rfl, rfl⟩)
  | test a hp => exact hset a _ fun _ => .inl rfl
  | meet i j v m pre rest hm =>
    have hlen := (hchan i j).length_le
    simp only [State.meet, and_self, if_true, hm.chan, List.length_append, List.length_cons] at hlen
    omega
  | land a v b hv hg => exact hset a _ fun _ => .inr (.inr ⟨v, hv, by simp [hg], rfl⟩)
  | ack a hs => exact hset a _ fun _ => .inl rfl

/-- A step is at most one call of each rank. -/
theorem Step.calls_le {start : Start P} {mayWait : Nat → Bool} {s t : State P} (ht : Step start mayWait s t)
    (r : Fin P) : (t.rank r).calls ≤ (s.rank r).calls + 1 := by
  have hset : ∀ (a : Fin P) (x : Rank), x.calls ≤ (s.rank a).calls + 1 →
      ((s.set a x).rank r).calls ≤ (s.rank r).calls + 1 := by
    intro a x h
    rw [State.set_rank]
    split
    · rename_i e
      rw [e]
      exact h
    · exact Nat.le_succ _
  cases ht with
  | call a m req hp hf hs => exact hset a _ le_rfl
  | poll a hp hc => exact hset a _ (Nat.le_succ _)
  | next a op sync hp ho ht hs =>
    exact hset a ((s.rank a).next op sync) ((Rank.next_calls _ _ _).trans_le (Nat.le_succ _))
  | fin a hp ho => exact hset a _ (Nat.le_succ _)
  | post a dst k hp => exact hset a _ (Nat.le_succ _)
  | test a hp => exact hset a _ (Nat.le_succ _)
  | meet i j v m pre rest hm => exact Nat.le_succ _
  | land a v b hv hg => exact hset a _ (Nat.le_succ _)
  | ack a hs => exact hset a _ (Nat.le_succ _)

/-- A step takes a message from a channel only where it meets its receive. -/
theorem Step.prefix_or_meets {start : Start P} {mayWait : Nat → Bool} {s t : State P} (ht : Step start mayWait s t) :
    (∀ i j, s.chan i j <+: t.chan i j) ∨
      ∃ i j v m pre rest, s.Meets i j v m pre rest ∧ t.chan i j = pre ++ rest := by
  cases ht with
  | next a op sync hp ho ht hs => exact .inl fun i j => List.prefix_append _ _
  | meet i j v m pre rest hm => exact .inr ⟨i, j, v, m, pre, rest, hm, if_pos ⟨rfl, rfl⟩⟩
  | _ => exact .inl fun i j => List.prefix_rfl

theorem Job.posts_cases (s : Job P) (k : Nat) (t : State P) (i j : Fin P) :
    (s.posts k t i j = [] ∧ ∀ v, (s.rank j k).recv = none → (t.rank j).recv = some v → v.rank ≠ i.val) ∨
    ∃ v, (s.rank j k).recv = none ∧ (t.rank j).recv = some v ∧ v.rank = i.val ∧
      s.posts k t i j = [⟨k, (t.rank j).req.cur - 1, v.tag⟩] := by
  unfold Job.posts
  split
  · rename_i v hs ht
    split
    · rename_i hi
      exact .inr ⟨v, hs, ht, hi, rfl⟩
    · rename_i hi
      refine .inl ⟨rfl, fun v' _ hv' => ?_⟩
      rw [ht] at hv'
      cases hv'
      exact hi
  · rename_i h
    exact .inl ⟨rfl, fun v hs ht => absurd ht (h v hs)⟩

/-! ## The invariant -/

/-- What holds of a job whose ranks send and post in the same order of operations: each operation has
reached its state alone; the receives in the table are those that wait for their messages; and the
messages and receives have met in order. -/
structure Job.Inv (w : Workload P) (mayWait : Nat → Bool) (s₀ s : Job P) : Prop where
  alone : ∀ k, Coll.Reachable (w.only k).start mayWait (s₀.proj k) (s.proj k)
  calls : ∀ r k, (s.rank r k).calls ≤ 1
  posted : ∀ i j, ∀ p ∈ s.posted i j,
    ∃ v, (s.rank j p.op).recv = some v ∧ v.got = none ∧ v.rank = i.val ∧ v.tag = p.tag
  waits : ∀ (i : Fin P) j k v, (s.rank j k).recv = some v → v.got = none → v.rank = i.val →
    ∃ p ∈ s.posted i j, p.op = k
  once : ∀ i j, ((s.posted i j).map Post.op).Nodup
  sends : ∀ i j, s.sends i j = (s.met i j).map Prod.fst ++ (s.chan i j).map fun x => (x.1, x.2.idx)
  recvs : ∀ i j, s.recvs i j = (s.met i j).map Prod.snd ++ (s.posted i j).map fun p => (p.op, p.idx)
  sendsTo : ∀ i j, ∀ x ∈ s.sends i j, ∃ op, (allreduceSched P i)[x.2]? = some op ∧ op.sendsTo j
  recvsFrom : ∀ i j, ∀ x ∈ s.recvs i j, ∃ op, (allreduceSched P j)[x.2]? = some op ∧ op.recvsFrom i

theorem Job.Initial.inv {w : Workload P} {mayWait : Nat → Bool} {s₀ : Job P} (h : s₀.Initial) :
    Job.Inv w mayWait s₀ s₀ where
  alone k := ⟨h.op k, .refl⟩
  calls r k := by
    have : (s₀.rank r k).calls = 0 := (h.op k).calls r
    omega
  posted i j p hp := by rw [h.posted] at hp; cases hp
  waits i j k v hv _ _ := by
    have : (s₀.rank j k).recv = none := (h.op k).recv j
    rw [this] at hv
    cases hv
  once i j := by simp [h.posted]
  sends i j := by simp [h.sends, h.met, h.chan]
  recvs i j := by simp [h.recvs, h.met, h.posted]
  sendsTo i j x hx := by rw [h.sends] at hx; cases hx
  recvsFrom i j x hx := by rw [h.recvs] at hx; cases hx

theorem RankInv.recvsFrom {K : Collective P} {r : Fin P} {x : Rank} (h : RankInv K r x) {v : Recv}
    (hv : x.recv = some v) : ∃ op, (K.sched r)[x.req.cur - 1]? = some op ∧ op.recvsFrom v.rank := by
  obtain ⟨-, -, hop⟩ := h.recv v hv
  split at hop
  · obtain ⟨src, ho⟩ := hop
    exact ⟨_, ho, v.dst, rfl⟩
  · exact ⟨_, hop, v.dst, rfl⟩

section Steps

variable {w : Workload P} {mayWait : Nat → Bool} {s₀ s : Job P} (h2 : 2 ≤ P) (hP : P < 2 ^ 30)

include h2 hP

theorem Job.Inv.jobInv (h : Job.Inv w mayWait s₀ s) (k : Nat) :
    JobInv ((w.only k).collective (Nat.lt_of_lt_of_le Nat.two_pos h2) hP) (s.proj k) :=
  ((w.only k).reach_inv h2 hP (h.alone k)).1

theorem Job.Inv.own (h : Job.Inv w mayWait s₀ s) {k : Nat} {t : State P}
    (ht : Coll.Step (w.only k).start mayWait (s.proj k) t) (hchan : ∀ i j, (s.proj k).chan i j <+: t.chan i j)
    (hcall : ∀ r, (t.rank r).calls ≠ (s.rank r k).calls → s.MayCall k r) :
    Job.Inv w mayWait s₀ (s.put k t) := by
  have hreach : Coll.Reachable (w.only k).start mayWait (s₀.proj k) t := ⟨(h.alone k).1, (h.alone k).2.tail ht⟩
  have hj := (w.only k).reach_inv h2 hP hreach |>.1
  -- the step keeps the receive of each rank, posts one, or ends one that has got its data
  have hcases := ht.recv_cases (h.jobInv h2 hP k) hchan
  have hself : ∀ r, (s.put k t).rank r k = t.rank r := fun r => if_pos rfl
  have hother : ∀ r {c}, c ≠ k → (s.put k t).rank r c = s.rank r c := fun r c hc => if_neg hc
  refine ⟨fun c => ?_, fun r c => ?_, fun i j p hp => ?_, fun i j c v hv hg hi => ?_, fun i j => ?_, fun i j => ?_,
    fun i j => ?_, fun i j x hx => ?_, fun i j x hx => ?_⟩
  · by_cases hc : c = k
    · subst hc
      rw [Job.proj_put_self hchan]
      exact hreach
    · rw [Job.proj_put_ne hc]
      exact h.alone c
  · by_cases hc : c = k
    · subst hc
      rw [hself]
      have hle : (t.rank r).calls ≤ (s.rank r c).calls + 1 := ht.calls_le r
      by_cases he : (t.rank r).calls = (s.rank r c).calls
      · rw [he]
        exact h.calls r c
      · -- a rank that calls the operation had not called it before
        rw [(hcall r he).1] at hle
        exact hle
    · rw [hother r hc]
      exact h.calls r c
  · rcases List.mem_append.1 hp with hp | hp
    · obtain ⟨v, hv, hg, hrest⟩ := h.posted i j p hp
      by_cases hc : p.op = k
      · rw [hc] at hv ⊢
        rw [hself]
        rcases hcases j with e | ⟨e, -⟩ | ⟨v', hv', hg', -⟩
        · exact ⟨v, e.trans hv, hg, hrest⟩
        · exact absurd (e.symm.trans hv) (by simp)
        · cases hv'.symm.trans hv
          exact absurd hg hg'
      · rw [hother j hc]
        exact ⟨v, hv, hg, hrest⟩
    · -- the post of this step: the rank had no receive of this operation before
      rcases s.posts_cases k t i j with ⟨e, -⟩ | ⟨v, hs, hv, hi, e⟩
      · rw [e] at hp; cases hp
      · rw [e, List.mem_singleton] at hp
        subst hp
        rw [hself]
        refine ⟨v, hv, ?_, hi, rfl⟩
        rcases hcases j with e' | ⟨-, v', hv', hg'⟩ | ⟨v', hv', -⟩
        · exact absurd ((e'.symm.trans hv).symm.trans hs) (by simp)
        · cases hv'.symm.trans hv
          exact hg'
        · exact absurd (hs.symm.trans hv') (by simp)
  · by_cases hc : c = k
    · subst hc
      rw [hself] at hv
      rcases hcases j with e | ⟨e, -⟩ | ⟨-, -, -, e⟩
      · obtain ⟨p, hp, hop⟩ := h.waits i j c v (e.symm.trans hv) hg hi
        exact ⟨p, List.mem_append_left _ hp, hop⟩
      · rcases s.posts_cases c t i j with ⟨-, hno⟩ | ⟨v', -, -, -, hposts⟩
        · exact absurd hi (hno v e hv)
        · exact ⟨_, List.mem_append_right _ (hposts ▸ List.mem_singleton_self _), rfl⟩
      · exact absurd (e.symm.trans hv) (by simp)
    · rw [hother j hc] at hv
      obtain ⟨p, hp, hop⟩ := h.waits i j c v hv hg hi
      exact ⟨p, List.mem_append_left _ hp, hop⟩
  · simp only [Job.put, List.map_append]
    rcases s.posts_cases k t i j with ⟨e, -⟩ | ⟨v, hs, -, -, e⟩
    · simpa [e] using h.once i j
    · rw [e]
      refine List.nodup_append.2 ⟨h.once i j, List.nodup_singleton _, ?_⟩
      intro a ha b hb e'
      obtain ⟨p, hp, rfl⟩ := List.mem_map.1 ha
      obtain rfl : b = k := by simpa using hb
      obtain ⟨v', hv', -⟩ := h.posted i j p hp
      rw [e'] at hv'
      exact absurd (hs.symm.trans hv') (by simp)
  · simp [Job.put, h.sends i j]
  · simp [Job.put, h.recvs i j]
  · rcases List.mem_append.1 hx with hx | hx
    · exact h.sendsTo i j x hx
    · obtain ⟨m, hm, rfl⟩ := List.mem_map.1 hx
      obtain ⟨-, op, hop, htar⟩ := hj.chan i j m (List.mem_of_mem_drop hm)
      exact ⟨op, hop, m.src, htar⟩
  · rcases List.mem_append.1 hx with hx | hx
    · exact h.recvsFrom i j x hx
    · rcases s.posts_cases k t i j with ⟨e, -⟩ | ⟨v, -, hv, hi, e⟩
      · simp [e] at hx
      · obtain rfl : x = (k, (t.rank j).req.cur - 1) := by simpa [e] using hx
        rw [← hi]
        exact (hj.rank j).recvsFrom hv

/-- All messages and all receives have the tag of the allreduce. -/
theorem Job.Inv.tag_chan (h : Job.Inv w mayWait s₀ s) {i j : Fin P} {x : Nat × Msg} (hx : x ∈ s.chan i j) :
    x.2.tag = MCA_COLL_BASE_TAG_IALLREDUCE :=
  ((h.jobInv h2 hP x.1).chan i j x.2 (mem_ofOp.2 hx)).1

theorem Job.Inv.tag_posted (h : Job.Inv w mayWait s₀ s) {i j : Fin P} {p : Post} (hp : p ∈ s.posted i j) :
    p.tag = MCA_COLL_BASE_TAG_IALLREDUCE := by
  obtain ⟨v, hv, -, -, htag⟩ := h.posted i j p hp
  rw [← htag]
  exact (((h.jobInv h2 hP p.op).rank j).recv v hv).1

/-- So the oldest message and the oldest receive are the ones that meet. -/
theorem Job.Inv.meets_heads (h : Job.Inv w mayWait s₀ s) {i j : Fin P} {p : Post} {v : Recv} {k : Nat} {m : Msg}
    {newer older : List Post} {pre rest : List (Nat × Msg)} (hm : s.Meets i j p v k m newer older pre rest) :
    older = [] ∧ pre = [] := by
  have hp := h.tag_posted h2 hP (hm.posted ▸ List.mem_append_right _ List.mem_cons_self)
  constructor
  · refine List.eq_nil_iff_forall_not_mem.2 fun p' hp' => hm.first p' hp' ?_
    rw [hp, h.tag_posted h2 hP (hm.posted ▸ List.mem_append_left _ hp')]
  · refine List.eq_nil_iff_forall_not_mem.2 fun x hx => hm.oldest x hx ?_
    rw [hp, h.tag_chan h2 hP (hm.chan ▸ List.mem_append_left _ hx)]

/-- Where ranks send and post in one order, what meets is of one operation. -/
theorem Job.Inv.same_op (h : Job.Inv w mayWait s₀ s) (ho : s.InOrder) {i j : Fin P} {p : Post} {v : Recv} {k : Nat}
    {m : Msg} {newer older : List Post} {pre rest : List (Nat × Msg)}
    (hm : s.Meets i j p v k m newer older pre rest) : k = p.op := by
  obtain ⟨rfl, rfl⟩ := h.meets_heads h2 hP hm
  refine ho i j (s.met i j).length (k, m.idx) (p.op, p.idx) ?_ ?_
  · rw [h.sends, hm.chan]
    simp
  · rw [h.recvs, hm.posted]
    simp

theorem Job.Inv.meet (h : Job.Inv w mayWait s₀ s) (ho : s.InOrder) {i j : Fin P} {p : Post} {v : Recv} {k : Nat}
    {m : Msg} {newer older : List Post} {pre rest : List (Nat × Msg)}
    (hm : s.Meets i j p v k m newer older pre rest) :
    Job.Inv w mayWait s₀ (s.meet i j p v k m (older ++ newer) (pre ++ rest)) := by
  -- what meets belongs to one operation, and is the oldest on both sides
  obtain rfl := h.same_op h2 hP ho hm
  obtain ⟨rfl, rfl⟩ := h.meets_heads h2 hP hm
  have hp : p ∈ s.posted i j := hm.posted ▸ List.mem_cons_self
  obtain ⟨v', hv', hg, hi, htag⟩ := h.posted i j p hp
  cases hm.recv.symm.trans hv'
  have honce := h.once i j
  rw [hm.posted, List.nil_append, List.map_cons, List.nodup_cons] at honce
  have hrecv : ∀ r c, ¬ (r = j ∧ c = p.op) →
      ((s.meet i j p v p.op m ([] ++ newer) ([] ++ rest)).rank r c).recv = (s.rank r c).recv :=
    fun r c hn => if_neg hn
  refine ⟨fun c => ?_, fun r c => h.calls r c, fun a b q hq => ?_, fun a b c u hu hgu hau => ?_, fun a b => ?_,
    fun a b => ?_, fun a b => ?_, fun a b x hx => h.sendsTo a b x hx, fun a b x hx => h.recvsFrom a b x hx⟩
  · refine ⟨(h.alone c).1, ?_⟩
    by_cases hc : c = p.op
    · -- the operation itself takes the message
      subst hc
      have hch : (s.proj p.op).chan i j = [] ++ m :: ofOp p.op rest := by
        simp [Job.proj, hm.chan, ofOp_cons]
      have hstep : Coll.Step (w.only p.op).start mayWait (s.proj p.op) _ :=
        .meet i j v m [] (ofOp p.op rest) ⟨hm.recv, hg, hi, hch, hm.tag.trans htag.symm, by simp⟩
      have heq : (s.meet i j p v p.op m ([] ++ newer) ([] ++ rest)).proj p.op =
          (s.proj p.op).meet i j v m ([] ++ ofOp p.op rest) := by
        simp only [Job.proj, Job.meet, State.meet, State.mk.injEq, and_true, List.nil_append, true_and]
        funext a b
        split <;> rfl
      rw [heq]
      exact (h.alone p.op).2.tail hstep
    · -- the others see nothing
      have heq : (s.meet i j p v p.op m ([] ++ newer) ([] ++ rest)).proj c = s.proj c := by
        simp only [Job.proj, Job.meet, State.mk.injEq, hc, and_false, if_false, false_and, true_and]
        funext a b
        split
        · rename_i e
          rw [e.1, e.2, hm.chan, List.nil_append, List.nil_append, ofOp_cons, if_neg (Ne.symm hc)]
        · rfl
      rw [heq]
      exact (h.alone c).2
  · have hq' : q ∈ s.posted a b ∧ ¬ (b = j ∧ q.op = p.op) := by
      simp only [Job.meet] at hq
      split at hq
      · -- the post that is taken was the only one of its operation
        rename_i e
        rw [e.1, e.2, hm.posted]
        refine ⟨List.mem_cons_of_mem _ hq, fun e' => honce.1 ?_⟩
        rw [← e'.2]
        exact List.mem_map_of_mem hq
      · rename_i e
        refine ⟨hq, ?_⟩
        rintro ⟨rfl, e'⟩
        obtain ⟨u, hu, -, hau, -⟩ := h.posted a b q hq
        rw [e', hm.recv] at hu
        cases hu
        exact e ⟨Fin.ext (hau.symm.trans hi), rfl⟩
    obtain ⟨u, hu, hrest⟩ := h.posted a b q hq'.1
    exact ⟨u, (hrecv b q.op hq'.2).trans hu, hrest⟩
  · by_cases hb : b = j ∧ c = p.op
    · obtain ⟨rfl, rfl⟩ := hb
      simp only [Job.meet, and_self, if_true, Option.some.injEq] at hu
      subst hu
      cases hgu
    · rw [hrecv b c hb] at hu
      obtain ⟨q, hq, hop⟩ := h.waits a b c u hu hgu hau
      refine ⟨q, ?_, hop⟩
      simp only [Job.meet]
      split
      · rename_i e
        rw [e.1, e.2, hm.posted] at hq
        rcases List.mem_cons.1 hq with rfl | hq
        · exact absurd ⟨e.2, hop.symm⟩ hb
        · exact hq
      · exact hq
  · simp only [Job.meet]
    split
    · exact honce.2
    · exact h.once a b
  · simp only [Job.meet]
    split
    · rename_i e
      rw [e.1, e.2, h.sends, hm.chan]
      simp
    · exact h.sends a b
  · simp only [Job.meet]
    split
    · rename_i e
      rw [e.1, e.2, h.recvs, hm.posted]
      simp
    · exact h.recvs a b

end Steps

theorem Job.Step.inOrder {w : Workload P} {mayWait : Nat → Bool} {s s' : Job P} (h : Job.Step w mayWait s s')
    (ho : s'.InOrder) : s.InOrder := by
  cases h with
  | own k t ht hchan hcall =>
    intro i j n x y hx hy
    refine ho i j n x y ?_ ?_
    · exact (List.getElem?_append_left (lt_length_of_getElem? hx)).trans hx
    · exact (List.getElem?_append_left (lt_length_of_getElem? hy)).trans hy
  | meet i j p v k m newer older pre rest hm => exact ho

/-- Every run whose ranks send and post in one order. -/
theorem Job.Reachable.inv {w : Workload P} {mayWait : Nat → Bool} {s₀ s : Job P} (h2 : 2 ≤ P) (hP : P < 2 ^ 30)
    (hr : Job.Reachable w mayWait s₀ s) (ho : s.InOrder) : Job.Inv w mayWait s₀ s := by
  obtain ⟨hinit, hrun⟩ := hr
  induction hrun with
  | refl => exact hinit.inv
  | tail _ hstep ih =>
    have hinv := ih (hstep.inOrder ho)
    cases hstep with
    | own k t ht hchan hcall => exact hinv.own h2 hP ht hchan hcall
    | meet i j p v k m newer older pre rest hm => exact hinv.meet h2 hP ho hm

/-! ## Completion -/

/-- Some step is possible that is neither a call nor a poll that finds nothing to do. -/
def Job.Progresses (w : Workload P) (mayWait : Nat → Bool) (s : Job P) : Prop :=
  ∃ s', Job.Step w mayWait s s' ∧ s' ≠ s ∧ ∀ r k, (s'.rank r k).calls = (s.rank r k).calls ∧
    ((s.rank r k).req.flag = true → (s'.rank r k).pc = (s.rank r k).pc)

/-- Where one operation could go on alone, the job can go on. -/
theorem Job.Inv.progress {w : Workload P} {mayWait : Nat → Bool} {s₀ s : Job P} (h2 : 2 ≤ P) (hP : P < 2 ^ 30)
    (h : Job.Inv w mayWait s₀ s) {k : Nat} (hp : Coll.Progresses (w.only k).start mayWait (s.proj k)) :
    Job.Progresses w mayWait s := by
  obtain ⟨t, ht, hne, hsame⟩ := hp
  rcases ht.prefix_or_meets with hchan | ⟨i, j, v, m, pre, rest, hm, -⟩
  · refine ⟨s.put k t, .own k t ht hchan fun r hr => absurd (hsame r).1 hr, ?_, ?_⟩
    · intro e
      have := congrArg (fun s => s.proj k) e
      exact hne ((Job.proj_put_self hchan).symm.trans this)
    · intro r c
      by_cases hc : c = k
      · subst hc
        simp only [Job.put, if_true]
        exact hsame r
      · simp [Job.put, hc]
  · -- the message that could meet its receive may have to wait for an older one of another operation
    obtain ⟨p, hp, -⟩ := h.waits i j k v hm.posted hm.empty hm.source
    have hmem : (k, m) ∈ s.chan i j := by
      apply mem_ofOp.1
      have : m ∈ (s.proj k).chan i j := by rw [hm.chan]; simp
      exact this
    obtain ⟨q, newer, hq⟩ := List.exists_cons_of_ne_nil (List.ne_nil_of_mem hp)
    obtain ⟨⟨c, m'⟩, rest', hc⟩ := List.exists_cons_of_ne_nil (List.ne_nil_of_mem hmem)
    obtain ⟨v', hv', -⟩ := h.posted i j q (by rw [hq]; exact List.mem_cons_self)
    have htag : m'.tag = q.tag := by
      have h1 := h.tag_chan h2 hP (i := i) (j := j) (x := (c, m')) (by rw [hc]; exact List.mem_cons_self)
      have h2 := h.tag_posted h2 hP (i := i) (j := j) (p := q) (by rw [hq]; exact List.mem_cons_self)
      exact h1.trans h2.symm
    refine ⟨_, .meet i j q v' c m' newer [] [] rest' ⟨hv', hq, by simp, hc, htag, by simp⟩, ?_,
      fun _ _ => ⟨rfl, fun _ => rfl⟩⟩
    intro e
    have := congrArg (fun s => (s.met i j).length) e
    simp [Job.meet] at this

/-- The label of a message and that of its receive. -/
theorem roundOf_sends (h0 : 0 < P) (hP : P < 2 ^ 30) {i j idx : Nat} {op : ColSched}
    (hop : (allreduceSched P i)[idx]? = some op) (hs : op.sendsTo j) : roundOf P i idx = some (msgLab P i j) := by
  rw [← planOps_sched h0 hP, List.getElem?_map] at hop
  obtain ⟨x, hx, rfl⟩ := Option.map_eq_some_iff.1 hop
  rw [roundOf, hx, Option.map_some, planOps_send (List.mem_of_getElem? hx) hs]

theorem roundOf_recvs (h0 : 0 < P) (hP : P < 2 ^ 30) {i j idx : Nat} {op : ColSched}
    (hop : (allreduceSched P j)[idx]? = some op) (hs : op.recvsFrom i) : roundOf P j idx = some (msgLab P i j) := by
  rw [← planOps_sched h0 hP, List.getElem?_map] at hop
  obtain ⟨x, hx, rfl⟩ := Option.map_eq_some_iff.1 hop
  rw [roundOf, hx, Option.map_some, planOps_recv (List.mem_of_getElem? hx) hs]

theorem Job.Inv.met_same {w : Workload P} {mayWait : Nat → Bool} {s₀ s : Job P} (h : Job.Inv w mayWait s₀ s)
    (ho : s.InOrder) {i j : Fin P} {x : (Nat × Nat) × (Nat × Nat)} (hx : x ∈ s.met i j) :
    x.1 ∈ s.sends i j ∧ x.2 ∈ s.recvs i j ∧ x.1.1 = x.2.1 := by
  obtain ⟨n, hn⟩ := List.mem_iff_getElem?.1 hx
  have hlt := lt_length_of_getElem? hn
  have hs : (s.sends i j)[n]? = some x.1 := by
    rw [h.sends, List.getElem?_append_left (by simpa using hlt), List.getElem?_map, hn]
    rfl
  have hr : (s.recvs i j)[n]? = some x.2 := by
    rw [h.recvs, List.getElem?_append_left (by simpa using hlt), List.getElem?_map, hn]
    rfl
  exact ⟨List.mem_of_getElem? hs, List.mem_of_getElem? hr, ho i j n _ _ hs hr⟩

/-- Any number of allreduces that every rank starts in the same order and drives in any order, in every
run where every two ranks send and post in one order of operations. Every receive has met the send of
its own operation and round; until all ranks have completed an operation that all have started, some
rank or message can go on; and what an operation leaves in `rbuf` is what it leaves there in every run
in which it is alone. -/
theorem outstanding_alone {P : Nat} (h2 : 2 ≤ P) (hP : P < 2 ^ 30) (w : Workload P) (mayWait : Nat → Bool)
    (s₀ s : Job P) (hr : Job.Reachable w mayWait s₀ s) (ho : s.InOrder) :
    (∀ i j, ∀ x ∈ s.met i j, x.1.1 = x.2.1 ∧ (roundOf P i x.1.2).isSome ∧ roundOf P i x.1.2 = roundOf P j x.2.2) ∧
    (∀ k, (∀ r, (s.rank r k).calls ≠ 0) → (∃ r, (s.rank r k).req.flag = false) → Job.Progresses w mayWait s) ∧
    (∀ k r, (s.rank r k).calls ≠ 0 → (s.rank r k).req.flag = true →
      ∀ t₀ t, Reachable (w.only k).start mayWait t₀ t → (t.rank r).calls = 1 → (t.rank r).req.flag = true →
      (s.rank r k).mem .rbuf = (t.rank r).mem .rbuf) := by
  have h0 : 0 < P := by omega
  have hinv := hr.inv h2 hP ho
  refine ⟨fun i j x hx => ?_, fun k hcalls hflag => ?_, fun k r hc hf t₀ t ht hct hft => ?_⟩
  · obtain ⟨hs, hr, hsame⟩ := hinv.met_same ho hx
    obtain ⟨op, hop, hto⟩ := hinv.sendsTo i j _ hs
    obtain ⟨op', hop', hfrom⟩ := hinv.recvsFrom i j _ hr
    rw [roundOf_sends h0 hP hop hto, roundOf_recvs h0 hP hop' hfrom]
    exact ⟨hsame, rfl, rfl⟩
  · obtain ⟨r, hf⟩ := hflag
    obtain ⟨hj, hn⟩ := (w.only k).reach_inv h2 hP (hinv.alone k)
    have hone : (s.rank r k).calls ≤ 1 := hinv.calls r k
    refine hinv.progress h2 hP (hj.progress hn ((w.only k).plan h0 hP).off_lt
      (((w.only k).plan h0 hP).labels fun _ => rfl) (c := 0) (fun r => Nat.pos_of_ne_zero (hcalls r)) (r := r) ?_)
    rintro (hlt | ⟨-, hfl⟩)
    · change 0 + 1 < (s.rank r k).calls at hlt
      omega
    · change (s.rank r k).req.flag = true at hfl
      rw [hf] at hfl
      cases hfl
  · have hone : (s.rank r k).calls = 0 + 1 := by
      have := hinv.calls r k
      omega
    have hs := (w.only k).rbuf_final h2 hP (hinv.alone k) (r := r) hone hf
    have ha := (w.only k).rbuf_final h2 hP ht (c := 0) hct hft
    exact hs.trans ha.symm

/-! ## Runs that can be executed -/

/-- The choices of a scheduler. -/
inductive Job.Event (P : Nat)
  | own (k : Nat) (e : Coll.Event P)
  | meet (i j : Fin P)

instance (s : Job P) (k : Nat) (r : Fin P) : Decidable (s.MayCall k r) := by
  unfold Job.MayCall
  infer_instance

/-- The step that a scheduler chooses, if it is possible; `start k` starts operation `k`. -/
def Job.step? (start : Nat → Start P) (mayWait : Nat → Bool) (s : Job P) : Job.Event P → Option (Job P)
  | .own k e => match (s.proj k).step? (start k) mayWait e with
    | some t =>
      if (∀ i j, ((s.proj k).chan i j).length ≤ (t.chan i j).length) ∧
          ∀ r, (t.rank r).calls = (s.rank r k).calls ∨ s.MayCall k r then some (s.put k t)
      else none
    | none => none
  | .meet i j => match s.posted i j, s.chan i j with
    | p :: newer, (k, m) :: rest => match (s.rank j p.op).recv with
      | some v => if m.tag = p.tag then some (s.meet i j p v k m newer rest) else none
      | none => none
    | _, _ => none

theorem Job.step?_sound {w : Workload P} {mayWait : Nat → Bool} {s s' : Job P} {e : Job.Event P}
    (h : s.step? (fun k => (w.only k).start) mayWait e = some s') : Job.Step w mayWait s s' := by
  cases e with
  | own k e =>
    simp only [Job.step?] at h
    split at h
    · rename_i t ht
      split at h
      · rename_i hc
        cases h
        have hstep := State.step?_sound ht
        refine .own k t hstep ?_ fun r hr => (hc.2 r).resolve_left hr
        rcases hstep.prefix_or_meets with hpre | ⟨i, j, v, m, pre, rest, hm, he⟩
        · exact hpre
        · have hle := hc.1 i j
          rw [hm.chan, he] at hle
          simp at hle
      · cases h
    · cases h
  | meet i j =>
    simp only [Job.step?] at h
    split at h
    · rename_i p newer k m rest hp hc
      split at h
      · rename_i v hv
        split at h
        · rename_i ht
          cases h
          exact .meet i j p v k m newer [] [] rest ⟨hv, hp, by simp, hc, ht, by simp⟩
        · cases h
      · cases h
    · cases h

def Job.run? (start : Nat → Start P) (mayWait : Nat → Bool) (s : Job P) : List (Job.Event P) → Option (Job P)
  | [] => some s
  | e :: es => (s.step? start mayWait e).bind fun s' => s'.run? start mayWait es

theorem Job.run?_sound {w : Workload P} {mayWait : Nat → Bool} :
    ∀ {es : List (Job.Event P)} {s s' : Job P}, s.run? (fun k => (w.only k).start) mayWait es = some s' →
      Relation.ReflTransGen (Job.Step w mayWait) s s'
  | [], s, s', h => by
    cases h
    exact .refl
  | e :: es, s, s', h => by
    obtain ⟨t, ht, hs⟩ := Option.bind_eq_some_iff.1 h
    exact .head (Job.step?_sound ht) (Job.run?_sound hs)

/-- The job before its first call, with empty buffers. -/
def Job.init (P : Nat) : Job P where
  rank r _ := (State.init P).rank r
  chan _ _ := []
  posted _ _ := []
  sends _ _ := []
  recvs _ _ := []
  met _ _ := []

theorem Job.init_initial (P : Nat) : (Job.init P).Initial where
  op _ := ⟨fun _ => rfl, fun _ => rfl, fun _ => rfl, fun _ => rfl, fun _ _ => rfl⟩
  chan _ _ := rfl
  posted _ _ := rfl
  sends _ _ := rfl
  recvs _ _ := rfl
  met _ _ := rfl

/-! ## Two sums over three ranks -/

/-- A buffer of one byte. -/
def oneByte (b : UInt8) : Buffer 1 := ⟨[b], rfl⟩

/-- The ranks contribute 1, 2 and 3 to the first sum and 10, 20 and 30 to the second. -/
def twoSums : Workload 3 where
  count _ := 1
  op _ a b := oneByte (a.1.headD 0 + b.1.headD 0)
  inPlace _ _ := false
  sbuf k r := oneByte ((if k = 0 then 1 else 10) * (r.val + 1).toUInt8)
  rbuf _ _ := oneByte 0

theorem twoSums_start : (fun k => (twoSums.only k).start) = fun k c r m _ =>
    some (Function.update ((twoSums.only k).buffers c r m) .tmp ((twoSums.only k).contribution c r).1,
      { flag := false, cur := 0, sync0 := true, sync1 := true, op := liftOp ((twoSums.only k).op c), size := 1,
        tag := 1340, next := (planOps 3 r).map Prod.snd }) := by
  funext k c r m req
  rw [(twoSums.only k).start_eq (by decide), planOps_sched (by decide) (by decide)]
  rfl

/-- Every rank starts both sums, and rank 1 gets the data of rank 0 for both. -/
def bothStarted : List (Job.Event 3) :=
  [.own 0 (.call 0), .own 0 (.next 0 false), .own 0 (.test 0), .own 0 (.next 0 false), .own 0 (.test 0),
    .own 1 (.call 0), .own 1 (.next 0 false), .own 1 (.test 0), .own 1 (.next 0 false), .own 1 (.test 0),
    .own 0 (.call 1), .own 0 (.next 1 false), .own 0 (.test 1),
    .own 1 (.call 1), .own 1 (.next 1 false), .own 1 (.test 1),
    .own 0 (.call 2), .own 0 (.next 2 false), .own 0 (.post 2), .own 0 (.test 2),
    .own 1 (.call 2), .own 1 (.next 2 false), .own 1 (.post 2), .own 1 (.test 2),
    .meet 0 1, .meet 0 1, .own 0 (.land 1), .own 1 (.land 1)]

/-- Rank 1 drives sum `k` up to its exchange with rank 2. -/
def toExchange (k : Nat) : List (Job.Event 3) :=
  [.own k (.poll 1), .own k (.next 1 false), .own k (.test 1), .own k (.next 1 false), .own k (.post 1),
    .own k (.test 1)]

/-- A receive of rank 1 has its message, and rank 1 drives sum `k` to its end. -/
def toEnd (k : Nat) : List (Job.Event 3) :=
  [.meet 2 1, .own k (.land 1), .own k (.poll 1), .own k (.next 1 false), .own k (.test 1),
    .own k (.next 1 false), .own k (.test 1), .own k (.next 1 false), .own k (.test 1), .own k (.next 1 false),
    .own k (.test 1), .own k (.fin 1)]

/-- Rank 1 drives the second sum first: its receive meets what rank 2 sent for the first sum, and the
second sum completes at rank 1 with 33. -/
theorem outstanding_cross : ∃ s, Job.Reachable twoSums (fun _ => false) (Job.init 3) s ∧
    (∃ x ∈ s.met 2 1, x.1.1 ≠ x.2.1) ∧ (s.rank 1 1).req.flag = true ∧ (s.rank 1 1).mem .rbuf = [33] ∧
    foldAll (twoSums.op 1) (List.ofFn (twoSums.contribution 1)) = some ⟨[60], rfl⟩ := by
  have hrun : ((Job.init 3).run? (fun k => (twoSums.only k).start) (fun _ => false)
      (bothStarted ++ toExchange 1 ++ toEnd 1)).any (fun s => (s.rank 1 1).req.flag = true ∧
        (s.rank 1 1).mem .rbuf = [33] ∧ s.met 2 1 = [((0, 0), (1, 2))]) = true := by
    rw [twoSums_start]
    decide +kernel
  obtain ⟨s, hs, hend⟩ := (Option.any_eq_true _ _).1 hrun
  obtain ⟨hflag, hbuf, hmet⟩ : (s.rank 1 1).req.flag = true ∧ (s.rank 1 1).mem .rbuf = [33] ∧
      s.met 2 1 = [((0, 0), (1, 2))] := by simpa using hend
  refine ⟨s, ⟨Job.init_initial 3, Job.run?_sound hs⟩, ⟨((0, 0), (1, 2)), ?_, by decide⟩, hflag, hbuf, rfl⟩
  rw [hmet]
  exact List.mem_singleton_self _

theorem Job.inOrder_of_prefix {s : Job P} (h : ∀ i j, (s.sends i j).map Prod.fst <+: (s.recvs i j).map Prod.fst ∨
    (s.recvs i j).map Prod.fst <+: (s.sends i j).map Prod.fst) : s.InOrder := by
  intro i j n x y hx hy
  have hx' : ((s.sends i j).map Prod.fst)[n]? = some x.1 := by rw [List.getElem?_map, hx]; rfl
  have hy' : ((s.recvs i j).map Prod.fst)[n]? = some y.1 := by rw [List.getElem?_map, hy]; rfl
  rcases h i j with ⟨l, hl⟩ | ⟨l, hl⟩
  · rw [← hl, List.getElem?_append_left (lt_length_of_getElem? hx'), hx'] at hy'
    exact Option.some.inj hy'
  · rw [← hl, List.getElem?_append_left (lt_length_of_getElem? hy'), hy'] at hx'
    exact (Option.some.inj hx').symm

/-- Where rank 1 drives the first sum to its end before the second, the second completes with 60. -/
theorem outstanding_alone_in_order : 2 ≤ 3 ∧ 3 < 2 ^ 30 ∧
    ∃ s, Job.Reachable twoSums (fun _ => false) (Job.init 3) s ∧ s.InOrder ∧ s.met 2 1 ≠ [] ∧
      (∀ i j, ∀ x ∈ s.met i j, x.1.1 = x.2.1 ∧ (roundOf 3 i x.1.2).isSome ∧ roundOf 3 i x.1.2 = roundOf 3 j x.2.2) ∧
      (s.rank 1 1).req.flag = true ∧ (s.rank 1 1).mem .rbuf = [60] := by
  have hrun : ((Job.init 3).run? (fun k => (twoSums.only k).start) (fun _ => false)
      (bothStarted ++ toExchange 0 ++ toEnd 0 ++ toExchange 1 ++ toEnd 1)).any (fun s =>
        ((s.rank 1 1).req.flag = true ∧ (s.rank 1 1).mem .rbuf = [60] ∧ s.met 2 1 ≠ []) ∧
        ∀ i j, (s.sends i j).map Prod.fst <+: (s.recvs i j).map Prod.fst ∨
          (s.recvs i j).map Prod.fst <+: (s.sends i j).map Prod.fst) = true := by
    rw [twoSums_start]
    decide +kernel
  obtain ⟨s, hs, hend⟩ := (Option.any_eq_true _ _).1 hrun
  obtain ⟨⟨hflag, hbuf, hmet⟩, hpre⟩ := of_decide_eq_true hend
  have hr : Job.Reachable twoSums (fun _ => false) (Job.init 3) s := ⟨Job.init_initial 3, Job.run?_sound hs⟩
  have ho := Job.inOrder_of_prefix hpre
  have hmain := outstanding_alone (by decide) (by decide) twoSums (fun _ => false) (Job.init 3) s hr ho
  exact ⟨by decide, by decide, s, hr, ho, hmet, hmain.1, hflag, hbuf⟩

end Lci.Coll
