/-
The completion queue of `src/include/cq.h` as the ring it is, on an endpoint as `lc_ep_dup` leaves it.
`lci_ep_open` makes the matching table of an EXP endpoint and initialises the queue of any other, so the
queue of an EXP endpoint is whatever its memory held. An initialised queue delivers every completed
request once and in order, and cannot overflow, each queued request having a packet of its own.
-/
import Lci.Lib.Ring
import Lci.Server.Api

namespace Lci.Server.CompQ

open Lci.Server

/-! ## The queue -/

/-- `LC_SPIN_UNLOCKED`. -/
def LC_SPIN_UNLOCKED : BitVec 32 := 0

/-- `struct comp_q`; the ring has `CQ_MAX_SIZE = 2^11` slots. -/
structure Queue where
  spinlock : BitVec 32
  ring : RingBuf ReqPtr

/-- `cq_init`. -/
def cqInit : Queue := ⟨LC_SPIN_UNLOCKED, 0, 0, fun _ => none⟩

/-- `cq_push`; `none` if it waits for ever for the lock, writes past the container, or exits. -/
def cqPush (q : Queue) (r : ReqPtr) : Option Queue :=
  if q.spinlock ≠ LC_SPIN_UNLOCKED then none
  else if CQ_MAX_SIZE ≤ q.ring.top then none
  else (q.ring.push 11 r).map fun ring => { q with ring := ring }

/-- `cq_pop`; `none` if it waits for ever for the lock or reads past the container. -/
def cqPop (q : Queue) : Option (Option ReqPtr × Queue) :=
  if q.spinlock ≠ LC_SPIN_UNLOCKED then none
  else if q.ring.top ≠ q.ring.bot ∧ CQ_MAX_SIZE ≤ q.ring.bot then none
  else some ((q.ring.popBot 11).1, { q with ring := (q.ring.popBot 11).2 })

/-- The queue of an endpoint with addressing mode `ar` that `lci_ep_open` has made from the memory `raw`. -/
def opened (ar : Ar) (raw : Queue) : Queue := if ar = .exp then raw else cqInit

/-! ## Calls -/

/-- The queue and the `parent` fields of the requests. -/
structure St where
  cq : Queue
  parent : ReqPtr → Option PktId

/-- A completion by `lci_ce_queue` of request `r` carried by packet `p`, `lc_cq_pop`, and `lc_cq_reqfree`. -/
inductive Op
  | complete (r : ReqPtr) (p : PktId)
  | pop
  | reqfree (r : ReqPtr)
deriving DecidableEq

/-- What a call shows: the request popped with its `parent`, or the packet returned to the pool. -/
inductive Out
  | none
  | popped (r : Option (ReqPtr × Option PktId))
  | freed (p : Option PktId)
deriving DecidableEq

/-- One call. -/
def step (s : St) : Op → Option (Out × St)
  | .complete r p => do
    let parent := Function.update s.parent r (some p)
    let q ← cqPush s.cq r
    pure (.none, ⟨q, parent⟩)
  | .pop => do
    let (r, q) ← cqPop s.cq
    pure (.popped (r.map fun r => (r, s.parent r)), { s with cq := q })
  | .reqfree r => pure (.freed (s.parent r), s)

/-- A sequence of calls. -/
def run : St → List Op → Option (List Out)
  | _, [] => some []
  | s, op :: ops => do
    let (o, s) ← step s op
    let os ← run s ops
    pure (o :: os)

/-! ## Delivery -/

/-- What is to be: the completed requests not yet popped, oldest first, and those popped and not yet
freed, each with the packet that carried it. -/
structure Spec where
  waiting : List (ReqPtr × PktId)
  taken : List (ReqPtr × PktId)

/-- The packets and the requests in use. -/
def Spec.used (a : Spec) : List (ReqPtr × PktId) := a.waiting ++ a.taken

/-- A completion is of a request and a packet of the device that are not in use, and a request is freed
once, after it was popped. -/
def Spec.Allows (a : Spec) : Op → Prop
  | .complete r p => p < LC_SERVER_NUM_PKTS ∧ p ∉ a.used.map Prod.snd ∧ r ∉ a.used.map Prod.fst
  | .pop => True
  | .reqfree r => r ∈ a.taken.map Prod.fst

def Spec.step (a : Spec) : Op → Out × Spec
  | .complete r p => (.none, { a with waiting := a.waiting ++ [(r, p)] })
  | .pop => (.popped (a.waiting.head?.map fun x => (x.1, some x.2)),
    ⟨a.waiting.tail, a.waiting.head?.toList ++ a.taken⟩)
  | .reqfree r => (.freed ((a.taken.find? fun x => x.1 = r).map Prod.snd),
    { a with taken := a.taken.eraseP fun x => x.1 = r })

def Spec.run : Spec → List Op → List Out
  | _, [] => []
  | a, op :: ops => (a.step op).1 :: Spec.run (a.step op).2 ops

/-- A sequence of calls that the ownership of packets and requests allows. -/
def Spec.Legal : Spec → List Op → Prop
  | _, [] => True
  | a, op :: ops => a.Allows op ∧ Spec.Legal (a.step op).2 ops

/-- In every legal sequence of calls on the opened endpoint all calls return, and each shows what it is to
show. -/
def Delivers (ar : Ar) (raw : Queue) : Prop :=
  ∀ parent ops, Spec.Legal ⟨[], []⟩ ops → run ⟨opened ar raw, parent⟩ ops = some (Spec.run ⟨[], []⟩ ops)

/-! ## Refinement -/

/-- The queue is free and holds `l`. -/
structure Holds (q : Queue) (l : List ReqPtr) : Prop where
  spin : q.spinlock = LC_SPIN_UNLOCKED
  ring : q.ring.Repr 11 l

theorem Holds.push {q : Queue} {l : List ReqPtr} (h : Holds q l) (r : ReqPtr) (hlen : l.length + 1 < CQ_MAX_SIZE) :
    ∃ q', cqPush q r = some q' ∧ Holds q' (l ++ [r]) := by
  obtain ⟨ring, hp, hr⟩ := h.ring.push r hlen
  have htop := h.ring.top_lt
  refine ⟨{ q with ring := ring }, ?_, h.spin, hr⟩
  unfold cqPush
  rw [if_neg (not_not.2 h.spin), if_neg (by unfold CQ_MAX_SIZE LC_SERVER_NUM_PKTS; omega), hp]
  rfl

theorem Holds.pop {q : Queue} {l : List ReqPtr} (h : Holds q l) :
    ∃ q', cqPop q = some (l.head?, q') ∧ Holds q' l.tail := by
  obtain ⟨h1, h2⟩ := h.ring.popBot
  have hbot := h.ring.bot_lt
  refine ⟨{ q with ring := (q.ring.popBot 11).2 }, ?_, h.spin, h2⟩
  unfold cqPop
  rw [if_neg (not_not.2 h.spin), if_neg (by unfold CQ_MAX_SIZE LC_SERVER_NUM_PKTS; omega), h1]

/-- The list that the device model keeps for the queue is that of the ring. -/
theorem Holds.push_list {q : Queue} {l : List ReqPtr} (h : Holds q l) (r : ReqPtr) :
    (cqPush q r).map (fun q => q.ring.items 11) = Server.cqPush l r := by
  unfold Server.cqPush
  split_ifs with hlen
  · obtain ⟨q', hp, hq⟩ := h.push r hlen
    rw [hp]
    exact congrArg some hq.ring.items_eq
  · have hl := h.ring.length_lt
    have hfull := h.ring.push_full r (by unfold CQ_MAX_SIZE LC_SERVER_NUM_PKTS at hlen; omega)
    unfold cqPush
    rw [hfull]
    split_ifs <;> rfl

theorem Holds.pop_list {q : Queue} {l : List ReqPtr} (h : Holds q l) :
    (cqPop q).map (fun x => (x.1, x.2.ring.items 11)) = some (Server.cqPop l) := by
  obtain ⟨q', hp, hq⟩ := h.pop
  rw [hp]
  exact congrArg some (Prod.ext rfl hq.ring.items_eq)

/-- What the state of a queue in use has to do with what is to be. -/
structure Refines (s : St) (a : Spec) : Prop where
  cq : Holds s.cq (a.waiting.map Prod.fst)
  parent : ∀ x ∈ a.used, s.parent x.1 = some x.2
  reqs : (a.used.map Prod.fst).Nodup
  pkts : (a.used.map Prod.snd).Nodup
  lt : ∀ x ∈ a.used, x.2 < LC_SERVER_NUM_PKTS

/-- Each queued request has a packet of its own. -/
theorem Refines.length_le {s : St} {a : Spec} (h : Refines s a) : a.waiting.length ≤ LC_SERVER_NUM_PKTS := by
  have hsub : a.used.map Prod.snd ⊆ List.range LC_SERVER_NUM_PKTS := by
    intro p hp
    obtain ⟨x, hx, rfl⟩ := List.mem_map.1 hp
    exact List.mem_range.2 (h.lt x hx)
  have hle := (List.subperm_of_subset h.pkts hsub).length_le
  rw [List.length_map, List.length_range, Spec.used, List.length_append] at hle
  omega

theorem Refines.complete {s : St} {a : Spec} (h : Refines s a) {r : ReqPtr} {p : PktId}
    (ha : a.Allows (.complete r p)) :
    ∃ s', step s (.complete r p) = some (.none, s') ∧ Refines s' (a.step (.complete r p)).2 := by
  obtain ⟨hlt, hp, hr⟩ := ha
  have hlen := h.length_le
  obtain ⟨q', hq, hh⟩ := h.cq.push r (by rw [List.length_map]; unfold CQ_MAX_SIZE LC_SERVER_NUM_PKTS at *; omega)
  have hperm : (Spec.used ⟨a.waiting ++ [(r, p)], a.taken⟩).Perm ((r, p) :: a.used) := by
    unfold Spec.used
    rw [List.append_assoc, List.singleton_append]
    exact List.perm_middle
  refine ⟨⟨q', Function.update s.parent r (some p)⟩, ?_, ?_, fun x hx => ?_, ?_, ?_, fun x hx => ?_⟩
  · simp only [step, hq]
    rfl
  · simpa [Spec.step] using hh
  · rcases List.mem_cons.1 (hperm.mem_iff.1 hx) with rfl | hx'
    · exact Function.update_self _ _ _
    · have hne : x.1 ≠ r := fun he => hr (he ▸ List.mem_map_of_mem hx')
      dsimp only
      rw [Function.update_of_ne hne, h.parent x hx']
  · exact ((hperm.map Prod.fst).nodup_iff).2 (List.nodup_cons.2 ⟨hr, h.reqs⟩)
  · exact ((hperm.map Prod.snd).nodup_iff).2 (List.nodup_cons.2 ⟨hp, h.pkts⟩)
  · rcases List.mem_cons.1 (hperm.mem_iff.1 hx) with rfl | hx
    · exact hlt
    · exact h.lt x hx

theorem Refines.pop {s : St} {a : Spec} (h : Refines s a) :
    ∃ s', step s .pop = some ((a.step .pop).1, s') ∧ Refines s' (a.step .pop).2 := by
  obtain ⟨q', hq, hh⟩ := h.cq.pop
  have hperm : (Spec.used (a.step .pop).2).Perm a.used := by
    unfold Spec.used Spec.step
    cases a.waiting with
    | nil => rfl
    | cons x l => exact List.perm_middle
  refine ⟨{ s with cq := q' }, ?_, by simpa [Spec.step] using hh, fun x hx => h.parent x (hperm.mem_iff.1 hx),
    ((hperm.map Prod.fst).nodup_iff).2 h.reqs, ((hperm.map Prod.snd).nodup_iff).2 h.pkts,
    fun x hx => h.lt x (hperm.mem_iff.1 hx)⟩
  unfold step
  rw [hq]
  cases hw : a.waiting with
  | nil => simp [Spec.step, hw]
  | cons x l =>
    have hx : x ∈ a.used := List.mem_append_left _ (hw ▸ List.mem_cons_self)
    simp [Spec.step, hw, h.parent x hx]

theorem Refines.reqfree {s : St} {a : Spec} (h : Refines s a) {r : ReqPtr} (ha : a.Allows (.reqfree r)) :
    ∃ s', step s (.reqfree r) = some ((a.step (.reqfree r)).1, s') ∧ Refines s' (a.step (.reqfree r)).2 := by
  have hsub : (Spec.used (a.step (.reqfree r)).2).Sublist a.used :=
    List.Sublist.append_left List.eraseP_sublist a.waiting
  refine ⟨s, ?_, h.cq, fun x hx => h.parent x (hsub.subset hx), (hsub.map _).nodup h.reqs, (hsub.map _).nodup h.pkts,
    fun x hx => h.lt x (hsub.subset hx)⟩
  obtain ⟨x, hx, rfl⟩ := List.mem_map.1 ha
  simp only [step, Spec.step]
  cases hf : a.taken.find? fun y => y.1 = x.1 with
  | none =>
    rw [List.find?_eq_none] at hf
    exact absurd (by simp) (hf x hx)
  | some y =>
    have hy : y.1 = x.1 := by simpa using List.find?_some hf
    have hp := h.parent y (List.mem_append_right _ (List.mem_of_find?_eq_some hf))
    rw [hy] at hp
    rw [hp]
    rfl

/-- Every call a legal sequence makes shows what it is to show. -/
theorem Refines.step {s : St} {a : Spec} (h : Refines s a) {op : Op} (ha : a.Allows op) :
    ∃ s', CompQ.step s op = some ((a.step op).1, s') ∧ Refines s' (a.step op).2 := by
  cases op with
  | complete r p => exact h.complete ha
  | pop => exact h.pop
  | reqfree r => exact h.reqfree ha

theorem Refines.run : ∀ {ops : List Op} {s : St} {a : Spec}, Refines s a → a.Legal ops →
    CompQ.run s ops = some (a.run ops)
  | [], _, _, _, _ => rfl
  | op :: ops, s, a, h, hl => by
    obtain ⟨s', hs, hr⟩ := h.step hl.1
    have ih := Refines.run hr hl.2
    simp only [CompQ.run, hs, Option.bind_eq_bind, Option.bind_some, ih]
    rfl

/-- The memory of an empty queue: the lock free, and the indices equal and within the container. -/
def EmptyQueue (raw : Queue) : Prop :=
  raw.spinlock = LC_SPIN_UNLOCKED ∧ raw.ring.top = raw.ring.bot ∧ raw.ring.top < CQ_MAX_SIZE

theorem EmptyQueue.holds {raw : Queue} (h : EmptyQueue raw) : Holds raw [] := by
  obtain ⟨hs, he, hlt⟩ := h
  obtain ⟨spin, top, bot, slot⟩ := raw
  cases he
  exact ⟨hs, RingBuf.Repr.empty hlt⟩

theorem delivers_of_empty {ar : Ar} {raw : Queue} (h : EmptyQueue (opened ar raw)) : Delivers ar raw := by
  intro parent ops hl
  have hr : Refines ⟨opened ar raw, parent⟩ ⟨[], []⟩ :=
    ⟨h.holds, by simp [Spec.used], List.nodup_nil, List.nodup_nil, by simp [Spec.used]⟩
  exact hr.run hl

theorem run_cons {s : St} {op : Op} {ops : List Op} {o : Out} {os : List Out}
    (h : CompQ.run s (op :: ops) = some (o :: os)) :
    ∃ s', CompQ.step s op = some (o, s') ∧ CompQ.run s' ops = some os := by
  obtain ⟨⟨o', s'⟩, hs, h⟩ := Option.bind_eq_some_iff.1 h
  obtain ⟨os', ho, h⟩ := Option.bind_eq_some_iff.1 h
  cases h
  exact ⟨s', hs, ho⟩

/-- A pop that returns took the lock, and shows what the ring gives. -/
theorem step_pop {s s' : St} {r : Option (ReqPtr × Option PktId)} (h : CompQ.step s .pop = some (.popped r, s')) :
    s.cq.spinlock = LC_SPIN_UNLOCKED ∧ r.map Prod.fst = (s.cq.ring.popBot 11).1 := by
  obtain ⟨⟨x, q⟩, hq, h⟩ := Option.bind_eq_some_iff.1 h
  cases h
  unfold cqPop at hq
  split_ifs at hq with hspin
  cases hq
  exact ⟨not_not.1 hspin, by simp [Function.comp_def]⟩

/-- A completion that returns has written within the container and left the ring not full. -/
theorem step_complete {s s' : St} {r : ReqPtr} {p : PktId} {o : Out} (h : CompQ.step s (.complete r p) = some (o, s')) :
    s.cq.ring.top < CQ_MAX_SIZE ∧ s.cq.ring.push 11 r = some s'.cq.ring := by
  obtain ⟨q, hq, h⟩ := Option.bind_eq_some_iff.1 h
  cases h
  unfold cqPush at hq
  split_ifs at hq with _ hlt
  obtain ⟨ring, hp, rfl⟩ := Option.map_eq_some_iff.1 hq
  exact ⟨not_le.1 hlt, hp⟩

/-- A queue that delivers on a pop, and on a completion and a pop, was empty. -/
theorem empty_of_delivers {raw : Queue} (h : Delivers .exp raw) : EmptyQueue raw := by
  have hpop := h (fun _ => none) [.pop] ⟨trivial, trivial⟩
  have hpush := h (fun _ => none) [.complete (.own 0) 0, .pop]
    ⟨⟨by decide, by simp [Spec.used], by simp [Spec.used]⟩, trivial, trivial⟩
  obtain ⟨s₁, h₁, -⟩ := run_cons hpop
  obtain ⟨hspin, hnone⟩ := step_pop h₁
  obtain ⟨s₂, h₂, hrest⟩ := run_cons hpush
  obtain ⟨s₃, h₃, -⟩ := run_cons hrest
  obtain ⟨hlt, hring⟩ := step_complete h₂
  obtain ⟨-, hsome⟩ := step_pop h₃
  refine ⟨hspin, ?_, hlt⟩
  -- were the indices apart, the pop after the completion would read the slot that the first pop read
  by_contra hne
  have hslot : raw.ring.slot raw.ring.bot = none := by
    unfold RingBuf.popBot at hnone
    rw [if_pos (show (opened .exp raw).ring.top ≠ (opened .exp raw).ring.bot from hne)] at hnone
    exact hnone.symm
  unfold RingBuf.push at hring
  dsimp only at hring
  split_ifs at hring with htop
  rw [Option.some.injEq] at hring
  unfold RingBuf.popBot at hsome
  rw [← hring, if_pos (show _ ≠ _ from htop)] at hsome
  have hbot : Function.update raw.ring.slot raw.ring.top (some (.own 0)) raw.ring.bot = none := by
    rw [Function.update_of_ne (Ne.symm hne)]
    exact hslot
  exact absurd (hsome.trans hbot) (by simp [Spec.step])

/-- An endpoint with a completion queue delivers every completed request exactly once, in the order of
completion and with its packet as `parent`, and never overflows, if and only if it is not an EXP endpoint
or its memory happened to hold an empty queue. -/
theorem cq_delivers_iff (ar : Ar) (raw : Queue) : Delivers ar raw ↔ ar ≠ .exp ∨ EmptyQueue raw := by
  constructor
  · intro h
    by_cases har : ar = .exp
    · subst har
      exact .inr (empty_of_delivers h)
    · exact .inl har
  · intro h
    apply delivers_of_empty
    unfold opened
    split_ifs with har
    · exact h.resolve_left (not_not.2 har)
    · exact ⟨rfl, rfl, by decide⟩

/-- The memory of an EXP endpoint that held 1 and 0 in the indices and a pointer in the first slot: the
first `lc_cq_pop` returns that pointer. -/
theorem exp_cq_not_initialised :
    CompQ.run ⟨opened .exp ⟨0, 1, 0, fun _ => some (.user 9)⟩, fun _ => none⟩ [.pop] =
      some [.popped (some (.user 9, none))] ∧
    ¬ Delivers .exp ⟨0, 1, 0, fun _ => some (.user 9)⟩ :=
  ⟨rfl, fun h => absurd (empty_of_delivers h).2.1 (by decide)⟩

end Lci.Server.CompQ
