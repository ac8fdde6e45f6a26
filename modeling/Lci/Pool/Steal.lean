/-
The pool of `include/lc/pool.h` over the deques of `include/lc/dequeue.h`, with any number of threads inside its
functions at once. A deque operation is one atomic step (it runs under the spinlock of the deque). The threads that make
a deque hold `init_lock`, but those that steal read `npools` and `lpools` without it, so each read and each write of
`lc_pool_get_local` is a step of its own. Results: as long as no thief reads an entry of `lpools` between the increment
of `npools` and the store of the deque, nothing put in is lost or handed out twice, every deque is a double-ended list,
and neither the overflow exit nor an index past an array is reached; a thief that does takes what the memory held.
-/
import Lci.Lib.Ring
import Lci.Server.Serve
import Mathlib.Algebra.BigOperators.Group.Finset.Basic
import Mathlib.Algebra.Order.Group.Multiset

namespace Lci.Pool

/-! ## Deques -/

/-- `MAX_NPOOLS`. -/
def MAX_NPOOLS : Nat := 272

/-- `struct dequeue`, of `MAX_SIZE = 2^12` slots. -/
abbrev Dequeue (α : Type) := RingBuf α

variable {α : Type}

/-- `dq_init`. -/
def dqInit : Dequeue α := ⟨0, 0, fun _ => none⟩

/-- `dq_push_top`; `none` is the exit on overflow. -/
def dqPushTop (dq : Dequeue α) (x : α) : Option (Dequeue α) := dq.push 12 x

/-- `dq_pop_top`. -/
def dqPopTop (dq : Dequeue α) : Option α × Dequeue α := dq.popTop 12

/-- `dq_pop_bot`. -/
def dqPopBot (dq : Dequeue α) : Option α × Dequeue α := dq.popBot 12

/-- The elements of a deque from `bot` to `top`. -/
def dqItems (dq : Dequeue α) : List α := dq.items 12

/-- The deques that the device model keeps as lists are those of the ring. -/
theorem dqPushTop_items {dq : Dequeue Server.PktId} {l : List Server.PktId} (h : dq.Repr 12 l) (p : Server.PktId) :
    (dqPushTop dq p).map dqItems = Server.dqPushTop l p := by
  have hl := h.length_lt
  unfold Server.dqPushTop Server.MAX_SIZE dqPushTop
  split_ifs with hlen
  · obtain ⟨dq', hp, hr⟩ := h.push p hlen
    rw [hp]
    exact congrArg some hr.items_eq
  · rw [h.push_full p (by omega)]
    rfl

theorem dqPopTop_items {dq : Dequeue Server.PktId} {l : List Server.PktId} (h : dq.Repr 12 l) :
    ((dqPopTop dq).1, dqItems (dqPopTop dq).2) = Server.dqPopTop l := by
  obtain ⟨h1, h2⟩ := h.popTop
  exact Prod.ext h1 h2.items_eq

theorem dqPopBot_items {dq : Dequeue Server.PktId} {l : List Server.PktId} (h : dq.Repr 12 l) :
    ((dqPopBot dq).1, dqItems (dqPopBot dq).2) = Server.dqPopBot l := by
  obtain ⟨h1, h2⟩ := h.popBot
  exact Prod.ext h1 h2.items_eq

/-! ## The pool -/

/-- What an entry of `lpools` held when `lc_pool_create` got the memory: `NULL`, a pointer to what reads as a deque, or
a pointer to nowhere. -/
inductive Old (α : Type)
  | null
  | deque (dq : Dequeue α)
  | wild

/-- An entry of `lpools`: never written, or a deque that `lc_pool_get_local` has made. -/
inductive Entry (α : Type)
  | old (o : Old α)
  | made (dq : Dequeue α)

namespace Entry

/-- The comparison with `NULL`. -/
def isNull : Entry α → Bool
  | old .null => true
  | _ => false

/-- The deque that the pointer points to. -/
def load : Entry α → Option (Dequeue α)
  | made dq => some dq
  | old (.deque dq) => some dq
  | _ => none

/-- A write to the deque that the pointer points to. -/
def write (dq : Dequeue α) : Entry α → Entry α
  | made _ => made dq
  | old _ => old (.deque dq)

/-- The elements of a deque that was made. -/
def items : Entry α → Multiset α
  | made dq => (dqItems dq : Multiset α)
  | old _ => 0

end Entry

/-- `struct lc_pool` with its column of `tls_pool_struct`. -/
structure LcPool (α : Type) where
  tls : Nat → Option Nat
  npools : Nat
  lpools : Nat → Entry α

/-- `lc_pool_create`, which does not clear `lpools`. -/
def lcPoolCreate (mem : Nat → Old α) : LcPool α := ⟨fun _ => none, 0, fun pid => .old (mem pid)⟩

/-- A write to the deque at an index. -/
def LcPool.write (pool : LcPool α) (pid : Nat) (dq : Dequeue α) : LcPool α :=
  { pool with lpools := Function.update pool.lpools pid ((pool.lpools pid).write dq) }

/-- `lc_pool_put_to`. -/
def lcPoolPutTo (pool : LcPool α) (x : α) (pid : Nat) : Option (LcPool α) := do
  let dq ← (pool.lpools pid).load
  let dq ← dqPushTop dq x
  pure (pool.write pid dq)

/-- The `dq_pop_top` of `lc_pool_get` and `lc_pool_get_nb` on the caller's deque. -/
def popLocal (pool : LcPool α) (pid : Nat) : Option (Option α × LcPool α) := do
  let dq ← (pool.lpools pid).load
  pure ((dqPopTop dq).1, pool.write pid (dqPopTop dq).2)

/-- Their `dq_pop_bot` on a victim. -/
def popVictim (pool : LcPool α) (steal : Nat) : Option (Option α × LcPool α) := do
  let dq ← (pool.lpools steal).load
  pure ((dqPopBot dq).1, pool.write steal (dqPopBot dq).2)

/-! ## Threads -/

/-- The calls that use the deque of the caller: `lc_pool_put`, and `lc_pool_get` or `lc_pool_get_nb` (`nb`). -/
inductive Call (α : Type)
  | put (x : α)
  | get (nb : Bool)

/-- Where a thread is. Outside; in `lc_pool_get_local` at the first look at `tls_pool_struct`, at `lc_spin_lock`, at the
second look, at `npools++`, at the store to `lpools`, at the store to `tls_pool_struct` and at `lc_spin_unlock`; at the
push or the pop on its deque; in the search for a victim at `rand() % npools`, at the test for `NULL` and at the pop. -/
inductive Pc (α : Type)
  | idle
  | look (wid : Nat) (c : Call α)
  | wait (wid : Nat) (c : Call α)
  | locked (wid : Nat) (c : Call α)
  | count (wid : Nat) (c : Call α)
  | store (wid pid : Nat) (c : Call α)
  | publish (wid pid : Nat) (c : Call α)
  | unlock (pid : Nat) (c : Call α)
  | push (pid : Nat) (x : α)
  | pop (pid : Nat) (nb : Bool)
  | steal (nb : Bool)
  | test (victim : Nat) (nb : Bool)
  | popBot (victim : Nat) (nb : Bool)

/-- Where a call goes on with the deque of the caller. -/
def Call.next (pid : Nat) : Call α → Pc α
  | .put x => .push pid x
  | .get nb => .pop pid nb

/-- An operation on a deque with what it returned. -/
inductive DqOp (α : Type)
  | push (x : α)
  | popTop (ret : Option α)
  | popBot (ret : Option α)

/-- The pool, the holder of `init_lock` and the threads; for the proofs also what was put in and handed out so far, and
the operations on each deque in their order. -/
structure St (α : Type) where
  pool : LcPool α
  lock : Option Nat
  pc : Nat → Pc α
  put : Multiset α
  out : Multiset α
  hist : Nat → List (DqOp α)

/-- A pool that `lc_pool_create` has made. -/
def St.start (mem : Nat → Old α) : St α := ⟨lcPoolCreate mem, none, fun _ => .idle, 0, 0, fun _ => []⟩

/-- The elements in the local deques. -/
def held (s : St α) : Multiset α := ∑ pid ∈ Finset.range s.pool.npools, (s.pool.lpools pid).items

/-- A deque was made for the index. -/
def Made (pool : LcPool α) (pid : Nat) : Prop := ∃ dq, pool.lpools pid = .made dq

namespace St

/-- A step of thread `t` that leaves the deques alone. -/
def goto (s : St α) (t : Nat) (pool : LcPool α) (lock : Option Nat) (pc : Pc α) : St α :=
  { s with pool := pool, lock := lock, pc := Function.update s.pc t pc }

/-- A deque operation of thread `t`. -/
def did (s : St α) (t : Nat) (pool : LcPool α) (pc : Pc α) (pid : Nat) (op : DqOp α) : St α :=
  { s with
    pool := pool
    pc := Function.update s.pc t pc
    hist := Function.update s.hist pid (s.hist pid ++ [op]) }

/-- The element an operation has handed out. -/
def hand (s : St α) (ret : Option α) : St α := { s with out := s.out + (ret.toList : Multiset α) }

end St

/-- One step of thread `t`, with the element it hands out, if any. A push is made only while that leaves at most
`MAX_SIZE - 1` elements in the pool. -/
inductive Step : St α → Nat → Option α → St α → Prop
  | callPut {s : St α} {t wid : Nat} {x : α} : s.pc t = .idle → wid < MAX_NPOOLS →
    Step s t none (s.goto t s.pool s.lock (.look wid (.put x)))
  | callPutTo {s : St α} {t pid : Nat} {x : α} : s.pc t = .idle → Made s.pool pid →
    Step s t none (s.goto t s.pool s.lock (.push pid x))
  | callGet {s : St α} {t wid : Nat} {nb : Bool} : s.pc t = .idle → wid < MAX_NPOOLS →
    Step s t none (s.goto t s.pool s.lock (.look wid (.get nb)))
  | found {s : St α} {t wid pid : Nat} {c : Call α} : s.pc t = .look wid c → s.pool.tls wid = some pid →
    Step s t none (s.goto t s.pool s.lock (c.next pid))
  | missed {s : St α} {t wid : Nat} {c : Call α} : s.pc t = .look wid c → s.pool.tls wid = none →
    Step s t none (s.goto t s.pool s.lock (.wait wid c))
  | lock {s : St α} {t wid : Nat} {c : Call α} : s.pc t = .wait wid c → s.lock = none →
    Step s t none (s.goto t s.pool (some t) (.locked wid c))
  | foundLocked {s : St α} {t wid pid : Nat} {c : Call α} : s.pc t = .locked wid c → s.pool.tls wid = some pid →
    Step s t none (s.goto t s.pool s.lock (.unlock pid c))
  | missedLocked {s : St α} {t wid : Nat} {c : Call α} : s.pc t = .locked wid c → s.pool.tls wid = none →
    Step s t none (s.goto t s.pool s.lock (.count wid c))
  | count {s : St α} {t wid : Nat} {c : Call α} : s.pc t = .count wid c →
    Step s t none (s.goto t { s.pool with npools := s.pool.npools + 1 } s.lock (.store wid s.pool.npools c))
  | store {s : St α} {t wid pid : Nat} {c : Call α} : s.pc t = .store wid pid c → pid < MAX_NPOOLS →
    Step s t none (s.goto t { s.pool with lpools := Function.update s.pool.lpools pid (.made dqInit) } s.lock
      (.publish wid pid c))
  | publish {s : St α} {t wid pid : Nat} {c : Call α} : s.pc t = .publish wid pid c →
    Step s t none (s.goto t { s.pool with tls := Function.update s.pool.tls wid (some pid) } s.lock (.unlock pid c))
  | unlock {s : St α} {t pid : Nat} {c : Call α} : s.pc t = .unlock pid c →
    Step s t none (s.goto t s.pool none (c.next pid))
  | push {s : St α} {t pid : Nat} {x : α} {pool : LcPool α} : s.pc t = .push pid x →
    Multiset.card (held s) + 1 ≤ Server.MAX_SIZE - 1 → lcPoolPutTo s.pool x pid = some pool →
    Step s t none { s.did t pool .idle pid (.push x) with put := x ::ₘ s.put }
  | pop {s : St α} {t pid : Nat} {nb : Bool} {ret : Option α} {pool : LcPool α} : s.pc t = .pop pid nb →
    popLocal s.pool pid = some (ret, pool) →
    Step s t ret ((s.did t pool (if ret.isSome then .idle else .steal nb) pid (.popTop ret)).hand ret)
  | steal {s : St α} {t victim : Nat} {nb : Bool} : s.pc t = .steal nb → victim < s.pool.npools →
    Step s t none (s.goto t s.pool s.lock (.test victim nb))
  | test {s : St α} {t victim : Nat} {nb : Bool} : s.pc t = .test victim nb →
    Step s t none (s.goto t s.pool s.lock
      (if !(s.pool.lpools victim).isNull then .popBot victim nb else if nb then .idle else .steal nb))
  | popBot {s : St α} {t victim : Nat} {nb : Bool} {ret : Option α} {pool : LcPool α} : s.pc t = .popBot victim nb →
    popVictim s.pool victim = some (ret, pool) →
    Step s t ret ((s.did t pool (if ret.isSome ∨ nb then .idle else .steal nb) victim (.popBot ret)).hand ret)

/-- A state along some run over the memory that `lc_pool_create` got, with a condition on every step. -/
inductive Run (ok : St α → Nat → Prop) (mem : Nat → Old α) : St α → Prop
  | start : Run ok mem (St.start mem)
  | step {s s' : St α} {t : Nat} {ret : Option α} : Run ok mem s → ok s t → Step s t ret s' → Run ok mem s'

/-- A thief does not test an entry between the increment of `npools` and the store, unless the memory held `NULL`. -/
def Settled (s : St α) (t : Nat) : Prop :=
  match s.pc t with
  | .test victim _ => Made s.pool victim ∨ (s.pool.lpools victim).isNull
  | _ => True

/-! ## Histories of a double-ended list -/

/-- The operations are those of a list that is now `l`: the owner takes the element pushed last, a thief
the one pushed first. -/
inductive Legal : List (DqOp α) → List α → Prop
  | nil : Legal [] []
  | push {h : List (DqOp α)} {l : List α} {x : α} : Legal h l → Legal (h ++ [.push x]) (l ++ [x])
  | popTop {h : List (DqOp α)} {l : List α} : Legal h l → Legal (h ++ [.popTop l.getLast?]) l.dropLast
  | popBot {h : List (DqOp α)} {l : List α} : Legal h l → Legal (h ++ [.popBot l.head?]) l.tail

/-! ## Invariant -/

/-- A call that has counted a deque for its worker, but not yet told it. -/
def Claims : Pc α → Nat → Prop
  | .store wid _ _, w | .publish wid _ _, w => wid = w
  | _, _ => False

/-- The workers for which deques are counted, each one of its own. -/
structure Owners (s : St α) (ws : List Nat) : Prop where
  length : ws.length = s.pool.npools
  nodup : ws.Nodup
  lt : ∀ w ∈ ws, w < MAX_NPOOLS
  told : ∀ w ∈ ws, s.pool.tls w = none → ∃ t, s.lock = some t ∧ Claims (s.pc t) w

/-- What a thread relies on where it is. -/
def PcOk (pool : LcPool α) (lock : Option Nat) (t : Nat) : Pc α → Prop
  | .idle => True
  | .look wid _ | .wait wid _ => wid < MAX_NPOOLS
  | .locked wid _ => lock = some t ∧ wid < MAX_NPOOLS
  | .count wid _ => lock = some t ∧ wid < MAX_NPOOLS ∧ pool.tls wid = none
  | .store _ pid _ => lock = some t ∧ pid < pool.npools ∧ ¬ Made pool pid
  | .publish _ pid _ | .unlock pid _ => lock = some t ∧ Made pool pid
  | .push pid _ | .pop pid _ | .popBot pid _ => Made pool pid
  | .steal _ => 0 < pool.npools
  | .test victim _ => victim < pool.npools

/-- What holds of the deques and the threads. -/
structure Core (s : St α) : Prop where
  deques : ∀ (pid : Nat) (dq : Dequeue α), s.pool.lpools pid = .made dq → ∃ l, dq.Repr 12 l ∧ Legal (s.hist pid) l
  counted : ∀ pid, Made s.pool pid → pid < s.pool.npools
  fresh : ∀ pid, ¬ Made s.pool pid → s.hist pid = []
  tls : ∀ w pid, s.pool.tls w = some pid → Made s.pool pid
  owners : ∃ ws, Owners s ws
  threads : ∀ t, PcOk s.pool s.lock t (s.pc t)

/-- The elements put in are those in the deques and those handed out. -/
structure Inv (s : St α) : Prop extends Core s where
  balance : held s + s.out = s.put

/-- What a step of another thread leaves to a thread `t`: the deques that were made, and to the holder of the lock also
the cells and the entries. -/
structure Keeps (pool : LcPool α) (lock : Option Nat) (pool' : LcPool α) (lock' : Option Nat) (t : Nat) : Prop where
  npools : pool.npools ≤ pool'.npools
  made : ∀ pid, Made pool pid → Made pool' pid
  holder : lock = some t → lock' = some t ∧ pool'.tls = pool.tls ∧ ∀ pid, Made pool' pid → Made pool pid

theorem Keeps.refl (pool : LcPool α) (lock : Option Nat) (t : Nat) : Keeps pool lock pool lock t :=
  ⟨le_rfl, fun _ h => h, fun h => ⟨h, rfl, fun _ h => h⟩⟩

/-- What a thread relies on outlives the steps of the others. -/
theorem PcOk.mono {pool pool' : LcPool α} {lock lock' : Option Nat} {t : Nat} (h : Keeps pool lock pool' lock' t)
    {pc : Pc α} (hpc : PcOk pool lock t pc) : PcOk pool' lock' t pc := by
  cases pc with
  | idle => trivial
  | look wid c => exact hpc
  | wait wid c => exact hpc
  | locked wid c => exact ⟨(h.holder hpc.1).1, hpc.2⟩
  | count wid c =>
    obtain ⟨hl, hw, ht⟩ := hpc
    obtain ⟨hl', htls, -⟩ := h.holder hl
    exact ⟨hl', hw, htls ▸ ht⟩
  | store wid pid c =>
    obtain ⟨hl, hp, hm⟩ := hpc
    obtain ⟨hl', -, hmade⟩ := h.holder hl
    exact ⟨hl', hp.trans_le h.npools, fun hm' => hm (hmade pid hm')⟩
  | publish wid pid c => exact ⟨(h.holder hpc.1).1, h.made pid hpc.2⟩
  | unlock pid c => exact ⟨(h.holder hpc.1).1, h.made pid hpc.2⟩
  | push pid x => exact h.made pid hpc
  | pop pid nb => exact h.made pid hpc
  | steal nb => exact (show 0 < pool.npools from hpc).trans_le h.npools
  | test victim nb => exact (show victim < pool.npools from hpc).trans_le h.npools
  | popBot victim nb => exact h.made victim hpc

/-- The threads after a step of one of them. -/
theorem Core.threads_step {s : St α} (h : Core s) {t : Nat} {pool : LcPool α} {lock : Option Nat} {pc : Pc α}
    (hk : ∀ t' ≠ t, Keeps s.pool s.lock pool lock t') (hpc : PcOk pool lock t pc) (t' : Nat) :
    PcOk pool lock t' (Function.update s.pc t pc t') := by
  by_cases htt : t' = t
  · subst htt
    rwa [Function.update_self]
  · rw [Function.update_of_ne htt]
    exact (h.threads t').mono (hk t' htt)

/-- A step that only moves a thread that has no deque of its own to tell. -/
theorem Core.move {s : St α} (h : Core s) {t : Nat} {pc : Pc α} (hc : ∀ w, ¬ Claims (s.pc t) w)
    (hpc : PcOk s.pool s.lock t pc) : Core (s.goto t s.pool s.lock pc) := by
  obtain ⟨ws, ho⟩ := h.owners
  refine ⟨h.deques, h.counted, h.fresh, h.tls, ⟨ws, ho.length, ho.nodup, ho.lt, fun w hw hn => ?_⟩,
    h.threads_step (fun t' _ => Keeps.refl _ _ t') hpc⟩
  obtain ⟨t', hl, hcl⟩ := ho.told w hw hn
  have htt : t' ≠ t := fun he => hc w (he ▸ hcl)
  exact ⟨t', hl, by simpa [St.goto, htt] using hcl⟩

/-- Only the holder of the lock may have a deque to tell. -/
theorem Owners.told_of {s : St α} {ws : List Nat} (h : Owners s ws) {t w : Nat} (hl : s.lock = some t) (hw : w ∈ ws)
    (hn : s.pool.tls w = none) : Claims (s.pc t) w := by
  obtain ⟨t', hl', hc⟩ := h.told w hw hn
  rw [hl, Option.some.injEq] at hl'
  exact hl' ▸ hc

/-- `lc_spin_lock` of a free lock. -/
theorem Core.lock {s : St α} (h : Core s) {t wid : Nat} {c : Call α} (hpc : s.pc t = .wait wid c)
    (hl : s.lock = none) : Core (s.goto t s.pool (some t) (.locked wid c)) := by
  have ht := h.threads t
  rw [hpc] at ht
  obtain ⟨ws, ho⟩ := h.owners
  refine ⟨h.deques, h.counted, h.fresh, h.tls, ⟨ws, ho.length, ho.nodup, ho.lt, fun w hw hn => ?_⟩,
    h.threads_step (fun t' _ => ⟨le_rfl, fun _ hm => hm, fun hl' => ?_⟩) ⟨rfl, ht⟩⟩
  · obtain ⟨t', hl', -⟩ := ho.told w hw hn
    rw [hl] at hl'
    cases hl'
  · rw [hl] at hl'
    cases hl'

/-- `npools++`. -/
theorem Core.count {s : St α} (h : Core s) {t wid : Nat} {c : Call α} (hpc : s.pc t = .count wid c) :
    Core (s.goto t { s.pool with npools := s.pool.npools + 1 } s.lock (.store wid s.pool.npools c)) := by
  have ht := h.threads t
  rw [hpc] at ht
  obtain ⟨hl, hw, hn⟩ := ht
  obtain ⟨ws, ho⟩ := h.owners
  have hnot : wid ∉ ws := fun hm => by
    have hc := ho.told_of hl hm hn
    rw [hpc] at hc
    exact hc
  have hunmade : ¬ Made s.pool s.pool.npools := fun hm => lt_irrefl _ (h.counted _ hm)
  refine ⟨h.deques, fun pid hm => Nat.lt_succ_of_lt (h.counted pid hm), h.fresh, h.tls, ⟨wid :: ws, ?_, ?_, ?_, ?_⟩,
    h.threads_step (fun t' _ => ⟨Nat.le_succ _, fun _ hm => hm, fun hl' => ⟨hl', rfl, fun _ hm => hm⟩⟩)
      ⟨hl, Nat.lt_succ_self _, hunmade⟩⟩
  · exact congrArg (· + 1) ho.length
  · exact List.nodup_cons.2 ⟨hnot, ho.nodup⟩
  · intro w hm
    rcases List.mem_cons.1 hm with rfl | hm
    · exact hw
    · exact ho.lt w hm
  · intro w hm hn'
    rcases List.mem_cons.1 hm with rfl | hm
    · exact ⟨t, hl, by simp [St.goto, Claims]⟩
    · have hc := ho.told_of hl hm hn'
      rw [hpc] at hc
      exact hc.elim

/-- The store to `lpools`. -/
theorem Core.store {s : St α} (h : Core s) {t wid pid : Nat} {c : Call α} (hpc : s.pc t = .store wid pid c) :
    Core (s.goto t { s.pool with lpools := Function.update s.pool.lpools pid (.made dqInit) } s.lock
      (.publish wid pid c)) := by
  have ht := h.threads t
  rw [hpc] at ht
  obtain ⟨hl, hlt, hn⟩ := ht
  obtain ⟨ws, ho⟩ := h.owners
  let pool : LcPool α := { s.pool with lpools := Function.update s.pool.lpools pid (.made dqInit) }
  have hself : Made pool pid := ⟨dqInit, Function.update_self ..⟩
  have hother : ∀ {i}, i ≠ pid → pool.lpools i = s.pool.lpools i := fun hi => Function.update_of_ne hi ..
  have hmade : ∀ i, Made s.pool i → Made pool i := fun i ⟨dq, hd⟩ => by
    by_cases hi : i = pid
    · exact hi ▸ hself
    · exact ⟨dq, (hother hi).trans hd⟩
  refine ⟨fun i dq hd => ?_, fun i ⟨dq, hd⟩ => ?_, fun i hi => h.fresh i fun hm => hi (hmade i hm),
    fun w i hw => hmade i (h.tls w i hw), ⟨ws, ho.length, ho.nodup, ho.lt, fun w hw hnone => ⟨t, hl, ?_⟩⟩,
    h.threads_step (fun t' htt => ⟨le_rfl, hmade, fun hl' => ?_⟩) ⟨hl, hself⟩⟩
  · have hd : pool.lpools i = .made dq := hd
    by_cases hi : i = pid
    · subst hi
      rw [show pool.lpools i = .made dqInit from Function.update_self .., Entry.made.injEq] at hd
      refine ⟨[], hd ▸ RingBuf.Repr.empty (Nat.two_pow_pos 12), ?_⟩
      rw [show (s.goto t pool s.lock (.publish wid i c)).hist i = [] from h.fresh i hn]
      exact .nil
    · exact h.deques i dq ((hother hi).symm.trans hd)
  · by_cases hi : i = pid
    · exact hi ▸ hlt
    · exact h.counted i ⟨dq, (hother hi).symm.trans hd⟩
  · have hc := ho.told_of hl hw hnone
    rw [hpc] at hc
    simpa [St.goto, Claims] using hc
  · rw [hl, Option.some.injEq] at hl'
    exact absurd hl'.symm htt

/-- The store to `tls_pool_struct`. -/
theorem Core.publish {s : St α} (h : Core s) {t wid pid : Nat} {c : Call α} (hpc : s.pc t = .publish wid pid c) :
    Core (s.goto t { s.pool with tls := Function.update s.pool.tls wid (some pid) } s.lock (.unlock pid c)) := by
  have ht := h.threads t
  rw [hpc] at ht
  obtain ⟨hl, hm⟩ := ht
  obtain ⟨ws, ho⟩ := h.owners
  refine ⟨h.deques, h.counted, h.fresh, fun w i hw => ?_, ⟨ws, ho.length, ho.nodup, ho.lt, fun w hw hn => ?_⟩,
    h.threads_step (fun t' htt => ⟨le_rfl, fun _ hm => hm, fun hl' => ?_⟩) ⟨hl, hm⟩⟩
  · by_cases hww : w = wid
    · subst hww
      have he : pid = i := by simpa [St.goto] using hw
      exact he ▸ hm
    · exact h.tls w i ((Function.update_of_ne hww ..).symm.trans hw)
  · by_cases hww : w = wid
    · subst hww
      simp [St.goto] at hn
    · -- another worker would have its deque untold by this thread
      have hc := ho.told_of hl hw ((Function.update_of_ne hww ..).symm.trans hn)
      rw [hpc] at hc
      exact absurd hc.symm hww
  · rw [hl, Option.some.injEq] at hl'
    exact absurd hl'.symm htt

theorem Call.next_ok (c : Call α) {pool : LcPool α} {pid : Nat} (h : Made pool pid) (lock : Option Nat) (t : Nat) :
    PcOk pool lock t (c.next pid) := by
  cases c with
  | put x => exact h
  | get nb => exact h

/-- `lc_spin_unlock`. -/
theorem Core.unlock {s : St α} (h : Core s) {t pid : Nat} {c : Call α} (hpc : s.pc t = .unlock pid c) :
    Core (s.goto t s.pool none (c.next pid)) := by
  have ht := h.threads t
  rw [hpc] at ht
  obtain ⟨hl, hm⟩ := ht
  obtain ⟨ws, ho⟩ := h.owners
  refine ⟨h.deques, h.counted, h.fresh, h.tls, ⟨ws, ho.length, ho.nodup, ho.lt, fun w hw hn => ?_⟩,
    h.threads_step (fun t' htt => ⟨le_rfl, fun _ hm => hm, fun hl' => ?_⟩) (c.next_ok hm none t)⟩
  · have hc := ho.told_of hl hw hn
    rw [hpc] at hc
    exact hc.elim
  · rw [hl, Option.some.injEq] at hl'
    exact absurd hl'.symm htt

/-- A write to a deque that was made. -/
theorem write_made {pool : LcPool α} {pid : Nat} {dq : Dequeue α} (hd : pool.lpools pid = .made dq) (dq' : Dequeue α) :
    pool.write pid dq' = { pool with lpools := Function.update pool.lpools pid (.made dq') } := by
  unfold LcPool.write
  rw [hd]
  rfl

theorem made_write {pool : LcPool α} {pid : Nat} {dq : Dequeue α} (hd : pool.lpools pid = .made dq) (dq' : Dequeue α)
    (i : Nat) : Made (pool.write pid dq') i ↔ Made pool i := by
  rw [write_made hd]
  by_cases hi : i = pid
  · subst hi
    exact ⟨fun _ => ⟨dq, hd⟩, fun _ => ⟨dq', Function.update_self ..⟩⟩
  · have he : Function.update pool.lpools pid (.made dq') i = pool.lpools i := Function.update_of_ne hi ..
    exact ⟨fun ⟨e, hm⟩ => ⟨e, he.symm.trans hm⟩, fun ⟨e, hm⟩ => ⟨e, he.trans hm⟩⟩

/-- A deque operation: the deque it was made on represents the next list of its history. -/
theorem Core.did {s : St α} (h : Core s) {t pid : Nat} {dq dq' : Dequeue α} {l : List α} {pc : Pc α} {op : DqOp α}
    (hc : ∀ w, ¬ Claims (s.pc t) w) (hd : s.pool.lpools pid = .made dq) (hr : dq'.Repr 12 l)
    (hl : Legal (s.hist pid ++ [op]) l) (hpc : PcOk s.pool s.lock t pc) :
    Core (s.did t (s.pool.write pid dq') pc pid op) := by
  obtain ⟨ws, ho⟩ := h.owners
  have hk : ∀ t', Keeps s.pool s.lock (s.pool.write pid dq') s.lock t' := fun t' =>
    ⟨le_rfl, fun i hi => (made_write hd dq' i).2 hi, fun hl => ⟨hl, rfl, fun i hi => (made_write hd dq' i).1 hi⟩⟩
  refine ⟨fun i e he => ?_, fun i hi => h.counted i ((made_write hd dq' i).1 hi), fun i hi => ?_,
    fun w i hw => (made_write hd dq' i).2 (h.tls w i hw), ⟨ws, ho.length, ho.nodup, ho.lt, fun w hw hn => ?_⟩,
    h.threads_step (fun t' _ => hk t') (hpc.mono (hk t))⟩
  · have he : (s.pool.write pid dq').lpools i = .made e := he
    rw [write_made hd] at he
    by_cases hi : i = pid
    · subst hi
      have he : dq' = e := by simpa using he
      exact ⟨l, he ▸ hr, by simpa [St.did] using hl⟩
    · have he : s.pool.lpools i = .made e := (Function.update_of_ne hi ..).symm.trans he
      simpa [St.did, Function.update_of_ne hi] using h.deques i e he
  · have hi' : ¬ Made s.pool i := fun hm => hi ((made_write hd dq' i).2 hm)
    have hip : i ≠ pid := fun he => hi' (he ▸ ⟨dq, hd⟩)
    simpa [St.did, Function.update_of_ne hip] using h.fresh i hi'
  · obtain ⟨t', hl', hcl⟩ := ho.told w hw hn
    have htt : t' ≠ t := fun he => hc w (he ▸ hcl)
    exact ⟨t', hl', by simpa [St.did, htt] using hcl⟩

/-! ## Balance -/

/-- The elements outside of one entry stay when that entry changes. -/
theorem held_split (lpools : Nat → Entry α) {n pid : Nat} (hp : pid < n) :
    ∃ rest : Multiset α, ∑ i ∈ Finset.range n, (lpools i).items = rest + (lpools pid).items ∧
      ∀ e, ∑ i ∈ Finset.range n, (Function.update lpools pid e i).items = rest + e.items := by
  have hmem := Finset.mem_range.2 hp
  refine ⟨∑ i ∈ (Finset.range n).erase pid, (lpools i).items, (Finset.sum_erase_add _ _ hmem).symm, fun e => ?_⟩
  rw [← Finset.sum_erase_add _ _ hmem, Function.update_self]
  refine congrArg (· + e.items) (Finset.sum_congr rfl fun i hi => ?_)
  rw [Function.update_of_ne (Finset.ne_of_mem_erase hi)]

/-- The list of a deque has no more elements than the pool. -/
theorem length_le_held {s : St α} {pid : Nat} {dq : Dequeue α} {l : List α} (hp : pid < s.pool.npools)
    (hd : s.pool.lpools pid = .made dq) (hr : dq.Repr 12 l) : l.length ≤ Multiset.card (held s) := by
  obtain ⟨rest, hs, -⟩ := held_split s.pool.lpools hp
  unfold held
  rw [hs, hd, Entry.items, dqItems, hr.items_eq, Multiset.card_add, Multiset.coe_card]
  exact Nat.le_add_left _ _

/-- The elements of the pool after an operation on one deque. -/
theorem held_write {s : St α} {t pid : Nat} {dq dq' : Dequeue α} {l l' : List α} {pc : Pc α} {op : DqOp α}
    {a b : Multiset α} (hp : pid < s.pool.npools) (hd : s.pool.lpools pid = .made dq) (hr : dq.Repr 12 l)
    (hr' : dq'.Repr 12 l') (hl : (l' : Multiset α) + a = (l : Multiset α) + b) :
    held (s.did t (s.pool.write pid dq') pc pid op) + a = held s + b := by
  obtain ⟨rest, hs, hs'⟩ := held_split s.pool.lpools hp
  unfold held St.did
  dsimp only
  rw [write_made hd, hs, hs' (.made dq'), hd, Entry.items, Entry.items, dqItems, dqItems, hr.items_eq, hr'.items_eq,
    add_assoc, hl, add_assoc]

/-- A deque with room takes one more element. -/
theorem putTo_spec {s : St α} (h : Core s) {pid : Nat} (hm : Made s.pool pid) (x : α)
    (hroom : Multiset.card (held s) + 1 ≤ Server.MAX_SIZE - 1) :
    ∃ dq dq' l, s.pool.lpools pid = .made dq ∧ dq.Repr 12 l ∧ Legal (s.hist pid) l ∧ dq'.Repr 12 (l ++ [x]) ∧
      lcPoolPutTo s.pool x pid = some (s.pool.write pid dq') := by
  obtain ⟨dq, hd⟩ := hm
  obtain ⟨l, hr, hl⟩ := h.deques pid dq hd
  have hle := length_le_held (h.counted pid ⟨dq, hd⟩) hd hr
  obtain ⟨dq', hp, hr'⟩ := hr.push x (by unfold Server.MAX_SIZE at hroom; omega)
  refine ⟨dq, dq', l, hd, hr, hl, hr', ?_⟩
  unfold lcPoolPutTo dqPushTop
  rw [hd]
  simp [Entry.load, hp]

theorem dropLast_add_getLast (l : List α) :
    (l.dropLast : Multiset α) + (l.getLast?.toList : Multiset α) = (l : Multiset α) := by
  cases l using List.reverseRecOn with
  | nil => rfl
  | append_singleton l x =>
    rw [List.dropLast_concat, List.getLast?_concat]
    rfl

theorem tail_add_head (l : List α) : (l.tail : Multiset α) + (l.head?.toList : Multiset α) = (l : Multiset α) := by
  cases l with
  | nil => rfl
  | cons x l => exact Multiset.coe_eq_coe.2 (List.perm_append_singleton x l)

theorem popLocal_spec {s : St α} (h : Core s) {pid : Nat} (hm : Made s.pool pid) :
    ∃ dq l, s.pool.lpools pid = .made dq ∧ dq.Repr 12 l ∧ Legal (s.hist pid) l ∧ (dqPopTop dq).2.Repr 12 l.dropLast ∧
      popLocal s.pool pid = some (l.getLast?, s.pool.write pid (dqPopTop dq).2) := by
  obtain ⟨dq, hd⟩ := hm
  obtain ⟨l, hr, hl⟩ := h.deques pid dq hd
  obtain ⟨h1, h2⟩ := hr.popTop
  refine ⟨dq, l, hd, hr, hl, h2, ?_⟩
  unfold popLocal
  rw [hd, ← h1]
  rfl

theorem popVictim_spec {s : St α} (h : Core s) {pid : Nat} (hm : Made s.pool pid) :
    ∃ dq l, s.pool.lpools pid = .made dq ∧ dq.Repr 12 l ∧ Legal (s.hist pid) l ∧ (dqPopBot dq).2.Repr 12 l.tail ∧
      popVictim s.pool pid = some (l.head?, s.pool.write pid (dqPopBot dq).2) := by
  obtain ⟨dq, hd⟩ := hm
  obtain ⟨l, hr, hl⟩ := h.deques pid dq hd
  obtain ⟨h1, h2⟩ := hr.popBot
  refine ⟨dq, l, hd, hr, hl, h2, ?_⟩
  unfold popVictim
  rw [hd, ← h1]
  rfl

/-- A pop that takes `ret` off the list of its deque. -/
theorem Inv.popped {s : St α} (h : Inv s) {t pid : Nat} {dq dq' : Dequeue α} {l l' : List α} {ret : Option α}
    {pc : Pc α} {op : DqOp α} (hc : ∀ w, ¬ Claims (s.pc t) w) (hd : s.pool.lpools pid = .made dq) (hr : dq.Repr 12 l)
    (hr' : dq'.Repr 12 l') (hl : (l' : Multiset α) + (ret.toList : Multiset α) = (l : Multiset α))
    (hop : Legal (s.hist pid ++ [op]) l') (hpc : PcOk s.pool s.lock t pc) :
    Inv ((s.did t (s.pool.write pid dq') pc pid op).hand ret) := by
  have hcore := h.toCore.did hc hd hr' hop hpc
  have hheld : held (s.did t (s.pool.write pid dq') pc pid op) + (ret.toList : Multiset α) = held s + 0 :=
    held_write (h.counted pid ⟨dq, hd⟩) hd hr hr' (hl.trans (add_zero _).symm)
  refine ⟨⟨hcore.deques, hcore.counted, hcore.fresh, hcore.tls, ?_, hcore.threads⟩, ?_⟩
  · obtain ⟨ws, ho⟩ := hcore.owners
    exact ⟨ws, ho.length, ho.nodup, ho.lt, ho.told⟩
  · calc held (s.did t (s.pool.write pid dq') pc pid op) + (s.out + (ret.toList : Multiset α))
        = held (s.did t (s.pool.write pid dq') pc pid op) + (ret.toList : Multiset α) + s.out := by abel
      _ = held s + s.out := by rw [hheld, add_zero]
      _ = s.put := h.balance

/-- The new deque is empty, and its index held none. -/
theorem held_store {s : St α} {t wid pid : Nat} {c : Call α} (hlt : pid < s.pool.npools) (hn : ¬ Made s.pool pid) :
    held (s.goto t { s.pool with lpools := Function.update s.pool.lpools pid (.made dqInit) } s.lock
      (.publish wid pid c)) = held s := by
  obtain ⟨rest, hs, hs'⟩ := held_split s.pool.lpools hlt
  have h0 : dqItems (dqInit : Dequeue α) = [] := (RingBuf.Repr.empty (Nat.two_pow_pos 12)).items_eq
  unfold held St.goto
  dsimp only
  rw [hs, hs', Entry.items, h0]
  cases hp : s.pool.lpools pid with
  | old o => rfl
  | made dq => exact absurd ⟨dq, hp⟩ hn

/-- The entry that `npools++` brings in holds no deque. -/
theorem Core.held_count {s : St α} (h : Core s) {t wid : Nat} {c : Call α} :
    held (s.goto t { s.pool with npools := s.pool.npools + 1 } s.lock (.store wid s.pool.npools c)) = held s := by
  unfold held St.goto
  dsimp only
  rw [Finset.sum_range_succ]
  cases hp : s.pool.lpools s.pool.npools with
  | old o => exact add_zero _
  | made dq => exact absurd (h.counted _ ⟨dq, hp⟩) (lt_irrefl _)

/-- What one step preserves. -/
theorem Inv.step {s s' : St α} {t : Nat} {ret : Option α} (h : Inv s) (hset : Settled s t) (hs : Step s t ret s') :
    Inv s' := by
  have ht := h.threads t
  have hcl : ∀ {pc : Pc α}, s.pc t = pc → (∀ w, ¬ Claims pc w) → ∀ w, ¬ Claims (s.pc t) w := fun hpc hc => hpc ▸ hc
  cases hs with
  | @callPut wid x hpc hw => exact ⟨h.toCore.move (hcl hpc fun _ => id) hw, h.balance⟩
  | @callPutTo pid x hpc hm => exact ⟨h.toCore.move (hcl hpc fun _ => id) hm, h.balance⟩
  | @callGet wid nb hpc hw => exact ⟨h.toCore.move (hcl hpc fun _ => id) hw, h.balance⟩
  | @found wid pid c hpc hf =>
    exact ⟨h.toCore.move (hcl hpc fun _ => id) (c.next_ok (h.tls wid pid hf) s.lock t), h.balance⟩
  | @missed wid c hpc hn =>
    rw [hpc] at ht
    exact ⟨h.toCore.move (hcl hpc fun _ => id) ht, h.balance⟩
  | @lock wid c hpc hl => exact ⟨h.toCore.lock hpc hl, h.balance⟩
  | @foundLocked wid pid c hpc hf =>
    rw [hpc] at ht
    exact ⟨h.toCore.move (hcl hpc fun _ => id) ⟨ht.1, h.tls wid pid hf⟩, h.balance⟩
  | @missedLocked wid c hpc hn =>
    rw [hpc] at ht
    exact ⟨h.toCore.move (hcl hpc fun _ => id) ⟨ht.1, ht.2, hn⟩, h.balance⟩
  | @count wid c hpc => exact ⟨h.toCore.count hpc, by rw [h.toCore.held_count]; exact h.balance⟩
  | @store wid pid c hpc hlt =>
    rw [hpc] at ht
    exact ⟨h.toCore.store hpc, by rw [held_store ht.2.1 ht.2.2]; exact h.balance⟩
  | @publish wid pid c hpc => exact ⟨h.toCore.publish hpc, h.balance⟩
  | @unlock pid c hpc => exact ⟨h.toCore.unlock hpc, h.balance⟩
  | @push pid x pool hpc hroom hp =>
    rw [hpc] at ht
    obtain ⟨dq, dq', l, hd, hr, hl, hr', he⟩ := putTo_spec h.toCore ht x hroom
    rw [he] at hp
    cases hp
    have hcore := h.toCore.did (hcl hpc fun _ => id) hd hr' (.push hl) (show PcOk s.pool s.lock t .idle from trivial)
    -- the deque gains what the balance gains
    have hadd : ((l ++ [x] : List α) : Multiset α) + 0 = (l : Multiset α) + {x} := by
      rw [add_zero, ← Multiset.coe_add]
      rfl
    have hheld : held (s.did t (s.pool.write pid dq') .idle pid (.push x)) + 0 = held s + {x} :=
      held_write (h.counted pid ht) hd hr hr' hadd
    refine ⟨⟨hcore.deques, hcore.counted, hcore.fresh, hcore.tls, ?_, hcore.threads⟩, ?_⟩
    · obtain ⟨ws, ho⟩ := hcore.owners
      exact ⟨ws, ho.length, ho.nodup, ho.lt, ho.told⟩
    · calc held (s.did t (s.pool.write pid dq') .idle pid (.push x)) + s.out
          = held s + {x} + s.out := by rw [← hheld, add_zero]
        _ = {x} + (held s + s.out) := by abel
        _ = x ::ₘ s.put := by rw [h.balance, Multiset.singleton_add]
  | @pop pid nb ret pool hpc hp =>
    rw [hpc] at ht
    obtain ⟨dq, l, hd, hr, hl, hr', he⟩ := popLocal_spec h.toCore ht
    rw [he] at hp
    cases hp
    refine h.popped (hcl hpc fun _ => id) hd hr hr' (dropLast_add_getLast l) (.popTop hl) ?_
    split_ifs
    · trivial
    · exact (Nat.zero_le pid).trans_lt (h.counted pid ht)
  | @steal victim nb hpc hv => exact ⟨h.toCore.move (hcl hpc fun _ => id) hv, h.balance⟩
  | @test victim nb hpc =>
    rw [hpc] at ht
    have hm : Made s.pool victim ∨ (s.pool.lpools victim).isNull := by
      unfold Settled at hset
      rwa [hpc] at hset
    refine ⟨h.toCore.move (hcl hpc fun _ => id) ?_, h.balance⟩
    split_ifs with hnull hnb
    · exact hm.resolve_right (by simpa using hnull)
    · trivial
    · exact (Nat.zero_le victim).trans_lt ht
  | @popBot victim nb ret pool hpc hp =>
    rw [hpc] at ht
    obtain ⟨dq, l, hd, hr, hl, hr', he⟩ := popVictim_spec h.toCore ht
    rw [he] at hp
    cases hp
    refine h.popped (hcl hpc fun _ => id) hd hr hr' (tail_add_head l) (.popBot hl) ?_
    split_ifs
    · trivial
    · exact (Nat.zero_le victim).trans_lt (h.counted victim ht)

theorem Run.inv {mem : Nat → Old α} {s : St α} (h : Run Settled mem s) : Inv s := by
  induction h with
  | start =>
    have hn : ∀ pid dq, (lcPoolCreate mem).lpools pid ≠ .made dq := fun _ _ hd => by cases hd
    refine ⟨⟨fun pid dq hd => absurd hd (hn pid dq), fun pid ⟨dq, hd⟩ => absurd hd (hn pid dq), fun _ _ => rfl,
      fun _ _ hw => ?_, ⟨[], rfl, List.nodup_nil, by simp, by simp⟩, fun _ => trivial⟩, rfl⟩
    cases hw
  | step _ hset hs ih => exact ih.step hset hs

/-- A step hands out an element that was in the pool. -/
theorem Inv.handed_mem {s s' : St α} {t : Nat} {x : α} (h : Inv s) (hs : Step s t (some x) s') : x ∈ held s := by
  have ht := h.threads t
  have hmem : ∀ {pid : Nat} {dq : Dequeue α} {l : List α}, s.pool.lpools pid = .made dq → dq.Repr 12 l → x ∈ l →
      x ∈ held s := fun {pid dq l} hd hr hx => by
    obtain ⟨rest, hsum, -⟩ := held_split s.pool.lpools (h.counted pid ⟨dq, hd⟩)
    unfold held
    rw [hsum, hd, Entry.items, dqItems, hr.items_eq]
    exact Multiset.mem_add.2 (.inr hx)
  cases hs with
  | @pop pid nb _ pool hpc hp =>
    rw [hpc] at ht
    obtain ⟨dq, l, hd, hr, -, -, he⟩ := popLocal_spec h.toCore ht
    rw [he, Option.some.injEq, Prod.mk.injEq] at hp
    exact hmem hd hr (List.mem_of_getLast? hp.1)
  | @popBot victim nb _ pool hpc hp =>
    rw [hpc] at ht
    obtain ⟨dq, l, hd, hr, -, -, he⟩ := popVictim_spec h.toCore ht
    rw [he, Option.some.injEq, Prod.mk.injEq] at hp
    exact hmem hd hr (List.mem_of_mem_head? hp.1)

/-- The next step of a thread inside the pool is defined: no overflow, no index past an array, no choice of a victim
among none, no pointer to nowhere. -/
def Defined (s : St α) : Pc α → Prop
  | .idle | .publish _ _ _ | .unlock _ _ => True
  | .look wid _ | .wait wid _ | .locked wid _ | .count wid _ => wid < MAX_NPOOLS
  | .store _ pid _ => pid < MAX_NPOOLS
  | .push pid x => pid < MAX_NPOOLS ∧
    (Multiset.card (held s) + 1 ≤ Server.MAX_SIZE - 1 → lcPoolPutTo s.pool x pid ≠ none)
  | .pop pid _ => pid < MAX_NPOOLS ∧ popLocal s.pool pid ≠ none
  | .steal _ => 0 < s.pool.npools
  | .test victim _ => victim < MAX_NPOOLS
  | .popBot victim _ => victim < MAX_NPOOLS ∧ popVictim s.pool victim ≠ none

/-- At most one deque is counted for each worker. -/
theorem Core.npools_le {s : St α} (h : Core s) : s.pool.npools ≤ MAX_NPOOLS := by
  obtain ⟨ws, ho⟩ := h.owners
  have hsub : ws ⊆ List.range MAX_NPOOLS := fun w hw => List.mem_range.2 (ho.lt w hw)
  have hle := (List.subperm_of_subset ho.nodup hsub).length_le
  rwa [List.length_range, ho.length] at hle

theorem Inv.defined {s : St α} (h : Inv s) (t : Nat) : Defined s (s.pc t) := by
  have ht := h.threads t
  have hle := h.npools_le
  have hlt : ∀ {pid}, Made s.pool pid → pid < MAX_NPOOLS := fun hm => (h.counted _ hm).trans_le hle
  cases hpc : s.pc t with
  | idle => trivial
  | publish wid pid c => trivial
  | unlock pid c => trivial
  | look wid c => rw [hpc] at ht; exact ht
  | wait wid c => rw [hpc] at ht; exact ht
  | locked wid c => rw [hpc] at ht; exact ht.2
  | count wid c => rw [hpc] at ht; exact ht.2.1
  | store wid pid c => rw [hpc] at ht; exact ht.2.1.trans_le hle
  | push pid x =>
    rw [hpc] at ht
    refine ⟨hlt ht, fun hroom hn => ?_⟩
    obtain ⟨_, _, _, -, -, -, -, he⟩ := putTo_spec h.toCore ht x hroom
    rw [he] at hn
    cases hn
  | pop pid nb =>
    rw [hpc] at ht
    obtain ⟨_, _, -, -, -, -, he⟩ := popLocal_spec h.toCore ht
    exact ⟨hlt ht, fun hn => by rw [he] at hn; cases hn⟩
  | steal nb => rw [hpc] at ht; exact ht
  | test victim nb => rw [hpc] at ht; exact (show victim < s.pool.npools from ht).trans_le hle
  | popBot victim nb =>
    rw [hpc] at ht
    obtain ⟨_, _, -, -, -, -, he⟩ := popVictim_spec h.toCore ht
    exact ⟨hlt ht, fun hn => by rw [he] at hn; cases hn⟩

/-- Conservation in a pool with stealing, in every state of every run in which no thief tests an entry of `lpools` that
is counted and not yet stored, unless it reads `NULL` there, and the pool never holds more than `MAX_SIZE - 1` elements:
the elements in the local deques are those put in less those handed out; an element is handed out only while it is in
the pool; each deque has behaved as a double-ended list, which is what it holds now; and the next step of every thread
is defined. -/
theorem pool_conserves {mem : Nat → Old α} {s : St α} (h : Run Settled mem s) :
    held s + s.out = s.put ∧
    (∀ t x s', Step s t (some x) s' → x ∈ held s ∧ s'.put = s.put ∧ s'.out = s.out + {x}) ∧
    (∀ pid dq, s.pool.lpools pid = .made dq → Legal (s.hist pid) (dqItems dq)) ∧
    ∀ t, Defined s (s.pc t) := by
  have hi := h.inv
  refine ⟨hi.balance, fun t x s' hs => ⟨hi.handed_mem hs, ?_⟩, fun pid dq hd => ?_, hi.defined⟩
  · cases hs <;> exact ⟨rfl, rfl⟩
  · obtain ⟨l, hr, hl⟩ := hi.deques pid dq hd
    rw [dqItems, hr.items_eq]
    exact hl

/-- Worker 3 puts 7 in the pool: a deque is made for it, and 7 is in it. -/
theorem pool_conserves_one_put : ∃ s : St Nat, Run Settled (fun _ => .null) s ∧ held s + s.out = s.put ∧
    s.put = {7} := by
  let s₁ : St Nat := (St.start fun _ => .null).goto 0 (lcPoolCreate fun _ => .null) none (.look 3 (.put 7))
  let s₂ : St Nat := s₁.goto 0 s₁.pool none (.wait 3 (.put 7))
  let s₃ : St Nat := s₂.goto 0 s₂.pool (some 0) (.locked 3 (.put 7))
  let s₄ : St Nat := s₃.goto 0 s₃.pool (some 0) (.count 3 (.put 7))
  let s₅ : St Nat := s₄.goto 0 { s₄.pool with npools := 1 } (some 0) (.store 3 0 (.put 7))
  let s₆ : St Nat := s₅.goto 0 { s₅.pool with lpools := Function.update s₅.pool.lpools 0 (.made dqInit) } (some 0)
    (.publish 3 0 (.put 7))
  let s₇ : St Nat := s₆.goto 0 { s₆.pool with tls := Function.update s₆.pool.tls 3 (some 0) } (some 0)
    (.unlock 0 (.put 7))
  let s₈ : St Nat := s₇.goto 0 s₇.pool none (.push 0 7)
  have h1 : Run Settled _ s₁ := .step (t := 0) .start trivial (.callPut rfl (by decide))
  have h2 : Run Settled _ s₂ := .step (t := 0) h1 trivial (.missed rfl rfl)
  have h3 : Run Settled _ s₃ := .step (t := 0) h2 trivial (.lock rfl rfl)
  have h4 : Run Settled _ s₄ := .step (t := 0) h3 trivial (.missedLocked rfl rfl)
  have h5 : Run Settled _ s₅ := .step (t := 0) h4 trivial (.count rfl)
  have h6 : Run Settled _ s₆ := .step (t := 0) h5 trivial (.store rfl (by decide))
  have h7 : Run Settled _ s₇ := .step (t := 0) h6 trivial (.publish rfl)
  have h8 : Run Settled _ s₈ := .step (t := 0) h7 trivial (.unlock (c := .put 7) rfl)
  have hroom : Multiset.card (held s₈) + 1 ≤ Server.MAX_SIZE - 1 := by decide
  have hmade : Made s₈.pool 0 := ⟨dqInit, rfl⟩
  obtain ⟨dq, dq', l, -, -, -, -, he⟩ := putTo_spec h8.inv.toCore hmade 7 hroom
  have h9 := Run.step (t := 0) h8 trivial (.push rfl hroom he)
  exact ⟨_, h9, (pool_conserves h9).1, rfl⟩

/-- Nothing was put in the pool, and a thief takes 9 out of it: worker 1 has counted its deque and not yet stored it
when the `lc_pool_get_nb` of worker 0 tests `lpools[1]`, where the memory held a pointer to a deque with a 9. -/
theorem steals_from_old_memory : ∃ (mem : Nat → Old Nat) (s : St Nat),
    Run (fun _ _ => True) mem s ∧ s.put = 0 ∧ s.out = {9} ∧ held s + s.out ≠ s.put := by
  let dq : Dequeue Nat := ⟨1, 0, fun _ => some 9⟩
  let get : Call Nat := .get true
  let s₁ : St Nat := (St.start fun _ => .deque dq).goto 0 (lcPoolCreate fun _ => .deque dq) none (.look 0 get)
  let s₂ : St Nat := s₁.goto 0 s₁.pool none (.wait 0 get)
  let s₃ : St Nat := s₂.goto 0 s₂.pool (some 0) (.locked 0 get)
  let s₄ : St Nat := s₃.goto 0 s₃.pool (some 0) (.count 0 get)
  let s₅ : St Nat := s₄.goto 0 { s₄.pool with npools := 1 } (some 0) (.store 0 0 get)
  let s₆ : St Nat := s₅.goto 0 { s₅.pool with lpools := Function.update s₅.pool.lpools 0 (.made dqInit) } (some 0)
    (.publish 0 0 get)
  let s₇ : St Nat := s₆.goto 0 { s₆.pool with tls := Function.update s₆.pool.tls 0 (some 0) } (some 0) (.unlock 0 get)
  let s₈ : St Nat := s₇.goto 0 s₇.pool none (.pop 0 true)
  let s₉ : St Nat := (s₈.did 0 (s₈.pool.write 0 dqInit) (.steal true) 0 (.popTop none)).hand none
  -- worker 1 up to the increment of npools
  let t₁ : St Nat := s₉.goto 1 s₉.pool none (.look 1 get)
  let t₂ : St Nat := t₁.goto 1 t₁.pool none (.wait 1 get)
  let t₃ : St Nat := t₂.goto 1 t₂.pool (some 1) (.locked 1 get)
  let t₄ : St Nat := t₃.goto 1 t₃.pool (some 1) (.count 1 get)
  let t₅ : St Nat := t₄.goto 1 { t₄.pool with npools := 2 } (some 1) (.store 1 1 get)
  -- the thief
  let u₁ : St Nat := t₅.goto 0 t₅.pool (some 1) (.test 1 true)
  let u₂ : St Nat := u₁.goto 0 u₁.pool (some 1) (.popBot 1 true)
  let u₃ : St Nat := (u₂.did 0 (u₂.pool.write 1 (dqPopBot dq).2) .idle 1 (.popBot (some 9))).hand (some 9)
  have h1 : Run (fun _ _ => True) (fun _ => .deque dq) s₁ := .step .start trivial (.callGet rfl (by decide))
  have h2 : Run _ _ s₂ := h1.step (t := 0) trivial (.missed rfl rfl)
  have h3 : Run _ _ s₃ := h2.step (t := 0) trivial (.lock rfl rfl)
  have h4 : Run _ _ s₄ := h3.step (t := 0) trivial (.missedLocked rfl rfl)
  have h5 : Run _ _ s₅ := h4.step (t := 0) trivial (.count rfl)
  have h6 : Run _ _ s₆ := h5.step (t := 0) trivial (.store rfl (by decide))
  have h7 : Run _ _ s₇ := h6.step (t := 0) trivial (.publish rfl)
  have h8 : Run _ _ s₈ := h7.step (t := 0) trivial (.unlock (c := get) rfl)
  have h9 : Run _ _ s₉ := h8.step trivial (@Step.pop _ s₈ 0 0 true none _ rfl rfl)
  have k1 : Run _ _ t₁ := h9.step (t := 1) trivial (.callGet rfl (by decide))
  have k2 : Run _ _ t₂ := k1.step (t := 1) trivial (.missed rfl rfl)
  have k3 : Run _ _ t₃ := k2.step (t := 1) trivial (.lock rfl rfl)
  have k4 : Run _ _ t₄ := k3.step (t := 1) trivial (.missedLocked rfl rfl)
  have k5 : Run _ _ t₅ := k4.step (t := 1) trivial (.count rfl)
  have l1 : Run _ _ u₁ := k5.step (t := 0) trivial (.steal rfl (by decide))
  have l2 : Run _ _ u₂ := l1.step trivial (@Step.test _ u₁ 0 1 true rfl)
  have l3 : Run _ _ u₃ := l2.step trivial (@Step.popBot _ u₂ 0 1 true (some 9) _ rfl rfl)
  refine ⟨_, u₃, l3, rfl, rfl, fun h => ?_⟩
  have hcard := congrArg Multiset.card h
  rw [show u₃.out = {9} from rfl, show u₃.put = 0 from rfl, Multiset.card_add, Multiset.card_singleton,
    Multiset.card_zero] at hcard
  omega

end Lci.Pool
