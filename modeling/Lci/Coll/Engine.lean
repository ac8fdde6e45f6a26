/-
The ranks of a job that run collectives one after another (coll/common.h). Each rank polls its
request with `lc_col_progress`, here one step for every point where another rank or the progress
thread may come between; messages meet the receives posted for their source and tag, the oldest
first. A send is buffered, complete when `lc_send` returns, or waits for its receive; then its
content is read from the sender's buffer when the two meet.
-/
import Lci.Coll.Sched
import Lci.Lib.Network

namespace Lci.Coll

open Network (SendSt)

/-- The point reached in `lc_col_progress`: outside of it, at the head of the loop, between the
`lc_send` and the `lc_recv` of an exchange, or at the test after an operation. -/
inductive Pc
  | idle
  | loop
  | post (dst : Buf) (rank : Nat)
  | test
deriving DecidableEq

/-- A receive posted with `lc_recv`: the request it uses (`pending[1]` if `second`), its buffer, source
and tag, and what it got once a message has met it. -/
structure Recv where
  second : Bool
  dst : Buf
  rank : Nat
  tag : Nat
  got : Option Bytes

/-- A message on its way. `call` and `idx` say which operation of which collective of its sender sent
it; no step looks at them. `val` is the content when it was sent. -/
structure Msg where
  call : Nat
  idx : Nat
  tag : Nat
  src : Buf
  val : Bytes
  sync : Bool

/-- One rank; `calls` counts the collectives it has called. -/
structure Rank where
  calls : Nat
  pc : Pc
  req : ColReq
  mem : Mem
  recv : Option Recv
  send : SendSt

/-- The buffer and the destination of what an operation sends. -/
def ColSched.target : ColSched → Option (Buf × Nat)
  | .send src rank => some (src, rank)
  | .sendrecv src _ rank => some (src, rank)
  | _ => none

/-- `lc_reset` of `pending[0]` and `lc_send`; a send that does not wait runs its callback at once. -/
def Rank.lcSend (x : Rank) (sync : Bool) : Rank :=
  { x with req := { x.req with sync0 := !sync }, send := if sync then .waiting else .idle }

/-- `lc_recv` into `dst`, with `pending[1]` if `second`. -/
def Rank.lcRecv (x : Rank) (second : Bool) (dst : Buf) (rank : Nat) : Rank :=
  { x with
    req := { x.req with
      sync0 := if second then x.req.sync0 else false
      sync1 := if second then false else x.req.sync1 }
    recv := some ⟨second, dst, rank, x.req.tag, none⟩ }

/-- The body of the loop for one operation, up to the `lc_recv` of an exchange. -/
def Rank.next (x : Rank) (op : ColSched) (sync : Bool) : Rank :=
  let x := { x with req := { x.req with cur := x.req.cur + 1 }, pc := .test }
  match op with
  | .send _ _ => x.lcSend sync
  | .recv src rank => x.lcRecv false src rank
  | .sendrecv _ dst rank => { x.lcSend sync with pc := .post dst rank }
  | .op dst src => { x with mem := Function.update x.mem dst (x.req.op (x.mem dst) (x.mem src)) }
  | .mem dst src => { x with mem := Function.update x.mem dst (x.mem src) }
  | .free src => { x with mem := Function.update x.mem src [] }

/-- Both pending operations are done. -/
def ColReq.done (req : ColReq) : Bool := req.sync0 && req.sync1

/-- The receive `v` completes with content `a`. -/
def Rank.land (x : Rank) (v : Recv) (a : Bytes) : Rank :=
  { x with
    mem := Function.update x.mem v.dst a
    recv := none
    req := { x.req with
      sync0 := if v.second then x.req.sync0 else true
      sync1 := if v.second then true else x.req.sync1 } }

/-- The ranks, and the messages from each to each. -/
structure State (P : Nat) where
  rank : Fin P → Rank
  chan : Fin P → Fin P → List Msg

variable {P : Nat}

def State.set (s : State P) (r : Fin P) (x : Rank) : State P := { s with rank := Function.update s.rank r x }

/-- Rank `r` executes operation `op`. -/
def State.exec (s : State P) (r : Fin P) (op : ColSched) (sync : Bool) : State P where
  rank := Function.update s.rank r ((s.rank r).next op sync)
  chan a b := s.chan a b ++ match op.target with
    | some (src, k) => if a = r ∧ b.val = k then
        [⟨(s.rank r).calls - 1, (s.rank r).req.cur, (s.rank r).req.tag, src, (s.rank r).mem src, sync⟩] else []
    | none => []

/-- Message `m` from `i` meets the receive `v` posted at `j`. -/
def State.meet (s : State P) (i j : Fin P) (v : Recv) (m : Msg) (rest : List Msg) : State P where
  rank k :=
    { s.rank k with
      recv := if k = j then
        some { v with got := some (if m.sync then (s.rank i).mem m.src else m.val) } else (s.rank k).recv
      send := if k = i ∧ m.sync = true then .acked else (s.rank k).send }
  chan a b := if a = i ∧ b = j then rest else s.chan a b

/-- Message `m`, the oldest of its tag on its way from `i` to `j`, and the receive `v` posted at `j` for it. -/
structure State.Meets (s : State P) (i j : Fin P) (v : Recv) (m : Msg) (pre rest : List Msg) : Prop where
  posted : (s.rank j).recv = some v
  empty : v.got = none
  source : v.rank = i.val
  chan : s.chan i j = pre ++ m :: rest
  tag : m.tag = v.tag
  oldest : ∀ m' ∈ pre, m'.tag ≠ v.tag

/-- How a rank starts its collectives: what its c-th call makes of its buffers and its request. -/
abbrev Start (P : Nat) := Nat → Fin P → Mem → ColReq → Option (Mem × ColReq)

/-- The steps of the job. `mayWait size` says that a send of `size` bytes may wait for its receive. -/
inductive Step (start : Start P) (mayWait : Nat → Bool) (s : State P) : State P → Prop
  | call (r : Fin P) (m : Mem) (req : ColReq) (hp : (s.rank r).pc = .idle)
      (hf : (s.rank r).calls = 0 ∨ (s.rank r).req.flag = true)
      (hs : start (s.rank r).calls r (s.rank r).mem (s.rank r).req = some (m, req)) :
      Step start mayWait s (s.set r { s.rank r with
        calls := (s.rank r).calls + 1, pc := if req.flag then .idle else .loop, req, mem := m })
  | poll (r : Fin P) (hp : (s.rank r).pc = .idle) (hc : (s.rank r).calls ≠ 0) :
      Step start mayWait s (s.set r { s.rank r with pc := if (s.rank r).req.done then .loop else .idle })
  | next (r : Fin P) (op : ColSched) (sync : Bool) (hp : (s.rank r).pc = .loop)
      (ho : (s.rank r).req.next[(s.rank r).req.cur]? = some op)
      (ht : ∀ src k, op.target = some (src, k) → k < P)
      (hs : sync = true → mayWait (s.rank r).req.size = true) : Step start mayWait s (s.exec r op sync)
  | fin (r : Fin P) (hp : (s.rank r).pc = .loop) (ho : (s.rank r).req.next.length ≤ (s.rank r).req.cur) :
      Step start mayWait s (s.set r
        { s.rank r with pc := .idle, req := { (s.rank r).req with flag := true } })
  | post (r : Fin P) (dst : Buf) (k : Nat) (hp : (s.rank r).pc = .post dst k) :
      Step start mayWait s (s.set r { (s.rank r).lcRecv true dst k with pc := .test })
  | test (r : Fin P) (hp : (s.rank r).pc = .test) :
      Step start mayWait s (s.set r { s.rank r with pc := if (s.rank r).req.done then .loop else .idle })
  | meet (i j : Fin P) (v : Recv) (m : Msg) (pre rest : List Msg) (hm : s.Meets i j v m pre rest) :
      Step start mayWait s (s.meet i j v m (pre ++ rest))
  | land (j : Fin P) (v : Recv) (a : Bytes) (hv : (s.rank j).recv = some v) (hg : v.got = some a) :
      Step start mayWait s (s.set j ((s.rank j).land v a))
  | ack (i : Fin P) (hs : (s.rank i).send = .acked) :
      Step start mayWait s (s.set i
        { s.rank i with send := .idle, req := { (s.rank i).req with sync0 := true } })

/-- Ranks that have called nothing yet. -/
structure Initial (s : State P) : Prop where
  calls : ∀ r, (s.rank r).calls = 0
  pc : ∀ r, (s.rank r).pc = .idle
  recv : ∀ r, (s.rank r).recv = none
  send : ∀ r, (s.rank r).send = .idle
  chan : ∀ i j, s.chan i j = []

/-- The states reached from ranks that have called nothing yet. -/
def Reachable (start : Start P) (mayWait : Nat → Bool) (s₀ s : State P) : Prop :=
  Initial s₀ ∧ Relation.ReflTransGen (Step start mayWait) s₀ s

/-- Rank `r` has completed its c-th collective (counted from 0). -/
def Finished (s : State P) (c : Nat) (r : Fin P) : Prop :=
  c + 1 < (s.rank r).calls ∨ ((s.rank r).calls = c + 1 ∧ (s.rank r).req.flag = true)

/-! ## Runs that can be executed -/

/-- The choices of a scheduler. -/
inductive Event (P : Nat)
  | call (r : Fin P)
  | poll (r : Fin P)
  | next (r : Fin P) (sync : Bool)
  | fin (r : Fin P)
  | post (r : Fin P)
  | test (r : Fin P)
  | meet (i j : Fin P)
  | land (j : Fin P)
  | ack (i : Fin P)

/-- The oldest message with a tag, and the others. -/
def takeTag (tag : Nat) : List Msg → Option (List Msg × Msg × List Msg)
  | [] => none
  | m :: ms => if m.tag = tag then some ([], m, ms) else
    (takeTag tag ms).map fun (pre, m', rest) => (m :: pre, m', rest)

/-- The step that a scheduler chooses, if it is possible. -/
def State.step? (start : Start P) (mayWait : Nat → Bool) (s : State P) : Event P → Option (State P)
  | .call r =>
    if (s.rank r).pc = .idle ∧ ((s.rank r).calls = 0 ∨ (s.rank r).req.flag = true) then
      (start (s.rank r).calls r (s.rank r).mem (s.rank r).req).map fun (m, req) =>
        s.set r { s.rank r with
          calls := (s.rank r).calls + 1, pc := if req.flag then .idle else .loop, req, mem := m }
    else none
  | .poll r =>
    if (s.rank r).pc = .idle ∧ (s.rank r).calls ≠ 0 then
      some (s.set r { s.rank r with pc := if (s.rank r).req.done then .loop else .idle })
    else none
  | .next r sync =>
    if (s.rank r).pc = .loop ∧ (sync = true → mayWait (s.rank r).req.size = true) then
      match (s.rank r).req.next[(s.rank r).req.cur]? with
      | some op => if op.target.all (·.2 < P) then some (s.exec r op sync) else none
      | none => none
    else none
  | .fin r =>
    if (s.rank r).pc = .loop ∧ (s.rank r).req.next.length ≤ (s.rank r).req.cur then
      some (s.set r { s.rank r with pc := .idle, req := { (s.rank r).req with flag := true } })
    else none
  | .post r => match (s.rank r).pc with
    | .post dst k => some (s.set r { (s.rank r).lcRecv true dst k with pc := .test })
    | _ => none
  | .test r =>
    if (s.rank r).pc = .test then
      some (s.set r { s.rank r with pc := if (s.rank r).req.done then .loop else .idle })
    else none
  | .meet i j => match (s.rank j).recv with
    | some v => match v.got, takeTag v.tag (s.chan i j) with
      | none, some (pre, m, rest) => if v.rank = i.val then some (s.meet i j v m (pre ++ rest)) else none
      | _, _ => none
    | none => none
  | .land j => match (s.rank j).recv with
    | some v => v.got.map fun a => s.set j ((s.rank j).land v a)
    | none => none
  | .ack i =>
    if (s.rank i).send = .acked then
      some (s.set i { s.rank i with send := .idle, req := { (s.rank i).req with sync0 := true } })
    else none

theorem takeTag_spec {tag : Nat} {l pre rest : List Msg} {m : Msg} (h : takeTag tag l = some (pre, m, rest)) :
    l = pre ++ m :: rest ∧ m.tag = tag ∧ ∀ m' ∈ pre, m'.tag ≠ tag := by
  induction l generalizing pre with
  | nil => cases h
  | cons a l ih =>
    unfold takeTag at h
    split at h
    · rename_i ha
      cases h
      exact ⟨rfl, ha, by simp⟩
    · rename_i ha
      obtain ⟨⟨pre', m', rest'⟩, hx, he⟩ := Option.map_eq_some_iff.1 h
      cases he
      obtain ⟨h1, h2, h3⟩ := ih hx
      refine ⟨by rw [h1]; rfl, h2, ?_⟩
      intro x hx
      rcases List.mem_cons.1 hx with rfl | hx
      · exact ha
      · exact h3 x hx

theorem State.step?_sound {start : Start P} {mayWait : Nat → Bool} {s s' : State P} {e : Event P}
    (h : s.step? start mayWait e = some s') : Step start mayWait s s' := by
  cases e with
  | call r =>
    simp only [State.step?] at h
    split at h
    · rename_i hc
      obtain ⟨⟨m, req⟩, hs, rfl⟩ := Option.map_eq_some_iff.1 h
      exact .call r m req hc.1 hc.2 hs
    · cases h
  | poll r =>
    simp only [State.step?] at h
    split at h
    · rename_i hc
      cases h
      exact .poll r hc.1 hc.2
    · cases h
  | next r sync =>
    simp only [State.step?] at h
    split at h
    · rename_i hc
      split at h
      · rename_i op ho
        split at h
        · rename_i ht
          cases h
          refine .next r op sync hc.1 ho (fun src k hk => ?_) hc.2
          rw [hk] at ht
          simpa using ht
        · cases h
      · cases h
    · cases h
  | fin r =>
    simp only [State.step?] at h
    split at h
    · rename_i hc
      cases h
      exact .fin r hc.1 hc.2
    · cases h
  | post r =>
    simp only [State.step?] at h
    split at h
    · rename_i dst k hp
      cases h
      exact .post r dst k hp
    · cases h
  | test r =>
    simp only [State.step?] at h
    split at h
    · rename_i hc
      cases h
      exact .test r hc
    · cases h
  | meet i j =>
    simp only [State.step?] at h
    split at h
    · rename_i v hv
      split at h
      · rename_i pre m rest hg ht
        split at h
        · rename_i hi
          cases h
          -- the message taken is the oldest one with the tag of the receive
          obtain ⟨h1, h2, h3⟩ := takeTag_spec ht
          exact .meet i j v m pre rest ⟨hv, hg, hi, h1, h2, h3⟩
        · cases h
      · cases h
    · cases h
  | land j =>
    simp only [State.step?] at h
    split at h
    · rename_i v hv
      obtain ⟨a, hg, rfl⟩ := Option.map_eq_some_iff.1 h
      exact .land j v a hv hg
    · cases h
  | ack i =>
    simp only [State.step?] at h
    split at h
    · rename_i hs
      cases h
      exact .ack i hs
    · cases h

/-- The state after a list of choices. -/
def State.run? (start : Start P) (mayWait : Nat → Bool) (s : State P) : List (Event P) → Option (State P)
  | [] => some s
  | e :: es => (s.step? start mayWait e).bind fun s' => s'.run? start mayWait es

theorem State.run?_sound {start : Start P} {mayWait : Nat → Bool} :
    ∀ {es : List (Event P)} {s s' : State P}, s.run? start mayWait es = some s' →
      Relation.ReflTransGen (Step start mayWait) s s'
  | [], s, s', h => by
    cases h
    exact .refl
  | e :: es, s, s', h => by
    obtain ⟨t, ht, hs⟩ := Option.bind_eq_some_iff.1 h
    exact .head (State.step?_sound ht) (State.run?_sound hs)

/-- The job before its first call, with empty buffers. -/
def State.init (P : Nat) : State P where
  rank _ :=
    { calls := 0, pc := .idle, mem := fun _ => [], recv := none, send := .idle,
      req :=
        { flag := false, cur := 0, sync0 := false, sync1 := false
          op := fun a _ => a, next := [], size := 0, tag := 0 } }
  chan _ _ := []

theorem State.init_initial (P : Nat) : Initial (State.init P) :=
  ⟨fun _ => rfl, fun _ => rfl, fun _ => rfl, fun _ => rfl, fun _ _ => rfl⟩

end Lci.Coll
