/-
A job that runs collectives one after another is a network (`Network`) whose processes repeat the
operations of their schedules: a step of a rank is a step of its process or leaves it as it was
(`Step.simulates`), so what holds of every run of the network holds of every run of the job.
-/
import Lci.Coll.Engine
import Lci.Lib.Rounds

namespace Lci.Coll

open Network (Act Prog SendSt RecvSt)

variable {P : Nat}

/-- The rank that an operation sends to or receives from. -/
def ColSched.peer : ColSched → Option Nat
  | .send _ rank => some rank
  | .recv _ rank => some rank
  | .sendrecv _ _ rank => some rank
  | _ => none

/-- A collective that the ranks repeat: the schedule of each rank, and of the c-th call what it does
to the buffers at once, its operation and its size. -/
structure Collective (P : Nat) where
  sched : Fin P → List ColSched
  setup : Nat → Fin P → Mem → Mem
  op : Nat → Bytes → Bytes → Bytes
  size : Nat → Nat
  tag : Nat
  inRange : ∀ r, ∀ op ∈ sched r, ∀ k, op.peer = some k → k < P

/-- What the c-th call of rank `r` leaves in its request. A schedule that combines nothing may leave
any operation there. -/
structure Collective.Begins (K : Collective P) (c : Nat) (r : Fin P) (req : ColReq) : Prop where
  flag : req.flag = false
  cur : req.cur = 0
  sync0 : req.sync0 = true
  sync1 : req.sync1 = true
  next : req.next = K.sched r
  size : req.size = K.size c
  tag : req.tag = K.tag
  op : ∀ dst src, ColSched.op dst src ∈ K.sched r → req.op = K.op c

/-- `start` starts the calls of `K`. -/
def Collective.Starts (K : Collective P) (start : Start P) : Prop :=
  ∀ c r m req, ∃ req', start c r m req = some (K.setup c r m, req') ∧ K.Begins c r req'

/-! ## The network of a collective -/

/-- A rank of the job, if it is one. -/
def toRank (P k : Nat) : Option (Fin P) := if h : k < P then some ⟨k, h⟩ else none

theorem toRank_val (r : Fin P) : toRank P r.val = some r := by
  simp [toRank]

/-- Writes the content of a message to its buffer. -/
def write (dst : Buf) (a : Bytes) (m : Mem) : Mem := Function.update m dst a

/-- An operation as an action of its process. -/
def act (P : Nat) (f : Bytes → Bytes → Bytes) : ColSched → Act (Fin P) Bytes Mem
  | .send src k => ⟨(toRank P k).map fun j => (j, fun m => m src), none, id⟩
  | .recv dst k => ⟨none, (toRank P k).map fun j => (j, write dst), id⟩
  | .sendrecv src dst k => ⟨(toRank P k).map fun j => (j, fun m => m src),
      (toRank P k).map fun j => (j, write dst), id⟩
  | .op dst src => ⟨none, none, fun m => Function.update m dst (f (m dst) (m src))⟩
  | .mem dst src => ⟨none, none, fun m => Function.update m dst (m src)⟩
  | .free src => ⟨none, none, fun m => Function.update m src []⟩

/-- The actions of a call: the call itself, and its operations. -/
def Collective.len (K : Collective P) (r : Fin P) : Nat := (K.sched r).length + 1

/-- The program of a rank: its calls one after another. -/
def Collective.prog (K : Collective P) : Prog (Fin P) Bytes Mem := fun r n =>
  match n % K.len r with
  | 0 => ⟨none, none, K.setup (n / K.len r) r⟩
  | w + 1 => match (K.sched r)[w]? with
    | some op => act P (K.op (n / K.len r)) op
    | none => ⟨none, none, id⟩

variable (K : Collective P)

theorem Collective.len_pos (r : Fin P) : 0 < K.len r := Nat.succ_pos _

theorem Collective.prog_call (c : Nat) (r : Fin P) :
    K.prog r (c * K.len r) = ⟨none, none, K.setup c r⟩ := by
  simp only [Collective.prog, Nat.mul_mod_left, Nat.mul_div_cancel _ (K.len_pos r)]

theorem Collective.pos_mod {r : Fin P} {w : Nat} (h : w < (K.sched r).length) (c : Nat) :
    (c * K.len r + 1 + w) % K.len r = w + 1 ∧ (c * K.len r + 1 + w) / K.len r = c := by
  have hlt : 1 + w < K.len r := by unfold Collective.len; omega
  constructor
  · rw [Nat.add_assoc, Nat.mul_comm, Nat.mul_add_mod, Nat.mod_eq_of_lt hlt, Nat.add_comm]
  · rw [Nat.add_assoc, Nat.mul_comm, Nat.mul_add_div (K.len_pos r), Nat.div_eq_of_lt hlt, Nat.add_zero]

theorem lt_length_of_getElem? {α : Type} {l : List α} {w : Nat} {a : α} (h : l[w]? = some a) : w < l.length :=
  (List.getElem?_eq_some_iff.1 h).1

theorem Collective.prog_op {r : Fin P} {w : Nat} {op : ColSched} (h : (K.sched r)[w]? = some op) (c : Nat) :
    K.prog r (c * K.len r + 1 + w) = act P (K.op c) op := by
  obtain ⟨hm, hd⟩ := K.pos_mod (lt_length_of_getElem? h) c
  simp only [Collective.prog, hm, hd, h]

/-! ## The abstraction -/

/-- The position of a rank in its program. -/
def Collective.pos (K : Collective P) (r : Fin P) (x : Rank) : Nat := match x.calls with
  | 0 => 0
  | c + 1 => c * K.len r + 1 + x.req.cur

/-- The receive of a rank. That of an exchange counts as posted as soon as its send is done. -/
def absRecv (x : Rank) : RecvSt Bytes := match x.pc, x.recv with
  | .post _ _, _ => .posted
  | _, none => .idle
  | _, some v => match v.got with
    | none => .posted
    | some a => .landed a

def Collective.absMsg (K : Collective P) (i : Fin P) (m : Msg) : Network.Msg Bytes :=
  ⟨m.call * K.len i + 1 + m.idx, m.val, m.sync⟩

def Collective.absRank (K : Collective P) (r : Fin P) (x : Rank) : Network.Proc Bytes Mem :=
  ⟨K.pos r x, x.mem, absRecv x, x.send⟩

def Collective.abs (K : Collective P) (s : State P) : Network.State (Fin P) Bytes Mem where
  proc r := K.absRank r (s.rank r)
  chan i j := (s.chan i j).map (K.absMsg i)

theorem absRecv_of_none {x : Rank} (hr : x.recv = none) (hp : ∀ dst k, x.pc ≠ .post dst k) :
    absRecv x = .idle := by
  unfold absRecv
  rw [hr]
  cases h : x.pc with
  | post dst k => exact absurd h (hp dst k)
  | _ => rfl

theorem absRecv_of_some {x : Rank} {v : Recv} (hr : x.recv = some v) (hp : ∀ dst k, x.pc ≠ .post dst k) :
    absRecv x = match v.got with
      | none => .posted
      | some a => .landed a := by
  unfold absRecv
  rw [hr]
  cases h : x.pc with
  | post dst k => exact absurd h (hp dst k)
  | _ => rfl

theorem absRecv_congr {x y : Rank} (hr : x.recv = y.recv) (hx : ∀ dst k, x.pc ≠ .post dst k)
    (hy : ∀ dst k, y.pc ≠ .post dst k) : absRecv x = absRecv y := by
  cases h : y.recv with
  | none => rw [absRecv_of_none (hr.trans h) hx, absRecv_of_none h hy]
  | some v => rw [absRecv_of_some (hr.trans h) hx, absRecv_of_some h hy]

/-! ## The invariant -/

/-- What holds of a rank: its request is that of its last call, and what is pending belongs to the
operation started last, with the flags of the request saying so. -/
structure RankInv (K : Collective P) (r : Fin P) (x : Rank) : Prop where
  fresh : x.calls = 0 → x.pc = .idle ∧ x.recv = none ∧ x.send = .idle
  next : x.calls ≠ 0 → x.req.next = K.sched r
  op : x.calls ≠ 0 → ∀ dst src, ColSched.op dst src ∈ K.sched r → x.req.op = K.op (x.calls - 1)
  size : x.calls ≠ 0 → x.req.size = K.size (x.calls - 1)
  tag : x.calls ≠ 0 → x.req.tag = K.tag
  cur : x.calls ≠ 0 → x.req.cur ≤ (K.sched r).length
  loop : x.pc = .loop → x.recv = none ∧ x.send = .idle
  post : ∀ dst k, x.pc = .post dst k → x.recv = none ∧ 0 < x.req.cur ∧
    ∃ src, (K.sched r)[x.req.cur - 1]? = some (.sendrecv src dst k)
  recv : ∀ v, x.recv = some v → v.tag = K.tag ∧ 0 < x.req.cur ∧
    if v.second then ∃ src, (K.sched r)[x.req.cur - 1]? = some (.sendrecv src v.dst v.rank)
    else (K.sched r)[x.req.cur - 1]? = some (.recv v.dst v.rank)
  send : x.send ≠ .idle → 0 < x.req.cur ∧ ∃ op, (K.sched r)[x.req.cur - 1]? = some op ∧ op.target.isSome
  sync0 : x.calls ≠ 0 → (x.req.sync0 = true ↔ x.send = .idle ∧ ∀ v, x.recv = some v → v.second = true)
  sync1 : x.calls ≠ 0 → (x.req.sync1 = true ↔ ∀ v, x.recv = some v → v.second = false)
  flag : x.calls ≠ 0 → x.req.flag = true → x.req.cur = (K.sched r).length ∧ x.recv = none ∧ x.send = .idle ∧
    (x.pc = .idle ∨ x.pc = .loop)

/-- What holds of a job: of each rank, and of each message that the operation it names sent it. -/
structure JobInv (K : Collective P) (s : State P) : Prop where
  rank : ∀ r, RankInv K r (s.rank r)
  chan : ∀ i j, ∀ m ∈ s.chan i j, m.tag = K.tag ∧
    ∃ op, (K.sched i)[m.idx]? = some op ∧ op.target = some (m.src, j.val)

variable {K} {r : Fin P} {x : Rank}

theorem RankInv.calls_of_pc (h : RankInv K r x) (hp : x.pc ≠ .idle) : x.calls ≠ 0 :=
  fun e => hp (h.fresh e).1

theorem RankInv.calls_of_recv (h : RankInv K r x) {v : Recv} (hv : x.recv = some v) : x.calls ≠ 0 := by
  intro e
  rw [(h.fresh e).2.1] at hv
  cases hv

theorem RankInv.calls_of_send (h : RankInv K r x) (hs : x.send ≠ .idle) : x.calls ≠ 0 :=
  fun e => hs (h.fresh e).2.2

theorem RankInv.not_post (h : RankInv K r x) {v : Recv} (hv : x.recv = some v) (dst : Buf) (k : Nat) :
    x.pc ≠ .post dst k := by
  intro e
  rw [(h.post dst k e).1] at hv
  cases hv

/-- The flags say whether something is pending. -/
theorem RankInv.done_iff (h : RankInv K r x) (hc : x.calls ≠ 0) :
    x.req.done = true ↔ x.recv = none ∧ x.send = .idle := by
  unfold ColReq.done
  rw [Bool.and_eq_true, h.sync0 hc, h.sync1 hc]
  constructor
  · rintro ⟨⟨hs, h0⟩, h1⟩
    refine ⟨?_, hs⟩
    cases hv : x.recv with
    | none => rfl
    | some v => exact absurd ((h0 v hv).symm.trans (h1 v hv)) (by decide)
  · rintro ⟨hr, hs⟩
    refine ⟨⟨hs, ?_⟩, ?_⟩ <;> rw [hr] <;> simp

theorem pos_eq (hc : x.calls ≠ 0) :
    K.pos r x = (x.calls - 1) * K.len r + 1 + x.req.cur := by
  unfold Collective.pos
  split
  · exact absurd ‹_› hc
  · rename_i c h
    rw [h]
    rfl

/-- Where the operation started last stands in the program. -/
theorem pos_pred (hc : x.calls ≠ 0) (hcur : 0 < x.req.cur) :
    K.pos r x - 1 = (x.calls - 1) * K.len r + 1 + (x.req.cur - 1) := by
  rw [pos_eq hc]
  omega

/-- A rank that may call is at the position of its next call. -/
theorem RankInv.pos_call (h : RankInv K r x) (hf : x.calls = 0 ∨ x.req.flag = true) :
    K.pos r x = x.calls * K.len r := by
  by_cases hc : x.calls = 0
  · rw [Collective.pos, hc, Nat.zero_mul]
  · have hcur := (h.flag hc (hf.resolve_left hc)).1
    obtain ⟨c, hc'⟩ := Nat.exists_eq_succ_of_ne_zero hc
    rw [pos_eq hc, hcur, hc', Nat.succ_eq_add_one, Nat.add_sub_cancel, Nat.add_mul, Collective.len]
    omega

/-! ## The steps of a rank keep its invariant -/

/-- A rank that may call has nothing pending. -/
theorem RankInv.quiet_of_call (h : RankInv K r x) (hf : x.calls = 0 ∨ x.req.flag = true) :
    x.recv = none ∧ x.send = .idle := by
  by_cases hc : x.calls = 0
  · exact (h.fresh hc).2
  · have := h.flag hc (hf.resolve_left hc)
    exact ⟨this.2.1, this.2.2.1⟩

theorem RankInv.call (h : RankInv K r x) (hf : x.calls = 0 ∨ x.req.flag = true) (m : Mem) {req : ColReq}
    (hb : K.Begins x.calls r req) :
    RankInv K r { x with calls := x.calls + 1, pc := if req.flag then .idle else .loop, req, mem := m } := by
  obtain ⟨hr, hs⟩ := h.quiet_of_call hf
  constructor <;> simp [hb.flag, hb.cur, hb.sync0, hb.sync1, hb.next, hb.size, hb.tag, hr, hs]
  exact hb.op

/-- A rank that goes on to the loop only when nothing is pending. -/
theorem RankInv.check (h : RankInv K r x) (hc : x.calls ≠ 0) :
    RankInv K r { x with pc := if x.req.done then .loop else .idle } := by
  have hdone := h.done_iff hc
  constructor
  · exact fun e => absurd e hc
  · exact h.next
  · exact h.op
  · exact h.size
  · exact h.tag
  · exact h.cur
  · intro e
    refine hdone.1 ?_
    by_contra hd
    simp [hd] at e
  · intro dst k e
    simp only at e
    split at e <;> cases e
  · exact h.recv
  · exact h.send
  · exact h.sync0
  · exact h.sync1
  · intro hc hfl
    obtain ⟨h1, h2, h3, -⟩ := h.flag hc hfl
    refine ⟨h1, h2, h3, ?_⟩
    simp only
    split
    · exact .inr rfl
    · exact .inl rfl

theorem RankInv.fin (h : RankInv K r x) (hp : x.pc = .loop) (ho : x.req.next.length ≤ x.req.cur) :
    RankInv K r { x with pc := .idle, req := { x.req with flag := true } } := by
  have hc := h.calls_of_pc (x := x) (by rw [hp]; simp)
  obtain ⟨hr, hs⟩ := h.loop hp
  constructor
  · exact fun e => absurd e hc
  · exact h.next
  · exact h.op
  · exact h.size
  · exact h.tag
  · exact h.cur
  · simp
  · simp
  · exact h.recv
  · exact h.send
  · exact h.sync0
  · exact h.sync1
  · intro _ _
    rw [h.next hc] at ho
    exact ⟨le_antisymm (h.cur hc) ho, hr, hs, .inl rfl⟩

/-- The body of the loop for operation `op`. -/
theorem RankInv.exec (h : RankInv K r x) (hp : x.pc = .loop) {op : ColSched}
    (ho : x.req.next[x.req.cur]? = some op) (sync : Bool) : RankInv K r (x.next op sync) := by
  have hc := h.calls_of_pc (x := x) (by rw [hp]; simp)
  obtain ⟨hr, hs⟩ := h.loop hp
  have hdone := (h.done_iff hc).2 ⟨hr, hs⟩
  obtain ⟨hs0, hs1⟩ : x.req.sync0 = true ∧ x.req.sync1 = true := by
    simpa [ColReq.done] using hdone
  have hnext := h.next hc
  rw [hnext] at ho
  have hlt := lt_length_of_getElem? ho
  -- the flag is set only behind the last operation
  have hfl : x.req.flag = false := by
    by_contra e
    have := (h.flag hc (by simpa using e)).1
    omega
  have hop := h.op hc
  have hsz := h.size hc
  have htag := h.tag hc
  cases op with
  | send src k =>
    constructor <;> simp [Rank.next, Rank.lcSend, hc, hr, hnext, hsz, htag, hs1, hfl, ho, ColSched.target]
    · exact hop
    · omega
  | recv dst k =>
    constructor <;> simp [Rank.next, Rank.lcRecv, hc, hs, hnext, hsz, htag, hs1, hfl, ho]
    · exact hop
    · omega
  | sendrecv src dst k =>
    constructor <;> simp [Rank.next, Rank.lcSend, hc, hr, hnext, hsz, htag, hs1, hfl, ho, ColSched.target]
    · exact hop
    · omega
  | op dst src =>
    constructor <;> simp [Rank.next, hc, hr, hs, hnext, hsz, htag, hs0, hs1, hfl]
    · exact hop
    · omega
  | mem dst src =>
    constructor <;> simp [Rank.next, hc, hr, hs, hnext, hsz, htag, hs0, hs1, hfl]
    · exact hop
    · omega
  | free src =>
    constructor <;> simp [Rank.next, hc, hr, hs, hnext, hsz, htag, hs0, hs1, hfl]
    · exact hop
    · omega

theorem RankInv.posts (h : RankInv K r x) {dst : Buf} {k : Nat} (hp : x.pc = .post dst k) :
    RankInv K r { x.lcRecv true dst k with pc := .test } := by
  have hc := h.calls_of_pc (x := x) (by rw [hp]; simp)
  obtain ⟨hr, hcur, src, ho⟩ := h.post dst k hp
  have hfl : x.req.flag = false := by
    by_contra e
    obtain ⟨-, -, -, e | e⟩ := h.flag hc (by simpa using e) <;> rw [hp] at e <;> cases e
  have hs0 := h.sync0 hc
  rw [hr] at hs0
  constructor <;> simp [Rank.lcRecv, hc, h.next hc, h.size hc, h.tag hc, h.cur hc, hfl, hcur, ho]
  · exact h.op hc
  · exact fun _ => rfl
  · simpa using hs0

/-- A message meets the receive of a rank, or completes its send. -/
theorem RankInv.met (h : RankInv K r x) {v : Recv} (hv : x.recv = some v) (got : Option Bytes) :
    RankInv K r { x with recv := some { v with got } } := by
  have hc := h.calls_of_recv hv
  obtain ⟨htag, hcur, hop⟩ := h.recv v hv
  have hfl : x.req.flag = false := by
    by_contra e
    have := (h.flag hc (by simpa using e)).2.1
    rw [hv] at this
    cases this
  have hs0 := h.sync0 hc
  have hs1 := h.sync1 hc
  simp only [hv, Option.some.injEq, forall_eq'] at hs0 hs1
  constructor
  · exact fun e => absurd e hc
  · exact h.next
  · exact h.op
  · exact h.size
  · exact h.tag
  · exact h.cur
  · intro e
    rw [(h.loop e).1] at hv
    cases hv
  · exact fun dst k e => absurd e (h.not_post hv dst k)
  · rintro _ ⟨⟩
    exact ⟨htag, hcur, hop⟩
  · exact h.send
  · simpa [hc] using hs0
  · simpa [hc] using hs1
  · simp [hfl]

theorem RankInv.acked (h : RankInv K r x) (hs : x.send = .waiting) : RankInv K r { x with send := .acked } := by
  have hne : x.send ≠ .idle := by rw [hs]; simp
  have hc := h.calls_of_send hne
  have hs0 := h.sync0 hc
  constructor
  · exact fun e => absurd e hc
  · exact h.next
  · exact h.op
  · exact h.size
  · exact h.tag
  · exact h.cur
  · exact fun e => absurd (h.loop e).2 hne
  · exact h.post
  · exact h.recv
  · exact fun _ => h.send hne
  · simpa [hc, hs] using hs0
  · exact h.sync1
  · exact fun hc e => absurd (h.flag hc e).2.2.1 hne

theorem RankInv.lands (h : RankInv K r x) {v : Recv} (hv : x.recv = some v) (a : Bytes) :
    RankInv K r (x.land v a) := by
  have hc := h.calls_of_recv hv
  have hpost := h.not_post hv
  obtain ⟨-, hcur, hop⟩ := h.recv v hv
  have hfl : x.req.flag = false := by
    by_contra e
    have := (h.flag hc (by simpa using e)).2.1
    rw [hv] at this
    cases this
  have hs0 := h.sync0 hc
  have hs1 := h.sync1 hc
  have hsend := h.send
  simp only [hv, Option.some.injEq, forall_eq'] at hs0 hs1
  have hloop : x.pc ≠ .loop := by
    intro e
    rw [(h.loop e).1] at hv
    cases hv
  cases hsec : v.second with
  | true =>
    constructor <;> simp [Rank.land, hc, hsec, h.next hc, h.size hc, h.tag hc, h.cur hc, hfl, hpost, hloop]
    · exact h.op hc
    · exact hsend
    · simpa [hsec] using hs0
  | false =>
    -- an operation that only receives has no send
    have hidle : x.send = .idle := by
      by_contra e
      obtain ⟨-, op, ho, ht⟩ := hsend e
      rw [hsec] at hop
      rw [show (K.sched r)[x.req.cur - 1]? = some (.recv v.dst v.rank) by simpa using hop] at ho
      cases ho
      cases ht
    constructor <;> simp [Rank.land, hc, hsec, h.next hc, h.size hc, h.tag hc, h.cur hc, hfl, hpost, hloop, hidle]
    · exact h.op hc
    · simpa [hsec] using hs1

theorem RankInv.acks (h : RankInv K r x) (hs : x.send = .acked) :
    RankInv K r { x with send := .idle, req := { x.req with sync0 := true } } := by
  have hne : x.send ≠ .idle := by rw [hs]; simp
  have hc := h.calls_of_send hne
  obtain ⟨hcur, op, ho, ht⟩ := h.send hne
  constructor
  · exact fun e => absurd e hc
  · exact h.next
  · exact h.op
  · exact h.size
  · exact h.tag
  · exact h.cur
  · exact fun e => absurd (h.loop e).2 hne
  · exact h.post
  · exact h.recv
  · simp
  · intro _
    refine ⟨fun _ => ⟨rfl, ?_⟩, fun _ => rfl⟩
    intro v hv
    obtain ⟨-, -, hop⟩ := h.recv v hv
    by_contra hsec
    simp only [hsec] at hop
    rw [show (K.sched r)[x.req.cur - 1]? = some (.recv v.dst v.rank) by simpa using hop] at ho
    cases ho
    cases ht
  · exact h.sync1
  · exact fun hc e => absurd (h.flag hc e).2.2.1 hne

/-! ## The steps of the job -/

variable {start : Start P} {mayWait : Nat → Bool} {s s' : State P}

theorem State.set_rank (s : State P) (r : Fin P) (x : Rank) (k : Fin P) :
    (s.set r x).rank k = if k = r then x else s.rank k := by
  simp only [State.set, Function.update_apply]

theorem JobInv.set (h : JobInv K s) {x : Rank} (hx : RankInv K r x) : JobInv K (s.set r x) := by
  refine ⟨?_, h.chan⟩
  intro k
  rw [State.set_rank]
  split
  · rename_i e; exact e ▸ hx
  · exact h.rank k

theorem JobInv.exec (h : JobInv K s) (hp : (s.rank r).pc = .loop) {op : ColSched}
    (ho : (s.rank r).req.next[(s.rank r).req.cur]? = some op) (sync : Bool) :
    JobInv K (s.exec r op sync) := by
  have hx := h.rank r
  have hc := hx.calls_of_pc (by rw [hp]; simp)
  refine ⟨?_, ?_⟩
  · intro k
    simp only [State.exec, Function.update_apply]
    split
    · rename_i e; exact e ▸ hx.exec hp ho sync
    · exact h.rank k
  · intro i j m hm
    rcases List.mem_append.1 hm with hm | hm
    · exact h.chan i j m hm
    · split at hm
      · rename_i src k ht
        split at hm
        · rename_i hij
          obtain ⟨rfl, rfl⟩ := hij
          rw [List.mem_singleton.1 hm]
          exact ⟨hx.tag hc, op, by rw [← hx.next hc]; exact ho, ht⟩
        · cases hm
      · cases hm

/-- A sender whose synchronous message is on its way waits for it. -/
def SyncWaits (s : State P) : Prop :=
  ∀ i j, ∀ m ∈ s.chan i j, m.sync = true → (s.rank i).send = .waiting

theorem JobInv.meet (h : JobInv K s) (hw : SyncWaits s) {i j : Fin P} {v : Recv} {m : Msg} {rest : List Msg}
    (hv : (s.rank j).recv = some v) (hm : m ∈ s.chan i j) (hrest : ∀ m' ∈ rest, m' ∈ s.chan i j) :
    JobInv K (s.meet i j v m rest) := by
  refine ⟨?_, ?_⟩
  · intro k
    have hsend : RankInv K k { s.rank k with send := if k = i ∧ m.sync = true then .acked else (s.rank k).send } := by
      split
      · rename_i e
        obtain ⟨rfl, hsync⟩ := e
        exact (h.rank k).acked (hw k j m hm hsync)
      · exact h.rank k
    by_cases hk : k = j
    · subst hk
      have := hsend.met hv (some (if m.sync then (s.rank i).mem m.src else m.val))
      simpa [State.meet] using this
    · simpa [State.meet, hk] using hsend
  · intro a b m' hm'
    simp only [State.meet] at hm'
    split at hm'
    · rename_i e
      obtain ⟨rfl, rfl⟩ := e
      exact h.chan a b m' (hrest m' hm')
    · exact h.chan a b m' hm'

/-! ## The simulation -/

theorem act_out {f : Bytes → Bytes → Bytes} {op : ColSched} {src : Buf} {k : Nat}
    (ht : op.target = some (src, k)) (hk : k < P) :
    (act P f op).out = some (⟨k, hk⟩, fun m => m src) := by
  cases op <;> simp only [ColSched.target, Option.some.injEq, Prod.mk.injEq, reduceCtorEq] at ht
  all_goals
    obtain ⟨rfl, rfl⟩ := ht
    simp [act, toRank, hk]

theorem act_out_none {f : Bytes → Bytes → Bytes} {op : ColSched} (ht : op.target = none) :
    (act P f op).out = none := by
  cases op <;> simp only [ColSched.target, reduceCtorEq] at ht <;> rfl

/-- Setting a rank sets its process. -/
theorem abs_set (s : State P) (r : Fin P) (x : Rank) :
    K.abs (s.set r x) = ⟨Function.update (K.abs s).proc r (K.absRank r x), (K.abs s).chan⟩ := by
  simp only [Collective.abs, State.set, Network.State.mk.injEq, and_true]
  funext k
  by_cases hk : k = r
  · subst hk; simp
  · simp [hk]

theorem abs_set_eq {x : Rank} (hx : K.absRank r x = K.absRank r (s.rank r)) : K.abs (s.set r x) = K.abs s := by
  rw [abs_set, hx]
  exact congrArg (Network.State.mk · _) (Function.update_eq_self r (K.abs s).proc)

theorem abs_ready (hr : x.recv = none) (hs : x.send = .idle) (hp : ∀ dst k, x.pc ≠ .post dst k) :
    (K.absRank r x).Ready :=
  ⟨absRecv_of_none hr hp, hs⟩

/-- A call is the first action of its block. -/
theorem abs_call (h : RankInv K r (s.rank r)) (hf : (s.rank r).calls = 0 ∨ (s.rank r).req.flag = true)
    {req : ColReq} (hb : K.Begins (s.rank r).calls r req) :
    K.abs (s.set r { s.rank r with
        calls := (s.rank r).calls + 1, pc := if req.flag then .idle else .loop, req,
        mem := K.setup (s.rank r).calls r (s.rank r).mem }) =
      Network.exec (K.abs s) r (K.prog r ((K.abs s).proc r).pc) false := by
  obtain ⟨hr, hs⟩ := h.quiet_of_call hf
  have hpos : ((K.abs s).proc r).pc = (s.rank r).calls * K.len r := h.pos_call hf
  rw [hpos, K.prog_call, abs_set]
  simp only [Network.exec, Network.State.mk.injEq, and_true]
  congr 1
  simp only [Network.Proc.start, hpos]
  simp [Collective.absRank, Collective.pos, hb.cur, hb.flag, absRecv, hr, hs, Collective.abs]

/-- An operation is the action at the position of its rank. -/
theorem abs_exec (h : RankInv K r (s.rank r)) (hp : (s.rank r).pc = .loop) {op : ColSched}
    (ho : (s.rank r).req.next[(s.rank r).req.cur]? = some op) (sync : Bool) :
    K.abs (s.exec r op sync) = Network.exec (K.abs s) r (K.prog r ((K.abs s).proc r).pc) sync := by
  have hc := h.calls_of_pc (by rw [hp]; simp)
  obtain ⟨hr, hs⟩ := h.loop hp
  rw [h.next hc] at ho
  have hpos : ((K.abs s).proc r).pc = ((s.rank r).calls - 1) * K.len r + 1 + (s.rank r).req.cur := pos_eq hc
  have hpeer := K.inRange r op (List.mem_of_getElem? ho)
  have hact := K.prog_op ho ((s.rank r).calls - 1)
  rw [hpos, hact]
  -- the rank itself: one case for each operation of the schedule
  have hproc : K.absRank r ((s.rank r).next op sync) =
      ((K.abs s).proc r).start (act P (K.op ((s.rank r).calls - 1)) op) sync := by
    have hpos' : ∀ y : Rank, y.calls = (s.rank r).calls → y.req.cur = (s.rank r).req.cur + 1 →
        K.pos r y = K.pos r (s.rank r) + 1 := by
      intro y h1 h2
      rw [pos_eq hc, pos_eq (by rw [h1]; exact hc), h1, h2]
      omega
    simp only [Collective.absRank, Collective.abs, Network.Proc.start, Network.Proc.mk.injEq]
    cases op with
    | send src k =>
      have hk := hpeer k rfl
      exact ⟨hpos' _ rfl rfl, rfl, by simp [Rank.next, Rank.lcSend, absRecv, act, hr],
        by simp [Rank.next, Rank.lcSend, act, toRank, hk]⟩
    | recv dst k =>
      have hk := hpeer k rfl
      exact ⟨hpos' _ rfl rfl, rfl, by simp [Rank.next, Rank.lcRecv, absRecv, act, toRank, hk],
        by simp [Rank.next, Rank.lcRecv, act, hs]⟩
    | sendrecv src dst k =>
      have hk := hpeer k rfl
      exact ⟨hpos' _ rfl rfl, rfl, by simp [Rank.next, Rank.lcSend, absRecv, act, toRank, hk],
        by simp [Rank.next, Rank.lcSend, act, toRank, hk]⟩
    | op dst src =>
      have hop := h.op hc dst src (List.mem_of_getElem? ho)
      exact ⟨hpos' _ rfl rfl, by simp [Rank.next, act, hop], by simp [Rank.next, absRecv, act, hr],
        by simp [Rank.next, act, hs]⟩
    | mem dst src =>
      exact ⟨hpos' _ rfl rfl, rfl, by simp [Rank.next, absRecv, act, hr], by simp [Rank.next, act, hs]⟩
    | free src =>
      exact ⟨hpos' _ rfl rfl, rfl, by simp [Rank.next, absRecv, act, hr], by simp [Rank.next, act, hs]⟩
  -- a channel grows exactly when the operation has a target
  have hchan : ∀ a b, (K.abs (s.exec r op sync)).chan a b =
      (Network.exec (K.abs s) r (act P (K.op ((s.rank r).calls - 1)) op) sync).chan a b := by
    intro a b
    rw [Network.exec_chan]
    simp only [Collective.abs, State.exec, List.map_append]
    congr 1
    cases ht : op.target with
    | none => rw [act_out_none ht]; rfl
    | some x =>
      obtain ⟨src, k⟩ := x
      have hk : k < P := by
        refine hpeer k ?_
        cases op <;> simp_all [ColSched.target, ColSched.peer]
      rw [act_out ht hk]
      simp only [Fin.ext_iff]
      split
      · rename_i e
        obtain ⟨e, -⟩ := e
        obtain rfl : a = r := Fin.ext e
        simp [Collective.absMsg, Collective.absRank, pos_eq hc]
      · rfl
  have hproc' : ∀ k, (K.abs (s.exec r op sync)).proc k =
      (Network.exec (K.abs s) r (act P (K.op ((s.rank r).calls - 1)) op) sync).proc k := by
    intro k
    by_cases hk : k = r
    · subst hk
      rw [Network.exec_proc_self, ← hproc]
      simp [Collective.abs, State.exec]
    · rw [Network.exec_proc_ne hk]
      simp [Collective.abs, State.exec, hk]
  exact Network.State.ext (funext hproc') (funext fun a => funext (hchan a))

/-- The receive that a rank has posted is that of its action. -/
theorem RankInv.inp (h : RankInv K r x) {v : Recv} (hv : x.recv = some v) {i : Fin P} (hi : v.rank = i.val) :
    (K.prog r (K.pos r x - 1)).inp = some (i, write v.dst) := by
  obtain ⟨-, hcur, hop⟩ := h.recv v hv
  rw [pos_pred (h.calls_of_recv hv) hcur]
  split at hop
  · obtain ⟨src, ho⟩ := hop
    rw [K.prog_op ho, hi]
    simp [act, toRank_val]
  · rw [K.prog_op hop, hi]
    simp [act, toRank_val]

theorem abs_meet (h : JobInv K s) {i j : Fin P} {v : Recv} {m : Msg} {rest : List Msg}
    (hv : (s.rank j).recv = some v) :
    K.abs (s.meet i j v m rest) = Network.meet (K.abs s) i j (K.absMsg i m) (rest.map (K.absMsg i))
      (if m.sync then (s.rank i).mem m.src else m.val) := by
  refine Network.State.ext (funext fun k => ?_) (funext fun a => funext fun b => ?_)
  · simp only [Collective.abs, State.meet, Network.meet, Collective.absRank, Network.Proc.mk.injEq, true_and]
    refine ⟨rfl, ?_, rfl⟩
    by_cases hk : k = j
    · subst hk
      have hpost := (h.rank k).not_post hv
      rw [absRecv_of_some (v := { v with got := some (if m.sync then (s.rank i).mem m.src else m.val) })
        (by simp) (by simpa using hpost)]
      simp
    · simp only [hk, if_false]
      rfl
  · simp only [Collective.abs, State.meet, Network.meet]
    split
    · rename_i e; rw [e.1]
    · rfl

/-- All messages carry the tag of the collective, so the oldest one is met. -/
theorem JobInv.pre_eq_nil (h : JobInv K s) {i j : Fin P} {v : Recv} {m : Msg} {pre rest : List Msg}
    (hm : s.Meets i j v m pre rest) : pre = [] := by
  cases pre with
  | nil => rfl
  | cons m' _ =>
    have htag := (h.chan i j m' (by rw [hm.chan]; simp)).1
    have hvtag := ((h.rank j).recv v hm.posted).1
    exact absurd (htag.trans hvtag.symm) (hm.oldest m' (by simp))

theorem Step.simulates {wait : Bool} (hst : K.Starts start) (hwait : ∀ c, mayWait (K.size c) = true → wait = true)
    (h : JobInv K s) (hw : SyncWaits s) (hs : Step start mayWait s s') :
    JobInv K s' ∧ (K.abs s' = K.abs s ∨ Network.Step K.prog wait (K.abs s) (K.abs s')) := by
  cases hs with
  | call r m req hp hf hs =>
    obtain ⟨req', he, hb⟩ := hst (s.rank r).calls r (s.rank r).mem (s.rank r).req
    rw [he] at hs
    cases hs
    refine ⟨h.set ((h.rank r).call hf _ hb), .inr ?_⟩
    obtain ⟨hr, hsend⟩ := (h.rank r).quiet_of_call hf
    have hready : ((K.abs s).proc r).Ready := abs_ready hr hsend (by rw [hp]; simp)
    exact abs_call (h.rank r) hf hb ▸ Network.Step.exec r false hready (by simp)
  | poll r hp hc =>
    -- the test of the flags is no step of the network
    refine ⟨h.set ((h.rank r).check hc), .inl (abs_set_eq ?_)⟩
    simp only [Collective.absRank, Network.Proc.mk.injEq, true_and, and_true]
    refine ⟨rfl, absRecv_congr rfl (fun dst k => ?_) (by rw [hp]; simp)⟩
    simp only
    split <;> simp
  | next r op sync hp ho ht hsync =>
    have hx := h.rank r
    have hc := hx.calls_of_pc (by rw [hp]; simp)
    obtain ⟨hr, hsend⟩ := hx.loop hp
    have hready : ((K.abs s).proc r).Ready := abs_ready hr hsend (by rw [hp]; simp)
    refine ⟨h.exec hp ho sync, .inr ?_⟩
    exact abs_exec hx hp ho sync ▸ Network.Step.exec r sync hready fun e => hwait _ (hx.size hc ▸ hsync e)
  | fin r hp ho =>
    refine ⟨h.set ((h.rank r).fin hp ho), .inl (abs_set_eq ?_)⟩
    simp only [Collective.absRank, Network.Proc.mk.injEq, true_and, and_true]
    exact ⟨rfl, absRecv_congr rfl (by simp) (by rw [hp]; simp)⟩
  -- a receive that is still to be posted counts as posted in the network
  | post r dst k hp =>
    refine ⟨h.set ((h.rank r).posts hp), .inl (abs_set_eq ?_)⟩
    simp only [Collective.absRank, Network.Proc.mk.injEq]
    exact ⟨rfl, rfl, by simp [absRecv, hp, Rank.lcRecv], rfl⟩
  | test r hp =>
    have hc := (h.rank r).calls_of_pc (by rw [hp]; simp)
    refine ⟨h.set ((h.rank r).check hc), .inl (abs_set_eq ?_)⟩
    simp only [Collective.absRank, Network.Proc.mk.injEq, true_and, and_true]
    refine ⟨rfl, absRecv_congr rfl (fun dst k => ?_) (by rw [hp]; simp)⟩
    simp only
    split <;> simp
  | meet i j v m pre rest hm =>
    obtain rfl := h.pre_eq_nil hm
    obtain ⟨hv, hg, hi, hc, -, -⟩ := hm
    rw [List.nil_append] at hc ⊢
    have hm : m ∈ s.chan i j := by rw [hc]; exact List.mem_cons_self
    refine ⟨h.meet hw hv hm fun m' hm' => by rw [hc]; exact List.mem_cons_of_mem _ hm', .inr (.deliver ?_)⟩
    rw [abs_meet h hv]
    refine Network.Delivery.meet i j _ _ _ _ ?_ ?_ ((h.rank j).inp hv hi) ?_
    · simp only [Collective.abs, hc, List.map_cons]
    · simp only [Collective.abs, Collective.absRank]
      rw [absRecv_of_some hv ((h.rank j).not_post hv), hg]
    · obtain ⟨-, op, ho, htgt⟩ := h.chan i j m hm
      unfold Network.Carries
      cases hsync : m.sync with
      | true =>
        refine if_pos (show (K.absMsg i m).sync = true from hsync) ▸ ⟨fun mem => mem m.src, ?_, ?_⟩
        · simp only [Collective.absMsg]
          rw [K.prog_op ho, act_out htgt j.isLt]
        · simp [Collective.abs, Collective.absRank]
      | false => simp [Collective.absMsg, hsync]
  | land j v a hv hg =>
    refine ⟨h.set ((h.rank j).lands hv a), .inr (.deliver ?_)⟩
    have hx := h.rank j
    have hrank : v.rank < P := by
      obtain ⟨-, hcur, hop⟩ := hx.recv v hv
      split at hop
      · obtain ⟨src, ho⟩ := hop
        exact K.inRange j _ (List.mem_of_getElem? ho) v.rank rfl
      · exact K.inRange j _ (List.mem_of_getElem? hop) v.rank rfl
    have heq : K.abs (s.set j ((s.rank j).land v a)) =
        Network.land (K.abs s) j a (write v.dst) := by
      rw [abs_set]
      simp only [Network.land, Network.State.mk.injEq, and_true]
      congr 1
      simp only [Collective.absRank, Collective.abs, Network.Proc.mk.injEq]
      exact ⟨rfl, rfl, absRecv_of_none rfl (hx.not_post hv), rfl⟩
    rw [heq]
    refine Network.Delivery.land j a ⟨v.rank, hrank⟩ _ ?_ (hx.inp hv rfl)
    simp only [Collective.abs, Collective.absRank]
    rw [absRecv_of_some hv (hx.not_post hv), hg]
  | ack i hs =>
    refine ⟨h.set ((h.rank i).acks hs), .inr (.deliver ?_)⟩
    have heq : K.abs (s.set i { s.rank i with send := .idle, req := { (s.rank i).req with sync0 := true } }) =
        Network.ack (K.abs s) i := by
      rw [abs_set]
      rfl
    rw [heq]
    exact Network.Delivery.ack i hs

/-! ## Runs -/

variable {s₀ : State P} {wait : Bool} {mem0 : Fin P → Mem} {rv : Fin P → Nat → Bytes}

theorem Initial.jobInv (h : Initial s₀) : JobInv K s₀ := by
  refine ⟨fun r => ?_, fun i j m hm => by rw [h.chan] at hm; cases hm⟩
  constructor <;> simp [h.calls, h.pc, h.recv, h.send]

theorem Initial.abs (h : Initial s₀) : K.abs s₀ = Network.init fun r => (s₀.rank r).mem := by
  refine Network.State.ext (funext fun r => ?_) (funext fun i => funext fun j => ?_)
  · simp [Collective.abs, Collective.absRank, Collective.pos, absRecv, Network.init, h.calls, h.pc, h.recv, h.send]
  · simp [Collective.abs, Network.init, h.chan]

theorem syncWaits_of_inv (h : Network.Inv K.prog mem0 rv wait (K.abs s)) : SyncWaits s :=
  fun i j m hm hs => (h.sync_wait i j (K.absMsg i m) (List.mem_map_of_mem hm) hs).1

/-- Every state of a job is one of its network. -/
theorem Reachable.inv (hr : Reachable start mayWait s₀ s) (hst : K.Starts start)
    (hwait : ∀ c, mayWait (K.size c) = true → wait = true)
    (hm : Network.Matched K.prog (fun r => (s₀.rank r).mem) rv) (hstable : Network.Stable K.prog) :
    JobInv K s ∧ Network.Inv K.prog (fun r => (s₀.rank r).mem) rv wait (K.abs s) := by
  obtain ⟨hinit, hrun⟩ := hr
  induction hrun with
  | refl => exact ⟨hinit.jobInv, hinit.abs (K := K) ▸ Network.init_inv⟩
  | tail _ hs ih =>
    obtain ⟨hj, hn⟩ := ih
    obtain ⟨hj', heq | hstep⟩ := hs.simulates hst hwait hj (syncWaits_of_inv hn)
    · exact ⟨hj', heq ▸ hn⟩
    · exact ⟨hj', hstep.inv hm hstable hn⟩

/-! ## Progress -/

/-- Some step is possible that is neither a call nor a poll that finds nothing to do: it changes
something, and leaves the ranks whose flag is 1 where they are. -/
def Progresses (start : Start P) (mayWait : Nat → Bool) (s : State P) : Prop :=
  ∃ s', Step start mayWait s s' ∧ s' ≠ s ∧ ∀ r, (s'.rank r).calls = (s.rank r).calls ∧
    ((s.rank r).req.flag = true → (s'.rank r).pc = (s.rank r).pc)

theorem State.set_ne {x : Rank} (h : x ≠ s.rank r) : s.set r x ≠ s := by
  intro e
  have := congrArg (fun s => s.rank r) e
  simp only [State.set_rank, if_true] at this
  exact h this

theorem State.set_calls {x : Rank} (h : x.calls = (s.rank r).calls)
    (hp : (s.rank r).req.flag = true → x.pc = (s.rank r).pc) (k : Fin P) :
    ((s.set r x).rank k).calls = (s.rank k).calls ∧
      ((s.rank k).req.flag = true → ((s.set r x).rank k).pc = (s.rank k).pc) := by
  rw [State.set_rank]
  split
  · rename_i e; rw [e]; exact ⟨h, hp⟩
  · exact ⟨rfl, fun _ => rfl⟩

theorem Rank.next_calls (x : Rank) (op : ColSched) (sync : Bool) : (x.next op sync).calls = x.calls := by
  cases op <;> rfl

theorem Rank.next_pc (x : Rank) (op : ColSched) (sync : Bool) : (x.next op sync).pc ≠ .loop := by
  cases op <;> simp [Rank.next, Rank.lcSend, Rank.lcRecv]

/-- A rank inside `lc_col_progress` can go on. -/
theorem JobInv.progress_of_pc (h : JobInv K s) (hp : (s.rank r).pc ≠ .idle) (hf : (s.rank r).req.flag = false) :
    Progresses start mayWait s := by
  have hne : (s.rank r).req.flag ≠ true := by simp [hf]
  have hx := h.rank r
  have hc := hx.calls_of_pc hp
  cases hpc : (s.rank r).pc with
  | idle => exact absurd hpc hp
  | loop =>
    cases ho : (s.rank r).req.next[(s.rank r).req.cur]? with
    | none =>
      refine ⟨_, .fin r hpc (List.getElem?_eq_none_iff.1 ho), State.set_ne ?_,
        State.set_calls rfl fun e => absurd e hne⟩
      exact fun e => absurd (congrArg Rank.pc e) (by simp [hpc])
    | some op =>
      have hpeer := K.inRange r op (List.mem_of_getElem? (hx.next hc ▸ ho))
      refine ⟨_, .next r op false hpc ho (fun src k ht => hpeer k ?_) (by simp), ?_, ?_⟩
      · cases op <;> simp_all [ColSched.target, ColSched.peer]
      · intro e
        have := congrArg (fun s => (s.rank r).pc) e
        simp only [State.exec, Function.update_self, hpc] at this
        exact Rank.next_pc _ _ _ this
      · intro k
        by_cases hk : k = r
        · subst hk; simp [State.exec, Rank.next_calls, hf]
        · simp [State.exec, hk]
  | post dst k =>
    refine ⟨_, .post r dst k hpc, State.set_ne ?_, State.set_calls rfl fun e => absurd e hne⟩
    exact fun e => absurd (congrArg Rank.pc e) (by simp [hpc])
  | test =>
    refine ⟨_, .test r hpc, State.set_ne ?_, State.set_calls rfl fun e => absurd e hne⟩
    intro e
    have := congrArg Rank.pc e
    simp only [hpc] at this
    split at this <;> cases this

/-- A rank with nothing pending goes on when it polls. -/
theorem JobInv.progress_of_poll (h : JobInv K s) (hp : (s.rank r).pc = .idle) (hc : (s.rank r).calls ≠ 0)
    (hf : (s.rank r).req.flag = false) (hq : (s.rank r).recv = none ∧ (s.rank r).send = .idle) :
    Progresses start mayWait s := by
  refine ⟨_, .poll r hp hc, State.set_ne ?_, State.set_calls rfl fun e => absurd e (by simp [hf])⟩
  intro e
  have := congrArg Rank.pc e
  simp [((h.rank r).done_iff hc).2 hq, hp] at this

/-- What the network can deliver, the job can deliver. -/
theorem JobInv.progress_of_delivery (h : JobInv K s) (hpost : ∀ r dst k, (s.rank r).pc ≠ .post dst k)
    {t : Network.State (Fin P) Bytes Mem} (hd : Network.Delivery K.prog (K.abs s) t) :
    Progresses start mayWait s := by
  -- a receive that is pending in the network has been posted
  have hrecv : ∀ j, absRecv (s.rank j) ≠ .idle → ∃ v, (s.rank j).recv = some v := by
    intro j hj
    cases hv : (s.rank j).recv with
    | none => exact absurd (absRecv_of_none hv (hpost j)) hj
    | some v => exact ⟨v, rfl⟩
  cases hd with
  | meet i j m rest a put hc hp hi hv =>
    have hp' : absRecv (s.rank j) = .posted := hp
    obtain ⟨v, hv⟩ := hrecv j (by rw [hp']; simp)
    have hgot : v.got = none := by
      rw [absRecv_of_some hv (hpost j)] at hp'
      cases hg : v.got with
      | none => rfl
      | some a => rw [hg] at hp'; cases hp'
    have hx := h.rank j
    obtain ⟨htag, -, hop⟩ := hx.recv v hv
    have hrank : v.rank < P := by
      split at hop
      · obtain ⟨src, ho⟩ := hop
        exact K.inRange j _ (List.mem_of_getElem? ho) v.rank rfl
      · exact K.inRange j _ (List.mem_of_getElem? hop) v.rank rfl
    have hi' : v.rank = i.val := by
      have := hx.inp hv (i := ⟨v.rank, hrank⟩) rfl
      have hpc : K.pos j (s.rank j) = ((K.abs s).proc j).pc := rfl
      rw [hpc, hi] at this
      exact congrArg Fin.val (Prod.mk.inj (Option.some.inj this)).1.symm
    cases hch : s.chan i j with
    | nil => simp [Collective.abs, hch] at hc
    | cons m' rest' =>
      have hm' := (h.chan i j m' (by rw [hch]; exact List.mem_cons_self)).1
      refine ⟨_, .meet i j v m' [] rest' ⟨hv, hgot, hi', hch, hm'.trans htag.symm, by simp⟩, ?_,
        fun _ => ⟨rfl, fun _ => rfl⟩⟩
      intro e
      have := congrArg (fun s => (s.rank j).recv) e
      simp only [State.meet, if_true, hv, Option.some.injEq] at this
      have := congrArg Recv.got this
      rw [hgot] at this
      cases this
  | land j a i put hl hi =>
    have hl' : absRecv (s.rank j) = .landed a := hl
    obtain ⟨v, hv⟩ := hrecv j (by rw [hl']; simp)
    have hgot : v.got = some a := by
      rw [absRecv_of_some hv (hpost j)] at hl'
      cases hg : v.got with
      | none => rw [hg] at hl'; cases hl'
      | some b => rw [hg] at hl'; cases hl'; rfl
    refine ⟨_, .land j v a hv hgot, State.set_ne ?_, State.set_calls rfl fun _ => rfl⟩
    intro e
    have := congrArg Rank.recv e
    rw [hv] at this
    cases this
  | ack i hs =>
    have hs' : (s.rank i).send = .acked := hs
    refine ⟨_, .ack i hs', State.set_ne ?_, State.set_calls rfl fun _ => rfl⟩
    intro e
    have := congrArg Rank.send e
    rw [hs'] at this
    cases this

/-- Once every rank has called its c-th collective, and one has not completed it, some rank or message
can go on. -/
theorem JobInv.progress (h : JobInv K s) (hn : Network.Inv K.prog mem0 rv wait (K.abs s))
    {off : Fin P → Nat → Nat} {bound : Nat} (hbound : ∀ i w, off i w < bound)
    (hl : Network.Labels K.prog wait fun i n => n / K.len i * bound + off i (n % K.len i)) {c : Nat}
    (hcalls : ∀ r, c < (s.rank r).calls) (hr : ¬ Finished s c r) : Progresses start mayWait s := by
  by_cases hidle : ∀ k, (s.rank k).req.flag = false → (s.rank k).pc = .idle
  swap
  · obtain ⟨k, hk⟩ := not_forall.1 hidle
    obtain ⟨hf, hk⟩ := Classical.not_imp.1 hk
    exact h.progress_of_pc hk hf
  have hc : ∀ k, (s.rank k).calls ≠ 0 := fun k => (Nat.zero_lt_of_lt (hcalls k)).ne'
  have hpost : ∀ k dst l, (s.rank k).pc ≠ .post dst l := by
    intro k dst l e
    cases hf : (s.rank k).req.flag with
    | false => rw [hidle k hf] at e; cases e
    | true => obtain ⟨-, -, -, e' | e'⟩ := (h.rank k).flag (hc k) hf <;> rw [e'] at e <;> cases e
  have hquiet : ∀ k, ((K.abs s).proc k).Ready → (s.rank k).recv = none ∧ (s.rank k).send = .idle := by
    rintro k ⟨h1, h2⟩
    refine ⟨?_, h2⟩
    cases hv : (s.rank k).recv with
    | none => rfl
    | some v =>
      have h1' : absRecv (s.rank k) = .idle := h1
      rw [absRecv_of_some hv (hpost k)] at h1'
      split at h1' <;> cases h1'
  obtain ⟨hcr, hfl⟩ : (s.rank r).calls = c + 1 ∧ (s.rank r).req.flag = false := by
    have := hcalls r
    unfold Finished at hr
    rw [not_or, not_and] at hr
    exact ⟨by omega, by simpa using hr.2 (by omega)⟩
  by_cases hnr : ((K.abs s).proc r).Ready
  · exact h.progress_of_poll (hidle r hfl) (hc r) hfl (hquiet r hnr)
  -- the pending operation of `r` belongs to its c-th call, later calls have larger labels
  have hfront : Network.front (fun i n => n / K.len i * bound + off i (n % K.len i)) (K.abs s) r < (c + 1) * bound := by
    rw [Network.front_not_ready _ hnr]
    have hpc : ((K.abs s).proc r).pc - 1 = c * K.len r + (s.rank r).req.cur := by
      have : ((K.abs s).proc r).pc = _ := pos_eq (K := K) (hc r)
      rw [this, hcr]
      simp only [Nat.add_sub_cancel]
      omega
    have hlt : (s.rank r).req.cur < K.len r := Nat.lt_succ_of_le ((h.rank r).cur (hc r))
    have := hbound r ((c * K.len r + (s.rank r).req.cur) % K.len r)
    rw [hpc, Nat.mul_comm c, Nat.mul_add_div (K.len_pos r), Nat.div_eq_of_lt hlt, Nat.add_zero, Nat.add_mul]
    rw [Nat.mul_comm c] at this
    omega
  rcases hn.progress hl r with ⟨t, hd⟩ | ⟨i, hri, hlab⟩
  · exact h.progress_of_delivery hpost hd
  · have hfi : (s.rank i).req.flag = false := by
      by_contra hf
      have hpc : ((K.abs s).proc i).pc = (s.rank i).calls * K.len i := (h.rank i).pos_call (.inr (by simpa using hf))
      have hle : (c + 1) * bound ≤ (s.rank i).calls * bound := Nat.mul_le_mul_right _ (hcalls i)
      simp only [hpc, Nat.mul_div_cancel _ (K.len_pos i)] at hlab
      omega
    exact h.progress_of_poll (hidle i hfi) (hc i) hfi (hquiet i hri)

end Lci.Coll
