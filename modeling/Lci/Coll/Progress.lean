/-
`lc_col_progress` on one request, for any schedule (coll/common.h). The caller takes a step at every point where the
progress of the transport may come between: the entry test, the operations, the retries of `lc_send`, the two halves of
an exchange, and the test after an operation. The pending send and receive complete at any time after the transport has
accepted them, so also inside `lc_send` and `lc_recv`. What the operations do to the buffers is left to `Coll.Engine`;
here is their order.
-/
import Mathlib.Logic.Relation
import Mathlib.Tactic

namespace Lci.Coll.Progress

/-- `lc_col_sched`, by the function that appends it. -/
inductive LcColSched
  | send (src size rank tag ep : Nat)
  | recv (src size rank tag ep : Nat)
  | sendrecv (src dst size rank tag ep : Nat)
  | op (dst src size : Nat)
  | mem (dst src size : Nat)
  | free (src : Nat)
deriving DecidableEq, Repr

namespace LcColSched

/-- The operation has an `lc_send`. -/
def sends : LcColSched → Bool
  | .send .. | .sendrecv .. => true
  | _ => false

/-- The operation has an `lc_recv`. -/
def receives : LcColSched → Bool
  | .recv .. | .sendrecv .. => true
  | _ => false

/-- The `lc_recv` is on `pending[1]`. -/
def second : LcColSched → Bool
  | .sendrecv .. => true
  | _ => false

end LcColSched

/-- What `lc_col_progress` reads and writes of `lc_colreq`: `sync0` and `sync1` are the flags of `pending[0]` and
`pending[1]`, and `total` is the length of `next`. -/
structure LcColreq where
  flag : Bool
  cur : Nat
  sync0 : Bool
  sync1 : Bool
  next : List LcColSched
deriving DecidableEq, Repr

/-- `lc_colreq_init`. -/
def lcColreqInit (_req : LcColreq) : LcColreq := ⟨false, 0, true, true, []⟩

/-- `lc_col_send`, `lc_col_recv` and so on: `next[total++]` is the operation. -/
def lcColAppend (req : LcColreq) (op : LcColSched) : LcColreq := { req with next := req.next ++ [op] }

/-- The point reached in `lc_col_progress`: outside of it, at the head of the loop, in the loop of `LC_SAFE` around
`lc_send`, before the `lc_recv` of an exchange, and at the test after an operation. -/
inductive Pc
  | idle
  | loop
  | sending (op : LcColSched)
  | posting
  | test
deriving DecidableEq, Repr

/-- What has happened: operation `k` was started, its send has completed, its receive has completed. -/
inductive Event
  | start (op : LcColSched) (k : Nat)
  | sent (k : Nat)
  | received (k : Nat)
deriving DecidableEq, Repr

/-- The request, the caller, the operation of the send that the transport has accepted and not completed, that of the
receive with `pending[1]` if `true`, and what has happened so far. -/
structure St where
  req : LcColreq
  pc : Pc
  send : Option Nat
  recv : Option (Nat × Bool)
  hist : List Event

/-- A request that was initialised and given a schedule. -/
def St.start (req : LcColreq) (ops : List LcColSched) : St :=
  ⟨ops.foldl lcColAppend (lcColreqInit req), .idle, none, none, []⟩

/-- Both pending operations are done. -/
def LcColreq.done (req : LcColreq) : Bool := req.sync0 && req.sync1

/-- `lc_recv` of the operation that was started last: `lci_init_req` resets the flag of its request. -/
def St.lcRecv (s : St) (second : Bool) : St :=
  { s with
    req := { s.req with
      sync0 := if second then s.req.sync0 else false
      sync1 := if second then false else s.req.sync1 }
    recv := some (s.req.cur - 1, second) }

/-- The body of the loop for an operation, up to the first `lc_send`. -/
def St.begin (s : St) (op : LcColSched) : St :=
  let s := { s with req := { s.req with cur := s.req.cur + 1 }, hist := s.hist ++ [.start op s.req.cur], pc := .test }
  match op with
  | .send .. | .sendrecv .. => { s with req := { s.req with sync0 := false }, pc := .sending op }
  | .recv .. => s.lcRecv false
  | .op .. | .mem .. | .free .. => s

/-- The steps of the caller and of the transport. -/
inductive Step (s : St) : St → Prop
  | poll (hp : s.pc = .idle) : Step s { s with pc := if s.req.done then .loop else .idle }
  | next (op : LcColSched) (hp : s.pc = .loop) (ho : s.req.next[s.req.cur]? = some op) : Step s (s.begin op)
  | fin (hp : s.pc = .loop) (ho : s.req.next.length ≤ s.req.cur) :
      Step s { s with req := { s.req with flag := true }, pc := .idle }
  | retry (op : LcColSched) (hp : s.pc = .sending op) : Step s s
  | send (op : LcColSched) (hp : s.pc = .sending op) :
      Step s { s with send := some (s.req.cur - 1), pc := if op.second then .posting else .test }
  | post (hp : s.pc = .posting) : Step s { s.lcRecv true with pc := .test }
  | test (hp : s.pc = .test) : Step s { s with pc := if s.req.done then .loop else .idle }
  | sendDone (k : Nat) (h : s.send = some k) :
      Step s { s with req := { s.req with sync0 := true }, send := none, hist := s.hist ++ [.sent k] }
  | recvDone (k : Nat) (second : Bool) (h : s.recv = some (k, second)) :
      Step s { s with
        req := { s.req with
          sync0 := if second then s.req.sync0 else true
          sync1 := if second then true else s.req.sync1 }
        recv := none
        hist := s.hist ++ [.received k] }

/-! ## What has happened -/

/-- The operations started, with their numbers. -/
def starts (hist : List Event) : List (LcColSched × Nat) :=
  hist.filterMap fun e => match e with
    | .start op k => some (op, k)
    | _ => none

/-- The communication of operation `k` has completed. -/
def Completed (hist : List Event) (k : Nat) (op : LcColSched) : Prop :=
  (op.sends = true → .sent k ∈ hist) ∧ (op.receives = true → .received k ∈ hist)

/-- No operation was started before the communication of those before it had completed. -/
def InOrder (ops : List LcColSched) (hist : List Event) : Prop :=
  ∀ pre op k post, hist = pre ++ .start op k :: post →
    ∀ (j : Nat) (op' : LcColSched), ops[j]? = some op' → j < k → Completed pre j op'

/-- One more event keeps the order, if it is a start only when all before it is complete. -/
theorem InOrder.snoc {ops : List LcColSched} {hist : List Event} (h : InOrder ops hist) {e : Event}
    (he : ∀ op k, e = .start op k → ∀ (j : Nat) (op' : LcColSched), ops[j]? = some op' → j < k → Completed hist j op') :
    InOrder ops (hist ++ [e]) := by
  intro pre op k post hh j op' hj hjk
  rcases List.eq_nil_or_concat post with rfl | ⟨post', x, rfl⟩
  · obtain ⟨rfl, h2⟩ := List.append_inj' hh rfl
    exact he op k (List.singleton_inj.1 h2) j op' hj hjk
  · rw [List.concat_eq_append, ← List.cons_append, ← List.append_assoc] at hh
    obtain ⟨h1, -⟩ := List.append_inj' hh rfl
    exact h pre op k post' h1 j op' hj hjk

/-- Every operation was started, and all communication has completed. -/
structure AllDone (s : St) : Prop where
  started : s.req.cur = s.req.next.length
  completed : ∀ (k : Nat) (op : LcColSched), s.req.next[k]? = some op → Completed s.hist k op

/-! ## The book of a schedule -/

/-- The completions that an operation brings with it. -/
def comms (op : LcColSched) (k : Nat) : List Event :=
  (if op.sends then [.sent k] else []) ++ if op.receives then [.received k] else []

theorem completed_iff {hist : List Event} {k : Nat} {op : LcColSched} :
    Completed hist k op ↔ ∀ e ∈ comms op k, e ∈ hist := by
  unfold Completed comms
  cases op.sends <;> cases op.receives <;> simp

/-- A schedule as it goes on: the operations started, what has happened, and the completions that are still owed. -/
structure Book where
  cur : Nat
  hist : List Event
  owed : List Event

/-- The next operation is started when nothing is owed, and what is owed happens. -/
inductive Book.Step (ops : List LcColSched) (b : Book) : Book → Prop
  | start (op : LcColSched) (ho : ops[b.cur]? = some op) (hq : b.owed = []) :
      Step ops b ⟨b.cur + 1, b.hist ++ [.start op b.cur], comms op b.cur⟩
  | complete (e : Event) (he : e ∈ b.owed) : Step ops b ⟨b.cur, b.hist ++ [e], b.owed.erase e⟩

structure Book.Inv (ops : List LcColSched) (b : Book) : Prop where
  le : b.cur ≤ ops.length
  starts_eq : starts b.hist = (ops.take b.cur).zipIdx
  order : InOrder ops b.hist
  /-- every completion has happened, or it is owed, and not both -/
  known : ∀ (k : Nat) (op : LcColSched), ops[k]? = some op → k < b.cur → ∀ e ∈ comms op k, e ∈ b.hist ∨ e ∈ b.owed
  apart : ∀ e ∈ b.owed, e ∉ b.hist
  nodup : b.owed.Nodup
  recent : ∀ e ∈ b.owed, ∃ op, ops[b.cur - 1]? = some op ∧ 0 < b.cur ∧ e ∈ comms op (b.cur - 1)
  bound : ∀ k, (.sent k ∈ b.hist ∨ .received k ∈ b.hist) → k < b.cur

theorem mem_comms {op : LcColSched} {k : Nat} {e : Event} (h : e ∈ comms op k) : e = .sent k ∨ e = .received k := by
  unfold comms at h
  cases op.sends <;> cases op.receives <;> simp at h <;> tauto

theorem comms_nodup (op : LcColSched) (k : Nat) : (comms op k).Nodup := by
  unfold comms
  cases op.sends <;> cases op.receives <;> simp

theorem starts_append (hist : List Event) (e : Event) : starts (hist ++ [e]) = starts hist ++ starts [e] := by
  unfold starts
  rw [List.filterMap_append]

theorem Book.Inv.step {ops : List LcColSched} {b b' : Book} (h : b.Inv ops) (hs : b.Step ops b') : b'.Inv ops := by
  obtain ⟨hle, hstarts, horder, hknown, hapart, hnodup, hrecent, hbound⟩ := h
  cases hs with
  | start op ho hq =>
    have hlt : b.cur < ops.length := (List.getElem?_eq_some_iff.1 ho).1
    -- nothing is owed, so everything before is complete
    have hdone : ∀ (j : Nat) (op' : LcColSched), ops[j]? = some op' → j < b.cur → Completed b.hist j op' := by
      intro j op' hj hjc
      rw [completed_iff]
      intro e he
      rcases hknown j op' hj hjc e he with h1 | h1
      · exact h1
      · rw [hq] at h1
        cases h1
    refine ⟨hlt, ?_, horder.snoc ?_, ?_, ?_, comms_nodup op b.cur, ?_, ?_⟩
    · rw [starts_append, hstarts, List.take_add_one, ho, List.zipIdx_append]
      simp [starts, Nat.min_eq_left hle]
    · intro op' k he j op'' hj hjk
      cases he
      exact hdone j op'' hj hjk
    · intro k op' hk hkc e he
      rcases Nat.lt_succ_iff_lt_or_eq.1 hkc with hlt' | rfl
      · exact .inl (List.mem_append_left _ (completed_iff.1 (hdone k op' hk hlt') e he))
      · rw [ho] at hk
        cases hk
        exact .inr he
    · intro e he hm
      rcases List.mem_append.1 hm with hm | hm
      · rcases mem_comms he with rfl | rfl
        · exact absurd (hbound _ (.inl hm)) (lt_irrefl _)
        · exact absurd (hbound _ (.inr hm)) (lt_irrefl _)
      · rw [List.mem_singleton] at hm
        rcases mem_comms he with rfl | rfl <;> cases hm
    · intro e he
      exact ⟨op, ho, Nat.succ_pos _, he⟩
    · intro k hk
      simp only [List.mem_append, List.mem_singleton, reduceCtorEq, or_false] at hk
      exact (hbound k hk).trans (Nat.lt_succ_self _)
  | complete e he =>
    obtain ⟨op, hop, hpos, hmem⟩ := hrecent e he
    refine ⟨hle, ?_, horder.snoc ?_, ?_, ?_, hnodup.erase e, ?_, ?_⟩
    · rw [starts_append, hstarts]
      rcases mem_comms hmem with rfl | rfl <;> simp [starts]
    · intro op' k hk
      rcases mem_comms hmem with rfl | rfl <;> cases hk
    · intro k op' hk hkc x hx
      by_cases hxe : x = e
      · exact .inl (by simp [hxe])
      · rcases hknown k op' hk hkc x hx with h1 | h1
        · exact .inl (List.mem_append_left _ h1)
        · exact .inr ((List.mem_erase_of_ne hxe).2 h1)
    · intro x hx hm
      obtain ⟨hne, hx⟩ := hnodup.mem_erase_iff.1 hx
      rcases List.mem_append.1 hm with hm | hm
      · exact hapart x hx hm
      · exact hne (List.mem_singleton.1 hm)
    · intro x hx
      exact hrecent x (List.mem_of_mem_erase hx)
    · intro k hk
      simp only [List.mem_append, List.mem_singleton] at hk
      have hek : (Event.sent k = e ∨ Event.received k = e) → k < b.cur := by
        rintro (rfl | rfl)
        · rcases mem_comms hmem with h | h <;> cases h
          omega
        · rcases mem_comms hmem with h | h <;> cases h
          omega
      rcases hk with (hk | hk) | (hk | hk)
      · exact hbound k (.inl hk)
      · exact hek (.inl hk)
      · exact hbound k (.inr hk)
      · exact hek (.inr hk)

/-! ## The engine keeps the book -/

/-- The completion of the send of the operation started last, if it is still to come. -/
def St.owedSend (s : St) : List Event :=
  match s.pc with
  | .sending _ => [.sent (s.req.cur - 1)]
  | _ => s.send.toList.map .sent

/-- And that of its receive. -/
def St.owedRecv (s : St) : List Event :=
  match s.pc with
  | .sending op => if op.receives then [.received (s.req.cur - 1)] else []
  | .posting => [.received (s.req.cur - 1)]
  | _ => s.recv.toList.map fun x => .received x.1

def St.book (s : St) : Book := ⟨s.req.cur, s.hist, s.owedSend ++ s.owedRecv⟩

/-- The flags and the pending operations at every point of the engine. -/
structure Shape (s : St) : Prop where
  sync0 : s.req.sync0 = false ↔ (∃ op, s.pc = .sending op) ∨ s.send.isSome ∨ ∃ k, s.recv = some (k, false)
  sync1 : s.req.sync1 = false ↔ ∃ k, s.recv = some (k, true)
  sending : ∀ op, s.pc = .sending op → op.sends = true ∧ op.receives = op.second ∧ s.send = none ∧ s.recv = none
  posting : s.pc = .posting → s.recv = none
  loop : s.pc = .loop → s.req.done = true
  /-- a send and a receive are pending together only in an exchange -/
  both : s.send.isSome → ∀ k, s.recv ≠ some (k, false)
  recv : s.recv.isSome → s.pc = .idle ∨ s.pc = .test
  flag : s.req.flag = true → s.req.next.length ≤ s.req.cur ∧ s.req.done = true ∧ (s.pc = .idle ∨ s.pc = .loop)

/-- When both flags are set nothing is pending. -/
theorem Shape.quiet {s : St} (h : Shape s) (hd : s.req.done = true) :
    s.send = none ∧ s.recv = none ∧ ∀ op, s.pc ≠ .sending op := by
  unfold LcColreq.done at hd
  rw [Bool.and_eq_true] at hd
  have h0 : ¬ ((∃ op, s.pc = .sending op) ∨ s.send.isSome ∨ ∃ k, s.recv = some (k, false)) := by
    rw [← h.sync0, hd.1]
    decide
  have h1 : ¬ ∃ k, s.recv = some (k, true) := by
    rw [← h.sync1, hd.2]
    decide
  refine ⟨?_, ?_, fun op hp => h0 (.inl ⟨op, hp⟩)⟩
  · cases hs : s.send with
    | none => rfl
    | some k => exact absurd (.inr (.inl (by rw [hs]; rfl))) h0
  · rcases hr : s.recv with _ | ⟨k, b⟩
    · rfl
    · cases b with
      | true => exact absurd ⟨k, hr⟩ h1
      | false => exact absurd (.inr (.inr ⟨k, hr⟩)) h0

/-- When nothing is pending and nothing is to be sent, both flags are set. -/
theorem Shape.done_of_quiet {s : St} (h : Shape s) (hs : s.send = none) (hr : s.recv = none)
    (hp : ∀ op, s.pc ≠ .sending op) : s.req.done = true := by
  have h0 : s.req.sync0 ≠ false := by
    rw [Ne, h.sync0, hs, hr]
    rintro (⟨op, ho⟩ | h1 | ⟨k, hk⟩)
    · exact hp op ho
    · cases h1
    · cases hk
  have h1 : s.req.sync1 ≠ false := by
    rw [Ne, h.sync1, hr]
    rintro ⟨k, hk⟩
    cases hk
  unfold LcColreq.done
  rw [Bool.eq_true_of_not_eq_false h0, Bool.eq_true_of_not_eq_false h1]
  rfl

/-- The test on entry, and the one after an operation. -/
theorem Shape.check {s : St} (h : Shape s) (hp : s.pc = .idle ∨ s.pc = .test) :
    Shape { s with pc := if s.req.done then .loop else .idle } := by
  obtain ⟨h0, h1, -, -, -, hboth, -, hflag⟩ := id h
  have hns : ¬ ∃ op, s.pc = .sending op := by
    rintro ⟨op, ho⟩
    rw [ho] at hp
    rcases hp with hp | hp <;> cases hp
  have hns' : ¬ ∃ op, (if s.req.done then Pc.loop else Pc.idle) = .sending op := by
    rintro ⟨op, ho⟩
    split at ho <;> cases ho
  refine ⟨?_, h1, fun op ho => absurd ⟨op, ho⟩ hns', fun ho => ?_, fun ho => ?_, hboth, fun hr => ?_, fun hf => ?_⟩
  · rw [h0]
    simp only [hns, hns']
  · dsimp only at ho
    split at ho <;> cases ho
  · dsimp only at ho
    split at ho
    · assumption
    · cases ho
  · left
    -- a receive that is pending has its flag reset
    dsimp only
    rw [if_neg]
    intro hd
    rw [(h.quiet hd).2.1] at hr
    cases hr
  · obtain ⟨h2, h3, -⟩ := hflag hf
    exact ⟨h2, h3, .inr (if_pos h3)⟩

/-- An operation is started when nothing is pending. -/
theorem Shape.begin {s : St} (h : Shape s) {op : LcColSched} (hp : s.pc = .loop)
    (ho : s.req.next[s.req.cur]? = some op) : Shape (s.begin op) := by
  have hd := h.loop hp
  obtain ⟨hs, hr, -⟩ := h.quiet hd
  have hsync : s.req.sync0 = true ∧ s.req.sync1 = true := by
    simpa [LcColreq.done] using hd
  have hflag : s.req.flag = false := by
    rw [Bool.eq_false_iff]
    intro hf
    have h1 := (h.flag hf).1
    have h2 := (List.getElem?_eq_some_iff.1 ho).1
    omega
  cases op <;>
    (constructor <;>
      simp [St.begin, St.lcRecv, hs, hr, hsync, hflag, LcColSched.sends, LcColSched.receives, LcColSched.second])

theorem Shape.step {s s' : St} (h : Shape s) (hs : Step s s') : Shape s' := by
  obtain ⟨h0, h1, hsend, hpost, hloop, hboth, hrecv, hflag⟩ := id h
  cases hs with
  | poll hp => exact h.check (.inl hp)
  | next op hp ho => exact h.begin hp ho
  | fin hp ho =>
    obtain ⟨hq, hr, -⟩ := h.quiet (hloop hp)
    have hd := hloop hp
    refine ⟨?_, h1, fun op ho => ?_, fun ho => ?_, fun ho => ?_, hboth, fun hr' => .inl rfl,
      fun _ => ⟨ho, hd, .inl rfl⟩⟩
    · simpa [hp] using h0
    · cases ho
    · cases ho
    · cases ho
  | retry op hp => exact h
  | send op hp =>
    obtain ⟨h2, h3, h4, h5⟩ := hsend op hp
    have h6 : s.req.sync0 = false := h0.2 (.inl ⟨op, hp⟩)
    refine ⟨?_, h1, fun op' ho => ?_, fun ho => h5, fun ho => ?_, fun _ k hk => ?_, fun hr => ?_, fun hf => ?_⟩
    · simp [h6]
    · dsimp only at ho
      split at ho <;> cases ho
    · dsimp only at ho
      split at ho <;> cases ho
    · rw [h5] at hk
      cases hk
    · rw [h5] at hr
      cases hr
    · rw [hp] at hflag
      obtain ⟨-, -, h7 | h7⟩ := hflag hf <;> cases h7
  | post hp =>
    have h2 := hpost hp
    have h3 : s.req.sync1 = true := by
      by_contra hn
      obtain ⟨k, hk⟩ := h1.1 (Bool.eq_false_of_not_eq_true hn)
      rw [h2] at hk
      cases hk
    rw [hp] at hflag h0
    refine ⟨?_, ?_, fun op' ho => ?_, fun ho => ?_, fun ho => ?_, fun _ k hk => ?_, fun hr => .inr rfl, fun hf => ?_⟩
    · simpa [St.lcRecv, h2] using h0
    · simp [St.lcRecv]
    · cases ho
    · cases ho
    · cases ho
    · simp [St.lcRecv] at hk
    · obtain ⟨-, -, h7 | h7⟩ := hflag hf <;> cases h7
  | test hp => exact h.check (.inr hp)
  | sendDone k hk =>
    have hns : ∀ op, s.pc ≠ .sending op := fun op ho => by
      have := (hsend op ho).2.2.1
      rw [hk] at this
      cases this
    have hnr := hboth (by rw [hk]; rfl)
    refine ⟨?_, h1, fun op ho => absurd ho (hns op), hpost, fun ho => ?_, fun hn => ?_, hrecv, fun hf => ?_⟩
    · simp [hns, hnr]
    · have := (h.quiet (hloop ho)).1
      rw [hk] at this
      cases this
    · cases hn
    · have := (h.quiet (hflag hf).2.1).1
      rw [hk] at this
      cases this
  | recvDone k second hk =>
    have hpc := hrecv (by rw [hk]; rfl)
    have hns : ∀ op, s.pc ≠ .sending op := fun op ho => by
      rw [ho] at hpc
      rcases hpc with hpc | hpc <;> cases hpc
    refine ⟨?_, ?_, fun op ho => absurd ho (hns op), fun _ => rfl, fun ho => ?_, fun _ j hj => ?_, fun hr => ?_,
      fun hf => ?_⟩
    · cases second with
      | true => simpa [hk, hns] using h0
      | false =>
        have hsn : s.send = none := by
          cases hsd : s.send with
          | none => rfl
          | some j => exact absurd hk (hboth (by rw [hsd]; rfl) k)
        simp [hns, hsn]
    · cases second with
      | true => simp
      | false => simpa [hk] using h1
    · rw [ho] at hpc
      rcases hpc with hpc | hpc <;> cases hpc
    · cases hj
    · cases hr
    · have := (h.quiet (hflag hf).2.1).2.1
      rw [hk] at this
      cases this

theorem Step.next_eq {s s' : St} (hs : Step s s') : s'.req.next = s.req.next := by
  cases hs with
  | next op hp ho => cases op <;> rfl
  | poll hp | fin hp ho | retry op hp | send op hp | post hp | test hp | sendDone k hk | recvDone k second hk => rfl

/-- The tests of the engine and the end of its loop move no completion. -/
theorem owed_of_check {s s' : St} (hp : s.pc = .idle ∨ s.pc = .loop ∨ s.pc = .test)
    (hp' : s'.pc = .idle ∨ s'.pc = .loop ∨ s'.pc = .test) (hs : s'.send = s.send) (hr : s'.recv = s.recv) :
    s'.owedSend ++ s'.owedRecv = s.owedSend ++ s.owedRecv := by
  unfold St.owedSend St.owedRecv
  rcases hp with hp | hp | hp <;> rcases hp' with hp' | hp' | hp' <;> rw [hp, hp', hs, hr]

/-- Every step of the engine is a step of the book, or leaves it as it is. -/
theorem Shape.simulates {s s' : St} (h : Shape s) (hs : Step s s') :
    s'.book = s.book ∨ Book.Step s.req.next s.book s'.book := by
  cases hs with
  | poll hp =>
    left
    refine congrArg (Book.mk s.req.cur s.hist) (owed_of_check (.inl hp) ?_ rfl rfl)
    dsimp only
    split
    · exact .inr (.inl rfl)
    · exact .inl rfl
  | next op hp ho =>
    right
    obtain ⟨hq, hr, -⟩ := h.quiet (h.loop hp)
    have howed : s.book.owed = [] := by
      simp [St.book, St.owedSend, St.owedRecv, hp, hq, hr]
    have hb : (s.begin op).book = Book.mk (s.req.cur + 1) (s.hist ++ [.start op s.req.cur]) (comms op s.req.cur) := by
      cases op <;>
        simp [St.begin, St.book, St.lcRecv, St.owedSend, St.owedRecv, comms, hq, hr, LcColSched.sends,
          LcColSched.receives]
    rw [hb]
    exact .start op ho howed
  | fin hp ho => exact .inl (congrArg (Book.mk s.req.cur s.hist) (owed_of_check (.inr (.inl hp)) (.inl rfl) rfl rfl))
  | retry op hp => exact .inl rfl
  | send op hp =>
    left
    obtain ⟨-, h3, -, h5⟩ := h.sending op hp
    refine congrArg (Book.mk s.req.cur s.hist) ?_
    unfold St.owedSend St.owedRecv
    simp only [hp, h3, h5]
    cases op.second <;> rfl
  | post hp =>
    left
    refine congrArg (Book.mk s.req.cur s.hist) ?_
    unfold St.owedSend St.owedRecv
    rw [hp]
    rfl
  | test hp =>
    left
    refine congrArg (Book.mk s.req.cur s.hist) (owed_of_check (.inr (.inr hp)) ?_ rfl rfl)
    dsimp only
    split
    · exact .inr (.inl rfl)
    · exact .inl rfl
  | sendDone k hk =>
    right
    have hns : ∀ op, s.pc ≠ .sending op := fun op ho => by
      have := (h.sending op ho).2.2.1
      rw [hk] at this
      cases this
    have hsend : s.owedSend = [.sent k] ∧ St.owedSend { s with
        req := { s.req with sync0 := true }, send := none, hist := s.hist ++ [.sent k] } = [] := by
      unfold St.owedSend
      cases hpc : s.pc with
      | sending op => exact absurd hpc (hns op)
      | idle | loop | posting | test => simp [hk]
    have hb := @Book.Step.complete s.req.next s.book (.sent k)
      (List.mem_append_left _ (by rw [hsend.1]; exact List.mem_cons_self))
    have howed : s.book.owed.erase (.sent k) = s.owedRecv := by
      show (s.owedSend ++ s.owedRecv).erase (.sent k) = _
      rw [hsend.1, List.singleton_append, List.erase_cons_head]
    rw [howed] at hb
    unfold St.book at hb ⊢
    rw [hsend.2]
    exact hb
  | recvDone k second hk =>
    right
    have hrecv : s.owedRecv = [.received k] ∧ St.owedRecv { s with
        req := { s.req with
          sync0 := if second then s.req.sync0 else true
          sync1 := if second then true else s.req.sync1 }
        recv := none
        hist := s.hist ++ [.received k] } = [] := by
      unfold St.owedRecv
      rcases h.recv (by rw [hk]; rfl) with hp | hp <;> simp [hp, hk]
    have hb := @Book.Step.complete s.req.next s.book (.received k)
      (List.mem_append_right _ (by rw [hrecv.1]; exact List.mem_cons_self))
    have hnot : Event.received k ∉ s.owedSend := by
      unfold St.owedSend
      split <;> simp
    have howed : s.book.owed.erase (.received k) = s.owedSend := by
      show (s.owedSend ++ s.owedRecv).erase (.received k) = _
      rw [List.erase_append_right _ hnot, hrecv.1, List.erase_cons_head, List.append_nil]
    rw [howed] at hb
    unfold St.book at hb ⊢
    rw [hrecv.2, List.append_nil]
    exact hb

/-! ## Runs -/

theorem foldl_append (req : LcColreq) (ops : List LcColSched) :
    ops.foldl lcColAppend req = { req with next := req.next ++ ops } := by
  induction ops generalizing req with
  | nil => simp
  | cons op ops ih =>
    rw [List.foldl_cons, ih]
    simp [lcColAppend]

/-- What holds in every state of every run. -/
structure Inv (ops : List LcColSched) (s : St) : Prop where
  next : s.req.next = ops
  shape : Shape s
  book : s.book.Inv ops

theorem St.start_eq (req : LcColreq) (ops : List LcColSched) :
    St.start req ops = ⟨⟨false, 0, true, true, ops⟩, .idle, none, none, []⟩ := by
  rw [St.start, foldl_append]
  simp [lcColreqInit]

theorem Inv.start (req : LcColreq) (ops : List LcColSched) : Inv ops (St.start req ops) := by
  rw [St.start_eq]
  refine ⟨rfl, ?_, ?_⟩
  · constructor <;> simp
  · constructor <;> simp [St.book, St.owedSend, St.owedRecv, starts, InOrder]

theorem Inv.step {ops : List LcColSched} {s s' : St} (h : Inv ops s) (hs : Step s s') : Inv ops s' := by
  refine ⟨hs.next_eq.trans h.next, h.shape.step hs, ?_⟩
  rcases h.shape.simulates hs with hb | hb
  · rw [hb]
    exact h.book
  · rw [h.next] at hb
    exact h.book.step hb

theorem Inv.run {req : LcColreq} {ops : List LcColSched} {s : St}
    (hr : Relation.ReflTransGen Step (St.start req ops) s) : Inv ops s := by
  induction hr with
  | refl => exact Inv.start req ops
  | tail _ hs ih => exact ih.step hs

/-- Nothing is owed exactly when everything started so far is complete. -/
theorem Inv.owed_nil_iff {ops : List LcColSched} {s : St} (h : Inv ops s) :
    s.book.owed = [] ↔ ∀ (k : Nat) (op : LcColSched), ops[k]? = some op → k < s.req.cur → Completed s.hist k op := by
  constructor
  · intro ho k op hk hkc
    rw [completed_iff]
    intro e he
    rcases h.book.known k op hk hkc e he with h1 | h1
    · exact h1
    · rw [ho] at h1
      cases h1
  · intro hc
    rw [List.eq_nil_iff_forall_not_mem]
    intro e he
    obtain ⟨op, hop, hpos, hmem⟩ := h.book.recent e he
    have hpos' : 0 < s.req.cur := hpos
    exact h.book.apart e he (completed_iff.1 (hc _ op hop (by show s.req.cur - 1 < s.req.cur; omega)) e hmem)

theorem Inv.allDone_iff {ops : List LcColSched} {s : St} (h : Inv ops s) :
    AllDone s ↔ s.req.cur = ops.length ∧ s.book.owed = [] := by
  constructor
  · rintro ⟨h1, h2⟩
    rw [h.next] at h1 h2
    exact ⟨h1, h.owed_nil_iff.2 fun k op hk _ => h2 k op hk⟩
  · rintro ⟨h1, h2⟩
    refine ⟨by rw [h.next, h1], ?_⟩
    intro k op hk
    rw [h.next] at hk
    refine h.owed_nil_iff.1 h2 k op hk ?_
    rw [h1]
    exact (List.getElem?_eq_some_iff.1 hk).1

/-- When nothing is owed the engine is at one of its tests or at the head of its loop. -/
theorem St.quiet_of_owed {s : St} (h : s.book.owed = []) :
    s.send = none ∧ s.recv = none ∧ (s.pc = .idle ∨ s.pc = .loop ∨ s.pc = .test) := by
  have ⟨h1, h2⟩ := List.append_eq_nil_iff.1 h
  unfold St.owedSend at h1
  unfold St.owedRecv at h2
  cases hp : s.pc with
  | sending op => simp [hp] at h1
  | posting => simp [hp] at h2
  | idle | loop | test =>
    simp only [hp] at h1 h2
    refine ⟨?_, ?_, by simp⟩
    · simpa using h1
    · simpa using h2

theorem Inv.owed_of_done {ops : List LcColSched} {s : St} (h : Inv ops s) (hd : s.req.done = true)
    (hp : s.pc = .idle ∨ s.pc = .loop) : s.book.owed = [] := by
  obtain ⟨hs, hr, -⟩ := h.shape.quiet hd
  rcases hp with hp | hp <;> simp [St.book, St.owedSend, St.owedRecv, hp, hs, hr]

/-- The flag says that all is done. -/
theorem Inv.allDone_of_flag {ops : List LcColSched} {s : St} (h : Inv ops s) (hf : s.req.flag = true) : AllDone s := by
  obtain ⟨hlen, hd, hp⟩ := h.shape.flag hf
  rw [h.allDone_iff]
  refine ⟨?_, h.owed_of_done hd hp⟩
  rw [h.next] at hlen
  exact le_antisymm h.book.le hlen

/-! ## When all is done -/

/-- A step of an engine that has nothing left to do: it tests, and sets the flag. -/
theorem Inv.step_of_allDone {ops : List LcColSched} {s s' : St} (h : Inv ops s) (ha : AllDone s) (hs : Step s s') :
    s' = { s with pc := .loop } ∧ s.pc ≠ .loop ∨
      s' = { s with req := { s.req with flag := true }, pc := .idle } ∧ s.pc = .loop := by
  obtain ⟨hcur, howed⟩ := h.allDone_iff.1 ha
  obtain ⟨hq, hr, hp3⟩ := St.quiet_of_owed howed
  have hns : ∀ op, s.pc ≠ .sending op := by
    intro op hop
    rw [hop] at hp3
    simp at hp3
  have hd := h.shape.done_of_quiet hq hr hns
  cases hs with
  | poll hp => exact .inl ⟨by rw [if_pos hd], by rw [hp]; decide⟩
  | next op hp ho =>
    rw [h.next] at ho
    have := (List.getElem?_eq_some_iff.1 ho).1
    omega
  | fin hp ho => exact .inr ⟨rfl, hp⟩
  | retry op hp => exact absurd hp (hns op)
  | send op hp => exact absurd hp (hns op)
  | post hp =>
    rw [hp] at hp3
    simp at hp3
  | test hp => exact .inl ⟨by rw [if_pos hd], by rw [hp]; decide⟩
  | sendDone k hk =>
    rw [hq] at hk
    cases hk
  | recvDone k second hk =>
    rw [hr] at hk
    cases hk

/-- Such an engine can always be called again. -/
theorem Inv.two_steps {ops : List LcColSched} {s : St} (h : Inv ops s) (ha : AllDone s) :
    ∃ s₁ s₂, Step s s₁ ∧ Step s₁ s₂ := by
  have hone : ∀ {t : St}, Inv ops t → AllDone t → ∃ t', Step t t' := by
    intro t ht hta
    obtain ⟨hcur, howed⟩ := ht.allDone_iff.1 hta
    rcases (St.quiet_of_owed howed).2.2 with hp | hp | hp
    · exact ⟨_, .poll hp⟩
    · exact ⟨_, .fin hp (by rw [ht.next, hcur])⟩
    · exact ⟨_, .test hp⟩
  obtain ⟨s₁, h1⟩ := hone h ha
  have ha1 : AllDone s₁ := by
    rcases h.step_of_allDone ha h1 with ⟨rfl, -⟩ | ⟨rfl, -⟩ <;> exact ⟨ha.started, ha.completed⟩
  obtain ⟨s₂, h2⟩ := hone (h.step h1) ha1
  exact ⟨s₁, s₂, h1, h2⟩

/-- The flag set, a step moves the caller only. -/
theorem Inv.step_of_flag {ops : List LcColSched} {s s' : St} (h : Inv ops s) (hf : s.req.flag = true) (hs : Step s s') :
    s' = { s with pc := s'.pc } := by
  rcases h.step_of_allDone (h.allDone_of_flag hf) hs with ⟨rfl, -⟩ | ⟨rfl, -⟩
  · rfl
  · rw [← hf]

theorem Inv.run_of_flag {ops : List LcColSched} {s s' : St} (h : Inv ops s) (hf : s.req.flag = true)
    (hr : Relation.ReflTransGen Step s s') : Inv ops s' ∧ s' = { s with pc := s'.pc } := by
  induction hr with
  | refl => exact ⟨h, rfl⟩
  | @tail t t' _ hs ih =>
    obtain ⟨hi, ht⟩ := ih
    have hft : t.req.flag = true := by rw [ht, hf]
    have ht' := hi.step_of_flag hft hs
    refine ⟨hi.step hs, ?_⟩
    rw [ht', ht]

/-! ## The end is reached -/

/-- What is left of the operation started last, at a point of the engine. -/
def Pc.weight : Pc → Nat
  | .sending _ => 8
  | .posting => 6
  | .test => 3
  | .idle => 2
  | .loop => 1

/-- What is left to do. -/
def St.left (s : St) : Nat :=
  10 * (s.req.next.length - s.req.cur) + s.pc.weight + (if s.send.isSome then 1 else 0) +
    if s.recv.isSome then 1 else 0

/-- A completion of the transport, when there is one to come. -/
theorem Inv.complete {s : St} (h : s.send ≠ none ∨ s.recv ≠ none) : ∃ s', Step s s' ∧ s'.left < s.left := by
  cases hs : s.send with
  | some k => exact ⟨_, .sendDone k hs, by simp [St.left, hs]⟩
  | none =>
    obtain ⟨⟨k, second⟩, hr⟩ := Option.ne_none_iff_exists'.1 (h.resolve_left (not_not.2 hs))
    exact ⟨_, .recvDone k second hr, by simp [St.left, hr]⟩

/-- There is always a step that leaves less to do, or sets the flag. -/
theorem Inv.advance {ops : List LcColSched} {s : St} (h : Inv ops s) :
    ∃ s', Step s s' ∧ (s'.left < s.left ∨ s'.req.flag = true) := by
  -- at the two tests: either a completion is to come, or the test succeeds
  have hcheck : (s.pc = .idle ∨ s.pc = .test) → Step s { s with pc := if s.req.done then .loop else .idle } →
      ∃ s', Step s s' ∧ (s'.left < s.left ∨ s'.req.flag = true) := by
    intro hp hst
    by_cases hn : s.send ≠ none ∨ s.recv ≠ none
    · obtain ⟨s', h1, h2⟩ := Inv.complete hn
      exact ⟨s', h1, .inl h2⟩
    · obtain ⟨hs, hr⟩ := not_or.1 hn
      have hd := h.shape.done_of_quiet (not_not.1 hs) (not_not.1 hr) fun op ho => by
        rw [ho] at hp
        simp at hp
      refine ⟨_, hst, .inl ?_⟩
      rcases hp with hp | hp <;> simp [St.left, hd, hp, Pc.weight]
  cases hp : s.pc with
  | idle => exact hcheck (.inl hp) (.poll hp)
  | test => exact hcheck (.inr hp) (.test hp)
  | posting =>
    refine ⟨_, .post hp, .inl ?_⟩
    simp [St.left, St.lcRecv, hp, h.shape.posting hp, Pc.weight]
    omega
  | sending op =>
    refine ⟨_, .send op hp, .inl ?_⟩
    have hs := (h.shape.sending op hp).2.2.1
    cases op.second <;> simp [St.left, hp, hs, Pc.weight]
  | loop =>
    cases ho : s.req.next[s.req.cur]? with
    | none => exact ⟨_, .fin hp (List.getElem?_eq_none_iff.1 ho), .inr rfl⟩
    | some op =>
      refine ⟨_, .next op hp ho, .inl ?_⟩
      have hlt := (List.getElem?_eq_some_iff.1 ho).1
      obtain ⟨hs, hr, -⟩ := h.shape.quiet (h.shape.loop hp)
      cases op <;> simp [St.left, St.begin, St.lcRecv, hp, hs, hr, Pc.weight] <;> omega

/-- From every state of every run the flag can be set. -/
theorem Inv.finishes {ops : List LcColSched} {s : St} (h : Inv ops s) :
    ∃ s', Relation.ReflTransGen Step s s' ∧ s'.req.flag = true := by
  induction hn : s.left using Nat.strong_induction_on generalizing s with
  | _ n ih =>
    subst hn
    cases hf : s.req.flag with
    | true => exact ⟨s, .refl, hf⟩
    | false =>
      obtain ⟨t, hst, hlt | hft⟩ := h.advance
      · obtain ⟨u, hr, hfu⟩ := ih t.left hlt (h.step hst) rfl
        exact ⟨u, .head hst hr, hfu⟩
      · exact ⟨t, .single hst, hft⟩

/-- In every run of `lc_col_progress` on a schedule, the operations are started in the order of the schedule, each once,
and none before the communication of those before it has completed. The flag is set when all is done, within two more
steps of the caller and not before, and from then on nothing changes. The flag can be set from everywhere. -/
theorem schedule_executed (req : LcColreq) (ops : List LcColSched) {s : St}
    (hr : Relation.ReflTransGen Step (St.start req ops) s) :
    starts s.hist = (ops.take s.req.cur).zipIdx ∧ InOrder ops s.hist ∧
      (s.req.flag = true → AllDone s ∧ starts s.hist = ops.zipIdx) ∧
      (AllDone s → (∃ s₁ s₂, Step s s₁ ∧ Step s₁ s₂) ∧ ∀ s₁ s₂, Step s s₁ → Step s₁ s₂ → s₂.req.flag = true) ∧
      (s.req.flag = true → ∀ s', Relation.ReflTransGen Step s s' → s' = { s with pc := s'.pc }) ∧
      ∃ s', Relation.ReflTransGen Step s s' ∧ s'.req.flag = true := by
  have h := Inv.run hr
  refine ⟨h.book.starts_eq, h.book.order, ?_, ?_, fun hf s' hr' => (h.run_of_flag hf hr').2, h.finishes⟩
  · intro hf
    have ha := h.allDone_of_flag hf
    refine ⟨ha, ?_⟩
    have hst : starts s.hist = (ops.take s.req.cur).zipIdx := h.book.starts_eq
    rw [hst, (h.allDone_iff.1 ha).1, List.take_length]
  · intro ha
    refine ⟨h.two_steps ha, ?_⟩
    intro s₁ s₂ h1 h2
    -- the first step ends at the head of the loop, or it has set the flag
    rcases h.step_of_allDone ha h1 with ⟨rfl, -⟩ | ⟨rfl, hp⟩
    · rcases (h.step h1).step_of_allDone ⟨ha.started, ha.completed⟩ h2 with ⟨-, hp⟩ | ⟨rfl, -⟩
      · exact absurd rfl hp
      · rfl
    · rw [(h.step h1).step_of_flag rfl h2]

/-- An exchange that is sent at the second try, and whose send completes before its receive is posted. -/
theorem schedule_executed_exchange :
    ∃ s, Relation.ReflTransGen Step (St.start ⟨true, 3, false, false, []⟩ [.sendrecv 0 64 8 1 7 0]) s ∧
      s.req.flag = true ∧ AllDone s ∧ starts s.hist = [(.sendrecv 0 64 8 1 7 0, 0)] := by
  have hr : Relation.ReflTransGen Step (St.start ⟨true, 3, false, false, []⟩ [.sendrecv 0 64 8 1 7 0])
      ⟨⟨true, 1, true, true, [.sendrecv 0 64 8 1 7 0]⟩, .idle, none, none,
        [.start (.sendrecv 0 64 8 1 7 0) 0, .sent 0, .received 0]⟩ :=
    .head (.poll rfl) <| .head (.next _ rfl rfl) <| .head (.retry _ rfl) <| .head (.send _ rfl) <|
      .head (.sendDone 0 rfl) <| .head (.post rfl) <| .head (.recvDone 0 true rfl) <| .head (.test rfl) <|
        .single (.fin rfl (by decide))
  obtain ⟨ha, hs⟩ := (schedule_executed _ _ hr).2.2.1 rfl
  exact ⟨_, hr, rfl, ha, hs⟩

end Lci.Coll.Progress
