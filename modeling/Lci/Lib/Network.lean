/-
Processes that exchange messages over first-in first-out channels, one for each ordered pair. A
process runs its actions one after another; an action may send, receive, or do both at once, and
the next one starts only when both have completed. A send is either buffered, complete at once, or
synchronous: its content is read from the sender's memory when the message meets its receive, and it
completes some time after that.

Whatever the interleaving, such a network computes what one reference execution computes (`Inv`,
`reach_inv`): the k-th message of a pair meets its k-th receive. And when the actions can be labelled
so that labels grow along every process and no receive (or synchronous send) waits for a partner
with a larger label, some process can always go on (`Inv.progress`).
-/
import Mathlib.Logic.Function.Basic
import Mathlib.Data.List.Basic
import Mathlib.Logic.Relation
import Mathlib.Tactic

namespace Network

/-- An action: what it sends and to whom, from whom it receives and what it does with the value,
and its own effect on the memory. -/
structure Act (ι α M : Type) where
  out : Option (ι × (M → α))
  inp : Option (ι × (α → M → M))
  eff : M → M

/-- The programs of the processes. -/
abbrev Prog (ι α M : Type) := ι → Nat → Act ι α M

/-- A message: the position in its sender's program, its content when it was sent, and whether its
send is synchronous. -/
structure Msg (α : Type) where
  pos : Nat
  val : α
  sync : Bool

/-- The receive of the action started last: none pending, posted, or met by a message. -/
inductive RecvSt (α : Type)
  | idle
  | posted
  | landed (a : α)

/-- The send of the action started last: none pending, not met yet, or met and about to complete. -/
inductive SendSt
  | idle
  | waiting
  | acked
deriving DecidableEq

structure Proc (α M : Type) where
  pc : Nat
  mem : M
  recvSt : RecvSt α
  sendSt : SendSt

@[ext]
structure State (ι α M : Type) where
  proc : ι → Proc α M
  chan : ι → ι → List (Msg α)

section

variable {ι α M : Type} [DecidableEq ι]

/-- Both parts of the action started last are complete. -/
def Proc.Ready (p : Proc α M) : Prop := p.recvSt = .idle ∧ p.sendSt = .idle

/-- Appends a message to the channel of its sender and receiver. -/
def push (chan : ι → ι → List (Msg α)) (i j : ι) (m : Msg α) : ι → ι → List (Msg α) :=
  fun a b => if a = i ∧ b = j then chan a b ++ [m] else chan a b

/-- Process `p` after it has started action `a`. -/
def Proc.start (p : Proc α M) (a : Act ι α M) (sync : Bool) : Proc α M where
  pc := p.pc + 1
  mem := a.eff p.mem
  recvSt := if a.inp.isSome then .posted else .idle
  sendSt := if a.out.isSome && sync then .waiting else .idle

/-- Starts an action of process `i`; `sync` says whether its send is synchronous. -/
def exec (s : State ι α M) (i : ι) (a : Act ι α M) (sync : Bool) : State ι α M where
  proc := Function.update s.proc i ((s.proc i).start a sync)
  chan := match a.out with
    | some (j, get) => push s.chan i j ⟨(s.proc i).pc, get (s.proc i).mem, sync⟩
    | none => s.chan

/-- The oldest message from `i` to `j` meets the receive posted at `j` with content `v`. -/
def meet (s : State ι α M) (i j : ι) (m : Msg α) (rest : List (Msg α)) (v : α) : State ι α M where
  proc k :=
    { s.proc k with
      recvSt := if k = j then .landed v else (s.proc k).recvSt
      sendSt := if k = i ∧ m.sync = true then .acked else (s.proc k).sendSt }
  chan a b := if a = i ∧ b = j then rest else s.chan a b

/-- The receive of `j` completes with the value that met it. -/
def land (s : State ι α M) (j : ι) (a : α) (put : α → M → M) : State ι α M where
  proc := Function.update s.proc j { s.proc j with mem := put a (s.proc j).mem, recvSt := .idle }
  chan := s.chan

/-- The synchronous send of `i` completes. -/
def ack (s : State ι α M) (i : ι) : State ι α M where
  proc := Function.update s.proc i { s.proc i with sendSt := .idle }
  chan := s.chan

/-- What a message carries at the moment it is met: a buffered one its content, a synchronous one
what its sender's memory holds now. -/
def Carries (prog : Prog ι α M) (s : State ι α M) (i j : ι) (m : Msg α) (v : α) : Prop :=
  if m.sync = true then ∃ get, (prog i m.pos).out = some (j, get) ∧ v = get (s.proc i).mem else v = m.val

/-- The steps that complete what has been started. -/
inductive Delivery (prog : Prog ι α M) (s : State ι α M) : State ι α M → Prop
  | meet (i j : ι) (m : Msg α) (rest : List (Msg α)) (v : α) (put : α → M → M)
      (hc : s.chan i j = m :: rest) (hp : (s.proc j).recvSt = .posted)
      (hi : (prog j ((s.proc j).pc - 1)).inp = some (i, put)) (hv : Carries prog s i j m v) :
      Delivery prog s (meet s i j m rest v)
  | land (j : ι) (v : α) (i : ι) (put : α → M → M) (hl : (s.proc j).recvSt = .landed v)
      (hi : (prog j ((s.proc j).pc - 1)).inp = some (i, put)) : Delivery prog s (land s j v put)
  | ack (i : ι) (hs : (s.proc i).sendSt = .acked) : Delivery prog s (ack s i)

/-- The steps of a network; synchronous sends occur only when `mayWait`. -/
inductive Step (prog : Prog ι α M) (mayWait : Bool) (s : State ι α M) : State ι α M → Prop
  | exec (i : ι) (sync : Bool) (hr : (s.proc i).Ready) (hs : sync = true → mayWait = true) :
      Step prog mayWait s (exec s i (prog i (s.proc i).pc) sync)
  | deliver {s' : State ι α M} (h : Delivery prog s s') : Step prog mayWait s s'

/-- Every process before its first action, nothing on its way. -/
def init (mem0 : ι → M) : State ι α M := ⟨fun i => ⟨0, mem0 i, .idle, .idle⟩, fun _ _ => []⟩

/-! ## The reference execution -/

section Ref

variable (prog : Prog ι α M) (mem0 : ι → M) (rv : ι → Nat → α)

/-- The memory of process `i` after its first `n` actions, the receive at position `n` having
returned `rv i n`. -/
def ref (i : ι) : Nat → M
  | 0 => mem0 i
  | n + 1 => match (prog i n).inp with
    | some (_, put) => put (rv i n) ((prog i n).eff (ref i n))
    | none => (prog i n).eff (ref i n)

/-- The messages that `i` sends to `j` in its first `n` actions: positions and contents. -/
def outs (i j : ι) : Nat → List (Nat × α)
  | 0 => []
  | n + 1 => outs i j n ++ match (prog i n).out with
    | some (k, get) => if k = j then [(n, get (ref prog mem0 rv i n))] else []
    | none => []

/-- The number of sends from `i` to `j` among the first `n` actions of `i`. -/
def nsends (i j : ι) : Nat → Nat
  | 0 => 0
  | n + 1 => nsends i j n + match (prog i n).out with
    | some (k, _) => if k = j then 1 else 0
    | none => 0

/-- The number of receives from `i` among the first `n` actions of `j`. -/
def nrecvs (j i : ι) : Nat → Nat
  | 0 => 0
  | n + 1 => nrecvs j i n + match (prog j n).inp with
    | some (k, _) => if k = i then 1 else 0
    | none => 0

/-- The reference execution hands the k-th receive of a pair the k-th message of the pair. -/
def Matched : Prop := ∀ j n i put, (prog j n).inp = some (i, put) → ∃ p get,
  (prog i p).out = some (j, get) ∧ nsends prog i j p = nrecvs prog j i n ∧
    rv j n = get (ref prog mem0 rv i p)

/-- An action does not touch what it sends. -/
def Stable : Prop := ∀ i n j get, (prog i n).out = some (j, get) →
  (∀ m, get ((prog i n).eff m) = get m) ∧
    ∀ k put, (prog i n).inp = some (k, put) → ∀ v m, get (put v m) = get m

end Ref

variable {prog : Prog ι α M} {mem0 : ι → M} {rv : ι → Nat → α} {mayWait : Bool}

omit [DecidableEq ι] in
theorem ref_succ (i : ι) (n : Nat) : ref prog mem0 rv i (n + 1) = match (prog i n).inp with
    | some (_, put) => put (rv i n) ((prog i n).eff (ref prog mem0 rv i n))
    | none => (prog i n).eff (ref prog mem0 rv i n) := rfl

theorem outs_succ (i j : ι) (n : Nat) :
    outs prog mem0 rv i j (n + 1) = outs prog mem0 rv i j n ++ match (prog i n).out with
      | some (k, get) => if k = j then [(n, get (ref prog mem0 rv i n))] else []
      | none => [] := rfl

theorem nsends_succ_of_out {i j : ι} {n : Nat} {get : M → α} (h : (prog i n).out = some (j, get)) :
    nsends prog i j (n + 1) = nsends prog i j n + 1 := by
  simp [nsends, h]

theorem nsends_succ_of_ne {i j : ι} {n : Nat} (h : ∀ get, (prog i n).out ≠ some (j, get)) :
    nsends prog i j (n + 1) = nsends prog i j n := by
  cases ho : (prog i n).out with
  | none => simp [nsends, ho]
  | some x =>
    obtain ⟨k, get⟩ := x
    have : k ≠ j := fun e => h get (e ▸ ho)
    simp [nsends, ho, this]

theorem nrecvs_succ_of_inp {j i : ι} {n : Nat} {put : α → M → M} (h : (prog j n).inp = some (i, put)) :
    nrecvs prog j i (n + 1) = nrecvs prog j i n + 1 := by
  simp [nrecvs, h]

theorem nrecvs_succ_of_ne {j i : ι} {n : Nat} (h : ∀ put, (prog j n).inp ≠ some (i, put)) :
    nrecvs prog j i (n + 1) = nrecvs prog j i n := by
  cases hi : (prog j n).inp with
  | none => simp [nrecvs, hi]
  | some x =>
    obtain ⟨k, put⟩ := x
    have : k ≠ i := fun e => h put (e ▸ hi)
    simp [nrecvs, hi, this]

theorem nsends_mono (prog : Prog ι α M) (i j : ι) : Monotone (nsends prog i j) :=
  monotone_nat_of_le_succ fun _ => Nat.le_add_right _ _

theorem nrecvs_mono (prog : Prog ι α M) (j i : ι) : Monotone (nrecvs prog j i) :=
  monotone_nat_of_le_succ fun _ => Nat.le_add_right _ _

theorem outs_length (i j : ι) (n : Nat) : (outs prog mem0 rv i j n).length = nsends prog i j n := by
  induction n with
  | zero => rfl
  | succ n ih =>
    unfold outs nsends
    rw [List.length_append, ih]
    congr 1
    split
    · split <;> rfl
    · rfl

theorem mem_outs {i j : ι} {n p : Nat} {v : α} (h : (p, v) ∈ outs prog mem0 rv i j n) :
    p < n ∧ ∃ get, (prog i p).out = some (j, get) ∧ v = get (ref prog mem0 rv i p) := by
  induction n with
  | zero => simp [outs] at h
  | succ n ih =>
    unfold outs at h
    rcases List.mem_append.1 h with h | h
    · exact ⟨(ih h).1.trans n.lt_succ_self, (ih h).2⟩
    · split at h
      · rename_i k get ho
        split at h
        · rename_i hk
          obtain ⟨rfl, rfl⟩ := Prod.mk.inj (List.mem_singleton.1 h)
          exact ⟨p.lt_succ_self, get, hk ▸ ho, rfl⟩
        · cases h
      · cases h

/-- Positions grow along the list of messages sent. -/
theorem outs_pairwise (i j : ι) (n : Nat) :
    (outs prog mem0 rv i j n).Pairwise fun x y => x.1 < y.1 := by
  induction n with
  | zero => exact List.Pairwise.nil
  | succ n ih =>
    unfold outs
    refine List.pairwise_append.2 ⟨ih, ?_, ?_⟩
    · split
      · split
        · exact List.pairwise_singleton _ _
        · exact List.Pairwise.nil
      · exact List.Pairwise.nil
    · rintro ⟨p, v⟩ hx y hy
      have hp := (mem_outs hx).1
      split at hy
      · split at hy
        · rw [List.mem_singleton.1 hy]; exact hp
        · cases hy
      · cases hy

/-- The k-th message is the one sent after `k` others. -/
theorem outs_get {i j : ι} {n p : Nat} {get : M → α} (ho : (prog i p).out = some (j, get)) (hp : p < n) :
    (outs prog mem0 rv i j n)[nsends prog i j p]? = some (p, get (ref prog mem0 rv i p)) := by
  induction n with
  | zero => omega
  | succ n ih =>
    unfold outs
    rcases Nat.lt_succ_iff_lt_or_eq.1 hp with h | rfl
    · have hlt : nsends prog i j p < nsends prog i j n := by
        have := nsends_mono prog i j (Nat.succ_le_of_lt h)
        rw [Nat.succ_eq_add_one, nsends_succ_of_out ho] at this
        omega
      rw [List.getElem?_append_left (by rwa [outs_length]), ih h]
    · rw [List.getElem?_append_right (by rw [outs_length]), outs_length, ho]
      simp

/-! ## The invariant -/

/-- The position up to which the receives of a process have been met. -/
def Proc.metPos (p : Proc α M) : Nat := match p.recvSt with
  | .posted => p.pc - 1
  | _ => p.pc

theorem metPos_idle {p : Proc α M} (h : p.recvSt = .idle) : p.metPos = p.pc := by
  unfold Proc.metPos; rw [h]

theorem metPos_posted {p : Proc α M} (h : p.recvSt = .posted) : p.metPos = p.pc - 1 := by
  unfold Proc.metPos; rw [h]

theorem metPos_landed {p : Proc α M} {v : α} (h : p.recvSt = .landed v) : p.metPos = p.pc := by
  unfold Proc.metPos; rw [h]

theorem metPos_le (p : Proc α M) : p.metPos ≤ p.pc := by
  unfold Proc.metPos; split <;> omega

theorem le_metPos (p : Proc α M) : p.pc - 1 ≤ p.metPos := by
  unfold Proc.metPos; split <;> omega

variable (prog mem0 rv) in
/-- What holds of one process: its memory is that of the reference execution, and what is pending
belongs to the action started last. -/
structure ProcInv (i : ι) (p : Proc α M) : Prop where
  recv_act : p.recvSt ≠ .idle → 0 < p.pc ∧ ∃ k put, (prog i (p.pc - 1)).inp = some (k, put)
  mem_idle : p.recvSt = .idle → p.mem = ref prog mem0 rv i p.pc
  mem_mid : p.recvSt ≠ .idle → p.mem = (prog i (p.pc - 1)).eff (ref prog mem0 rv i (p.pc - 1))
  landed : ∀ v, p.recvSt = .landed v → v = rv i (p.pc - 1)
  send_act : p.sendSt ≠ .idle → 0 < p.pc ∧ ∃ k get, (prog i (p.pc - 1)).out = some (k, get)

variable (prog mem0 rv mayWait) in
/-- What holds in every state reached: besides the processes' own invariant, a channel holds the
messages sent and not met, in order, and synchronous ones are those that their senders wait for. -/
structure Inv (s : State ι α M) : Prop where
  proc : ∀ i, ProcInv prog mem0 rv i (s.proc i)
  met_le : ∀ i j, nrecvs prog j i (s.proc j).metPos ≤ nsends prog i j (s.proc i).pc
  chan_eq : ∀ i j, (s.chan i j).map (fun m => (m.pos, m.val)) =
    (outs prog mem0 rv i j (s.proc i).pc).drop (nrecvs prog j i (s.proc j).metPos)
  sync_wait : ∀ i j, ∀ m ∈ s.chan i j, m.sync = true → (s.proc i).sendSt = .waiting ∧
    m.pos + 1 = (s.proc i).pc
  wait_sync : ∀ i, (s.proc i).sendSt = .waiting → mayWait = true ∧
    ∃ j, ∃ m ∈ s.chan i j, m.sync = true

variable {s : State ι α M}

theorem Inv.mem_chan (h : Inv prog mem0 rv mayWait s) {i j : ι} {m : Msg α} (hm : m ∈ s.chan i j) :
    m.pos < (s.proc i).pc ∧ ∃ get, (prog i m.pos).out = some (j, get) ∧
      m.val = get (ref prog mem0 rv i m.pos) := by
  have hin : (m.pos, m.val) ∈ (s.chan i j).map (fun m => (m.pos, m.val)) := List.mem_map_of_mem hm
  rw [h.chan_eq] at hin
  exact mem_outs (List.mem_of_mem_drop hin)

/-- The oldest message of a channel is the one sent after as many others as have been met. -/
theorem Inv.head (h : Inv prog mem0 rv mayWait s) {i j : ι} {m : Msg α} {rest : List (Msg α)}
    (hc : s.chan i j = m :: rest) :
    (outs prog mem0 rv i j (s.proc i).pc)[nrecvs prog j i (s.proc j).metPos]? = some (m.pos, m.val) := by
  have := h.chan_eq i j
  rw [hc, List.map_cons] at this
  rw [← List.head?_drop, ← this]
  rfl

/-- The message that meets a receive is the one the reference execution pairs it with. -/
theorem Inv.head_matched (h : Inv prog mem0 rv mayWait s) {i j : ι} {m : Msg α} {rest : List (Msg α)}
    (hc : s.chan i j = m :: rest) {p : Nat} {get : M → α} (ho : (prog i p).out = some (j, get))
    (hn : nsends prog i j p = nrecvs prog j i (s.proc j).metPos) :
    m.pos = p ∧ m.val = get (ref prog mem0 rv i p) := by
  have hhead := h.head hc
  have hp : p < (s.proc i).pc := by
    by_contra hp
    have hle := nsends_mono prog i j (Nat.le_of_not_lt hp)
    rw [List.getElem?_eq_none (by rw [outs_length]; omega)] at hhead
    cases hhead
  rw [← hn, outs_get ho hp] at hhead
  obtain ⟨h1, h2⟩ := Prod.mk.inj (Option.some.inj hhead)
  exact ⟨h1.symm, h2.symm⟩

/-- What a message carries when it is met is what its sender held when it sent it. -/
theorem Inv.carries (h : Inv prog mem0 rv mayWait s) (hst : Stable prog) {i j : ι} {m : Msg α}
    (hm : m ∈ s.chan i j) {v : α} (hv : Carries prog s i j m v) : v = m.val := by
  unfold Carries at hv
  split at hv
  · rename_i hsync
    obtain ⟨get, ho, rfl⟩ := hv
    obtain ⟨-, hpos⟩ := h.sync_wait i j m hm hsync
    obtain ⟨-, get', ho', hval⟩ := h.mem_chan hm
    obtain rfl : get = get' := by
      rw [ho] at ho'
      exact (Prod.mk.inj (Option.some.inj ho')).2
    obtain ⟨heff, hput⟩ := hst i m.pos j get ho
    rw [hval]
    by_cases hr : (s.proc i).recvSt = .idle
    · rw [(h.proc i).mem_idle hr, ← hpos, ref_succ]
      split
      · rename_i k put hi
        rw [hput k put hi, heff]
      · exact heff _
    · rw [(h.proc i).mem_mid hr, show (s.proc i).pc - 1 = m.pos by omega, heff]
  · exact hv

/-! ## The steps keep the invariant -/

theorem start_metPos {i : ι} {p : Proc α M} (hr : p.Ready) (sync : Bool) (k : ι) :
    nrecvs prog i k (p.start (prog i p.pc) sync).metPos = nrecvs prog i k p.metPos := by
  rw [metPos_idle hr.1]
  cases hi : (prog i p.pc).inp with
  | none =>
    have : (p.start (prog i p.pc) sync).metPos = p.pc + 1 := by
      simp [Proc.start, Proc.metPos, hi]
    rw [this]
    exact nrecvs_succ_of_ne fun put => by rw [hi]; simp
  | some x =>
    have : (p.start (prog i p.pc) sync).metPos = p.pc := by
      simp [Proc.start, Proc.metPos, hi]
    rw [this]

omit [DecidableEq ι] in
theorem start_inv {i : ι} {p : Proc α M} (h : ProcInv prog mem0 rv i p) (hr : p.Ready) (sync : Bool) :
    ProcInv prog mem0 rv i (p.start (prog i p.pc) sync) := by
  have hmem := h.mem_idle hr.1
  cases hi : (prog i p.pc).inp with
  | none =>
    refine ⟨?_, ?_, ?_, ?_, ?_⟩
    · simp [Proc.start, hi]
    · simp [Proc.start, hi, ref, hmem]
    · simp [Proc.start, hi]
    · simp [Proc.start, hi]
    · intro hs
      cases ho : (prog i p.pc).out with
      | none => simp [Proc.start, ho] at hs
      | some x => exact ⟨by simp [Proc.start], x.1, x.2, by simp [Proc.start, ho]⟩
  | some x =>
    refine ⟨?_, ?_, ?_, ?_, ?_⟩
    · exact fun _ => ⟨by simp [Proc.start], x.1, x.2, by simp [Proc.start, hi]⟩
    · simp [Proc.start, hi]
    · simp [Proc.start, hmem]
    · simp [Proc.start, hi]
    · intro hs
      cases ho : (prog i p.pc).out with
      | none => simp [Proc.start, ho] at hs
      | some x => exact ⟨by simp [Proc.start], x.1, x.2, by simp [Proc.start, ho]⟩

@[simp] theorem exec_proc_self (i : ι) (a : Act ι α M) (sync : Bool) :
    (exec s i a sync).proc i = (s.proc i).start a sync := by
  simp [exec]

theorem exec_proc_ne {i k : ι} (h : k ≠ i) (a : Act ι α M) (sync : Bool) :
    (exec s i a sync).proc k = s.proc k := by
  simp [exec, h]

/-- Starting an action appends what it sends to the channel it sends on. -/
theorem exec_chan (i : ι) (a : Act ι α M) (sync : Bool) (k l : ι) :
    (exec s i a sync).chan k l = s.chan k l ++ match a.out with
      | some (j, get) => if k = i ∧ l = j then [⟨(s.proc i).pc, get (s.proc i).mem, sync⟩] else []
      | none => [] := by
  unfold exec
  cases a.out with
  | none => simp
  | some x =>
    obtain ⟨j, get⟩ := x
    simp only [push]
    split <;> simp

theorem exec_metPos {i : ι} (hr : (s.proc i).Ready) (sync : Bool) (j k : ι) :
    nrecvs prog j k ((exec s i (prog i (s.proc i).pc) sync).proc j).metPos =
      nrecvs prog j k (s.proc j).metPos := by
  by_cases hj : j = i
  · subst hj
    rw [exec_proc_self, start_metPos hr]
  · rw [exec_proc_ne hj]

theorem exec_inv (h : Inv prog mem0 rv mayWait s) {i : ι} {sync : Bool} (hr : (s.proc i).Ready)
    (hs : sync = true → mayWait = true) :
    Inv prog mem0 rv mayWait (exec s i (prog i (s.proc i).pc) sync) := by
  have hpc : ∀ k, (s.proc k).pc ≤ ((exec s i (prog i (s.proc i).pc) sync).proc k).pc := by
    intro k
    by_cases hk : k = i
    · subst hk; simp [Proc.start]
    · rw [exec_proc_ne hk]
  refine ⟨?_, ?_, ?_, ?_, ?_⟩
  · intro k
    by_cases hk : k = i
    · subst hk
      rw [exec_proc_self]
      exact start_inv (h.proc k) hr sync
    · rw [exec_proc_ne hk]; exact h.proc k
  · intro k l
    rw [exec_metPos hr]
    exact (h.met_le k l).trans (nsends_mono prog k l (hpc k))
  · intro k l
    rw [exec_metPos hr, exec_chan, List.map_append, h.chan_eq k l]
    by_cases hk : k = i
    · subst hk
      rw [exec_proc_self]
      -- the channels of `i` grow by what the action at its position sends
      show _ = (outs prog mem0 rv k l ((s.proc k).pc + 1)).drop _
      rw [outs_succ, List.drop_append_of_le_length (by rw [outs_length]; exact h.met_le k l)]
      congr 1
      rw [(h.proc k).mem_idle hr.1]
      split
      · rename_i j get ho
        by_cases hj : l = j
        · simp [hj]
        · simp [hj, Ne.symm hj]
      · rfl
    · rw [exec_proc_ne hk]
      have : ∀ o : Option (ι × (M → α)), ((match o with
          | some (j, get) => if k = i ∧ l = j then [⟨(s.proc i).pc, get (s.proc i).mem, sync⟩] else []
          | none => [] : List (Msg α)).map fun m => (m.pos, m.val)) = [] := by
        rintro (_ | ⟨j, get⟩)
        · rfl
        · simp [hk]
      rw [this, List.append_nil]
  · intro k l m hm hsync
    rw [exec_chan] at hm
    rcases List.mem_append.1 hm with hm | hm
    · have := h.sync_wait k l m hm hsync
      have hk : k ≠ i := by
        rintro rfl
        rw [hr.2] at this
        cases this.1
      rw [exec_proc_ne hk]; exact this
    · split at hm
      · rename_i j get ho
        split at hm
        · rename_i hkl
          obtain ⟨rfl, rfl⟩ := hkl
          rw [List.mem_singleton.1 hm] at hsync ⊢
          simp only at hsync
          simp [Proc.start, ho, hsync]
        · cases hm
      · cases hm
  · intro k hk
    by_cases hki : k = i
    · subst hki
      rw [exec_proc_self] at hk
      cases ho : (prog k (s.proc k).pc).out with
      | none => simp [Proc.start, ho] at hk
      | some x =>
        obtain ⟨j, get⟩ := x
        have hsync : sync = true := by
          by_contra hne
          simp [Proc.start, ho, hne] at hk
        refine ⟨hs hsync, j, ⟨(s.proc k).pc, get (s.proc k).mem, sync⟩, ?_, hsync⟩
        rw [exec_chan, ho]
        simp
    · rw [exec_proc_ne hki] at hk
      obtain ⟨hw, j, m, hm, hsync⟩ := h.wait_sync k hk
      refine ⟨hw, j, m, ?_, hsync⟩
      rw [exec_chan]
      exact List.mem_append_left _ hm

@[simp] theorem meet_pc (i j : ι) (m : Msg α) (rest : List (Msg α)) (v : α) (k : ι) :
    ((meet s i j m rest v).proc k).pc = (s.proc k).pc := rfl

theorem meet_recvSt_ne {j k : ι} (h : k ≠ j) (i : ι) (m : Msg α) (rest : List (Msg α)) (v : α) :
    ((meet s i j m rest v).proc k).recvSt = (s.proc k).recvSt := by
  simp [meet, h]

theorem meet_recvSt_self (i j : ι) (m : Msg α) (rest : List (Msg α)) (v : α) :
    ((meet s i j m rest v).proc j).recvSt = .landed v := by
  simp [meet]

theorem meet_metPos_ne {j k : ι} (h : k ≠ j) (i : ι) (m : Msg α) (rest : List (Msg α)) (v : α) :
    ((meet s i j m rest v).proc k).metPos = (s.proc k).metPos := by
  unfold Proc.metPos
  rw [meet_recvSt_ne h, meet_pc]

theorem meet_sendSt_cases (i j : ι) (m : Msg α) (rest : List (Msg α)) (v : α) (k : ι) :
    (k = i ∧ m.sync = true ∧ ((meet s i j m rest v).proc k).sendSt = .acked) ∨
      (¬ (k = i ∧ m.sync = true) ∧ ((meet s i j m rest v).proc k).sendSt = (s.proc k).sendSt) := by
  by_cases h : k = i ∧ m.sync = true
  · exact .inl ⟨h.1, h.2, by simp [meet, h]⟩
  · exact .inr ⟨h, by simp only [meet, if_neg h]⟩

/-- The receive posted at `j` counts one more message from `i`, and none from another process. -/
theorem meet_nrecvs (h : Inv prog mem0 rv mayWait s) {i j : ι} {put : α → M → M}
    (hp : (s.proc j).recvSt = .posted) (hi : (prog j ((s.proc j).pc - 1)).inp = some (i, put))
    (m : Msg α) (rest : List (Msg α)) (v : α) (k : ι) :
    nrecvs prog j k ((meet s i j m rest v).proc j).metPos =
      nrecvs prog j k (s.proc j).metPos + if k = i then 1 else 0 := by
  have hpos := ((h.proc j).recv_act (by rw [hp]; simp)).1
  rw [metPos_landed (meet_recvSt_self i j m rest v), metPos_posted hp, meet_pc]
  obtain ⟨n, hn⟩ : ∃ n, (s.proc j).pc = n + 1 := ⟨(s.proc j).pc - 1, by omega⟩
  rw [hn, Nat.add_sub_cancel] at hi ⊢
  by_cases hk : k = i
  · rw [hk, nrecvs_succ_of_inp hi, if_pos rfl]
  · rw [if_neg hk, nrecvs_succ_of_ne]
    · rfl
    · rintro put' h'
      rw [hi] at h'
      exact hk (Prod.mk.inj (Option.some.inj h')).1.symm

theorem meet_proc_inv (h : Inv prog mem0 rv mayWait s) (hm : Matched prog mem0 rv) (hst : Stable prog)
    {i j : ι} {m : Msg α} {rest : List (Msg α)} {v : α} {put : α → M → M}
    (hc : s.chan i j = m :: rest) (hp : (s.proc j).recvSt = .posted)
    (hi : (prog j ((s.proc j).pc - 1)).inp = some (i, put)) (hv : Carries prog s i j m v) (k : ι) :
    ProcInv prog mem0 rv k ((meet s i j m rest v).proc k) := by
  have hmem : m ∈ s.chan i j := by rw [hc]; exact List.mem_cons_self
  have hsend : ((meet s i j m rest v).proc k).sendSt ≠ .idle →
      0 < (s.proc k).pc ∧ ∃ l get, (prog k ((s.proc k).pc - 1)).out = some (l, get) := by
    rcases meet_sendSt_cases i j m rest v k with ⟨rfl, hsync, -⟩ | ⟨-, he⟩
    · rintro -
      refine (h.proc k).send_act ?_
      rw [(h.sync_wait k j m hmem hsync).1]
      simp
    · rw [he]; exact (h.proc k).send_act
  by_cases hk : k = j
  · subst hk
    have hne : (s.proc k).recvSt ≠ .idle := by rw [hp]; simp
    have hrecv := meet_recvSt_self (s := s) i k m rest v
    refine ⟨fun _ => (h.proc k).recv_act hne, ?_, fun _ => (h.proc k).mem_mid hne, ?_, hsend⟩
    · intro e; rw [hrecv] at e; cases e
    · intro w e
      rw [hrecv] at e
      cases e
      obtain ⟨p, get, ho, hn, hrv⟩ := hm k ((s.proc k).pc - 1) i put hi
      rw [← metPos_posted hp] at hn
      rw [h.carries hst hmem hv, (h.head_matched hc ho hn).2, meet_pc, hrv]
  · have hrecv := meet_recvSt_ne (s := s) hk i m rest v
    refine ⟨?_, ?_, ?_, ?_, hsend⟩
    · rw [hrecv]; exact (h.proc k).recv_act
    · rw [hrecv]; exact (h.proc k).mem_idle
    · rw [hrecv]; exact (h.proc k).mem_mid
    · rw [hrecv]; exact (h.proc k).landed

/-- A process waits for one message only. -/
theorem Inv.sync_unique (h : Inv prog mem0 rv mayWait s) {i j : ι} {m m' : Msg α}
    {rest : List (Msg α)} (j' : ι) (hc : s.chan i j = m :: rest) (hs : m.sync = true) (hs' : m'.sync = true) :
    ¬ (m' ∈ rest ∨ (j' ≠ j ∧ m' ∈ s.chan i j')) := by
  have hm : m ∈ s.chan i j := by rw [hc]; exact List.mem_cons_self
  have hpos := (h.sync_wait i j m hm hs).2
  rintro (hm' | ⟨hj, hm'⟩)
  · have hpos' := (h.sync_wait i j m' (by rw [hc]; exact List.mem_cons_of_mem _ hm') hs').2
    have hpw : ((s.chan i j).map fun m => (m.pos, m.val)).Pairwise fun x y => x.1 < y.1 := by
      rw [h.chan_eq]
      exact (outs_pairwise i j _).sublist (List.drop_sublist _ _)
    rw [hc, List.map_cons, List.pairwise_cons] at hpw
    have := hpw.1 (m'.pos, m'.val) (List.mem_map_of_mem (f := fun m => (m.pos, m.val)) hm')
    simp only at this
    omega
  · have hpos' := (h.sync_wait i j' m' hm' hs').2
    obtain ⟨-, get, ho, -⟩ := h.mem_chan hm
    obtain ⟨-, get', ho', -⟩ := h.mem_chan hm'
    rw [show m'.pos = m.pos by omega, ho] at ho'
    exact hj (Prod.mk.inj (Option.some.inj ho')).1.symm

theorem meet_inv (h : Inv prog mem0 rv mayWait s) (hm : Matched prog mem0 rv) (hst : Stable prog)
    {i j : ι} {m : Msg α} {rest : List (Msg α)} {v : α} {put : α → M → M}
    (hc : s.chan i j = m :: rest) (hp : (s.proc j).recvSt = .posted)
    (hi : (prog j ((s.proc j).pc - 1)).inp = some (i, put)) (hv : Carries prog s i j m v) :
    Inv prog mem0 rv mayWait (meet s i j m rest v) := by
  have hsub : ∀ {k l : ι} {m' : Msg α}, m' ∈ (meet s i j m rest v).chan k l → m' ∈ s.chan k l := by
    intro k l m' hm'
    simp only [meet] at hm'
    split at hm'
    · rename_i hkl
      rw [hkl.1, hkl.2, hc]
      exact List.mem_cons_of_mem _ hm'
    · exact hm'
  refine ⟨meet_proc_inv h hm hst hc hp hi hv, ?_, ?_, ?_, ?_⟩
  · intro k l
    by_cases hl : l = j
    · subst hl
      rw [meet_nrecvs h hp hi, meet_pc]
      by_cases hk : k = i
      · subst hk
        -- the channel is not empty, so not all that was sent has been met
        have hlt : nrecvs prog l k (s.proc l).metPos < (outs prog mem0 rv k l (s.proc k).pc).length := by
          by_contra hge
          have := h.head hc
          rw [List.getElem?_eq_none (by omega)] at this
          cases this
        rw [outs_length] at hlt
        rw [if_pos rfl]
        exact hlt
      · rw [if_neg hk]; exact h.met_le k l
    · rw [meet_metPos_ne hl, meet_pc]; exact h.met_le k l
  · intro k l
    by_cases hl : l = j
    · subst hl
      rw [meet_nrecvs h hp hi, meet_pc]
      by_cases hk : k = i
      · subst hk
        have := h.chan_eq k l
        rw [hc, List.map_cons] at this
        simp only [meet, and_self, if_true]
        rw [← List.drop_drop, ← this, List.drop_succ_cons, List.drop_zero]
      · simp only [meet, hk, false_and, if_false, Nat.add_zero]; exact h.chan_eq k l
    · rw [meet_metPos_ne hl, meet_pc]
      simp only [meet, hl, and_false, if_false]; exact h.chan_eq k l
  · intro k l m' hm' hs'
    have hold := h.sync_wait k l m' (hsub hm') hs'
    rcases meet_sendSt_cases i j m rest v k with ⟨rfl, hsync, -⟩ | ⟨-, he⟩
    · -- the one synchronous message of `i` has just been met
      refine absurd ?_ (h.sync_unique l hc hsync hs')
      simp only [meet] at hm'
      split at hm'
      · exact .inl hm'
      · rename_i hkl
        exact .inr ⟨fun e => hkl ⟨trivial, e⟩, hm'⟩
    · rw [he, meet_pc]; exact hold
  · intro k hk
    rcases meet_sendSt_cases i j m rest v k with ⟨-, -, he⟩ | ⟨hne, he⟩
    · rw [he] at hk; cases hk
    · rw [he] at hk
      obtain ⟨hw, l, m', hm', hs'⟩ := h.wait_sync k hk
      refine ⟨hw, l, m', ?_, hs'⟩
      simp only [meet]
      split
      · rename_i hkl
        rw [hkl.1, hkl.2, hc] at hm'
        rcases List.mem_cons.1 hm' with rfl | hm'
        · exact absurd ⟨hkl.1, hs'⟩ hne
        · exact hm'
      · exact hm'

theorem land_proc_ne {j k : ι} (h : k ≠ j) (v : α) (put : α → M → M) :
    (land s j v put).proc k = s.proc k := by
  simp [land, h]

theorem land_proc_self (j : ι) (v : α) (put : α → M → M) :
    (land s j v put).proc j = { s.proc j with mem := put v (s.proc j).mem, recvSt := .idle } := by
  simp [land]

theorem land_pc (j : ι) (v : α) (put : α → M → M) (k : ι) :
    ((land s j v put).proc k).pc = (s.proc k).pc := by
  by_cases h : k = j
  · subst h; rw [land_proc_self]
  · rw [land_proc_ne h]

theorem land_sendSt (j : ι) (v : α) (put : α → M → M) (k : ι) :
    ((land s j v put).proc k).sendSt = (s.proc k).sendSt := by
  by_cases h : k = j
  · subst h; rw [land_proc_self]
  · rw [land_proc_ne h]

theorem land_inv (h : Inv prog mem0 rv mayWait s) {j i : ι} {v : α} {put : α → M → M}
    (hl : (s.proc j).recvSt = .landed v) (hi : (prog j ((s.proc j).pc - 1)).inp = some (i, put)) :
    Inv prog mem0 rv mayWait (land s j v put) := by
  have hmet : ∀ k, ((land s j v put).proc k).metPos = (s.proc k).metPos := by
    intro k
    by_cases hk : k = j
    · subst hk
      rw [land_proc_self, metPos_landed hl]
      exact metPos_idle rfl
    · rw [land_proc_ne hk]
  have hne : (s.proc j).recvSt ≠ .idle := by rw [hl]; simp
  refine ⟨?_, ?_, ?_, ?_, ?_⟩
  · intro k
    by_cases hk : k = j
    · subst hk
      have hpos := ((h.proc k).recv_act hne).1
      obtain ⟨n, hn⟩ : ∃ n, (s.proc k).pc = n + 1 := ⟨(s.proc k).pc - 1, by omega⟩
      rw [land_proc_self]
      refine ⟨by simp, ?_, by simp, by simp, (h.proc k).send_act⟩
      rintro -
      have hmem := (h.proc k).mem_mid hne
      have hval := (h.proc k).landed v hl
      simp only [hn, Nat.add_sub_cancel] at hi hmem hval ⊢
      rw [ref_succ, hi, hmem, hval]
    · rw [land_proc_ne hk]; exact h.proc k
  · intro k l
    rw [hmet, land_pc]; exact h.met_le k l
  · intro k l
    rw [hmet, land_pc]; exact h.chan_eq k l
  · intro k l m hm hs
    rw [land_sendSt, land_pc]; exact h.sync_wait k l m hm hs
  · intro k hk
    rw [land_sendSt] at hk
    exact h.wait_sync k hk

theorem ack_inv (h : Inv prog mem0 rv mayWait s) {i : ι} (hs : (s.proc i).sendSt = .acked) :
    Inv prog mem0 rv mayWait (ack s i) := by
  have hproc : ∀ k, (ack s i).proc k = s.proc k ∨
      (k = i ∧ (ack s i).proc k = { s.proc k with sendSt := .idle }) := by
    intro k
    by_cases hk : k = i
    · subst hk; exact .inr ⟨rfl, by simp [ack]⟩
    · exact .inl (by simp [ack, hk])
  have hpc : ∀ k, ((ack s i).proc k).pc = (s.proc k).pc := by
    intro k; rcases hproc k with e | ⟨-, e⟩ <;> rw [e]
  have hmet : ∀ k, ((ack s i).proc k).metPos = (s.proc k).metPos := by
    intro k; rcases hproc k with e | ⟨-, e⟩ <;> rw [e]; rfl
  refine ⟨?_, ?_, ?_, ?_, ?_⟩
  · intro k
    rcases hproc k with e | ⟨-, e⟩
    · rw [e]; exact h.proc k
    · rw [e]
      obtain ⟨h1, h2, h3, h4, -⟩ := h.proc k
      exact ⟨h1, h2, h3, h4, by simp⟩
  · intro k l
    rw [hmet, hpc]; exact h.met_le k l
  · intro k l
    rw [hmet, hpc]; exact h.chan_eq k l
  · intro k l m hm hsync
    have hold := h.sync_wait k l m hm hsync
    rcases hproc k with e | ⟨rfl, -⟩
    · rw [e]; exact hold
    · rw [hs] at hold; cases hold.1
  · intro k hk
    rcases hproc k with e | ⟨-, e⟩
    · rw [e] at hk; exact h.wait_sync k hk
    · rw [e] at hk; cases hk

theorem init_inv : Inv prog mem0 rv mayWait (init mem0) := by
  refine ⟨fun i => ⟨?_, ?_, ?_, ?_, ?_⟩, ?_, ?_, ?_, ?_⟩ <;>
    simp [init, Proc.metPos, ref, outs, nrecvs, nsends]

theorem Step.inv {s' : State ι α M} (hm : Matched prog mem0 rv) (hst : Stable prog)
    (h : Inv prog mem0 rv mayWait s) (hs : Step prog mayWait s s') : Inv prog mem0 rv mayWait s' := by
  cases hs with
  | exec i sync hr hs => exact exec_inv h hr hs
  | deliver hd =>
    cases hd with
    | meet i j m rest v put hc hp hi hv => exact meet_inv h hm hst hc hp hi hv
    | land j v i put hl hi => exact land_inv h hl hi
    | ack i hs => exact ack_inv h hs

/-- A receive that has been met was preceded by its send. -/
theorem Inv.sent_of_met (h : Inv prog mem0 rv mayWait s) {i j : ι} {n p : Nat} {put : α → M → M}
    (hi : (prog j n).inp = some (i, put))
    (hn : nsends prog i j p = nrecvs prog j i n) (hmet : n < (s.proc j).metPos) :
    p < (s.proc i).pc := by
  by_contra hp
  have h1 := nsends_mono prog i j (Nat.le_of_not_lt hp)
  have h2 := nrecvs_mono prog j i (Nat.succ_le_of_lt hmet)
  have h3 := h.met_le i j
  rw [Nat.succ_eq_add_one, nrecvs_succ_of_inp hi] at h2
  omega

/-! ## Progress -/

/-- Labels of the actions by which no process waits for a later one. -/
structure Labels (prog : Prog ι α M) (mayWait : Bool) (lab : ι → Nat → Nat) : Prop where
  mono : ∀ i n, lab i n ≤ lab i (n + 1)
  strict : ∀ i n, (prog i n).out.isSome ∨ (prog i n).inp.isSome → lab i n < lab i (n + 1)
  recv : ∀ j n i put, (prog j n).inp = some (i, put) → ∃ p get, (prog i p).out = some (j, get) ∧
    nsends prog i j p = nrecvs prog j i n ∧ lab i p ≤ lab j n
  send : mayWait = true → ∀ i p j get, (prog i p).out = some (j, get) → ∃ n put,
    (prog j n).inp = some (i, put) ∧ nrecvs prog j i n = nsends prog i j p ∧ lab j n ≤ lab i p

/-- The label of the action that a process is at: the pending one, or else its next one. -/
def front (lab : ι → Nat → Nat) (s : State ι α M) (i : ι) : Nat :=
  match (s.proc i).recvSt, (s.proc i).sendSt with
  | .idle, .idle => lab i (s.proc i).pc
  | _, _ => lab i ((s.proc i).pc - 1)

variable {lab : ι → Nat → Nat}

omit [DecidableEq ι] in
theorem front_ready (lab : ι → Nat → Nat) {i : ι} (h : (s.proc i).Ready) : front lab s i = lab i (s.proc i).pc := by
  unfold front
  rw [h.1, h.2]

omit [DecidableEq ι] in
theorem front_not_ready (lab : ι → Nat → Nat) {i : ι} (h : ¬ (s.proc i).Ready) :
    front lab s i = lab i ((s.proc i).pc - 1) := by
  unfold front
  split
  · rename_i h1 h2
    exact absurd ⟨h1, h2⟩ h
  · rfl

theorem Labels.le (hl : Labels prog mayWait lab) (i : ι) : Monotone (lab i) :=
  monotone_nat_of_le_succ (hl.mono i)

/-- A process that has not completed its last action is at a smaller label than all later ones. -/
theorem Inv.front_lt (h : Inv prog mem0 rv mayWait s) (hl : Labels prog mayWait lab) {i : ι}
    (hr : ¬ (s.proc i).Ready) {p : Nat} (hp : (s.proc i).pc ≤ p) : front lab s i < lab i p := by
  have hact : 0 < (s.proc i).pc ∧ ((prog i ((s.proc i).pc - 1)).out.isSome ∨
      (prog i ((s.proc i).pc - 1)).inp.isSome) := by
    by_cases h1 : (s.proc i).recvSt = .idle
    · obtain ⟨hpos, k, get, ho⟩ := (h.proc i).send_act fun h2 => hr ⟨h1, h2⟩
      exact ⟨hpos, .inl (by rw [ho]; rfl)⟩
    · obtain ⟨hpos, k, put, hi⟩ := (h.proc i).recv_act h1
      exact ⟨hpos, .inr (by rw [hi]; rfl)⟩
  have hlt := hl.strict i _ hact.2
  rw [Nat.sub_add_cancel hact.1] at hlt
  rw [front_not_ready lab hr]
  exact hlt.trans_le (hl.le i hp)

theorem Inv.carries_some (h : Inv prog mem0 rv mayWait s) {i j : ι} {m : Msg α} (hm : m ∈ s.chan i j) :
    ∃ v, Carries prog s i j m v := by
  unfold Carries
  split
  · obtain ⟨-, get, ho, -⟩ := h.mem_chan hm
    exact ⟨_, get, ho, rfl⟩
  · exact ⟨_, rfl⟩

/-- A receive posted at `j` can be met, or its sender can go on at a smaller label. -/
theorem Inv.posted_progress (h : Inv prog mem0 rv mayWait s) (hl : Labels prog mayWait lab) {j : ι}
    (hp : (s.proc j).recvSt = .posted) (hmin : ∀ i, front lab s j ≤ front lab s i) :
    (∃ s', Delivery prog s s') ∨ ∃ i, (s.proc i).Ready ∧ lab i (s.proc i).pc ≤ front lab s j := by
  have hnr : ¬ (s.proc j).Ready := by rintro ⟨e, -⟩; rw [hp] at e; cases e
  obtain ⟨-, i, put, hi⟩ := (h.proc j).recv_act (by rw [hp]; simp)
  cases hc : s.chan i j with
  | cons m rest =>
    obtain ⟨v, hv⟩ := h.carries_some (i := i) (j := j) (m := m) (by rw [hc]; exact List.mem_cons_self)
    exact .inl ⟨_, .meet i j m rest v put hc hp hi hv⟩
  | nil =>
    -- everything sent so far has been met, so the send of this receive is still ahead of `i`
    have hall : nsends prog i j (s.proc i).pc ≤ nrecvs prog j i (s.proc j).metPos := by
      have := h.chan_eq i j
      rw [hc, List.map_nil, eq_comm, List.drop_eq_nil_iff, outs_length] at this
      exact this
    obtain ⟨p, get, ho, hn, hlab⟩ := hl.recv j _ i put hi
    rw [← metPos_posted hp] at hn
    have hpc : (s.proc i).pc ≤ p := by
      by_contra hlt
      have := nsends_mono prog i j (Nat.succ_le_of_lt (Nat.lt_of_not_le hlt))
      rw [Nat.succ_eq_add_one, nsends_succ_of_out ho] at this
      omega
    rw [← front_not_ready lab hnr] at hlab
    by_cases hr : (s.proc i).Ready
    · exact .inr ⟨i, hr, (hl.le i hpc).trans hlab⟩
    · have := h.front_lt hl hr hpc
      have := hmin i
      omega

/-- A synchronous send of `i` can be met, or its receiver can go on at a smaller label. -/
theorem Inv.waiting_progress (h : Inv prog mem0 rv mayWait s) (hl : Labels prog mayWait lab) {i : ι}
    (hw : (s.proc i).sendSt = .waiting) (hmin : ∀ k, front lab s i ≤ front lab s k) :
    (∃ s', Delivery prog s s') ∨ ∃ k, (s.proc k).Ready ∧ lab k (s.proc k).pc ≤ front lab s i := by
  have hnr : ¬ (s.proc i).Ready := by rintro ⟨-, e⟩; rw [hw] at e; cases e
  obtain ⟨hmay, j, m, hm, hs⟩ := h.wait_sync i hw
  obtain ⟨-, get, ho, -⟩ := h.mem_chan hm
  have hpos := (h.sync_wait i j m hm hs).2
  obtain ⟨n, put, hi, hn, hlab⟩ := hl.send hmay i m.pos j get ho
  rw [show m.pos = (s.proc i).pc - 1 by omega, ← front_not_ready lab hnr] at hlab
  -- the message has not been met, so its receive has not been either
  have hunmet : nrecvs prog j i (s.proc j).metPos ≤ nsends prog i j m.pos := by
    by_contra hgt
    have hin : (m.pos, m.val) ∈ (s.chan i j).map fun m => (m.pos, m.val) := List.mem_map_of_mem hm
    rw [h.chan_eq] at hin
    have hlen : (outs prog mem0 rv i j (s.proc i).pc).length ≤ nrecvs prog j i (s.proc j).metPos := by
      rw [outs_length, ← hpos, nsends_succ_of_out ho]
      omega
    rw [List.drop_eq_nil_iff.2 hlen] at hin
    cases hin
  have hmet : (s.proc j).metPos ≤ n := by
    by_contra hlt
    have := nrecvs_mono prog j i (Nat.succ_le_of_lt (Nat.lt_of_not_le hlt))
    rw [Nat.succ_eq_add_one, nrecvs_succ_of_inp hi] at this
    omega
  by_cases hr : (s.proc j).Ready
  · rw [metPos_idle hr.1] at hmet
    exact .inr ⟨j, hr, (hl.le j hmet).trans hlab⟩
  · have hlt : ¬ (s.proc j).pc ≤ n := by
      intro hle
      have := h.front_lt hl hr hle
      have := hmin j
      omega
    have hposted : (s.proc j).recvSt = .posted := by
      cases hst : (s.proc j).recvSt with
      | posted => rfl
      | idle => rw [metPos_idle hst] at hmet; exact absurd hmet hlt
      | landed v => rw [metPos_landed hst] at hmet; exact absurd hmet hlt
    rw [metPos_posted hposted] at hmet
    obtain rfl : n = (s.proc j).pc - 1 := by omega
    cases hc : s.chan i j with
    | nil => rw [hc] at hm; cases hm
    | cons m' rest =>
      obtain ⟨v, hv⟩ := h.carries_some (i := i) (j := j) (m := m') (by rw [hc]; exact List.mem_cons_self)
      exact .inl ⟨_, .meet i j m' rest v put hc hposted hi hv⟩

/-- Some delivery is possible, or a process whose label is at most that of a given process `k` can
start its next action. -/
theorem Inv.progress (h : Inv prog mem0 rv mayWait s) (hl : Labels prog mayWait lab) (k : ι) :
    (∃ s', Delivery prog s s') ∨ ∃ i, (s.proc i).Ready ∧ lab i (s.proc i).pc ≤ front lab s k := by
  obtain ⟨i, hmin⟩ : ∃ i, ∀ j, front lab s i ≤ front lab s j := by
    obtain ⟨i, -, hi⟩ := WellFounded.has_min (measure (front lab s)).wf Set.univ ⟨k, trivial⟩
    exact ⟨i, fun j => Nat.le_of_not_lt (hi j trivial)⟩
  have hle := hmin k
  by_cases hr : (s.proc i).Ready
  · exact .inr ⟨i, hr, front_ready lab hr ▸ hle⟩
  have hdone : ∀ {q : Prop}, (q ∨ ∃ j, (s.proc j).Ready ∧ lab j (s.proc j).pc ≤ front lab s i) →
      q ∨ ∃ j, (s.proc j).Ready ∧ lab j (s.proc j).pc ≤ front lab s k := by
    rintro q (hq | ⟨j, hj, hlab⟩)
    · exact .inl hq
    · exact .inr ⟨j, hj, hlab.trans hle⟩
  cases hrecv : (s.proc i).recvSt with
  | posted => exact hdone (h.posted_progress hl hrecv hmin)
  | landed v =>
    obtain ⟨-, j, put, hi⟩ := (h.proc i).recv_act (by rw [hrecv]; simp)
    exact .inl ⟨_, .land i v j put hrecv hi⟩
  | idle =>
    cases hsend : (s.proc i).sendSt with
    | idle => exact absurd ⟨hrecv, hsend⟩ hr
    | waiting => exact hdone (h.waiting_progress hl hsend hmin)
    | acked => exact .inl ⟨_, .ack i hsend⟩

/-! ## Labels give a reference execution -/

omit [DecidableEq ι] in
/-- The memory after `n` actions depends on what the receives before returned. -/
theorem ref_congr {rv rv' : ι → Nat → α} {i : ι} {n : Nat}
    (h : ∀ m < n, (prog i m).inp.isSome → rv i m = rv' i m) : ref prog mem0 rv i n = ref prog mem0 rv' i n := by
  induction n with
  | zero => rfl
  | succ n ih =>
    have ih := ih fun m hm => h m (Nat.lt_succ_of_lt hm)
    rw [ref_succ, ref_succ, ih]
    cases hi : (prog i n).inp with
    | none => rfl
    | some x =>
      simp only
      rw [h n n.lt_succ_self (by rw [hi]; rfl)]

/-- What each receive returns, given the send that it is paired with, when those before it are right up
to depth `m`. -/
def approx [Inhabited α] (prog : Prog ι α M) (mem0 : ι → M) (partner : ι → Nat → ι × Nat × (M → α)) :
    Nat → ι → Nat → α
  | 0, _, _ => default
  | m + 1, j, n => (partner j n).2.2 (ref prog mem0 (approx prog mem0 partner m) (partner j n).1 (partner j n).2.1)

/-- A labelled network has a reference execution. -/
theorem Labels.exists_matched [Inhabited α] (hl : Labels prog mayWait lab) (mem0 : ι → M) :
    ∃ rv, Matched prog mem0 rv := by
  have hpair : ∀ j n, ∃ x : ι × Nat × (M → α), ∀ i put, (prog j n).inp = some (i, put) →
      x.1 = i ∧ (prog i x.2.1).out = some (j, x.2.2) ∧ nsends prog i j x.2.1 = nrecvs prog j i n ∧
        lab i x.2.1 ≤ lab j n := by
    intro j n
    cases hi : (prog j n).inp with
    | none => exact ⟨(j, n, fun _ => default), by simp⟩
    | some x =>
      obtain ⟨i, put⟩ := x
      obtain ⟨p, get, ho, hn, hlab⟩ := hl.recv j n i put hi
      refine ⟨(i, p, get), ?_⟩
      rintro _ _ ⟨⟩
      exact ⟨rfl, ho, hn, hlab⟩
  choose partner hpartner using hpair
  have hex : ∀ j n i put, (prog j n).inp = some (i, put) → ∃ p get, (prog i p).out = some (j, get) ∧
      nsends prog i j p = nrecvs prog j i n ∧ lab i p ≤ lab j n ∧
      ∀ m, approx prog mem0 partner (m + 1) j n = get (ref prog mem0 (approx prog mem0 partner m) i p) := by
    intro j n i put hi
    obtain ⟨hii, ho, hn, hlab⟩ := hpartner j n i put hi
    exact ⟨_, _, ho, hn, hlab, fun m => by rw [approx, hii]⟩
  -- the value of a receive is settled after as many rounds as its label says
  have hstable : ∀ L j n, lab j n = L → (prog j n).inp.isSome → ∀ a b, L < a → L < b →
      approx prog mem0 partner a j n = approx prog mem0 partner b j n := by
    intro L
    induction L using Nat.strong_induction_on with
    | _ L ih =>
      intro j n hL hi a b ha hb
      obtain ⟨⟨i, put⟩, hi⟩ := Option.isSome_iff_exists.1 hi
      obtain ⟨p, get, ho, -, hlab, happ⟩ := hex j n i put hi
      obtain ⟨a, rfl⟩ := Nat.exists_eq_succ_of_ne_zero (Nat.zero_lt_of_lt ha).ne'
      obtain ⟨b, rfl⟩ := Nat.exists_eq_succ_of_ne_zero (Nat.zero_lt_of_lt hb).ne'
      rw [Nat.succ_eq_add_one, Nat.succ_eq_add_one, happ, happ]
      congr 1
      refine ref_congr fun m hm hmi => ?_
      have hlt : lab i m < L :=
        hL ▸ ((hl.strict i m (.inr hmi)).trans_le (hl.le i (Nat.succ_le_of_lt hm))).trans_le hlab
      exact ih _ hlt i m rfl hmi a b (by omega) (by omega)
  refine ⟨fun j n => approx prog mem0 partner (lab j n + 1) j n, ?_⟩
  intro j n i put hi
  obtain ⟨p, get, ho, hn, hlab, happ⟩ := hex j n i put hi
  refine ⟨p, get, ho, hn, (happ _).trans ?_⟩
  congr 1
  refine ref_congr fun m hm hmi => ?_
  have hlt : lab i m < lab j n := ((hl.strict i m (.inr hmi)).trans_le (hl.le i (Nat.succ_le_of_lt hm))).trans_le hlab
  exact hstable _ i m rfl hmi _ _ hlt (by omega)

end

end Network
