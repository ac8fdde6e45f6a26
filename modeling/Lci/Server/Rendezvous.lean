/-
The rendezvous of `lc_sendl` as a protocol of its own: every transfer is in a stage, from the RTS on its way
to the write landed and both sides told, and what happens is kept in a history. The stages only go
forward, so that the history of every run has at most one completion event and at most one callback of a
transfer, each after what it is to come after (`Abs.Inv.at_most_once`). The devices of a job are shown to
follow this protocol in `Server.ExactlyOnce`.
-/
import Lci.Lib.History
import Lci.Server.Serve

namespace Lci.Server.Rendezvous

open Lci.Hash Lci.Proto History Relation

/-! ## Transfers, messages and the history -/

/-- What `lc_sendl` is called with, and on which rank. -/
structure Transfer where
  org : CInt
  tgt : CInt
  tag : CInt
  ep : Nat
  src : Nat
  size : Nat
  cb : Nat
  ce : Nat

/-- A message handed to the transport: its sender, the context of the send, the transfer it belongs to,
and, of a write, whether its data is in the memory of the target. -/
structure Wire where
  src : CInt
  ctx : PktId
  msg : Msg
  xfer : Nat
  placed : Bool
deriving DecidableEq

/-- What is kept of a run: a transfer was started, the transport has completed a send, it has written
the data of a transfer to memory, an immediate was served for a packet, and an event was raised, with the
buffer of the request it is about. -/
inductive Rec
  | started (x : Nat)
  | sent (w : Wire)
  | wrote (t : CInt) (addr : Nat) (bytes : List Byte) (x : Nat)
  | imm (t : CInt) (q : PktId) (x : Nat)
  | event (r : CInt) (v : Event) (buf : Buf)

/-- The completion event of the receive of a transfer. -/
def Rec.completes (x : Nat) : Rec → Bool
  | .event _ (.completed _ _ data) _ => data.view.xfer = x
  | _ => false

/-- The callback of a transfer. -/
def Rec.calls (x : Nat) : Rec → Bool
  | .event _ (.callback _ _ y) _ => y = x
  | _ => false

/-- A record that tells nothing about the stage of a transfer. -/
def Rec.Neutral : Rec → Prop
  | .sent _ => True
  | .event _ (.handler _ _) _ => True
  | _ => False

/-- The memory of a rank after what was written there. -/
def Rec.apply (r : CInt) (m : Nat → Byte) : Rec → Nat → Byte
  | .wrote t a bytes _ => if t = r then writeMem m a bytes else m
  | _ => m

def replay (r : CInt) (m : Nat → Byte) (log : List Rec) : Nat → Byte := log.foldl (Rec.apply r) m

theorem replay_append (r : CInt) (m : Nat → Byte) (l k : List Rec) : replay r m (l ++ k) = replay r (replay r m l) k :=
  List.foldl_append

section Protocol

variable (T : Nat → Transfer) (m₀ : CInt → Nat → Byte)

/-- The bytes of a transfer, as they are in the memory of its sender after `k`. -/
def payload (k : List Rec) (x : Nat) : List Byte :=
  readMem (replay (T x).org (m₀ (T x).org) k) (T x).src (T x).size

/-- The RTR of a transfer. -/
def IsRtr (x : Nat) (w : Wire) : Prop :=
  w.src = (T x).tgt ∧ w.xfer = x ∧
    ∃ ep r, w.msg = .send (T x).org (makeProto (BitVec.ofNat 32 ep) .rtr 0) packetRtrSize (.rdz r)

/-- The write of a transfer: of `size` bytes from `src_addr` on. -/
def IsWrite (x : Nat) (w : Wire) : Prop :=
  w.src = (T x).org ∧ w.xfer = x ∧ ∃ buf rkey sid, w.msg = .rma (T x).tgt (T x).src buf rkey (T x).size sid

/-! ## Stages -/

/-- How far the data of a write has come: its request is posted, the data is in the memory of the target,
the immediate was served. -/
inductive Phase
  | posted
  | placed
  | landed
deriving DecidableEq

/-- The stage of a transfer: not started, the RTS on its way, the RTS packet `q` stored in a table of the target,
the RTR on its way that packet `q` was made to with buffer `buf`, and the write posted. `rtr` tells that
the send of the RTR is not completed, `ctx` is the context of the write until that send is completed. -/
inductive Stage
  | fresh
  | asked
  | stored (q : PktId)
  | granted (q : PktId) (buf : Nat) (rtr : Bool)
  | written (q : PktId) (buf : Nat) (rtr : Bool) (phase : Phase) (ctx : Option PktId)
deriving DecidableEq

namespace Stage

/-- The completion event of the receive was raised. -/
def done : Stage → Bool
  | .written _ _ rtr phase _ => !rtr && phase = .landed
  | _ => false

/-- The callback of the sender was called. -/
def called : Stage → Bool
  | .written _ _ _ _ ctx => ctx.isNone
  | _ => false

/-- The send of the RTR is completed. -/
def rtrSent : Stage → Bool
  | .granted _ _ rtr => !rtr
  | .written _ _ rtr _ _ => !rtr
  | _ => false

/-- Where the data is. -/
def placedAt : Stage → Option Nat
  | .written _ buf _ phase _ => if phase = .posted then none else some buf
  | _ => none

/-- The immediate was served. -/
def landed : Stage → Bool
  | .written _ _ _ phase _ => phase = .landed
  | _ => false

end Stage

/-- The steps of transfer `x` after the history `log`, and what they add to it. -/
inductive Next (x : Nat) (log : List Rec) : Stage → List Rec → Stage → Prop
  | start : Next x log .fresh [.started x] .asked
  | store (q : PktId) : Next x log .asked [] (.stored q)
  | grant (q : PktId) (buf : Nat) : Next x log .asked [] (.granted q buf true)
  | grantStored (q : PktId) (buf : Nat) : Next x log (.stored q) [] (.granted q buf true)
  | respond (q : PktId) (buf : Nat) (rtr : Bool) (p : PktId) :
    Next x log (.granted q buf rtr) [] (.written q buf rtr .posted (some p))
  | write (q : PktId) (buf : Nat) (rtr : Bool) (ctx : Option PktId) :
    Next x log (.written q buf rtr .posted ctx) [.wrote (T x).tgt buf (payload T m₀ log x) x]
      (.written q buf rtr .placed ctx)
  | rtrEarly (q : PktId) (buf : Nat) (w : Wire) : IsRtr T x w →
    Next x log (.granted q buf true) [.sent w] (.granted q buf false)
  | rtrFirst (q : PktId) (buf : Nat) (phase : Phase) (ctx : Option PktId) (w : Wire) : phase ≠ .landed → IsRtr T x w →
    Next x log (.written q buf true phase ctx) [.sent w] (.written q buf false phase ctx)
  | rtrLast (q : PktId) (buf : Nat) (ctx : Option PktId) (w : Wire) (ep : Nat) (rp : ReqPtr) (data : PkData) :
    IsRtr T x w → data.view.xfer = x →
    Next x log (.written q buf true .landed ctx) [.sent w, .event (T x).tgt (.completed ep rp data) (.mem buf)]
      (.written q buf false .landed ctx)
  | immFirst (q : PktId) (buf : Nat) (ctx : Option PktId) :
    Next x log (.written q buf true .placed ctx) [.imm (T x).tgt q x] (.written q buf true .landed ctx)
  | immLast (q : PktId) (buf : Nat) (ctx : Option PktId) (ep : Nat) (rp : ReqPtr) (data : PkData) : data.view.xfer = x →
    Next x log (.written q buf false .placed ctx) [.imm (T x).tgt q x, .event (T x).tgt (.completed ep rp data)
      (.mem buf)]
      (.written q buf false .landed ctx)
  | call (q : PktId) (buf : Nat) (rtr : Bool) (phase : Phase) (p : PktId) (w : Wire) (b : Buf) : IsWrite T x w →
    Next x log (.written q buf rtr phase (some p)) [.sent w, .event (T x).org (.callback (T x).cb (T x).ce x) b]
      (.written q buf rtr phase none)

/-! ## What the history tells -/

/-- The data of transfer `x` was written at `a` of the target, as the sender had it then. -/
def Placed (l : List Rec) (x a : Nat) : Prop := ∃ k k', l = k ++ .wrote (T x).tgt a (payload T m₀ k x) x :: k'

/-- A completion event on rank `r`, with `buf` as the buffer of its request, that comes after `l`: the send
of the RTR was completed, the immediate was served, and the data is in the buffer. -/
structure Received (l : List Rec) (x : Nat) (r : CInt) (buf : Buf) : Prop where
  rank : r = (T x).tgt
  rtr : ∃ w, .sent w ∈ l ∧ IsRtr T x w
  imm : ∃ q, .imm (T x).tgt q x ∈ l
  data : ∃ a, buf = .mem a ∧ Placed T m₀ l x a

/-- A callback on rank `r` that comes after `l`: it is the one given to `lc_sendl`, and the write of what was
given there was completed. -/
structure Answered (l : List Rec) (x : Nat) (r : CInt) (cb ce : Nat) : Prop where
  rank : r = (T x).org
  cb : cb = (T x).cb
  ce : ce = (T x).ce
  started : .started x ∈ l
  write : ∃ w, .sent w ∈ l ∧ IsWrite T x w

/-- What stands before an event. -/
def After (l : List Rec) : Rec → Prop
  | .event r (.completed _ _ data) buf => Received T m₀ l data.view.xfer r buf
  | .event r (.callback cb ce x) _ => Answered T l x r cb ce
  | _ => True

/-- The history of a transfer in a stage. -/
structure Tells (log : List Rec) (x : Nat) (s : Stage) : Prop where
  done : log.countP (Rec.completes x) = s.done.toNat
  called : log.countP (Rec.calls x) = s.called.toNat
  started : s ≠ .fresh → .started x ∈ log
  rtr : s.rtrSent = true → ∃ w, .sent w ∈ log ∧ IsRtr T x w
  placed : ∀ a, s.placedAt = some a → Placed T m₀ log x a
  imm : s.landed = true → ∃ q, .imm (T x).tgt q x ∈ log

variable {T m₀} {x : Nat} {log : List Rec}

theorem Placed.append {a : Nat} (h : Placed T m₀ log x a) (k : List Rec) : Placed T m₀ (log ++ k) x a := by
  obtain ⟨l, l', rfl⟩ := h
  exact ⟨l, l' ++ k, by simp⟩

/-- More records: they count the events that the new stage has more, and tell what is new in it. -/
theorem Tells.append {s s' : Stage} (h : Tells T m₀ log x s) {k : List Rec}
    (hd : s'.done.toNat = s.done.toNat + k.countP (Rec.completes x))
    (hc : s'.called.toNat = s.called.toNat + k.countP (Rec.calls x))
    (hs : s' ≠ .fresh → s ≠ .fresh ∨ .started x ∈ k)
    (hr : s'.rtrSent = true → s.rtrSent = true ∨ ∃ w, .sent w ∈ k ∧ IsRtr T x w)
    (hp : ∀ a, s'.placedAt = some a → s.placedAt = some a ∨ Placed T m₀ (log ++ k) x a)
    (hi : s'.landed = true → s.landed = true ∨ ∃ q, .imm (T x).tgt q x ∈ k) : Tells T m₀ (log ++ k) x s' := by
  refine ⟨?_, ?_, fun hne => ?_, fun h' => ?_, fun a ha => ?_, fun h' => ?_⟩
  · rw [List.countP_append, h.done, hd]
  · rw [List.countP_append, h.called, hc]
  · rcases hs hne with h' | h'
    · exact List.mem_append_left _ (h.started h')
    · exact List.mem_append_right _ h'
  · rcases hr h' with h' | ⟨w, hw, hx⟩
    · obtain ⟨w, hw, hx⟩ := h.rtr h'
      exact ⟨w, List.mem_append_left _ hw, hx⟩
    · exact ⟨w, List.mem_append_right _ hw, hx⟩
  · rcases hp a ha with h' | h'
    · exact (h.placed a h').append k
    · exact h'
  · rcases hi h' with h' | ⟨q, hq⟩
    · obtain ⟨q, hq⟩ := h.imm h'
      exact ⟨q, List.mem_append_left _ hq⟩
    · exact ⟨q, List.mem_append_right _ hq⟩

/-- Records that are no event of a transfer leave it as it is. -/
theorem Tells.frame {s : Stage} (h : Tells T m₀ log x s) {k : List Rec}
    (hk : ∀ v ∈ k, v.completes x = false ∧ v.calls x = false) : Tells T m₀ (log ++ k) x s := by
  refine h.append ?_ ?_ .inl .inl (fun _ => .inl) .inl
  · rw [List.countP_eq_zero.2 fun v hv => by simp [(hk v hv).1], Nat.add_zero]
  · rw [List.countP_eq_zero.2 fun v hv => by simp [(hk v hv).2], Nat.add_zero]

theorem Rec.Neutral.no_event {v : Rec} (h : v.Neutral) (y : Nat) : v.completes y = false ∧ v.calls y = false := by
  match v, h with
  | .sent w, _ => exact ⟨rfl, rfl⟩
  | .event r (.handler ep rp) buf, _ => exact ⟨rfl, rfl⟩

theorem Rec.Neutral.after {v : Rec} (h : v.Neutral) (l : List Rec) : After T m₀ l v := by
  match v, h with
  | .sent w, _ => trivial
  | .event r (.handler ep rp) buf, _ => trivial

/-- The records of a step are about its own transfer. -/
theorem Next.other {s s' : Stage} {k : List Rec} (h : Next T m₀ x log s k s') {y : Nat} (hy : y ≠ x) :
    ∀ v ∈ k, v.completes y = false ∧ v.calls y = false := by
  have hyx : x ≠ y := fun e => hy e.symm
  cases h <;> simp_all [Rec.completes, Rec.calls]

/-- The step lemma for the transfer itself. -/
theorem Next.tells {s s' : Stage} {k : List Rec} (h : Next T m₀ x log s k s') (ht : Tells T m₀ log x s) :
    Tells T m₀ (log ++ k) x s' := by
  cases h with
  | start => exact ht.append rfl rfl (by simp) .inl (fun _ => .inl) .inl
  | store q => exact ht.append rfl rfl (by simp) .inl (fun _ => .inl) .inl
  | grant q buf => exact ht.append rfl rfl (by simp) (by simp [Stage.rtrSent]) (fun _ => .inl) .inl
  | grantStored q buf => exact ht.append rfl rfl (by simp) (by simp [Stage.rtrSent]) (fun _ => .inl) .inl
  | respond q buf rtr p => exact ht.append (by simp [Stage.done]) rfl (by simp) .inl (fun _ => .inl) .inl
  | write q buf rtr ctx =>
    refine ht.append (by simp [Stage.done, Rec.completes]) rfl (by simp) .inl (fun a ha => .inr ?_)
      (by simp [Stage.landed])
    cases ha
    exact ⟨log, [], rfl⟩
  | rtrEarly q buf w hw => exact ht.append rfl rfl (by simp) (fun _ => .inr ⟨w, by simp, hw⟩) (fun _ => .inl) .inl
  | rtrFirst q buf phase ctx w hph hw =>
    refine ht.append ?_ rfl (by simp) (fun _ => .inr ⟨w, by simp, hw⟩) (fun _ => .inl) .inl
    simp [Stage.done, Rec.completes, hph]
  | rtrLast q buf ctx w ep rp data hw hx =>
    refine ht.append ?_ rfl (by simp) (fun _ => .inr ⟨w, by simp, hw⟩) (fun _ => .inl) .inl
    simp [Stage.done, Rec.completes, hx]
  | immFirst q buf ctx => exact ht.append rfl rfl (by simp) .inl (fun _ => .inl) fun _ => .inr ⟨q, by simp⟩
  | immLast q buf ctx ep rp data hx =>
    refine ht.append ?_ rfl (by simp) .inl (fun _ => .inl) fun _ => .inr ⟨q, by simp⟩
    simp [Stage.done, Rec.completes, hx]
  | call q buf rtr phase p w b hw =>
    refine ht.append rfl ?_ (by simp) .inl (fun _ => .inl) .inl
    simp [Stage.called, Rec.calls]

/-- The events of a step come after what they are to come after. -/
theorem Next.after {s s' : Stage} {k : List Rec} (h : Next T m₀ x log s k s') (ht : Tells T m₀ log x s)
    (hE : Each (After T m₀) log) : Each (After T m₀) (log ++ k) := by
  have hall : ∀ {k : List Rec}, (∀ v ∈ k, ∀ l, After T m₀ l v) → Each (After T m₀) (log ++ k) :=
    fun hk => hE.append_of_forall hk
  cases h with
  | rtrLast q buf ctx w ep rp data hw hx =>
    obtain ⟨i, hi⟩ := ht.imm rfl
    rw [← List.singleton_append, ← List.append_assoc]
    refine Each.snoc (hall (by simp [After])) ?_
    show Received T m₀ (log ++ [.sent w]) data.view.xfer (T x).tgt (.mem buf)
    rw [hx]
    exact ⟨rfl, ⟨w, by simp, hw⟩, ⟨i, by simp [hi]⟩, buf, rfl, (ht.placed buf rfl).append _⟩
  | immLast q buf ctx ep rp data hx =>
    obtain ⟨w, hw, hrtr⟩ := ht.rtr rfl
    rw [← List.singleton_append, ← List.append_assoc]
    refine Each.snoc (hall (by simp [After])) ?_
    show Received T m₀ (log ++ [.imm (T x).tgt q x]) data.view.xfer (T x).tgt (.mem buf)
    rw [hx]
    exact ⟨rfl, ⟨w, by simp [hw], hrtr⟩, ⟨q, by simp⟩, buf, rfl, (ht.placed buf rfl).append _⟩
  | call q buf rtr phase p w b hw =>
    rw [← List.singleton_append, ← List.append_assoc]
    refine Each.snoc (hall (by simp [After])) ?_
    exact ⟨rfl, rfl, rfl, List.mem_append_left _ (ht.started (by simp)), w, by simp, hw⟩
  | _ => exact hall (by simp [After])

/-! ## Runs of the protocol -/

/-- The stages of the transfers and the history. -/
structure Abs where
  stage : Nat → Stage
  log : List Rec

variable (T m₀) in
/-- A step of a transfer, with records that tell nothing, or such records alone. -/
inductive Abs.Step : Abs → Abs → Prop
  | next {a : Abs} (x : Nat) (k hs : List Rec) (s : Stage) : Next T m₀ x a.log (a.stage x) k s → (∀ v ∈ hs, v.Neutral) →
    Abs.Step a ⟨Function.update a.stage x s, a.log ++ k ++ hs⟩
  | idle {a : Abs} (hs : List Rec) : (∀ v ∈ hs, v.Neutral) → Abs.Step a ⟨a.stage, a.log ++ hs⟩

variable (T m₀) in
/-- The history tells the stages, and every event in it comes after what it is to come after. -/
structure Abs.Inv (a : Abs) : Prop where
  after : Each (After T m₀) a.log
  tells : ∀ x, Tells T m₀ a.log x (a.stage x)

theorem Abs.inv_init : Abs.Inv T m₀ ⟨fun _ => .fresh, []⟩ :=
  ⟨each_nil, fun x => ⟨rfl, rfl, by simp, by simp [Stage.rtrSent], by simp [Stage.placedAt], by simp [Stage.landed]⟩⟩

theorem Abs.Inv.neutral {a : Abs} (h : Abs.Inv T m₀ a) {hs : List Rec} (hn : ∀ v ∈ hs, v.Neutral) :
    Abs.Inv T m₀ ⟨a.stage, a.log ++ hs⟩ := by
  exact ⟨h.after.append_of_forall fun v hv => (hn v hv).after, fun x => (h.tells x).frame fun v hv =>
    (hn v hv).no_event x⟩

/-- The step lemma. -/
theorem Abs.Inv.step {a b : Abs} (h : Abs.Inv T m₀ a) (hs : Abs.Step T m₀ a b) : Abs.Inv T m₀ b := by
  cases hs with
  | idle hs hn => exact h.neutral hn
  | next x k hs s hnext hn =>
    have hk : Abs.Inv T m₀ ⟨Function.update a.stage x s, a.log ++ k⟩ := by
      refine ⟨hnext.after (h.tells x) h.after, fun y => ?_⟩
      dsimp only
      by_cases hy : y = x
      · subst hy
        rw [Function.update_self]
        exact hnext.tells (h.tells y)
      · rw [Function.update_of_ne hy]
        exact (h.tells y).frame (hnext.other hy)
    exact hk.neutral hn

/-- The run lemma. -/
theorem Abs.Inv.steps {a b : Abs} (h : Abs.Inv T m₀ a) (hs : ReflTransGen (Abs.Step T m₀) a b) : Abs.Inv T m₀ b := by
  induction hs with
  | refl => exact h
  | tail _ hlast ih => exact ih.step hlast

/-- A completion event and a callback come at most once for each transfer. -/
theorem Abs.Inv.at_most_once {a : Abs} (h : Abs.Inv T m₀ a) (x : Nat) :
    a.log.countP (Rec.completes x) ≤ 1 ∧ a.log.countP (Rec.calls x) ≤ 1 := by
  rw [(h.tells x).done, (h.tells x).called]
  exact ⟨Bool.toNat_le _, Bool.toNat_le _⟩

/-! ## The buffer -/

/-- The record writes none of the `n` bytes at `a` of rank `r`. -/
def Rec.Spares (r : CInt) (a n : Nat) : Rec → Prop
  | .wrote t b bytes _ => t = r → ∀ i < n, ¬ (b ≤ a + i ∧ a + i < b + bytes.length)
  | _ => True

theorem readMem_congr {m m' : Nat → Byte} {a n : Nat} (h : ∀ i < n, m' (a + i) = m (a + i)) :
    readMem m' a n = readMem m a n :=
  List.map_congr_left fun i hi => h i (List.mem_range.1 hi)

theorem readMem_replay {r : CInt} {a n : Nat} {l : List Rec} (h : ∀ v ∈ l, v.Spares r a n) (m : Nat → Byte) :
    readMem (replay r m l) a n = readMem m a n := by
  induction l generalizing m with
  | nil => rfl
  | cons v l ih =>
    show readMem (replay r (v.apply r m) l) a n = _
    rw [ih (fun u hu => h u (List.mem_cons_of_mem _ hu))]
    have hv := h v List.mem_cons_self
    refine readMem_congr fun i hi => ?_
    cases v with
    | wrote t b bytes x =>
      unfold Rec.apply
      dsimp only
      split_ifs with ht
      · exact writeMem_outside m (hv ht i hi)
      · rfl
    | _ => rfl

theorem payload_length (k : List Rec) (x : Nat) : (payload T m₀ k x).length = (T x).size := by
  simp [payload, readMem]

/-- Data that was placed is there until one of its bytes is written again. -/
theorem placed_read {k k' : List Rec} {a : Nat} (hk : ∀ v ∈ k', v.Spares (T x).tgt a (T x).size) :
    readMem (replay (T x).tgt (m₀ (T x).tgt) (k ++ .wrote (T x).tgt a (payload T m₀ k x) x :: k')) a (T x).size =
      payload T m₀ k x := by
  rw [replay_append]
  show readMem (replay _ (Rec.apply _ _ (.wrote (T x).tgt a (payload T m₀ k x) x)) k') a (T x).size = _
  rw [readMem_replay hk]
  show readMem (if (T x).tgt = (T x).tgt then _ else _) a (T x).size = _
  rw [if_pos rfl, ← @payload_length T m₀ k x]
  exact readMem_writeMem _ _ _

end Protocol

end Lci.Server.Rendezvous
