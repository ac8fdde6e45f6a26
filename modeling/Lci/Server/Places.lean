/-
Where the packets of a device are: in a deque of the pool, posted as a receive, the context of a send, in
a matching table, waiting for the end of a rendezvous, in a completion queue, or with the application.
While a function works on a packet it is in the hand of that function and in no list. The lists of the
device hold the packets that are there, each once (`Own`); every function of the protocol takes the
packet in its hand to one new place.
-/
import Lci.Lib.Ledger
import Lci.Proto.TagMatch
import Lci.Server.Psm2
import Lci.Server.Verbs

namespace Lci.Server

open Lci.Hash Lci.Proto Ledger

/-! ## Places -/

/-- The place of a packet; of one that waits in a rendezvous, whether its RTR is still being sent and
whether the immediate is still to come. -/
inductive Loc
  | hand
  | pool
  | posted
  | send
  | table (ep : Nat) (b : Fin (2 ^ tblBitSize))
  | rdz (rtr imm : Bool)
  | queue (ep : Nat)
  | held
deriving DecidableEq

/-- The place is that of a context the transport has not returned. -/
def Loc.Sending : Loc → Prop
  | .send => True
  | .rdz rtr _ => rtr = true
  | _ => False

/-- The place is that of a packet whose immediate is to come. -/
def Loc.Awaiting : Loc → Prop
  | .rdz _ imm => imm = true
  | _ => False

/-- The place is one of the transport, or the hand. -/
def Loc.Transport : Loc → Prop
  | .hand | .posted | .send | .rdz _ _ => True
  | _ => False

/-- The place of a request of the application: not in use, in a table, on a packet, or completed and not
yet given back. -/
inductive ReqLoc
  | free
  | table (ep : Nat) (b : Fin (2 ^ tblBitSize))
  | on (p : PktId)
  | done
deriving DecidableEq

/-- A device, the requests that the application has popped and not freed, and the packets whose RTR was
sent and whose immediate has not come. -/
structure Sys where
  dev : Dev
  held : List ReqPtr
  owed : List PktId

/-- The live slots of a bucket of an endpoint's table. -/
def entries (d : Dev) (e : Nat) (b : Fin (2 ^ tblBitSize)) : List (Slot Ptr) := live ((d.eps e).tbl b).slots

def Ptr.pkt? : Ptr → Option PktId
  | .pkt p => some p
  | _ => none

def Ptr.req? : Ptr → Option ReqId
  | .req r => some r
  | _ => none

def pktsOf (l : List (Slot Ptr)) : List PktId := l.filterMap fun x => x.val.pkt?

def reqsOf (l : List (Slot Ptr)) : List ReqId := l.filterMap fun x => x.val.req?

/-- A slot of the server side holds a packet, one of the client side a request. -/
def Sided (x : Slot Ptr) : Prop :=
  if x.tag.getLsbD 0 then x.val.pkt?.isSome = true else x.val.req?.isSome = true

def parentOf (d : Dev) (r : ReqPtr) : Option PktId := (d.getReq r).parent

/-- The request a packet points to is its own, or one of the application that is on the packet. -/
def ReqOk (d : Dev) (use : ReqId → ReqLoc) (p : PktId) : Prop :=
  d.reqPtr p = .own p ∨ ∃ r, d.reqPtr p = .user r ∧ use r = .on p

/-- The deques of the workers exist. -/
def TlsOk (pool : Pool) : Prop := ∀ wid pid, pool.tls wid = some pid → pid < pool.lpools.length

/-- The tag of a packet names a deque, or none. -/
def PoolidOk (d : Dev) (p : PktId) : Prop :=
  (d.pk p).context.poolid = -1 ∨
    (0 ≤ (d.pk p).context.poolid ∧ (d.pk p).context.poolid.toNat < d.pool.lpools.length)

/-- The messages whose buffer the sender registers on verbs: long puts, and the writes of rendezvous that are not
sent inline. -/
def OriginReg (maxInline : Nat) : Msg → Prop
  | .put _ _ _ _ (.mem _ _) _ => True
  | .rma _ _ _ _ size _ => maxInline < size
  | _ => False

instance (maxInline : Nat) : ∀ m, Decidable (OriginReg maxInline m)
  | .put _ _ _ _ (.mem _ _) _ => inferInstanceAs (Decidable True)
  | .put _ _ _ _ (.bytes _) _ => inferInstanceAs (Decidable False)
  | .rma _ _ _ _ _ _ => inferInstanceAs (Decidable (_ < _))
  | .send _ _ _ _ => inferInstanceAs (Decidable False)

/-- Every list of the device holds what is in its place; what waits in a rendezvous counts what it waits
for; and the registrations of a verbs device are those of the immediates to come and of the buffers
that were registered to be sent. -/
structure Own (s : Sys) (loc : PktId → Loc) (use : ReqId → ReqLoc) : Prop where
  range : ∀ p, LC_SERVER_NUM_PKTS ≤ p → loc p = .hand
  pool : Holds s.dev.pool.lpools.flatten fun p => loc p = .pool
  posted : Holds (s.dev.posted.filterMap Post.ctx) fun p => loc p = .posted
  sends : Holds s.dev.sends fun p => (loc p).Sending
  owed : Holds s.owed fun p => (loc p).Awaiting
  pkts : ∀ e b, Holds (pktsOf (entries s.dev e b)) fun p => loc p = .table e b
  reqs : ∀ e b, Holds (reqsOf (entries s.dev e b)) fun r => use r = .table e b
  sided : ∀ e b, ∀ x ∈ entries s.dev e b, Sided x
  queue : ∀ e, ∃ l, (s.dev.eps e).cq.map (parentOf s.dev) = l.map some ∧ Holds l fun p => loc p = .queue e
  held : ∃ l, s.held.map (parentOf s.dev) = l.map some ∧ Holds l fun p => loc p = .held
  done : ∀ r, (∃ e, .user r ∈ (s.dev.eps e).cq) ∨ .user r ∈ s.held → use r = .done
  parent : ∀ p, (s.dev.pk p).context.reqS.parent = some p
  rdz : ∀ p a b, loc p = .rdz a b → (a = true ∨ b = true) ∧ (s.dev.pk p).context.proto = .rtr ∧
    (s.dev.pk p).context.ref = (a.toNat : Int) + b.toNat ∧ ReqOk s.dev use p
  plain : ∀ p, loc p = .send → (s.dev.pk p).context.proto ≠ .rtr
  tls : TlsOk s.dev.pool
  poolid : ∀ p, PoolidOk s.dev p
  buffer : ∀ r e b, use r = .table e b → (s.dev.req r).buffer ≠ .null
  mrs : s.dev.backend = .ibv → ∃ org, s.dev.mrs.Perm (s.owed.map (fun p => (s.dev.pk p).context.rmaMem) ++ org) ∧
    org.length = s.dev.out.countP fun m => decide (OriginReg s.dev.maxInline m)

/-! ## Changes to a packet in the hand -/

/-- Of the contexts only that of packet `p` may be new; pool, tables, queues and requests are as they were. -/
structure Keeps (p : PktId) (d d' : Dev) : Prop where
  backend : d'.backend = d.backend
  maxInline : d'.maxInline = d.maxInline
  pool : d'.pool = d.pool
  tbl : ∀ e, (d'.eps e).tbl = (d.eps e).tbl
  cq : ∀ e, (d'.eps e).cq = (d.eps e).cq
  other : ∀ q, q ≠ p → (d'.pk q).context = (d.pk q).context
  parent : (d'.pk p).context.reqS.parent = (d.pk p).context.reqS.parent
  poolid : PoolidOk d p → PoolidOk d' p
  req : ∀ r, (d'.req r).parent = (d.req r).parent ∧ ((d.req r).buffer ≠ .null → (d'.req r).buffer ≠ .null)

/-- And what the transport has is as it was, but for receives without a packet. -/
structure Touch (p : PktId) (d d' : Dev) : Prop extends Keeps p d d' where
  frame : Frame d d'
  sends : d'.sends = d.sends
  out : d'.out = d.out
  mrs : d'.mrs = d.mrs

namespace Keeps

/-- A change of other fields. -/
theorem of_eq (p : PktId) {d d' : Dev} (hb : d'.backend = d.backend) (hm : d'.maxInline = d.maxInline)
    (hp : d'.pool = d.pool) (he : d'.eps = d.eps) (hk : d'.pk = d.pk) (hr : d'.req = d.req) : Keeps p d d' where
  backend := hb
  maxInline := hm
  pool := hp
  tbl e := by rw [he]
  cq e := by rw [he]
  other q _ := by rw [hk]
  parent := by rw [hk]
  poolid h := by
    unfold PoolidOk
    rw [hk, hp]
    exact h
  req r := by
    rw [hr]
    exact ⟨rfl, id⟩

theorem refl (p : PktId) (d : Dev) : Keeps p d d := of_eq p rfl rfl rfl rfl rfl rfl

theorem trans {p : PktId} {d d' d'' : Dev} (h : Keeps p d d') (h' : Keeps p d' d'') : Keeps p d d'' where
  backend := h'.backend.trans h.backend
  maxInline := h'.maxInline.trans h.maxInline
  pool := h'.pool.trans h.pool
  tbl e := (h'.tbl e).trans (h.tbl e)
  cq e := (h'.cq e).trans (h.cq e)
  other q hq := (h'.other q hq).trans (h.other q hq)
  parent := h'.parent.trans h.parent
  poolid hp := h'.poolid (h.poolid hp)
  req r := ⟨(h'.req r).1.trans (h.req r).1, fun hb => (h'.req r).2 ((h.req r).2 hb)⟩

/-- The requests of the lists have the parents they had. -/
theorem parentOf {p : PktId} {d d' : Dev} (h : Keeps p d d') (r : ReqPtr) : parentOf d' r = parentOf d r := by
  cases r with
  | own q =>
    by_cases hq : q = p
    · subst hq
      exact h.parent
    · exact congrArg (fun c : Context => c.reqS.parent) (h.other q hq)
  | user r => exact (h.req r).1

theorem entries {p : PktId} {d d' : Dev} (h : Keeps p d d') (e : Nat) (b : Fin (2 ^ tblBitSize)) :
    entries d' e b = entries d e b := by
  unfold Server.entries
  rw [h.tbl]

end Keeps

namespace Touch

theorem refl (p : PktId) (d : Dev) : Touch p d d := ⟨Keeps.refl p d, Frame.refl d, rfl, rfl, rfl⟩

theorem trans {p : PktId} {d d' d'' : Dev} (h : Touch p d d') (h' : Touch p d' d'') : Touch p d d'' :=
  ⟨h.toKeeps.trans h'.toKeeps, h.frame.trans h'.frame, h'.sends.trans h.sends, h'.out.trans h.out, h'.mrs.trans h.mrs⟩

theorem ctxs {p : PktId} {d d' : Dev} (h : Touch p d d') :
    d'.posted.filterMap Post.ctx = d.posted.filterMap Post.ctx := by
  obtain ⟨l, hl, hx⟩ := h.frame.posted
  have hnil : l.filterMap Post.ctx = [] := List.filterMap_eq_nil_iff.2 fun x hm => (hx x hm).1
  rw [hl, List.filterMap_append, hnil, List.append_nil]

end Touch

theorem touch_setCtx (d : Dev) (p : PktId) {f : Context → Context} (hf : ∀ c, (f c).reqS.parent = c.reqS.parent)
    (hp : PoolidOk d p → PoolidOk (d.setCtx p f) p) : Touch p d (d.setCtx p f) where
  frame := frame_setCtx d p f
  sends := rfl
  out := rfl
  mrs := rfl
  backend := rfl
  maxInline := rfl
  pool := rfl
  tbl _ := rfl
  cq _ := rfl
  other q hq := by simp [Dev.setCtx, hq]
  parent := by simp [Dev.setCtx, hf]
  poolid := hp
  req _ := ⟨rfl, id⟩

/-- A change of the context that leaves the tag of the packet alone. -/
theorem touch_ctx (d : Dev) (p : PktId) {f : Context → Context} (hf : ∀ c, (f c).reqS.parent = c.reqS.parent)
    (hp : ∀ c, (f c).poolid = c.poolid) : Touch p d (d.setCtx p f) := by
  refine touch_setCtx d p hf fun h => ?_
  have hid : ((d.setCtx p f).pk p).context.poolid = (d.pk p).context.poolid := by simp [Dev.setCtx, hp]
  unfold PoolidOk
  rw [hid]
  exact h

theorem touch_setData (d : Dev) (p q : PktId) (x : PkData) : Touch p d (d.setData q x) where
  frame := frame_setData d q x
  sends := rfl
  out := rfl
  mrs := rfl
  backend := rfl
  maxInline := rfl
  pool := rfl
  tbl _ := rfl
  cq _ := rfl
  other q' _ := by
    by_cases h : q' = q
    · subst h; simp [Dev.setData]
    · simp [Dev.setData, h]
  parent := by
    by_cases h : p = q
    · subst h; simp [Dev.setData]
    · simp [Dev.setData, h]
  poolid h := by
    have : ((d.setData q x).pk p).context = (d.pk p).context := by
      by_cases hq : p = q
      · subst hq; simp [Dev.setData]
      · simp [Dev.setData, hq]
    unfold PoolidOk
    rw [this]
    exact h
  req _ := ⟨rfl, id⟩

theorem touch_setReqPtr (d : Dev) (p : PktId) (r : ReqPtr) : Touch p d (d.setReqPtr p r) :=
  touch_ctx d p (fun _ => rfl) fun _ => rfl

/-- A change of the request of packet `p`, or of one of the application. -/
theorem touch_setReq (d : Dev) (p : PktId) {r : ReqPtr} {f : Req → Req} (hr : r = .own p ∨ ∃ u, r = .user u)
    (hf : ∀ q, (f q).parent = q.parent ∧ (q.buffer ≠ .null → (f q).buffer ≠ .null)) : Touch p d (d.setReq r f) := by
  rcases hr with rfl | ⟨u, rfl⟩
  · exact touch_ctx d p (f := fun c => { c with reqS := f c.reqS }) (fun c => (hf c.reqS).1) fun _ => rfl
  · refine ⟨⟨rfl, rfl, rfl, fun _ => rfl, fun _ => rfl, fun _ _ => rfl, rfl, id, fun r' => ?_⟩, frame_setReq d _ f,
      rfl, rfl, rfl⟩
    by_cases h : r' = u
    · subst h; simpa [Dev.setReq] using hf (d.req r')
    · simp [Dev.setReq, h]

theorem touch_event (d : Dev) (p : PktId) (v : Event) : Touch p d (d.event v) :=
  ⟨Keeps.of_eq p rfl rfl rfl rfl rfl rfl, frame_event d v, rfl, rfl, rfl⟩

theorem touch_glob (d : Dev) (p : PktId) (e : Nat) : Touch p d (lciCeGlob d e) := by
  refine ⟨⟨rfl, rfl, rfl, fun x => ?_, fun x => ?_, fun _ _ => rfl, rfl, id, fun _ => ⟨rfl, id⟩⟩,
    frame_setEp d e _ rfl rfl, rfl, rfl, rfl⟩ <;> by_cases h : x = e
  · subst h; simp [lciCeGlob, Dev.setEp]
  · simp [lciCeGlob, Dev.setEp, h]
  · subst h; simp [lciCeGlob, Dev.setEp]
  · simp [lciCeGlob, Dev.setEp, h]

theorem touch_mem (d : Dev) (p : PktId) (mem : Nat → Byte) : Touch p d { d with mem := mem } :=
  ⟨Keeps.of_eq p rfl rfl rfl rfl rfl rfl, Frame.of_eq rfl, rfl, rfl, rfl⟩

theorem touch_pkInit (d : Dev) (ep : Nat) (proto : LcProto) (p : PktId) : Touch p d (lciPkInit d ep (-1) proto p) :=
  touch_setCtx d p (fun _ => rfl) fun _ => .inl (by simp [Dev.setCtx])

/-! ## The deques -/

theorem flatten_set_perm {l : List (List PktId)} {i : Nat} {dq dq' : List PktId} {p : PktId} (hi : l[i]? = some dq)
    (hp : dq.Perm (p :: dq')) : l.flatten.Perm (p :: (l.set i dq').flatten) := by
  induction l generalizing i with
  | nil => cases hi
  | cons a l ih =>
    cases i with
    | zero =>
      cases hi
      exact hp.append_right _
    | succ i =>
      simp only [List.set_cons_succ, List.flatten_cons]
      exact ((ih hi).append_left a).trans List.perm_middle

theorem getLocal_spec {pool : Pool} (h : TlsOk pool) (wid : Nat) :
    (lcPoolGetLocal pool wid).1 < (lcPoolGetLocal pool wid).2.lpools.length ∧
      TlsOk (lcPoolGetLocal pool wid).2 ∧
      (lcPoolGetLocal pool wid).2.lpools.flatten = pool.lpools.flatten ∧
      pool.lpools.length ≤ (lcPoolGetLocal pool wid).2.lpools.length ∧
      (lcPoolGetLocal pool wid).2.tls wid = some (lcPoolGetLocal pool wid).1 := by
  unfold lcPoolGetLocal
  cases hw : pool.tls wid with
  | some pid => exact ⟨h wid pid hw, h, rfl, le_rfl, hw⟩
  | none =>
    refine ⟨by simp, fun w pid hp => ?_, by simp, by simp, by simp⟩
    dsimp only at hp
    simp only [List.length_append, List.length_singleton]
    by_cases hww : w = wid
    · subst hww
      rw [Function.update_self] at hp
      cases hp
      exact Nat.lt_succ_self _
    · rw [Function.update_of_ne hww] at hp
      exact Nat.lt_succ_of_lt (h w pid hp)

theorem putTo_perm {pool : Pool} {p : PktId} {pid : Nat} (hpid : pid < pool.lpools.length)
    (hlen : ∀ dq ∈ pool.lpools, dq.length + 1 < MAX_SIZE) :
    ∃ pool', lcPoolPutTo pool p pid = some pool' ∧ pool'.lpools.flatten.Perm (p :: pool.lpools.flatten) ∧
      pool'.tls = pool.tls ∧ pool'.lpools.length = pool.lpools.length := by
  have hget : pool.lpools[pid]? = some pool.lpools[pid] := List.getElem?_eq_getElem hpid
  refine ⟨{ pool with lpools := pool.lpools.set pid (pool.lpools[pid] ++ [p]) }, ?_, ?_, rfl, List.length_set⟩
  · simp [lcPoolPutTo, dqPushTop, hget, hlen _ (List.getElem_mem hpid)]
  · have hset : (pool.lpools.set pid (pool.lpools[pid] ++ [p])).set pid pool.lpools[pid] = pool.lpools := by
      rw [List.set_set, List.set_getElem_self]
    have hp := @flatten_set_perm (pool.lpools.set pid (pool.lpools[pid] ++ [p])) pid (pool.lpools[pid] ++ [p])
      pool.lpools[pid] p (by rw [List.getElem?_set_self hpid]) List.perm_append_comm
    rw [hset] at hp
    exact hp

/-- A packet comes out of the pool, or nothing does. -/
theorem getNb_spec {pool : Pool} (h : TlsOk pool) (env : Env) :
    TlsOk (lcPoolGetNb pool env).2 ∧ pool.lpools.length ≤ (lcPoolGetNb pool env).2.lpools.length ∧
      match (lcPoolGetNb pool env).1 with
      | some p => pool.lpools.flatten.Perm (p :: (lcPoolGetNb pool env).2.lpools.flatten)
      | none => (lcPoolGetNb pool env).2.lpools.flatten = pool.lpools.flatten := by
  obtain ⟨hlt, htls, hflat, hle, -⟩ := getLocal_spec h env.wid
  unfold lcPoolGetNb
  generalize lcPoolGetLocal pool env.wid = x at *
  obtain ⟨pid, pool'⟩ := x
  dsimp only at *
  have hget : pool'.lpools.getD pid [] = pool'.lpools[pid] := by simp [hlt]
  cases hdq : dqPopTop (pool'.lpools.getD pid []) with
  | mk q dq =>
    cases q with
    | some p =>
      rw [hget] at hdq
      obtain ⟨hlast, rfl⟩ : pool'.lpools[pid].getLast? = some p ∧ pool'.lpools[pid].dropLast = dq := by
        simpa [dqPopTop] using hdq
      refine ⟨fun w i hw => ?_, by simpa using hle, ?_⟩
      · simpa using htls w i hw
      · rw [← hflat]
        refine flatten_set_perm (List.getElem?_eq_getElem hlt) ?_
        have := List.dropLast_append_getLast? p hlast
        rw [← this]
        simp only [List.dropLast_concat]
        exact List.perm_append_comm
    | none =>
      -- the deque of the worker is empty, one is taken at random
      have hpos : 0 < pool'.lpools.length := Nat.lt_of_le_of_lt (Nat.zero_le _) hlt
      have hs : env.rand % pool'.lpools.length < pool'.lpools.length := Nat.mod_lt _ hpos
      dsimp only [dqPopBot]
      generalize env.rand % pool'.lpools.length = i at hs ⊢
      have hget : pool'.lpools.getD i [] = pool'.lpools[i] := by simp [hs]
      rw [hget]
      refine ⟨fun w j hw => ?_, by simpa using hle, ?_⟩
      · simpa using htls w j hw
      · cases hb : pool'.lpools[i] with
        | nil =>
          simp only [List.head?_nil, List.tail_nil]
          rw [← hflat, ← hb, List.set_getElem_self]
        | cons a l =>
          simp only [List.head?_cons, List.tail_cons]
          rw [← hflat]
          exact flatten_set_perm ((List.getElem?_eq_getElem hs).trans (congrArg some hb)) List.Perm.rfl

/-! ## Moves -/

section Moves

variable {s : Sys} {loc : PktId → Loc} {use : ReqId → ReqLoc} {p : PktId}

theorem Own.lt_of_ne (h : Own s loc use) (hp : loc p ≠ .hand) : p < LC_SERVER_NUM_PKTS := by
  by_contra hge
  exact hp (h.range p (Nat.le_of_not_lt hge))

theorem Own.range_update (h : Own s loc use) {j : Loc} (hlt : j ≠ .hand → p < LC_SERVER_NUM_PKTS) {q : PktId}
    (hq : LC_SERVER_NUM_PKTS ≤ q) : Function.update loc p j q = .hand := by
  by_cases hqp : q = p
  · subst hqp
    rw [Function.update_self]
    by_contra hne
    exact absurd (hlt hne) (Nat.not_lt.2 hq)
  · rw [Function.update_of_ne hqp]
    exact h.range q hq

/-- A packet moves among the places of the transport and the hand; what the transport has changes with it. -/
theorem Own.move (h : Own s loc use) {d' : Dev} {owed : List PktId} {j : Loc} (hk : Keeps p s.dev d')
    (hi : (loc p).Transport) (hj : j.Transport) (hlt : j ≠ .hand → p < LC_SERVER_NUM_PKTS)
    (hposted : Holds (d'.posted.filterMap Post.ctx) fun q => Function.update loc p j q = .posted)
    (hsends : Holds d'.sends fun q => (Function.update loc p j q).Sending)
    (howed : Holds owed fun q => (Function.update loc p j q).Awaiting)
    (hrdz : ∀ a b, j = .rdz a b → (a = true ∨ b = true) ∧ (d'.pk p).context.proto = .rtr ∧
      (d'.pk p).context.ref = (a.toNat : Int) + b.toNat ∧ ReqOk d' use p)
    (hplain : j = .send → (d'.pk p).context.proto ≠ .rtr)
    (hmrs : s.dev.backend = .ibv → ∃ org, d'.mrs.Perm (owed.map (fun q => (d'.pk q).context.rmaMem) ++ org) ∧
      org.length = d'.out.countP fun m => decide (OriginReg s.dev.maxInline m)) :
    Own ⟨d', s.held, owed⟩ (Function.update loc p j) use := by
  have hpar : Server.parentOf d' = Server.parentOf s.dev := funext hk.parentOf
  -- the places that the transport does not have keep what they hold
  have hkeep : ∀ {l : List PktId} {i : Loc}, ¬ i.Transport → Holds l (fun q => loc q = i) →
      Holds l fun q => Function.update loc p j q = i := by
    intro l i hn hl
    exact hl.keepAt (fun e => hn (e ▸ hi)) fun e => hn (e ▸ hj)
  refine ⟨fun q hq => ?_, ?_, hposted, hsends, howed, fun e b => ?_, fun e b => ?_, fun e b => ?_, fun e => ?_, ?_,
    fun r hr => ?_, fun q => (hk.parentOf (.own q)).trans (h.parent q), fun q a b hq => ?_, fun q hq => ?_, ?_,
    fun q => ?_, fun r e b hr => (hk.req r).2 (h.buffer r e b hr), fun hb => ?_⟩
  · exact h.range_update hlt hq
  · rw [hk.pool]; exact hkeep (by simp [Loc.Transport]) h.pool
  · rw [hk.entries]; exact hkeep (by simp [Loc.Transport]) (h.pkts e b)
  · rw [hk.entries]; exact h.reqs e b
  · rw [hk.entries]; exact h.sided e b
  · obtain ⟨l, h1, h2⟩ := h.queue e
    exact ⟨l, by rw [hk.cq, hpar]; exact h1, hkeep (by simp [Loc.Transport]) h2⟩
  · obtain ⟨l, h1, h2⟩ := h.held
    exact ⟨l, by rw [hpar]; exact h1, hkeep (by simp [Loc.Transport]) h2⟩
  · refine h.done r (hr.imp_left ?_)
    rintro ⟨e, he⟩
    exact ⟨e, hk.cq e ▸ he⟩
  · by_cases hqp : q = p
    · subst hqp
      rw [Function.update_self] at hq
      exact hrdz a b hq
    · rw [Function.update_of_ne hqp] at hq
      unfold ReqOk Dev.reqPtr
      rw [hk.other q hqp]
      exact h.rdz q a b hq
  · by_cases hqp : q = p
    · subst hqp
      rw [Function.update_self] at hq
      exact hplain hq
    · rw [Function.update_of_ne hqp] at hq
      rw [hk.other q hqp]
      exact h.plain q hq
  · rw [hk.pool]; exact h.tls
  · by_cases hq : q = p
    · subst hq
      exact hk.poolid (h.poolid q)
    · unfold PoolidOk
      rw [hk.other q hq, hk.pool]
      exact h.poolid q
  · rw [hk.maxInline]
    exact hmrs (hk.backend.symm.trans hb)

/-- The registrations, where packet `p` has no immediate to come. -/
theorem Own.mrs_of_touch (h : Own s loc use) (hp : ¬ (loc p).Awaiting) {d' : Dev} (hk : Keeps p s.dev d')
    (hm : d'.mrs = s.dev.mrs) (ho : d'.out = s.dev.out) (hb : s.dev.backend = .ibv) :
    ∃ org, d'.mrs.Perm (s.owed.map (fun q => (d'.pk q).context.rmaMem) ++ org) ∧
      org.length = d'.out.countP fun m => decide (OriginReg s.dev.maxInline m) := by
  obtain ⟨org, h1, h2⟩ := h.mrs hb
  refine ⟨org, ?_, by rw [ho]; exact h2⟩
  have hmap : s.owed.map (fun q => (d'.pk q).context.rmaMem) = s.owed.map fun q => (s.dev.pk q).context.rmaMem := by
    refine List.map_congr_left fun q hq => ?_
    have haw : (loc q).Awaiting := h.owed.mem hq
    rw [hk.other q fun e => hp (e ▸ haw)]
  rw [hmap, hm]
  exact h1

theorem Own.touch (h : Own s loc use) (hp : loc p = .hand) {d' : Dev} (ht : Touch p s.dev d') :
    Own { s with dev := d' } loc use := by
  have hself : Function.update loc p .hand = loc := by rw [← hp, Function.update_eq_self]
  have := h.move (j := .hand) ht.toKeeps (by simp [hp, Loc.Transport]) (by simp [Loc.Transport])
    (by simp) (by rw [hself, ht.ctxs]; exact h.posted) (by rw [hself, ht.sends]; exact h.sends)
    (by rw [hself]; exact h.owed) (by simp) (by simp)
    (h.mrs_of_touch (by simp [hp, Loc.Awaiting]) ht.toKeeps ht.mrs ht.out)
  rwa [hself] at this

/-- A list of packets of the device is no longer than there are packets. -/
theorem Own.length_le (h : Own s loc use) {l : List PktId} {i : Loc} (hl : Holds l fun p => loc p = i)
    (hi : i ≠ .hand) : l.length ≤ LC_SERVER_NUM_PKTS := by
  have hsub : l ⊆ List.range LC_SERVER_NUM_PKTS := by
    intro p hp
    rw [List.mem_range]
    refine h.lt_of_ne ?_
    rw [hl.mem hp]
    exact hi
  have := (hl.nodup.subperm hsub).length_le
  rwa [List.length_range] at this

theorem Own.deque_lt (h : Own s loc use) {dq : List PktId} (hd : dq ∈ s.dev.pool.lpools) :
    dq.length + 1 < MAX_SIZE := by
  have hle := h.length_le h.pool (by simp)
  have := (List.sublist_flatten_of_mem hd).length_le
  unfold LC_SERVER_NUM_PKTS at hle
  unfold MAX_SIZE
  omega

/-- The pool is replaced by one that has the packets it is to have. -/
theorem Own.setPool (h : Own s loc use) {pool : Pool} {loc' : PktId → Loc} (hr : ∀ q, q ≠ p → loc' q = loc q)
    (hp : loc p = .hand ∨ loc p = .pool) (hp' : loc' p = .hand ∨ loc' p = .pool)
    (hlt : LC_SERVER_NUM_PKTS ≤ p → loc' p = .hand) (hpool : Holds pool.lpools.flatten fun q => loc' q = .pool)
    (htls : TlsOk pool) (hlen : s.dev.pool.lpools.length ≤ pool.lpools.length) :
    Own { s with dev := s.dev.setPool pool } loc' use := by
  -- every other list keeps what it holds
  have hkeep : ∀ {l : List PktId} {f : Loc → Prop}, ¬ f .hand → ¬ f .pool → Holds l (fun q => f (loc q)) →
      Holds l fun q => f (loc' q) := by
    intro l f h1 h2 hl
    refine hl.congr fun q => ?_
    by_cases hq : q = p
    · subst hq
      rcases hp with e | e <;> rcases hp' with e' | e' <;> simp [e, e', h1, h2]
    · rw [hr q hq]
  have hloc : ∀ {q : PktId} {i : Loc}, i ≠ .hand → i ≠ .pool → loc' q = i → loc q = i := by
    intro q i h1 h2 hq
    by_cases hqp : q = p
    · subst hqp
      rcases hp' with e | e <;> rw [e] at hq <;> simp_all
    · rw [← hr q hqp]
      exact hq
  refine ⟨fun q hq => ?_, hpool, hkeep (f := fun i => i = .posted) (by simp) (by simp) h.posted,
    hkeep (by simp [Loc.Sending])
    (by simp [Loc.Sending]) h.sends, hkeep (by simp [Loc.Awaiting]) (by simp [Loc.Awaiting]) h.owed,
    fun e b => hkeep (f := fun i => i = .table e b) (by simp) (by simp) (h.pkts e b), h.reqs, h.sided, fun e => ?_, ?_,
      h.done, h.parent,
    fun q a b hq => h.rdz q a b (hloc (by simp) (by simp) hq), fun q hq => h.plain q (hloc (by simp) (by simp) hq),
      htls,
    fun q => ?_, h.buffer, h.mrs⟩
  · by_cases hqp : q = p
    · subst hqp
      exact hlt hq
    · rw [hr q hqp]
      exact h.range q hq
  · obtain ⟨l, h1, h2⟩ := h.queue e
    exact ⟨l, h1, hkeep (f := fun i => i = .queue e) (by simp) (by simp) h2⟩
  · obtain ⟨l, h1, h2⟩ := h.held
    exact ⟨l, h1, hkeep (f := fun i => i = .held) (by simp) (by simp) h2⟩
  · exact (h.poolid q).imp id fun ⟨h0, hlt⟩ => ⟨h0, hlt.trans_le hlen⟩

/-- A packet in the hand goes to the pool. -/
theorem Own.putTo (h : Own s loc use) (hp : loc p = .hand) (hlt : p < LC_SERVER_NUM_PKTS) {pool : Pool}
    (htls : TlsOk pool) (hlen : s.dev.pool.lpools.length ≤ pool.lpools.length)
    (hperm : pool.lpools.flatten.Perm (p :: s.dev.pool.lpools.flatten)) :
    Own { s with dev := s.dev.setPool pool } (Function.update loc p .pool) use := by
  refine h.setPool (p := p) (fun q hq => Function.update_of_ne hq _ _) (.inl hp) (.inr (Function.update_self _ _ _))
    (fun hge => absurd hlt (Nat.not_lt.2 hge)) ?_ htls hlen
  exact h.pool.putAt (by simp [hp]) hperm

/-- `lc_pool_put` always succeeds. -/
theorem Own.poolPut (h : Own s loc use) (hp : loc p = .hand) (hlt : p < LC_SERVER_NUM_PKTS) (env : Env) :
    ∃ pool, poolPut env s.dev p = some (s.dev.setPool pool) ∧
      Own { s with dev := s.dev.setPool pool } (Function.update loc p .pool) use := by
  obtain ⟨hl1, hl2, hl3, hl4, -⟩ := getLocal_spec h.tls env.wid
  have hdq : ∀ dq ∈ (lcPoolGetLocal s.dev.pool env.wid).2.lpools, dq.length + 1 < MAX_SIZE := by
    intro dq hdq
    unfold lcPoolGetLocal at hdq
    split at hdq
    · exact h.deque_lt hdq
    · rcases List.mem_append.1 hdq with hdq | hdq
      · exact h.deque_lt hdq
      · rw [List.mem_singleton.1 hdq]
        decide
  obtain ⟨pool, hput, hperm, htls, hlen⟩ := putTo_perm (p := p) hl1 hdq
  refine ⟨pool, ?_, h.putTo hp hlt ?_ ?_ (hl3 ▸ hperm)⟩
  · simp only [Server.poolPut, lcPoolPut, hput, Option.map_some]
  · intro w i hw
    rw [hlen]
    exact hl2 w i (htls ▸ hw)
  · rw [hlen]
    exact hl4

/-- `lci_pk_free_data` always succeeds. -/
theorem Own.freeData (h : Own s loc use) (hp : loc p = .hand) (hlt : p < LC_SERVER_NUM_PKTS) (env : Env) :
    ∃ pool, lciPkFreeData env s.dev p = some (s.dev.setPool pool) ∧
      Own { s with dev := s.dev.setPool pool } (Function.update loc p .pool) use := by
  unfold lciPkFreeData
  rcases h.poolid p with hid | ⟨h0, hid⟩
  · rw [if_neg (not_not.2 hid)]
    exact h.poolPut hp hlt env
  · rw [if_pos (by omega), if_pos h0]
    obtain ⟨pool, hput, hperm, htls, hlen⟩ := putTo_perm (p := p) hid fun dq => h.deque_lt
    refine ⟨pool, by rw [hput]; rfl, h.putTo hp hlt (fun w i hw => ?_) hlen.ge hperm⟩
    rw [hlen]
    exact h.tls w i (htls ▸ hw)

/-- `lc_pool_get_nb`: a packet comes to the hand, or the pool stays as it was. -/
theorem Own.getNb (h : Own s loc use) (env : Env) :
    match (lcPoolGetNb s.dev.pool env).1 with
    | some p => loc p = .pool ∧
      Own { s with dev := s.dev.setPool (lcPoolGetNb s.dev.pool env).2 } (Function.update loc p .hand) use
    | none => Own { s with dev := s.dev.setPool (lcPoolGetNb s.dev.pool env).2 } loc use := by
  obtain ⟨htls, hlen, hperm⟩ := getNb_spec h.tls env
  cases hget : (lcPoolGetNb s.dev.pool env).1 with
  | some p =>
    rw [hget] at hperm
    have hp : loc p = .pool := h.pool.mem (hperm.symm.subset List.mem_cons_self)
    refine ⟨hp, h.setPool (p := p) (fun q hq => Function.update_of_ne hq _ _) (.inr hp)
      (.inl (Function.update_self _ _ _)) (fun _ => Function.update_self _ _ _) ?_ htls hlen⟩
    exact h.pool.takeAt (by simp) hperm
  | none =>
    rw [hget] at hperm
    refine h.setPool (p := LC_SERVER_NUM_PKTS) (fun _ _ => rfl) (.inl (h.range _ le_rfl)) (.inl (h.range _ le_rfl))
      (fun _ => h.range _ le_rfl) ?_ htls hlen
    rw [hperm]
    exact h.pool

/-! ## Contexts of the transport -/

/-- A message with a context; on verbs the buffers of some are registered first. -/
def sendOn (d : Dev) (p : PktId) (m : Msg) : Dev :=
  postSend (if d.backend = .ibv ∧ OriginReg d.maxInline m then (ibvRmaReg d).2 else d) p m

theorem sendOn_keeps (d : Dev) (p q : PktId) (m : Msg) : Keeps q d (sendOn d p m) := by
  unfold sendOn
  split_ifs
  · exact Keeps.of_eq q rfl rfl rfl rfl rfl rfl
  · exact Keeps.of_eq q rfl rfl rfl rfl rfl rfl

theorem sendOn_spec (d : Dev) (p : PktId) (m : Msg) :
    (sendOn d p m).posted = d.posted ∧ (sendOn d p m).sends = d.sends ++ [p] ∧ (sendOn d p m).out = d.out ++ [m] ∧
      (sendOn d p m).pk = d.pk ∧
      (sendOn d p m).mrs = d.mrs ++ if d.backend = .ibv ∧ OriginReg d.maxInline m then [d.mrKeys 0] else [] := by
  unfold sendOn
  split_ifs
  · exact ⟨rfl, rfl, rfl, rfl, rfl⟩
  · exact ⟨rfl, rfl, rfl, rfl, (List.append_nil _).symm⟩

/-- A packet in the hand becomes the context of a message that is no RTR. -/
theorem Own.sendOn (h : Own s loc use) (hp : loc p = .hand) (hlt : p < LC_SERVER_NUM_PKTS) (m : Msg)
    (hproto : (s.dev.pk p).context.proto ≠ .rtr) :
    Own { s with dev := sendOn s.dev p m } (Function.update loc p .send) use := by
  obtain ⟨h1, h2, h3, h4, h5⟩ := sendOn_spec s.dev p m
  refine h.move (sendOn_keeps s.dev p p m) (by simp [hp, Loc.Transport]) (by simp [Loc.Transport]) (fun _ => hlt)
    (by rw [h1]; exact h.posted.keepAt (by simp [hp]) (by simp)) ?_ (h.owed.keep (by simp [hp, Loc.Awaiting])) (by simp)
    (fun _ => by rw [h4]; exact hproto) fun hb => ?_
  · rw [h2]
    exact h.sends.put (by simp [hp, Loc.Sending]) trivial List.perm_append_comm
  · obtain ⟨org, hm, hc⟩ := h.mrs hb
    rw [h3, h4, h5, List.countP_append, ← hc]
    by_cases hreg : OriginReg s.dev.maxInline m
    · refine ⟨org ++ [s.dev.mrKeys 0], ?_, by simp [hreg]⟩
      rw [if_pos ⟨hb, hreg⟩, ← List.append_assoc]
      exact hm.append_right _
    · refine ⟨org, ?_, by simp [hreg]⟩
      rw [if_neg fun hx => hreg hx.2, List.append_nil]
      exact hm

theorem rmaReg_keeps (d : Dev) (p : PktId) (b : Buf) (n : Nat) : Keeps p d (lcServerRmaReg d b n).2 := by
  unfold lcServerRmaReg
  split
  · exact Keeps.of_eq p rfl rfl rfl rfl rfl rfl
  · exact Keeps.of_eq p rfl rfl rfl rfl rfl rfl

theorem rmaReg_spec (d : Dev) (b : Buf) (n : Nat) :
    (lcServerRmaReg d b n).2.sends = d.sends ∧ (lcServerRmaReg d b n).2.out = d.out ∧
      (lcServerRmaReg d b n).2.pk = d.pk ∧ (lcServerRmaReg d b n).2.pageSize = d.pageSize ∧
      (lcServerRmaReg d b n).2.mrs = d.mrs ++ [(lcServerRmaReg d b n).1] ∧
      (lcServerRmaReg d b n).2.posted.filterMap Post.ctx = d.posted.filterMap Post.ctx := by
  unfold lcServerRmaReg
  split
  · exact ⟨rfl, rfl, rfl, rfl, rfl, rfl⟩
  · refine ⟨rfl, rfl, rfl, rfl, rfl, ?_⟩
    simp [psm2RmaReg, lcServerPostRecvRma, lcServerGetFreeKey]

/-- What `lci_prepare_rtr` leaves: the packet waits for two events, and knows its registration. -/
theorem prepareRtr_keeps (d : Dev) (b : Buf) (n : Nat) (p : PktId) : Keeps p d (lciPrepareRtr d b n p) := by
  unfold lciPrepareRtr
  dsimp only
  refine ((rmaReg_keeps d p b n).trans ?_).trans (touch_setData _ p p _).toKeeps
  refine Touch.toKeeps (touch_ctx _ p ?_ ?_)
  · exact fun _ => rfl
  · exact fun _ => rfl

theorem prepareRtr_spec (d : Dev) (b : Buf) (n : Nat) (p : PktId) :
    (lciPrepareRtr d b n p).sends = d.sends ∧ (lciPrepareRtr d b n p).out = d.out ∧
      (lciPrepareRtr d b n p).mrs = d.mrs ++ [(lcServerRmaReg d b n).1] ∧
      (lciPrepareRtr d b n p).posted.filterMap Post.ctx = d.posted.filterMap Post.ctx ∧
      ((lciPrepareRtr d b n p).pk p).context =
        { (d.pk p).context with rmaMem := (lcServerRmaReg d b n).1, ref := 2 } ∧
      ((lciPrepareRtr d b n p).pk p).data.view.commId = BitVec.ofNat 32 (pktOffset d.pageSize p) ∧
      ∃ r, ((lciPrepareRtr d b n p).pk p).data = .rdz r := by
  obtain ⟨h1, h2, h3, h4, h5, h6⟩ := rmaReg_spec d b n
  unfold lciPrepareRtr
  dsimp only
  generalize (lcServerRmaReg d b n).2 = D at *
  generalize (lcServerRmaReg d b n).1 = k at *
  refine ⟨h1, h2, h5, h6, ?_, ?_, ?_⟩
  · simp [Dev.setCtx, Dev.setData, h3]
  · simp [Dev.setCtx, Dev.setData, PkData.view, h4]
  · exact ⟨_, by simp [Dev.setCtx, Dev.setData]; rfl⟩

/-- An RTS packet in the hand becomes the RTR, and an immediate is owed for it. -/
theorem Own.handleRts (h : Own s loc use) (hp : loc p = .hand) (hlt : p < LC_SERVER_NUM_PKTS) (ep : Nat)
    (hr : ReqOk s.dev use p) :
    Own ⟨lciHandleRts s.dev ep p, s.held, s.owed ++ [p]⟩ (Function.update loc p (.rdz true true)) use := by
  have hinit := touch_pkInit s.dev ep .rtr p
  have hctx : ((lciPkInit s.dev ep (-1) .rtr p).pk p).context =
      { (s.dev.pk p).context with ep := ep, poolid := -1, ref := 1, proto := .rtr } := by
    simp [lciPkInit, Dev.setCtx]
  unfold lciHandleRts lcServerSendm
  generalize lciPkInit s.dev ep (-1) .rtr p = D at hinit hctx
  obtain ⟨h1, h2, h3, h4, h5, -, -⟩ := prepareRtr_spec D (s.dev.reqOf p).buffer (s.dev.pk p).data.view.size p
  have hk := prepareRtr_keeps D (s.dev.reqOf p).buffer (s.dev.pk p).data.view.size p
  generalize lciPrepareRtr D (s.dev.reqOf p).buffer (s.dev.pk p).data.view.size p = E at *
  generalize (lcServerRmaReg D (s.dev.reqOf p).buffer (s.dev.pk p).data.view.size).1 = key at *
  generalize hm : Msg.send (s.dev.reqOf p).rhandle (makeProto (BitVec.ofNat 32 ep) .rtr 0) packetRtrSize (E.pk p).data =
    m
  have hkeep : Keeps p s.dev (postSend E p m) :=
    (hinit.toKeeps.trans hk).trans (Keeps.of_eq p rfl rfl rfl rfl rfl rfl)
  refine h.move hkeep (by simp [hp, Loc.Transport]) (by simp [Loc.Transport]) (fun _ => hlt) ?_ ?_ ?_ ?_ (by simp)
    fun hb => ?_
  · show Holds (E.posted.filterMap Post.ctx) _
    rw [h4, hinit.ctxs]
    exact h.posted.keepAt (by simp [hp]) (by simp)
  · show Holds (E.sends ++ [p]) _
    rw [h1, hinit.sends]
    exact h.sends.put (by simp [hp, Loc.Sending]) rfl List.perm_append_comm
  · exact h.owed.put (by simp [hp, Loc.Awaiting]) rfl List.perm_append_comm
  · intro a b hab
    cases hab
    refine ⟨.inl rfl, ?_, ?_, ?_⟩
    · show (E.pk p).context.proto = .rtr
      rw [h5, hctx]
    · show (E.pk p).context.ref = _
      rw [h5]
      rfl
    · have hreq : (E.pk p).context.req = (s.dev.pk p).context.req := by rw [h5, hctx]
      unfold ReqOk Dev.reqPtr
      show (E.pk p).context.req = _ ∨ ∃ r, (E.pk p).context.req = _ ∧ _
      rw [hreq]
      exact hr
  · -- one more registration, for the immediate that is now owed
    obtain ⟨org, hm1, hm2⟩ := h.mrs_of_touch (by simp [hp, Loc.Awaiting]) hinit.toKeeps hinit.mrs hinit.out hb
    have hmap : s.owed.map (fun q => (E.pk q).context.rmaMem) = s.owed.map fun q => (D.pk q).context.rmaMem := by
      refine List.map_congr_left fun q hq => ?_
      have haw : (loc q).Awaiting := h.owed.mem hq
      rw [hk.other q fun e => by rw [e, hp] at haw; exact haw]
    refine ⟨org, ?_, ?_⟩
    · show E.mrs.Perm ((s.owed ++ [p]).map (fun q => (E.pk q).context.rmaMem) ++ org)
      rw [h3, List.map_append, hmap, List.map_singleton, h5, List.append_assoc]
      refine (hm1.append_right [key]).trans ?_
      rw [List.append_assoc]
      exact List.Perm.append_left _ List.perm_append_comm
    · show _ = (E.out ++ [m]).countP _
      rw [h2, List.countP_append, hm2, ← hm]
      rfl

theorem handleRtr_eq (d : Dev) (ep : Nat) (p : PktId) : lciHandleRtr d ep p = sendOn (lciPkInit d ep (-1) .long p) p
    (.rma (d.reqOf p).rhandle (d.pk p).data.view.srcAddr (d.pk p).data.view.tgtAddr (d.pk p).data.view.rkey
      (d.pk p).data.view.size (d.pk p).data.view.commId) := rfl

/-- An RTR packet in the hand becomes the context of the write. -/
theorem Own.handleRtr (h : Own s loc use) (hp : loc p = .hand) (hlt : p < LC_SERVER_NUM_PKTS) (ep : Nat) :
    Own { s with dev := lciHandleRtr s.dev ep p } (Function.update loc p .send) use := by
  have hinit := h.touch hp (touch_pkInit s.dev ep .long p)
  rw [handleRtr_eq]
  refine hinit.sendOn hp hlt _ ?_
  simp [lciPkInit, Dev.setCtx]

/-! ## Tables -/

theorem entries_setTbl (d : Dev) (ep : Nat) (t : Table Ptr) (e : Nat) (b : Fin (2 ^ tblBitSize)) :
    entries (d.setTbl ep t) e b = if e = ep then live (t b).slots else entries d e b := by
  unfold entries
  by_cases h : e = ep
  · subst h; simp [Dev.setTbl, Dev.setEp]
  · simp [Dev.setTbl, Dev.setEp, h]

theorem setTbl_eps_cq (d : Dev) (ep : Nat) (t : Table Ptr) (e : Nat) : ((d.setTbl ep t).eps e).cq = (d.eps e).cq := by
  by_cases h : e = ep
  · subst h; simp [Dev.setTbl, Dev.setEp]
  · simp [Dev.setTbl, Dev.setEp, h]

/-- A table changes, and with it the place of a packet and the use of requests. -/
theorem Own.setTbl (h : Own s loc use) {ep : Nat} {t : Table Ptr} {j : Loc} {use' : ReqId → ReqLoc}
    (hi : loc p = .hand ∨ ∃ e b, loc p = .table e b) (hj : j = .hand ∨ ∃ e b, j = .table e b)
    (hlt : j ≠ .hand → p < LC_SERVER_NUM_PKTS)
    (hpkts : ∀ e b, Holds (pktsOf (entries (s.dev.setTbl ep t) e b)) fun q => Function.update loc p j q = .table e b)
    (hreqs : ∀ e b, Holds (reqsOf (entries (s.dev.setTbl ep t) e b)) fun r => use' r = .table e b)
    (hsided : ∀ e b, ∀ x ∈ entries (s.dev.setTbl ep t) e b, Sided x)
    (hdone : ∀ r, (∃ e, .user r ∈ (s.dev.eps e).cq) ∨ .user r ∈ s.held → use' r = .done)
    (hon : ∀ q a b, loc q = .rdz a b → ReqOk s.dev use' q)
    (hbuf : ∀ r e b, use' r = .table e b → (s.dev.req r).buffer ≠ .null) :
    Own { s with dev := s.dev.setTbl ep t } (Function.update loc p j) use' := by
  have hkeep : ∀ {l : List PktId} {f : Loc → Prop}, ¬ f .hand → (∀ e b, ¬ f (.table e b)) →
      Holds l (fun q => f (loc q)) → Holds l fun q => f (Function.update loc p j q) := by
    intro l f h1 h2 hl
    have hf : ∀ i : Loc, (i = .hand ∨ ∃ e b, i = .table e b) → ¬ f i := by
      rintro i (rfl | ⟨e, b, rfl⟩)
      · exact h1
      · exact h2 e b
    exact hl.keep (by simp [hf _ hi, hf _ hj])
  have hloc : ∀ {q : PktId} {i : Loc}, i ≠ .hand → (∀ e b, i ≠ .table e b) → Function.update loc p j q = i →
    loc q = i := by
    intro q i h1 h2 hq
    by_cases hqp : q = p
    · subst hqp
      rw [Function.update_self] at hq
      rcases hj with e | ⟨e, b, e'⟩
      · exact absurd (hq.symm.trans e) h1
      · exact absurd (hq.symm.trans e') (h2 e b)
    · rwa [Function.update_of_ne hqp] at hq
  refine ⟨fun q hq => ?_, hkeep (f := fun i => i = .pool) (by simp) (by simp) h.pool,
    hkeep (f := fun i => i = .posted) (by simp) (by simp) h.posted,
    hkeep (by simp [Loc.Sending]) (by simp [Loc.Sending]) h.sends,
    hkeep (by simp [Loc.Awaiting]) (by simp [Loc.Awaiting]) h.owed, hpkts, hreqs, hsided, fun e => ?_, ?_,
      fun r hr => ?_,
    h.parent, fun q a b hq => ?_, fun q hq => h.plain q (hloc (by simp) (by simp) hq), h.tls, h.poolid, hbuf, h.mrs⟩
  · exact h.range_update hlt hq
  · obtain ⟨l, h1, h2⟩ := h.queue e
    exact ⟨l, by rw [setTbl_eps_cq]; exact h1, hkeep (f := fun i => i = .queue e) (by simp) (by simp) h2⟩
  · obtain ⟨l, h1, h2⟩ := h.held
    exact ⟨l, h1, hkeep (f := fun i => i = .held) (by simp) (by simp) h2⟩
  · refine hdone r (hr.imp_left ?_)
    rintro ⟨e, he⟩
    rw [setTbl_eps_cq] at he
    exact ⟨e, he⟩
  · have hq' := hloc (by simp) (by simp) hq
    obtain ⟨h1, h2, h3, -⟩ := h.rdz q a b hq'
    exact ⟨h1, h2, h3, hon q a b hq'⟩

/-- A table changes in its requests only. -/
theorem Own.setReqs (h : Own s loc use) {ep : Nat} {t : Table Ptr} {use' : ReqId → ReqLoc}
    (hpkts : ∀ e b, pktsOf (entries (s.dev.setTbl ep t) e b) = pktsOf (entries s.dev e b))
    (hreqs : ∀ e b, Holds (reqsOf (entries (s.dev.setTbl ep t) e b)) fun r => use' r = .table e b)
    (hsided : ∀ e b, ∀ x ∈ entries (s.dev.setTbl ep t) e b, Sided x)
    (hdone : ∀ r, (∃ e, .user r ∈ (s.dev.eps e).cq) ∨ .user r ∈ s.held → use' r = .done)
    (hon : ∀ q a b, loc q = .rdz a b → ReqOk s.dev use' q)
    (hbuf : ∀ r e b, use' r = .table e b → (s.dev.req r).buffer ≠ .null) :
    Own { s with dev := s.dev.setTbl ep t } loc use' := by
  have hhand := h.range LC_SERVER_NUM_PKTS le_rfl
  have hself : Function.update loc LC_SERVER_NUM_PKTS .hand = loc := by rw [← hhand, Function.update_eq_self]
  rw [← hself]
  refine h.setTbl (.inl hhand) (.inl rfl) (by simp) (fun e b => ?_) hreqs hsided hdone hon hbuf
  rw [hself, hpkts]
  exact h.pkts e b

theorem pktsOf_append (l r : List (Slot Ptr)) : pktsOf (l ++ r) = pktsOf l ++ pktsOf r := List.filterMap_append

theorem reqsOf_append (l r : List (Slot Ptr)) : reqsOf (l ++ r) = reqsOf l ++ reqsOf r := List.filterMap_append

/-- A slot with a packet, and one with a request. -/
theorem pktsOf_cons_pkt {x : Slot Ptr} {q : PktId} (hx : x.val = .pkt q) (l : List (Slot Ptr)) :
    pktsOf (x :: l) = q :: pktsOf l ∧ reqsOf (x :: l) = reqsOf l := by
  simp [pktsOf, reqsOf, hx, Ptr.pkt?, Ptr.req?]

theorem pktsOf_cons_req {x : Slot Ptr} {r : ReqId} (hx : x.val = .req r) (l : List (Slot Ptr)) :
    pktsOf (x :: l) = pktsOf l ∧ reqsOf (x :: l) = r :: reqsOf l := by
  simp [pktsOf, reqsOf, hx, Ptr.pkt?, Ptr.req?]

/-- One bucket of the table of an endpoint is new. -/
structure NewBucket (d : Dev) (ep : Nat) (t : Table Ptr) (b : Fin (2 ^ tblBitSize)) (l : List (Slot Ptr)) : Prop where
  here : live (t b).slots = l
  other : ∀ c, c ≠ b → t c = (d.eps ep).tbl c

theorem NewBucket.entries {d : Dev} {ep : Nat} {t : Table Ptr} {b : Fin (2 ^ tblBitSize)} {l : List (Slot Ptr)}
    (h : NewBucket d ep t b l) (e : Nat) (c : Fin (2 ^ tblBitSize)) :
    entries (d.setTbl ep t) e c = if e = ep ∧ c = b then l else entries d e c := by
  rw [entries_setTbl]
  by_cases he : e = ep
  · subst he
    by_cases hc : c = b
    · subst hc
      simp [h.here]
    · simp [hc, h.other c hc, Server.entries]
  · simp [he]

/-- A packet in the hand is stored. -/
theorem Own.storePkt (h : Own s loc use) (hp : loc p = .hand) (hlt : p < LC_SERVER_NUM_PKTS) {ep : Nat} {t : Table Ptr}
    {b : Fin (2 ^ tblBitSize)} {x : Slot Ptr} (hx : x.val = .pkt p) (hs : Sided x)
    (hb : NewBucket s.dev ep t b (entries s.dev ep b ++ [x])) :
    Own { s with dev := s.dev.setTbl ep t } (Function.update loc p (.table ep b)) use := by
  refine h.setTbl (.inl hp) (.inr ⟨ep, b, rfl⟩) (fun _ => hlt) (fun e c => ?_) (fun e c => ?_)
    (fun e c y hy => ?_) h.done
    (fun q a c hq => (h.rdz q a c hq).2.2.2) h.buffer
  · rw [hb.entries]
    split_ifs with hec
    · obtain ⟨rfl, rfl⟩ := hec
      rw [pktsOf_append, (pktsOf_cons_pkt hx []).1]
      exact (h.pkts e c).putAt (by simp [hp]) List.perm_append_comm
    · refine (h.pkts e c).keepAt (by simp [hp]) ?_
      rintro heq
      cases heq
      exact hec ⟨rfl, rfl⟩
  · rw [hb.entries]
    split_ifs with hec
    · obtain ⟨rfl, rfl⟩ := hec
      rw [reqsOf_append, (pktsOf_cons_pkt hx []).2]
      simpa [reqsOf] using h.reqs e c
    · exact h.reqs e c
  · rw [hb.entries] at hy
    split_ifs at hy with hec
    · rcases List.mem_append.1 hy with hy | hy
      · exact h.sided _ _ y hy
      · rw [List.mem_singleton.1 hy]
        exact hs
    · exact h.sided _ _ y hy

/-- A stored packet comes to the hand. -/
theorem Own.takePkt (h : Own s loc use) {ep : Nat} {t : Table Ptr} {b : Fin (2 ^ tblBitSize)} {x : Slot Ptr}
    {l r : List (Slot Ptr)} (hx : x.val = .pkt p) (hl : entries s.dev ep b = l ++ x :: r)
    (hb : NewBucket s.dev ep t b (l ++ r)) :
    loc p = .table ep b ∧ Own { s with dev := s.dev.setTbl ep t } (Function.update loc p .hand) use := by
  have hperm : (pktsOf (entries s.dev ep b)).Perm (p :: pktsOf (l ++ r)) := by
    rw [hl, pktsOf_append, (pktsOf_cons_pkt hx r).1, pktsOf_append]
    exact List.perm_middle
  have hreq : reqsOf (entries s.dev ep b) = reqsOf (l ++ r) := by
    rw [hl, reqsOf_append, (pktsOf_cons_pkt hx r).2, reqsOf_append]
  have hp : loc p = .table ep b := (h.pkts ep b).mem (hperm.symm.subset List.mem_cons_self)
  refine ⟨hp, h.setTbl (.inr ⟨ep, b, hp⟩) (.inl rfl) (by simp) (fun e c => ?_) (fun e c => ?_)
    (fun e c y hy => ?_) h.done
    (fun q a c hq => (h.rdz q a c hq).2.2.2) h.buffer⟩
  · rw [hb.entries]
    split_ifs with hec
    · obtain ⟨rfl, rfl⟩ := hec
      exact (h.pkts e c).takeAt (by simp) hperm
    · refine (h.pkts e c).keepAt ?_ (by simp)
      rw [hp]
      rintro heq
      cases heq
      exact hec ⟨rfl, rfl⟩
  · rw [hb.entries]
    split_ifs with hec
    · obtain ⟨rfl, rfl⟩ := hec
      rw [← hreq]
      exact h.reqs e c
    · exact h.reqs e c
  · rw [hb.entries] at hy
    split_ifs at hy with hec
    · refine h.sided ep b y ?_
      rw [hl]
      rcases List.mem_append.1 hy with hy | hy
      · exact List.mem_append_left _ hy
      · exact List.mem_append_right _ (List.mem_cons_of_mem _ hy)
    · exact h.sided _ _ y hy

/-- A stored request is taken by a packet. -/
theorem Own.takeReq (h : Own s loc use) {ep : Nat} {t : Table Ptr} {b : Fin (2 ^ tblBitSize)} {x : Slot Ptr}
    {l r : List (Slot Ptr)} {u : ReqId} (hx : x.val = .req u) (hl : entries s.dev ep b = l ++ x :: r)
    (hb : NewBucket s.dev ep t b (l ++ r)) (p : PktId) :
    use u = .table ep b ∧ Own { s with dev := s.dev.setTbl ep t } loc (Function.update use u (.on p)) := by
  have hperm : (reqsOf (entries s.dev ep b)).Perm (u :: reqsOf (l ++ r)) := by
    rw [hl, reqsOf_append, (pktsOf_cons_req hx r).2, reqsOf_append]
    exact List.perm_middle
  have hpkt : pktsOf (entries s.dev ep b) = pktsOf (l ++ r) := by
    rw [hl, pktsOf_append, (pktsOf_cons_req hx r).1, pktsOf_append]
  -- the request was in the bucket it is taken from
  have hu : use u = .table ep b := (h.reqs ep b).mem (hperm.symm.subset List.mem_cons_self)
  refine ⟨hu, h.setReqs (fun e c => ?_) (fun e c => ?_) (fun e c y hy => ?_) (fun v hv => ?_) (fun q a c hq => ?_)
    fun v e c hv => ?_⟩
  · rw [hb.entries]
    split_ifs with hec
    · obtain ⟨rfl, rfl⟩ := hec
      exact hpkt.symm
    · rfl
  · rw [hb.entries]
    split_ifs with hec
    · obtain ⟨rfl, rfl⟩ := hec
      exact (h.reqs e c).takeAt (by simp) hperm
    · refine (h.reqs e c).keepAt ?_ (by simp)
      rw [hu]
      rintro heq
      cases heq
      exact hec ⟨rfl, rfl⟩
  · rw [hb.entries] at hy
    split_ifs at hy with hec
    · refine h.sided ep b y ?_
      rw [hl]
      rcases List.mem_append.1 hy with hy | hy
      · exact List.mem_append_left _ hy
      · exact List.mem_append_right _ (List.mem_cons_of_mem _ hy)
    · exact h.sided _ _ y hy
  · have hd := h.done v hv
    rw [Function.update_of_ne]
    · exact hd
    · rintro rfl
      rw [hu] at hd
      cases hd
  · refine (h.rdz q a c hq).2.2.2.imp id ?_
    rintro ⟨v, hv, hon⟩
    refine ⟨v, hv, ?_⟩
    rw [Function.update_of_ne]
    · exact hon
    · rintro rfl
      rw [hu] at hon
      cases hon
  · refine h.buffer v e c ?_
    by_cases hvu : v = u
    · subst hvu
      rw [Function.update_self] at hv
      cases hv
    · rwa [Function.update_of_ne hvu] at hv

/-- A request that is not in use: in no table, on no packet that waits, in no queue and not popped. -/
structure Idle (s : Sys) (r : ReqId) : Prop where
  table : ∀ e b, ∀ x ∈ entries s.dev e b, x.val ≠ .req r
  queue : ∀ e, .user r ∉ (s.dev.eps e).cq
  held : .user r ∉ s.held
  rdz : ∀ p, p ∈ s.owed ∨ (p ∈ s.dev.sends ∧ (s.dev.pk p).context.proto = .rtr) →
    s.dev.reqPtr p ≠ .user r

theorem Own.idle_table (h : Own s loc use) {u : ReqId} (hu : Idle s u) (e : Nat) (b : Fin (2 ^ tblBitSize)) :
    use u ≠ .table e b := by
  intro he
  obtain ⟨x, hx, hv⟩ := List.mem_filterMap.1 (((h.reqs e b).mem_iff u).2 he)
  refine hu.table e b x hx ?_
  cases hval : x.val with
  | req r => rw [hval] at hv; cases hv; rfl
  | _ => rw [hval] at hv; cases hv

theorem Own.idle_on (h : Own s loc use) {u : ReqId} (hu : Idle s u) (i : ReqLoc) {q : PktId} {a b : Bool}
    (hq : loc q = .rdz a b) : ReqOk s.dev (Function.update use u i) q := by
  obtain ⟨hab, hproto, -, hr⟩ := h.rdz q a b hq
  have hwaits : q ∈ s.owed ∨ (q ∈ s.dev.sends ∧ (s.dev.pk q).context.proto = .rtr) := by
    rcases hab with rfl | rfl
    · exact .inr ⟨(h.sends.mem_iff q).2 (by rw [hq]; rfl), hproto⟩
    · exact .inl ((h.owed.mem_iff q).2 (by rw [hq]; rfl))
  refine hr.imp id ?_
  rintro ⟨v, hv, hon⟩
  refine ⟨v, hv, ?_⟩
  rw [Function.update_of_ne]
  · exact hon
  · rintro rfl
    exact hu.rdz q hwaits hv

theorem Own.idle_done (h : Own s loc use) {u : ReqId} (hu : Idle s u) (i : ReqLoc) {r : ReqId}
    (hr : (∃ e, .user r ∈ (s.dev.eps e).cq) ∨ .user r ∈ s.held) : Function.update use u i r = .done := by
  rw [Function.update_of_ne]
  · exact h.done r hr
  · rintro rfl
    rcases hr with ⟨e, he⟩ | hr
    · exact hu.queue e he
    · exact hu.held hr

/-- A request that is not in use is stored. -/
theorem Own.storeReq (h : Own s loc use) {ep : Nat} {t : Table Ptr} {b : Fin (2 ^ tblBitSize)} {x : Slot Ptr}
    {u : ReqId} (hu : Idle s u) (hx : x.val = .req u) (hs : Sided x) (hbuf : (s.dev.req u).buffer ≠ .null)
    (hb : NewBucket s.dev ep t b (entries s.dev ep b ++ [x])) :
    Own { s with dev := s.dev.setTbl ep t } loc (Function.update use u (.table ep b)) := by
  refine h.setReqs (fun e c => ?_) (fun e c => ?_) (fun e c y hy => ?_) (fun r => h.idle_done hu _)
    (fun q a c hq => h.idle_on hu _ hq) fun r e c hr => ?_
  · rw [hb.entries]
    split_ifs with hec
    · obtain ⟨rfl, rfl⟩ := hec
      rw [pktsOf_append, (pktsOf_cons_req hx []).1]
      exact List.append_nil _
    · rfl
  · rw [hb.entries]
    split_ifs with hec
    · obtain ⟨rfl, rfl⟩ := hec
      rw [reqsOf_append, (pktsOf_cons_req hx []).2]
      exact (h.reqs e c).putAt (h.idle_table hu e c) List.perm_append_comm
    · refine (h.reqs e c).keepAt (h.idle_table hu e c) ?_
      rintro heq
      cases heq
      exact hec ⟨rfl, rfl⟩
  · rw [hb.entries] at hy
    split_ifs at hy with hec
    · rcases List.mem_append.1 hy with hy | hy
      · exact h.sided _ _ y hy
      · rw [List.mem_singleton.1 hy]
        exact hs
    · exact h.sided _ _ y hy
  · by_cases hru : r = u
    · subst hru
      exact hbuf
    · rw [Function.update_of_ne hru] at hr
      exact h.buffer r e c hr

/-- A request that is not in use is on a packet. -/
theorem Own.useOn (h : Own s loc use) {u : ReqId} (hu : Idle s u) (q : PktId) :
    Own s loc (Function.update use u (.on q)) :=
  { h with
    reqs := fun e b => (h.reqs e b).keepAt (h.idle_table hu e b) (by simp)
    done := fun _ => h.idle_done hu _
    rdz := fun _ a b hq => ⟨(h.rdz _ a b hq).1, (h.rdz _ a b hq).2.1, (h.rdz _ a b hq).2.2.1, h.idle_on hu _ hq⟩
    buffer := fun r e b hr => by
      refine h.buffer r e b ?_
      by_cases hru : r = u
      · subst hru
        rw [Function.update_self] at hr
        cases hr
      · rwa [Function.update_of_ne hru] at hr }

/-! ## Completion queues -/

theorem setCq_cq (d : Dev) (ep : Nat) (q : List ReqPtr) (e : Nat) :
    ((d.setCq ep q).eps e).cq = if e = ep then q else (d.eps e).cq := by
  by_cases h : e = ep
  · subst h; simp [Dev.setCq, Dev.setEp]
  · simp [Dev.setCq, Dev.setEp, h]

theorem entries_setCq (d : Dev) (ep : Nat) (q : List ReqPtr) (e : Nat) (b : Fin (2 ^ tblBitSize)) :
    entries (d.setCq ep q) e b = entries d e b := by
  unfold entries
  by_cases h : e = ep
  · subst h; simp [Dev.setCq, Dev.setEp]
  · simp [Dev.setCq, Dev.setEp, h]

/-- A packet moves between the hand, the queues and the application; queues, popped requests and parents of
requests change with it. -/
theorem Own.setCq (h : Own s loc use) {ep : Nat} {q : List ReqPtr} {req : ReqId → Req} {held : List ReqPtr} {j : Loc}
    {use' : ReqId → ReqLoc} (hi : loc p = .hand ∨ loc p = .held ∨ ∃ e, loc p = .queue e)
    (hj : j = .hand ∨ j = .held ∨ ∃ e, j = .queue e) (hlt : j ≠ .hand → p < LC_SERVER_NUM_PKTS)
    (hqueue : ∀ e, ∃ l, (({ s.dev with req := req } : Dev).setCq ep q |>.eps e).cq.map
      (parentOf { s.dev with req := req }) = l.map some ∧ Holds l fun r => Function.update loc p j r = .queue e)
    (hheld : ∃ l, held.map (parentOf { s.dev with req := req }) = l.map some ∧
      Holds l fun r => Function.update loc p j r = .held)
    (hdone : ∀ r, (∃ e, .user r ∈ (({ s.dev with req := req } : Dev).setCq ep q |>.eps e).cq) ∨ .user r ∈ held →
      use' r = .done)
    (huse : ∀ r e b, use' r = .table e b ↔ use r = .table e b)
    (hon : ∀ q a b, loc q = .rdz a b → ReqOk s.dev use' q) (hbuf : ∀ r, (req r).buffer = (s.dev.req r).buffer) :
    Own ⟨({ s.dev with req := req } : Dev).setCq ep q, held, s.owed⟩ (Function.update loc p j) use' := by
  -- a packet that goes between the hand, the queue and the application leaves the other places as they are
  have hkeep : ∀ {l : List PktId} {f : Loc → Prop}, ¬ f .hand → ¬ f .held → (∀ e, ¬ f (.queue e)) →
      Holds l (fun q => f (loc q)) → Holds l fun q => f (Function.update loc p j q) := by
    intro l f h1 h2 h3 hl
    have hf : ∀ i : Loc, (i = .hand ∨ i = .held ∨ ∃ e, i = .queue e) → ¬ f i := by
      rintro i (rfl | rfl | ⟨e, rfl⟩)
      · exact h1
      · exact h2
      · exact h3 e
    exact hl.keep (by simp [hf _ hi, hf _ hj])
  have hloc : ∀ {q : PktId} {i : Loc}, i ≠ .hand → i ≠ .held → (∀ e, i ≠ .queue e) →
      Function.update loc p j q = i → loc q = i := by
    intro q i h1 h2 h3 hq
    by_cases hqp : q = p
    · subst hqp
      rw [Function.update_self] at hq
      rcases hj with e | e | ⟨e, e'⟩
      · exact absurd (hq.symm.trans e) h1
      · exact absurd (hq.symm.trans e) h2
      · exact absurd (hq.symm.trans e') (h3 e)
    · rwa [Function.update_of_ne hqp] at hq
  refine ⟨fun q hq => ?_, hkeep (f := fun i => i = .pool) (by simp) (by simp) (by simp) h.pool,
    hkeep (f := fun i => i = .posted) (by simp) (by simp) (by simp) h.posted,
    hkeep (by simp [Loc.Sending]) (by simp [Loc.Sending]) (by simp [Loc.Sending]) h.sends,
    hkeep (by simp [Loc.Awaiting]) (by simp [Loc.Awaiting]) (by simp [Loc.Awaiting]) h.owed, fun e b => ?_,
      fun e b => ?_,
    fun e b => ?_, hqueue, hheld, hdone, h.parent, fun q a b hq => ?_,
    fun q hq => h.plain q (hloc (by simp) (by simp) (by simp) hq), h.tls, h.poolid, fun r e b hr => ?_, h.mrs⟩
  · exact h.range_update hlt hq
  · rw [entries_setCq]
    exact hkeep (f := fun i => i = .table e b) (by simp) (by simp) (by simp) (h.pkts e b)
  · rw [entries_setCq]
    exact (h.reqs e b).congr fun r => (huse r e b).symm
  · rw [entries_setCq]
    exact h.sided e b
  · have hq' := hloc (by simp) (by simp) (by simp) hq
    obtain ⟨h1, h2, h3, -⟩ := h.rdz q a b hq'
    exact ⟨h1, h2, h3, hon q a b hq'⟩
  · have := h.buffer r e b ((huse r e b).1 hr)
    rw [← hbuf r] at this
    exact this

/-- The queue of an endpoint has room. -/
theorem Own.cq_lt (h : Own s loc use) (ep : Nat) : (s.dev.eps ep).cq.length + 1 < CQ_MAX_SIZE := by
  obtain ⟨l, hl, hh⟩ := h.queue ep
  have hle := h.length_le hh (by simp)
  have hlen := congrArg List.length hl
  rw [List.length_map, List.length_map] at hlen
  unfold LC_SERVER_NUM_PKTS at hle
  unfold CQ_MAX_SIZE LC_SERVER_NUM_PKTS
  omega

/-- A packet in the hand goes to a queue with the request `x`, whose parent it now is. -/
theorem Own.enqueue (h : Own s loc use) (hp : loc p = .hand) (hlt : p < LC_SERVER_NUM_PKTS) (ep : Nat) {x : ReqPtr}
    {req : ReqId → Req} {use' : ReqId → ReqLoc} (hx : parentOf { s.dev with req := req } x = some p)
    (hpar : ∀ r, use r = .done → (req r).parent = (s.dev.req r).parent) (hdone : ∀ r, use r = .done → use' r = .done)
    (hxdone : ∀ r, x = .user r → use' r = .done) (huse : ∀ r e b, use' r = .table e b ↔ use r = .table e b)
    (hon : ∀ q a b, loc q = .rdz a b → ReqOk s.dev use' q) (hbuf : ∀ r, (req r).buffer = (s.dev.req r).buffer) :
    Own { s with dev := ({ s.dev with req := req } : Dev).setCq ep ((s.dev.eps ep).cq ++ [x]) }
      (Function.update loc p (.queue ep)) use' := by
  have hsame : ∀ {l : List ReqPtr}, (∀ r, .user r ∈ l → use r = .done) →
      l.map (parentOf { s.dev with req := req }) = l.map (parentOf s.dev) := by
    intro l hl
    refine List.map_congr_left fun y hy => ?_
    cases y with
    | own q => rfl
    | user r => exact hpar r (hl r hy)
  refine h.setCq (.inl hp) (.inr (.inr ⟨ep, rfl⟩)) (fun _ => hlt) (fun e => ?_) ?_ (fun r hr => ?_) huse hon hbuf
  · obtain ⟨l, hl, hh⟩ := h.queue e
    have hmap := hsame (l := (s.dev.eps e).cq) fun r hr => h.done r (.inl ⟨e, hr⟩)
    rw [setCq_cq]
    by_cases he : e = ep
    · subst he
      refine ⟨l ++ [p], ?_, hh.putAt (by simp [hp]) List.perm_append_comm⟩
      rw [if_pos rfl, List.map_append, List.map_append, hmap, hl]
      simp [hx]
    · refine ⟨l, ?_, hh.keepAt (by simp [hp]) (by simpa using Ne.symm he)⟩
      rw [if_neg he]
      exact hmap.trans hl
  · obtain ⟨l, hl, hh⟩ := h.held
    exact ⟨l, (hsame fun r hr => h.done r (.inr hr)).trans hl, hh.keepAt (by simp [hp]) (by simp)⟩
  · rcases hr with ⟨e, he⟩ | hr
    · rw [setCq_cq] at he
      split_ifs at he with hep
      · rcases List.mem_append.1 he with he | he
        · exact hdone r (h.done r (.inl ⟨ep, he⟩))
        · exact hxdone r (List.mem_singleton.1 he).symm
      · exact hdone r (h.done r (.inl ⟨e, he⟩))
    · exact hdone r (h.done r (.inr hr))

theorem Own.ceQueue (h : Own s loc use) (hp : loc p = .hand) (hlt : p < LC_SERVER_NUM_PKTS) (ep : Nat)
    (hr : ReqOk s.dev use p) : ∃ d use', lciCeQueue s.dev ep p = some d ∧
      Own { s with dev := d } (Function.update loc p (.queue ep)) use' := by
  have hpush : cqPush (s.dev.eps ep).cq (s.dev.reqPtr p) = some ((s.dev.eps ep).cq ++ [s.dev.reqPtr p]) :=
    if_pos (h.cq_lt ep)
  refine ⟨(s.dev.setParent (s.dev.reqPtr p) p).setCq ep ((s.dev.eps ep).cq ++ [s.dev.reqPtr p]), ?_⟩
  have hcall : lciCeQueue s.dev ep p =
      some ((s.dev.setParent (s.dev.reqPtr p) p).setCq ep ((s.dev.eps ep).cq ++ [s.dev.reqPtr p])) := by
    rw [lciCeQueue, hpush]
    rfl
  rcases hr with hown | ⟨u, hu, hon⟩
  · -- the parent of its own request is the packet already
    have hself : s.dev.setParent (.own p) p = { s.dev with req := s.dev.req } := by
      have hpk : Function.update s.dev.pk p { s.dev.pk p with
          context := { (s.dev.pk p).context with reqS := { (s.dev.pk p).context.reqS with parent := some p } } } =
          s.dev.pk := by
        rw [← h.parent p, Function.update_eq_self]
      simp only [Dev.setParent, Dev.setReq, Dev.setCtx]
      rw [hpk]
    refine ⟨use, hcall, ?_⟩
    rw [hown, hself]
    exact h.enqueue hp hlt ep (x := .own p) (h.parent p) (fun _ _ => rfl) (fun _ => id) (by simp) (fun _ _ _ => Iff.rfl)
      (fun q a b hq => (h.rdz q a b hq).2.2.2) fun _ => rfl
  · -- the request of the application is done with the packet as its parent
    refine ⟨Function.update use u .done, hcall, ?_⟩
    have hdone : ∀ r, use r = .done → r ≠ u := by
      rintro r hd rfl
      rw [hon] at hd
      cases hd
    rw [hu]
    refine h.enqueue hp hlt ep (x := .user u) ?_ (fun r hd => ?_) (fun r hd => ?_) ?_ (fun r e b => ?_)
      (fun q a b hq => ?_) fun r => ?_
    · simp [Server.parentOf, Dev.getReq]
    · rw [Function.update_of_ne (hdone r hd)]
    · rw [Function.update_of_ne (hdone r hd)]
      exact hd
    · rintro r hr
      cases hr
      exact Function.update_self _ _ _
    · by_cases hru : r = u
      · subst hru
        simp [hon]
      · rw [Function.update_of_ne hru]
    · refine (h.rdz q a b hq).2.2.2.imp id ?_
      rintro ⟨v, hv, hov⟩
      refine ⟨v, hv, ?_⟩
      rw [Function.update_of_ne]
      · exact hov
      · rintro rfl
        rw [hon] at hov
        cases hov
        rw [hp] at hq
        cases hq
    · by_cases hru : r = u
      · subst hru; simp
      · rw [Function.update_of_ne hru]

/-- `lc_cq_pop`: the packet of the oldest request is with the application. -/
theorem Own.pop (h : Own s loc use) {ep : Nat} {x : ReqPtr} {rest : List ReqPtr} (hq : (s.dev.eps ep).cq = x :: rest) :
    ∃ q, q < LC_SERVER_NUM_PKTS ∧
      Own ⟨s.dev.setCq ep rest, s.held ++ [x], s.owed⟩ (Function.update loc q .held) use := by
  obtain ⟨l, hl, hh⟩ := h.queue ep
  rw [hq, List.map_cons] at hl
  obtain ⟨q, l', rfl, hpar, hrest⟩ := List.map_eq_cons_iff.1 hl.symm
  have hloc : loc q = .queue ep := hh.mem List.mem_cons_self
  have hlt : q < LC_SERVER_NUM_PKTS := h.lt_of_ne (by rw [hloc]; simp)
  refine ⟨q, hlt, ?_⟩
  show Own ⟨({ s.dev with req := s.dev.req } : Dev).setCq ep rest, _, _⟩ _ _
  refine h.setCq (.inr (.inr ⟨ep, hloc⟩)) (.inr (.inl rfl)) (fun _ => hlt) (fun e => ?_) ?_
    (fun r hr => ?_) (fun _ _ _ => Iff.rfl) (fun q a b hq => (h.rdz q a b hq).2.2.2) fun _ => rfl
  · rw [setCq_cq]
    by_cases he : e = ep
    · subst he
      exact ⟨l', by rw [if_pos rfl]; exact hrest.symm, hh.takeAt (by simp) List.Perm.rfl⟩
    · obtain ⟨k, hk, hhk⟩ := h.queue e
      refine ⟨k, by rw [if_neg he]; exact hk, hhk.keepAt ?_ (by simp)⟩
      rw [hloc]
      simpa using Ne.symm he
  · obtain ⟨k, hk, hhk⟩ := h.held
    refine ⟨k ++ [q], ?_, hhk.putAt (by simp [hloc]) List.perm_append_comm⟩
    rw [List.map_append, List.map_append]
    refine congrArg₂ _ hk ?_
    simpa using hpar.symm
  · rcases hr with ⟨e, he⟩ | hr
    · rw [setCq_cq] at he
      refine h.done r (.inl ⟨e, ?_⟩)
      split_ifs at he with hep
      · rw [hep, hq]
        exact List.mem_cons_of_mem _ he
      · exact he
    · rcases List.mem_append.1 hr with hr | hr
      · exact h.done r (.inr hr)
      · refine h.done r (.inl ⟨ep, ?_⟩)
        rw [hq, List.mem_singleton.1 hr]
        exact List.mem_cons_self

/-- The packet of a popped request comes to the hand. -/
theorem Own.unhold (h : Own s loc use) {x : ReqPtr} (hx : x ∈ s.held) :
    ∃ q, parentOf s.dev x = some q ∧ loc q = .held ∧ q < LC_SERVER_NUM_PKTS ∧
      Own { s with held := s.held.erase x } (Function.update loc q .hand) use := by
  obtain ⟨l, hl, hh⟩ := h.held
  obtain ⟨u, v, -, huv, herase⟩ := List.exists_erase_eq hx
  rw [huv, List.map_append, List.map_cons] at hl
  obtain ⟨u', q, v', rfl, hu, hpar, hv⟩ := map_eq_append_cons hl.symm
  have hloc : loc q = .held := hh.mem (by simp)
  have hlt : q < LC_SERVER_NUM_PKTS := h.lt_of_ne (by rw [hloc]; simp)
  refine ⟨q, hpar.symm, hloc, hlt, ?_⟩
  have hcq : ({ s.dev with req := s.dev.req } : Dev).setCq 0 (s.dev.eps 0).cq = s.dev := by
    simp [Dev.setCq, Dev.setEp]
  rw [herase]
  have hown : Own ⟨({ s.dev with req := s.dev.req } : Dev).setCq 0 (s.dev.eps 0).cq, u ++ v, s.owed⟩
      (Function.update loc q .hand) use := by
    refine h.setCq (.inr (.inl hloc)) (.inl rfl) (by simp) (fun e => ?_) ?_ (fun r hr => ?_) (fun _ _ _ => Iff.rfl)
      (fun q a b hq => (h.rdz q a b hq).2.2.2) fun _ => rfl
    · obtain ⟨k, hk, hhk⟩ := h.queue e
      refine ⟨k, ?_, hhk.keepAt (by simp [hloc]) (by simp)⟩
      rw [hcq]
      exact hk
    · refine ⟨u' ++ v', ?_, hh.takeAt (by simp) List.perm_middle⟩
      rw [List.map_append, List.map_append, hu, hv]
    · refine h.done r (hr.imp (Exists.imp fun e he => by rw [hcq] at he; exact he) fun hm => ?_)
      rw [huv]
      rcases List.mem_append.1 hm with hm | hm
      · exact List.mem_append_left _ hm
      · exact List.mem_append_right _ (List.mem_cons_of_mem _ hm)
  rw [hcq] at hown
  exact hown

end Moves

end Lci.Server
