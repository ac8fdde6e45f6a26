/-
The packets of a device over whole runs: the calls of the application, the completions that the transport
returns and the refills of the progress call, in any order. Every packet is in one place in every state
(`packets_conserved`), as long as no step meets one of the slips of the code: a medium message larger
than the data area of a packet, a receive with tag -1, a signalled put on verbs whose meta has bit 15,
and a key of PSM2 that is zero or names two things.
-/
import Lci.Server.Calls
import Lci.Server.Layout
import Lci.Server.Outcome

namespace Lci.Server

open Lci.Hash Lci.Proto Ledger

/-! ## Steps -/

/-- What can happen at a device. `completed` is a pass of the receive loop on verbs, `matched` a message of PSM2 with
the receive it takes, `sent` a returned context, and `refill` the end of a progress call. -/
inductive Op
  | sendm (env : Env) (src size : Nat) (rank tag : CInt) (ep : Nat)
  | putm (env : Env) (src size : Nat) (rank : CInt) (addr ep : Nat)
  | putms (env : Env) (src size : Nat) (rank : CInt) (addr : Nat) (metaVal : CInt) (ep : Nat)
  | sendl (env : Env) (src size : Nat) (rank tag : CInt) (ep cb ce xfer : Nat)
  | putl (env : Env) (src size : Nat) (rank : CInt) (addr ep cb ce xfer : Nat)
  | putls (env : Env) (src size : Nat) (rank : CInt) (addr : Nat) (metaVal : CInt) (ep cb ce xfer : Nat)
  | recvm (env : Env) (src size : Nat) (rank tag : CInt) (ep : Nat) (r : ReqId)
  | recvl (src size : Nat) (rank tag : CInt) (ep : Nat) (r : ReqId)
  | recv (env : Env) (src size : Nat) (rank tag : CInt) (ep : Nat) (r : ReqId)
  | cqPop (ep : Nat)
  | cqReqfree (env : Env) (r : ReqPtr)
  | completed (env : Env) (wc : Wc)
  | matched (env : Env) (x : Post) (m : MqMsg)
  | sent (env : Env) (p : PktId)
  | refill (env : Env)

/-- The packets that RTRs among the messages since `d` ask an immediate for. -/
def rtrsSince (d d' : Dev) : List PktId := (d'.out.drop d.out.length).filterMap (rtrOf d.pageSize)

/-- The state after a call that made `d` of the device. -/
def Sys.next (s : Sys) (d : Dev) : Sys := { s with dev := d, owed := s.owed ++ rtrsSince s.dev d }

/-- An immediate has come. -/
def Sys.answer (s : Sys) (q : Option PktId) : Sys := { s with owed := q.elim s.owed s.owed.erase }

/-- The packet whose rendezvous a completion on verbs ends. -/
def ibvAnswers (d : Dev) (wc : Wc) : Option PktId :=
  if wc.opcode = .recvRdmaWithImm ∧ wc.immData &&& IBV_IMM_RTR ≠ 0 then
    pktAt d.pageSize (wc.immData ^^^ IBV_IMM_RTR).toNat
  else none

/-- The packet whose rendezvous a message of PSM2 ends. -/
def psm2Answers (d : Dev) (m : MqMsg) : Option PktId :=
  if IsKey m.tag.tag2 ∧ m.tag.tag1 = PSM_RDMA_IMM then pktAt d.pageSize m.tag.tag0.toNat else none

/-- The end of a progress call. -/
def progressRefill (env : Env) (d : Dev) : Dev :=
  match d.backend with
  | .ibv => ibvRefill env d
  | .psm2 => psm2Refill env d

def step (s : Sys) : Op → Option Sys
  | .sendm env src size rank tag ep => (lcSendm env s.dev src size rank tag ep).map fun x => s.next x.2
  | .putm env src size rank addr ep => (lcPutm env s.dev src size rank addr ep).map fun x => s.next x.2
  | .putms env src size rank addr m ep => (lcPutms env s.dev src size rank addr m ep).map fun x => s.next x.2
  | .sendl env src size rank tag ep cb ce xfer => some (s.next (lcSendl env s.dev src size rank tag ep cb ce xfer).2)
  | .putl env src size rank addr ep cb ce xfer => some (s.next (lcPutl env s.dev src size rank addr ep cb ce xfer).2)
  | .putls env src size rank addr m ep cb ce xfer =>
    some (s.next (lcPutls env s.dev src size rank addr m ep cb ce xfer).2)
  | .recvm env src size rank tag ep r => (lcRecvm env s.dev src size rank tag ep r).map s.next
  | .recvl src size rank tag ep r => (lcRecvl s.dev src size rank tag ep r).map s.next
  | .recv env src size rank tag ep r => (lcRecv env s.dev src size rank tag ep r).map s.next
  | .cqPop ep => some { s with dev := (lcCqPop s.dev ep).2, held := s.held ++ (lcCqPop s.dev ep).1.toList }
  | .cqReqfree env r => (lcCqReqfree env s.dev r).map fun d => { s with dev := d, held := s.held.erase r }
  | .completed env wc => (ibvServeRecv env (ibvTakeRecv s.dev wc) wc).map (s.answer (ibvAnswers s.dev wc)).next
  | .matched env x m => (psm2Serve env s.dev (some (.recv x m))).map (s.answer (psm2Answers s.dev m)).next
  | .sent env p => (lciServeSend env { s.dev with sends := s.dev.sends.erase p } p).map s.next
  | .refill env => some (s.next (progressRefill env s.dev))

def run (s : Sys) : List Op → Option Sys
  | [] => some s
  | op :: ops => (step s op).bind fun s => run s ops

/-! ## Progress calls -/

theorem run_append (s : Sys) (ops ops' : List Op) : run s (ops ++ ops') = (run s ops).bind fun s => run s ops' := by
  induction ops generalizing s with
  | nil => rfl
  | cons op ops ih =>
    rw [List.cons_append, run, run, Option.bind_assoc]
    exact Option.bind_congr fun s' _ => ih s'

theorem run_concat {s s₁ s₂ : Sys} {ops : List Op} {op : Op} (h : run s ops = some s₁) (hs : step s₁ op = some s₂) :
    run s (ops ++ [op]) = some s₂ := by
  rw [run_append, h, Option.bind_some, run, hs]
  rfl

theorem ibvServeRecv_backend {env : Env} {d d' : Dev} {wc : Wc} (h : ibvServeRecv env d wc = some d') :
    d'.backend = d.backend := by
  unfold ibvServeRecv at h
  dsimp only at h
  split_ifs at h
  · exact (frame_serveRecv h).backend
  · obtain ⟨q, -, h⟩ := Option.bind_eq_some_iff.1 h
    obtain ⟨d₁, h₁, h⟩ := Option.bind_eq_some_iff.1 h
    exact (frame_poolPut h).backend.trans (frame_serveImm h₁).backend
  · exact (frame_serveRecvRdma h).backend

/-- The receive loop of verbs is a run of its passes. -/
theorem ibvServeRecvs_run {env : Env} {wcs : List Wc} : ∀ {s : Sys} {d : Dev}, ibvServeRecvs env s.dev wcs = some d →
    ∃ s', run s (wcs.map (.completed env)) = some s' ∧ s'.dev = d ∧ d.backend = s.dev.backend := by
  induction wcs with
  | nil =>
    rintro s d h
    cases h
    exact ⟨s, rfl, rfl, rfl⟩
  | cons wc wcs ih =>
    rintro s d h
    rw [ibvServeRecvs] at h
    obtain ⟨d₁, h₁, h₂⟩ := Option.bind_eq_some_iff.1 h
    have hdev : ((s.answer (ibvAnswers s.dev wc)).next d₁).dev = d₁ := rfl
    rw [← hdev] at h₂
    obtain ⟨s', hr, hd, hb⟩ := ih h₂
    have hb₁ : d₁.backend = (ibvTakeRecv s.dev wc).backend := ibvServeRecv_backend h₁
    rw [hdev, hb₁] at hb
    refine ⟨s', ?_, hd, hb⟩
    rw [List.map_cons, run, step, h₁]
    exact hr

/-- So is the send loop, of the contexts it gets. -/
theorem ibvServeSends_run {env : Env} {ctxs : List (Option PktId)} : ∀ {s : Sys} {d : Dev},
    ibvServeSends env s.dev ctxs = some d →
    ∃ s', run s ((ctxs.filterMap id).map (.sent env)) = some s' ∧ s'.dev = d ∧ d.backend = s.dev.backend := by
  induction ctxs with
  | nil =>
    rintro s d h
    cases h
    exact ⟨s, rfl, rfl, rfl⟩
  | cons c ctxs ih =>
    rintro s d h
    cases c with
    | none => exact ih h
    | some p =>
      rw [ibvServeSends] at h
      obtain ⟨d₁, h₁, h₂⟩ := Option.bind_eq_some_iff.1 h
      have hdev : (s.next d₁).dev = d₁ := rfl
      rw [← hdev] at h₂
      obtain ⟨s', hr, hd, hb⟩ := ih h₂
      refine ⟨s', ?_, hd, hb.trans (frame_serveSend h₁).backend⟩
      rw [List.filterMap_cons]
      show run s (.sent env p :: _) = _
      rw [run, step, h₁]
      exact hr

/-- A progress call on verbs is a run: its receive completions, its send completions, and a refill. -/
theorem ibvProgress_run {env : Env} {s : Sys} {d : Dev} (hb : s.dev.backend = .ibv) {wcs : List Wc}
    {ctxs : List (Option PktId)} (h : ibvProgress env s.dev wcs ctxs = some d) :
    ∃ s', run s (wcs.map (.completed env) ++ (ctxs.filterMap id).map (.sent env) ++ [.refill env]) = some s' ∧
      s'.dev = d := by
  obtain ⟨d₁, h₁, h⟩ := Option.bind_eq_some_iff.1 h
  obtain ⟨d₂, h₂, h⟩ := Option.bind_eq_some_iff.1 h
  cases h
  obtain ⟨s₁, hr₁, rfl, hb₁⟩ := ibvServeRecvs_run h₁
  obtain ⟨s₂, hr₂, rfl, hb₂⟩ := ibvServeSends_run h₂
  have hrun : run s (wcs.map (.completed env) ++ (ctxs.filterMap id).map (.sent env)) = some s₂ := by
    rw [run_append, hr₁]
    exact hr₂
  refine ⟨_, run_concat hrun rfl, ?_⟩
  show progressRefill env s₂.dev = _
  rw [progressRefill, hb₂.trans (hb₁.trans hb)]

/-- The steps of a progress call on PSM2. -/
def psm2Ops (env : Env) : Option MqDone → List Op
  | some (.recv x m) => [.matched env x m, .refill env]
  | some (.send (some p)) => [.sent env p, .refill env]
  | _ => [.refill env]

theorem psm2Serve_backend {env : Env} {d d' : Dev} {ctx : Option PktId} {m : MqMsg}
    (h : psm2ServeRecv env d ctx m = some d') : d'.backend = d.backend := by
  unfold psm2ServeRecv at h
  dsimp only at h
  split_ifs at h
  · obtain ⟨p, -, h⟩ := Option.bind_eq_some_iff.1 h
    obtain ⟨d₁, h₁, h⟩ := Option.bind_eq_some_iff.1 h
    cases h
    exact (frame_serveRecv h₁).backend
  · obtain ⟨p, -, h⟩ := Option.bind_eq_some_iff.1 h
    cases h
    rfl
  · obtain ⟨p, -, h⟩ := Option.bind_eq_some_iff.1 h
    obtain ⟨d₁, h₁, h⟩ := Option.bind_eq_some_iff.1 h
    cases h
    exact (frame_serveRecvRdma h₁).backend
  · obtain ⟨p, -, h⟩ := Option.bind_eq_some_iff.1 h
    cases h
    rfl
  · obtain ⟨p, -, h⟩ := Option.bind_eq_some_iff.1 h
    exact (frame_serveImm h).backend
  · obtain ⟨p, -, h⟩ := Option.bind_eq_some_iff.1 h
    exact (frame_serveRecvRdma h).backend
  · obtain ⟨p, -, h⟩ := Option.bind_eq_some_iff.1 h
    exact (frame_poolPut h).backend

/-- A progress call on PSM2 is a run too. -/
theorem psm2Progress_run {env : Env} {s : Sys} {d : Dev} (hb : s.dev.backend = .psm2) {c : Option MqDone}
    (h : psm2Progress env s.dev c = some d) : ∃ s', run s (psm2Ops env c) = some s' ∧ s'.dev = d := by
  obtain ⟨d₁, h₁, rfl⟩ := Option.map_eq_some_iff.1 h
  have hrefill : ∀ {s : Sys}, s.dev.backend = .psm2 → progressRefill env s.dev = psm2Refill env s.dev := by
    rintro s hb
    rw [progressRefill, hb]
  match c, h₁ with
  | none, h₁ => cases h₁; exact ⟨_, rfl, hrefill hb⟩
  | some (.send none), h₁ => cases h₁; exact ⟨_, rfl, hrefill hb⟩
  | some (.send (some p)), h₁ =>
    have hsent : run s [.sent env p] = some (s.next d₁) := by
      rw [run, step, show lciServeSend env _ p = some d₁ from h₁]
      rfl
    refine ⟨_, run_concat hsent rfl, ?_⟩
    exact hrefill (s := s.next d₁) ((frame_serveSend h₁).backend.trans hb)
  | some (.recv x m), h₁ =>
    have hmatched : run s [.matched env x m] = some ((s.answer (psm2Answers s.dev m)).next d₁) := by
      rw [run, step, h₁]
      rfl
    refine ⟨_, run_concat hmatched rfl, ?_⟩
    refine hrefill (s := (s.answer (psm2Answers s.dev m)).next d₁) ((psm2Serve_backend h₁).trans ?_)
    exact (touch_deposit _ 0 x m.data).frame.backend.trans hb

/-! ## What may happen -/

/-- The word of the immediate that ends the rendezvous of a packet, on verbs. -/
def rtrWord (d : Dev) (q : PktId) : BitVec 32 := BitVec.ofNat 32 (pktOffset d.pageSize q) ||| IBV_IMM_RTR

/-- What the application and the transport do. The application gives a request that is not in use to a receive and
frees what it has popped; the transport returns a context it has, in a completion of a message that a
peer sends; an immediate ends a rendezvous whose RTR was sent. -/
def Allowed (s : Sys) : Op → Prop
  | .sendm env _ size _ _ _ | .putm env _ size _ _ _ | .putms env _ size _ _ _ _ =>
    size ≤ lcMaxMedium ∧ FewPools s.dev env
  | .recvm _ _ _ _ _ _ r | .recvl _ _ _ _ _ r | .recv _ _ _ _ _ _ r => Idle s r
  | .cqReqfree _ r => r ∈ s.held
  | .completed _ wc => s.dev.backend = .ibv ∧ wc.wrId ∈ s.dev.posted.filterMap Post.ctx ∧
    match wc.opcode with
    | .recv => Arrives s.dev wc.immData wc.rank
    | .recvRdmaWithImm => (∃ q ∈ s.owed, wc.immData = rtrWord s.dev q) ∨
      ∃ gid metaVal : CInt, gid.toNat < 2 ^ 14 ∧ metaVal.toNat < 2 ^ 16 ∧ wc.immData = makeProto gid .long metaVal
  | .matched _ x m => s.dev.backend = .psm2 ∧ Completes s.dev (some (.recv x m)) ∧
    (m.tag.tag2 = PSM_RECV_DATA → Arrives s.dev m.tag.tag0 m.tag.tag1) ∧
    (IsKey m.tag.tag2 → m.tag.tag1 = PSM_RDMA_IMM →
      ∃ q ∈ s.owed, m.tag.tag0 = BitVec.ofNat 32 (pktOffset s.dev.pageSize q))
  | .sent _ p => p ∈ s.dev.sends
  | .refill env => FewPools s.dev env
  | _ => True

/-- The step meets no slip of the code. -/
def Sound (s : Sys) : Op → Prop
  | .sendm _ _ size _ _ _ | .putm _ _ size _ _ _ | .putms _ _ size _ _ _ _ => size ≤ POST_MSG_SIZE
  | .recvm _ _ _ _ tag _ _ | .recvl _ _ _ tag _ _ | .recv _ _ _ _ tag _ _ => tag ≠ -1
  | .completed _ wc => wc.opcode = .recvRdmaWithImm → (∃ q ∈ s.owed, wc.immData = rtrWord s.dev q) ∨
    wc.immData &&& IBV_IMM_RTR = 0
  | .matched _ x m => KeyZeroFree s.dev (some (.recv x m)) ∧
    (IsKey m.tag.tag2 → (m.tag.tag1 = PSM_RDMA_IMM ↔ x.ctx = none))
  | _ => True

/-- A property of every step of a run, in the state it finds. -/
def Along (P : Sys → Op → Prop) : Sys → List Op → Prop
  | _, [] => True
  | s, op :: ops => P s op ∧ ∀ s', step s op = some s' → Along P s' ops

/-- A run of allowed steps that meet no slip. -/
def SoundRun : Sys → List Op → Prop := Along fun s op => Allowed s op ∧ Sound s op

/-! ## Conservation -/

/-- The places of a packet between two steps. -/
inductive Place
  | pool
  | posted
  | sending
  | stored (ep : Nat) (b : Fin (2 ^ tblBitSize))
  | rendezvous
  | queued (ep : Nat)
  | held
deriving DecidableEq

/-- The lists of the device, as places. -/
def At (s : Sys) (p : PktId) : Place → Prop
  | .pool => p ∈ s.dev.pool.lpools.flatten
  | .posted => p ∈ s.dev.posted.filterMap Post.ctx
  | .sending => p ∈ s.dev.sends ∧ (s.dev.pk p).context.proto ≠ .rtr
  | .stored ep b => p ∈ pktsOf (entries s.dev ep b)
  | .rendezvous => p ∈ s.owed ∨ (p ∈ s.dev.sends ∧ (s.dev.pk p).context.proto = .rtr)
  | .queued ep => some p ∈ (s.dev.eps ep).cq.map (parentOf s.dev)
  | .held => some p ∈ s.held.map (parentOf s.dev)

/-- Every packet is in one place, and no list has it twice. -/
structure Conserved (s : Sys) : Prop where
  place : ∀ p < LC_SERVER_NUM_PKTS, ∃! i, At s p i
  pool : s.dev.pool.lpools.flatten.Nodup
  posted : (s.dev.posted.filterMap Post.ctx).Nodup
  sends : s.dev.sends.Nodup
  owed : s.owed.Nodup
  tables : ∀ e b, (pktsOf (entries s.dev e b)).Nodup
  queues : ∀ e, ((s.dev.eps e).cq.map (parentOf s.dev)).Nodup
  held : (s.held.map (parentOf s.dev)).Nodup

def placeOf : Loc → Option Place
  | .hand => none
  | .pool => some .pool
  | .posted => some .posted
  | .send => some .sending
  | .table ep b => some (.stored ep b)
  | .rdz _ _ => some .rendezvous
  | .queue ep => some (.queued ep)
  | .held => some .held

section Own

variable {s : Sys} {loc : PktId → Loc} {use : ReqId → ReqLoc}

/-- A context of the transport is that of an RTR exactly in a rendezvous. -/
theorem Own.sends_iff (h : Own s loc use) (p : PktId) :
    (p ∈ s.dev.sends ∧ (s.dev.pk p).context.proto ≠ .rtr ↔ loc p = .send) ∧
    (p ∈ s.dev.sends ∧ (s.dev.pk p).context.proto = .rtr ↔ ∃ b, loc p = .rdz true b) := by
  rw [h.sends.mem_iff p]
  cases hl : loc p with
  | send => simp [Loc.Sending, h.plain p hl]
  | rdz a b =>
    have := (h.rdz p a b hl).2.1
    simp [Loc.Sending, this]
  | _ => simp [Loc.Sending]

theorem mem_map_some {r : List ReqPtr} {f : ReqPtr → Option PktId} {l : List PktId} (h : r.map f = l.map some)
    (p : PktId) :
    some p ∈ r.map f ↔ p ∈ l := by
  rw [h]
  simp

theorem Own.at_iff (h : Own s loc use) (p : PktId) (i : Place) : At s p i ↔ placeOf (loc p) = some i := by
  cases i with
  | pool =>
    rw [show At s p .pool ↔ _ from h.pool.mem_iff p]
    cases loc p <;> simp [placeOf]
  | posted =>
    rw [show At s p .posted ↔ _ from h.posted.mem_iff p]
    cases loc p <;> simp [placeOf]
  | sending =>
    rw [show At s p .sending ↔ _ from (h.sends_iff p).1]
    cases loc p <;> simp [placeOf]
  | stored e b =>
    rw [show At s p (.stored e b) ↔ _ from (h.pkts e b).mem_iff p]
    cases loc p <;> simp [placeOf]
  | rendezvous =>
    rw [show At s p .rendezvous ↔ _ from or_congr (h.owed.mem_iff p) (h.sends_iff p).2]
    cases hl : loc p with
    | rdz a b =>
      have := (h.rdz p a b hl).1
      simpa [placeOf, Loc.Awaiting, or_comm] using this
    | _ => simp [placeOf, Loc.Awaiting]
  | queued e =>
    obtain ⟨l, hl, hh⟩ := h.queue e
    rw [show At s p (.queued e) ↔ _ from mem_map_some hl p, hh.mem_iff p]
    cases loc p <;> simp [placeOf]
  | held =>
    obtain ⟨l, hl, hh⟩ := h.held
    rw [show At s p .held ↔ _ from mem_map_some hl p, hh.mem_iff p]
    cases loc p <;> simp [placeOf]

theorem nodup_map_some {r : List ReqPtr} {f : ReqPtr → Option PktId} {l : List PktId} (h : r.map f = l.map some)
    (hl : l.Nodup) : (r.map f).Nodup := by
  rw [h]
  exact hl.map (Option.some_injective _)

theorem Own.conserved (h : Own s loc use) (hh : ∀ p < LC_SERVER_NUM_PKTS, loc p ≠ .hand) : Conserved s := by
  refine ⟨fun p hp => ?_, h.pool.nodup, h.posted.nodup, h.sends.nodup, h.owed.nodup, fun e b => (h.pkts e b).nodup,
    fun e => ?_, ?_⟩
  · have hne := hh p hp
    obtain ⟨i, hi⟩ : ∃ i, placeOf (loc p) = some i := by
      cases hl : loc p with
      | hand => exact absurd hl hne
      | _ => exact ⟨_, rfl⟩
    refine ⟨i, (h.at_iff p i).2 hi, fun j hj => ?_⟩
    have := (h.at_iff p j).1 hj
    rw [hi] at this
    exact (Option.some_injective _ this).symm
  · obtain ⟨l, hl, hh⟩ := h.queue e
    exact nodup_map_some hl hh.nodup
  · obtain ⟨l, hl, hh⟩ := h.held
    exact nodup_map_some hl hh.nodup

end Own

/-! ## The invariant -/

/-- No packet is in the hand, and the constants of the device are in order. -/
structure Good (s : Sys) : Prop where
  own : ∃ loc use, Own s loc use ∧ ∀ p < LC_SERVER_NUM_PKTS, loc p ≠ .hand
  page : s.dev.pageSize < 2 ^ 30
  kinds : ∀ e, s.dev.build.hasAr (s.dev.eps e).ar = true
  eager : EagerCtx s.dev

theorem Good.stays {s : Sys} (h : Good s) {s' : Sys} (hs : Stays s.dev s'.dev)
    (ho : ∃ loc use, Own s' loc use ∧ ∀ p < LC_SERVER_NUM_PKTS, loc p ≠ .hand) : Good s' := by
  refine ⟨ho, by rw [hs.pageSize]; exact h.page, fun e => ?_, hs.eager h.eager⟩
  rw [hs.build, hs.kinds]
  exact h.kinds e

theorem Asks.rtrsSince {d d' : Dev} {ps : List PktId} (h : Asks d d' ps) : rtrsSince d d' = ps := by
  obtain ⟨-, ms, ho, hm⟩ := h
  rw [Server.rtrsSince, ho, List.drop_left, hm]

/-- A step is defined, and keeps the invariant and the backend. -/
def Steps (s : Sys) (r : Option Sys) : Prop := ∃ s', r = some s' ∧ Good s' ∧ s'.dev.backend = s.dev.backend

/-- A call that settles is such a step. -/
theorem Good.next {s : Sys} (h : Good s) {owed : List PktId} {r : Option Dev}
    (hs : ∀ loc use, Own s loc use → (∀ p < LC_SERVER_NUM_PKTS, loc p ≠ .hand) →
    Settles { s with owed := owed } loc r) :
    Steps s (r.map ({ s with owed := owed } : Sys).next) := by
  obtain ⟨loc, use, ho, hh⟩ := h.own
  obtain ⟨d, ps, loc', use', rfl, ha, ho', hh'⟩ := hs loc use ho hh
  refine ⟨_, rfl, h.stays ha.1 ⟨loc', use', ?_, fun p hp he => hh p hp (hh' p he)⟩, ha.1.backend⟩
  rw [Sys.next, ha.rtrsSince]
  exact ho'

theorem Good.cqPop {s : Sys} (h : Good s) (ep : Nat) :
    Good { s with dev := (lcCqPop s.dev ep).2, held := s.held ++ (lcCqPop s.dev ep).1.toList } := by
  obtain ⟨loc, use, ho, hh⟩ := h.own
  have hs : Stays s.dev (lcCqPop s.dev ep).2 :=
    (frame_setEp s.dev ep (fun x => { x with cq := (Server.cqPop (s.dev.eps ep).cq).2 }) rfl rfl).stays
  refine h.stays hs ?_
  unfold lcCqPop Server.cqPop
  cases hq : (s.dev.eps ep).cq with
  | nil =>
    have hself : s.dev.setCq ep [] = s.dev := by
      rw [← hq]
      simp [Dev.setCq, Dev.setEp]
    refine ⟨loc, use, ?_, hh⟩
    simp only [List.tail_nil, List.head?_nil, Option.toList_none, List.append_nil, hself]
    exact ho
  | cons x rest =>
    obtain ⟨q, -, hown⟩ := ho.pop hq
    refine ⟨_, use, hown, fun p hp => ?_⟩
    by_cases hpq : p = q
    · subst hpq
      simp
    · rw [Function.update_of_ne hpq]
      exact hh p hp

theorem Good.cqReqfree {s : Sys} (h : Good s) {r : ReqPtr} (hr : r ∈ s.held) (env : Env) :
    Steps s ((lcCqReqfree env s.dev r).map fun d => { s with dev := d, held := s.held.erase r }) := by
  obtain ⟨loc, use, ho, hh⟩ := h.own
  obtain ⟨q, hpar, -, hlt, hown⟩ := ho.unhold hr
  obtain ⟨pool, hput, hp⟩ := hown.poolPut (Function.update_self _ _ _) hlt env
  have hcall : lcCqReqfree env s.dev r = some (s.dev.setPool pool) := by
    unfold lcCqReqfree
    rw [show (s.dev.getReq r).parent = some q from hpar]
    exact hput
  refine ⟨_, by rw [hcall, Option.map_some], h.stays (frame_setPool s.dev pool).stays ⟨_, use, hp, fun p hp => ?_⟩, rfl⟩
  by_cases hpq : p = q
  · subst hpq
    simp
  · rw [Function.update_of_ne hpq, Function.update_of_ne hpq]
    exact hh p hp

theorem rtrWord_spec {d : Dev} (hps : d.pageSize < 2 ^ 30) {q : PktId} (hq : q < LC_SERVER_NUM_PKTS) :
    rtrWord d q &&& IBV_IMM_RTR ≠ 0 ∧ pktAt d.pageSize (rtrWord d q ^^^ IBV_IMM_RTR).toNat = some q := by
  have hlt := pktOffset_lt hps hq
  have hc : (BitVec.ofNat 32 (pktOffset d.pageSize q)).toNat = pktOffset d.pageSize q := by
    rw [BitVec.toNat_ofNat, Nat.mod_eq_of_lt (by omega)]
  unfold rtrWord
  refine ⟨?_, ?_⟩
  · rw [and_rtr_ne_zero_iff, or_rtr_toNat (by omega)]
    omega
  · rw [or_rtr_xor_rtr (by omega), hc, pktAt_pktOffset hq]

theorem Own.owed_lt {s : Sys} {loc : PktId → Loc} {use : ReqId → ReqLoc} (h : Own s loc use) {q : PktId}
    (hq : q ∈ s.owed) :
    q < LC_SERVER_NUM_PKTS := by
  have haw : (loc q).Awaiting := h.owed.mem hq
  exact h.lt_of_ne fun e => by rw [e] at haw; exact haw

/-- A pass of the receive loop on verbs. -/
theorem Good.completed {s : Sys} (h : Good s) {env : Env} {wc : Wc} (ha : Allowed s (.completed env wc))
    (hs : Sound s (.completed env wc)) : Steps s (step s (.completed env wc)) := by
  obtain ⟨-, hw, hkind⟩ := ha
  have hplain : ibvAnswers s.dev wc = none → (∀ loc use, Own s loc use →
      Settles s loc (ibvServeRecv env (ibvTakeRecv s.dev wc) wc)) → Steps s (step s (.completed env wc)) := by
    intro hans hserve
    show Steps s ((ibvServeRecv env (ibvTakeRecv s.dev wc) wc).map (s.answer (ibvAnswers s.dev wc)).next)
    rw [hans]
    exact h.next fun loc use ho _ => hserve loc use ho
  cases hop : wc.opcode with
  | recv =>
    rw [hop] at hkind
    exact hplain (if_neg (by simp [hop])) fun loc use ho => ho.ibvServeRecv_recv hw h.page hop hkind env
  | recvRdmaWithImm =>
    rcases hs hop with ⟨q, hq, hi⟩ | hi
    · obtain ⟨loc, use, ho, -⟩ := h.own
      obtain ⟨hrtr, hat⟩ := rtrWord_spec h.page (ho.owed_lt hq)
      have hans : ibvAnswers s.dev wc = some q := by
        unfold ibvAnswers
        rw [if_pos ⟨hop, by rw [hi]; exact hrtr⟩, hi, hat]
      show Steps s ((ibvServeRecv env (ibvTakeRecv s.dev wc) wc).map (s.answer (ibvAnswers s.dev wc)).next)
      rw [hans]
      exact h.next fun loc use ho _ => ho.ibvServeRecv_imm hw h.page hop hq hi env
    · exact hplain (if_neg (by simp [hi])) fun loc use ho => ho.ibvServeRecv_signal hw hop hi env

/-- A message of PSM2 and the receive it takes. -/
theorem Good.matched {s : Sys} (h : Good s) {env : Env} {x : Post} {m : MqMsg} (ha : Allowed s (.matched env x m))
    (hs : Sound s (.matched env x m)) : Steps s (step s (.matched env x m)) := by
  obtain ⟨-, ⟨hx, hmask, hm⟩, hdata, himm⟩ := ha
  obtain ⟨⟨hzero, -⟩, hkinds⟩ := hs
  have hasks := stays_erase s.dev x m.data
  show Steps s ((psm2ServeRecv env (deposit { s.dev with posted := s.dev.posted.erase x } x m.data) x.ctx m).map
    (s.answer (psm2Answers s.dev m)).next)
  -- a message whose receive has a packet hands that packet on
  have hplain : psm2Answers s.dev m = none → (∀ p loc use, x.ctx = some p → p < LC_SERVER_NUM_PKTS → loc p = .hand →
      Own { s with dev := deposit { s.dev with posted := s.dev.posted.erase x } x m.data } loc use →
      Hands { s with dev := deposit { s.dev with posted := s.dev.posted.erase x } x m.data } loc p
        (psm2ServeRecv env (deposit { s.dev with posted := s.dev.posted.erase x } x m.data) (some p) m)) →
      x.ctx ≠ none → Steps s
        ((psm2ServeRecv env (deposit { s.dev with posted := s.dev.posted.erase x } x m.data) x.ctx m).map
        (s.answer (psm2Answers s.dev m)).next) := by
    intro hans hserve hctx
    obtain ⟨p, hp⟩ := Option.ne_none_iff_exists'.1 hctx
    rw [hans]
    refine h.next fun loc use ho _ => ?_
    obtain ⟨hloc, hown⟩ := ho.psm2Take hx hp m.data
    rw [hp]
    exact (hserve p _ use hp (ho.lt_of_ne (by simp [hloc])) (Function.update_self _ _ _) hown).settles_from hasks
  by_cases hk : IsKey m.tag.tag2
  · by_cases hi : m.tag.tag1 = PSM_RDMA_IMM
    · obtain ⟨q, hq, hword⟩ := himm hk hi
      obtain ⟨loc, use, ho, -⟩ := h.own
      have hat : pktAt s.dev.pageSize m.tag.tag0.toNat = some q := by
        have hlt := pktOffset_lt h.page (ho.owed_lt hq)
        rw [hword, BitVec.toNat_ofNat, Nat.mod_eq_of_lt (by omega), pktAt_pktOffset (ho.owed_lt hq)]
      have hans : psm2Answers s.dev m = some q := by
        unfold psm2Answers
        rw [if_pos ⟨hk, hi⟩, hat]
      rw [hans]
      refine h.next fun loc use ho hh => ?_
      rw [psm2ServeRecv_imm _ x.ctx hk hi (by rw [hasks.1.pageSize]; exact hat) env]
      refine Settles.trans (s := { s with owed := s.owed.erase q }) hasks (Hands.settles
        ((ho.psm2TakeBare hx ((hkinds hk).1 hi) m.data).serveImm hq env) fun _ _ hl => hl)
    · refine hplain (if_neg fun hc => hi hc.2) (fun p loc use hp hlt hl ho => ?_) fun hc => hi ((hkinds hk).2 hc)
      exact ho.psm2ServeRecv_put hl hlt hk hi env
  · have hxd : x.tag2 = PSM_RECV_DATA := by
      refine hzero x hx (hmask.trans ?_)
      rcases hm.cases with ht | ht | ht | ⟨ht, -⟩ | hkey
      · rw [ht]; decide
      · rw [ht]; decide
      · rw [ht]; decide
      · rw [ht]; decide
      · exact absurd hkey hk
    refine hplain (if_neg fun hc => hk hc.1) (fun p loc use hp hlt hl ho => ?_) (h.eager x hx hxd)
    refine ho.psm2ServeRecv_eager hl hlt (by rw [show _ = s.dev.pageSize from hasks.1.pageSize]; exact h.page) hm hk
      (fun ht => ?_) env
    refine ⟨(hdata ht).kind, (hdata ht).rank, ?_⟩
    rw [show _ = s.dev.build from hasks.1.build, show _ = (s.dev.eps _).ar from hasks.1.kinds _]
    exact (hdata ht).ar

/-- Every step is defined and keeps the invariant. -/
theorem Good.step {s : Sys} (h : Good s) {o : Op} (ha : Allowed s o) (hs : Sound s o) : Steps s (Server.step s o) := by
  have hmap : ∀ {r : Option (LcStatus × Dev)}, (∀ loc use, Own s loc use → Settles s loc (r.map Prod.snd)) →
      Steps s (r.map fun x => s.next x.2) := by
    intro r hr
    have hnext : Steps s ((r.map Prod.snd).map s.next) := h.next fun loc use ho _ => hr loc use ho
    rwa [Option.map_map] at hnext
  cases o with
  | sendm env src size rank tag ep => exact hmap fun loc use ho => ho.lcSendm env src hs rank tag ep ha.2
  | putm env src size rank addr ep => exact hmap fun loc use ho => ho.lcPutm env src hs rank addr ep ha.2
  | putms env src size rank addr m ep => exact hmap fun loc use ho => ho.lcPutms env src hs rank addr m ep ha.2
  | sendl env src size rank tag ep cb ce xfer =>
    exact h.next fun loc use ho _ => ho.lcSendl env src size rank tag ep cb ce xfer
  | putl env src size rank addr ep cb ce xfer =>
    exact h.next fun loc use ho _ => ho.lcPutl env src size rank addr ep cb ce xfer
  | putls env src size rank addr m ep cb ce xfer =>
    exact h.next fun loc use ho _ => ho.lcPutls env src size rank addr m ep cb ce xfer
  | recvm env src size rank tag ep r => exact h.next fun loc use ho _ => ho.lcRecvm ha hs env src size rank ep
  | recvl src size rank tag ep r => exact h.next fun loc use ho _ => ho.lcRecvl ha hs h.page src size rank ep
  | recv env src size rank tag ep r => exact h.next fun loc use ho _ => ho.lcRecv ha hs h.page env src size rank ep
  | cqPop ep => exact ⟨_, rfl, h.cqPop ep, rfl⟩
  | cqReqfree env r => exact h.cqReqfree ha env
  | completed env wc => exact h.completed ha hs
  | matched env x m => exact h.matched ha hs
  | sent env p =>
    refine h.next fun loc use ho _ => (ho.serveSend ha env).settles fun q hq hl => hl
  | refill env =>
    refine h.next (r := some (progressRefill env s.dev)) fun loc use ho _ => ?_
    unfold progressRefill
    split
    · exact ho.ibvRefill env ha
    · exact ho.psm2Refill env

theorem Good.of_step {s s' : Sys} (h : Good s) {o : Op} (he : Server.step s o = some s') (ha : Allowed s o)
    (hs : Sound s o) : Good s' := by
  obtain ⟨s₁, h₁, hg, -⟩ := h.step ha hs
  rwa [Option.some_injective _ (he.symm.trans h₁)]

/-! ## Runs -/

/-- A device as it is before its initialisation: endpoints of compiled-in kinds, their tables and queues empty. -/
structure Fresh (d : Dev) : Prop where
  page : d.pageSize < 2 ^ 30
  eps : ∀ e, ∃ ar ce glob, d.eps e = lciEpOpen ar ce glob ∧ d.build.hasAr ar = true

theorem entries_fresh {d : Dev} {e : Nat} {ar : Ar} {ce : Ce} {glob : Bool} (h : d.eps e = lciEpOpen ar ce glob)
    (b : Fin (2 ^ tblBitSize)) : entries d e b = [] := by
  unfold entries
  rw [h]
  exact live_create .null b

theorem serverInit_spec (d : Dev) : (lcServerInit d).eps = d.eps ∧ (lcServerInit d).build = d.build ∧
    (lcServerInit d).pageSize = d.pageSize ∧ (lcServerInit d).posted = [] ∧ (lcServerInit d).sends = [] ∧
    (lcServerInit d).out = [] ∧ (lcServerInit d).mrs = [] := by
  unfold lcServerInit
  dsimp only
  split <;> exact ⟨rfl, rfl, rfl, rfl, rfl, rfl, rfl⟩

/-- After the initialisation every packet is in the pool. -/
theorem Fresh.good {d₀ d : Dev} (h : Fresh d₀) {wid : Nat} (hd : lciDevInit wid d₀ = some d) : Good ⟨d, [], []⟩ := by
  obtain ⟨heps, hbuild, hpage, hposted, hsends, hout, hmrs⟩ : d.eps = d₀.eps ∧ d.build = d₀.build ∧
      d.pageSize = d₀.pageSize ∧ d.posted = [] ∧ d.sends = [] ∧ d.out = [] ∧ d.mrs = [] := by
    rw [lciDevInit_eq] at hd
    cases hd
    exact serverInit_spec d₀
  obtain ⟨hpool, hctx⟩ : d.pool = ⟨Function.update (fun _ => none) wid (some 0), [List.range LC_SERVER_NUM_PKTS]⟩ ∧
      ∀ p, (d.pk p).context.poolid = 0 ∧ (d.pk p).context.reqS.parent = some p := by
    rw [lciDevInit_eq] at hd
    cases hd
    exact ⟨rfl, fun p => ⟨rfl, rfl⟩⟩
  clear hd
  have hnil : ∀ e b, entries d e b = [] := by
    intro e b
    obtain ⟨ar, ce, glob, he, -⟩ := h.eps e
    exact entries_fresh (by rw [heps]; exact he) b
  have hcq : ∀ e, (d.eps e).cq = [] := by
    intro e
    obtain ⟨ar, ce, glob, he, -⟩ := h.eps e
    rw [heps, he]
    rfl
  -- all packets are in the pool, all other lists are empty
  refine ⟨⟨fun p => if p < LC_SERVER_NUM_PKTS then .pool else .hand, fun _ => .free, ?_, fun p hp => by simp [hp]⟩,
    by rw [hpage]; exact h.page, fun e => ?_, ?_⟩
  · have hloc : ∀ (p : PktId) (i : Loc), i ≠ .pool → i ≠ .hand →
        (if p < LC_SERVER_NUM_PKTS then Loc.pool else Loc.hand) ≠ i := by
      intro p i h1 h2
      split_ifs
      · exact h1.symm
      · exact h2.symm
    refine ⟨fun p hp => if_neg (Nat.not_lt.2 hp), ?_, ?_, ?_, ?_, fun e b => ?_, fun e b => ?_, fun e b x hx => ?_,
      fun e => ?_, ⟨[], rfl, Holds.nil fun p => hloc p _ (by simp) (by simp)⟩, fun r hr => ?_, fun p => (hctx p).2,
      fun p a b hp => absurd hp (hloc p _ (by simp) (by simp)), fun p hp => absurd hp (hloc p _ (by simp) (by simp)),
        ?_,
      fun p => .inr ?_, ?_, fun _ => ⟨[], ?_, ?_⟩⟩
    · show Holds d.pool.lpools.flatten _
      rw [hpool]
      refine ⟨by simpa using List.nodup_range, fun p => ?_⟩
      simp only [List.flatten_cons, List.flatten_nil, List.append_nil, List.mem_range]
      split_ifs with hp <;> simp [hp]
    · show Holds (d.posted.filterMap Post.ctx) _
      rw [hposted]
      exact Holds.nil fun p => hloc p _ (by simp) (by simp)
    · show Holds d.sends _
      rw [hsends]
      refine Holds.nil fun p => ?_
      split_ifs <;> simp [Loc.Sending]
    · refine Holds.nil fun p => ?_
      split_ifs <;> simp [Loc.Awaiting]
    · show Holds (pktsOf (entries d e b)) _
      rw [hnil]
      exact Holds.nil fun p => hloc p _ (by simp) (by simp)
    · show Holds (reqsOf (entries d e b)) _
      rw [hnil]
      exact Holds.nil fun r => by simp
    · rw [show entries _ e b = [] from hnil e b] at hx
      cases hx
    · exact ⟨[], by rw [show (_ : Ep).cq = [] from hcq e]; rfl, Holds.nil fun p => hloc p _ (by simp) (by simp)⟩
    · rcases hr with ⟨e, he⟩ | hr
      · rw [show (_ : Ep).cq = [] from hcq e] at he
        cases he
      · cases hr
    · show TlsOk d.pool
      rw [hpool]
      intro w i hw
      by_cases hww : w = wid
      · subst hww
        simp only [Function.update_self] at hw
        cases hw
        simp
      · simp only [Function.update_of_ne hww] at hw
        cases hw
    · show 0 ≤ (d.pk p).context.poolid ∧ (d.pk p).context.poolid.toNat < d.pool.lpools.length
      rw [(hctx p).1, hpool]
      simp
    · rintro r e b ⟨⟩
    · show d.mrs.Perm _
      rw [hmrs]
      exact List.Perm.refl _
    · show 0 = d.out.countP _
      rw [hout]
      rfl
  · obtain ⟨ar, ce, glob, he, har⟩ := h.eps e
    show d.build.hasAr (d.eps e).ar = true
    rw [heps, hbuild, he]
    exact har
  · intro x hx
    rw [show _ = d.posted from rfl, hposted] at hx
    cases hx

theorem Good.run {s : Sys} (h : Good s) {ops : List Op} (hops : SoundRun s ops) : ∃ s', run s ops = some s' ∧
    Good s' := by
  induction ops generalizing s with
  | nil => exact ⟨s, rfl, h⟩
  | cons op ops ih =>
    obtain ⟨⟨ha, hs⟩, hrest⟩ := hops
    obtain ⟨s₁, h₁, hg, -⟩ := h.step ha hs
    obtain ⟨s₂, h₂, hg₂⟩ := ih hg (hrest s₁ h₁)
    refine ⟨s₂, ?_, hg₂⟩
    rw [Server.run, h₁]
    exact h₂

/-- Packet conservation: from the initialisation on, along every run of calls, completions and refills that
meets no slip of the code, no step is undefined and every packet is in exactly one place. -/
theorem packets_conserved {d₀ d : Dev} {wid : Nat} (hf : Fresh d₀) (hd : lciDevInit wid d₀ = some d) {ops : List Op}
    (hops : SoundRun ⟨d, [], []⟩ ops) : ∃ s, run ⟨d, [], []⟩ ops = some s ∧ Conserved s := by
  obtain ⟨s, hs, hg⟩ := (hf.good hd).run hops
  obtain ⟨loc, use, ho, hh⟩ := hg.own
  exact ⟨s, hs, ho.conserved hh⟩

theorem Along.cons {P : Sys → Op → Prop} {s s' : Sys} {op : Op} {ops : List Op} (h : P s op) (hs : step s op = some s')
    (hops : Along P s' ops) : Along P s (op :: ops) := by
  refine ⟨h, fun s'' hs'' => ?_⟩
  rw [hs] at hs''
  cases hs''
  exact hops

/-! ## A packet in the pool twice -/

/-- A device of null endpoints with explicit receives: nothing is on its way, endpoint 0 has table `t`, and the pool is
one deque `l`. -/
structure Calm (s : Sys) (t : Table Ptr) (l : List PktId) : Prop where
  kind : ∀ e, (s.dev.eps e).ce = .null ∧ (s.dev.eps e).glob = false ∧ (s.dev.eps e).cq = []
  tbl : (s.dev.eps 0).tbl = t
  others : ∀ e, e ≠ 0 → (s.dev.eps e).tbl = lcHashCreate .null
  sends : s.dev.sends = []
  owed : s.owed = []
  held : s.held = []
  pool : s.dev.pool.lpools = [l]
  poolid : ∀ p, (s.dev.pk p).context.poolid = 0

theorem Calm.idle {s : Sys} {t : Table Ptr} {l : List PktId} (h : Calm s t l) {r : ReqId}
    (ht : ∀ b, ∀ x ∈ live (t b).slots, x.val ≠ .req r) : Idle s r := by
  refine ⟨fun e b x hx => ?_, fun e => ?_, ?_, fun p hp => ?_⟩
  · unfold entries at hx
    by_cases he : e = 0
    · subst he
      rw [h.tbl] at hx
      exact ht b x hx
    · rw [h.others e he, live_create] at hx
      cases hx
  · rw [(h.kind e).2.2]
    simp
  · rw [h.held]
    simp
  · rw [h.owed, h.sends] at hp
    simp at hp

theorem rtrsSince_same {d d' : Dev} (h : d'.out = d.out) : rtrsSince d d' = [] := by
  rw [rtrsSince, h, List.drop_length]
  rfl

theorem dispatch_null (env : Env) {d : Dev} {ep : Nat} {p : PktId} {l : List PktId} (hce : (d.eps ep).ce = .null)
    (hg : (d.eps ep).glob = false) (hid : (d.pk p).context.poolid = 0) (hl : d.pool.lpools = [l])
    (hlen : l.length + 1 < MAX_SIZE) : lciCeDispatch env d ep p =
      some ((d.event (.completed ep (d.reqPtr p) (d.pk p).data)).setPool { d.pool with lpools := [l ++ [p]] }) := by
  simp [lciCeDispatch, ceServe, Dev.event, hce, hg, lciPkFreeData, hid, hl, lcPoolPutTo, dqPushTop, hlen, Dev.setPool]

/-- A receive that finds a packet returns it to the pool. -/
theorem Calm.recvm {s : Sys} {t : Table Ptr} {l : List PktId} (h : Calm s t l) (env : Env) (src size : Nat)
    (rank tag : CInt) (r : ReqId) {p : PktId} (hlen : l.length + 1 < MAX_SIZE)
    (hi : (lcHashInsert .null t (lcMakeKey rank tag) (.req r) .client).ret = 0 ∧
      (lcHashInsert .null t (lcMakeKey rank tag) (.req r) .client).value = .pkt p) :
    ∃ s', step s (.recvm env src size rank tag 0 r) = some s' ∧
      Calm s' (lcHashInsert .null t (lcMakeKey rank tag) (.req r) .client).table (l ++ [p]) := by
  obtain ⟨hret, hval⟩ := hi
  rw [← h.tbl] at hret hval
  have hmatch := recvMatch_found (d := lciInitReq s.dev (.mem src) size (.user r))
    (fun d p => recvData env d src 0 r p) (r := r) hret hval
  have htable : (recvInsert (lciInitReq s.dev (.mem src) size (.user r)) rank tag 0 r).table =
      (lcHashInsert .null t (lcMakeKey rank tag) (.req r) .client).table := by rw [← h.tbl]; rfl
  rw [htable] at hmatch
  generalize (lcHashInsert .null t (lcMakeKey rank tag) (.req r) .client).table = t' at *
  generalize hD : (lciInitReq s.dev (.mem src) size (.user r)).setTbl 0 t' = D at hmatch
  obtain ⟨E, hE⟩ := store_some D (b := .mem src) (by simp) ((D.pk p).data.bytes.take (D.reqOf p).size)
  have hEeps : E.eps = (s.dev.setTbl 0 t').eps := by cases hE; subst hD; rfl
  have hrest : E.pool = s.dev.pool ∧ E.pk = s.dev.pk ∧ E.sends = s.dev.sends ∧ E.out = s.dev.out := by
    cases hE; subst hD; exact ⟨rfl, rfl, rfl, rfl⟩
  obtain ⟨hpool, hpk, hsends, hout⟩ := hrest
  -- the packet as it is completed
  let F := (E.setSize (.user r) (E.reqOf p).size).setReqPtr p (.user r)
  have hFid : ∀ q, (F.pk q).context.poolid = 0 := by
    intro q
    rw [← h.poolid q, ← hpk]
    by_cases hq : q = p
    · subst hq; simp [F, Dev.setReqPtr, Dev.setSize, Dev.setReq, Dev.setCtx]
    · simp [F, Dev.setReqPtr, Dev.setSize, Dev.setReq, Dev.setCtx, hq]
  have hkind : ∀ e, (F.eps e).ce = .null ∧ (F.eps e).glob = false ∧ (F.eps e).cq = [] := by
    intro e
    rw [show F.eps = (s.dev.setTbl 0 t').eps from hEeps]
    by_cases he : e = 0
    · subst he; simpa [Dev.setTbl, Dev.setEp] using h.kind 0
    · simpa [Dev.setTbl, Dev.setEp, he] using h.kind e
  have hl : F.pool.lpools = [l] := by
    rw [show F.pool = s.dev.pool from hpool]
    exact h.pool
  have hcall : Server.lcRecvm env s.dev src size rank tag 0 r =
    some ((F.event (.completed 0 (F.reqPtr p) (F.pk p).data)).setPool
      { F.pool with lpools := [l ++ [p]] }) := by
    rw [Server.lcRecvm, hmatch, recvData, hE]
    exact dispatch_null env (hkind 0).1 (hkind 0).2.1 (hFid p) hl hlen
  have hstep : step s (.recvm env src size rank tag 0 r) = some (s.next ((F.event (.completed 0 (F.reqPtr p)
      (F.pk p).data)).setPool { F.pool with lpools := [l ++ [p]] })) := by
    rw [step, hcall]
    rfl
  refine ⟨_, hstep, hkind, ?_, fun e he => ?_, ?_, ?_, h.held, rfl, hFid⟩
  · show (F.eps 0).tbl = t'
    rw [show F.eps = (s.dev.setTbl 0 t').eps from hEeps, setTbl_tbl]
  · show (F.eps e).tbl = _
    rw [show F.eps = (s.dev.setTbl 0 t').eps from hEeps]
    simpa [Dev.setTbl, Dev.setEp, he] using h.others e he
  · show F.sends = []
    rw [show F.sends = s.dev.sends from hsends]
    exact h.sends
  · show s.owed ++ rtrsSince s.dev _ = []
    have hr : ∀ v pool, rtrsSince s.dev ((F.event v).setPool pool) = [] := fun _ _ => rtrsSince_same hout
    rw [hr, h.owed]
    rfl

/-- A message that finds no receive is stored. -/
theorem stored_at (env : Env) {d : Dev} {p : PktId} {x : Posting} {m : Incoming} (h : Ready d p x)
    (ht : (d.eps x.ep).tbl = lcHashCreate .null) :
    arrive env d p x m = some ((looking d p x m).setTbl x.ep
      (lcHashInsert .null (lcHashCreate .null) (lcMakeKey x.rank x.tag) (.pkt p) .server).table) := by
  have hinsert : explInsert (looking d p x m) x.ep p =
      lcHashInsert .null (lcHashCreate .null) (lcMakeKey x.rank x.tag) (.pkt p) .server := by
    rw [explInsert_looking, ht]
    rfl
  have hret : (explInsert (looking d p x m) x.ep p).ret = 1 := by
    rw [hinsert]
    exact (insert_first (represents_create Ptr.null) (c := pktEntry x p) h.validKey (by simp)).1
  rw [arrive_eq env h rfl rfl m, explMatch_stored _ hret, hinsert]

theorem looking_wire (d : Dev) (p : PktId) (x : Posting) (m : Incoming) :
    (looking d p x m).eps = d.eps ∧ (looking d p x m).pool = d.pool ∧ (looking d p x m).sends = d.sends ∧
      (looking d p x m).out = d.out ∧ ∀ q, ((looking d p x m).pk q).context.poolid = (d.pk q).context.poolid := by
  obtain ⟨heps, -, hpool, -⟩ := looking_rest d p x m
  refine ⟨heps, hpool, ?_, ?_, fun q => ?_⟩
  · simp [looking, arrived, Dev.setReqPtr, Dev.setProto, Dev.setMeta, Dev.setReq, Dev.setCtx, Dev.setData]
  · simp [looking, arrived, Dev.setReqPtr, Dev.setProto, Dev.setMeta, Dev.setReq, Dev.setCtx, Dev.setData]
  · by_cases hq : q = p
    · subst hq
      exact (looking_spec d q x m).2.2.2.2.1
    · simp [looking, arrived, Dev.setReqPtr, Dev.setProto, Dev.setMeta, Dev.setReq, Dev.setCtx, Dev.setData, hq]

theorem Calm.stores {s : Sys} {l : List PktId} (h : Calm s (lcHashCreate .null) l) (hg : Good s)
    (har : s.dev.build.hasAr .exp = true ∧ (s.dev.eps 0).ar = .exp) (env : Env) (p : PktId) {x : Posting}
    (hx : x.ep = 0) (hrank : x.rank.toNat < 2 ^ 31 - 1) (htag : x.tag.toNat < 2 ^ 16) (m : Incoming) :
    ∃ s', step s (.completed env ⟨p, .recv, x.rank, m.wireLen, makeProto (BitVec.ofNat 32 x.ep) m.proto x.tag,
      m.data⟩) = some s' ∧
      Calm s' (lcHashInsert .null (lcHashCreate .null) (lcMakeKey x.rank x.tag) (.pkt p) .server).table l := by
  obtain ⟨loc, use, ho, -⟩ := hg.own
  generalize hwc : (⟨p, .recv, x.rank, m.wireLen, makeProto (BitVec.ofNat 32 x.ep) m.proto x.tag, m.data⟩ : Wc) = wc
  generalize hD : ({ ibvTakeRecv s.dev wc with recvPosted := s.dev.recvPosted - 1 } : Dev) = D
  -- the table is empty, so the arrival finds no receive and is stored
  have hready : Ready D p x := by
    subst hD
    refine ⟨hx ▸ har, hx ▸ Nat.two_pow_pos 14, hrank, htag, ⟨[], ?_, by simp⟩, ho.tls, fun dq => ho.deque_lt,
      ho.poolid p, ho.cq_lt⟩
    show Represents (s.dev.eps x.ep).tbl []
    rw [hx, h.tbl]
    exact represents_create Ptr.null
  have hserve : ibvServeRecv env (ibvTakeRecv s.dev wc) wc = some ((looking D p x m).setTbl x.ep
      (lcHashInsert .null (lcHashCreate .null) (lcMakeKey x.rank x.tag) (.pkt p) .server).table) := by
    rw [← stored_at env hready (by subst hD; rw [hx]; exact h.tbl)]
    subst hD hwc
    exact arrive_ibv env _ p x m
  have hans : ibvAnswers s.dev wc = none := by
    subst hwc
    exact if_neg (by simp)
  generalize (lcHashInsert Ptr.null (lcHashCreate Ptr.null) (lcMakeKey x.rank x.tag) (Ptr.pkt p) .server).table =
    t at hserve ⊢
  have hstep : step s (.completed env wc) = some ((s.answer none).next ((looking D p x m).setTbl x.ep t)) := by
    rw [step, hserve, hans]
    rfl
  obtain ⟨heps, hpool, hsends, hout, hid⟩ : D.eps = s.dev.eps ∧ D.pool = s.dev.pool ∧ D.sends = s.dev.sends ∧
      D.out = s.dev.out ∧ D.pk = s.dev.pk := by
    subst hD
    exact ⟨rfl, rfl, rfl, rfl, rfl⟩
  clear hready hserve hD
  obtain ⟨heps', hpool', hsends', hout', hid'⟩ := looking_wire D p x m
  rw [heps] at heps'
  rw [hpool] at hpool'
  rw [hsends] at hsends'
  rw [hout] at hout'
  rw [hid] at hid'
  generalize looking D p x m = E at *
  refine ⟨_, hstep, fun e => ?_, ?_, fun e he => ?_, hsends'.trans h.sends, ?_, h.held, ?_,
    fun q => (hid' q).trans (h.poolid q)⟩
  · show ((E.setTbl x.ep t).eps e).ce = _ ∧ ((E.setTbl x.ep t).eps e).glob = _ ∧ ((E.setTbl x.ep t).eps e).cq = _
    rw [hx]
    by_cases he : e = 0
    · subst he; simpa [Dev.setTbl, Dev.setEp, heps'] using h.kind 0
    · simpa [Dev.setTbl, Dev.setEp, he, heps'] using h.kind e
  · show ((E.setTbl x.ep t).eps 0).tbl = t
    rw [hx, setTbl_tbl]
  · show ((E.setTbl x.ep t).eps e).tbl = _
    rw [hx]
    simpa [Dev.setTbl, Dev.setEp, he, heps'] using h.others e he
  · show s.owed ++ rtrsSince s.dev (E.setTbl x.ep t) = []
    have hr : rtrsSince s.dev (E.setTbl x.ep t) = [] := rtrsSince_same hout'
    rw [hr, h.owed]
    rfl
  · show E.pool.lpools = [l]
    rw [hpool']
    exact h.pool

/-- A refill on verbs, when the worker's deque is the first. -/
theorem refill_posts {env : Env} {d : Dev} (hb : d.backend = .ibv) (hr : d.recvPosted < (LC_SERVER_MAX_RCVS : Int))
    {p : PktId} {pool : Pool} (hg : lcPoolGetNb d.pool env = (some p, pool))
    (hl : lcPoolGetLocal pool env.wid = (0, pool)) :
    (progressRefill env d).eps = d.eps ∧ (progressRefill env d).pool = pool ∧
      (progressRefill env d).posted = d.posted ++ [⟨0, .pkt p, POST_MSG_SIZE, some p⟩] ∧
      (progressRefill env d).sends = d.sends ∧ (progressRefill env d).out = d.out ∧
      (progressRefill env d).backend = d.backend ∧ (progressRefill env d).build = d.build ∧
      (progressRefill env d).recvPosted = d.recvPosted + 1 ∧
      (d.deadlock = false → (progressRefill env d).deadlock = false) ∧
      ((∀ q, (d.pk q).context.poolid = 0) → ∀ q, ((progressRefill env d).pk q).context.poolid = 0) := by
  have heq : progressRefill env d = ibvPostRecv env (d.setPool pool) (some p) := by
    rw [progressRefill, hb]
    show ibvRefill env d = _
    rw [ibvRefill, if_pos hr, hg]
  rw [heq]
  unfold ibvPostRecv
  dsimp only
  rw [show (d.setPool pool).pool = pool from rfl, hl]
  refine ⟨rfl, rfl, rfl, rfl, rfl, rfl, rfl, rfl, fun h => ?_, fun h q => ?_⟩
  · simp [Dev.setCtx, Dev.setPool, h]
  by_cases hq : q = p
  · subst hq; simp [Dev.setCtx, int8]
  · simpa [Dev.setCtx, Dev.setPool, hq] using h q

/-- The last packet of the pool is posted. -/
theorem Calm.refill {s : Sys} {t : Table Ptr} {l : List PktId} {p : PktId} (h : Calm s t (l ++ [p]))
    (hb : s.dev.backend = .ibv) (hr : s.dev.recvPosted < (LC_SERVER_MAX_RCVS : Int))
    (htls : s.dev.pool.tls 0 = some 0) :
    ∃ s', step s (.refill ⟨0, 0, 0⟩) = some s' ∧ FewPools s.dev ⟨0, 0, 0⟩ ∧ Calm s' t l ∧
      s'.dev.posted = s.dev.posted ++ [⟨0, .pkt p, POST_MSG_SIZE, some p⟩] ∧ s'.dev.backend = .ibv ∧
      s'.dev.recvPosted = s.dev.recvPosted + 1 ∧ s'.dev.pool.tls = s.dev.pool.tls ∧ s'.dev.build = s.dev.build ∧
      s'.dev.eps = s.dev.eps ∧ (s.dev.deadlock = false → s'.dev.deadlock = false) := by
  have hpool : s.dev.pool = ⟨s.dev.pool.tls, [l ++ [p]]⟩ := by rw [← h.pool]
  have hget : lcPoolGetNb s.dev.pool ⟨0, 0, 0⟩ = (some p, ⟨s.dev.pool.tls, [l]⟩) := by
    rw [hpool]
    simp [lcPoolGetNb, lcPoolGetLocal, htls, dqPopTop]
  have hlocal : lcPoolGetLocal ⟨s.dev.pool.tls, [l]⟩ 0 = (0, ⟨s.dev.pool.tls, [l]⟩) := by simp [lcPoolGetLocal, htls]
  obtain ⟨h1, h2, h3, h4, h5, h6, h7, h8, h9, h10⟩ := refill_posts hb hr hget hlocal
  refine ⟨_, rfl, ?_, ⟨fun e => ?_, ?_, fun e he => ?_, h4.trans h.sends, ?_, h.held, ?_, h10 h.poolid⟩, h3,
    h6.trans hb, h8, (congrArg Pool.tls h2).trans rfl, h7, h1, h9⟩
  · unfold FewPools
    rw [hpool]
    simp [lcPoolGetLocal, htls]
  · exact h1 ▸ h.kind e
  · exact (congrArg (fun eps : Nat → Ep => (eps 0).tbl) h1).trans h.tbl
  · exact (congrArg (fun eps : Nat → Ep => (eps e).tbl) h1).trans (h.others e he)
  · show s.owed ++ rtrsSince s.dev (progressRefill ⟨0, 0, 0⟩ s.dev) = []
    rw [rtrsSince_same h5, h.owed]
    rfl
  · exact congrArg Pool.lpools h2

/-- The device of the counterexample, with one receive posted. -/
theorem calm_posted (me : CInt) : ∃ d s, lciDevInit 0 { rawDev .ibv 4096 .exp .null with me := me } = some d ∧
    step ⟨d, [], []⟩ (.refill ⟨0, 0, 0⟩) = some s ∧ FewPools d ⟨0, 0, 0⟩ ∧
      Calm s (lcHashCreate .null) (List.range 1023) ∧
    s.dev.posted = [⟨0, .pkt 1023, POST_MSG_SIZE, some 1023⟩] ∧ s.dev.backend = .ibv ∧
    s.dev.build.hasAr .exp = true ∧ (s.dev.eps 0).ar = .exp ∧ s.dev.recvPosted = 1 ∧ s.dev.pool.tls 0 = some 0 ∧
    s.dev.deadlock = false := by
  obtain ⟨d, hd, hc, hb, hr, htls, hposted, hbuild, har, hdead⟩ : ∃ d,
      lciDevInit 0 { rawDev .ibv 4096 .exp .null with me := me } = some d ∧
      Calm ⟨d, [], []⟩ (lcHashCreate .null) (List.range 1023 ++ [1023]) ∧ d.backend = .ibv ∧ d.recvPosted = 0 ∧
      d.pool.tls 0 = some 0 ∧ d.posted = [] ∧ d.build.hasAr .exp = true ∧ (d.eps 0).ar = .exp ∧ d.deadlock = false :=
    ⟨_, lciDevInit_eq 0 _, ⟨fun _ => ⟨rfl, rfl, rfl⟩, rfl, fun _ _ => rfl, rfl, rfl, rfl,
      congrArg (fun l => [l]) (show List.range LC_SERVER_NUM_PKTS = _ from List.range_succ), fun _ => rfl⟩, rfl, rfl,
      rfl, rfl, rfl, rfl, rfl⟩
  obtain ⟨s, hs, hfew, hc', hposted', hb', hr', htls', hbuild', heps', hdead'⟩ :=
    hc.refill hb (by rw [hr]; decide) htls
  rw [hposted] at hposted'
  rw [hr] at hr'
  exact ⟨d, s, hd, hs, hfew, hc', hposted', hb', hbuild'.symm ▸ hbuild, heps'.symm ▸ har, hr', htls'.symm ▸ htls,
    hdead' hdead⟩

theorem live_insert {V : Type} (zero : V) (t : Table V) (key : Key) (v : V) (type : InsertType)
    (hcmp : cmpKeyOf key type ≠ EMPTY) (htag : tagOf key type ≠ EMPTY) (b : Fin (2 ^ tblBitSize)) :
    ∀ x ∈ live ((lcHashInsert zero t key v type).table b).slots, x ∈ live (t b).slots ∨ x.val = v := by
  intro x hx
  rw [lcHashInsert_table] at hx
  by_cases hb : b = bucket key
  · subst hb
    rw [Function.update_self] at hx
    rcases insertChain_cases zero (t (bucket key)) key v type hcmp htag with ⟨l, y, r, h1, -, -, -, -, h6⟩ |
      ⟨-, -, -, h3⟩
    · rw [h6] at hx
      rw [h1]
      exact .inl (by simp only [List.mem_append, List.mem_cons] at hx ⊢; tauto)
    · rw [h3, List.mem_append, List.mem_singleton] at hx
      rcases hx with hx | rfl
      · exact .inl hx
      · exact .inr rfl
  · rw [Function.update_of_ne hb] at hx
    exact .inl hx

theorem Along.concat {P Q : Sys → Op → Prop} (hPQ : ∀ s op, P s op → Q s op) {s s₁ : Sys} {ops : List Op} {op : Op}
    (h : Along P s ops) (hr : run s ops = some s₁) (hop : Q s₁ op) : Along Q s (ops ++ [op]) := by
  induction ops generalizing s with
  | nil =>
    cases hr
    exact ⟨hop, fun _ _ => trivial⟩
  | cons a ops ih =>
    obtain ⟨s', h₁, h₂⟩ := Option.bind_eq_some_iff.1 hr
    exact Along.cons (hPQ _ _ h.1) h₁ (ih (h.2 s' h₁) h₂)

/-- One receive posted, a message of four bytes with rank 3 and tag 20567 stored, and received. -/
def receiveOne : List Op :=
  [.refill ⟨0, 0, 0⟩, .completed ⟨0, 0, 0⟩ ⟨1023, .recv, 3, 4, makeProto 0 .data 20567, .buffer [1, 2, 3, 4]⟩,
    .recvm ⟨0, 0, 0⟩ 64 4 3 20567 0 0]

/-- The table of the endpoint after that: its slot is free again, and still names the packet. -/
def staleTable : Table Ptr :=
  (lcHashInsert .null (lcHashInsert .null (lcHashCreate .null) (lcMakeKey 3 20567) (.pkt 1023) .server).table
    (lcMakeKey 3 20567) (.req 0) .client).table

theorem receiveOne_run : ∃ d s, lciDevInit 0 (rawDev .ibv 4096 .exp .null) = some d ∧ SoundRun ⟨d, [], []⟩ receiveOne ∧
    run ⟨d, [], []⟩ receiveOne = some s ∧ Calm s staleTable (List.range 1023 ++ [1023]) := by
  obtain ⟨d, s₁, hd, h₁, hfew, hc₁, hposted, hb, hbuild, har, -⟩ := calm_posted 0
  have hfresh : Fresh (rawDev .ibv 4096 .exp .null) := ⟨by decide, fun e => ⟨.exp, .null, false, rfl, rfl⟩⟩
  have hg : Good s₁ := (hfresh.good hd).of_step h₁ hfew trivial
  obtain ⟨s₂, h₂, hc₂⟩ := hc₁.stores hg ⟨hbuild, har⟩ ⟨0, 0, 0⟩ 1023 (x := ⟨.recvm, 64, 4, 3, 20567, 0, 0⟩) rfl
    (by decide) (by decide) (.eager [1, 2, 3, 4])
  replace h₂ : step s₁ (.completed ⟨0, 0, 0⟩ ⟨1023, .recv, 3, 4, makeProto 0 .data 20567, .buffer [1, 2, 3, 4]⟩) =
    some s₂ := h₂
  obtain ⟨s₃, h₃, hc₃⟩ := hc₂.recvm ⟨0, 0, 0⟩ 64 4 3 20567 0 (p := 1023) (by simp [MAX_SIZE]) (by decide +kernel)
  have hidle : Idle s₂ 0 := by
    refine hc₂.idle fun b x hx => ?_
    rcases live_insert Ptr.null _ _ _ .server (by decide) (by decide) b x hx with hx | hx
    · rw [live_create] at hx
      cases hx
    · rw [hx]
      simp
  refine ⟨d, s₃, hd, ?_, ?_, hc₃⟩
  · refine Along.cons ⟨hfew, trivial⟩ h₁ (Along.cons ⟨⟨hb, ?_, ?_⟩, by simp [Sound]⟩ h₂
      (Along.cons ⟨hidle, by simp [Sound]⟩ h₃ trivial))
    · rw [hposted]
      simp
    · exact ⟨by decide, by decide, hg.kinds _⟩
  · rw [receiveOne, run, h₁, Option.bind_some, run, h₂, Option.bind_some, run, h₃]
    rfl

/-- The packet of a received message is in the pool again, and nowhere else. -/
theorem packets_conserved_receiveOne : ∃ d, Fresh (rawDev .ibv 4096 .exp .null) ∧
    lciDevInit 0 (rawDev .ibv 4096 .exp .null) = some d ∧ SoundRun ⟨d, [], []⟩ receiveOne ∧
    ∃ s, run ⟨d, [], []⟩ receiveOne = some s ∧ Conserved s := by
  obtain ⟨d, -, hd, hops, -⟩ := receiveOne_run
  have hfresh : Fresh (rawDev .ibv 4096 .exp .null) := ⟨by decide, fun e => ⟨.exp, .null, false, rfl, rfl⟩⟩
  exact ⟨d, hfresh, hd, hops, packets_conserved hfresh hd hops⟩

/-- A receive with tag -1 after that looks for the mark of a free slot, and its key has the bucket of rank 3 and
tag 20567: it finds the packet that slot still names, and returns it to the pool a second time. -/
theorem packet_pooled_twice : ∃ d s, lciDevInit 0 (rawDev .ibv 4096 .exp .null) = some d ∧
    Along Allowed ⟨d, [], []⟩ (receiveOne ++ [.recvm ⟨0, 0, 0⟩ 64 4 3 (-1) 0 1]) ∧
    run ⟨d, [], []⟩ (receiveOne ++ [.recvm ⟨0, 0, 0⟩ 64 4 3 (-1) 0 1]) = some s ∧
    s.dev.pool.lpools.flatten.count 1023 = 2 ∧ ¬ Conserved s := by
  obtain ⟨d, s₃, hd, hops, hrun, hc⟩ := receiveOne_run
  obtain ⟨s, hs, hc'⟩ := hc.recvm ⟨0, 0, 0⟩ 64 4 3 (-1) 1 (p := 1023) (by simp [MAX_SIZE]) (by decide +kernel)
  have hidle : Idle s₃ 1 := by
    refine hc.idle fun b x hx => ?_
    rcases live_insert Ptr.null _ _ _ .client (by decide) (by decide) b x hx with hx | hx
    · rcases live_insert Ptr.null _ _ _ .server (by decide) (by decide) b x hx with hx | hx
      · rw [live_create] at hx
        cases hx
      · rw [hx]
        simp
    · rw [hx]
      simp
  have hpool : s.dev.pool.lpools.flatten = List.range 1023 ++ [1023] ++ [1023] := by
    rw [hc'.pool]
    simp
  refine ⟨d, s, hd, Along.concat (fun _ _ h => h.1) hops hrun hidle, run_concat hrun hs, ?_, fun h => ?_⟩
  · rw [hpool, List.count_append, List.count_append, List.count_eq_zero.2 (by simp)]
    decide
  · have := h.pool
    rw [hpool] at this
    exact absurd (List.nodup_append.1 this).2.2 (by simp)

end Lci.Server
