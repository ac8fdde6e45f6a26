/-
A job: one device for each rank, the messages of long sends in flight between them, and the sends whose
completion was not returned. The transport delivers every message once, in any order, and the immediate of
a write after its data; calls, arrivals and completions interleave in any order.
-/
import Lci.Server.Effect
import Lci.Server.Rendezvous

namespace Lci.Server.Rendezvous

open Lci.Hash Lci.Proto History

/-! ## The job -/

structure Job where
  node : CInt → Sys
  flight : List Wire
  pending : List Wire
  log : List Rec

/-- The rank a message is for. -/
def Wire.dst (w : Wire) : CInt :=
  match w.msg with
  | .send dst _ _ _ => dst
  | .put dst _ _ _ _ _ => dst
  | .rma dst _ _ _ _ _ => dst

/-- What a rank has handed to the transport in a step. -/
def newWires (r : CInt) (s s' : Sys) : List Wire :=
  ((s'.dev.sends.drop s.dev.sends.length).zip (s'.dev.out.drop s.dev.out.length)).map fun x =>
    ⟨r, x.1, x.2, (s'.dev.pk x.1).data.view.xfer, false⟩

/-- The buffer of the request of an event. -/
def eventBuf (d : Dev) : Event → Buf
  | .completed _ r _ => (d.getReq r).buffer
  | .handler _ r => (d.getReq r).buffer
  | .callback _ _ _ => .null

def newEvents (r : CInt) (s s' : Sys) : List Rec :=
  (s'.dev.events.drop s.dev.events.length).map fun v => .event r v (eventBuf s'.dev v)

/-- The job after a step of rank `r` to `s`. -/
def Job.moves (j : Job) (r : CInt) (s : Sys) (recs : List Rec) : Job where
  node := Function.update j.node r s
  flight := j.flight ++ newWires r (j.node r) s
  pending := j.pending ++ newWires r (j.node r) s
  log := j.log ++ (recs ++ newEvents r (j.node r) s)

/-- What can happen in a job: rank `org` of transfer `x` calls `lc_sendl`, a rank makes another call, message `w`
arrives in packet `p`, the data of a write is put in the memory of its target, its immediate arrives, and a
send is completed. On PSM2 data and immediate are one message. -/
inductive Act
  | sendl (env : Env) (x : Nat)
  | call (r : CInt) (op : Op)
  | arrive (env : Env) (p : PktId) (w : Wire)
  | write (w : Wire)
  | imm (env : Env) (p : PktId) (w : Wire)
  | sent (r : CInt) (env : Env) (p : PktId)

/-- The receive of PSM2 for eager messages in packet `p`. -/
def eagerPost (p : PktId) : Post := ⟨PSM_RECV_DATA, .pkt p, POST_MSG_SIZE, some p⟩

/-- What the transport reports of a message in packet `p`. -/
def recvOp (b : Backend) (env : Env) (p : PktId) (w : Wire) : Option Op :=
  match w.msg, b with
  | .send _ proto size data, .ibv => some (.completed env ⟨p, .recv, w.src, size, proto, data⟩)
  | .send _ proto size data, .psm2 =>
    some (.matched env (eagerPost p) ⟨psmTagTsendData proto w.src, w.src, size, data⟩)
  | _, _ => none

/-- What it reports of the immediate of a write of `bytes`: on verbs with `comm_id | IBV_IMM_RTR`, in packet `p`, on
PSM2 with the receive that was posted for the data. -/
def immOp (b : Backend) (env : Env) (p : PktId) (w : Wire) (bytes : List Byte) : Option Op :=
  match w.msg, b with
  | .rma _ _ _ _ size sid, .ibv =>
    some (.completed env ⟨p, .recvRdmaWithImm, w.src, rmaLen size, sid ||| IBV_IMM_RTR, .buffer []⟩)
  | .rma _ _ addr rkey size sid, .psm2 =>
    some (.matched env ⟨rkey, addr, rmaLen size, none⟩ ⟨psmTagSrdmaDatImm rkey sid, w.src, rmaLen size, .buffer bytes⟩)
  | _, _ => none

/-- The bytes of a write, as its sender has them now. -/
def Job.bytes (j : Job) (w : Wire) : List Byte :=
  match w.msg with
  | .rma _ src _ _ size _ => readMem (j.node w.src).dev.mem src (rmaLen size)
  | _ => []

/-- What is kept of an immediate: the packet it names. -/
def immRec (ps : Nat) (w : Wire) : List Rec :=
  match w.msg with
  | .rma t _ _ _ _ sid => [.imm t ((pktAt ps sid.toNat).getD 0) w.xfer]
  | _ => []

/-- What is kept of a write. -/
def wroteRec (w : Wire) (bytes : List Byte) : List Rec :=
  match w.msg with
  | .rma t _ (.mem a) _ _ _ => [.wrote t a bytes w.xfer]
  | _ => []

section Model

variable (T : Nat → Transfer)

def Job.step (j : Job) : Act → Option Job
  | .sendl env x =>
    let t := T x
    (Server.step (j.node t.org) (.sendl env t.src t.size t.tgt t.tag t.ep t.cb t.ce x)).map fun s =>
      j.moves t.org s (if newWires t.org (j.node t.org) s = [] then [] else [.started x])
  | .call r op => (Server.step (j.node r) op).map fun s => j.moves r s []
  | .arrive env p w =>
    (recvOp (j.node w.dst).dev.backend env p w).bind fun op => (Server.step (j.node w.dst) op).map fun s =>
      ({ j with flight := j.flight.erase w } : Job).moves w.dst s []
  | .write w =>
    match w.msg with
    | .rma t _ (.mem a) _ _ _ => some { j with
        node := Function.update j.node t
          { j.node t with dev := { (j.node t).dev with mem := writeMem (j.node t).dev.mem a (j.bytes w) } }
        flight := j.flight.erase w ++ [{ w with placed := true }]
        log := j.log ++ wroteRec w (j.bytes w) }
    | _ => none
  | .imm env p w =>
    (immOp (j.node w.dst).dev.backend env p w (j.bytes w)).bind fun op => (Server.step (j.node w.dst) op).map fun s =>
      ({ j with flight := j.flight.erase w } : Job).moves w.dst s
        ((if w.placed then [] else wroteRec w (j.bytes w)) ++ immRec (j.node w.dst).dev.pageSize w)
  | .sent r env p =>
    (j.pending.find? fun w => w.src = r ∧ w.ctx = p).bind fun w => (Server.step (j.node r) (.sent env p)).map fun s =>
      ({ j with pending := j.pending.erase w } : Job).moves r s [.sent w]

def Job.run (j : Job) : List Act → Option Job
  | [] => some j
  | a :: acts => (j.step T a).bind fun j => j.run acts

end Model

/-- The other calls of a job: `lc_recv` and `lc_recvl`, the completion queue, and the end of a progress call. -/
def Plain : Op → Prop
  | .recvl _ _ rank _ _ _ | .recv _ _ _ rank _ _ _ => rank.toNat < 2 ^ 31
  | .cqPop _ | .cqReqfree _ _ | .refill _ => True
  | _ => False

/-- What the application and the transport do. A transfer is started once; the transport delivers a message in a
packet that was posted, the immediate of a write after its data, and on PSM2 the data in the receive that was
posted for it; it returns a context it has. -/
def Allowed (j : Job) : Act → Prop
  | .sendl _ x => .started x ∉ j.log
  | .call r op => Plain op ∧ Server.Allowed (j.node r) op
  | .arrive _ p w => w ∈ j.flight ∧ (∃ t word size data, w.msg = .send t word size data) ∧
    match (j.node w.dst).dev.backend with
    | .ibv => p ∈ (j.node w.dst).dev.posted.filterMap Post.ctx
    | .psm2 => eagerPost p ∈ (j.node w.dst).dev.posted
  | .write w => w ∈ j.flight ∧ (∃ t src addr rkey size sid, w.msg = .rma t src addr rkey size sid) ∧ w.placed = false ∧
    (j.node w.dst).dev.backend = .ibv
  | .imm _ p w => w ∈ j.flight ∧ ∃ t src addr rkey size sid, w.msg = .rma t src addr rkey size sid ∧
    match (j.node w.dst).dev.backend with
    | .ibv => w.placed = true ∧ p ∈ (j.node w.dst).dev.posted.filterMap Post.ctx
    | .psm2 => ⟨rkey, addr, rmaLen size, none⟩ ∈ (j.node w.dst).dev.posted
  | .sent r _ p => p ∈ (j.node r).dev.sends

/-- The step meets no slip of the code: no receive has tag -1, and on PSM2 no key is zero. -/
def Sound (j : Job) : Act → Prop
  | .call r op => Server.Sound (j.node r) op
  | .arrive env p w => ∀ x m, recvOp (j.node w.dst).dev.backend env p w = some (.matched env x m) →
    KeyZeroFree (j.node w.dst).dev (some (.recv x m))
  | .imm env p w => ∀ x m, immOp (j.node w.dst).dev.backend env p w (j.bytes w) = some (.matched env x m) →
    KeyZeroFree (j.node w.dst).dev (some (.recv x m))
  | _ => True

end Lci.Server.Rendezvous
