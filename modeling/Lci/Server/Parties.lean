/-
What the stage of a transfer says about the parties of a job: which message of it is in flight, what the
target holds of it, in a table or waiting, and which context the sender has. Each of the three changes
by itself, and only at the rank and the packet that a step works on.
-/
import Lci.Server.Job

namespace Lci.Server.Rendezvous

open Lci.Hash Lci.Proto History

/-! ## What a stage says about the parties -/

/-- The part of the target: its RTS packet is stored, or the packet waits for the completion of the RTR and for the
immediate. -/
inductive Tgt
  | none
  | stored (q : PktId)
  | waiting (q : PktId) (buf : Nat) (rtr imm : Bool)

/-- The part of the network: the message of the transfer in flight. -/
inductive Net
  | none
  | rts
  | rtr (q : PktId) (buf : Nat)
  | write (q : PktId) (buf : Nat)
  | imm (q : PktId) (buf : Nat)

def Stage.tgt : Stage → Tgt
  | .stored q => .stored q
  | .granted q buf rtr => .waiting q buf rtr true
  | .written q buf rtr phase _ => if rtr = true ∨ phase ≠ .landed then .waiting q buf rtr (phase ≠ .landed) else .none
  | _ => .none

/-- The part of the sender: the context of the write. -/
def Stage.org : Stage → Option PktId
  | .written _ _ _ _ ctx => ctx
  | _ => none

def Phase.net (q : PktId) (buf : Nat) : Phase → Net
  | .posted => .write q buf
  | .placed => .imm q buf
  | .landed => .none

def Stage.net : Stage → Net
  | .asked => .rts
  | .granted q buf _ => .rtr q buf
  | .written q buf _ phase _ => phase.net q buf
  | _ => .none

/-- The RTS of a transfer, or what was made of it. -/
def Carries (t : Transfer) (x : Nat) (r : Rdz) : Prop :=
  r.cb = t.cb ∧ r.ce = t.ce ∧ r.srcAddr = t.src ∧ r.size = t.size ∧ r.xfer = x

theorem Carries.same {t : Transfer} {x : Nat} {r r' : Rdz} (h : Carries t x r) (hs : SameRts r r') :
    Carries t x r' := by
  obtain ⟨h1, h2, h3, h4, h5⟩ := h
  obtain ⟨s1, s2, s3, s4, s5⟩ := hs
  exact ⟨s1.trans h1, s2.trans h2, s3.trans h3, s4.trans h4, s5.trans h5⟩

/-- The transfer that a packet belongs to. -/
def xf (s : Sys) (q : PktId) : Nat := (s.dev.pk q).data.view.xfer

section Parties

variable (T : Nat → Transfer)

/-- The messages of a transfer; `page` and `bk` give the page size and the backend of a rank. -/
inductive Sails (page : CInt → Nat) (bk : CInt → Backend) (x : Nat) : Net → Wire → Prop
  | rts (ctx : PktId) (r : Rdz) : Carries (T x) x r → Sails page bk x .rts
    ⟨(T x).org, ctx, .send (T x).tgt (makeProto (BitVec.ofNat 32 (T x).ep) .rts (T x).tag) packetRtsSize (.rdz r), x,
      false⟩
  | rtr (ctx : PktId) (r : Rdz) (q : PktId) (buf : Nat) : Carries (T x) x r → r.tgtAddr = .mem buf →
    r.commId = BitVec.ofNat 32 (pktOffset (page (T x).tgt) q) → (bk (T x).tgt = .psm2 → IsKey r.rkey) →
    Sails page bk x (.rtr q buf)
      ⟨(T x).tgt, ctx, .send (T x).org (makeProto (BitVec.ofNat 32 (T x).ep) .rtr 0) packetRtrSize (.rdz r), x, false⟩
  | write (ctx : PktId) (q : PktId) (buf : Nat) (rkey : BitVec 32) : (bk (T x).tgt = .psm2 → IsKey rkey) →
    Sails page bk x (.write q buf) ⟨(T x).org, ctx, .rma (T x).tgt (T x).src (.mem buf) rkey (T x).size
      (BitVec.ofNat 32 (pktOffset (page (T x).tgt) q)), x, false⟩
  | imm (ctx : PktId) (q : PktId) (buf : Nat) (rkey : BitVec 32) : bk (T x).tgt = .ibv →
    Sails page bk x (.imm q buf) ⟨(T x).org, ctx, .rma (T x).tgt (T x).src (.mem buf) rkey (T x).size
      (BitVec.ofNat 32 (pktOffset (page (T x).tgt) q)), x, true⟩

/-- Every transfer has the message in flight that its stage says, and no other. -/
structure NetOk (page : CInt → Nat) (bk : CInt → Backend) (flight : List Wire) (f : Nat → Net) : Prop where
  sails : ∀ w ∈ flight, Sails T page bk w.xfer (f w.xfer) w
  once : (flight.map Wire.xfer).Nodup
  all : ∀ x, f x ≠ .none → ∃ w ∈ flight, w.xfer = x

/-- What rank `r` holds as a target: RTS packets in its tables, receives, and packets that wait. -/
structure TgtAt (r : CInt) (s : Sys) (f : Nat → Tgt) : Prop where
  stored : ∀ e b, ∀ y ∈ entries s.dev e b, ∀ q, y.val = .pkt q → f (xf s q) = .stored q ∧ (T (xf s q)).tgt = r ∧
    e = (T (xf s q)).ep ∧ (s.dev.pk q).context.proto = .rts ∧ Carries (T (xf s q)) (xf s q) (s.dev.pk q).data.view ∧
    ∃ m : CInt, m.toNat < 2 ^ 16 ∧ y.tag = tagOf (lcMakeKey (T (xf s q)).org m) .server
  asked : ∀ e b, ∀ y ∈ entries s.dev e b, ∀ u, y.val = .req u → ∃ rank tag : CInt, rank.toNat < 2 ^ 31 ∧
    y.tag = tagOf (lcMakeKey rank tag) .client ∧ (s.dev.req u).rhandle = rank ∧ ∃ buf, (s.dev.req u).buffer = .mem buf
  waits : ∀ q, q ∈ s.owed ∨ (q ∈ s.dev.sends ∧ (s.dev.pk q).context.proto = .rtr) →
    (T (xf s q)).tgt = r ∧ ∃ buf a b, f (xf s q) = .waiting q buf a b
  waiting : ∀ x q buf a b, f x = .waiting q buf a b → (T x).tgt = r → (a = true ∨ b = true) ∧
    (a = true ↔ q ∈ s.dev.sends) ∧ (b = true ↔ q ∈ s.owed) ∧ xf s q = x ∧ (s.dev.pk q).context.proto = .rtr ∧
    (s.dev.reqPtr q = .own q ∨ ∃ u, s.dev.reqPtr q = .user u) ∧ (s.dev.reqOf q).buffer = .mem buf

/-- What rank `r` holds as a sender: the contexts of its writes. -/
structure OrgAt (r : CInt) (s : Sys) (g : Nat → Option PktId) : Prop where
  writes : ∀ p ∈ s.dev.sends, (s.dev.pk p).context.proto = .long → g (xf s p) = some p ∧ (T (xf s p)).org = r ∧
    Carries (T (xf s p)) (xf s p) (s.dev.pk p).data.view
  holds : ∀ x p, g x = some p → (T x).org = r → p ∈ s.dev.sends ∧ (s.dev.pk p).context.proto = .long ∧ xf s p = x

/-- The sends of rank `r` that are not completed are those of its contexts. -/
structure PendAt (r : CInt) (s : Sys) (pending : List Wire) : Prop where
  ctxs : (pending.filter fun w => w.src = r).map Wire.ctx = s.dev.sends
  made : ∀ w ∈ pending, w.src = r → w.xfer = xf s w.ctx ∧
    ((s.dev.pk w.ctx).context.proto = .rtr → IsRtr T w.xfer w) ∧
    ((s.dev.pk w.ctx).context.proto = .long → IsWrite T w.xfer w)

variable {T}

/-! ## In flight -/

section Net

variable {page : CInt → Nat} {bk : CInt → Backend} {flight : List Wire} {f : Nat → Net} {w : Wire} {x : Nat} {n : Net}

theorem Sails.xfer_eq (h : Sails T page bk x n w) : w.xfer = x := by cases h <;> rfl

theorem Sails.ne_none (h : Sails T page bk x n w) : n ≠ .none := by cases h <;> simp

/-- A message is delivered. -/
theorem NetOk.drop (h : NetOk T page bk flight f) (hw : w ∈ flight) :
    NetOk T page bk (flight.erase w) (Function.update f w.xfer .none) := by
  have hperm : flight.Perm (w :: flight.erase w) := List.perm_cons_erase hw
  have hn := (hperm.map Wire.xfer).nodup_iff.1 h.once
  rw [List.map_cons, List.nodup_cons] at hn
  refine ⟨fun v hv => ?_, hn.2, fun x hx => ?_⟩
  · have hne : v.xfer ≠ w.xfer := fun e => hn.1 (e ▸ List.mem_map_of_mem hv)
    rw [Function.update_of_ne hne]
    exact h.sails v (List.mem_of_mem_erase hv)
  · by_cases hxw : x = w.xfer
    · subst hxw
      simp at hx
    · rw [Function.update_of_ne hxw] at hx
      obtain ⟨v, hv, rfl⟩ := h.all x hx
      refine ⟨v, ?_, rfl⟩
      rcases List.mem_cons.1 (hperm.subset hv) with rfl | hv
      · exact absurd rfl hxw
      · exact hv

/-- A message is sent. -/
theorem NetOk.add (h : NetOk T page bk flight f) (hx : f x = .none) (hs : Sails T page bk x n w) :
    NetOk T page bk (flight ++ [w]) (Function.update f x n) := by
  have hne : ∀ v ∈ flight, v.xfer ≠ x := by
    rintro v hv rfl
    exact (h.sails v hv).ne_none hx
  refine ⟨fun v hv => ?_, ?_, fun y hy => ?_⟩
  · rcases List.mem_append.1 hv with hv | hv
    · rw [Function.update_of_ne (hne v hv)]
      exact h.sails v hv
    · rw [List.mem_singleton.1 hv, hs.xfer_eq, Function.update_self]
      exact hs
  · rw [List.map_append, List.map_singleton, hs.xfer_eq]
    refine List.nodup_append.2 ⟨h.once, List.nodup_singleton _, fun a ha b hb => ?_⟩
    obtain ⟨v, hv, rfl⟩ := List.mem_map.1 ha
    rw [List.mem_singleton.1 hb]
    exact hne v hv
  · by_cases hyx : y = x
    · exact ⟨w, by simp, hyx ▸ hs.xfer_eq⟩
    · rw [Function.update_of_ne hyx] at hy
      obtain ⟨v, hv, hvy⟩ := h.all y hy
      exact ⟨v, List.mem_append_left _ hv, hvy⟩

/-- A message is delivered, and the next one of its transfer is sent. -/
theorem NetOk.turn (h : NetOk T page bk flight f) (hw : w ∈ flight) {v : Wire} (hs : Sails T page bk w.xfer n v) :
    NetOk T page bk (flight.erase w ++ [v]) (Function.update f w.xfer n) := by
  have := (h.drop hw).add (Function.update_self _ _ _) hs
  rwa [Function.update_idem] at this

end Net

/-! ## At a rank -/

/-- From `s` to `s'` everything of a rank but packet `p` is as it was, as far as transfers go; tables apart. -/
structure Around (p : PktId) (s s' : Sys) : Prop where
  pk : ∀ q, q ≠ p → s'.dev.pk q = s.dev.pk q
  req : ∀ u, (s'.dev.req u).buffer = (s.dev.req u).buffer ∧ (s'.dev.req u).rhandle = (s.dev.req u).rhandle
  sends : ∀ q, q ≠ p → (q ∈ s'.dev.sends ↔ q ∈ s.dev.sends)
  owed : ∀ q, q ≠ p → (q ∈ s'.owed ↔ q ∈ s.owed)

section Rank

variable {r : CInt} {s s' : Sys} {f : Nat → Tgt} {g : Nat → Option PktId} {p : PktId} {x : Nat}

theorem Around.xf (h : Around p s s') {q : PktId} (hq : q ≠ p) : xf s' q = xf s q := by
  unfold Rendezvous.xf
  rw [h.pk q hq]

theorem Around.reqOf (h : Around p s s') {q : PktId} (hq : q ≠ p)
    (hr : s.dev.reqPtr q = .own q ∨ ∃ u, s.dev.reqPtr q = .user u) :
    s'.dev.reqPtr q = s.dev.reqPtr q ∧ (s'.dev.reqOf q).buffer = (s.dev.reqOf q).buffer := by
  have hptr : s'.dev.reqPtr q = s.dev.reqPtr q := congrArg (fun x : Packet => x.context.req) (h.pk q hq)
  refine ⟨hptr, ?_⟩
  unfold Dev.reqOf
  rw [hptr]
  rcases hr with hr | ⟨u, hr⟩
  · rw [hr]
    exact congrArg (fun x : Packet => x.context.reqS.buffer) (h.pk q hq)
  · rw [hr]
    exact (h.req u).1

/-- A slot that stays says what it said. -/
theorem TgtAt.stored_of (h : TgtAt T r s f) (ha : Around p s s') {e : Nat} {b : Fin (2 ^ tblBitSize)} {y : Slot Ptr}
    (hy : y ∈ entries s.dev e b) {q : PktId} (hv : y.val = .pkt q) (hq : q ≠ p) : f (xf s' q) = .stored q ∧
    (T (xf s' q)).tgt = r ∧ e = (T (xf s' q)).ep ∧ (s'.dev.pk q).context.proto = .rts ∧
    Carries (T (xf s' q)) (xf s' q) (s'.dev.pk q).data.view ∧
    ∃ m : CInt, m.toNat < 2 ^ 16 ∧ y.tag = tagOf (lcMakeKey (T (xf s' q)).org m) .server := by
  rw [ha.xf hq, ha.pk q hq]
  exact h.stored e b y hy q hv

theorem TgtAt.asked_of (h : TgtAt T r s f) (ha : Around p s s') {e : Nat} {b : Fin (2 ^ tblBitSize)} {y : Slot Ptr}
    (hy : y ∈ entries s.dev e b) {u : ReqId} (hv : y.val = .req u) : ∃ rank tag : CInt, rank.toNat < 2 ^ 31 ∧
    y.tag = tagOf (lcMakeKey rank tag) .client ∧ (s'.dev.req u).rhandle = rank ∧
      ∃ buf, (s'.dev.req u).buffer = .mem buf := by
  rw [(ha.req u).1, (ha.req u).2]
  exact h.asked e b y hy u hv

theorem TgtAt.waits_of (h : TgtAt T r s f) (ha : Around p s s') {q : PktId} (hq : q ≠ p)
    (hw : q ∈ s'.owed ∨ (q ∈ s'.dev.sends ∧ (s'.dev.pk q).context.proto = .rtr)) :
    (T (xf s' q)).tgt = r ∧ ∃ buf a b, f (xf s' q) = .waiting q buf a b := by
  rw [ha.owed q hq, ha.sends q hq, ha.pk q hq] at hw
  rw [ha.xf hq]
  exact h.waits q hw

theorem TgtAt.waiting_of (h : TgtAt T r s f) (ha : Around p s s') {y : Nat} {q : PktId} (hq : q ≠ p) {buf : Nat}
    {a b : Bool}
    (hf : f y = .waiting q buf a b) (hy : (T y).tgt = r) : (a = true ∨ b = true) ∧ (a = true ↔ q ∈ s'.dev.sends) ∧
    (b = true ↔ q ∈ s'.owed) ∧ xf s' q = y ∧ (s'.dev.pk q).context.proto = .rtr ∧
    (s'.dev.reqPtr q = .own q ∨ ∃ u, s'.dev.reqPtr q = .user u) ∧ (s'.dev.reqOf q).buffer = .mem buf := by
  obtain ⟨h1, h2, h3, h4, h5, h6, h7⟩ := h.waiting y q buf a b hf hy
  obtain ⟨hptr, hbuf⟩ := ha.reqOf hq h6
  rw [ha.owed q hq, ha.sends q hq, ha.xf hq, ha.pk q hq, hptr, hbuf]
  exact ⟨h1, h2, h3, h4, h5, h6, h7⟩

/-- A packet that waits is neither unused nor another's. -/
theorem TgtAt.waiting_ne (h : TgtAt T r s f) (hp : (p ∉ s.owed ∧ p ∉ s.dev.sends) ∨ xf s p = x) {y : Nat} (hyx : y ≠ x)
    {q : PktId} {buf : Nat} {a b : Bool} (hf : f y = .waiting q buf a b) (hy : (T y).tgt = r) : q ≠ p := by
  rintro rfl
  obtain ⟨h1, h2, h3, h4, -⟩ := h.waiting y q buf a b hf hy
  rcases hp with ⟨ho, hs⟩ | hp
  · rcases h1 with h1 | h1
    · exact hs (h2.1 h1)
    · exact ho (h3.1 h1)
  · exact hyx (h4.symm.trans hp)

/-- A step with a packet that has no part as a target, before or after. -/
theorem TgtAt.frame (h : TgtAt T r s f) (ha : Around p s s')
    (hslots : ∀ e b, ∀ y ∈ entries s'.dev e b, y ∈ entries s.dev e b)
    (hp : Unused s p) (ho : p ∉ s'.owed) (hs : p ∈ s'.dev.sends → (s'.dev.pk p).context.proto ≠ .rtr) :
    TgtAt T r s' f := by
  refine ⟨fun e b y hy q hv => ?_, fun e b y hy u hv => ?_, fun q hw => ?_, fun y q buf a b hf hy => ?_⟩
  · have hne : q ≠ p := by
      rintro rfl
      exact hp.slots e b y (hslots e b y hy) hv
    exact h.stored_of ha (hslots e b y hy) hv hne
  · exact h.asked_of ha (hslots e b y hy) hv
  · have hne : q ≠ p := by
      rintro rfl
      rcases hw with hw | ⟨hw, hk⟩
      · exact ho hw
      · exact hs hw hk
    exact h.waits_of ha hne hw
  · have hne : q ≠ p := by
      rintro rfl
      obtain ⟨h1, h2, h3, -⟩ := h.waiting y q buf a b hf hy
      rcases h1 with h1 | h1
      · exact hp.sends (h2.1 h1)
      · exact hp.owed (h3.1 h1)
    exact h.waiting_of ha hne hf hy

/-- A step of the target's part of transfer `x`, with the packet that has it: before, the packet was unused but for the
part it may have, and nobody else has one; after, it has the part `t`. -/
theorem TgtAt.update (h : TgtAt T r s f) (ha : Around p s s') (hx : (T x).tgt = r) {t : Tgt}
    (hbefore : (p ∉ s.owed ∧ p ∉ s.dev.sends) ∨ xf s p = x)
    (honly : f x = .none ∨ f x = .stored p ∨ ∃ buf a b, f x = .waiting p buf a b)
    (hslots : ∀ e b, ∀ y ∈ entries s'.dev e b, (y ∈ entries s.dev e b ∧ y.val ≠ .pkt p) ∨
      (y.val = .pkt p ∧ t = .stored p ∧ xf s' p = x ∧ e = (T x).ep ∧ (s'.dev.pk p).context.proto = .rts ∧
        Carries (T x) x (s'.dev.pk p).data.view ∧
        ∃ m : CInt, m.toNat < 2 ^ 16 ∧ y.tag = tagOf (lcMakeKey (T x).org m) .server))
    (hwaits : p ∈ s'.owed ∨ (p ∈ s'.dev.sends ∧ (s'.dev.pk p).context.proto = .rtr) →
      xf s' p = x ∧ ∃ buf a b, t = .waiting p buf a b)
    (hwaiting : ∀ q buf a b, t = .waiting q buf a b → q = p ∧ (a = true ∨ b = true) ∧ (a = true ↔ p ∈ s'.dev.sends) ∧
      (b = true ↔ p ∈ s'.owed) ∧ xf s' p = x ∧ (s'.dev.pk p).context.proto = .rtr ∧
      (s'.dev.reqPtr p = .own p ∨ ∃ u, s'.dev.reqPtr p = .user u) ∧ (s'.dev.reqOf p).buffer = .mem buf) :
    TgtAt T r s' (Function.update f x t) := by
  refine ⟨fun e b y hy q hv => ?_, fun e b y hy u hv => ?_, fun q hw => ?_, fun y q buf a b hf hy => ?_⟩
  · rcases hslots e b y hy with ⟨hold, hne⟩ | ⟨hvp, rfl, hxp, he, hk, hc, hm⟩
    · have hqp : q ≠ p := fun e => hne (e ▸ hv)
      have hst := h.stored_of ha hold hv hqp
      -- the transfer of another packet is not `x`, which is at `p` or nowhere
      have hqx : xf s' q ≠ x := by
        intro e
        rw [e] at hst
        rcases honly with ho | ho | ⟨_, _, _, ho⟩ <;> rw [ho] at hst <;> simp at hst
        exact hqp hst.1.symm
      rw [Function.update_of_ne hqx]
      exact hst
    · have hqp : q = p := by
        rw [hv] at hvp
        cases hvp
        rfl
      subst hqp
      rw [hxp, Function.update_self]
      exact ⟨rfl, hx, he, hk, hc, hm⟩
  · rcases hslots e b y hy with ⟨hold, -⟩ | ⟨hvp, -⟩
    · exact h.asked_of ha hold hv
    · rw [hv] at hvp
      cases hvp
  · by_cases hqp : q = p
    · subst hqp
      obtain ⟨hxp, ht⟩ := hwaits hw
      rw [hxp, Function.update_self]
      exact ⟨hx, ht⟩
    · obtain ⟨h1, buf, a, b, h2⟩ := h.waits_of ha hqp hw
      have hqx : xf s' q ≠ x := by
        intro e
        rw [e] at h2
        rcases honly with ho | ho | ⟨_, _, _, ho⟩ <;> rw [ho] at h2 <;> simp at h2
        exact hqp h2.1.symm
      rw [Function.update_of_ne hqx]
      exact ⟨h1, buf, a, b, h2⟩
  · by_cases hyx : y = x
    · subst hyx
      rw [Function.update_self] at hf
      obtain ⟨rfl, hfacts⟩ := hwaiting q buf a b hf
      exact hfacts
    · rw [Function.update_of_ne hyx] at hf
      exact h.waiting_of ha (h.waiting_ne hbefore hyx hf hy) hf hy

/-- A transfer to another rank. -/
theorem TgtAt.elsewhere (h : TgtAt T r s f) (hx : (T x).tgt ≠ r) (t : Tgt) : TgtAt T r s (Function.update f x t) := by
  have hne : ∀ {y : Nat}, (T y).tgt = r → y ≠ x := by
    rintro y hy rfl
    exact hx hy
  refine ⟨fun e b y hy q hv => ?_, h.asked, fun q hw => ?_, fun y q buf a b hf hy => ?_⟩
  · have hst := h.stored e b y hy q hv
    rw [Function.update_of_ne (hne hst.2.1)]
    exact hst
  · have hw := h.waits q hw
    rw [Function.update_of_ne (hne hw.1)]
    exact hw
  · rw [Function.update_of_ne (hne hy)] at hf
    exact h.waiting y q buf a b hf hy

/-- A step with a packet that is no context of a write, before or after. -/
theorem OrgAt.frame (h : OrgAt T r s g) (ha : Around p s s') (hp : p ∈ s.dev.sends → (s.dev.pk p).context.proto ≠ .long)
    (hp' : p ∈ s'.dev.sends → (s'.dev.pk p).context.proto ≠ .long) : OrgAt T r s' g := by
  refine ⟨fun q hq hk => ?_, fun y q hg hy => ?_⟩
  · have hne : q ≠ p := by
      rintro rfl
      exact hp' hq hk
    rw [ha.sends q hne] at hq
    rw [ha.pk q hne] at hk ⊢
    rw [ha.xf hne]
    exact h.writes q hq hk
  · obtain ⟨h1, h2, h3⟩ := h.holds y q hg hy
    have hne : q ≠ p := by
      rintro rfl
      exact hp h1 h2
    rw [ha.sends q hne, ha.pk q hne, ha.xf hne]
    exact ⟨h1, h2, h3⟩

/-- A packet becomes the context of the write of transfer `x`, or ceases to be. -/
theorem OrgAt.update (h : OrgAt T r s g) (ha : Around p s s') (hx : (T x).org = r) {c : Option PktId}
    (hbefore : p ∉ s.dev.sends ∨ xf s p = x) (honly : g x = none ∨ g x = some p)
    (hwrites : p ∈ s'.dev.sends → (s'.dev.pk p).context.proto = .long → c = some p ∧ xf s' p = x ∧
      Carries (T x) x (s'.dev.pk p).data.view)
    (hholds : ∀ q, c = some q → q = p ∧ p ∈ s'.dev.sends ∧ (s'.dev.pk p).context.proto = .long ∧ xf s' p = x) :
    OrgAt T r s' (Function.update g x c) := by
  refine ⟨fun q hq hk => ?_, fun y q hg hy => ?_⟩
  · by_cases hqp : q = p
    · subst hqp
      obtain ⟨h1, h2, h3⟩ := hwrites hq hk
      rw [h2, Function.update_self]
      exact ⟨h1, hx, h3⟩
    · rw [ha.sends q hqp] at hq
      rw [ha.pk q hqp] at hk ⊢
      rw [ha.xf hqp]
      have hw := h.writes q hq hk
      have hqx : xf s q ≠ x := by
        intro e
        rw [e] at hw
        rcases honly with ho | ho <;> rw [ho] at hw <;> simp at hw
        exact hqp hw.1.symm
      rw [Function.update_of_ne hqx]
      exact hw
  · by_cases hyx : y = x
    · subst hyx
      rw [Function.update_self] at hg
      obtain ⟨rfl, hfacts⟩ := hholds q hg
      exact hfacts
    · rw [Function.update_of_ne hyx] at hg
      obtain ⟨h1, h2, h3⟩ := h.holds y q hg hy
      have hqp : q ≠ p := by
        rintro rfl
        rcases hbefore with hb | hb
        · exact hb h1
        · exact hyx (h3.symm.trans hb)
      rw [ha.sends q hqp, ha.pk q hqp, ha.xf hqp]
      exact ⟨h1, h2, h3⟩

theorem OrgAt.elsewhere (h : OrgAt T r s g) (hx : (T x).org ≠ r) (c : Option PktId) :
    OrgAt T r s (Function.update g x c) := by
  have hne : ∀ {y : Nat}, (T y).org = r → y ≠ x := by
    rintro y hy rfl
    exact hx hy
  refine ⟨fun q hq hk => ?_, fun y q hg hy => ?_⟩
  · have hw := h.writes q hq hk
    rw [Function.update_of_ne (hne hw.2.1)]
    exact hw
  · rw [Function.update_of_ne (hne hy)] at hg
    exact h.holds y q hg hy

/-! ## Sends that are not completed -/

variable {pending : List Wire}

/-- Messages of other ranks. -/
theorem PendAt.elsewhere (h : PendAt T r s pending) {pending' : List Wire}
    (hp : (pending'.filter fun w => w.src = r) = pending.filter fun w => w.src = r) : PendAt T r s pending' := by
  refine ⟨by rw [hp]; exact h.ctxs, fun w hw hr => h.made w ?_ hr⟩
  have hm : w ∈ pending'.filter fun w => w.src = r := List.mem_filter.2 ⟨hw, by simpa using hr⟩
  rw [hp] at hm
  exact (List.mem_filter.1 hm).1

/-- A step that leaves what a context was made to: the packets of the sends are as they were, or have changed
in what the messages do not tell. -/
theorem PendAt.frame (h : PendAt T r s pending) (hs : s'.dev.sends = s.dev.sends)
    (hpk : ∀ q ∈ s.dev.sends, xf s' q = xf s q ∧ (s'.dev.pk q).context.proto = (s.dev.pk q).context.proto) :
    PendAt T r s' pending := by
  refine ⟨h.ctxs.trans hs.symm, fun w hw hr => ?_⟩
  have hm : w.ctx ∈ s.dev.sends := by
    rw [← h.ctxs]
    exact List.mem_map_of_mem (List.mem_filter.2 ⟨hw, by simpa using hr⟩)
  obtain ⟨h1, h2⟩ := hpk _ hm
  rw [h1, h2]
  exact h.made w hw hr

/-- A message is handed to the transport with packet `p` as its context. -/
theorem PendAt.send (h : PendAt T r s pending) (ha : Around p s s') (hp : p ∉ s.dev.sends)
    (hs : s'.dev.sends = s.dev.sends ++ [p]) {m : Msg}
    (hrtr : (s'.dev.pk p).context.proto = .rtr → IsRtr T (xf s' p) ⟨r, p, m, xf s' p, false⟩)
    (hlong : (s'.dev.pk p).context.proto = .long → IsWrite T (xf s' p) ⟨r, p, m, xf s' p, false⟩) :
    PendAt T r s' (pending ++ [⟨r, p, m, xf s' p, false⟩]) := by
  refine ⟨?_, fun w hw hr => ?_⟩
  · rw [List.filter_append, List.map_append, h.ctxs, hs]
    simp
  · rcases List.mem_append.1 hw with hw | hw
    · have hm : w.ctx ∈ s.dev.sends := by
        rw [← h.ctxs]
        exact List.mem_map_of_mem (List.mem_filter.2 ⟨hw, by simpa using hr⟩)
      have hne : w.ctx ≠ p := fun e => hp (e ▸ hm)
      rw [ha.xf hne, ha.pk _ hne]
      exact h.made w hw hr
    · rw [List.mem_singleton.1 hw]
      exact ⟨rfl, hrtr, hlong⟩

/-- The context of the first send with it goes with that send. -/
theorem erase_ctx {r : CInt} {c : PktId} {w : Wire} : ∀ {l : List Wire}, l.find? (fun v => v.src = r ∧ v.ctx = c) =
    some w →
    w ∈ l ∧ w.src = r ∧ w.ctx = c ∧
      ((l.erase w).filter fun v => v.src = r).map Wire.ctx = ((l.filter fun v => v.src = r).map Wire.ctx).erase c
  | [], h => by cases h
  | v :: l, h => by
    rw [List.find?_cons] at h
    split at h
    · rename_i hv
      cases h
      obtain ⟨h1, h2⟩ : w.src = r ∧ w.ctx = c := by simpa using hv
      refine ⟨List.mem_cons_self, h1, h2, ?_⟩
      simp [h1, h2]
    · rename_i hv
      obtain ⟨h1, h2, h3, h4⟩ := erase_ctx h
      have hne : v ≠ w := by
        rintro rfl
        simp [h2, h3] at hv
      refine ⟨List.mem_cons_of_mem _ h1, h2, h3, ?_⟩
      rw [List.erase_cons_tail (by simpa using hne)]
      by_cases hr : v.src = r
      · have hc : v.ctx ≠ c := fun e => by simp [hr, e] at hv
        rw [List.filter_cons_of_pos (by simpa using hr), List.filter_cons_of_pos (by simpa using hr), List.map_cons,
          List.map_cons, List.erase_cons_tail (by simpa using hc), h4]
      · rw [List.filter_cons_of_neg (by simpa using hr), List.filter_cons_of_neg (by simpa using hr), h4]

/-- Every context has a send. -/
theorem find_ctx {l : List Wire} {r : CInt} {c : PktId} (h : c ∈ (l.filter fun w => w.src = r).map Wire.ctx) :
    ∃ w, l.find? (fun w => w.src = r ∧ w.ctx = c) = some w := by
  obtain ⟨w, hw, rfl⟩ := List.mem_map.1 h
  obtain ⟨hw, hr⟩ := List.mem_filter.1 hw
  refine Option.isSome_iff_exists.1 (List.find?_isSome.2 ⟨w, hw, ?_⟩)
  simpa using hr

/-- The same, for the sends of a rank. -/
theorem PendAt.find (h : PendAt T r s pending) (hp : p ∈ s.dev.sends) :
    ∃ w, pending.find? (fun w => w.src = r ∧ w.ctx = p) = some w := by
  rw [← h.ctxs] at hp
  exact find_ctx hp

/-- The transport completes a send. -/
theorem PendAt.complete (h : PendAt T r s pending) {w : Wire}
    (hw : pending.find? (fun w => w.src = r ∧ w.ctx = p) = some w)
    (ha : Around p s s') (hn : s.dev.sends.Nodup) (hs : s'.dev.sends = s.dev.sends.erase p) :
    PendAt T r s' (pending.erase w) := by
  obtain ⟨-, -, -, hmap⟩ := erase_ctx hw
  have hctxs : ((pending.erase w).filter fun v => v.src = r).map Wire.ctx = s'.dev.sends := by rw [hmap, h.ctxs, hs]
  refine ⟨hctxs, fun v hv hr => ?_⟩
  have hm : v.ctx ∈ s'.dev.sends := by
    rw [← hctxs]
    exact List.mem_map_of_mem (List.mem_filter.2 ⟨hv, by simpa using hr⟩)
  have hne : v.ctx ≠ p := by
    intro e
    rw [hs, e] at hm
    exact hn.not_mem_erase hm
  rw [ha.xf hne, ha.pk _ hne]
  exact h.made v (List.mem_of_mem_erase hv) hr

end Rank

end Parties

end Lci.Server.Rendezvous
