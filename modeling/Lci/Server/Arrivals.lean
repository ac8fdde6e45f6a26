/-
The messages of a job: RTS and RTR arrive in packets that were posted, and the data of writes is put in memory. Each
is a step of the protocol of `Server.Rendezvous`, at the stage that the message stands for.
-/
import Lci.Server.Delivery

namespace Lci.Server.Rendezvous

open Lci.Hash Lci.Proto History Relation

/-! ## Stages and messages -/

namespace Stage

variable {σ : Stage} {q : PktId} {buf : Nat}

theorem asked_of_net (h : σ.net = .rts) : σ = .asked := by
  match σ, h with
  | .asked, _ => rfl
  | .written _ _ _ phase _, h => cases phase <;> cases h

theorem granted_of_net (h : σ.net = .rtr q buf) : ∃ rtr, σ = .granted q buf rtr := by
  match σ, h with
  | .granted q' buf' rtr, h =>
    cases h
    exact ⟨rtr, rfl⟩
  | .written _ _ _ phase _, h => cases phase <;> cases h

theorem posted_of_net (h : σ.net = .write q buf) : ∃ rtr ctx, σ = .written q buf rtr .posted ctx := by
  match σ, h with
  | .written q' buf' rtr .posted ctx, h =>
    cases h
    exact ⟨rtr, ctx, rfl⟩

theorem placed_of_net (h : σ.net = .imm q buf) : ∃ rtr ctx, σ = .written q buf rtr .placed ctx := by
  match σ, h with
  | .written q' buf' rtr .placed ctx, h =>
    cases h
    exact ⟨rtr, ctx, rfl⟩

end Stage

section Messages

variable {T : Nat → Transfer} {page : CInt → Nat} {bk : CInt → Backend} {x : Nat} {n : Net} {w : Wire}

/-- A message that is sent is an RTS or an RTR. -/
theorem Sails.send_cases (h : Sails T page bk x n w) {t : CInt} {word : BitVec 32} {size : Nat} {data : PkData}
    (hm : w.msg = .send t word size data) :
    (n = .rts ∧ w.src = (T x).org ∧ t = (T x).tgt ∧ word = makeProto (BitVec.ofNat 32 (T x).ep) .rts (T x).tag ∧
      ∃ v, data = .rdz v ∧ Carries (T x) x v) ∨
    ∃ q buf, n = .rtr q buf ∧ w.src = (T x).tgt ∧ t = (T x).org ∧ word = makeProto (BitVec.ofNat 32 (T x).ep) .rtr 0 ∧
      ∃ v, data = .rdz v ∧ Carries (T x) x v ∧ v.tgtAddr = .mem buf ∧
        v.commId = BitVec.ofNat 32 (pktOffset (page (T x).tgt) q) ∧ (bk (T x).tgt = .psm2 → IsKey v.rkey) := by
  cases h with
  | rts ctx r hc =>
    cases hm
    exact .inl ⟨rfl, rfl, rfl, rfl, r, rfl, hc⟩
  | rtr ctx r q buf hc h1 h2 h3 =>
    cases hm
    exact .inr ⟨q, buf, rfl, rfl, rfl, rfl, r, rfl, hc, h1, h2, h3⟩
  | write => cases hm
  | imm => cases hm

/-- A write has its data before it or behind it. -/
theorem Sails.rma_cases (h : Sails T page bk x n w) {t : CInt} {src : Nat} {addr : Buf} {rkey : BitVec 32} {size : Nat}
    {sid : BitVec 32} (hm : w.msg = .rma t src addr rkey size sid) :
    ∃ q buf, (n = if w.placed then .imm q buf else .write q buf) ∧ w.src = (T x).org ∧ t = (T x).tgt ∧ src = (T x).src ∧
      addr = .mem buf ∧ size = (T x).size ∧ sid = BitVec.ofNat 32 (pktOffset (page (T x).tgt) q) ∧
      (bk (T x).tgt = .psm2 → IsKey rkey ∧ w.placed = false) := by
  cases h with
  | rts => cases hm
  | rtr => cases hm
  | write ctx q buf rkey hk =>
    cases hm
    exact ⟨q, buf, rfl, rfl, rfl, rfl, rfl, rfl, rfl, fun hb => ⟨hk hb, rfl⟩⟩
  | imm ctx q buf rkey hb =>
    cases hm
    exact ⟨q, buf, rfl, rfl, rfl, rfl, rfl, rfl, rfl, fun hp => by rw [hb] at hp; cases hp⟩

/-- The data of a write is in place. -/
theorem Sails.place {q : PktId} {buf : Nat} (h : Sails T page bk x (.write q buf) w) (hb : bk (T x).tgt = .ibv) :
    Sails T page bk x (.imm q buf) { w with placed := true } := by
  cases h with
  | write ctx q buf rkey hk => exact .imm ctx q buf rkey hb

end Messages

/-! ## A message in a packet -/

/-- Packet `p` of `s` takes a message of rank `src`, `lci_serve_recv` makes `d` of it, and `s'` is the state after. -/
structure Serves (env : Env) (s : Sys) (p : PktId) (src : CInt) (word : BitVec 32) (data : PkData) (D d : Dev)
    (s' : Sys) :
    Prop where
  good : Good s'
  unused : Unused s p
  does : Does p s.dev D [] [] []
  data : (D.pk p).data = data
  req : D.reqPtr p = .own p
  rank : (D.reqOf p).rank = src
  rhandle : (D.reqOf p).rhandle = src
  kinds : ∀ e, D.build.hasAr (D.eps e).ar = true
  call : lciServeRecv env D p word = some d
  next : ∃ n, s.next { d with recvPosted := n } = s'

/-- A device whose packet `p` has received a message: its data is the message, its request its own. -/
def received (d : Dev) (l : List Post) (k : Int) (p : PktId) (src : CInt) (size : Nat) (data : PkData) : Dev :=
  ((({ d with posted := l, recvPosted := k } : Dev).setData p data).setReqPtr p (.own p)).setReq (.own p)
    fun q => { q with rank := src, rhandle := src, size := size }

theorem serves_received {env : Env} {s s' : Sys} {p : PktId} {src : CInt} {word : BitVec 32} {data : PkData}
    {size : Nat}
    {k : Int} {l : List Post} {d : Dev} (hg : Good s) (hp : p ∈ s.dev.posted.filterMap Post.ctx) (hg' : Good s')
    (hd : lciServeRecv env (received s.dev l k p src size data) p word = some d)
    (hnext : ∃ n, s.next { d with recvPosted := n } = s') :
    Serves env s p src word data (received s.dev l k p src size data) d s' := by
  have hdoes : Does p s.dev (received s.dev l k p src size data) [] [] [] :=
    (does_posted s.dev p l k s.dev.deadlock).after ((does_setData _ p data).after ((does_setCtx _ p _).after
      (does_setReq _ (.inl rfl))))
  have hpk : (received s.dev l k p src size data).pk p = ⟨{ (s.dev.pk p).context with
      req := .own p, reqS := { (s.dev.pk p).context.reqS with rank := src, rhandle := src, size := size } }, data⟩ := by
    simp [received, Dev.setReq, Dev.setReqPtr, Dev.setCtx, Dev.setData]
  have hptr : (received s.dev l k p src size data).reqPtr p = .own p := by
    unfold Dev.reqPtr
    rw [hpk]
  have hreq : (received s.dev l k p src size data).reqOf p = { (s.dev.pk p).context.reqS with
      rank := src, rhandle := src, size := size } := by
    unfold Dev.reqOf
    rw [hptr]
    exact congrArg (fun x : Packet => x.context.reqS) hpk
  exact ⟨hg', hg.unused_posted hp, hdoes, by rw [hpk], hptr, by rw [hreq], by rw [hreq], hg.kinds, hd, hnext⟩

theorem serves_ibv (env : Env) (size : Nat) (data : PkData) {s : Sys} {p : PktId} {src : CInt} {word : BitVec 32}
    (hg : Good s) (hb : s.dev.backend = .ibv) (hp : p ∈ s.dev.posted.filterMap Post.ctx) (ha : Arrives s.dev word src) :
    ∃ s' D d, Server.step s (.completed env ⟨p, .recv, src, size, word, data⟩) = some s' ∧
      Serves env s p src word data D d s' := by
  obtain ⟨s', hs', hg', -⟩ := hg.step (o := .completed env ⟨p, .recv, src, size, word, data⟩) ⟨hb, hp, ha⟩
    (by simp [Server.Sound])
  obtain ⟨d, hd, hnext⟩ := Option.map_eq_some_iff.1 hs'
  exact ⟨s', _, d, hs', serves_received hg hp hg' hd ⟨d.recvPosted, hnext⟩⟩

theorem serves_psm2 (env : Env) (size : Nat) (data : PkData) {s : Sys} {p : PktId} {src : CInt} {word : BitVec 32}
    (hg : Good s) (hb : s.dev.backend = .psm2) (hp : eagerPost p ∈ s.dev.posted) (ha : Arrives s.dev word src)
    (hz : KeyZeroFree s.dev (some (.recv (eagerPost p) ⟨psmTagTsendData word src, src, size, data⟩))) :
    ∃ s' D d, Server.step s (.matched env (eagerPost p) ⟨psmTagTsendData word src, src, size, data⟩) = some s' ∧
      Serves env s p src word data D d s' := by
  have hkey : ¬ IsKey PSM_RECV_DATA := by decide
  have htype : PSM_RECV_DATA &&& 0xf0000000 = PSM_RECV_DATA := by decide
  obtain ⟨s', hs', hg', -⟩ := hg.step (o := .matched env (eagerPost p) ⟨psmTagTsendData word src, src, size, data⟩)
    ⟨hb, ⟨hp, rfl, .send src (fun _ => 0) 0 word size data (by simp [psm2Wire])⟩, fun _ => ha, fun h => absurd h hkey⟩
    ⟨hz, fun h => absurd h hkey⟩
  have hctx : p ∈ s.dev.posted.filterMap Post.ctx := List.mem_filterMap.2 ⟨_, hp, rfl⟩
  obtain ⟨d, hd, hnext⟩ := Option.map_eq_some_iff.1 hs'
  unfold psm2Serve psm2ServeRecv at hd
  dsimp only at hd
  rw [if_pos (show (psmTagTsendData word src).tag2 &&& 0xf0000000 = PSM_RECV_DATA from htype)] at hd
  obtain ⟨q, hq, hd⟩ := Option.bind_eq_some_iff.1 hd
  cases hq
  obtain ⟨d₁, hd₁, hd⟩ := Option.bind_eq_some_iff.1 hd
  cases hd
  have hans : psm2Answers s.dev ⟨psmTagTsendData word src, src, size, data⟩ = none := if_neg fun h => hkey h.1
  rw [hans] at hnext
  exact ⟨s', received s.dev (s.dev.posted.erase (eagerPost p)) s.dev.recvPosted p src size data, d₁, hs',
    serves_received hg hctx hg' hd₁ ⟨_, hnext⟩⟩

/-- A message that arrives is served, on both backends. -/
theorem serves_arrive {j : Job} {env : Env} {p : PktId} {w : Wire} {t : CInt} {word : BitVec 32} {size : Nat}
    {data : PkData} (hg : Good (j.node w.dst)) (hw : w.msg = .send t word size data) (ha : Allowed j (.arrive env p w))
    (hs : Sound j (.arrive env p w)) (hsrc : w.src.toNat < 2 ^ 31) (hk : protoOfBits (protoGetProto word) ≠ .long) :
    ∃ op s' D d, recvOp (j.node w.dst).dev.backend env p w = some op ∧ Server.step (j.node w.dst) op = some s' ∧
      Serves env (j.node w.dst) p w.src word data D d s' := by
  obtain ⟨-, -, ha⟩ := ha
  have harr : Arrives (j.node w.dst).dev word w.src := ⟨hk, hsrc, hg.kinds _⟩
  cases hb : (j.node w.dst).dev.backend with
  | ibv =>
    rw [hb] at ha
    obtain ⟨s', D, d, h1, h2⟩ := serves_ibv env size data hg hb ha harr
    exact ⟨_, s', D, d, by unfold recvOp; rw [hw], h1, h2⟩
  | psm2 =>
    rw [hb] at ha
    have hop : recvOp .psm2 env p w =
        some (.matched env (eagerPost p) ⟨psmTagTsendData word w.src, w.src, size, data⟩) := by
      unfold recvOp
      rw [hw]
    obtain ⟨s', D, d, h1, h2⟩ := serves_psm2 env size data hg hb ha harr
      (hs _ _ (by rw [hb]; exact hop))
    exact ⟨_, s', D, d, hop, h1, h2⟩

section Invariant

variable {T : Nat → Transfer} {j₀ j : Job} {st : Nat → Stage}

/-! ## RTS -/

/-- The count of the posted receives has no part in a transfer. -/
theorem does_count {p : PktId} {d d' : Dev} {cs : List PktId} {ms : List Msg} {vs : List Event}
    (h : Does p d d' cs ms vs) (n : Int) :
    Does p d { d' with recvPosted := n } cs ms vs :=
  ⟨h.pk, h.slots, h.req, h.mem, h.fixed, h.sends, h.out, h.events⟩

theorem grants_count {p : PktId} {ep : Nat} {d d' : Dev} {o : CInt} {buf : Nat} {v : Rdz} (h : Grants p ep d d' o buf v)
    (n : Int) :
    Grants p ep d { d' with recvPosted := n } o buf v :=
  ⟨does_count h.does n, h.rts, h.tgtAddr, h.commId, h.key, h.data, h.proto, h.buffer⟩

/-- The packet of an RTS is stored. -/
theorem Inv.store (h : Inv T j₀ j st) (flight : List Wire) {r : CInt} {s₁ s : Sys} (hb : Base T j st r s₁) (hg : Good s)
    {x : Nat} {p : PktId} {t : Table Ptr} {b : Fin (2 ^ tblBitSize)} {m : CInt} {n : Int}
    (hs : s = { s₁ with dev := { s₁.dev.setTbl (T x).ep t with recvPosted := n } })
    (hnew : NewBucket s₁.dev (T x).ep t b
      (entries s₁.dev (T x).ep b ++ [⟨tagOf (lcMakeKey (T x).org m) .server, .pkt p⟩]))
    (hm : m.toNat < 2 ^ 16) (hx : (T x).tgt = r) (hu : Unused s₁ p) (hst : st x = .asked)
    (hc : Carries (T x) x (s₁.dev.pk p).data.view) (hproto : (s₁.dev.pk p).context.proto = .rts)
    (hn : NetOk T (fun r => (j₀.node r).dev.pageSize) (fun r => (j₀.node r).dev.backend) flight
      (Function.update (fun y => (st y).net) x .none)) :
    Inv T j₀ (({ j with flight := flight } : Job).moves r s []) (Function.update st x (.stored p)) ∧
      (({ j with flight := flight } : Job).moves r s []).log = j.log := by
  have hw : newWires r (j.node r) s = [] := (hb.newWires s).trans (newWires_same (by rw [hs]; rfl) r)
  have hv : newEvents r (j.node r) s = [] := (hb.newEvents s).trans (newEvents_same (by rw [hs]; rfl) r)
  have ha : Around p s₁ s := by
    subst hs
    exact ⟨fun _ _ => rfl, fun _ => ⟨rfl, rfl⟩, fun _ _ => Iff.rfl, fun _ _ => Iff.rfl⟩
  have horg : Stage.org (.stored p) = (st x).org := by rw [hst]; rfl
  have hfix : s.dev.pageSize = (j.node r).dev.pageSize ∧ s.dev.backend = (j.node r).dev.backend ∧
      ∀ e, (s.dev.eps e).ar = ((j.node r).dev.eps e).ar := by
    subst hs
    exact ⟨hb.fixed.1, hb.fixed.2.1, fun e => (setTbl_cq s₁.dev _ t e).2.trans (hb.fixed.2.2 e)⟩
  -- the table has one entry more
  have hent : ∀ e c, ∀ y ∈ entries s.dev e c, y ∈ entries s₁.dev e c ∨
      (e = (T x).ep ∧ y = ⟨tagOf (lcMakeKey (T x).org m) .server, .pkt p⟩) := by
    intro e c y hy
    have hy' : y ∈ entries (s₁.dev.setTbl (T x).ep t) e c := by subst hs; exact hy
    rw [hnew.entries] at hy'
    split_ifs at hy' with hec
    · obtain ⟨rfl, rfl⟩ := hec
      simpa using hy'
    · exact .inl hy'
  have hsends : s.dev.sends = s₁.dev.sends := by subst hs; rfl
  have howed : s.owed = s₁.owed := by subst hs; rfl
  have hpk : s.dev.pk = s₁.dev.pk := by subst hs; rfl
  have hmem : s.dev.mem = s₁.dev.mem := by subst hs; rfl
  have hxf : ∀ q, xf s q = xf s₁ q := fun q => by rw [xf, hpk, xf]
  refine ⟨h.moves flight j.pending _ hg hfix ?_ (.inl hx) ?_ (.inr horg) ?_ (fun _ _ => rfl) ?_
    (hmem.trans hb.mem) fun _ _ _ => rfl, by simp [Job.moves, hv]⟩
  · refine hb.tgt.update ha hx (.inl ⟨hu.owed, hu.sends⟩) (.inl (by rw [hst]; rfl)) (fun e c y hy => ?_) (fun hp => ?_)
      fun q buf a b ht => by cases ht
    · rcases hent e c y hy with hy | ⟨rfl, rfl⟩
      · exact .inl ⟨hy, hu.slots e c y hy⟩
      · exact .inr ⟨rfl, rfl, by rw [hxf]; exact hc.2.2.2.2, rfl, by rw [hpk]; exact hproto, by rw [hpk]; exact hc,
          m, hm, rfl⟩
    · rw [howed, hsends] at hp
      rcases hp with hp | ⟨hp, -⟩
      · exact absurd hp hu.owed
      · exact absurd hp hu.sends
  · rw [horg, Function.update_eq_self]
    exact hb.org.frame ha (fun hp => absurd hp hu.sends) fun hp => absurd (hsends ▸ hp) hu.sends
  · rw [hw, List.append_nil]
    exact hb.pend.frame hsends fun q _ => ⟨hxf q, by rw [hpk]⟩
  · rw [hw, List.append_nil]
    exact hn

variable (T j₀) in
/-- The transfers are between ranks, on endpoints that all ranks have opened, EXP or DYN, and of sizes that a write
has. -/
structure Valid : Prop where
  size : ∀ x, (T x).size < 2 ^ 32
  org : ∀ x, (T x).org.toNat < 2 ^ 31
  tgt : ∀ x, (T x).tgt.toNat < 2 ^ 31
  ep : ∀ x, (T x).ep < 2 ^ 14
  kind : ∀ x r, ((j₀.node r).dev.eps (T x).ep).ar ≠ .imm

theorem Valid.rmaLen (h : Valid T j₀) (x : Nat) : rmaLen (T x).size = (T x).size := Nat.mod_eq_of_lt (h.size x)

theorem ep_toNat {ep : Nat} (h : ep < 2 ^ 14) : (BitVec.ofNat 32 ep).toNat = ep := by
  rw [BitVec.toNat_ofNat, Nat.mod_eq_of_lt (by omega)]

/-- The endpoint in the word of a message. -/
theorem rgid_toNat {ep : Nat} (h : ep < 2 ^ 14) (k : LcProto) (m : CInt) :
    (protoGetRgid (makeProto (BitVec.ofNat 32 ep) k m)).toNat = ep := by
  rw [protoGetRgid_makeProto (by rw [ep_toNat h]; exact h), ep_toNat h]

theorem kind_of_word (ep : Nat) (k : LcProto) (m : CInt) :
    protoOfBits (protoGetProto (makeProto (BitVec.ofNat 32 ep) k m)) = k := by
  rw [protoGetProto_word, protoOfBits_bits]

/-- The endpoint of a transfer, while a message of it is served. -/
theorem Inv.serves_kind (h : Inv T j₀ j st) (hT : Valid T j₀) {r : CInt} {env : Env} {p : PktId} {src : CInt}
    {word : BitVec 32}
    {data : PkData} {D d : Dev} {s : Sys} (hS : Serves env (j.node r) p src word data D d s) (x : Nat) :
    D.build.hasAr (D.eps (T x).ep).ar = true ∧ (D.eps (T x).ep).ar ≠ .imm := by
  refine ⟨hS.kinds _, ?_⟩
  rw [hS.does.fixed.2.2, (h.fixed r).2.2]
  exact hT.kind x r

/-- An RTS is served: it is stored, or granted the buffer of a receive or one that is allocated. -/
theorem Inv.serveRts (h : Inv T j₀ j st) (hT : Valid T j₀) {x : Nat} {env : Env} {p : PktId} {v : Rdz} {D d : Dev}
    {s : Sys}
    (hS : Serves env (j.node (T x).tgt) p (T x).org (makeProto (BitVec.ofNat 32 (T x).ep) .rts (T x).tag)
    (.rdz v) D d s) (hc : Carries (T x) x v) (hst : st x = .asked) {w : Wire} (hw : w ∈ j.flight) (hwx : w.xfer = x) :
    Follows T j₀ j st (some (({ j with flight := j.flight.erase w } : Job).moves (T x).tgt s [])) := by
  obtain ⟨n, hnext⟩ := hS.next
  have hb : Base T j st (T x).tgt { j.node (T x).tgt with dev := D } := h.base hS.does hS.unused rfl
  -- a request that waits under this key was posted for the origin of the transfer
  have hslots : ∀ b, ∀ y ∈ entries D (T x).ep b, ∀ u, y.val = .req u → y.tag = tagOf (lcMakeKey (D.reqOf p).rank
      (protoGetMeta (makeProto (BitVec.ofNat 32 (T x).ep) .rts (T x).tag))) .client →
      (D.req u).rhandle = (T x).org ∧ ∃ buf, (D.req u).buffer = .mem buf := by
    intro b y hy u hv ht
    obtain ⟨rank, tag, h1, h2, h3, h4⟩ := hb.tgt.asked _ b y hy u hv
    rw [hS.rank, h2] at ht
    exact ⟨h3.trans (rank_of_tag (hT.org x) (protoGetMeta_lt _) h1 ht), h4⟩
  rcases does_serveRts (rgid_toNat (hT.ep x) _ _) (kind_of_word _ _ _) hS.req
    (by rw [hS.rank]; exact hT.org x) hS.rhandle
    (h.serves_kind hT hS x) hslots hS.call with ⟨E, hE⟩ | ⟨buf, u, hgr⟩
  · -- no receive waits: the RTS is stored
    obtain ⟨t, rfl, hnew⟩ := hE.table
    have hEd : Does p (j.node (T x).tgt).dev E [] [] [] := hS.does.after hE.does
    have hbE : Base T j st (T x).tgt { j.node (T x).tgt with dev := E } := h.base hEd hS.unused rfl
    rw [hS.rank] at hnew
    have hs : s = { j.node (T x).tgt with dev := { E.setTbl (T x).ep t with recvPosted := n } } := by
      rw [← hnext]
      exact (hbE.next rfl _).trans (next_same rfl)
    have hu : Unused { j.node (T x).tgt with dev := E } p := ⟨hS.unused.owed, by rw [hbE.sends]; exact hS.unused.sends,
      fun e b y hy => hS.unused.slots e b y (hEd.slots e b y hy)⟩
    have hcE : Carries (T x) x (E.pk p).data.view := by
      rw [hE.data, hS.data]
      exact hc
    obtain ⟨hI, hl⟩ := h.store (j.flight.erase w) hbE hS.good hs hnew (protoGetMeta_lt _) rfl hu hst hcE hE.proto
      (by rw [← hwx]; exact h.net.drop hw)
    exact Follows.of_next (k := []) (l := []) hI (by rw [hst]; exact .store p) (by simp) (by rw [hl]; simp)
  · -- a receive waits: the RTS is granted its buffer
    have hdev : s.dev = { d with recvPosted := n } := by rw [← hnext]; rfl
    replace hgr := grants_count hgr n
    rw [← hdev] at hgr
    have hs : ({ j.node (T x).tgt with dev := D } : Sys).next s.dev = s := by
      rw [hdev, ← hb.next rfl]
      exact hnext
    have hcD : Carries (T x) x (D.pk p).data.view := by
      rw [hS.data]
      exact hc
    obtain ⟨hI, hl⟩ := h.grant (j.flight.erase w) hb hS.good hgr hs rfl (.inl hst) hcD fun w' hw' => by
      rw [← hwx] at hw' ⊢
      exact h.net.turn hw hw'
    exact Follows.of_next (k := []) (l := []) hI (by rw [hst]; exact .grant p buf) (by simp) (by rw [hl]; simp)

/-! ## RTR -/

/-- An RTR is served: the write that it asks for is posted, with the packet of the RTR as its context. -/
theorem Inv.serveRtr (h : Inv T j₀ j st) (hT : Valid T j₀) {x buf : Nat} {env : Env} {p q : PktId} {v : Rdz} {D d : Dev}
    {s : Sys}
    (hS : Serves env (j.node (T x).org) p (T x).tgt (makeProto (BitVec.ofNat 32 (T x).ep) .rtr 0) (.rdz v) D d s)
    (hc : Carries (T x) x v) (haddr : v.tgtAddr = .mem buf)
    (hcomm : v.commId = BitVec.ofNat 32 (pktOffset (j₀.node (T x).tgt).dev.pageSize q))
    (hkey : (j₀.node (T x).tgt).dev.backend = .psm2 → IsKey v.rkey) {rtr : Bool} (hst : st x = .granted q buf rtr)
    {w : Wire} (hw : w ∈ j.flight) (hwx : w.xfer = x) :
    Leads T j₀ j st x (.written q buf rtr .posted (some p))
      (some (({ j with flight := j.flight.erase w } : Job).moves (T x).org s [])) := by
  obtain ⟨n, hnext⟩ := hS.next
  have hb : Base T j st (T x).org { j.node (T x).org with dev := D } := h.base hS.does hS.unused rfl
  obtain ⟨hd, hdata, hproto⟩ :=
    does_serveRtr (rgid_toNat (hT.ep x) _ _) (kind_of_word _ _ _) hS.req (h.serves_kind hT hS x) hS.call
  obtain ⟨hd, howed⟩ :=
    next_of_does (s := { j.node (T x).org with dev := D }) (does_count hd n) ((hb.next rfl _).symm.trans hnext)
  obtain ⟨c1, c2, c3, c4, c5⟩ := hc
  have hdev : s.dev.pk = d.pk := by rw [← hnext]; rfl
  rw [hS.rhandle, hS.data] at hd
  rw [← hdev] at hproto hdata
  rw [hS.data] at hdata
  replace hd : Does p D s.dev [p] [.rma (T x).tgt (T x).src (.mem buf) v.rkey (T x).size v.commId] [] := by
    rw [← c3, ← c4, ← haddr]
    exact hd
  replace howed : s.owed = (j.node (T x).org).owed := howed.trans (List.append_nil _)
  have hxf : xf s p = x := by rw [xf, hdata]; exact c5
  have hns : p ∉ D.sends := by rw [show D.sends = _ from hb.sends]; exact hS.unused.sends
  have hu : Unused { j.node (T x).org with dev := D } p :=
    ⟨hS.unused.owed, hns, fun e b y hy => hS.unused.slots e b y (hS.does.slots e b y hy)⟩
  have ha : Around p { j.node (T x).org with dev := D } s := around_of_does hd (by simp) fun q _ => by rw [howed]
  have hsend : p ∈ s.dev.sends := by rw [hd.sends]; simp
  have hwire : newWires (T x).org (j.node (T x).org) s =
    [⟨(T x).org, p, .rma (T x).tgt (T x).src (.mem buf) v.rkey (T x).size
      v.commId, xf s p, false⟩] :=
        (hb.newWires s).trans (newWires_of_does (s := { j.node (T x).org with dev := D }) hd _)
  have hv : newEvents (T x).org (j.node (T x).org) s = [] :=
    (hb.newEvents s).trans (newEvents_of_does (s := { j.node (T x).org with dev := D }) hd _)
  obtain ⟨f1, f2, f3⟩ := hd.fixed
  obtain ⟨b1, b2, b3⟩ := hb.fixed
  have htgt : Stage.tgt (.written q buf rtr .posted (some p)) = (st x).tgt := by
    rw [hst]
    simp [Stage.tgt]
  refine Leads.of_next (k := []) (l := []) ?_ (by rw [hst]; exact .respond q buf rtr p) (by simp)
    (by simp [Job.moves, hv])
  refine h.moves (j.flight.erase w) j.pending _ hS.good ⟨f1.trans b1, f2.trans b2, fun e => (f3 e).trans (b3 e)⟩
    ?_ (.inr htgt) ?_ (.inl rfl) ?_ (fun _ _ => rfl) ?_ (hd.mem.trans hb.mem) fun _ _ _ => rfl
  · rw [htgt, Function.update_eq_self]
    exact hb.tgt.frame ha hd.slots hu (by rw [howed]; exact hS.unused.owed) fun _ => by rw [hproto]; simp
  · refine hb.org.update ha rfl (.inl hns) (.inl (by rw [hst]; rfl)) (fun _ _ => ⟨rfl, hxf, ?_⟩) fun q' hq' => ?_
    · rw [hdata]
      exact ⟨c1, c2, c3, c4, c5⟩
    · cases hq'
      exact ⟨rfl, hsend, hproto, hxf⟩
  · rw [hwire]
    refine hb.pend.send ha hns hd.sends (fun hk => ?_) fun _ => ?_
    · rw [hproto] at hk
      cases hk
    · rw [hxf]
      exact ⟨rfl, rfl, _, _, _, rfl⟩
  · rw [hwire, hxf, hcomm]
    subst hwx
    exact h.net.turn hw (.write p q buf v.rkey hkey)

theorem Job.arrive_eq {env : Env} {p : PktId} {w : Wire} {op : Op} {s : Sys}
    (hop : recvOp (j.node w.dst).dev.backend env p w = some op) (hs : Server.step (j.node w.dst) op = some s) :
    j.step T (.arrive env p w) = some (({ j with flight := j.flight.erase w } : Job).moves w.dst s []) := by
  unfold Job.step
  dsimp only
  rw [hop, Option.bind_some, hs, Option.map_some]

/-- An RTR arrives. -/
theorem Inv.arriveRtr (h : Inv T j₀ j st) (hT : Valid T j₀) {env : Env} {p : PktId} {w : Wire}
    (ha : Allowed j (.arrive env p w)) (hs : Sound j (.arrive env p w)) {q : PktId} {buf : Nat} {rtr : Bool}
    (hst : st w.xfer = .granted q buf rtr) :
    Leads T j₀ j st w.xfer (.written q buf rtr .posted (some p)) (j.step T (.arrive env p w)) := by
  obtain ⟨hw, ⟨t, word, size, data, hmsg⟩, -⟩ := id ha
  have hdst : w.dst = t := by
    unfold Wire.dst
    rw [hmsg]
  rcases (h.net.sails w hw).send_cases hmsg with ⟨hn, -⟩ | ⟨q', buf', hn, hsrc, rfl, rfl, v, rfl, hc, h1, h2, h3⟩
  · rw [hst] at hn
    cases hn
  · rw [hst] at hn
    cases hn
    obtain ⟨op, s, D, d, hop, hstep, hS⟩ :=
      serves_arrive (h.good _) hmsg ha hs (hsrc ▸ hT.tgt _) (by rw [kind_of_word]; simp)
    rw [Job.arrive_eq hop hstep]
    rw [hdst, hsrc] at hS
    rw [hdst]
    exact h.serveRtr hT hS hc h1 h2 h3 hst hw rfl

theorem Inv.arrive (h : Inv T j₀ j st) (hT : Valid T j₀) {env : Env} {p : PktId} {w : Wire}
    (ha : Allowed j (.arrive env p w))
    (hs : Sound j (.arrive env p w)) : Follows T j₀ j st (j.step T (.arrive env p w)) := by
  obtain ⟨hw, ⟨t, word, size, data, hmsg⟩, -⟩ := id ha
  have hdst : w.dst = t := by
    unfold Wire.dst
    rw [hmsg]
  rcases (h.net.sails w hw).send_cases hmsg with ⟨hn, hsrc, rfl, rfl, v, rfl, hc⟩ | ⟨q, buf, hn, -⟩
  · obtain ⟨op, s, D, d, hop, hstep, hS⟩ :=
      serves_arrive (h.good _) hmsg ha hs (hsrc ▸ hT.org _) (by rw [kind_of_word]; simp)
    rw [Job.arrive_eq hop hstep]
    rw [hdst, hsrc] at hS
    rw [hdst]
    exact h.serveRts hT hS hc (Stage.asked_of_net hn) hw rfl
  · obtain ⟨rtr, hst⟩ := Stage.granted_of_net hn
    exact (h.arriveRtr hT ha hs hst).follows

/-! ## Writes -/

/-- The transport writes to memory. -/
theorem good_mem {s : Sys} (h : Good s) (mem : Nat → Byte) : Good { s with dev := { s.dev with mem := mem } } := by
  obtain ⟨loc, use, ho, hh⟩ := h.own
  have ht := touch_mem s.dev LC_SERVER_NUM_PKTS mem
  exact h.stays ht.frame.stays ⟨loc, use, ho.touch (ho.range _ le_rfl) ht, hh⟩

/-- The bytes of a write are those of its transfer. -/
theorem Inv.bytes_eq (h : Inv T j₀ j st) (hT : Valid T j₀) {w : Wire} {x : Nat} {t : CInt} {addr : Buf}
    {rkey sid : BitVec 32} (hm : w.msg = .rma t (T x).src addr rkey (T x).size sid) (hsrc : w.src = (T x).org) :
    j.bytes w = payload T (start j₀) j.log x := by
  unfold Job.bytes payload
  rw [hm, hsrc, ← h.mem]
  dsimp only
  rw [hT.rmaLen]

/-- The data of a write is put in place. -/
theorem Inv.place (h : Inv T j₀ j st) (hT : Valid T j₀) {w : Wire} (ha : Allowed j (.write w)) {q : PktId} {buf : Nat}
    {rtr : Bool} {ctx : Option PktId} (hst : st w.xfer = .written q buf rtr .posted ctx) :
    Leads T j₀ j st w.xfer (.written q buf rtr .placed ctx) (j.step T (.write w)) := by
  obtain ⟨hw, ⟨t, src, addr, rkey, size, sid, hmsg⟩, hplaced, hbk⟩ := ha
  rw [show w.dst = t by rw [Wire.dst, hmsg]] at hbk
  obtain ⟨q', buf', hn, hsrc, rfl, rfl, rfl, rfl, hsid, hkey⟩ := (h.net.sails w hw).rma_cases hmsg
  rw [hplaced] at hn
  obtain ⟨rfl, rfl⟩ : q = q' ∧ buf = buf' := by
    rw [hst] at hn
    simp only [Stage.net, Phase.net] at hn
    cases hn
    exact ⟨rfl, rfl⟩
  have hbytes := h.bytes_eq hT hmsg hsrc
  generalize hx : w.xfer = x at *
  have hstep : j.step T (.write w) =
    some (({ j with flight := j.flight.erase w ++ [{ w with placed := true }] } : Job).moves (T x).tgt
      { j.node (T x).tgt with
        dev := { (j.node (T x).tgt).dev with
          mem := writeMem (j.node (T x).tgt).dev.mem buf (payload T (start j₀) j.log x) } }
      [.wrote (T x).tgt buf (payload T (start j₀) j.log x) x]) := by
    unfold Job.step
    simp [hmsg, Job.moves, newWires, newEvents, wroteRec, hbytes, hx]
  have htgt : Stage.tgt (.written q buf rtr .placed ctx) = (st x).tgt := by
    rw [hst]
    simp [Stage.tgt]
  have horg : Stage.org (.written q buf rtr .placed ctx) = (st x).org := by rw [hst]; rfl
  have ht := h.tgt (T x).tgt
  have ho := h.org (T x).tgt
  have hp := h.pend (T x).tgt
  rw [hstep]
  refine Leads.of_next (k := [.wrote (T x).tgt buf (payload T (start j₀) j.log x) x]) (l := []) ?_
    (by rw [hst]; exact .write q buf rtr ctx) (by simp) (by simp [Job.moves, newEvents])
  refine h.moves _ j.pending _ (good_mem (h.good _) _) ⟨rfl, rfl, fun _ => rfl⟩ ?_ (.inr htgt) ?_ (.inr horg) ?_
    (fun _ _ => rfl) ?_
    ?_ fun r' hr' m => ?_
  · rw [htgt, Function.update_eq_self]
    exact ⟨ht.stored, ht.asked, ht.waits, ht.waiting⟩
  · rw [horg, Function.update_eq_self]
    exact ⟨ho.writes, ho.holds⟩
  · rw [newWires_same (by rfl), List.append_nil]
    exact ⟨hp.ctxs, hp.made⟩
  · rw [newWires_same (by rfl), List.append_nil]
    subst hx
    have hsails := h.net.sails w hw
    rw [hn] at hsails
    exact h.net.turn hw (hsails.place ((h.fixed _).2.1.symm.trans hbk))
  · simp [replay, Rec.apply]
  · simp [replay, Rec.apply, hr'.symm]

theorem Inv.write (h : Inv T j₀ j st) (hT : Valid T j₀) {w : Wire} (ha : Allowed j (.write w)) :
    Follows T j₀ j st (j.step T (.write w)) := by
  obtain ⟨hw, ⟨t, src, addr, rkey, size, sid, hmsg⟩, hplaced, -⟩ := id ha
  obtain ⟨q, buf, hn, -⟩ := (h.net.sails w hw).rma_cases hmsg
  rw [hplaced] at hn
  obtain ⟨rtr, ctx, hst⟩ := Stage.posted_of_net hn
  exact (h.place hT ha hst).follows

end Invariant

end Lci.Server.Rendezvous
