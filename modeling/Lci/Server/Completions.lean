/-
What ends a rendezvous: the immediate of a write arrives, and sends are completed. The packet of the target waits
for both the send of its RTR and the immediate, in either order, and the event that comes last raises its completion.
-/
import Lci.Server.Arrivals

namespace Lci.Server.Rendezvous

open Lci.Hash Lci.Proto History Relation

section Invariant

variable {T : Nat → Transfer} {j₀ j : Job} {st : Nat → Stage}

/-! ## Packets that wait -/

/-- `s₁` is `s` up to what is handed to the transport, what is owed, and the memory. -/
structure Near (s s₁ : Sys) : Prop where
  pk : s₁.dev.pk = s.dev.pk
  req : s₁.dev.req = s.dev.req
  eps : s₁.dev.eps = s.dev.eps
  out : s₁.dev.out = s.dev.out
  events : s₁.dev.events = s.dev.events
  page : s₁.dev.pageSize = s.dev.pageSize
  backend : s₁.dev.backend = s.dev.backend

namespace Near

variable {s s₁ s' : Sys} {q : PktId} {vs : List Event}

theorem around (h : Near s s₁) (hd : Does q s₁.dev s'.dev [] [] vs) (ho : s'.owed = s₁.owed)
    (hsends : ∀ p, p ≠ q → (p ∈ s₁.dev.sends ↔ p ∈ s.dev.sends)) (howed : ∀ p, p ≠ q → (p ∈ s₁.owed ↔ p ∈ s.owed)) :
    Around q s s' := by
  refine ⟨fun p hp => (hd.pk p hp).trans (congrFun h.pk p), fun u => ?_, fun p hp => ?_, fun p hp => ?_⟩
  · rw [← h.req]
    exact hd.req u
  · rw [hd.sends, List.append_nil]
    exact hsends p hp
  · rw [ho]
    exact howed p hp

theorem slots (h : Near s s₁) (hd : Does q s₁.dev s'.dev [] [] vs) (e : Nat) (c : Fin (2 ^ tblBitSize)) :
    ∀ y ∈ entries s'.dev e c, y ∈ entries s.dev e c := by
  intro y hy
  have := hd.slots e c y hy
  unfold entries at this ⊢
  rwa [h.eps] at this

end Near

theorem neutral_of_isHandler {v : Event} (h : v.IsHandler) (r : CInt) (b : Buf) : (Rec.event r v b).Neutral := by
  cases v with
  | handler => trivial
  | _ => exact h.elim

variable (T) in
/-- Rank `r` has counted off an event that packet `q` waited for, and now it waits for those of `a` and `b`; when it
waits for none, its completion event is raised. -/
structure Ticked (j : Job) (st : Nat → Stage) (r : CInt) (x : Nat) (q : PktId) (buf : Nat) (a b : Bool) (s₁ s : Sys) :
    Prop where
  around : Around q (j.node r) s
  tgt : TgtAt T r s (Function.update (fun y => (st y).tgt) x (if a || b then .waiting q buf a b else .none))
  org : OrgAt T r s fun y => (st y).org
  sends : s.dev.sends = s₁.dev.sends
  kept : ∀ p ∈ s.dev.sends, xf s p = xf (j.node r) p ∧ (s.dev.pk p).context.proto = ((j.node r).dev.pk p).context.proto
  wires : newWires r (j.node r) s = []
  events : ∃ hs, (∀ v ∈ hs, v.Neutral) ∧ if a || b then newEvents r (j.node r) s = [] else
    ∃ ep rp data, data.view.xfer = x ∧ newEvents r (j.node r) s = .event r (.completed ep rp data) (.mem buf) :: hs
  mem : s.dev.mem = s₁.dev.mem
  fixed : s.dev.pageSize = (j.node r).dev.pageSize ∧ s.dev.backend = (j.node r).dev.backend ∧
    ∀ e, (s.dev.eps e).ar = ((j.node r).dev.eps e).ar

/-- What counting an event off does, before a packet is returned to the pool. -/
theorem does_tick {env : Env} {d₁ d : Dev} {q : PktId} (hr : d₁.reqPtr q = .own q ∨ ∃ u, d₁.reqPtr q = .user u)
    (h : decRef env d₁ q = some d) (pool : Pool) : ∃ vs, Does q d₁ (d.setPool pool) [] [] vs ∧
      ((d₁.pk q).context.ref ≠ 1 → vs = [] ∧ (d.pk q).data = (d₁.pk q).data ∧
        (d.pk q).context.proto = (d₁.pk q).context.proto ∧ d.reqPtr q = d₁.reqPtr q) ∧
      ((d₁.pk q).context.ref = 1 → ∃ hs ep, (∀ v ∈ hs, v.IsHandler) ∧
        vs = .completed ep (d₁.reqPtr q) (d₁.pk q).data :: hs) ∧
      ((d.setPool pool).getReq (d₁.reqPtr q)).buffer = (d₁.getReq (d₁.reqPtr q)).buffer := by
  obtain ⟨hdec, hbuf⟩ := does_decRef hr h
  have hpool := fun {vs : List Event} (hd : Does q d₁ d [] [] vs) => hd.trans (does_setPool d q pool)
  split_ifs at hdec with href
  · obtain ⟨hs, ep, hh, hd⟩ := hdec
    exact ⟨_, by simpa using hpool hd, fun hne => absurd href hne, fun _ => ⟨hs, ep, hh, rfl⟩, hbuf⟩
  · obtain ⟨hd, h1, h2, h3⟩ := hdec
    exact ⟨[], hpool hd, fun _ => ⟨rfl, h1, h2, h3⟩, fun he => absurd he href, hbuf⟩

theorem Inv.tick (h : Inv T j₀ j st) {r : CInt} {x : Nat} {q : PktId} {buf : Nat} {a b a' b' : Bool} {s₁ s : Sys}
    {env : Env} {d : Dev} (hx : (T x).tgt = r) (hwait : (st x).tgt = .waiting q buf a b) (hnear : Near (j.node r) s₁)
    (hsends : ∀ p, p ≠ q → (p ∈ s₁.dev.sends ↔ p ∈ (j.node r).dev.sends))
    (howed : ∀ p, p ≠ q → (p ∈ s₁.owed ↔ p ∈ (j.node r).owed)) (ha : a' = true ↔ q ∈ s₁.dev.sends)
    (hb : b' = true ↔ q ∈ s₁.owed)
    (hcount : a.toNat + b.toNat = a'.toNat + b'.toNat + 1) (hcall : decRef env s₁.dev q = some d)
    {pool : Pool} (hnext : s₁.next (d.setPool pool) = s) : Ticked T j st r x q buf a' b' s₁ s := by
  obtain ⟨w1, w2, w3, w4, w5, w6, w7⟩ := (h.tgt r).waiting x q buf a b hwait hx
  have hw : q ∈ (j.node r).owed ∨ (q ∈ (j.node r).dev.sends ∧ ((j.node r).dev.pk q).context.proto = .rtr) := by
    rcases w1 with w1 | w1
    · exact .inr ⟨w2.1 w1, w5⟩
    · exact .inl (w3.1 w1)
  have hptr : s₁.dev.reqPtr q = (j.node r).dev.reqPtr q := by rw [Dev.reqPtr, hnear.pk, Dev.reqPtr]
  have hxf₁ : (s₁.dev.pk q).data.view.xfer = x := by rw [hnear.pk]; exact w4
  -- the count is 1 exactly when nothing is left to wait for
  have href : (s₁.dev.pk q).context.ref = 1 ↔ (a' || b') = false := by
    have hcnt := ((h.good r).waiting hw).2.1
    simp only [← w2, ← w3, Bool.decide_eq_true] at hcnt
    rw [hnear.pk, hcnt]
    cases a' <;> cases b' <;> simp at hcount ⊢ <;> omega
  obtain ⟨vs, hd, hmore, hlast, hbuf⟩ := does_tick (by rw [hptr]; exact w6) hcall pool
  have hdev : s.dev = d.setPool pool := by rw [← hnext]; rfl
  obtain ⟨hd, hs⟩ := next_of_does hd hnext
  rw [List.filterMap_nil, List.append_nil] at hs
  rw [← hdev] at hbuf
  have hpk : d.pk = s.dev.pk := by rw [hdev]; rfl
  rw [getReq_congr hnear.pk hnear.req, hptr,
    show ((j.node r).dev.getReq ((j.node r).dev.reqPtr q)).buffer = .mem buf from w7] at hbuf
  rw [hpk, show d.reqPtr q = s.dev.reqPtr q by rw [hdev]; rfl] at hmore
  have haround := hnear.around hd hs hsends howed
  have hS : s.dev.sends = s₁.dev.sends := by rw [hd.sends, List.append_nil]
  rw [← hS] at ha
  rw [← hs] at hb
  have hkept : q ∈ s.dev.sends ∨ q ∈ s.owed → xf s q = x ∧ (s.dev.pk q).context.proto = .rtr ∧
      s.dev.reqPtr q = (j.node r).dev.reqPtr q ∧ (s.dev.reqOf q).buffer = .mem buf := by
    intro hq
    have hor : (a' || b') = true := by
      rcases hq with hq | hq
      · rw [ha.2 hq]; rfl
      · rw [hb.2 hq, Bool.or_true]
    obtain ⟨-, h1, h2, h3⟩ := hmore (fun hc => by rw [href.1 hc] at hor; cases hor)
    refine ⟨by rw [xf, h1]; exact hxf₁, by rw [h2, hnear.pk]; exact w5, h3.trans hptr, ?_⟩
    rw [Dev.reqOf, h3, hptr]
    exact hbuf
  have hev := newEvents_append (s := j.node r) (hd.events.trans (by rw [hnear.events])) r
  refine ⟨haround, ?_, ?_, hS, fun p hp => ?_, ?_, ?_, hd.mem, ?_⟩
  · refine (h.tgt r).update haround hx (.inr w4) (.inr (.inr ⟨buf, a, b, hwait⟩)) (fun e c y hy => .inl ?_)
      (fun hq => ?_)
      fun q' buf' c c' ht => ?_
    · have hy' := hnear.slots hd e c y hy
      exact ⟨hy', (h.good r).waiting_slots hw e c y hy'⟩
    · have hq' : q ∈ s.dev.sends ∨ q ∈ s.owed := hq.elim .inr fun hq => .inl hq.1
      refine ⟨(hkept hq').1, buf, a', b', if_pos ?_⟩
      rcases hq' with hq' | hq'
      · rw [ha.2 hq']; rfl
      · rw [hb.2 hq', Bool.or_true]
    · split_ifs at ht with hor
      cases ht
      have hor' : a' = true ∨ b' = true := by simpa using hor
      obtain ⟨h1, h2, h3, h4⟩ := hkept (hor'.imp ha.1 hb.1)
      exact ⟨rfl, hor', ha, hb, h1, h2, by rw [h3]; exact w6, h4⟩
  · refine (h.org r).frame haround (fun _ => by rw [w5]; simp) fun hq => ?_
    rw [(hkept (.inl hq)).2.1]
    simp
  · by_cases hpq : p = q
    · subst hpq
      obtain ⟨h1, h2, -⟩ := hkept (.inl hp)
      exact ⟨h1.trans w4.symm, h2.trans w5.symm⟩
    · rw [haround.xf hpq, haround.pk p hpq]
      exact ⟨rfl, rfl⟩
  · unfold newWires
    rw [hd.out, hnear.out]
    simp
  · by_cases hor : (a' || b') = true
    · obtain ⟨rfl, -⟩ := hmore fun hc => by rw [href.1 hc] at hor; cases hor
      exact ⟨[], by simp, by rw [if_pos hor, hev]; rfl⟩
    · obtain ⟨hs, ep, hh, rfl⟩ := hlast (href.2 (by simpa using hor))
      refine ⟨hs.map fun v => .event r v (eventBuf s.dev v), fun v hv => ?_, ?_⟩
      · obtain ⟨u, hu, rfl⟩ := List.mem_map.1 hv
        exact neutral_of_isHandler (hh u hu) r _
      · rw [if_neg hor, hev]
        refine ⟨ep, s₁.dev.reqPtr q, (s₁.dev.pk q).data, hxf₁, ?_⟩
        rw [List.map_cons, eventBuf, hptr, hbuf]
  · obtain ⟨f1, f2, f3⟩ := hd.fixed
    exact ⟨f1.trans hnear.page, f2.trans hnear.backend, fun e => (f3 e).trans (by rw [hnear.eps])⟩

/-! ## Immediates -/

/-- The immediate is served: the records of the step are those of the protocol. -/
theorem Ticked.imm (j₀ : Job) {x : Nat} {q : PktId} {buf : Nat} {rtr : Bool} {s₁ s : Sys}
    (h : Ticked T j st (T x).tgt x q buf rtr false s₁ s)
    (log : List Rec) (ctx : Option PktId) : ∃ k hs, (∀ v ∈ hs, v.Neutral) ∧
      [.imm (T x).tgt q x] ++ newEvents (T x).tgt (j.node (T x).tgt) s = k ++ hs ∧
      Next T (start j₀) x log (.written q buf rtr .placed ctx) k (.written q buf rtr .landed ctx) := by
  obtain ⟨hs, hn, hev⟩ := h.events
  cases rtr with
  | true => exact ⟨[.imm (T x).tgt q x], [], by simp, by rw [show newEvents _ _ s = [] from hev], .immFirst q buf ctx⟩
  | false =>
    obtain ⟨ep, rp, data, hx, hev⟩ := hev
    exact ⟨[.imm (T x).tgt q x, .event (T x).tgt (.completed ep rp data) (.mem buf)], hs, hn, by rw [hev]; rfl,
      .immLast q buf ctx ep rp data hx⟩

/-- The state of the job after an immediate. -/
theorem Inv.land (h : Inv T j₀ j st) (recs : List Rec) {x : Nat} {q : PktId} {buf : Nat} {rtr : Bool} {phase : Phase}
    {ctx : Option PktId} {s₁ s : Sys}
    (hst : st x = .written q buf rtr phase ctx) (ht : Ticked T j st (T x).tgt x q buf rtr false s₁ s) (hg : Good s)
    (hsends : s₁.dev.sends = (j.node (T x).tgt).dev.sends) {w : Wire} (hw : w ∈ j.flight) (hwx : w.xfer = x)
    (hm : s₁.dev.mem = replay (T x).tgt (j.node (T x).tgt).dev.mem recs)
    (hmx : ∀ r, r ≠ (T x).tgt → ∀ m, replay r m recs = m) :
    Inv T j₀ (({ j with flight := j.flight.erase w } : Job).moves (T x).tgt s recs)
      (Function.update st x (.written q buf rtr .landed ctx)) := by
  have htgt : Stage.tgt (.written q buf rtr .landed ctx) =
    if rtr || false then .waiting q buf rtr false else .none := by
    cases rtr <;> simp [Stage.tgt]
  have horg : Stage.org (.written q buf rtr .landed ctx) = (st x).org := by rw [hst]; rfl
  have hS := ht.sends.trans hsends
  refine h.moves (j.flight.erase w) j.pending _ hg ht.fixed ?_ (.inl rfl) ?_ (.inr horg) ?_ (fun _ _ => rfl) ?_
    (ht.mem.trans hm) hmx
  · rw [htgt]
    exact ht.tgt
  · rw [horg, Function.update_eq_self]
    exact ht.org
  · rw [ht.wires, List.append_nil]
    exact (h.pend _).frame hS fun p hp => ht.kept p (hS ▸ hp)
  · rw [ht.wires, List.append_nil]
    subst hwx
    exact h.net.drop hw

/-- An immediate for packet `q` is served: in state `s₁` it is taken and `mem` is the memory, and `s` is the state
after. -/
structure Lands (env : Env) (s₀ : Sys) (q : PktId) (mem : Nat → Byte) (s₁ s : Sys) : Prop where
  near : Near s₀ s₁
  sends : s₁.dev.sends = s₀.dev.sends
  owed : s₁.owed = s₀.owed.erase q
  mem : s₁.dev.mem = mem
  call : ∃ d pool, decRef env s₁.dev q = some d ∧ s₁.next (d.setPool pool) = s

/-- The packet that an immediate names. -/
theorem pktAt_word {page : Nat} {q : PktId} (hps : page < 2 ^ 30) (hq : q < LC_SERVER_NUM_PKTS) :
    pktAt page (BitVec.ofNat 32 (pktOffset page q)).toNat = some q := by
  have hlt := pktOffset_lt hps hq
  rw [BitVec.toNat_ofNat, Nat.mod_eq_of_lt (by omega), pktAt_pktOffset hq]

/-- On verbs, in a packet that is returned to the pool. -/
theorem lands_ibv {env : Env} {s₀ s : Sys} (hg : Good s₀) {q p : PktId} (hlt : q < LC_SERVER_NUM_PKTS) {src : CInt}
    {size : Nat}
    (hstep : Server.step s₀ (.completed env ⟨p, .recvRdmaWithImm, src, size, rtrWord s₀.dev q, .buffer []⟩) = some s) :
    ∃ s₁, Lands env s₀ q s₀.dev.mem s₁ s := by
  obtain ⟨hrtr, hat⟩ := rtrWord_spec hg.page hlt
  generalize rtrWord s₀.dev q = word at *
  have hans : ibvAnswers s₀.dev ⟨p, .recvRdmaWithImm, src, size, word, .buffer []⟩ = some q := by
    unfold ibvAnswers
    rw [if_pos ⟨rfl, hrtr⟩, hat]
  obtain ⟨d, hd, hnext⟩ := Option.map_eq_some_iff.1 hstep
  rw [hans] at hnext
  unfold ibvServeRecv at hd
  dsimp only at hd
  rw [if_neg (by simp), if_pos hrtr] at hd
  obtain ⟨q', hq', hd⟩ := Option.bind_eq_some_iff.1 hd
  replace hq' : pktAt s₀.dev.pageSize (word ^^^ IBV_IMM_RTR).toNat = some q' := hq'
  rw [hat] at hq'
  cases hq'
  obtain ⟨d₁, hd₁, hput⟩ := Option.bind_eq_some_iff.1 hd
  obtain ⟨pool, -, rfl⟩ := Option.map_eq_some_iff.1 hput
  let s₁ : Sys := { s₀ with
    dev := lcServerRmaDereg { ibvTakeRecv s₀.dev ⟨p, .recvRdmaWithImm, src, size, word,
      .buffer []⟩ with recvPosted := s₀.dev.recvPosted - 1 } (s₀.dev.pk q).context.rmaMem
    owed := s₀.owed.erase q }
  have hcall : decRef env s₁.dev q = some d₁ := hd₁
  have hnext' : s₁.next (d₁.setPool pool) = s := hnext
  exact ⟨s₁, ⟨rfl, rfl, rfl, rfl, rfl, rfl, rfl⟩, rfl, rfl, rfl, d₁, pool, hcall, hnext'⟩

/-- On PSM2, with the data, in the receive that was posted for it. -/
theorem lands_psm2 {env : Env} {s₀ s : Sys} (hg : Good s₀) {q : PktId} (hlt : q < LC_SERVER_NUM_PKTS) {src : CInt}
    {buf : Nat} {rkey : BitVec 32} (hk : IsKey rkey) {bytes : List Byte}
    (hstep : Server.step s₀ (.matched env ⟨rkey, .mem buf, bytes.length, none⟩
      ⟨psmTagSrdmaDatImm rkey (BitVec.ofNat 32 (pktOffset s₀.dev.pageSize q)), src, bytes.length, .buffer bytes⟩) =
        some s) :
    ∃ s₁, Lands env s₀ q (writeMem s₀.dev.mem buf bytes) s₁ s := by
  have hat := pktAt_word hg.page hlt
  generalize BitVec.ofNat 32 (pktOffset s₀.dev.pageSize q) = word at *
  have hans : psm2Answers s₀.dev ⟨psmTagSrdmaDatImm rkey word, src, bytes.length, .buffer bytes⟩ = some q := by
    unfold psm2Answers
    rw [if_pos ⟨hk, rfl⟩]
    exact hat
  obtain ⟨d, hd, hnext⟩ := Option.map_eq_some_iff.1 hstep
  rw [hans] at hnext
  let D : Dev := { s₀.dev with
    posted := s₀.dev.posted.erase ⟨rkey, .mem buf, bytes.length, none⟩
    mem := writeMem s₀.dev.mem buf (bytes.take bytes.length) }
  have hserve : psm2ServeRecv env D none ⟨psmTagSrdmaDatImm rkey word, src, bytes.length, .buffer bytes⟩ = some d := hd
  have himm := psm2ServeRecv_imm D none (m := ⟨psmTagSrdmaDatImm rkey word, src, bytes.length,
    .buffer bytes⟩) hk rfl hat env
  let s₁ : Sys := { s₀ with dev := lcServerRmaDereg D (s₀.dev.pk q).context.rmaMem, owed := s₀.owed.erase q }
  have hcall : decRef env s₁.dev q = some d := himm.symm.trans hserve
  have hnext' : s₁.next (d.setPool d.pool) = s := hnext
  refine ⟨s₁, ⟨rfl, rfl, rfl, rfl, rfl, rfl, rfl⟩, rfl, rfl, ?_, d, d.pool, hcall, hnext'⟩
  show writeMem s₀.dev.mem buf (bytes.take bytes.length) = _
  rw [List.take_length]

/-- The packet that the immediate is for has counted it off. -/
theorem Inv.tickImm (h : Inv T j₀ j st) {x : Nat} {q : PktId} {buf : Nat} {rtr : Bool}
    (hst : (st x).tgt = .waiting q buf rtr true)
    {env : Env} {mem : Nat → Byte} {s₁ s : Sys} (hl : Lands env (j.node (T x).tgt) q mem s₁ s) :
    Ticked T j st (T x).tgt x q buf rtr false s₁ s := by
  obtain ⟨-, w2, -⟩ := (h.tgt _).waiting x q buf rtr true hst rfl
  obtain ⟨d, pool, hcall, hnext⟩ := hl.call
  have hnot : q ∉ s₁.owed := by
    rw [hl.owed]
    exact (h.good _).owed_nodup.not_mem_erase
  refine h.tick rfl hst hl.near (fun p _ => by rw [hl.sends]) (fun p hp => ?_) ?_ ?_ (by cases rtr <;> rfl) hcall hnext
  · rw [hl.owed]
    exact List.mem_erase_of_ne hp
  · rw [w2, hl.sends]
  · exact iff_of_false (by simp) hnot

variable (T) in
/-- Write `w` of transfer `x` is in flight: its immediate names packet `q` of the target, which waits for it. -/
structure Underway (j : Job) (st : Nat → Stage) (w : Wire) (x : Nat) (q : PktId) (buf : Nat) (rkey : BitVec 32) :
    Prop where
  flight : w ∈ j.flight
  xfer : w.xfer = x
  src : w.src = (T x).org
  msg : w.msg = .rma (T x).tgt (T x).src (.mem buf) rkey (T x).size
    (BitVec.ofNat 32 (pktOffset (j.node (T x).tgt).dev.pageSize q))
  stage : ∃ rtr ctx, st x = .written q buf rtr (if w.placed then .placed else .posted) ctx
  waits : ∃ rtr, (st x).tgt = .waiting q buf rtr true
  owed : q ∈ (j.node (T x).tgt).owed
  lt : q < LC_SERVER_NUM_PKTS
  key : (j.node (T x).tgt).dev.backend = .psm2 → IsKey rkey ∧ w.placed = false

theorem Inv.underway (h : Inv T j₀ j st) {w : Wire} (hw : w ∈ j.flight) {t : CInt} {src : Nat} {addr : Buf}
    {rkey : BitVec 32}
    {size : Nat} {sid : BitVec 32} (hm : w.msg = .rma t src addr rkey size sid) :
    ∃ q buf, Underway T j st w w.xfer q buf rkey := by
  obtain ⟨q, buf, hn, hsrc, rfl, rfl, rfl, rfl, rfl, hkey⟩ := (h.net.sails w hw).rma_cases hm
  obtain ⟨hpage, hbk, -⟩ := h.fixed (T w.xfer).tgt
  rw [← hpage] at hm
  rw [← hbk] at hkey
  obtain ⟨rtr, ctx, hst⟩ : ∃ rtr ctx, st w.xfer = .written q buf rtr (if w.placed then .placed else .posted) ctx := by
    split_ifs at hn ⊢
    · exact Stage.placed_of_net hn
    · exact Stage.posted_of_net hn
  have htgt : (st w.xfer).tgt = .waiting q buf rtr true := by
    rw [hst]
    split_ifs <;> simp [Stage.tgt]
  have howed := ((h.tgt _).waiting w.xfer q buf rtr true htgt rfl).2.2.1.1 rfl
  obtain ⟨loc, use, ho, -⟩ := (h.good (T w.xfer).tgt).own
  exact ⟨q, buf, hw, rfl, hsrc, hm, ⟨rtr, ctx, hst⟩, ⟨rtr, htgt⟩, howed, ho.owed_lt howed, hkey⟩

namespace Underway

variable {w : Wire} {x : Nat} {q : PktId} {buf : Nat} {rkey : BitVec 32}

theorem dst (hU : Underway T j st w x q buf rkey) : w.dst = (T x).tgt := by rw [Wire.dst, hU.msg]

/-- The record of the immediate. -/
theorem immRec_eq (hU : Underway T j st w x q buf rkey) (hg : Good (j.node (T x).tgt)) :
    immRec (j.node w.dst).dev.pageSize w = [.imm (T x).tgt q x] := by
  unfold immRec
  rw [hU.dst, hU.msg, hU.xfer]
  dsimp only
  rw [pktAt_word hg.page hU.lt]
  rfl

end Underway

section Immediate

variable {env : Env} {p : PktId} {w : Wire} {x : Nat} {q : PktId} {buf : Nat} {rkey : BitVec 32}

/-- The immediate of a write on verbs, whose data is in place. -/
theorem Inv.immIbv (h : Inv T j₀ j st) (hT : Valid T j₀) (hU : Underway T j st w x q buf rkey)
    (hb : (j.node (T x).tgt).dev.backend = .ibv) (hplaced : w.placed = true)
    (hposted : p ∈ (j.node (T x).tgt).dev.posted.filterMap Post.ctx) {rtr : Bool} {ctx : Option PktId}
    (hst : st x = .written q buf rtr .placed ctx) :
    Leads T j₀ j st x (.written q buf rtr .landed ctx) (j.step T (.imm env p w)) := by
  have hg := h.good (T x).tgt
  have htgt : (st x).tgt = .waiting q buf rtr true := by rw [hst]; simp [Stage.tgt]
  let op : Op := .completed env ⟨p, .recvRdmaWithImm, w.src, (T x).size, rtrWord (j.node (T x).tgt).dev q, .buffer []⟩
  have hop : immOp (j.node w.dst).dev.backend env p w (j.bytes w) = some op := by
    unfold immOp
    rw [hU.dst, hb, hU.msg]
    dsimp only
    rw [hT.rmaLen]
    rfl
  obtain ⟨s, hstep, hgood, -⟩ := hg.step (o := op) ⟨hb, hposted, .inl ⟨q, hU.owed, rfl⟩⟩ fun _ => .inl ⟨q, hU.owed, rfl⟩
  obtain ⟨s₁, hl⟩ := lands_ibv hg hU.lt hstep
  have ht := h.tickImm htgt hl
  obtain ⟨k, l, hn, hlog, hk⟩ := ht.imm j₀ j.log ctx
  have hI := h.land [.imm (T x).tgt q x] hst ht hgood hl.sends hU.flight hU.xfer hl.mem fun _ _ _ => rfl
  have hjob : j.step T (.imm env p w) = some (({ j with flight := j.flight.erase w } : Job).moves (T x).tgt s
    [.imm (T x).tgt q x]) := by
    unfold Job.step
    dsimp only
    rw [hop, Option.bind_some, hU.immRec_eq hg, hU.dst, hstep, hplaced]
    rfl
  rw [hjob]
  refine Leads.of_next hI (k := k) (l := l) (by rw [hst]; exact hk) hn ?_
  show j.log ++ (_ ++ _) = _
  rw [hlog, List.append_assoc]

/-- The message of a write on PSM2 is one that the backend sends. -/
theorem Underway.emitted (hT : Valid T j₀) (hU : Underway T j st w x q buf rkey) (hk : IsKey rkey) :
    Emitted ⟨psmTagSrdmaDatImm rkey (BitVec.ofNat 32 (pktOffset (j.node (T x).tgt).dev.pageSize q)), w.src, (T x).size,
      .buffer (j.bytes w)⟩ := by
  refine .rma w.src (j.node w.src).dev.mem 0 (T x).src .null rkey (T x).size
    (BitVec.ofNat 32 (pktOffset (j.node (T x).tgt).dev.pageSize q)) hk ?_
  rw [psm2Wire, Job.bytes, hU.msg]
  dsimp only
  rw [hT.rmaLen]
  exact List.mem_singleton_self _

/-- The data of a write and its immediate on PSM2, in the receive that was posted for them. -/
theorem Inv.immPsm2 (h : Inv T j₀ j st) (hT : Valid T j₀) (hU : Underway T j st w x q buf rkey)
    (hb : (j.node (T x).tgt).dev.backend = .psm2)
    (hpost : ⟨rkey, .mem buf, (T x).size, none⟩ ∈ (j.node (T x).tgt).dev.posted)
    (hs : Sound j (.imm env p w)) : Follows T j₀ j st (j.step T (.imm env p w)) := by
  have hg := h.good (T x).tgt
  have hbytes := h.bytes_eq hT hU.msg hU.src
  have hlen : (j.bytes w).length = (T x).size := by rw [hbytes, payload_length]
  obtain ⟨hisKey, hplaced⟩ := hU.key hb
  obtain ⟨rtr, ctx, hst⟩ := hU.stage
  rw [hplaced, if_neg (by simp)] at hst
  have htgt : (st x).tgt = .waiting q buf rtr true := by rw [hst]; simp [Stage.tgt]
  let op : Op := .matched env ⟨rkey, .mem buf, (T x).size, none⟩
    ⟨psmTagSrdmaDatImm rkey (BitVec.ofNat 32 (pktOffset (j.node (T x).tgt).dev.pageSize q)), w.src, (T x).size,
      .buffer (j.bytes w)⟩
  have hop : immOp (j.node w.dst).dev.backend env p w (j.bytes w) = some op := by
    unfold immOp
    rw [hU.dst, hb, hU.msg]
    dsimp only
    rw [hT.rmaLen]
  have hnkey : rkey ≠ PSM_RECV_DATA := by
    rintro rfl
    exact absurd hisKey (by decide)
  obtain ⟨s, hstep, hgood, -⟩ := hg.step (o := op)
    ⟨hb, ⟨hpost, rfl, hU.emitted hT hisKey⟩, fun he => absurd he hnkey, fun _ _ => ⟨q, hU.owed, rfl⟩⟩
    ⟨by have := hs _ _ hop; rwa [hU.dst] at this, fun _ => iff_of_true rfl rfl⟩
  have hstep' := hstep
  dsimp only [op] at hstep'
  rw [← hlen] at hstep'
  obtain ⟨s₁, hl⟩ := lands_psm2 hg hU.lt hisKey hstep'
  have ht := h.tickImm htgt hl
  have hwrote : wroteRec w (j.bytes w) = [.wrote (T x).tgt buf (payload T (start j₀) j.log x) x] := by
    unfold wroteRec
    rw [hU.msg, hU.xfer, hbytes]
  let recs : List Rec := [.wrote (T x).tgt buf (payload T (start j₀) j.log x) x, .imm (T x).tgt q x]
  have hmem : s₁.dev.mem = replay (T x).tgt (j.node (T x).tgt).dev.mem recs := by
    rw [hl.mem, hbytes]
    simp [recs, replay, Rec.apply]
  have hI := h.land recs hst ht hgood hl.sends hU.flight hU.xfer hmem fun r hr m => by
    simp [recs, replay, Rec.apply, hr.symm]
  have hjob : j.step T (.imm env p w) = some (({ j with flight := j.flight.erase w } : Job).moves
    (T x).tgt s recs) := by
    unfold Job.step
    dsimp only
    rw [hop, Option.bind_some, hU.immRec_eq hg, hU.dst, hstep, hplaced, hwrote]
    rfl
  -- Two steps of the protocol: the data is in place, and the immediate is served.
  let a₁ : Abs := ⟨Function.update st x (.written q buf rtr .placed ctx),
    j.log ++ [.wrote (T x).tgt buf (payload T (start j₀) j.log x) x] ++ []⟩
  obtain ⟨k, l, hn, hlog, hk⟩ := ht.imm j₀ a₁.log ctx
  have hwrite : Next T (start j₀) x j.log (st x) [.wrote (T x).tgt buf (payload T (start j₀) j.log x) x]
    (.written q buf rtr .placed ctx) := by
    rw [hst]
    exact .write q buf rtr ctx
  have h₁ : Abs.Step T (start j₀) ⟨st, j.log⟩ a₁ := .next x _ [] _ hwrite (by simp)
  have h₂ := Abs.Step.next (a := a₁) x k l _ (by simpa [a₁] using hk) hn
  rw [hjob]
  refine ⟨_, _, rfl, hI, (ReflTransGen.single h₁).tail ?_⟩
  convert h₂ using 2
  · exact (Function.update_idem ..).symm
  · show j.log ++ ([.wrote (T x).tgt buf (payload T (start j₀) j.log x) x] ++ ([.imm (T x).tgt q x] ++ _)) =
      j.log ++ [.wrote (T x).tgt buf (payload T (start j₀) j.log x) x] ++ [] ++ k ++ l
    rw [hlog, List.append_nil, List.append_assoc, List.append_assoc]

theorem Inv.imm (h : Inv T j₀ j st) (hT : Valid T j₀) (ha : Allowed j (.imm env p w)) (hs : Sound j (.imm env p w)) :
    Follows T j₀ j st (j.step T (.imm env p w)) := by
  obtain ⟨hw, t, src, addr, rkey, size, sid, hmsg, hpost⟩ := ha
  obtain ⟨q, buf, hU⟩ := h.underway hw hmsg
  have hm := hmsg.symm.trans hU.msg
  simp only [Msg.rma.injEq] at hm
  obtain ⟨-, -, rfl, -, rfl, -⟩ := hm
  rw [hU.dst] at hpost
  cases hb : (j.node (T w.xfer).tgt).dev.backend with
  | ibv =>
    rw [hb] at hpost
    obtain ⟨rtr, ctx, hst⟩ := hU.stage
    rw [hpost.1, if_pos rfl] at hst
    exact (h.immIbv hT hU hb hpost.1 hpost.2 hst).follows
  | psm2 =>
    rw [hb] at hpost
    dsimp only at hpost
    rw [hT.rmaLen] at hpost
    exact h.immPsm2 hT hU hb hpost hs

end Immediate

/-! ## Completed sends -/

theorem Stage.waiting_of_tgt {σ : Stage} {q : PktId} {buf : Nat} {a b : Bool} (h : σ.tgt = .waiting q buf a b) :
    (σ = .granted q buf a ∧ b = true) ∨ ∃ phase ctx, σ = .written q buf a phase ctx ∧ b = decide (phase ≠ .landed) := by
  cases σ with
  | granted q' buf' rtr =>
    cases h
    exact .inl ⟨rfl, rfl⟩
  | written q' buf' rtr phase ctx =>
    unfold Stage.tgt at h
    dsimp only at h
    split_ifs at h
    cases h
    exact .inr ⟨phase, ctx, rfl, rfl⟩
  | _ => cases h

theorem Stage.written_of_org {σ : Stage} {p : PktId} (h : σ.org = some p) :
    ∃ q buf rtr phase, σ = .written q buf rtr phase (some p) := by
  cases σ with
  | written q buf rtr phase ctx =>
    cases h
    exact ⟨q, buf, rtr, phase, rfl⟩
  | _ => cases h

/-- The job after the completion of the send `w` of rank `r`. -/
theorem Job.sent_eq {r : CInt} {env : Env} {p : PktId} {w : Wire}
    (hw : j.pending.find? (fun w => w.src = r ∧ w.ctx = p) = some w) {s : Sys}
    (hs : Server.step (j.node r) (.sent env p) = some s) :
    j.step T (.sent r env p) = some (({ j with pending := j.pending.erase w } : Job).moves r s [.sent w]) := by
  unfold Job.step
  dsimp only
  rw [hw, Option.bind_some, hs]
  rfl

/-- Messages of other ranks are not completed. -/
theorem erase_src {r r' : CInt} {l : List Wire} {w : Wire} (hr : w.src = r) (hne : r' ≠ r) :
    ((l.erase w).filter fun v => v.src = r') = l.filter fun v => v.src = r' := by
  induction l with
  | nil => rfl
  | cons v l ih =>
    by_cases hv : v = w
    · subst hv
      rw [List.erase_cons_head, List.filter_cons_of_neg]
      simpa [hr] using hne.symm
    · rw [List.erase_cons_tail (by simpa using hv), List.filter_cons, List.filter_cons, ih]

/-- The job after the completion of the send of an RTR that packet `p` waited for. -/
theorem Inv.counted (h : Inv T j₀ j st) {x : Nat} {p : PktId} {buf : Nat} {b : Bool} {s₁ s : Sys} {w : Wire} {σ : Stage}
    (hw : j.pending.find? (fun w => w.src = (T x).tgt ∧ w.ctx = p) = some w) (hg : Good s)
    (ht : Ticked T j st (T x).tgt x p buf false b s₁ s) (hsends : s₁.dev.sends = (j.node (T x).tgt).dev.sends.erase p)
    (hmem : s₁.dev.mem = (j.node (T x).tgt).dev.mem) (htgt : σ.tgt = if b then .waiting p buf false b else .none)
    (horg : σ.org = (st x).org) (hnet : σ.net = (st x).net) :
    Inv T j₀ (({ j with pending := j.pending.erase w } : Job).moves (T x).tgt s [.sent w])
      (Function.update st x σ) := by
  refine h.moves j.flight (j.pending.erase w) _ hg ht.fixed ?_ (.inl rfl) ?_ (.inr horg) ?_
    (fun r' hr' => erase_src (erase_ctx hw).2.1 hr') ?_ (ht.mem.trans hmem) fun _ _ _ => rfl
  · rw [htgt]
    exact ht.tgt
  · rw [horg, Function.update_eq_self]
    exact ht.org
  · rw [ht.wires, List.append_nil]
    exact (h.pend _).complete hw ht.around (h.good _).sends_nodup (ht.sends.trans hsends)
  · rw [ht.wires, List.append_nil, hnet, Function.update_eq_self]
    exact h.net

/-- The stage of a transfer after the completion of its RTR. -/
def Stage.afterRtr : Stage → Stage
  | .granted q buf _ => .granted q buf false
  | .written q buf _ phase ctx => .written q buf false phase ctx
  | σ => σ

/-- The send of an RTR is completed: packet `p` counts it off. -/
theorem Inv.sentRtr (h : Inv T j₀ j st) {r : CInt} {env : Env} {p : PktId} (hp : p ∈ (j.node r).dev.sends)
    (hk : ((j.node r).dev.pk p).context.proto = .rtr) :
    Leads T j₀ j st (xf (j.node r) p) (st (xf (j.node r) p)).afterRtr (j.step T (.sent r env p)) := by
  obtain ⟨w, hw⟩ := (h.pend r).find hp
  obtain ⟨hwm, hwr, hwc, -⟩ := erase_ctx hw
  obtain ⟨hwx, hrtr, -⟩ := (h.pend r).made w hwm hwr
  rw [hwc] at hwx hrtr
  have hisRtr := hrtr hk
  rw [hwx] at hisRtr
  obtain ⟨hx, buf, a, b, hwait⟩ := (h.tgt r).waits p (.inr ⟨hp, hk⟩)
  generalize xf (j.node r) p = x at *
  subst hx
  obtain ⟨-, w2, w3, -⟩ := (h.tgt _).waiting x p buf a b hwait rfl
  obtain rfl : a = true := w2.2 hp
  obtain ⟨s, hstep, hgood, -⟩ := (h.good (T x).tgt).step (o := .sent env p) hp trivial
  obtain ⟨d, hd, hnext⟩ := Option.map_eq_some_iff.1 hstep
  let s₁ : Sys := { j.node (T x).tgt with
    dev := { (j.node (T x).tgt).dev with sends := (j.node (T x).tgt).dev.sends.erase p } }
  have hcall : decRef env s₁.dev p = some d := by
    unfold lciServeSend at hd
    rw [show ((s₁.dev.pk p).context.proto) = .rtr from hk] at hd
    exact hd
  have hnext' : s₁.next (d.setPool d.pool) = s := hnext
  have hnot : p ∉ s₁.dev.sends := (h.good _).sends_nodup.not_mem_erase
  have ht : Ticked T j st (T x).tgt x p buf false b s₁ s :=
    h.tick rfl hwait ⟨rfl, rfl, rfl, rfl, rfl, rfl, rfl⟩ (fun q hq => List.mem_erase_of_ne hq) (fun _ _ => Iff.rfl)
      (iff_of_false (by simp) hnot) w3 (by cases b <;> rfl) hcall hnext'
  obtain ⟨hs, hn, hev⟩ := ht.events
  rw [Job.sent_eq hw hstep]
  rcases Stage.waiting_of_tgt hwait with ⟨hst, rfl⟩ | ⟨phase, ctx, hst, hb⟩
  · -- The origin has not answered yet.
    rw [show (st x).afterRtr = .granted p buf false by rw [hst]; rfl]
    refine Leads.of_next (k := [.sent w]) (l := [])
      (h.counted hw hgood ht rfl rfl rfl (by rw [hst]; rfl) (by rw [hst]; rfl))
        (by rw [hst]; exact .rtrEarly p buf w hisRtr) (by simp) ?_
    show j.log ++ ([.sent w] ++ newEvents _ _ s) = _
    rw [show newEvents _ _ s = [] from hev, List.append_nil, List.append_nil]
  · have htgt : Stage.tgt (.written p buf false phase ctx) = if b then .waiting p buf false b else .none := by
      subst hb
      cases phase <;> rfl
    have hI := h.counted (σ := .written p buf false phase ctx) hw hgood ht rfl rfl htgt (by rw [hst]; rfl)
      (by rw [hst]; rfl)
    rw [show (st x).afterRtr = .written p buf false phase ctx by rw [hst]; rfl]
    by_cases hph : phase = .landed
    · -- The immediate came first.
      obtain rfl : b = false := by rw [hb, hph]; rfl
      obtain ⟨ep, rp, data, hdx, hev⟩ := hev
      subst hph
      refine Leads.of_next hI (k := [.sent w, .event (T x).tgt (.completed ep rp data) (.mem buf)]) (l := hs)
        (by rw [hst]; exact .rtrLast p buf ctx w ep rp data hisRtr hdx) hn ?_
      show j.log ++ ([.sent w] ++ newEvents _ _ s) = _
      rw [hev, List.append_assoc]
      rfl
    · obtain rfl : b = true := by rw [hb]; simpa using hph
      refine Leads.of_next hI (k := [.sent w]) (l := []) (by rw [hst]; exact .rtrFirst p buf phase ctx w hph hisRtr)
        (by simp) ?_
      show j.log ++ ([.sent w] ++ newEvents _ _ s) = _
      rw [show newEvents _ _ s = [] from hev, List.append_nil, List.append_nil]

/-- Packet `p` is no context of a send any more; else the state is as it was, but for the pool and the events `vs`. -/
structure Frees (p : PktId) (vs : List Event) (s s' : Sys) : Prop where
  pk : s'.dev.pk = s.dev.pk
  req : s'.dev.req = s.dev.req
  eps : s'.dev.eps = s.dev.eps
  sends : s'.dev.sends = s.dev.sends.erase p
  out : s'.dev.out = s.dev.out
  events : s'.dev.events = s.dev.events ++ vs
  mem : s'.dev.mem = s.dev.mem
  page : s'.dev.pageSize = s.dev.pageSize
  backend : s'.dev.backend = s.dev.backend
  owed : s'.owed = s.owed

/-- The context of an RTS and of a data message is returned to the pool, that of a write after its callback. -/
theorem frees_sent {env : Env} {s s' : Sys} {p : PktId} (hk : (s.dev.pk p).context.proto ≠ .rtr)
    (h : Server.step s (.sent env p) = some s') :
    Frees p (if (s.dev.pk p).context.proto = .long then
      [.callback (s.dev.pk p).data.view.cb (s.dev.pk p).data.view.ce (s.dev.pk p).data.view.xfer] else []) s s' := by
  obtain ⟨d, hd, rfl⟩ := Option.map_eq_some_iff.1 h
  let D : Dev := { s.dev with sends := s.dev.sends.erase p }
  -- What is done is known from the pool that comes out.
  have hpool : ∃ pool, d = (if (s.dev.pk p).context.proto = .long then
      D.event (.callback (s.dev.pk p).data.view.cb (s.dev.pk p).data.view.ce
        (s.dev.pk p).data.view.xfer) else D).setPool pool := by
    unfold lciServeSend at hd
    cases hp : (s.dev.pk p).context.proto with
    | rtr => exact absurd hp hk
    | long =>
      rw [show (D.pk p).context.proto = .long from hp] at hd
      obtain ⟨pool, -, rfl⟩ := Option.map_eq_some_iff.1 hd
      exact ⟨pool, rfl⟩
    | rts =>
      rw [show (D.pk p).context.proto = .rts from hp] at hd
      obtain ⟨pool, -, rfl⟩ := Option.map_eq_some_iff.1 hd
      exact ⟨pool, rfl⟩
    | data =>
      rw [show (D.pk p).context.proto = .data from hp] at hd
      dsimp only at hd
      unfold lciPkFreeData at hd
      split_ifs at hd
      · obtain ⟨pool, -, rfl⟩ := Option.map_eq_some_iff.1 hd
        exact ⟨pool, rfl⟩
      · obtain ⟨pool, -, rfl⟩ := Option.map_eq_some_iff.1 hd
        exact ⟨pool, rfl⟩
  obtain ⟨pool, rfl⟩ := hpool
  have howed : ∀ {e : Dev}, e.out = s.dev.out → (s.next e).owed = s.owed := fun he => by rw [next_same he]
  split_ifs
  · exact ⟨rfl, rfl, rfl, rfl, rfl, rfl, rfl, rfl, rfl, howed rfl⟩
  · exact ⟨rfl, rfl, rfl, rfl, rfl, (List.append_nil _).symm, rfl, rfl, rfl, howed rfl⟩

section Frees

variable {p : PktId} {vs : List Event} {s s' : Sys} {r : CInt}

theorem Frees.around (h : Frees p vs s s') : Around p s s' := by
  refine ⟨fun q _ => by rw [h.pk], fun u => by rw [h.req]; exact ⟨rfl, rfl⟩, fun q hq => ?_, fun q _ => by rw [h.owed]⟩
  rw [h.sends]
  exact List.mem_erase_of_ne hq

/-- The targets of transfers have no part in it. -/
theorem Frees.tgt (h : Frees p vs s s') (hk : (s.dev.pk p).context.proto ≠ .rtr) {f : Nat → Tgt} (ht : TgtAt T r s f) :
    TgtAt T r s' f := by
  have hxf : ∀ q, xf s' q = xf s q := fun q => by rw [xf, h.pk, xf]
  have hent : ∀ e b, entries s'.dev e b = entries s.dev e b := fun e b => by rw [entries, h.eps, entries]
  refine ⟨fun e b y hy q hv => ?_, fun e b y hy u hv => ?_, fun q hq => ?_, fun x q buf a b hf hx => ?_⟩
  · rw [hent] at hy
    rw [hxf, h.pk]
    exact ht.stored e b y hy q hv
  · rw [hent] at hy
    rw [h.req]
    exact ht.asked e b y hy u hv
  · rw [hxf]
    refine ht.waits q (hq.imp (fun hq => h.owed ▸ hq) fun hq => ?_)
    rw [h.sends, h.pk] at hq
    exact ⟨List.mem_of_mem_erase hq.1, hq.2⟩
  · obtain ⟨w1, w2, w3, w4, w5, w6, w7⟩ := ht.waiting x q buf a b hf hx
    have hne : q ≠ p := by
      rintro rfl
      exact hk w5
    have hptr : s'.dev.reqPtr q = s.dev.reqPtr q := by rw [Dev.reqPtr, h.pk, Dev.reqPtr]
    refine ⟨w1, w2.trans
      (h.around.sends q hne).symm, by rw [h.owed]; exact w3, by rw [hxf]; exact w4, by rw [h.pk]; exact w5,
      by rw [hptr]; exact w6, ?_⟩
    rw [Dev.reqOf, hptr, getReq_congr h.pk h.req]
    exact w7

end Frees

/-- The stage of a transfer after the completion of its write. -/
def Stage.afterWrite : Stage → Stage
  | .written q buf rtr phase _ => .written q buf rtr phase none
  | σ => σ

/-- A send is completed that no receive waits for; that of a write ends the part of the sender. -/
theorem Inv.sentOther (h : Inv T j₀ j st) {r : CInt} (env : Env) {p : PktId} (hp : p ∈ (j.node r).dev.sends)
    (hk : ((j.node r).dev.pk p).context.proto ≠ .rtr) :
    if ((j.node r).dev.pk p).context.proto = .long then
      Leads T j₀ j st (xf (j.node r) p) (st (xf (j.node r) p)).afterWrite (j.step T (.sent r env p))
    else Follows T j₀ j st (j.step T (.sent r env p)) := by
  obtain ⟨w, hw⟩ := (h.pend r).find hp
  obtain ⟨hwm, hwr, hwc, -⟩ := erase_ctx hw
  obtain ⟨hwx, -, hlong⟩ := (h.pend r).made w hwm hwr
  rw [hwc] at hwx hlong
  obtain ⟨s, hstep, hgood, -⟩ := (h.good r).step (o := .sent env p) hp trivial
  have hf := frees_sent hk hstep
  have ht := hf.tgt hk (h.tgt r)
  have hnot : p ∉ s.dev.sends := by
    rw [hf.sends]
    exact (h.good r).sends_nodup.not_mem_erase
  have hwires : newWires r (j.node r) s = [] := by
    unfold newWires
    rw [hf.out]
    simp
  have hev := newEvents_append hf.events r
  have hfix : s.dev.pageSize = (j.node r).dev.pageSize ∧ s.dev.backend = (j.node r).dev.backend ∧
      ∀ e, (s.dev.eps e).ar = ((j.node r).dev.eps e).ar := ⟨hf.page, hf.backend, fun e => by rw [hf.eps]⟩
  have hP := (h.pend r).complete hw hf.around (h.good r).sends_nodup hf.sends
  have hmoves : ∀ {x : Nat} {σ : Stage}, σ.tgt = (st x).tgt → ((T x).org = r ∨ σ.org = (st x).org) →
      OrgAt T r s (Function.update (fun y => (st y).org) x σ.org) → σ.net = (st x).net →
      Inv T j₀ (({ j with pending := j.pending.erase w } : Job).moves r s [.sent w]) (Function.update st x σ) := by
    intro x σ htgt hox horg hnet
    refine h.moves j.flight (j.pending.erase w) _ hgood hfix ?_ (.inr htgt) horg hox ?_
      (fun r' hr' => erase_src hwr hr') ?_ hf.mem fun _ _ _ => rfl
    · rw [htgt, Function.update_eq_self]
      exact ht
    · rw [hwires, List.append_nil]
      exact hP
    · rw [hwires, List.append_nil, hnet, Function.update_eq_self]
      exact h.net
  rw [Job.sent_eq hw hstep]
  split_ifs with hl
  · -- the write of a long message: its callback runs
    obtain ⟨horg, hr, hc⟩ := (h.org r).writes p hp hl
    have hxf : xf (j.node r) p = w.xfer := hwx.symm
    rw [hxf] at horg hr hc ⊢
    obtain ⟨q, buf, rtr, phase, hst⟩ := Stage.written_of_org horg
    have hO : OrgAt T r s (Function.update (fun y => (st y).org) w.xfer none) :=
      (h.org r).update hf.around hr (.inr hxf) (.inr horg) (fun hm => absurd hm hnot) nofun
    have hI := hmoves (σ := .written q buf rtr phase none) (by rw [hst]; rfl) (.inl hr) hO (by rw [hst]; rfl)
    obtain ⟨c1, c2, -, -, c5⟩ := hc
    rw [if_pos hl, c1, c2, c5] at hev
    rw [show (st w.xfer).afterWrite = .written q buf rtr phase none by rw [hst]; rfl]
    refine Leads.of_next hI (k := [.sent w,
      .event (T w.xfer).org (.callback (T w.xfer).cb (T w.xfer).ce w.xfer) .null]) (l := [])
      (by rw [hst]; exact .call q buf rtr phase p w .null (hlong hl)) (by simp) ?_
    show j.log ++ ([.sent w] ++ newEvents r _ s) = _
    rw [hev, hr, List.append_nil]
    rfl
  · -- an RTS, or a message of another kind, is no step of the protocol
    have hO : OrgAt T r s (Function.update (fun y => (st y).org) 0 (st 0).org) := by
      rw [Function.update_eq_self]
      exact (h.org r).frame hf.around (fun _ => hl) fun hm => absurd hm hnot
    have hI := hmoves rfl (.inr rfl) hO rfl
    rw [Function.update_eq_self] at hI
    rw [if_neg hl] at hev
    refine Follows.of_idle hI (l := [.sent w]) (by simp [Rec.Neutral]) ?_
    show j.log ++ ([.sent w] ++ newEvents r _ s) = _
    rw [hev]
    rfl

/-- A completion of the transport. -/
theorem Inv.sent (h : Inv T j₀ j st) {r : CInt} {env : Env} {p : PktId} (hp : p ∈ (j.node r).dev.sends) :
    Follows T j₀ j st (j.step T (.sent r env p)) := by
  by_cases hk : ((j.node r).dev.pk p).context.proto = .rtr
  · exact (h.sentRtr hp hk).follows
  · have hs := h.sentOther env hp hk
    split_ifs at hs
    · exact hs.follows
    · exact hs

end Invariant

end Lci.Server.Rendezvous
