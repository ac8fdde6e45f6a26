/-
Every function of the protocol takes the packet in its hand to a new place, and is defined where the lists of
the device are in order: no branch drops a packet, returns one to the pool twice, or runs into a full
deque or queue. What a function adds to the messages of the device tells which packets an immediate is
now owed for.
-/
import Lci.Server.Places

namespace Lci.Server

open Lci.Hash Lci.Proto Ledger

/-! ## The RTRs among the messages -/

/-- The packet an RTR asks an immediate for. -/
def rtrOf (pageSize : Nat) : Msg → Option PktId
  | .send _ proto _ (.rdz r) =>
    if protoOfBits (protoGetProto proto) = .rtr then pktAt pageSize r.commId.toNat else none
  | _ => none

/-- The receives of PSM2 for eager messages have a packet. -/
def EagerCtx (d : Dev) : Prop := ∀ x ∈ d.posted, x.tag2 = PSM_RECV_DATA → x.ctx ≠ none

/-- What no function changes: the backend, the build, the page size and the kinds of the endpoints. -/
structure Stays (d d' : Dev) : Prop where
  backend : d'.backend = d.backend
  build : d'.build = d.build
  pageSize : d'.pageSize = d.pageSize
  kinds : ∀ e, (d'.eps e).ar = (d.eps e).ar
  eager : EagerCtx d → EagerCtx d'

theorem Stays.trans {d d' d'' : Dev} (h : Stays d d') (h' : Stays d' d'') : Stays d d'' :=
  ⟨h'.backend.trans h.backend, h'.build.trans h.build, h'.pageSize.trans h.pageSize,
    fun e => (h'.kinds e).trans (h.kinds e), fun he => h'.eager (h.eager he)⟩

theorem Frame.stays {d d' : Dev} (h : Frame d d') : Stays d d' := by
  refine ⟨h.backend, h.build, h.pageSize, fun e => (h.kinds e).1, fun he x hx htag => ?_⟩
  obtain ⟨l, hl, hnew⟩ := h.posted
  rw [hl] at hx
  rcases List.mem_append.1 hx with hx | hx
  · exact he x hx htag
  · have hk := (hnew x hx).2
    rw [htag] at hk
    exact absurd hk (by decide)

/-- `d'` comes from `d` with RTRs for `ps` among its new messages. -/
def Asks (d d' : Dev) (ps : List PktId) : Prop :=
  Stays d d' ∧ ∃ ms, d'.out = d.out ++ ms ∧ ms.filterMap (rtrOf d.pageSize) = ps

theorem Asks.of_stays {d d' : Dev} (hs : Stays d d') (ho : d'.out = d.out) : Asks d d' [] :=
  ⟨hs, [], by rw [ho, List.append_nil], rfl⟩

theorem Asks.of_eq {d d' : Dev} (hf : Frame d d') (ho : d'.out = d.out) : Asks d d' [] := Asks.of_stays hf.stays ho

theorem Asks.trans {d d' d'' : Dev} {ps qs : List PktId} (h : Asks d d' ps) (h' : Asks d' d'' qs) :
    Asks d d'' (ps ++ qs) := by
  obtain ⟨hf, ms, ho, hm⟩ := h
  obtain ⟨hf', ms', ho', hm'⟩ := h'
  refine ⟨hf.trans hf', ms ++ ms', by rw [ho', ho, List.append_assoc], ?_⟩
  rw [List.filterMap_append, hm, ← hf.pageSize, hm']

theorem Touch.asks {p : PktId} {d d' : Dev} (h : Touch p d d') : Asks d d' [] := Asks.of_eq h.frame h.out

/-! ## Completion events -/

theorem out_pkFreeData {env : Env} {d d' : Dev} {p : PktId} (h : lciPkFreeData env d p = some d') : d'.out = d.out := by
  unfold lciPkFreeData at h
  split_ifs at h
  · obtain ⟨pool, -, rfl⟩ := Option.map_eq_some_iff.1 h
    rfl
  · obtain ⟨pool, -, rfl⟩ := Option.map_eq_some_iff.1 h
    rfl

theorem out_setReq (d : Dev) (r : ReqPtr) (f : Req → Req) : (d.setReq r f).out = d.out := by
  cases r <;> rfl

theorem out_ceDispatch {env : Env} {d d' : Dev} {ep : Nat} {p : PktId} (h : lciCeDispatch env d ep p = some d') :
    d'.out = d.out := by
  obtain ⟨d₁, h₁, rfl⟩ := Option.map_eq_some_iff.1 h
  have hd₁ : d₁.out = d.out := by
    unfold ceServe at h₁
    split_ifs at h₁
    · exact (out_pkFreeData h₁).trans (out_setReq _ _ _)
    · obtain ⟨cq, -, rfl⟩ := Option.map_eq_some_iff.1 h₁
      exact out_setReq _ _ _
    · exact (out_pkFreeData h₁).trans rfl
    · exact (out_pkFreeData h₁).trans rfl
  split_ifs
  · exact hd₁
  · exact hd₁

section Functions

variable {s : Sys} {loc : PktId → Loc} {use : ReqId → ReqLoc} {p : PktId}

theorem ReqOk.cases {d : Dev} (h : ReqOk d use p) : d.reqPtr p = .own p ∨ ∃ u, d.reqPtr p = .user u :=
  h.imp id fun ⟨u, hu, _⟩ => ⟨u, hu⟩

/-- A change that leaves the pointer of the packet to its request alone. -/
theorem ReqOk.of_eq {d d' : Dev} (h : ReqOk d use p) (he : d'.reqPtr p = d.reqPtr p) : ReqOk d' use p := by
  unfold ReqOk
  rw [he]
  exact h

theorem reqPtr_setReq (d : Dev) (r : ReqPtr) (f : Req → Req) (p : PktId) : (d.setReq r f).reqPtr p = d.reqPtr p := by
  cases r with
  | own q =>
    by_cases h : p = q
    · subst h; simp [Dev.setReq, Dev.reqPtr, Dev.setCtx]
    · simp [Dev.setReq, Dev.reqPtr, Dev.setCtx, h]
  | user r => rfl

theorem Own.ceServe (h : Own s loc use) (hp : loc p = .hand) (hlt : p < LC_SERVER_NUM_PKTS) (env : Env) (ep : Nat)
    (hr : ReqOk s.dev use p) : ∃ d j use', ceServe env s.dev ep p = some d ∧ j ≠ .hand ∧
      Own { s with dev := d } (Function.update loc p j) use' := by
  unfold Server.ceServe
  split_ifs
  · have ht : Touch p s.dev (s.dev.signal (s.dev.reqPtr p)) := touch_setReq s.dev p hr.cases fun _ => ⟨rfl, id⟩
    obtain ⟨pool, he, ho⟩ := (h.touch hp ht).freeData hp hlt env
    exact ⟨_, _, _, he, by simp, ho⟩
  · obtain ⟨d, use', he, ho⟩ := h.ceQueue hp hlt ep hr
    exact ⟨d, _, use', he, by simp, ho⟩
  · obtain ⟨pool, he, ho⟩ := (h.touch hp (touch_event s.dev p (.handler ep (s.dev.reqPtr p)))).freeData hp hlt env
    exact ⟨_, _, _, he, by simp, ho⟩
  · obtain ⟨pool, he, ho⟩ := h.freeData hp hlt env
    exact ⟨_, _, _, he, by simp, ho⟩

/-- The result of a function that had packet `p` in its hand: defined, `p` in a place, and the RTRs it sent. -/
def Hands (s : Sys) (loc : PktId → Loc) (p : PktId) (r : Option Dev) : Prop :=
  ∃ d ps j use', r = some d ∧ Asks s.dev d ps ∧ j ≠ .hand ∧
    Own ⟨d, s.held, s.owed ++ ps⟩ (Function.update loc p j) use'

theorem Hands.touch {d : Dev} {r : Option Dev} (ht : Touch p s.dev d) (h : Hands { s with dev := d } loc p r) :
    Hands s loc p r := by
  obtain ⟨d', ps, j, use', he, ha, hj, ho⟩ := h
  exact ⟨d', ps, j, use', he, ht.asks.trans ha, hj, ho⟩

theorem Own.dispatch (h : Own s loc use) (hp : loc p = .hand) (hlt : p < LC_SERVER_NUM_PKTS) (env : Env) (ep : Nat)
    (hr : ReqOk s.dev use p) : Hands s loc p (lciCeDispatch env s.dev ep p) := by
  have ht := touch_event s.dev p (.completed ep (s.dev.reqPtr p) (s.dev.pk p).data)
  obtain ⟨d, j, use', he, hj, ho⟩ := (h.touch hp ht).ceServe hp hlt env ep hr
  have hcall : lciCeDispatch env s.dev ep p =
      some (if d.build.hasGlob ∧ (d.eps ep).glob then lciCeGlob d ep else d) := by
    rw [lciCeDispatch, he]
    rfl
  refine ⟨_, [], j, use', hcall, Asks.of_eq (frame_ceDispatch hcall) (out_ceDispatch hcall), hj, ?_⟩
  rw [List.append_nil]
  split_ifs
  · -- the counter of the endpoint is no place
    exact ho.touch (ho.range LC_SERVER_NUM_PKTS le_rfl) (touch_glob d LC_SERVER_NUM_PKTS ep)
  · exact ho

/-! ## Rendezvous -/

theorem Own.handsRts (h : Own s loc use) (hp : loc p = .hand) (hlt : p < LC_SERVER_NUM_PKTS)
    (hps : s.dev.pageSize < 2 ^ 30) (ep : Nat) (hr : ReqOk s.dev use p) :
    Hands s loc p (some (lciHandleRts s.dev ep p)) := by
  refine ⟨_, [p], .rdz true true, use, rfl, ⟨(frame_handleRts _ _ _).stays, ?_⟩, by simp, h.handleRts hp hlt ep hr⟩
  have hinit := touch_pkInit s.dev ep .rtr p
  unfold lciHandleRts lcServerSendm
  generalize lciPkInit s.dev ep (-1) .rtr p = D at hinit
  obtain ⟨-, h2, -, -, -, h6, r, h7⟩ := prepareRtr_spec D (s.dev.reqOf p).buffer (s.dev.pk p).data.view.size p
  generalize lciPrepareRtr D (s.dev.reqOf p).buffer (s.dev.pk p).data.view.size p = E at *
  have hcomm : r.commId = BitVec.ofNat 32 (pktOffset s.dev.pageSize p) := by
    rw [h7, hinit.frame.pageSize] at h6
    exact h6
  have hoff : (BitVec.ofNat 32 (pktOffset s.dev.pageSize p)).toNat = pktOffset s.dev.pageSize p := by
    have := pktOffset_lt hps hlt
    rw [BitVec.toNat_ofNat, Nat.mod_eq_of_lt (by omega)]
  refine ⟨[.send (s.dev.reqOf p).rhandle (makeProto (BitVec.ofNat 32 ep) .rtr 0) packetRtrSize (E.pk p).data], ?_, ?_⟩
  · show E.out ++ _ = _
    rw [h2, hinit.out]
  · rw [h7]
    simp only [List.filterMap_cons, List.filterMap_nil, rtrOf, protoGetProto_word, protoOfBits_bits, if_true, hcomm,
      hoff, pktAt_pktOffset hlt]

theorem Own.handsRtr (h : Own s loc use) (hp : loc p = .hand) (hlt : p < LC_SERVER_NUM_PKTS) (ep : Nat) :
    Hands s loc p (some (lciHandleRtr s.dev ep p)) := by
  refine ⟨_, [], .send, use, rfl, ⟨(frame_handleRtr _ _ _).stays, ?_⟩, by simp, ?_⟩
  · rw [handleRtr_eq]
    exact ⟨_, (sendOn_spec (lciPkInit s.dev ep (-1) .long p) p _).2.2.1, rfl⟩
  · rw [List.append_nil]
    exact h.handleRtr hp hlt ep

/-! ## Matching -/

/-- What an insertion does to the entries of an endpoint. -/
theorem insert_entries (d : Dev) (ep : Nat) (key : Key) (value : Ptr) (type : InsertType)
    (hcmp : cmpKeyOf key type ≠ EMPTY) (htag : tagOf key type ≠ EMPTY) :
    (∃ l x r, entries d ep (bucket key) = l ++ x :: r ∧ x.tag = cmpKeyOf key type ∧
      (lcHashInsert .null (d.eps ep).tbl key value type).ret = 0 ∧
      (lcHashInsert .null (d.eps ep).tbl key value type).value = x.val ∧
      NewBucket d ep (lcHashInsert .null (d.eps ep).tbl key value type).table (bucket key) (l ++ r)) ∨
    ((lcHashInsert .null (d.eps ep).tbl key value type).ret = 1 ∧
      NewBucket d ep (lcHashInsert .null (d.eps ep).tbl key value type).table (bucket key)
        (entries d ep (bucket key) ++ [⟨tagOf key type, value⟩])) := by
  have hother : ∀ c, c ≠ bucket key → (lcHashInsert .null (d.eps ep).tbl key value type).table c = (d.eps ep).tbl c :=
    fun c hc => Function.update_of_ne hc _ _
  have hhere : (lcHashInsert .null (d.eps ep).tbl key value type).table (bucket key) =
      (insertChain .null ((d.eps ep).tbl (bucket key)) key value type).2.2 := Function.update_self _ _ _
  rcases insertChain_cases .null ((d.eps ep).tbl (bucket key)) key value type hcmp htag with
    ⟨l, x, r, h1, -, h3, h4, h5, h6⟩ | ⟨-, h1, -, h3⟩
  · exact .inl ⟨l, x, r, h1, h3, h4, h5, by rw [hhere]; exact h6, hother⟩
  · exact .inr ⟨h1, by rw [hhere]; exact h3, hother⟩

theorem tagOf_bit (key : Key) (type : InsertType) : (tagOf key type).getLsbD 0 = (type == .server) := by
  cases type <;> simp [tagOf, InsertType.toKey]

theorem sided_pkt {x : Slot Ptr} (h : Sided x) {key : Key} (ht : x.tag = tagOf key .server) : ∃ q, x.val = .pkt q := by
  unfold Sided at h
  rw [ht, tagOf_bit] at h
  cases hv : x.val with
  | pkt q => exact ⟨q, rfl⟩
  | _ => rw [hv] at h; simp [Ptr.pkt?] at h

theorem sided_req {x : Slot Ptr} (h : Sided x) {key : Key} (ht : x.tag = tagOf key .client) : ∃ r, x.val = .req r := by
  unfold Sided at h
  rw [ht, tagOf_bit] at h
  cases hv : x.val with
  | req r => exact ⟨r, rfl⟩
  | _ => rw [hv] at h; simp [Ptr.req?] at h

theorem touch_store {d d' : Dev} (p : PktId) {b : Buf} {bytes : List Byte} (h : d.store b bytes = some d') :
    Touch p d d' := by
  cases b with
  | null => cases h
  | mem a => cases h; exact touch_mem d p _
  | pkt q => cases h; exact touch_setData d p q _

theorem store_some (d : Dev) {b : Buf} (hb : b ≠ .null) (bytes : List Byte) : ∃ d', d.store b bytes = some d' := by
  cases b with
  | null => exact absurd rfl hb
  | mem a => exact ⟨_, rfl⟩
  | pkt q => exact ⟨_, rfl⟩

/-- An arriving packet is stored, or it finds a receive and `k` goes on with both. -/
theorem Own.explMatch (h : Own s loc use) (hp : loc p = .hand) (hlt : p < LC_SERVER_NUM_PKTS) (ep : Nat)
    (hkey : ValidKey (lcMakeKey (s.dev.reqOf p).rank (s.dev.reqOf p).metaVal)) {k : Dev → ReqId → Option Dev}
    (hk : ∀ t u use', (s.dev.req u).buffer ≠ .null → use' u = .on p →
      Own { s with dev := s.dev.setTbl ep t } loc use' →
      Hands { s with dev := s.dev.setTbl ep t } loc p (k (s.dev.setTbl ep t) u)) :
    Hands s loc p (explMatch s.dev ep p k) := by
  have hcmp : cmpKeyOf (lcMakeKey (s.dev.reqOf p).rank (s.dev.reqOf p).metaVal) .server ≠ EMPTY := by
    rw [cmpKeyOf_eq]
    exact tagOf_ne_empty hkey _
  unfold Server.explMatch explInsert
  rcases insert_entries s.dev ep _ (.pkt p) .server hcmp (tagOf_ne_empty hkey _) with
    ⟨l, x, r, hl, ht, hret, hval, hb⟩ | ⟨hret, hb⟩
  · rw [cmpKeyOf_eq] at ht
    obtain ⟨u, hu⟩ := sided_req (h.sided ep _ x (by rw [hl]; simp)) ht
    obtain ⟨huse, ho⟩ := h.takeReq hu hl hb p
    dsimp only
    rw [if_pos hret, hval, hu]
    obtain ⟨d, ps, j, use', he, ha, hj, ho'⟩ := hk _ u _ (h.buffer u _ _ huse) (Function.update_self _ _ _) ho
    exact ⟨d, ps, j, use', he, (Asks.of_eq (frame_setTbl _ _ _) rfl).trans ha, hj, ho'⟩
  · dsimp only
    rw [if_neg (by rw [hret]; decide)]
    refine ⟨_, [], .table ep (bucket (lcMakeKey (s.dev.reqOf p).rank (s.dev.reqOf p).metaVal)), use, rfl,
      Asks.of_eq (frame_setTbl _ _ _) rfl, by simp, ?_⟩
    rw [List.append_nil]
    exact h.storePkt hp hlt rfl (by unfold Sided; rw [tagOf_bit]; rfl) hb

theorem reqPtr_setReqPtr (d : Dev) (p : PktId) (r : ReqPtr) : (d.setReqPtr p r).reqPtr p = r := by
  simp [Dev.setReqPtr, Dev.reqPtr, Dev.setCtx]

theorem Own.explData (h : Own s loc use) (hp : loc p = .hand) (hlt : p < LC_SERVER_NUM_PKTS) (env : Env) (ep : Nat)
    {u : ReqId} (hb : (s.dev.req u).buffer ≠ .null) (hu : use u = .on p) :
    Hands s loc p (explData env s.dev ep p u) := by
  have hsize : Touch p s.dev (s.dev.setSize (.user u) (s.dev.reqOf p).size) :=
    touch_setReq s.dev p (.inr ⟨u, rfl⟩) fun _ => ⟨rfl, id⟩
  unfold Server.explData
  dsimp only
  generalize s.dev.setSize (.user u) (s.dev.reqOf p).size = D at hsize
  obtain ⟨E, hE⟩ := store_some D ((hsize.req u).2 hb) ((D.pk p).data.bytes.take (s.dev.reqOf p).size)
  have ht := (hsize.trans (touch_store p hE)).trans (touch_setReqPtr E p (.user u))
  simp only [hE, Option.bind_eq_bind, Option.bind_some]
  exact ((h.touch hp ht).dispatch hp hlt env ep (.inr ⟨u, reqPtr_setReqPtr _ _ _, hu⟩)).touch ht

theorem Own.explRts (h : Own s loc use) (hp : loc p = .hand) (hlt : p < LC_SERVER_NUM_PKTS)
    (hps : s.dev.pageSize < 2 ^ 30) (ep : Nat) {u : ReqId} (hu : use u = .on p) :
    Hands s loc p (some (explRts s.dev ep p u)) := by
  have ht := touch_setReqPtr s.dev p (.user u)
  exact ((h.touch hp ht).handsRts hp hlt hps ep (.inr ⟨u, reqPtr_setReqPtr _ _ _, hu⟩)).touch ht

/-! ## Arrivals -/

theorem protoGetMeta_lt (proto : BitVec 32) : (protoGetMeta proto).toNat < 2 ^ 16 := by
  unfold protoGetMeta
  rw [show (0xffff : BitVec 32) = BitVec.ofNat 32 (2 ^ 16 - 1) from rfl, and_low _ 16 (by decide)]
  exact Nat.mod_lt _ (by decide)

/-- The word of a message is none that only writes and puts carry, its rank is one, and its endpoint is of a
compiled-in kind. -/
structure Arrives (d : Dev) (proto : BitVec 32) (rank : CInt) : Prop where
  kind : protoOfBits (protoGetProto proto) ≠ .long
  rank : rank.toNat < 2 ^ 31
  ar : d.build.hasAr (d.eps (protoGetRgid proto).toNat).ar = true

theorem setMeta_own {d : Dev} {p : PktId} (hr : d.reqPtr p = .own p) (m : CInt) (k : LcProto) :
    ((d.setMeta (d.reqPtr p) m).setProto p k).reqPtr p = .own p ∧
      ((d.setMeta (d.reqPtr p) m).setProto p k).reqOf p = { d.reqOf p with metaVal := m } := by
  have hreq : (d.pk p).context.req = .own p := hr
  rw [hr]
  simp [Dev.setMeta, Dev.setReq, Dev.setProto, Dev.reqPtr, Dev.reqOf, Dev.getReq, Dev.setCtx, hreq]

theorem touch_setMeta (d : Dev) {p : PktId} (hr : d.reqPtr p = .own p) (m : CInt) :
    Touch p d (d.setMeta (d.reqPtr p) m) := touch_setReq d p (.inl hr) fun _ => ⟨rfl, id⟩

theorem touch_setProto (d : Dev) (p : PktId) (k : LcProto) : Touch p d (d.setProto p k) :=
  touch_ctx d p (fun _ => rfl) fun _ => rfl

theorem Own.serveRecvExpl (h : Own s loc use) (hp : loc p = .hand) (hlt : p < LC_SERVER_NUM_PKTS)
    (hps : s.dev.pageSize < 2 ^ 30) (env : Env) (ep : Nat) {proto : BitVec 32} (hr : s.dev.reqPtr p = .own p)
    (hrank : (s.dev.reqOf p).rank.toNat < 2 ^ 31) (hkind : protoOfBits (protoGetProto proto) ≠ .long) :
    Hands s loc p (lciServeRecvExpl env s.dev ep p proto) := by
  have ht := (touch_setMeta s.dev hr (protoGetMeta proto)).trans
    (touch_setProto _ p (protoOfBits (protoGetProto proto)))
  obtain ⟨-, hreq⟩ := setMeta_own hr (protoGetMeta proto) (protoOfBits (protoGetProto proto))
  unfold lciServeRecvExpl
  dsimp only
  generalize (s.dev.setMeta (s.dev.reqPtr p) (protoGetMeta proto)).setProto p (protoOfBits (protoGetProto proto)) =
    D at *
  have hD := h.touch hp ht
  have hpsD : D.pageSize < 2 ^ 30 := by rw [ht.frame.pageSize]; exact hps
  have hkey : ValidKey (lcMakeKey (D.reqOf p).rank (D.reqOf p).metaVal) := by
    rw [hreq]
    exact validKey_of_tag hrank ((protoGetMeta_lt proto).trans (by decide))
  refine Hands.touch ht ?_
  cases hk : protoOfBits (protoGetProto proto) with
  | data =>
    refine hD.explMatch hp hlt ep hkey fun t u use' hb hu ho => ?_
    exact ho.explData hp hlt env ep hb hu
  | rts =>
    refine hD.explMatch hp hlt ep hkey fun t u use' hb hu ho => ?_
    exact ho.explRts hp hlt hpsD ep hu
  | rtr => exact hD.handsRtr hp hlt ep
  | long => exact absurd hk hkind

theorem Own.serveRecvDyn (h : Own s loc use) (hp : loc p = .hand) (hlt : p < LC_SERVER_NUM_PKTS)
    (hps : s.dev.pageSize < 2 ^ 30) (env : Env) (ep : Nat) {proto : BitVec 32} (hr : s.dev.reqPtr p = .own p)
    (hkind : protoOfBits (protoGetProto proto) ≠ .long) : Hands s loc p (lciServeRecvDyn env s.dev ep p proto) := by
  have ht := touch_setMeta s.dev hr (protoGetMeta proto)
  have hrD : (s.dev.setMeta (s.dev.reqPtr p) (protoGetMeta proto)).reqPtr p = .own p := (reqPtr_setReq _ _ _ _).trans hr
  unfold lciServeRecvDyn
  dsimp only
  generalize s.dev.setMeta (s.dev.reqPtr p) (protoGetMeta proto) = D at *
  have hD := h.touch hp ht
  refine Hands.touch ht ?_
  cases hk : protoOfBits (protoGetProto proto) with
  | data =>
    show Hands { s with dev := D } loc p (dynData env D ep p)
    unfold dynData
    obtain ⟨E, hE⟩ := store_some D (b := .mem env.alloc) (by simp) ((D.pk p).data.bytes.take (D.reqOf p).size)
    have hrE : E.reqPtr p = .own p := by cases hE; exact hrD
    have htE := (touch_store p hE).trans (touch_setReq E p (r := E.reqPtr p)
      (f := fun q => { q with buffer := .mem env.alloc }) (.inl hrE) fun _ => ⟨rfl, by simp⟩)
    simp only [hE, Option.bind_eq_bind, Option.bind_some]
    exact ((hD.touch hp htE).dispatch hp hlt env ep (.inl ((reqPtr_setReq _ _ _ _).trans hrE))).touch htE
  | rts =>
    have htE := touch_setReq D p (r := D.reqPtr p) (f := fun q =>
      { q with buffer := .mem env.alloc, size := (D.pk p).data.view.size, sync := false }) (.inl hrD) fun _ =>
        ⟨rfl, by simp⟩
    refine Hands.touch htE ((hD.touch hp htE).handsRts hp hlt ?_ ep (.inl ((reqPtr_setReq _ _ _ _).trans hrD)))
    rw [show _ = D.pageSize from htE.frame.pageSize, ht.frame.pageSize]
    exact hps
  | rtr => exact hD.handsRtr hp hlt ep
  | long => exact absurd hk hkind

theorem Own.serveRecvImm (h : Own s loc use) (hp : loc p = .hand) (hlt : p < LC_SERVER_NUM_PKTS) (env : Env) (ep : Nat)
    (proto : BitVec 32) (hr : s.dev.reqPtr p = .own p) : Hands s loc p (lciServeRecvImm env s.dev ep p proto) := by
  have ht := (touch_setMeta s.dev hr (protoGetMeta proto)).trans (touch_setReq _ p (r := s.dev.reqPtr p)
    (f := fun q => { q with buffer := .pkt p }) (.inl hr) fun _ => ⟨rfl, by simp⟩)
  refine Hands.touch ht ((h.touch hp ht).dispatch hp hlt env ep (.inl ?_))
  exact ((reqPtr_setReq _ _ _ _).trans (reqPtr_setReq _ _ _ _)).trans hr

/-- An arrival of any kind hands its packet on. -/
theorem Own.serveRecv (h : Own s loc use) (hp : loc p = .hand) (hlt : p < LC_SERVER_NUM_PKTS)
    (hps : s.dev.pageSize < 2 ^ 30) (env : Env) {proto : BitVec 32} (hr : s.dev.reqPtr p = .own p)
    (ha : Arrives s.dev proto (s.dev.reqOf p).rank) : Hands s loc p (lciServeRecv env s.dev p proto) := by
  unfold lciServeRecv lciServeRecvDispatch
  have har := ha.ar
  cases hk : (s.dev.eps (protoGetRgid proto).toNat).ar with
  | exp =>
    rw [hk] at har
    rw [if_pos ⟨har, rfl⟩]
    exact h.serveRecvExpl hp hlt hps env _ hr ha.rank ha.kind
  | dyn =>
    rw [hk] at har
    rw [if_neg (by simp), if_pos ⟨har, rfl⟩]
    exact h.serveRecvDyn hp hlt hps env _ hr ha.kind
  | imm =>
    rw [hk] at har
    rw [if_neg (by simp), if_neg (by simp), if_pos ⟨har, rfl⟩]
    exact h.serveRecvImm hp hlt env _ proto hr

theorem Own.serveRecvRdma (h : Own s loc use) (hp : loc p = .hand) (hlt : p < LC_SERVER_NUM_PKTS) (env : Env)
    (proto : BitVec 32) (hr : s.dev.reqPtr p = .own p) : Hands s loc p (lciServeRecvRdma env s.dev p proto) := by
  have ht := touch_setMeta s.dev hr (protoGetMeta proto)
  exact ((h.touch hp ht).dispatch hp hlt env _ (.inl ((reqPtr_setReq _ _ _ _).trans hr))).touch ht

/-! ## Completions of sends and immediates -/

/-- What a completion changes besides the count of a packet: the lists of the transport. -/
structure Returned (s : Sys) (loc : PktId → Loc) (p : PktId) (j : Loc) (E : Dev) (owed : List PktId) : Prop where
  keeps : Keeps p s.dev E
  frame : Frame s.dev E
  pk : E.pk = s.dev.pk
  out : E.out = s.dev.out
  posted : E.posted = s.dev.posted
  sends : Holds E.sends fun q => (Function.update loc p j q).Sending
  awaits : Holds owed fun q => (Function.update loc p j q).Awaiting
  mrs : s.dev.backend = .ibv → ∃ org, E.mrs.Perm (owed.map (fun q => (s.dev.pk q).context.rmaMem) ++ org) ∧
    org.length = s.dev.out.countP fun m => decide (OriginReg s.dev.maxInline m)

/-- The packet is in its new place when the lists have changed and its count has. -/
theorem Own.returned (h : Own s loc use) {j : Loc} {E : Dev} {owed : List PktId} (hR : Returned s loc p j E owed)
    (hi : (loc p).Transport ∧ loc p ≠ .posted) (hj : j.Transport ∧ j ≠ .posted)
    (hlt : j ≠ .hand → p < LC_SERVER_NUM_PKTS)
    {f : Context → Context} (hf : ∀ c, (f c).reqS.parent = c.reqS.parent ∧ (f c).poolid = c.poolid ∧
      (f c).rmaMem = c.rmaMem)
    (hrdz : ∀ a b, j = .rdz a b → (a = true ∨ b = true) ∧ (f (s.dev.pk p).context).proto = .rtr ∧
      (f (s.dev.pk p).context).ref = (a.toNat : Int) + b.toNat ∧ ReqOk (E.setCtx p f) use p)
    (hplain : j ≠ .send) : Own ⟨E.setCtx p f, s.held, owed⟩ (Function.update loc p j) use := by
  have hctx : ((E.setCtx p f).pk p).context = f (s.dev.pk p).context := by simp [Dev.setCtx, hR.pk]
  have hmem : ∀ q, ((E.setCtx p f).pk q).context.rmaMem = (s.dev.pk q).context.rmaMem := by
    intro q
    by_cases hq : q = p
    · subst hq
      rw [hctx]
      exact (hf _).2.2
    · simp [Dev.setCtx, hq, hR.pk]
  refine h.move (hR.keeps.trans (touch_ctx E p (fun c => (hf c).1) fun c =>
    (hf c).2.1).toKeeps) hi.1 hj.1 hlt ?_ hR.sends
    hR.awaits ?_ (fun e => absurd e hplain) fun hb => ?_
  · show Holds (E.posted.filterMap Post.ctx) _
    rw [hR.posted]
    exact h.posted.keepAt hi.2 hj.2
  · rw [hctx]
    exact hrdz
  · obtain ⟨org, h1, h2⟩ := hR.mrs hb
    refine ⟨org, ?_, ?_⟩
    · rw [List.map_congr_left fun q _ => hmem q]
      exact h1
    · show _ = E.out.countP _
      rw [hR.out]
      exact h2

/-- `--p->context.ref` of one that waits: it waits on, or its completion event is raised. -/
theorem Own.decRef (h : Own s loc use) {a b : Bool} (hp : loc p = .rdz a b) (a' b' : Bool)
    (hcount : a.toNat + b.toNat = a'.toNat + b'.toNat + 1) {E : Dev} {owed : List PktId} {j : Loc}
    (hj : j = if a' ∨ b' then .rdz a' b' else .hand) (hR : Returned s loc p j E owed) (env : Env) :
    Hands { s with owed := owed } loc p (decRef env E p) := by
  obtain ⟨-, hproto, href, hreq⟩ := h.rdz p a b hp
  have hlt : p < LC_SERVER_NUM_PKTS := h.lt_of_ne (by rw [hp]; simp)
  have hrefD : ((E.setCtx p fun c => { c with ref := c.ref - 1 }).pk p).context.ref = (a'.toNat : Int) + b'.toNat := by
    have : ((E.setCtx p fun c => { c with ref := c.ref - 1 }).pk p).context.ref = (s.dev.pk p).context.ref - 1 := by
      simp [Dev.setCtx, hR.pk]
    rw [this, href]
    omega
  have hreqD : ReqOk (E.setCtx p fun c => { c with ref := c.ref - 1 }) use p :=
    hreq.of_eq (by simp [Dev.reqPtr, Dev.setCtx, hR.pk])
  have hasks : Asks s.dev (E.setCtx p fun c => { c with ref := c.ref - 1 }) [] :=
    Asks.of_eq (hR.frame.trans (frame_setCtx _ _ _)) hR.out
  have hD : Own ⟨E.setCtx p fun c => { c with ref := c.ref - 1 }, s.held, owed⟩ (Function.update loc p j) use := by
    refine h.returned hR (by simp [hp, Loc.Transport]) ?_ (fun _ => hlt) (fun c => ⟨rfl, rfl, rfl⟩) ?_ ?_
    · rw [hj]
      split_ifs <;> simp [Loc.Transport]
    · rw [hj]
      intro x y hxy
      split_ifs at hxy with hc
      cases hxy
      refine ⟨hc, hproto, ?_, hreqD⟩
      rw [← hrefD]
      simp [Dev.setCtx, hR.pk]
    · rw [hj]
      split_ifs <;> simp
  unfold Server.decRef
  dsimp only
  rw [hrefD]
  -- at zero the packet is in hand, and goes to its completion
  by_cases hc : a' = true ∨ b' = true
  · rw [if_pos hc] at hj
    subst hj
    rw [if_neg (by cases a' <;> cases b' <;> simp at hc ⊢)]
    refine ⟨_, [], .rdz a' b', use, rfl, hasks, by simp, ?_⟩
    rw [List.append_nil]
    exact hD
  · rw [if_neg hc] at hj
    subst hj
    have h0 : a' = false ∧ b' = false := by simpa using hc
    rw [if_pos (by rw [h0.1, h0.2]; rfl)]
    obtain ⟨d, ps, k, use', he, ha, hk, ho⟩ := hD.dispatch (Function.update_self _ _ _) hlt env
      ((E.setCtx p fun c => { c with ref := c.ref - 1 }).pk p).context.ep hreqD
    rw [Function.update_idem] at ho
    exact ⟨d, ps, k, use', he, hasks.trans ha, hk, ho⟩

/-- A send completes: its packet returns to the pool, or an RTR has one event less to wait for. -/
theorem Own.serveSend (h : Own s loc use) (hp : p ∈ s.dev.sends) (env : Env) :
    Hands s loc p (lciServeSend env { s.dev with sends := s.dev.sends.erase p } p) := by
  have hsending : (loc p).Sending := h.sends.mem hp
  have hperm : s.dev.sends.Perm (p :: s.dev.sends.erase p) := List.perm_cons_erase hp
  have hlt : p < LC_SERVER_NUM_PKTS := h.lt_of_ne fun e => by rw [e] at hsending; exact hsending
  have hR : ∀ {j : Loc}, ¬ j.Sending → ((loc p).Awaiting ↔ j.Awaiting) →
      Returned s loc p j { s.dev with sends := s.dev.sends.erase p } s.owed := by
    intro j hj haw
    exact ⟨Keeps.of_eq p rfl rfl rfl rfl rfl rfl, Frame.of_eq rfl, rfl, rfl, rfl, h.sends.take hj hperm,
      h.owed.keep haw, h.mrs⟩
  cases hl : loc p with
  -- the RTR has left: the packet still waits for its immediate, if that has not come
  | rdz a b =>
    have ha : a = true := by rw [hl] at hsending; exact hsending
    subst ha
    have hproto := (h.rdz p true b hl).2.1
    unfold lciServeSend
    simp only [hproto]
    refine h.decRef hl false b (by simp; omega) rfl (hR ?_ ?_) env
    · cases b <;> simp [Loc.Sending]
    · cases b <;> simp [hl, Loc.Awaiting]
  | send =>
    have hown : Own { s with dev := { s.dev with sends := s.dev.sends.erase p } }
      (Function.update loc p .hand) use := by
      have := h.returned (hR (j := .hand) (by simp [Loc.Sending]) (by simp [hl, Loc.Awaiting]))
        (by simp [hl, Loc.Transport]) (by simp [Loc.Transport]) (by simp) (f := id) (fun _ => ⟨rfl, rfl, rfl⟩) (by simp)
        (by simp)
      have hid : (({ s.dev with sends := s.dev.sends.erase p } : Dev).setCtx p id) =
          { s.dev with sends := s.dev.sends.erase p } := by simp [Dev.setCtx]
      rwa [hid] at this
    have hhand : Function.update loc p .hand p = .hand := Function.update_self _ _ _
    have hfree : Frame s.dev { s.dev with sends := s.dev.sends.erase p } := Frame.of_eq rfl
    -- in all other cases the packet goes to the pool
    have hout : ∀ {D : Dev} {pool : Pool}, Touch p { s.dev with sends := s.dev.sends.erase p } D →
        Own { s with dev := D.setPool pool } (Function.update (Function.update loc p .hand) p .pool) use →
        Hands s loc p (some (D.setPool pool)) := by
      intro D pool ht ho
      rw [Function.update_idem] at ho
      refine ⟨_, [], .pool, use, rfl, Asks.of_eq (hfree.trans (ht.frame.trans (frame_setPool _ _))) ht.out, by simp, ?_⟩
      rw [List.append_nil]
      exact ho
    unfold lciServeSend lciPkFree
    cases hk : (s.dev.pk p).context.proto with
    | rtr => exact absurd hk (h.plain p hl)
    | long =>
      have ht := touch_event { s.dev with sends := s.dev.sends.erase p } p
        (.callback (s.dev.pk p).data.view.cb (s.dev.pk p).data.view.ce (s.dev.pk p).data.view.xfer)
      obtain ⟨pool, he, ho⟩ := (hown.touch hhand ht).poolPut hhand hlt env
      dsimp only at he ⊢
      rw [he]
      exact hout ht ho
    | rts =>
      obtain ⟨pool, he, ho⟩ := hown.poolPut hhand hlt env
      dsimp only at he ⊢
      rw [he]
      exact hout (Touch.refl _ _) ho
    | data =>
      obtain ⟨pool, he, ho⟩ := hown.freeData hhand hlt env
      dsimp only at he ⊢
      rw [he]
      exact hout (Touch.refl _ _) ho
  | _ => rw [hl] at hsending; exact hsending.elim

/-- An immediate arrives: the registration is released, and the packet has one event less to wait for. -/
theorem Own.serveImm (h : Own s loc use) (hp : p ∈ s.owed) (env : Env) :
    Hands { s with owed := s.owed.erase p } loc p (lciServeImm env s.dev p) := by
  have haw : (loc p).Awaiting := h.owed.mem hp
  have hperm : s.owed.Perm (p :: s.owed.erase p) := List.perm_cons_erase hp
  have hmrs : s.dev.backend = .ibv → ∃ org, (s.dev.mrs.erase (s.dev.pk p).context.rmaMem).Perm
      ((s.owed.erase p).map (fun q => (s.dev.pk q).context.rmaMem) ++ org) ∧
      org.length = s.dev.out.countP fun m => decide (OriginReg s.dev.maxInline m) := by
    intro hb
    obtain ⟨org, h1, h2⟩ := h.mrs hb
    refine ⟨org, ?_, h2⟩
    have h3 := h1.trans ((hperm.map fun q => (s.dev.pk q).context.rmaMem).append_right org)
    rw [List.map_cons, List.cons_append] at h3
    have := h3.erase (s.dev.pk p).context.rmaMem
    rwa [List.erase_cons_head] at this
  have hR : ∀ {j : Loc}, ¬ j.Awaiting → ((loc p).Sending ↔ j.Sending) →
      Returned s loc p j (lcServerRmaDereg s.dev (s.dev.pk p).context.rmaMem) (s.owed.erase p) := by
    intro j hj hs
    exact ⟨Keeps.of_eq p rfl rfl rfl rfl rfl rfl, Frame.of_eq rfl, rfl, rfl, rfl, h.sends.keep hs, h.owed.take hj hperm,
      hmrs⟩
  cases hl : loc p with
  | rdz a b =>
    have hb : b = true := by rw [hl] at haw; exact haw
    subst hb
    refine h.decRef hl a false (by simp) rfl (hR ?_ ?_) env
    · cases a <;> simp [Loc.Awaiting]
    · cases a <;> simp [hl, Loc.Sending]
  | _ => rw [hl] at haw; exact haw.elim

/-! ## Receives -/

/-- The result of a function that had no packet in its hand: defined, and every packet in a place. -/
def Settles (s : Sys) (loc : PktId → Loc) (r : Option Dev) : Prop :=
  ∃ d ps loc' use', r = some d ∧ Asks s.dev d ps ∧ Own ⟨d, s.held, s.owed ++ ps⟩ loc' use' ∧
    ∀ q, loc' q = .hand → loc q = .hand

/-- The hand is empty again. -/
theorem Hands.settles {r : Option Dev} {loc' : PktId → Loc} (h : Hands s loc p r)
    (hloc : ∀ q, q ≠ p → loc q = .hand → loc' q = .hand) : Settles s loc' r := by
  obtain ⟨d, ps, j, use', he, ha, hj, ho⟩ := h
  refine ⟨d, ps, _, use', he, ha, ho, fun q hq => ?_⟩
  by_cases hqp : q = p
  · subst hqp
    rw [Function.update_self] at hq
    exact absurd hq hj
  · rw [Function.update_of_ne hqp] at hq
    exact hloc q hqp hq

theorem Settles.trans {d : Dev} {r : Option Dev} (ha : Asks s.dev d []) (h : Settles { s with dev := d } loc r) :
    Settles s loc r := by
  obtain ⟨d', ps, loc', use', he, ha', ho, hl⟩ := h
  exact ⟨d', ps, loc', use', he, ha.trans ha', ho, hl⟩

/-- A receive is stored, or it finds a packet and `k` goes on with both. -/
theorem Own.recvMatch (h : Own s loc use) {u : ReqId} (hu : Idle s u) (hbuf : (s.dev.req u).buffer ≠ .null)
    {tag : CInt} (htag : tag ≠ -1) (rank : CInt) (ep : Nat) {k : Dev → PktId → Option Dev}
    (hk : ∀ t q use', q < LC_SERVER_NUM_PKTS → use' u = .on q →
      Own { s with dev := s.dev.setTbl ep t } (Function.update loc q .hand) use' →
      Hands { s with dev := s.dev.setTbl ep t } (Function.update loc q .hand) q (k (s.dev.setTbl ep t) q)) :
    Settles s loc (recvMatch s.dev rank tag ep u k) := by
  unfold Server.recvMatch recvInsert
  rcases insert_entries s.dev ep (lcMakeKey rank tag) (.req u) .client (cmpKeyOf_recv_ne htag) (tagOf_client_ne _) with
    ⟨l, x, r, hl, ht, hret, hval, hb⟩ | ⟨hret, hb⟩
  · rw [cmpKeyOf_eq] at ht
    obtain ⟨q, hq⟩ := sided_pkt (h.sided ep _ x (by rw [hl]; simp)) ht
    obtain ⟨hloc, ho⟩ := (h.useOn hu q).takePkt hq hl hb
    dsimp only
    rw [if_pos hret, hval, hq]
    have hH := hk _ q _ (h.lt_of_ne (by simp [hloc])) (Function.update_self _ _ _) ho
    refine Settles.trans (Asks.of_eq (frame_setTbl _ _ _) rfl) (hH.settles fun q' hne hq' => ?_)
    rwa [Function.update_of_ne hne] at hq'
  · dsimp only
    rw [if_neg (by rw [hret]; decide)]
    have ho := h.storeReq hu rfl (by unfold Sided; rw [tagOf_bit]; rfl) hbuf hb
    exact ⟨_, [], loc, _, rfl, Asks.of_eq (frame_setTbl _ _ _) rfl, by rw [List.append_nil]; exact ho, fun _ => id⟩

theorem Own.recvData (h : Own s loc use) (hp : loc p = .hand) (hlt : p < LC_SERVER_NUM_PKTS) (env : Env) (src ep : Nat)
    {u : ReqId} (hu : use u = .on p) : Hands s loc p (recvData env s.dev src ep u p) := by
  unfold Server.recvData
  obtain ⟨E, hE⟩ := store_some s.dev (b := .mem src) (by simp) ((s.dev.pk p).data.bytes.take (s.dev.reqOf p).size)
  have hsize : Touch p E (E.setSize (.user u) (E.reqOf p).size) := touch_setReq E p (.inr ⟨u, rfl⟩) fun _ => ⟨rfl, id⟩
  have ht := ((touch_store p hE).trans hsize).trans (touch_setReqPtr _ p (.user u))
  simp only [hE, Option.bind_eq_bind, Option.bind_some]
  exact ((h.touch hp ht).dispatch hp hlt env ep (.inr ⟨u, reqPtr_setReqPtr _ _ _, hu⟩)).touch ht

theorem Own.recvRts (h : Own s loc use) (hp : loc p = .hand) (hlt : p < LC_SERVER_NUM_PKTS)
    (hps : s.dev.pageSize < 2 ^ 30) (ep : Nat) {u : ReqId} (hu : use u = .on p) :
    Hands s loc p (some (recvRts s.dev ep u p)) := by
  have hsize : Touch p s.dev (s.dev.setSize (.user u) (s.dev.pk p).data.view.size) :=
    touch_setReq s.dev p (.inr ⟨u, rfl⟩) fun _ => ⟨rfl, id⟩
  have ht := hsize.trans (touch_setReqPtr _ p (.user u))
  refine Hands.touch ht ((h.touch hp ht).handsRts hp hlt ?_ ep (.inr ⟨u, reqPtr_setReqPtr _ _ _, hu⟩))
  rw [show _ = s.dev.pageSize from ht.frame.pageSize]
  exact hps

/-- Writes to the request of a receive, before it is looked up. -/
theorem Own.setUser (h : Own s loc use) {u : ReqId} (hu : Idle s u) {f : Req → Req}
    (hf : ∀ q, (f q).parent = q.parent ∧ (f q).buffer ≠ .null) :
    Own { s with dev := s.dev.setReq (.user u) f } loc use ∧ Idle { s with dev := s.dev.setReq (.user u) f } u ∧
      ((s.dev.setReq (.user u) f).req u).buffer ≠ .null := by
  have ht := touch_setReq s.dev LC_SERVER_NUM_PKTS (r := .user u) (f := f) (.inr ⟨u, rfl⟩)
    fun q => ⟨(hf q).1, fun _ => (hf q).2⟩
  refine ⟨h.touch (h.range _ le_rfl) ht, ⟨hu.table, hu.queue, hu.held, hu.rdz⟩, ?_⟩
  simpa [Dev.setReq] using (hf (s.dev.req u)).2

theorem Own.lcRecvm (h : Own s loc use) {u : ReqId} (hu : Idle s u) {tag : CInt} (htag : tag ≠ -1) (env : Env)
    (src size : Nat) (rank : CInt) (ep : Nat) : Settles s loc (lcRecvm env s.dev src size rank tag ep u) := by
  obtain ⟨ho, hi, hb⟩ := h.setUser hu (f := fun q => { q with buffer := .mem src, size := size, sync := false })
    fun _ => ⟨rfl, by simp⟩
  have hf : Frame s.dev (lciInitReq s.dev (.mem src) size (.user u)) := frame_setReq _ _ _
  refine Settles.trans (Asks.of_eq hf rfl) (ho.recvMatch hi hb htag rank ep fun t q use' hq hon hown => ?_)
  exact hown.recvData (Function.update_self _ _ _) hq env src ep hon

/-- The request of `lc_recv` and `lc_recvl`. -/
theorem Own.setPosting (h : Own s loc use) {u : ReqId} (hu : Idle s u) (src size : Nat) (rank : CInt) {tag : CInt}
    (htag : tag ≠ -1) (ep : Nat) {k : Dev → PktId → Option Dev}
    (hk : ∀ d q loc' use', d.pageSize = s.dev.pageSize → q < LC_SERVER_NUM_PKTS → loc' q = .hand → use' u = .on q →
      Own { s with dev := d } loc' use' → Hands { s with dev := d } loc' q (k d q)) :
    Settles s loc (Server.recvMatch ((lciInitReq s.dev (.mem src) size (.user u)).setRhandle
      (.user u) rank) rank tag ep u k) := by
  obtain ⟨ho, hi, -⟩ := h.setUser hu (f := fun q => { q with buffer := .mem src, size := size, sync := false })
    fun _ => ⟨rfl, by simp⟩
  have ht := touch_setReq (lciInitReq s.dev (.mem src) size (.user u)) LC_SERVER_NUM_PKTS (r := .user u)
    (f := fun q => { q with rhandle := rank }) (.inr ⟨u, rfl⟩) fun _ => ⟨rfl, id⟩
  have hb : (((lciInitReq s.dev (.mem src) size (.user u)).setRhandle (.user u) rank).req u).buffer ≠ .null := by
    simp [lciInitReq, Dev.setRhandle, Dev.setReq]
  have hf : Frame s.dev ((lciInitReq s.dev (.mem src) size (.user u)).setRhandle (.user u) rank) :=
    (frame_setReq _ _ _).trans ht.frame
  refine Settles.trans (Asks.of_eq hf rfl) ((ho.touch (ho.range _ le_rfl) ht).recvMatch
    ⟨hi.table, hi.queue, hi.held, hi.rdz⟩ hb htag rank ep fun t q use' hq hon hown => ?_)
  exact hk _ q _ use' rfl hq (Function.update_self _ _ _) hon hown

theorem Own.lcRecvl (h : Own s loc use) {u : ReqId} (hu : Idle s u) {tag : CInt} (htag : tag ≠ -1)
    (hps : s.dev.pageSize < 2 ^ 30) (src size : Nat) (rank : CInt) (ep : Nat) :
    Settles s loc (lcRecvl s.dev src size rank tag ep u) := by
  refine h.setPosting hu src size rank htag ep fun d q loc' use' hd hq hl hon hown => ?_
  exact hown.recvRts hl hq (by rw [hd]; exact hps) ep hon

theorem Own.lcRecv (h : Own s loc use) {u : ReqId} (hu : Idle s u) {tag : CInt} (htag : tag ≠ -1)
    (hps : s.dev.pageSize < 2 ^ 30) (env : Env) (src size : Nat) (rank : CInt) (ep : Nat) :
    Settles s loc (lcRecv env s.dev src size rank tag ep u) := by
  refine h.setPosting hu src size rank htag ep fun d q loc' use' hd hq hl hon hown => ?_
  split_ifs
  · exact hown.recvRts hl hq (by rw [hd]; exact hps) ep hon
  · exact hown.recvData hl hq env src ep hon

end Functions

end Lci.Server
