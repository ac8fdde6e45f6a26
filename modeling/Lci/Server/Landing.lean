/-
Where the data of long puts lands on the PSM2 backend, along every run. The wire of an origin holds the control and the
data message of its puts by turns, so that both kinds arrive in the order in which the origin called; the receives are
posted in the order in which the control messages arrived. Two merges of the same streams then decide which receive
the data of a put gets: its own when the origins come in the same order.
-/
import Lci.Server.LongPut

namespace Lci.Server.LongPut

open Lci.Hash Lci.Proto Matcher Merge Relation

variable {heap : Nat} {key : BitVec 32}

/-! ## The wires -/

/-- The two messages of a put, in order. -/
def wireOf (heap : Nat) (key : BitVec 32) (u : Put) : List (Put × MqMsg) := [(u, ctlMsg heap key u), (u, datMsg key u)]

/-- The wire of an origin: `pre` are its puts of which both messages have arrived, `mid` the one whose data is the next
message, and of the others nothing has arrived. -/
structure Wire (heap : Nat) (key : BitVec 32) (s : Net) (o : CInt) (pre : List Put) (mid : Option Put)
    (post : List Put) :
    Prop where
  issued : s.issued o = pre ++ mid.toList ++ post
  chan : s.chan o = mid.toList.map (fun u => (u, datMsg key u)) ++ post.flatMap (wireOf heap key)
  rtps : ofSource Put.origin o s.rtps = pre ++ mid.toList
  dats : ofSource Put.origin o s.dats = pre
  puts : ∀ u ∈ s.issued o, u.origin = o ∧ u.Ok

/-- The next message of an origin is the control message or the data of one of its puts. -/
theorem Wire.head {s : Net} {o : CInt} {pre post : List Put} {mid : Option Put} (h : Wire heap key s o pre mid post)
    {u : Put} {m : MqMsg} {l : List (Put × MqMsg)} (hc : s.chan o = (u, m) :: l) :
    u.origin = o ∧ u.Ok ∧ (m = ctlMsg heap key u ∧ mid = none ∧ (∃ post', post = u :: post' ∧
      l = (u, datMsg key u) :: post'.flatMap (wireOf heap key)) ∨
      m = datMsg key u ∧ mid = some u ∧ l = post.flatMap (wireOf heap key)) := by
  have hchan := h.chan
  rw [hc] at hchan
  cases mid with
  | some v =>
    obtain ⟨h1, h2⟩ := List.cons.inj hchan
    cases h1
    obtain ⟨ho, hok⟩ := h.puts u (by rw [h.issued]; simp)
    exact ⟨ho, hok, .inr ⟨rfl, rfl, h2⟩⟩
  | none =>
    cases post with
    | nil => cases hchan
    | cons v post' =>
      obtain ⟨h1, h2⟩ := List.cons.inj hchan
      cases h1
      obtain ⟨ho, hok⟩ := h.puts u (by rw [h.issued]; simp)
      exact ⟨ho, hok, .inl ⟨rfl, rfl, post', rfl, h2⟩⟩

/-- A wire depends on the calls, the channel and the arrivals of its origin only. -/
theorem Wire.of_eq {s t : Net} {o : CInt} {pre post : List Put} {mid : Option Put} (h : Wire heap key s o pre mid post)
    (hi : t.issued o = s.issued o) (hc : t.chan o = s.chan o)
    (hr : ofSource Put.origin o t.rtps = ofSource Put.origin o s.rtps)
    (hd : ofSource Put.origin o t.dats = ofSource Put.origin o s.dats) : Wire heap key t o pre mid post :=
  ⟨hi.trans h.issued, hc.trans h.chan, hr.trans h.rtps, hd.trans h.dats, by rw [hi]; exact h.puts⟩

/-- A put is called. -/
theorem Wire.issue {s : Net} {o : CInt} {pre post : List Put} {mid : Option Put} (h : Wire heap key s o pre mid post)
    {u : Put} (ho : u.origin = o) (hu : u.Ok) {d : Dev} {src size : Nat} (hb : u.bytes = readMem (s.org o).mem src size)
    (hout : d.out = (s.org o).out ++ [.put s.dev.me heap (BitVec.ofInt 32 ((u.addr : Int) - heap)) key
    (.mem src size) u.signal]) :
    Wire heap key (s.issue o d u) o pre mid (post ++ [u]) := by
  have hnew : ((d.out.drop (s.org o).out.length).flatMap (psm2Wire o (s.org o).mem)).map (fun m => (u, m)) =
      wireOf heap key u := by
    obtain ⟨o', n, addr, bytes, sig⟩ := u
    dsimp only at ho hb
    subst ho hb
    rw [hout, List.drop_left, List.flatMap_singleton, psm2Wire_put (n := n)]
    rfl
  refine ⟨?_, ?_, h.rtps, h.dats, ?_⟩
  · simp [Net.issue, h.issued]
  · rw [Net.issue]
    simp only [Function.update_self]
    rw [hnew, h.chan, List.flatMap_append, List.flatMap_singleton, List.append_assoc]
  · intro v hv
    simp only [Net.issue, Function.update_self, List.mem_append, List.mem_singleton] at hv
    rcases hv with hv | rfl
    · exact h.puts v hv
    · exact ⟨ho, hu⟩

theorem note_ctl (s : Net) (u : Put) : s.note (.msg u (ctlMsg heap key u)) = { s with rtps := s.rtps ++ [u] } :=
  if_neg (ctlMsg_not_key heap key u)

theorem note_dat (hk : IsKey key) (s : Net) (u : Put) :
    s.note (.msg u (datMsg key u)) = { s with dats := s.dats ++ [u] } :=
  if_pos (by rw [datMsg_tag2]; exact hk)

/-- A receive that comes to the queue changes no wire. -/
theorem Wire.offer_recv {s : Net} {o : CInt} {pre post : List Put} {mid : Option Put}
    (h : Wire heap key s o pre mid post)
    (x : Post) (w : Option Put) : Wire heap key (s.offer (.recv x w)) o pre mid post := by
  obtain ⟨-, -, hchan, hiss, -, -⟩ := offer_rest s (.recv x w)
  obtain ⟨-, hr, hd, -⟩ := offer_hist s (.recv x w)
  have hnote : (s.note (.recv x w)).rtps = s.rtps ∧ (s.note (.recv x w)).dats = s.dats := by
    cases w <;> exact ⟨rfl, rfl⟩
  exact h.of_eq (by rw [hiss]) (by rw [hchan]) (by rw [hr, hnote.1]) (by rw [hd, hnote.2])

/-- A message of another origin does not change it either. -/
theorem Wire.arrive_other {s : Net} {o o' : CInt} {pre post : List Put} {mid : Option Put}
    (h : Wire heap key s o pre mid post) {u : Put} (hu : u.origin = o') (hne : o ≠ o') (m : MqMsg)
    (l : List (Put × MqMsg)) :
    Wire heap key (({ s with chan := Function.update s.chan o' l } : Net).offer (.msg u m)) o pre mid post := by
  obtain ⟨-, -, hchan, hiss, -, -⟩ := offer_rest { s with chan := Function.update s.chan o' l } (.msg u m)
  obtain ⟨-, hr, hd, -⟩ := offer_hist { s with chan := Function.update s.chan o' l } (.msg u m)
  have hsrc : ofSource Put.origin o [u] = [] := ofSource_of_ne (by rw [hu]; exact hne.symm)
  refine h.of_eq (by rw [hiss]) ?_ ?_ ?_
  · rw [hchan]
    exact Function.update_of_ne hne _ _
  · rw [hr, Net.note]
    split_ifs
    · rfl
    · rw [ofSource_append, hsrc, List.append_nil]
  · rw [hd, Net.note]
    split_ifs
    · rw [ofSource_append, hsrc, List.append_nil]
    · rfl

/-- A message of the origin arrives. -/
theorem Wire.arrive (hk : IsKey key) {s : Net} {o : CInt} {pre post : List Put} {mid : Option Put}
    (h : Wire heap key s o pre mid post) {u : Put} {m : MqMsg} {l : List (Put × MqMsg)} (hc : s.chan o = (u, m) :: l) :
    ∃ pre mid post, Wire heap key (({ s with chan := Function.update s.chan o l } : Net).offer
      (.msg u m)) o pre mid post := by
  obtain ⟨ho, hu, hcase⟩ := h.head hc
  obtain ⟨hi, hchan, hr, hd, hp⟩ := h
  obtain ⟨-, -, hchan', hiss', -, -⟩ := offer_rest { s with chan := Function.update s.chan o l } (.msg u m)
  obtain ⟨-, hr', hd', -⟩ := offer_hist { s with chan := Function.update s.chan o l } (.msg u m)
  have hself : ofSource Put.origin o [u] = [u] := by
    subst ho
    exact ofSource_self
  rcases hcase with ⟨rfl, rfl, post', rfl, rfl⟩ | ⟨rfl, rfl, rfl⟩
  · rw [note_ctl] at hr' hd'
    refine ⟨pre, some u, post', ?_, ?_, ?_, ?_, ?_⟩
    · rw [hiss', hi]
      simp
    · rw [hchan']
      simp
    · rw [hr', ofSource_append, hr, hself]
      simp
    · rw [hd']
      exact hd
    · rw [hiss']
      exact hp
  · rw [note_dat hk] at hr' hd'
    refine ⟨pre ++ [u], none, post, ?_, ?_, ?_, ?_, ?_⟩
    · rw [hiss', hi]
      simp
    · rw [hchan']
      simp
    · rw [hr', hr]
      simp
    · rw [hd', ofSource_append, hd, hself]
    · rw [hiss']
      exact hp

/-! ## Progress calls, by what they hand to the queue -/

/-- A control message: the receive for the data comes first. -/
theorem progress_ctl {env : Env} {d d' : Dev} {p : PktId} {u : Put} (hd : d.heap = heap)
    (hlen : u.bytes.length < 2 ^ 64)
    (h : psm2Progress env d (some (.recv (eagerPost p) (ctlMsg heap key u))) = some d') :
    ∃ ps : List PktId, d'.posted.drop (d.posted.erase (eagerPost p)).length = putPost heap key u p :: ps.map eagerPost ∧
      d'.me = d.me ∧ d'.heap = d.heap ∧ d'.mem = d.mem ∧ signals d' = signals d := by
  obtain ⟨d₁, h₁, rfl⟩ := Option.map_eq_some_iff.1 h
  obtain ⟨hs, hv⟩ := psm2Serve_ctl hd hlen h₁
  obtain ⟨ps, hs', hv'⟩ := psm2Refill_still env d₁
  refine ⟨ps, ?_, hs'.me.trans hs.me, hs'.heap.trans hs.heap, hs'.mem.trans hs.mem, hv'.trans hv⟩
  rw [hs'.posted]
  show (d₁.posted ++ _).drop _ = _
  rw [hs.posted, List.append_assoc, List.drop_left]
  rfl

/-- The data of a put. -/
theorem progress_dat {env : Env} {d d' : Dev} {p : PktId} {u v : Put} (hk : IsKey key)
    (hw : ∀ w, u.signal = some w → w ≠ PSM_RDMA_IMM)
    (h : psm2Progress env d (some (.recv (putPost heap key v p) (datMsg key u))) = some d') :
    ∃ ps : List PktId, d'.posted.drop (d.posted.erase (putPost heap key v p)).length = ps.map eagerPost ∧
      d'.me = d.me ∧ d'.heap = d.heap ∧ d'.mem = writeMem d.mem (landing heap v) (u.sent.take (rmaLen v.bytes.length)) ∧
      signals d' = signals d ++ (u.signal.map fun w => (protoGetRgid w).toNat).toList := by
  obtain ⟨d₁, h₁, rfl⟩ := Option.map_eq_some_iff.1 h
  obtain ⟨hs, hv⟩ := psm2Serve_dat hk hw h₁
  obtain ⟨ps, hs', hv'⟩ := psm2Refill_still env d₁
  refine ⟨ps, ?_, hs'.me.trans hs.me, hs'.heap.trans hs.heap, hs'.mem.trans hs.mem, hv'.trans hv⟩
  rw [hs'.posted]
  show (d₁.posted ++ _).drop _ = _
  rw [hs.posted, List.drop_left]

theorem progress_idle {env : Env} {d d' : Dev} (h : psm2Progress env d none = some d') :
    ∃ ps : List PktId, d'.posted.drop d.posted.length = ps.map eagerPost ∧
      d'.me = d.me ∧ d'.heap = d.heap ∧ d'.mem = d.mem ∧ signals d' = signals d := by
  obtain ⟨d₁, h₁, rfl⟩ := Option.map_eq_some_iff.1 h
  cases h₁
  obtain ⟨ps, hs, hv⟩ := psm2Refill_still env d
  refine ⟨ps, ?_, hs.me, hs.heap, hs.mem, hv⟩
  rw [hs.posted]
  exact List.drop_left

/-! ## Every run -/

/-- The memory after the data of a put has come to the receive of `x.1`. -/
def land (heap : Nat) (mem : Nat → Byte) (x : Option Put × Put) : Nat → Byte :=
  match x.1 with
  | some v => writeMem mem (landing heap v) (x.2.sent.take (rmaLen v.bytes.length))
  | none => mem

/-- The completion events of some signals. -/
def eventsOf (l : List (Put × (Nat → Byte))) : List Nat :=
  l.filterMap fun x => x.1.signal.map fun w => (protoGetRgid w).toNat

/-- The target and the origins along a run from `s₀`, as far as the queue does not matter. -/
structure Base (s₀ s : Net) : Prop where
  me : s.dev.me = s₀.dev.me
  heap : s.dev.heap = s₀.dev.heap
  rep : ∀ o, o ≠ s₀.dev.me → (s.org o).rep s₀.dev.me = ⟨s₀.dev.heap, s₀.dev.heapRkey⟩
  mem : s.dev.mem = s.landed.foldl (land s₀.dev.heap) s₀.dev.mem
  /-- a signal was raised with the memory right after its put -/
  signalled : ∀ x ∈ s.signals, ∃ l r v, s.landed = l ++ (v, x.1) :: r ∧
    x.2 = (l ++ [(v, x.1)]).foldl (land s₀.dev.heap) s₀.dev.mem
  events : signals s.dev = signals s₀.dev ++ eventsOf s.signals

/-- What holds in every state of a run from `s₀`; `pend` is the put whose receive is about to be posted. -/
structure Inv (s₀ : Net) (pend : List Put) (s : Net) : Prop where
  base : Base s₀ s
  queue : Queue s₀.dev.heap s₀.dev.heapRkey pend s
  wires : ∀ o, ∃ pre mid post, Wire s₀.dev.heap s₀.dev.heapRkey s o pre mid post
  landed : (s.landed ++ datas s.done).Perm s.pairs

theorem Base.of_eq {s₀ s t : Net} (h : Base s₀ s) (horg : t.org = s.org) (hdev : t.dev = s.dev)
    (hland : t.landed = s.landed) (hsig : t.signals = s.signals) : Base s₀ t := by
  obtain ⟨hme, hheap, hrep, hmem, hsigs, hev⟩ := h
  constructor
  · rw [hdev, hme]
  · rw [hdev, hheap]
  · rw [horg]
    exact hrep
  · rw [hdev, hland, hmem]
  · rw [hsig, hland]
    exact hsigs
  · rw [hdev, hsig, hev]

/-- An item that comes to the queue. -/
theorem Base.offer {s₀ s : Net} (h : Base s₀ s) (i : Item) : Base s₀ (s.offer i) := by
  obtain ⟨horg, hdev, -, -, hland, hsig⟩ := offer_rest s i
  exact h.of_eq horg hdev hland hsig

/-- A progress call that changes neither memory nor signals. -/
theorem Base.dev {s₀ s t : Net} (h : Base s₀ s) (horg : t.org = s.org) (hme : t.dev.me = s.dev.me)
    (hheap : t.dev.heap = s.dev.heap) (hmem : t.dev.mem = s.dev.mem) (hev : signals t.dev = signals s.dev)
    (hland : t.landed = s.landed) (hsig : t.signals = s.signals) : Base s₀ t := by
  constructor
  · rw [hme, h.me]
  · rw [hheap, h.heap]
  · rw [horg]
    exact h.rep
  · rw [hmem, hland, h.mem]
  · rw [hsig, hland]
    exact h.signalled
  · rw [hev, hsig, h.events]

section

variable {s₀ s : Net} {pend : List Put} (hk : IsKey s₀.dev.heapRkey) (h0 : s₀.dev.heapRkey ≠ 0)

include hk h0

/-- The data messages that have got a receive, when an item comes. -/
theorem Queue.landed_offer (hq : Queue s₀.dev.heap s₀.dev.heapRkey pend s)
    (hl : (s.landed ++ datas s.done).Perm s.pairs) {i : Item} (hi : ItemOk s₀.dev.heap s₀.dev.heapRkey i) :
    ((s.offer i).landed ++ datas (s.offer i).done).Perm (s.offer i).pairs := by
  rw [(offer_rest s i).2.2.2.2.1]
  rcases hq.offer_cases hk h0 hi with ⟨j, e, -, -, -, -, hdone, hpairs⟩ | ⟨-, hdone, hpairs⟩
  · rw [hdone, hpairs, datas_append, ← List.append_assoc]
    exact hl.append_right _
  · rw [hdone, hpairs]
    exact hl

/-- A receive comes to the queue. -/
theorem Inv.offer_recv (h : Inv s₀ pend s) {x : Post} {w : Option Put} {pend' : List Put}
    (hi : ItemOk s₀.dev.heap s₀.dev.heapRkey (.recv x w))
    (hq : Queue s₀.dev.heap s₀.dev.heapRkey pend' (s.offer (.recv x w))) : Inv s₀ pend' (s.offer (.recv x w)) := by
  refine ⟨h.base.offer _, hq, ?_, h.queue.landed_offer hk h0 h.landed hi⟩
  intro o
  obtain ⟨pre, mid, post, hw⟩ := h.wires o
  exact ⟨pre, mid, post, hw.offer_recv x w⟩

/-- The receives for eager messages that a progress call posts. -/
theorem Inv.offer_eagers (h : Inv s₀ pend s) (u : Option Put) (ps : List PktId) :
    Inv s₀ pend (s.offerAll u (ps.map eagerPost)) := by
  induction ps generalizing s with
  | nil => exact h
  | cons p ps ih =>
    have hone : Inv s₀ pend (s.offer (.recv (eagerPost p) none)) :=
      h.offer_recv hk h0 (.eager p) (h.queue.offer_eager hk h0 p)
    exact ih hone

/-- The receive for the data of a put, and those for eager messages after it. -/
theorem Inv.offer_put {u : Put} (h : Inv s₀ [u] s) (p : PktId) (ps : List PktId) :
    Inv s₀ [] (s.offerAll (some u) (putPost s₀.dev.heap s₀.dev.heapRkey u p :: ps.map eagerPost)) := by
  have hne : (putPost s₀.dev.heap s₀.dev.heapRkey u p).tag2 ≠ PSM_RECV_DATA := by
    intro e
    have hk' : IsKey (putPost s₀.dev.heap s₀.dev.heapRkey u p).tag2 := hk
    rw [e] at hk'
    exact absurd hk' (by decide)
  have hone := h.offer_recv hk h0 (.post u p) (h.queue.offer_put hk h0 p)
  have hcons : s.offerAll (some u) (putPost s₀.dev.heap s₀.dev.heapRkey u p :: ps.map eagerPost) =
      (s.offer (.recv (putPost s₀.dev.heap s₀.dev.heapRkey u p) (some u))).offerAll (some u) (ps.map eagerPost) := by
    rw [Net.offerAll, List.foldl_cons, if_neg hne]
    rfl
  rw [hcons]
  exact hone.offer_eagers hk h0 (some u) ps

/-- A message arrives. -/
theorem Inv.arrive (h : Inv s₀ [] s) {o : CInt} {u : Put} {m : MqMsg} {l : List (Put × MqMsg)}
    (hc : s.chan o = (u, m) :: l) :
    Inv s₀ [] (({ s with chan := Function.update s.chan o l } : Net).offer (.msg u m)) := by
  obtain ⟨pre, mid, post, hw⟩ := h.wires o
  obtain ⟨ho, hu, hcase⟩ := hw.head hc
  have hb : Base s₀ { s with chan := Function.update s.chan o l } := h.base.of_eq rfl rfl rfl rfl
  have hq : Queue s₀.dev.heap s₀.dev.heapRkey [] { s with chan := Function.update s.chan o l } :=
    ⟨h.queue.items, h.queue.done, h.queue.oneSided, h.queue.recvs, h.queue.msgs, h.queue.pairs, h.queue.ctl⟩
  have hwires : ∀ o', ∃ pre mid post, Wire s₀.dev.heap s₀.dev.heapRkey
      (({ s with chan := Function.update s.chan o l } : Net).offer (.msg u m)) o' pre mid post := by
    intro o'
    by_cases e : o' = o
    · subst e
      exact hw.arrive hk hc
    · obtain ⟨pre', mid', post', hw'⟩ := h.wires o'
      exact ⟨pre', mid', post', hw'.arrive_other ho e m l⟩
  rcases hcase with ⟨rfl, -⟩ | ⟨rfl, -⟩
  · exact ⟨hb.offer _, hq.offer_ctl hk h0 hu, hwires, hq.landed_offer hk h0 h.landed (.ctl u hu)⟩
  · exact ⟨hb.offer _, hq.offer_dat hk h0 hu, hwires, hq.landed_offer hk h0 h.landed (.dat u hu)⟩

end

/-- A step that leaves queue, wires and history alone. -/
theorem Inv.of_eq {s₀ s t : Net} {pend : List Put} (h : Inv s₀ pend s) (hb : Base s₀ t) (hmq : t.mq = s.mq)
    (hdone : t.done = s.done) (hposts : t.posts = s.posts) (hpairs : t.pairs = s.pairs) (hrtps : t.rtps = s.rtps)
    (hdats : t.dats = s.dats) (hland : t.landed = s.landed) (hchan : t.chan = s.chan) (hiss : t.issued = s.issued) :
    Inv s₀ pend t := by
  refine ⟨hb, ?_, ?_, ?_⟩
  · obtain ⟨h1, h2, h3, h4, h5, h6, h7⟩ := h.queue
    constructor
    · rw [hmq]
      exact h1
    · rw [hdone]
      exact h2
    · rw [hmq]
      exact h3
    · rw [hmq, hposts, hdats]
      exact h4
    · rw [hmq, hposts, hdats]
      exact h5
    · rw [hpairs, hposts, hdats]
      exact h6
    · rw [hposts, hdone, hmq, hrtps]
      exact h7
  · intro o
    obtain ⟨pre, mid, post, hw⟩ := h.wires o
    exact ⟨pre, mid, post, hw.of_eq (by rw [hiss]) (by rw [hchan]) (by rw [hrtps]) (by rw [hdats])⟩
  · rw [hland, hdone, hpairs]
    exact h.landed

/-- A put is called. -/
theorem Inv.issue {s₀ s : Net} (h : Inv s₀ [] s) {o : CInt} (hne : o ≠ s.dev.me) {u : Put} (ho : u.origin = o)
    (hu : u.Ok) {d : Dev}
    {src size : Nat} (hbytes : u.bytes = readMem (s.org o).mem src size) (hrep : d.rep = (s.org o).rep)
    (hout : d.out = (s.org o).out ++ [.put s.dev.me ((s.org o).rep s.dev.me).base (putOffset (s.org o) s.dev.me u.addr)
      ((s.org o).rep s.dev.me).rkey (.mem src size) u.signal]) : Inv s₀ [] (s.issue o d u) := by
  obtain ⟨hb, hq, hwires, hland⟩ := h
  have hpeer : (s.org o).rep s.dev.me = ⟨s₀.dev.heap, s₀.dev.heapRkey⟩ := by
    rw [hb.me] at hne ⊢
    exact hb.rep o hne
  rw [putOffset, hpeer] at hout
  refine ⟨⟨hb.me, hb.heap, ?_, hb.mem, hb.signalled, hb.events⟩,
    ⟨hq.items, hq.done, hq.oneSided, hq.recvs, hq.msgs, hq.pairs, hq.ctl⟩, ?_, hland⟩
  · intro o' ho'
    by_cases e : o' = o
    · subst e
      simp only [Net.issue, Function.update_self]
      rw [hrep]
      exact hb.rep o' ho'
    · simp only [Net.issue, Function.update_of_ne e]
      exact hb.rep o' ho'
  · intro o'
    obtain ⟨pre, mid, post, hw⟩ := hwires o'
    by_cases e : o' = o
    · subst e
      exact ⟨pre, mid, post ++ [u], hw.issue ho hu hbytes hout⟩
    · exact ⟨pre, mid, post, hw.of_eq (Function.update_of_ne e _ _) (Function.update_of_ne e _ _) rfl rfl⟩

theorem makeProto_long_ne (g m : CInt) : makeProto g .long m ≠ PSM_RDMA_IMM := by
  intro e
  have hbit := congrArg (fun w : BitVec 32 => w.getLsbD 0) e
  simp [makeProto, LcProto.bits, PSM_RDMA_IMM] at hbit

section

variable {s₀ s : Net} (hk : IsKey s₀.dev.heapRkey)

/-- A control message has been handled, and the receive for its data is about to be posted. -/
theorem Inv.handle_ctl (h : Inv s₀ [] s) {l r : List Done} {p : PktId} {u : Put} {d : Dev}
    (hdone : s.done = l ++ ⟨eagerPost p, none, u, ctlMsg s₀.dev.heap s₀.dev.heapRkey u⟩ :: r)
    (hl : ∀ x ∈ l, IsKey x.msg.tag.tag2) (hme : d.me = s.dev.me) (hheap : d.heap = s.dev.heap)
    (hmem : d.mem = s.dev.mem) (hev : signals d = signals s.dev) :
    Inv s₀ [u] (({ s with done := l ++ r } : Net).handle ⟨eagerPost p, none, u,
      ctlMsg s₀.dev.heap s₀.dev.heapRkey u⟩ d) := by
  obtain ⟨hb, hq, hwires, hland⟩ := h
  have hctlsl : ctls l = [] := by
    rw [ctls, List.filterMap_eq_nil_iff]
    intro x hx
    rw [if_pos (hl x hx)]
  have hsplit : ∀ x : Done, l ++ x :: r = l ++ ([x] ++ r) := fun _ => rfl
  rw [Net.handle, if_neg (ctlMsg_not_key _ _ u)]
  refine ⟨hb.dev rfl hme hheap hmem hev rfl rfl, ⟨hq.items, ?_, hq.oneSided, hq.recvs, hq.msgs, hq.pairs, ?_⟩, ?_, ?_⟩
  · intro e he
    refine hq.done e ?_
    rw [hdone]
    simp only [List.mem_append, List.mem_cons] at he ⊢
    tauto
  · rw [← hq.ctl, hdone, hsplit, ctls_append, ctls_append, ctls_append, ctls_ctl, hctlsl]
    simp
  · intro o
    obtain ⟨pre, mid, post, hw⟩ := hwires o
    exact ⟨pre, mid, post, hw.of_eq rfl rfl rfl rfl⟩
  · rw [hdone, hsplit, datas_append, datas_append, datas_ctl] at hland
    rw [datas_append]
    simpa using hland

include hk

/-- The data of a put has been handled. -/
theorem Inv.handle_dat (h : Inv s₀ [] s) {l r : List Done} {p : PktId} {u v : Put} {d : Dev}
    (hdone : s.done = l ++ ⟨putPost s₀.dev.heap s₀.dev.heapRkey v p, some v, u, datMsg s₀.dev.heapRkey u⟩ :: r)
    (hme : d.me = s.dev.me) (hheap : d.heap = s.dev.heap)
    (hmem : d.mem = writeMem s.dev.mem (landing s₀.dev.heap v) (u.sent.take (rmaLen v.bytes.length)))
    (hev : signals d = signals s.dev ++ (u.signal.map fun w => (protoGetRgid w).toNat).toList) :
    Inv s₀ [] (({ s with done := l ++ r } : Net).handle
      ⟨putPost s₀.dev.heap s₀.dev.heapRkey v p, some v, u, datMsg s₀.dev.heapRkey u⟩ d) := by
  obtain ⟨hb, hq, hwires, hland⟩ := h
  have hsplit : ∀ x : Done, l ++ x :: r = l ++ ([x] ++ r) := fun _ => rfl
  rw [Net.handle, if_pos (by rw [datMsg_tag2]; exact hk)]
  have hmem' : d.mem = (s.landed ++ [(some v, u)]).foldl (land s₀.dev.heap) s₀.dev.mem := by
    rw [List.foldl_append, ← hb.mem, hmem]
    rfl
  refine ⟨⟨hme.trans hb.me, hheap.trans hb.heap, hb.rep, hmem', ?_, ?_⟩,
    ⟨hq.items, ?_, hq.oneSided, hq.recvs, hq.msgs, hq.pairs, ?_⟩, ?_, ?_⟩
  · intro x hx
    rcases List.mem_append.1 hx with hx | hx
    · obtain ⟨a, b, w, hab, hm⟩ := hb.signalled x hx
      exact ⟨a, b ++ [(some v, u)], w, by simp [hab], hm⟩
    · -- the signal of this put
      have hx' : x = (u, d.mem) := by
        cases hs : u.signal <;> simp_all
      subst hx'
      exact ⟨s.landed, [], some v, rfl, hmem'⟩
  · have hone : eventsOf (u.signal.map fun _ => (u, d.mem)).toList =
      (u.signal.map fun w => (protoGetRgid w).toNat).toList := by
      cases hs : u.signal <;> simp [eventsOf, hs]
    rw [eventsOf, List.filterMap_append, ← List.append_assoc, hev, hb.events]
    congr 1
    exact hone.symm
  · intro e he
    refine hq.done e ?_
    rw [hdone]
    simp only [List.mem_append, List.mem_cons] at he ⊢
    tauto
  · rw [← hq.ctl, hdone, hsplit, ctls_append, ctls_append, ctls_append, ctls_dat hk]
    simp
  · intro o
    obtain ⟨pre, mid, post, hw⟩ := hwires o
    exact ⟨pre, mid, post, hw.of_eq rfl rfl rfl rfl⟩
  · rw [hdone, hsplit, datas_append, datas_append, datas_dat hk] at hland
    refine List.Perm.trans ?_ hland
    rw [datas_append, List.append_assoc]
    refine List.Perm.append_left _ ?_
    rw [List.singleton_append, List.singleton_append]
    exact List.perm_middle.symm

end

/-- What one step preserves. -/
theorem Inv.step {s₀ s t : Net} (hk : IsKey s₀.dev.heapRkey) (h0 : s₀.dev.heapRkey ≠ 0) (h : Inv s₀ [] s)
    (hst : Step s t) :
    Inv s₀ [] t := by
  cases hst with
  | putl o env src size addr ep cb ce xfer hne hsize hcall =>
    obtain ⟨hout, hrep⟩ := lcPutl_wire hcall
    refine h.issue hne rfl ⟨?_, ?_⟩ rfl hrep hout
    · simpa [readMem] using hsize
    · intro w hw
      cases hw
  | putls o env src size addr metaVal ep cb ce xfer hne hsize hcall =>
    obtain ⟨hout, hrep⟩ := lcPutls_wire hcall
    refine h.issue hne rfl ⟨?_, ?_⟩ rfl hrep hout
    · simpa [readMem] using hsize
    · intro w hw
      cases hw
      exact makeProto_long_ne _ _
  | @org o d _ hrep =>
    obtain ⟨hme, hheap, hreps, hmem, hsig, hev⟩ := h.base
    refine h.of_eq ⟨hme, hheap, ?_, hmem, hsig, hev⟩ rfl rfl rfl rfl rfl rfl rfl rfl rfl
    intro o' ho'
    by_cases e : o' = o
    · subst e
      dsimp only
      rw [Function.update_self, hrep]
      exact hreps o' ho'
    · dsimp only
      rw [Function.update_of_ne e]
      exact hreps o' ho'
  | arrive o hc => exact h.arrive hk h0 hc
  | app hme hheap _ hmem hev =>
    refine h.of_eq (h.base.dev rfl hme hheap hmem ?_ rfl rfl) rfl rfl rfl rfl rfl rfl rfl rfl rfl
    unfold signals
    rw [hev]
  | @idle env d hp =>
    obtain ⟨ps, hps, hme, hheap, hmem, hev⟩ := progress_idle hp
    have hi : Inv s₀ [] { s with dev := d } :=
      h.of_eq (h.base.dev rfl hme hheap hmem hev rfl rfl) rfl rfl rfl rfl rfl rfl rfl rfl rfl
    rw [hps]
    exact hi.offer_eagers hk h0 none ps
  | @progress env l r e d hdone horder hp =>
    -- a completion is that of a control message or that of data
    have hok : DoneOk s₀.dev.heap s₀.dev.heapRkey e := h.queue.done e (by rw [hdone]; simp)
    cases hok with
    | ctl p u hu =>
      obtain ⟨ps, hps, hme, hheap, hmem, hev⟩ := progress_ctl h.base.heap hu.1 hp
      rw [hps]
      exact (h.handle_ctl hdone (horder (ctlMsg_not_key _ _ u)) hme hheap hmem hev).offer_put hk h0 p ps
    | dat v p u hu =>
      obtain ⟨ps, hps, hme, hheap, hmem, hev⟩ := progress_dat hk hu.2 hp
      rw [hps]
      exact (h.handle_dat hk hdone hme hheap hmem hev).offer_eagers hk h0 (some u) ps

/-- The key of the heap has 28 bits. -/
theorem Starts.isKey {s : Net} (h : Starts s) : IsKey s.dev.heapRkey := by
  obtain ⟨wid, d₀, hb, hinit⟩ := h.init
  rw [lciDevInit_eq] at hinit
  have hkey : s.dev.heapRkey = d₀.nextKey &&& 0x0fffffff := by
    rw [← Option.some.inj hinit]
    simp [lcServerInit, hb, lcServerGetFreeKey]
  rw [hkey, IsKey, BitVec.and_assoc]
  exact BitVec.and_zero

theorem Starts.inv {s : Net} (h : Starts s) : Inv s [] s := by
  obtain ⟨hchan, hmq, hdone, hrtps, hdats, hposts, hpairs, hland, hsig⟩ := h.empty
  refine ⟨⟨rfl, rfl, fun o ho => (h.rep o ho).2, ?_, ?_, ?_⟩, ⟨?_, ?_, ?_, ?_, ?_, ?_, ?_⟩, ?_, ?_⟩
  · rw [hland]
    rfl
  · simp [hsig]
  · simp [hsig, eventsOf]
  · simp [hmq]
  · simp [hdone]
  · simp [hmq, OneSided]
  · simp [hmq, hposts, waiting]
  · simp [hmq, hdats, waiting]
  · simp [hpairs, hposts]
  · simp [hposts, hdone, hmq, hrtps, ctls, waiting]
  · intro o
    obtain ⟨h1, h2⟩ := hchan o
    refine ⟨[], none, [], ?_, ?_, ?_, ?_, ?_⟩
    · simp [h2]
    · simp [h1]
    · simp [hrtps, ofSource]
    · simp [hdats, ofSource]
    · simp [h2]
  · simp [hland, hdone, hpairs, datas]

theorem Inv.run {s₀ s : Net} (h : Starts s₀) (hr : ReflTransGen Step s₀ s) : Inv s₀ [] s := by
  induction hr with
  | refl => exact h.inv
  | tail _ hst ih => exact ih.step h.isKey h.key hst

/-! ## Where the data lands -/

section

variable {s₀ s : Net} (h : Inv s₀ [] s)

include h

theorem Inv.merges : Merges Put.origin s.issued s.rtps ∧ Merges Put.origin s.issued s.dats := by
  constructor
  · intro o
    obtain ⟨pre, mid, post, hw⟩ := h.wires o
    rw [hw.rtps, hw.issued]
    exact List.prefix_append _ _
  · intro o
    obtain ⟨pre, mid, post, hw⟩ := h.wires o
    rw [hw.dats, hw.issued, List.append_assoc]
    exact List.prefix_append _ _

/-- The receives are posted in the order of the control messages. -/
theorem Inv.posts_prefix : s.posts <+: s.rtps := by
  have hctl := h.queue.ctl
  rw [List.append_assoc, List.append_assoc] at hctl
  have hlen : (s.posts.map some).length = s.posts.length := List.length_map some
  refine List.prefix_iff_eq_take.2 ?_
  refine List.map_injective_iff.2 (Option.some_injective Put) ?_
  rw [List.map_take, ← hctl, ← hlen, List.take_left]

theorem Inv.pairs_eq : s.pairs = (s.posts.zip s.dats).map fun x => (some x.1, x.2) := by
  have hinj : Function.Injective (Prod.map id some : Option Put × Put → Option Put × Option Put) :=
    Function.Injective.prodMap Function.injective_id (Option.some_injective Put)
  refine List.map_injective_iff.2 hinj ?_
  rw [h.queue.pairs, List.zip_map, List.map_map]
  rfl

/-- Every data message has the receive of its own put exactly when the origins come in the same order. -/
theorem Inv.own_iff : (∀ x ∈ s.pairs, x.1 = some x.2) ↔
    ∀ x ∈ (s.rtps.take s.posts.length).zip s.dats, x.1.origin = x.2.origin := by
  obtain ⟨hr, hd⟩ := h.merges
  rw [← List.prefix_iff_eq_take.1 h.posts_prefix, ← zip_eq_iff (hr.of_prefix h.posts_prefix) hd, h.pairs_eq,
    List.forall_mem_map]
  simp only [Option.some.injEq]

end

/-- No message is on its way or waits in the queue, and everything completed was handled. -/
structure Quiet (s : Net) : Prop where
  chan : ∀ o, s.chan o = []
  mq : ∀ e ∈ s.mq, e.side = .posted
  done : s.done = []

/-- Every put has landed at its own address: its data got the receive that was posted for it, the memory is what the
puts whose data was handled make of it, a signal was raised when the bytes of its put were in their place, and when
nothing is under way every put has been handled once. -/
structure Lands (s₀ s : Net) : Prop where
  own : ∀ x ∈ s.pairs, x.1 = some x.2
  memory : s.dev.mem = (s.landed.map Prod.snd).foldl (fun mem u => writeMem mem u.addr u.bytes) s₀.dev.mem
  ranges : ∀ u ∈ s.landed.map Prod.snd, (∀ v ∈ s.landed.map Prod.snd, v ≠ u →
    v.addr + v.bytes.length ≤ u.addr ∨ u.addr + u.bytes.length ≤ v.addr) →
    readMem s.dev.mem u.addr u.bytes.length = u.bytes
  events : signals s.dev = signals s₀.dev ++ eventsOf s.signals
  signals : ∀ x ∈ s.signals, x.1 ∈ s.landed.map Prod.snd ∧ readMem x.2 x.1.addr x.1.bytes.length = x.1.bytes
  quiet : Quiet s → ∀ o, (ofSource Put.origin o (s.landed.map Prod.snd)).Perm (s.issued o)

theorem readMem_writeMem_of_disjoint (mem : Nat → Byte) {a b n : Nat} {bytes : List Byte}
    (h : b + bytes.length ≤ a ∨ a + n ≤ b) : readMem (writeMem mem b bytes) a n = readMem mem a n := by
  unfold readMem
  refine List.map_congr_left fun i hi => ?_
  rw [List.mem_range] at hi
  exact writeMem_outside mem (by omega)

/-- The bytes of a put that no other overlaps are in their place after all of them. -/
theorem readMem_foldl {l : List Put} {u : Put} (hu : u ∈ l) (hd : ∀ v ∈ l, v ≠ u →
    v.addr + v.bytes.length ≤ u.addr ∨ u.addr + u.bytes.length ≤ v.addr) (mem : Nat → Byte) :
    readMem (l.foldl (fun mem u => writeMem mem u.addr u.bytes) mem) u.addr u.bytes.length = u.bytes := by
  induction l using List.reverseRecOn with
  | nil => cases hu
  | append_singleton l v ih =>
    rw [List.foldl_append]
    by_cases e : v = u
    · subst e
      exact readMem_writeMem _ _ _
    · have hul : u ∈ l := by
        rcases List.mem_append.1 hu with hu | hu
        · exact hu
        · exact absurd (List.mem_singleton.1 hu).symm e
      rw [List.foldl_cons, List.foldl_nil, readMem_writeMem_of_disjoint _ (hd v (by simp) e)]
      exact ih hul fun w hw => hd w (List.mem_append_left _ hw)

section

variable {s₀ s : Net} (h : Inv s₀ [] s)

include h

/-- Whatever holds of all pairs holds of those that were handled. -/
theorem Inv.mem_pairs_of_landed {x : Option Put × Put} (hx : x ∈ s.landed) : x ∈ s.pairs :=
  h.landed.subset (List.mem_append_left _ hx)

theorem Inv.mem_dats_of_landed {x : Option Put × Put} (hx : x ∈ s.landed) : x.2 ∈ s.dats := by
  have hp := h.mem_pairs_of_landed hx
  rw [h.pairs_eq] at hp
  obtain ⟨y, hy, rfl⟩ := List.mem_map.1 hp
  exact (List.of_mem_zip hy).2

/-- When nothing is under way every put of an origin has been handled. -/
theorem Inv.quiet (hq : Quiet s) (o : CInt) : (ofSource Put.origin o (s.landed.map Prod.snd)).Perm (s.issued o) := by
  -- nothing waits in the queue, so all data has got a receive
  have hnone : waiting s₀.dev.heapRkey .arrived s.mq = [] := by
    refine waiting_eq_nil.2 ?_
    rintro e he ⟨-, hs⟩
    rw [hq.mq e he] at hs
    cases hs
  have hle : s.dats.length ≤ s.posts.length := by
    have := h.queue.msgs
    rw [hnone] at this
    simpa using this.symm
  have hdats : s.pairs.map Prod.snd = s.dats := by
    rw [h.pairs_eq, List.map_map]
    exact List.map_snd_zip hle
  have hperm : (s.landed.map Prod.snd).Perm s.dats := by
    have := h.landed
    rw [hq.done] at this
    rw [← hdats]
    exact (by simpa [datas] using this : s.landed.Perm s.pairs).map _
  -- and no message of the origin is on its way
  obtain ⟨pre, mid, post, hw⟩ := h.wires o
  have hchan := hw.chan
  rw [hq.chan o] at hchan
  have hmid : mid = none := by
    cases mid with
    | none => rfl
    | some u => cases hchan
  have hpost : post = [] := by
    cases post with
    | nil => rfl
    | cons u post =>
      rw [hmid] at hchan
      cases hchan
  have hissued : s.issued o = ofSource Put.origin o s.dats := by
    rw [hw.dats, hw.issued, hmid, hpost]
    simp
  rw [hissued]
  exact hperm.filter _

/-- The data of a put that has its own receive is written at its own address. -/
theorem Inv.land_eq (hown : ∀ x ∈ s.pairs, x.1 = some x.2)
    (haddr : ∀ u ∈ s.dats, s₀.dev.heap ≤ u.addr ∧ u.addr < s₀.dev.heap + 2 ^ 32 ∧ u.bytes.length < 2 ^ 32)
    (mem : Nat → Byte)
    {x : Option Put × Put} (hx : x ∈ s.landed) : land s₀.dev.heap mem x = writeMem mem x.2.addr x.2.bytes := by
  rw [land, hown x (h.mem_pairs_of_landed hx)]
  dsimp only
  obtain ⟨hlo, hhi, hlen⟩ := haddr x.2 (h.mem_dats_of_landed hx)
  rw [landing_eq_iff.2 ⟨hlo, hhi⟩, Put.sent_of_lt hlen, rmaLen_of_lt hlen, List.take_length]

theorem Inv.lands (hown : ∀ x ∈ s.pairs, x.1 = some x.2)
    (haddr : ∀ u ∈ s.dats, s₀.dev.heap ≤ u.addr ∧ u.addr < s₀.dev.heap + 2 ^ 32 ∧ u.bytes.length < 2 ^ 32) :
    Lands s₀ s := by
  have hmem : s.dev.mem = (s.landed.map Prod.snd).foldl (fun mem u => writeMem mem u.addr u.bytes) s₀.dev.mem := by
    rw [h.base.mem, List.foldl_map]
    exact List.foldl_ext _ _ _ fun mem x hx => h.land_eq hown haddr mem hx
  refine ⟨hown, hmem, ?_, h.base.events, ?_, h.quiet⟩
  · intro u hu hd
    rw [hmem]
    exact readMem_foldl hu hd s₀.dev.mem
  · intro x hx
    obtain ⟨l, r, v, hl, hm⟩ := h.base.signalled x hx
    have hxl : (v, x.1) ∈ s.landed := by
      rw [hl]
      simp
    refine ⟨List.mem_map.2 ⟨_, hxl, rfl⟩, ?_⟩
    rw [hm, List.foldl_append, List.foldl_cons, List.foldl_nil, h.land_eq hown haddr _ hxl]
    exact readMem_writeMem _ _ _

end

/-- Long puts of any number of origins to one target, in every interleaving that keeps the order of each origin. Every
data message gets the receive that was posted for its own put exactly when the origins of the data messages come in
the order of those of the control messages; and when they do, every address is in the 4 GiB above the base of the heap,
and every put is shorter than 4 GiB, every put lands at its own address. -/
theorem long_puts_land {s₀ s : Net} (hs : Starts s₀) (hr : ReflTransGen Step s₀ s) :
    ((∀ x ∈ s.pairs, x.1 = some x.2) ↔ ∀ x ∈ (s.rtps.take s.posts.length).zip s.dats, x.1.origin = x.2.origin) ∧
    ((∀ x ∈ s.rtps.zip s.dats, x.1.origin = x.2.origin) →
      (∀ u ∈ s.dats, s₀.dev.heap ≤ u.addr ∧ u.addr < s₀.dev.heap + 2 ^ 32 ∧ u.bytes.length < 2 ^ 32) →
        Lands s₀ s) := by
  have h := Inv.run hs hr
  refine ⟨h.own_iff, fun horder haddr => h.lands (h.own_iff.2 ?_) haddr⟩
  intro x hx
  obtain ⟨i, hi⟩ := List.mem_iff_getElem?.1 hx
  obtain ⟨h1, h2⟩ := List.getElem?_zip_eq_some.1 hi
  refine horder x (List.mem_iff_getElem?.2 ⟨i, List.getElem?_zip_eq_some.2 ⟨?_, h2⟩⟩)
  rw [← h1, List.getElem?_take]
  split_ifs with hlt
  · rfl
  · rw [List.getElem?_take, if_neg hlt] at h1
    cases h1

/-! ## Runs that can be executed -/

/-- The choices of a scheduler: a put of `size` bytes by an origin, the next message of an origin, and a progress call
of the target that returns nothing or the completion with a number. -/
inductive Choice
  | putl (o : CInt) (src size addr : Nat)
  | arrive (o : CInt)
  | idle
  | progress (k : Nat)

/-- One worker at every rank. -/
def worker : Env := ⟨0, 0, 0⟩

/-- The step that a scheduler chooses, if it is possible. -/
def Net.exec (s : Net) : Choice → Option Net
  | .putl o src size addr =>
    if o ≠ s.dev.me ∧ size < 2 ^ 64 then
      match lcPutl worker (s.org o) src size s.dev.me addr 0 0 0 0 with
      | (.ok, d) => some (s.issue o d ⟨o, (s.issued o).length, addr, readMem (s.org o).mem src size, none⟩)
      | _ => none
    else none
  | .arrive o => match s.chan o with
    | (u, m) :: l => some (({ s with chan := Function.update s.chan o l } : Net).offer (.msg u m))
    | [] => none
  | .idle => (psm2Progress worker s.dev none).map fun d =>
      ({ s with dev := d } : Net).offerAll none (d.posted.drop s.dev.posted.length)
  | .progress k => match s.done[k]? with
    | some e =>
      if ¬ IsKey e.msg.tag.tag2 → ∀ x ∈ s.done.take k, IsKey x.msg.tag.tag2 then
        (psm2Progress worker s.dev (some (.recv e.post e.msg))).map fun d =>
          (({ s with done := s.done.take k ++ s.done.drop (k + 1) } : Net).handle e d).offerAll (some e.put)
            (d.posted.drop (s.dev.posted.erase e.post).length)
      else none
    | none => none

theorem Net.exec_sound {s t : Net} {c : Choice} (h : s.exec c = some t) : Step s t := by
  cases c with
  | putl o src size addr =>
    simp only [Net.exec] at h
    split_ifs at h with hc
    split at h
    · next d hd =>
      cases h
      exact .putl o worker src size addr 0 0 0 0 hc.1 hc.2 hd
    · cases h
  | arrive o =>
    simp only [Net.exec] at h
    split at h
    · next u m l hl =>
      cases h
      exact .arrive o hl
    · cases h
  | idle =>
    simp only [Net.exec] at h
    obtain ⟨d, hd, rfl⟩ := Option.map_eq_some_iff.1 h
    exact .idle worker hd
  | progress k =>
    simp only [Net.exec] at h
    split at h
    · next e he =>
      split_ifs at h with hc
      obtain ⟨d, hd, rfl⟩ := Option.map_eq_some_iff.1 h
      obtain ⟨hk, rfl⟩ := List.getElem?_eq_some_iff.1 he
      refine .progress worker ?_ hc hd
      rw [← List.drop_eq_getElem_cons hk, List.take_append_drop]
    · cases h

def Net.execAll (s : Net) (l : List Choice) : Option Net := l.foldlM Net.exec s

theorem Net.execAll_sound {s t : Net} {l : List Choice} (h : s.execAll l = some t) : ReflTransGen Step s t := by
  induction l generalizing s with
  | nil =>
    cases h
    exact .refl
  | cons c l ih =>
    obtain ⟨s', hs, ht⟩ := Option.bind_eq_some_iff.1 h
    exact .head (Net.exec_sound hs) (ih ht)

/-! ## Two origins -/

/-- Rank `o` before its device is opened; its memory is full of its own number. -/
def rawRank (o : CInt) : Dev :=
  { rawDev .psm2 4096 .exp .sync with me := o, heap := 65536, rep := fun _ => ⟨65536, 1⟩, mem := fun _ => o.truncate 8 }

/-- And after it. -/
def openRank (o : CInt) : Dev :=
  { lcServerInit (rawRank o) with
    pool := ⟨Function.update (fun _ => none) 0 (some 0), [List.range LC_SERVER_NUM_PKTS]⟩
    pk := fun p => { (lcServerInit (rawRank o)).pk p with
      context := { ((lcServerInit (rawRank o)).pk p).context with
        poolid := 0, reqS := { ((lcServerInit (rawRank o)).pk p).context.reqS with parent := some p } } } }

/-- All ranks have opened their devices; the target is rank 0. -/
def openNet : Net where
  org := openRank
  dev := openRank 0
  chan _ := []
  mq := []
  done := []
  issued _ := []
  rtps := []
  dats := []
  posts := []
  pairs := []
  landed := []
  signals := []

theorem openNet_starts : Starts openNet := by
  refine ⟨⟨0, rawRank 0, rfl, lciDevInit_eq 0 (rawRank 0)⟩, by decide, fun o _ => ⟨rfl, rfl⟩, ?_⟩
  exact ⟨fun o => ⟨rfl, rfl⟩, rfl, rfl, rfl, rfl, rfl, rfl, rfl, rfl⟩

/-- The puts of ranks 1 and 2, of one byte each, to neighbouring addresses. -/
def twoPuts : List Choice := [.putl 1 0 1 65600, .putl 2 0 1 65601]

/-- Both messages of rank 1 arrive before those of rank 2. -/
def inTurn : List Choice :=
  twoPuts ++ [.idle, .arrive 1, .arrive 1, .progress 0, .arrive 2, .arrive 2, .progress 1, .progress 0, .progress 0]

/-- Both control messages arrive, then the data of rank 2 and that of rank 1. -/
def crossed : List Choice :=
  twoPuts ++ [.idle, .idle, .arrive 1, .arrive 2, .arrive 2, .arrive 1, .progress 0, .progress 0, .progress 0,
    .progress 0]

/-- A schedule that leads where a check succeeds. -/
theorem Net.reaches {s : Net} {l : List Choice} {P : Net → Bool} (h : (s.execAll l).any P = true) :
    ∃ t, ReflTransGen Step s t ∧ P t = true := by
  obtain ⟨t, ht, hp⟩ := (Option.any_eq_true _ _).1 h
  exact ⟨t, Net.execAll_sound ht, hp⟩

theorem inTurn_runs : ((openNet.execAll inTurn).any fun s =>
    decide (∀ x ∈ s.rtps.zip s.dats, x.1.origin = x.2.origin) &&
      decide (∀ u ∈ s.dats, 65536 ≤ u.addr ∧ u.addr < 65536 + 2 ^ 32 ∧ u.bytes.length < 2 ^ 32) &&
      decide (s.landed.length = 2)) = true := by
  decide +kernel

theorem crossed_runs : ((openNet.execAll crossed).any fun s =>
    decide (∃ x ∈ s.pairs, x.1 ≠ some x.2) && decide (s.landed.length = 2) &&
      decide (readMem s.dev.mem 65600 2 = [2, 1])) = true := by
  decide +kernel

/-- The two puts, one after the other. -/
theorem long_puts_land_in_turn : ∃ s, Starts openNet ∧ ReflTransGen Step openNet s ∧ s.landed.length = 2 ∧
    Lands openNet s := by
  obtain ⟨s, hr, hs⟩ := Net.reaches inTurn_runs
  simp only [Bool.and_eq_true, decide_eq_true_eq] at hs
  obtain ⟨⟨horder, haddr⟩, hlen⟩ := hs
  exact ⟨s, openNet_starts, hr, hlen, (long_puts_land openNet_starts hr).2 horder haddr⟩

/-- The two puts with their messages crossed: the data of each is received at the address of the other. -/
theorem long_puts_cross : ∃ s, Starts openNet ∧ ReflTransGen Step openNet s ∧ (∃ x ∈ s.pairs, x.1 ≠ some x.2) ∧
    s.landed.length = 2 ∧ readMem s.dev.mem 65600 2 = [2, 1] ∧ ¬ Lands openNet s := by
  obtain ⟨s, hr, hs⟩ := Net.reaches crossed_runs
  simp only [Bool.and_eq_true, decide_eq_true_eq] at hs
  obtain ⟨⟨⟨x, hx, hne⟩, hlen⟩, hmem⟩ := hs
  exact ⟨s, openNet_starts, hr, ⟨x, hx, hne⟩, hlen, hmem, fun h => hne (h.own x hx)⟩

end Lci.Server.LongPut
