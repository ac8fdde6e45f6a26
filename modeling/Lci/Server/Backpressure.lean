/-
The receives of the verbs backend. Every device counts in `recv_posted` the receives it has in its shared
receive queue; all devices share the flag `lcg_deadlock`, which a device raises when it has few receives
left and finds no packet for another, and which any device clears when it posts its last missing
receive. A device goes from 63 to 64 receives only by that post, so the flag is not up when all are full.
-/
import Lci.Server.Frame
import Lci.Server.Verbs

namespace Lci.Server

open Lci.Proto

/-! ## Devices with one flag -/

/-- `lcg_deadlock` and the devices of a process. -/
structure Node where
  deadlock : Bool
  devs : List Dev

/-- The receives in the shared receive queue: each is posted with a packet. -/
def srqPosts (d : Dev) : Nat := d.posted.countP fun x => x.ctx.isSome

/-- What `ibv_poll_cq` can return: at most `MAX_CQ` completions, each of a receive of its own. -/
structure Polled (d : Dev) (recvs : List Wc) : Prop where
  length : recvs.length ≤ MAX_CQ
  posted : (recvs.map fun wc => some wc.wrId).Subperm (d.posted.map (·.ctx))

/-- A device is made, the application calls a device in a way that leaves its receives alone, or a device
makes progress on any completions. -/
inductive IbvStep : Node → Node → Prop
  | init {n : Node} {wid : Nat} {raw d : Dev} : raw.backend = .ibv → lciDevInit wid raw = some d →
    IbvStep n { n with devs := n.devs ++ [d] }
  | app {n : Node} {i : Nat} {d d' : Dev} : n.devs[i]? = some d → d'.recvPosted = d.recvPosted →
    d'.posted = d.posted → IbvStep n { n with devs := n.devs.set i d' }
  | progress {n : Node} {i : Nat} {d d' : Dev} (env : Env) (recvs : List Wc) (sends : List (Option PktId)) :
    n.devs[i]? = some d → Polled d recvs →
    ibvProgress env { d with deadlock := n.deadlock } recvs sends = some d' →
    IbvStep n ⟨d'.deadlock, n.devs.set i d'⟩

/-- A state of a process along some run. -/
def Node.Reachable (n : Node) : Prop := Relation.ReflTransGen IbvStep ⟨false, []⟩ n

/-! ## One progress call -/

/-- `k` receives have been completed between `d` and `d'`, and none posted. -/
structure Drained (k : Nat) (d d' : Dev) : Prop where
  recvPosted : d'.recvPosted = d.recvPosted - k
  srqPosts : srqPosts d' + k = srqPosts d
  deadlock : d'.deadlock = d.deadlock

theorem Frame.srqPosts {d d' : Dev} (h : Frame d d') : srqPosts d' = srqPosts d := by
  obtain ⟨l, hl, hx⟩ := h.posted
  have h0 : l.countP (fun x => x.ctx.isSome) = 0 := by
    rw [List.countP_eq_zero]
    intro x hm
    rw [(hx x hm).1]
    exact Bool.false_ne_true
  simp only [Server.srqPosts, hl, List.countP_append, h0, Nat.add_zero]

theorem frame_ibvServeRecv {env : Env} {d d' : Dev} {wc : Wc} (h : ibvServeRecv env d wc = some d') :
    Frame { d with recvPosted := d.recvPosted - 1 } d' := by
  unfold ibvServeRecv at h
  dsimp only at h
  split_ifs at h
  · exact (((frame_setData _ _ _).trans (frame_setReqPtr _ _ _)).trans (frame_setReq _ _ _)).trans (frame_serveRecv h)
  · obtain ⟨q, -, h⟩ := Option.bind_eq_some_iff.1 h
    obtain ⟨d₁, h₁, h⟩ := Option.bind_eq_some_iff.1 h
    exact (frame_serveImm h₁).trans (frame_poolPut h)
  · exact (frame_setReqPtr _ _ _).trans (frame_serveRecvRdma h)

/-- One completed receive leaves the queue. -/
theorem drained_take {d : Dev} {wc : Wc} {ctxs : List (Option PktId)}
    (h : (some wc.wrId :: ctxs).Subperm (d.posted.map (·.ctx))) :
    srqPosts (ibvTakeRecv d wc) + 1 = srqPosts d ∧ ctxs.Subperm ((ibvTakeRecv d wc).posted.map (·.ctx)) := by
  have hmem : some wc.wrId ∈ d.posted.map (·.ctx) := h.subset List.mem_cons_self
  obtain ⟨x, hx, hctx⟩ := List.mem_map.1 hmem
  have hmap : (ibvTakeRecv d wc).posted.map (·.ctx) = (d.posted.map (·.ctx)).erase (some wc.wrId) := by
    rw [List.erase_eq_eraseP', List.eraseP_map]
    refine congrArg (List.map (·.ctx)) (congrArg (List.eraseP · d.posted) (funext fun x => ?_))
    exact (beq_eq_decide _ _).symm
  constructor
  · have hc : ∀ e : Dev, srqPosts e = (e.posted.map (·.ctx)).countP Option.isSome := fun e => by
      rw [List.countP_map]
      rfl
    rw [hc, hc, hmap, (List.perm_cons_erase hmem).countP_eq, List.countP_cons]
    rfl
  · rw [hmap]
    simpa using h.erase (some wc.wrId)

theorem ibvServeRecvs_drained {env : Env} : ∀ {recvs : List Wc} {d d' : Dev},
    (recvs.map fun wc => some wc.wrId).Subperm (d.posted.map (·.ctx)) → ibvServeRecvs env d recvs = some d' →
      Drained recvs.length d d'
  | [], d, d', _, h => by
    cases h
    exact ⟨by simp, rfl, rfl⟩
  | wc :: wcs, d, d', hp, h => by
    obtain ⟨d₁, h₁, h⟩ := Option.bind_eq_some_iff.1 h
    obtain ⟨hc, hp⟩ := drained_take hp
    have hf := frame_ibvServeRecv h₁
    -- what the body leaves of the queue still holds the receives of the completions to come
    obtain ⟨l, hl, -⟩ := hf.posted
    have hp₁ : (wcs.map fun wc => some wc.wrId).Subperm (d₁.posted.map (·.ctx)) := by
      rw [hl, List.map_append]
      exact hp.trans (List.sublist_append_left _ _).subperm
    have ih := ibvServeRecvs_drained hp₁ h
    refine ⟨?_, ?_, ih.deadlock.trans hf.deadlock⟩
    · rw [ih.recvPosted, hf.recvPosted, List.length_cons]
      push_cast
      exact (sub_sub _ _ _).trans (by rw [add_comm]; rfl)
    · have hs : srqPosts d₁ = srqPosts (ibvTakeRecv d wc) := hf.srqPosts
      have := ih.srqPosts
      rw [List.length_cons]
      omega

theorem frame_ibvServeSends {env : Env} : ∀ {sends : List (Option PktId)} {d d' : Dev},
    ibvServeSends env d sends = some d' → Frame d d'
  | [], d, d', h => by
    cases h
    exact Frame.refl d
  | none :: wcs, d, d', h => frame_ibvServeSends (show ibvServeSends env d wcs = some d' from h)
  | some p :: wcs, d, d', h => by
    obtain ⟨d₁, h₁, h⟩ := Option.bind_eq_some_iff.1 h
    have hf : Frame d { d with sends := d.sends.erase p } := Frame.of_eq rfl
    exact (hf.trans (frame_serveSend h₁)).trans (frame_ibvServeSends h)

/-- The two loops of a progress call. -/
def ibvServed (env : Env) (d : Dev) (recvs : List Wc) (sends : List (Option PktId)) : Option Dev := do
  let d ← ibvServeRecvs env d recvs
  ibvServeSends env d sends

theorem ibvProgress_eq (env : Env) (d : Dev) (recvs : List Wc) (sends : List (Option PktId)) :
    ibvProgress env d recvs sends = (ibvServed env d recvs sends).map (ibvRefill env) := by
  unfold ibvProgress ibvServed
  cases ibvServeRecvs env d recvs with
  | none => rfl
  | some d₁ => cases h : ibvServeSends env d₁ sends <;> simp [h]

theorem ibvServed_drained {env : Env} {d d' : Dev} {recvs : List Wc} {sends : List (Option PktId)}
    (hp : Polled d recvs) (h : ibvServed env d recvs sends = some d') : Drained recvs.length d d' := by
  obtain ⟨d₁, h₁, h⟩ := Option.bind_eq_some_iff.1 h
  have hd := ibvServeRecvs_drained hp.posted h₁
  have hf := frame_ibvServeSends h
  exact ⟨hf.recvPosted.trans hd.recvPosted, by rw [hf.srqPosts]; exact hd.srqPosts, hf.deadlock.trans hd.deadlock⟩

/-- The counter is right and within the size of the shared receive queue. -/
structure Counted (d : Dev) : Prop where
  eq : d.recvPosted = srqPosts d
  le : d.recvPosted ≤ (LC_SERVER_MAX_RCVS : Int)

/-- The last part of a progress call: a flag that is up afterwards comes with a missing receive. -/
theorem ibvRefill_counted (env : Env) {d : Dev} (hd : Counted d) : Counted (ibvRefill env d) ∧
    ((ibvRefill env d).deadlock = true →
      (ibvRefill env d).recvPosted < (LC_SERVER_MAX_RCVS : Int) ∨
        (¬ d.recvPosted < (LC_SERVER_MAX_RCVS : Int) ∧ ibvRefill env d = d)) := by
  unfold ibvRefill
  split_ifs with hlt
  · cases (lcPoolGetNb d.pool env).1 with
    | none =>
      unfold ibvPostRecv
      dsimp only
      split_ifs
      · exact ⟨⟨hd.eq, hd.le⟩, fun _ => .inl hlt⟩
      · exact ⟨⟨hd.eq, hd.le⟩, fun _ => .inl hlt⟩
    | some p =>
      unfold ibvPostRecv
      dsimp only
      have hsome : ∀ x : Post, x.ctx = some p → ∀ e : Dev, e.posted = d.posted ++ [x] →
          (srqPosts e : Int) = srqPosts d + 1 := by
        intro x hx e he
        simp [srqPosts, he, List.countP_append, hx]
      refine ⟨⟨?_, ?_⟩, fun hdl => ?_⟩
      · rw [hsome ⟨0, .pkt p, POST_MSG_SIZE, some p⟩ rfl _ rfl, ← hd.eq]
        rfl
      · exact Int.add_one_le_of_lt hlt
      · by_cases h64 : d.recvPosted + 1 = (LC_SERVER_MAX_RCVS : Int)
        · have hdl : (if d.recvPosted + 1 = (LC_SERVER_MAX_RCVS : Int) ∧ d.deadlock = true then false
              else d.deadlock) = true := hdl
          by_cases hfl : d.deadlock = true
          · rw [if_pos ⟨h64, hfl⟩] at hdl
            cases hdl
          · rw [if_neg fun h => hfl h.2] at hdl
            exact absurd hdl hfl
        · exact .inl (lt_of_le_of_ne (Int.add_one_le_of_lt hlt) h64)
  · exact ⟨hd, fun _ => .inr ⟨hlt, rfl⟩⟩

/-! ## Runs -/

/-- The invariant of a process. -/
structure Node.Ok (n : Node) : Prop where
  counted : ∀ d ∈ n.devs, Counted d
  flag : n.deadlock = true → ∃ (i : Nat) (d : Dev), n.devs[i]? = some d ∧ d.recvPosted < (LC_SERVER_MAX_RCVS : Int)

/-- A device that a call leaves counted, with the flag justified by it or by a device that was not called. -/
theorem Node.Ok.set {n : Node} (hn : n.Ok) {i : Nat} {d d' : Dev} (hi : n.devs[i]? = some d) (hc : Counted d')
    {flag : Bool} (hf : flag = true → d'.recvPosted < (LC_SERVER_MAX_RCVS : Int) ∨
      (n.deadlock = true ∧ ¬ d.recvPosted < (LC_SERVER_MAX_RCVS : Int))) : Node.Ok ⟨flag, n.devs.set i d'⟩ := by
  obtain ⟨hlt, -⟩ := List.getElem?_eq_some_iff.1 hi
  refine ⟨fun x hx => ?_, fun hflag => ?_⟩
  · rcases List.mem_or_eq_of_mem_set hx with hx | rfl
    · exact hn.counted x hx
    · exact hc
  · rcases hf hflag with h | ⟨hd, hge⟩
    · exact ⟨i, d', List.getElem?_set_self hlt, h⟩
    · obtain ⟨j, x, hj, hx⟩ := hn.flag hd
      have hij : i ≠ j := by
        rintro rfl
        rw [hi] at hj
        cases hj
        exact hge hx
      exact ⟨j, x, by rw [List.getElem?_set_ne hij]; exact hj, hx⟩

theorem Node.Ok.step {n n' : Node} (hn : n.Ok) (h : IbvStep n n') : n'.Ok := by
  cases h with
  | @init wid raw d hb hi =>
    rw [lciDevInit_eq] at hi
    cases hi
    refine ⟨fun x hx => ?_, fun hflag => ?_⟩
    · rcases List.mem_append.1 hx with hx | hx
      · exact hn.counted x hx
      · rw [List.mem_singleton] at hx
        subst hx
        exact ⟨by simp [lcServerInit, hb, srqPosts], by simp [lcServerInit, hb]⟩
    · obtain ⟨j, x, hj, hx⟩ := hn.flag hflag
      obtain ⟨hlt, -⟩ := List.getElem?_eq_some_iff.1 hj
      exact ⟨j, x, by rw [List.getElem?_append_left hlt]; exact hj, hx⟩
  | @app i d d' hi hr hp =>
    have hd := hn.counted d (List.mem_of_getElem? hi)
    refine hn.set hi ⟨?_, hr.trans_le hd.le⟩ fun hflag => ?_
    · rw [hr, hd.eq, srqPosts, srqPosts, hp]
    · by_cases hlt : d.recvPosted < (LC_SERVER_MAX_RCVS : Int)
      · exact .inl (hr.trans_lt hlt)
      · exact .inr ⟨hflag, hlt⟩
  | @progress i d d' env recvs sends hi hp h =>
    rw [ibvProgress_eq] at h
    obtain ⟨d₁, h₁, rfl⟩ := Option.map_eq_some_iff.1 h
    have hd := hn.counted d (List.mem_of_getElem? hi)
    have hk := ibvServed_drained (d := { d with deadlock := n.deadlock }) ⟨hp.length, hp.posted⟩ h₁
    have hr : d₁.recvPosted = d.recvPosted - recvs.length := hk.recvPosted
    have hle := hd.le
    have hc : Counted d₁ := by
      have hs : srqPosts d₁ + recvs.length = srqPosts d := hk.srqPosts
      have heq := hd.eq
      exact ⟨by omega, by omega⟩
    obtain ⟨hc', hflag⟩ := ibvRefill_counted env hc
    refine hn.set hi hc' fun hdl => (hflag hdl).imp_right ?_
    rintro ⟨hge, he⟩
    exact ⟨by rw [he] at hdl; exact hk.deadlock.symm.trans hdl, by omega⟩

theorem Node.Reachable.ok {n : Node} (h : n.Reachable) : n.Ok := by
  unfold Node.Reachable at h
  induction h with
  | refl => exact ⟨by simp, by simp⟩
  | tail _ hs ih => exact ih.step hs

/-- A device that has returned a packet to its pool, and makes progress. -/
def Node.repost (n : Node) (i : Nat) (d : Dev) : Node :=
  let d' := ibvRefill ⟨0, 0, 0⟩ { d.setPool ⟨fun _ => some 0, [[0]]⟩ with deadlock := n.deadlock }
  ⟨d'.deadlock, n.devs.set i d'⟩

theorem Node.repost_steps {n : Node} {i : Nat} {d : Dev} (hi : n.devs[i]? = some d) :
    Relation.ReflTransGen IbvStep n (n.repost i d) := by
  obtain ⟨hlt, -⟩ := List.getElem?_eq_some_iff.1 hi
  have happ : IbvStep n { n with devs := n.devs.set i (d.setPool ⟨fun _ => some 0, [[0]]⟩) } :=
    .app hi rfl rfl
  refine (Relation.ReflTransGen.single happ).tail ?_
  have hstep := IbvStep.progress (n := { n with devs := n.devs.set i (d.setPool ⟨fun _ => some 0, [[0]]⟩) })
    ⟨0, 0, 0⟩ [] [] (List.getElem?_set_self hlt) ⟨Nat.zero_le _, List.nil_subperm⟩ rfl
  rwa [List.set_set] at hstep

theorem Node.repost_spec {n : Node} {i : Nat} {d : Dev} (hi : n.devs[i]? = some d)
    (hlt : d.recvPosted < (LC_SERVER_MAX_RCVS : Int)) :
    (∃ d', (n.repost i d).devs[i]? = some d' ∧ d'.recvPosted = d.recvPosted + 1) ∧
      (d.recvPosted + 1 = (LC_SERVER_MAX_RCVS : Int) → (n.repost i d).deadlock = false) := by
  obtain ⟨hil, -⟩ := List.getElem?_eq_some_iff.1 hi
  have hr : ibvRefill ⟨0, 0, 0⟩ { d.setPool ⟨fun _ => some 0, [[0]]⟩ with deadlock := n.deadlock } =
      ibvPostRecv ⟨0, 0, 0⟩ { d.setPool ⟨fun _ => some 0, [[]]⟩ with deadlock := n.deadlock } (some 0) := if_pos hlt
  unfold Node.repost
  dsimp only
  rw [hr]
  refine ⟨⟨_, List.getElem?_set_self hil, rfl⟩, fun h64 => ?_⟩
  have hdl : (if d.recvPosted + 1 = (LC_SERVER_MAX_RCVS : Int) ∧ n.deadlock = true then false else n.deadlock) =
    false := by
    cases n.deadlock <;> simp [h64]
  exact hdl

/-- A device below its limit can clear the flag. -/
theorem Node.clears : ∀ (k : Nat) {n : Node} {i : Nat} {d : Dev}, n.devs[i]? = some d →
    d.recvPosted + (k + 1) = (LC_SERVER_MAX_RCVS : Int) → ∃ n', Relation.ReflTransGen IbvStep n n' ∧ n'.deadlock = false
  | 0, n, i, d, hi, hk => ⟨_, Node.repost_steps hi, (Node.repost_spec hi (by omega)).2 (by omega)⟩
  | k + 1, n, i, d, hi, hk => by
    obtain ⟨⟨d', hi', hr⟩, -⟩ := Node.repost_spec hi (by push_cast at hk; omega)
    obtain ⟨n', hn', hf⟩ := Node.clears k hi' (by push_cast at hk; omega)
    exact ⟨n', (Node.repost_steps hi).trans hn', hf⟩

/-- Receives and back-pressure of the verbs backend, for any number of devices and any order of their
calls. Each counter is the number of receives in the device's shared receive queue and stays within its
size. While the flag is up some device is below its limit: its next progress call, whatever completions
it finds, tries to post another receive, and the run can go on to a state where the flag is down. -/
theorem ibv_backpressure {n : Node} (h : n.Reachable) :
    (∀ d ∈ n.devs, d.recvPosted = srqPosts d ∧ 0 ≤ d.recvPosted ∧ d.recvPosted ≤ (LC_SERVER_MAX_RCVS : Int)) ∧
    (n.deadlock = true →
      (∃ d ∈ n.devs, d.recvPosted < (LC_SERVER_MAX_RCVS : Int) ∧ ∀ env recvs sends d₁, Polled d recvs →
        ibvServed env { d with deadlock := n.deadlock } recvs sends = some d₁ →
          ibvProgress env { d with deadlock := n.deadlock } recvs sends =
            some (ibvPostRecv env (d₁.setPool (lcPoolGetNb d₁.pool env).2) (lcPoolGetNb d₁.pool env).1)) ∧
      ∃ n', Relation.ReflTransGen IbvStep n n' ∧ n'.deadlock = false) := by
  have hok := h.ok
  refine ⟨fun d hd => ?_, fun hflag => ?_⟩
  · obtain ⟨heq, hle⟩ := hok.counted d hd
    exact ⟨heq, by omega, hle⟩
  · obtain ⟨i, d, hi, hlt⟩ := hok.flag hflag
    have hd := hok.counted d (List.mem_of_getElem? hi)
    refine ⟨⟨d, List.mem_of_getElem? hi, hlt, fun env recvs sends d₁ hp h₁ => ?_⟩, ?_⟩
    · have hk := ibvServed_drained (d := { d with deadlock := n.deadlock }) ⟨hp.length, hp.posted⟩ h₁
      have hr : d₁.recvPosted = d.recvPosted - recvs.length := hk.recvPosted
      rw [ibvProgress_eq, h₁, Option.map_some, ibvRefill, if_pos (by omega)]
    · have heq := hd.eq
      exact Node.clears (LC_SERVER_MAX_RCVS - 1 - srqPosts d) hi (by unfold LC_SERVER_MAX_RCVS at hlt ⊢; omega)

/-- A device whose pool has run empty before its first receive has raised the flag. -/
theorem ibv_backpressure_empty_pool : ∃ n : Node, n.Reachable ∧ n.deadlock = true ∧
    ∃ d ∈ n.devs, d.recvPosted < (LC_SERVER_MAX_RCVS : Int) := by
  obtain ⟨d, hd, hp, hr⟩ : ∃ d, lciDevInit 0 (rawDev .ibv 4096 .exp .sync) = some d ∧ d.posted = [] ∧
      d.recvPosted = 0 := ⟨_, lciDevInit_eq _ _, rfl, rfl⟩
  let e : Dev := { d with pool := ⟨fun _ => some 0, [[]]⟩ }
  let e' : Dev := ibvRefill ⟨0, 0, 0⟩ { e with deadlock := false }
  have h1 : IbvStep ⟨false, []⟩ ⟨false, [d]⟩ := .init (n := ⟨false, []⟩) rfl hd
  have h2 : IbvStep ⟨false, [d]⟩ ⟨false, [e]⟩ := .app (n := ⟨false, [d]⟩) (i := 0) rfl rfl rfl
  have h3 : IbvStep ⟨false, [e]⟩ ⟨e'.deadlock, [e']⟩ := .progress (n := ⟨false, [e]⟩) (i := 0) ⟨0, 0, 0⟩ [] [] rfl
    ⟨Nat.zero_le _, List.nil_subperm⟩ rfl
  have hreach : Node.Reachable ⟨e'.deadlock, [e']⟩ := ((Relation.ReflTransGen.single h1).tail h2).tail h3
  have hflag : e'.deadlock = true := by
    simp [e', e, ibvRefill, hr, LC_SERVER_MAX_RCVS, lcPoolGetNb, lcPoolGetLocal, dqPopTop, dqPopBot, ibvPostRecv,
      Dev.setPool]
  obtain ⟨⟨x, hx, hlt, -⟩, -⟩ := (ibv_backpressure hreach).2 hflag
  exact ⟨_, hreach, hflag, x, hx, hlt⟩

end Lci.Server
