/-
The tag that brings a packet back to a local pool. `lc_pool_get_local` is an `int32_t` below `MAX_NPOOLS`, and the field
`poolid` that keeps it is an `int8_t` in which -1 stands for no pool: the tag survives the way through the field exactly
for the first 128 local pools.
-/
import Lci.Server.Verbs
import Lci.Pool.Steal

namespace Lci.Server

open Lci.Proto

open Lci.Pool (MAX_NPOOLS)

/-! ## The field -/

/-- From 128 on a local pool reads as a negative index, as no pool, or as one of the first. -/
theorem int8_cases {n : Nat} (h : 128 ≤ n) (hn : n < MAX_NPOOLS) :
    (n = 255 ∧ int8 n = -1) ∨ int8 n < -1 ∨ ∃ k : Nat, int8 n = k ∧ k < 16 := by
  unfold MAX_NPOOLS at hn
  rw [int8_eq]
  rcases Nat.lt_or_ge n 256 with hlt | hge
  · rw [Nat.mod_eq_of_lt hlt, if_neg (by omega)]
    omega
  · right
    right
    refine ⟨n - 256, ?_, by omega⟩
    rw [show n % 256 = n - 256 by omega, if_pos (by omega)]

/-! ## The pool -/

/-- The local pools are in their table, and none of them is full. -/
structure PoolOk (pool : Pool) : Prop where
  le : pool.lpools.length ≤ MAX_NPOOLS
  tls : ∀ wid pid, pool.tls wid = some pid → pid < pool.lpools.length
  room : ∀ dq ∈ pool.lpools, dq.length + 1 < MAX_SIZE

/-- The packet is pushed on local pool `k`, and on no other. -/
def PushedOn (pool : Pool) (k : Nat) (p : PktId) (pool' : Pool) : Prop :=
  pool'.tls = pool.tls ∧ ∃ dq, pool.lpools[k]? = some dq ∧ pool'.lpools = pool.lpools.set k (dq ++ [p])

/-- `lci_pk_free_data` pushes the packet on local pool `k`. -/
def FreedTo (env : Env) (d : Dev) (p : PktId) (k : Nat) : Prop :=
  ∃ pool, lciPkFreeData env d p = some (d.setPool pool) ∧ PushedOn d.pool k p pool

/-- `lci_pk_free_data` pushes the packet on the local pool of the worker, which is made if it is not there. -/
def FreedOwn (env : Env) (d : Dev) (p : PktId) : Prop :=
  ∃ pool, lciPkFreeData env d p = some (d.setPool pool) ∧
    PushedOn (lcPoolGetLocal d.pool env.wid).2 (lcPoolGetLocal d.pool env.wid).1 p pool

theorem lcPoolPutTo_spec {pool : Pool} {k : Nat} {dq : List PktId} (hd : pool.lpools[k]? = some dq)
    (hr : dq.length + 1 < MAX_SIZE) (p : PktId) : ∃ pool', lcPoolPutTo pool p k = some pool' ∧
    PushedOn pool k p pool' := by
  refine ⟨⟨pool.tls, pool.lpools.set k (dq ++ [p])⟩, ?_, rfl, dq, hd, rfl⟩
  rw [lcPoolPutTo, hd, Option.bind_eq_bind, Option.bind_some, dqPushTop, if_pos hr]
  rfl

/-- A packet is pushed on one local pool only. -/
theorem PushedOn.unique {pool pool' : Pool} {k k' : Nat} {p : PktId} (h : PushedOn pool k p pool')
    (h' : PushedOn pool k' p pool') : k = k' := by
  obtain ⟨-, dq, hd, hl⟩ := h
  obtain ⟨-, dq', hd', hl'⟩ := h'
  by_contra hne
  have heq : (pool.lpools.set k (dq ++ [p]))[k]? = (pool.lpools.set k' (dq' ++ [p]))[k]? := by rw [← hl, hl']
  have hk := (List.getElem?_eq_some_iff.1 hd).1
  rw [List.getElem?_set_self hk, List.getElem?_set_ne (Ne.symm hne), hd] at heq
  exact absurd (congrArg List.length (Option.some.inj heq)) (by simp)

/-- `lc_pool_get_local` leaves a pool with the worker's deque, and room in it. -/
theorem PoolOk.getLocal {pool : Pool} (h : PoolOk pool) (wid : Nat) :
    ∃ dq, (lcPoolGetLocal pool wid).2.lpools[(lcPoolGetLocal pool wid).1]? = some dq ∧ dq.length + 1 < MAX_SIZE := by
  unfold lcPoolGetLocal
  cases ht : pool.tls wid with
  | some pid =>
    have hlt := h.tls wid pid ht
    exact ⟨_, List.getElem?_eq_getElem hlt, h.room _ (List.getElem_mem hlt)⟩
  | none => exact ⟨[], by simp, by decide⟩

/-! ## Freeing -/

/-- A packet without a tag goes to the worker's own local pool. -/
theorem freedOwn {env : Env} {d : Dev} {p : PktId} (hok : PoolOk d.pool) (h : (d.pk p).context.poolid = -1) :
    FreedOwn env d p := by
  obtain ⟨dq, hd, hr⟩ := hok.getLocal env.wid
  obtain ⟨pool, hput, hpush⟩ := lcPoolPutTo_spec hd hr p
  refine ⟨pool, ?_, hpush⟩
  have hown : lcPoolPut d.pool env.wid p = some pool := hput
  rw [lciPkFreeData, if_neg (not_not_intro h), poolPut, hown]
  rfl

/-- A packet with a tag goes to the local pool of the tag. -/
theorem freedTo_tag {env : Env} {d : Dev} {p : PktId} (hok : PoolOk d.pool) {k : Nat} (hk : k < d.pool.lpools.length)
    (h : (d.pk p).context.poolid = k) : FreedTo env d p k := by
  obtain ⟨pool, h1, h2⟩ := lcPoolPutTo_spec (List.getElem?_eq_getElem hk) (hok.room _ (List.getElem_mem hk)) p
  refine ⟨pool, ?_, h2⟩
  rw [lciPkFreeData, h, if_pos (by omega), if_pos (by omega), Int.toNat_natCast, h1]
  rfl

/-- A packet without a tag goes to local pool `k` exactly when that is the worker's. -/
theorem freedTo_own_iff {env : Env} {d : Dev} {p : PktId} (hok : PoolOk d.pool) {k : Nat}
    (h : (d.pk p).context.poolid = -1) : FreedTo env d p k ↔ d.pool.tls env.wid = some k := by
  obtain ⟨pool, h1, h2⟩ := @freedOwn env d p hok h
  unfold lcPoolGetLocal at h2
  constructor
  · rintro ⟨pool', h3, h4⟩
    have heq : pool' = pool := congrArg Dev.pool (Option.some.inj (h3.symm.trans h1))
    rw [heq] at h4
    cases ht : d.pool.tls env.wid with
    | some j =>
      rw [ht] at h2
      rw [h4.unique h2]
    | none =>
      -- the worker's deque would be new
      rw [ht] at h2
      have htls : Function.update d.pool.tls env.wid (some d.pool.lpools.length) env.wid = d.pool.tls env.wid :=
        congrFun (h2.1.symm.trans h4.1) env.wid
      rw [Function.update_self, ht] at htls
      cases htls
  · intro ht
    rw [ht] at h2
    exact ⟨pool, h1, h2⟩

/-- A packet tagged with local pool `pid` comes back to it exactly when the index fits the tag, or is read as no pool
and the worker's local pool is that one. -/
theorem freedTo_iff {env : Env} {d : Dev} {p : PktId} {pid : Nat} (hok : PoolOk d.pool)
    (hp : pid < d.pool.lpools.length) (h : (d.pk p).context.poolid = int8 pid) :
    FreedTo env d p pid ↔ pid < 128 ∨ (pid = 255 ∧ d.pool.tls env.wid = some 255) := by
  rcases Nat.lt_or_ge pid 128 with hlt | hge
  · rw [int8_of_lt hlt] at h
    exact ⟨fun _ => .inl hlt, fun _ => freedTo_tag hok hp h⟩
  · rcases int8_cases hge (hp.trans_le hok.le) with ⟨rfl, h1⟩ | h1 | ⟨k, h1, hk⟩
    · rw [freedTo_own_iff hok (h.trans h1)]
      exact ⟨fun h2 => .inr ⟨rfl, h2⟩, fun h2 => (h2.resolve_left (by decide)).2⟩
    · -- an index before the start of `lpools`
      have hnone : lciPkFreeData env d p = none := by
        rw [lciPkFreeData, h, if_pos (by omega), if_neg (by omega)]
      constructor
      · rintro ⟨pool, h2, -⟩
        rw [hnone] at h2
        cases h2
      · rintro (h2 | ⟨rfl, -⟩)
        · omega
        · exact absurd h1 (by decide)
    · obtain ⟨pool, h2, h3⟩ := @freedTo_tag env d p hok k (by omega) (h.trans h1)
      constructor
      · rintro ⟨pool', h4, h5⟩
        have heq : pool' = pool := congrArg Dev.pool (Option.some.inj (h4.symm.trans h2))
        rw [heq] at h5
        have := h5.unique h3
        omega
      · rintro (h4 | ⟨rfl, -⟩)
        · omega
        · rw [show int8 255 = -1 by decide] at h1
          omega

/-! ## Tagging -/

/-- A call that tags packet `p` with the local pool `pid` of its worker. -/
inductive Tags (env : Env) (d : Dev) (p : PktId) : Nat → Dev → Prop
  | sendm {src size ep : Nat} {rank tag : CInt} {d' : Dev} (hs : 1024 < size)
      (hp : (poolGetOrRetn env d).1 = some p) (h : lcSendm env d src size rank tag ep = some (.ok, d')) :
      Tags env d p (lcPoolGetLocal (poolGetOrRetn env d).2.pool env.wid).1 d'
  | putm {src size addr ep : Nat} {rank : CInt} {d' : Dev} (hs : 1024 < size)
      (hp : (poolGetOrRetn env d).1 = some p) (h : lcPutm env d src size rank addr ep = some (.ok, d')) :
      Tags env d p (lcPoolGetLocal (poolGetOrRetn env d).2.pool env.wid).1 d'
  | putms {src size addr ep : Nat} {rank metaVal : CInt} {d' : Dev} (hs : 1024 < size)
      (hp : (poolGetOrRetn env d).1 = some p) (h : lcPutms env d src size rank addr metaVal ep = some (.ok, d')) :
      Tags env d p (lcPoolGetLocal (poolGetOrRetn env d).2.pool env.wid).1 d'
  | postRecv : Tags env d p (lcPoolGetLocal d.pool env.wid).1 (ibvPostRecv env d (some p))

theorem getLocal_tls (pool : Pool) (wid : Nat) :
    (lcPoolGetLocal pool wid).2.tls wid = some (lcPoolGetLocal pool wid).1 := by
  unfold lcPoolGetLocal
  cases ht : pool.tls wid with
  | some pid => exact ht
  | none => exact Function.update_self ..

/-- The packet of a message larger than 1024 bytes. -/
theorem mediumPacket_tags {env : Env} {d d' : Dev} {p : PktId} {src size ep : Nat} {q : Option PktId} (hs : 1024 < size)
    (hp : (poolGetOrRetn env d).1 = some p) (h : mediumPacket env d src size ep = some (q, d')) :
    q = some p ∧ (d'.pk p).context.poolid = int8 (lcPoolGetLocal (poolGetOrRetn env d).2.pool env.wid).1 ∧
      d'.pool.tls env.wid = some (lcPoolGetLocal (poolGetOrRetn env d).2.pool env.wid).1 := by
  unfold mediumPacket at h
  rcases hg : poolGetOrRetn env d with ⟨o, d₁⟩
  rw [hg] at hp h
  obtain rfl : o = some p := hp
  simp only [if_pos hs] at h
  split at h
  · cases h
    refine ⟨rfl, ?_, getLocal_tls d₁.pool env.wid⟩
    simp [Dev.setData, lciPkInit, Dev.setCtx]
  · cases h

/-- What a call that tags a packet leaves: the tag cut to the field, and the index in the worker's cell. -/
theorem Tags.spec {env : Env} {d d' : Dev} {p : PktId} {pid : Nat} (h : Tags env d p pid d') :
    (d'.pk p).context.poolid = int8 pid ∧ d'.pool.tls env.wid = some pid := by
  cases h with
  | sendm hs hp h =>
    obtain ⟨⟨q, d₁⟩, hm, h⟩ := Option.bind_eq_some_iff.1 h
    obtain ⟨rfl, h1, h2⟩ := mediumPacket_tags hs hp hm
    cases h
    exact ⟨h1, h2⟩
  | putm hs hp h =>
    obtain ⟨⟨q, d₁⟩, hm, h⟩ := Option.bind_eq_some_iff.1 h
    obtain ⟨rfl, h1, h2⟩ := mediumPacket_tags hs hp hm
    cases h
    exact ⟨h1, h2⟩
  | putms hs hp h =>
    obtain ⟨⟨q, d₁⟩, hm, h⟩ := Option.bind_eq_some_iff.1 h
    obtain ⟨rfl, h1, h2⟩ := mediumPacket_tags hs hp hm
    cases h
    exact ⟨h1, h2⟩
  | postRecv =>
    refine ⟨?_, getLocal_tls d.pool env.wid⟩
    simp [ibvPostRecv, Dev.setCtx, Dev.setPool]

/-- In every later state in which the tag of the packet and the cell of the worker are as they were left, a packet comes
back to the local pool it was tagged with exactly when that is one of the first 128, or it is the one that reads as no
pool and the freeing worker's own; and packets without a tag go to the freeing worker's own local pool. -/
theorem packet_returned_iff {env env' : Env} {d d' d'' : Dev} {p : PktId} {pid : Nat} (h : Tags env d p pid d')
    (hid : (d''.pk p).context.poolid = (d'.pk p).context.poolid) (htls : d''.pool.tls env.wid = d'.pool.tls env.wid)
    (hok : PoolOk d''.pool) :
    (FreedTo env' d'' p pid ↔ pid < 128 ∨ (pid = 255 ∧ d''.pool.tls env'.wid = some 255)) ∧
      ∀ q, (d''.pk q).context.poolid = -1 → FreedOwn env' d'' q := by
  obtain ⟨h1, h2⟩ := h.spec
  exact ⟨freedTo_iff hok (hok.tls env.wid pid (htls.trans h2)) (hid.trans h1), fun q hq => freedOwn hok hq⟩

/-- A pool in which the first `n` workers have a local pool. -/
def localPools (n : Nat) : Pool := ⟨fun wid => if wid < n then some wid else none, List.replicate n []⟩

theorem localPools_ok {n : Nat} (h : n ≤ MAX_NPOOLS) : PoolOk (localPools n) := by
  refine ⟨by simpa [localPools] using h, fun wid pid hp => ?_, fun dq hd => ?_⟩
  · simp only [localPools] at hp
    split at hp
    · cases hp
      simpa [localPools]
    · cases hp
  · rw [List.eq_of_mem_replicate hd]
    decide

/-- A device with `n` local pools. -/
def poolDev (n : Nat) : Dev := (rawDev .ibv 4096 .exp .sync).setPool (localPools n)

/-- Worker 5 of 10 posts packet 7, and worker 0 frees it. -/
theorem packet_returned_iff_ten : ∃ d, Tags ⟨5, 0, 0⟩ (poolDev 10) 7 5 d ∧ PoolOk d.pool ∧ FreedTo ⟨0, 0, 0⟩ d 7 5 := by
  have h : Tags ⟨5, 0, 0⟩ (poolDev 10) 7 5 (ibvPostRecv ⟨5, 0, 0⟩ (poolDev 10) (some 7)) := .postRecv
  have hok : PoolOk (ibvPostRecv ⟨5, 0, 0⟩ (poolDev 10) (some 7)).pool := localPools_ok (n := 10) (by decide)
  exact ⟨_, h, hok, (packet_returned_iff h rfl rfl hok).1.2 (.inl (by decide))⟩

/-- Worker 256 of 257 posts packet 7, and freeing it pushes it on local pool 0. -/
theorem packet_returned_elsewhere : ∃ d, Tags ⟨256, 0, 0⟩ (poolDev 257) 7 256 d ∧ PoolOk d.pool ∧
    FreedTo ⟨3, 0, 0⟩ d 7 0 ∧ ¬ FreedTo ⟨3, 0, 0⟩ d 7 256 := by
  have h : Tags ⟨256, 0, 0⟩ (poolDev 257) 7 256 (ibvPostRecv ⟨256, 0, 0⟩ (poolDev 257) (some 7)) := .postRecv
  have hok : PoolOk (ibvPostRecv ⟨256, 0, 0⟩ (poolDev 257) (some 7)).pool := localPools_ok (n := 257) (by decide)
  obtain ⟨h1, h2⟩ := h.spec
  refine ⟨_, h, hok, freedTo_tag hok (hok.tls 0 0 rfl) h1, fun hf => ?_⟩
  rcases (freedTo_iff hok (hok.tls 256 256 h2) h1).1 hf with hlt | ⟨heq, -⟩
  · omega
  · omega

end Lci.Server
