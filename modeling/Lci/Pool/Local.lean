/-
`lc_pool_create` and `lc_pool_get_local` over the one table they share: `tls_pool_struct`, a row of `MAX_LOCAL_POOL`
cells for each worker, indexed by the key of a pool. Threads may be between the first look at a cell and the locked
second one at the same time. A cell belongs to one worker and one pool as long as the keys stay in a row; the check of
`lc_pool_create` lets one key more pass.
-/
import Lci.Pool.Steal

namespace Lci.Pool.Local

/-- `MAX_LOCAL_POOL`. -/
def MAX_LOCAL_POOL : Nat := 32

/-- `POOL_UNINIT`. -/
def POOL_UNINIT : Int := -1

/-- A deque of `lpools`, named after the call that made it. -/
structure Deque where
  wid : Nat
  pool : Nat
deriving DecidableEq, Repr

/-- `struct lc_pool`; `npools` is the number of its deques. -/
structure LcPool where
  key : Nat
  lpools : List Deque
deriving DecidableEq, Repr

/-- What the threads share: `tls_pool_struct` row after row, `lc_pool_nkey`, `initialized` and the pools created. -/
structure Shared where
  tls : Nat → Int
  nkey : Nat
  initialized : Bool
  pools : List LcPool

/-- The cell of a worker and a key in `tls_pool_struct`. -/
def cell (wid key : Nat) : Nat := wid * MAX_LOCAL_POOL + key

/-- `lc_pool_init`. -/
def lcPoolInit (s : Shared) : Shared :=
  if s.initialized then s
  else { s with
    tls := fun i => if i < MAX_NPOOLS * MAX_LOCAL_POOL then POOL_UNINIT else s.tls i
    initialized := true }

/-- `lc_pool_create`; `none` is the exit. -/
def lcPoolCreate (s : Shared) : Option Shared :=
  let s := lcPoolInit s
  if s.nkey > MAX_LOCAL_POOL then none
  else some { s with nkey := s.nkey + 1, pools := s.pools ++ [⟨s.nkey, []⟩] }

/-- `tls_pool_struct[wid][key]`; `none` outside of the table. -/
def Shared.look (s : Shared) (wid key : Nat) : Option Int :=
  if cell wid key < MAX_NPOOLS * MAX_LOCAL_POOL then some (s.tls (cell wid key)) else none

/-- The part of `lc_pool_get_local` under `init_lock`; `none` outside of the table or past the end of `lpools`. -/
def initLocal (s : Shared) (wid p : Nat) : Option (Int × Shared) := do
  let pool ← s.pools[p]?
  let pid ← s.look wid pool.key
  if pid = POOL_UNINIT then
    if pool.lpools.length < MAX_NPOOLS then
      some (pool.lpools.length,
        { s with
          tls := Function.update s.tls (cell wid pool.key) pool.lpools.length
          pools := s.pools.set p { pool with lpools := pool.lpools ++ [⟨wid, p⟩] } })
    else none
  else some (pid, s)

/-- A call that has returned. -/
structure Call where
  wid : Nat
  pool : Nat
  pid : Int
deriving DecidableEq, Repr

/-- The shared state, the threads that wait for `init_lock` with their worker and pool, and the calls so far. -/
structure St where
  sh : Shared
  pc : Nat → Option (Nat × Nat)
  calls : List Call

def St.start : St := ⟨⟨fun _ => 0, 0, false, []⟩, fun _ => none, []⟩

/-- One step of a thread: a creation, a call that finds its cell set, one that does not, and the locked part. -/
inductive Step : St → St → Prop
  | create {s : St} {sh : Shared} (h : lcPoolCreate s.sh = some sh) : Step s { s with sh := sh }
  | found {s : St} {t wid p : Nat} {pool : LcPool} {pid : Int} (hpc : s.pc t = none) (hw : wid < MAX_NPOOLS)
      (hp : s.sh.pools[p]? = some pool) (h : s.sh.look wid pool.key = some pid) (hpid : pid ≠ POOL_UNINIT) :
      Step s { s with calls := s.calls ++ [⟨wid, p, pid⟩] }
  | missed {s : St} {t wid p : Nat} {pool : LcPool} (hpc : s.pc t = none) (hw : wid < MAX_NPOOLS)
      (hp : s.sh.pools[p]? = some pool) (h : s.sh.look wid pool.key = some POOL_UNINIT) :
      Step s { s with pc := Function.update s.pc t (some (wid, p)) }
  | init {s : St} {t wid p : Nat} {pid : Int} {sh : Shared} (hpc : s.pc t = some (wid, p))
      (h : initLocal s.sh wid p = some (pid, sh)) :
      Step s ⟨sh, Function.update s.pc t none, s.calls ++ [⟨wid, p, pid⟩]⟩

inductive Reachable : St → Prop
  | start : Reachable St.start
  | step {s s' : St} (h : Reachable s) (hs : Step s s') : Reachable s'

/-- No lookup crosses pools: the calls so far returned an index of a deque made for their own worker and pool, and
always the same one; no two workers or pools have a cell in common; and the next call of any worker returns. -/
structure LookupSafe (s : St) : Prop where
  own : ∀ c ∈ s.calls, ∃ pool, s.sh.pools[c.pool]? = some pool ∧ 0 ≤ c.pid ∧ c.pid < pool.lpools.length ∧
    pool.lpools[c.pid.toNat]? = some ⟨c.wid, c.pool⟩
  stable : ∀ c ∈ s.calls, ∀ c' ∈ s.calls, c.wid = c'.wid → c.pool = c'.pool → c.pid = c'.pid
  cells : ∀ w < MAX_NPOOLS, ∀ w' < MAX_NPOOLS, ∀ (p p' : Nat) (pool pool' : LcPool), s.sh.pools[p]? = some pool →
    s.sh.pools[p']? = some pool' → cell w pool.key = cell w' pool'.key → w = w' ∧ p = p'
  returns : ∀ w < MAX_NPOOLS, ∀ p < s.sh.pools.length, (initLocal s.sh w p).isSome

/-! ## The cells -/

/-- The keys of a row do not reach into the next one. -/
theorem cell_inj {w w' k k' : Nat} (hk : k < MAX_LOCAL_POOL) (hk' : k' < MAX_LOCAL_POOL) (h : cell w k = cell w' k') :
    w = w' ∧ k = k' := by
  unfold cell MAX_LOCAL_POOL at *
  omega

theorem cell_lt {w k : Nat} (hw : w < MAX_NPOOLS) (hk : k < MAX_LOCAL_POOL) :
    cell w k < MAX_NPOOLS * MAX_LOCAL_POOL := by
  unfold cell MAX_LOCAL_POOL MAX_NPOOLS at *
  omega

theorem look_eq (s : Shared) {w k : Nat} (hw : w < MAX_NPOOLS) (hk : k < MAX_LOCAL_POOL) :
    s.look w k = some (s.tls (cell w k)) := if_pos (cell_lt hw hk)

/-! ## Invariant -/

/-- The deques of a pool. -/
def Shared.lpools (s : Shared) (p : Nat) : List Deque := (s.pools[p]?.map LcPool.lpools).getD []

/-- A cell is unset and its deque does not exist, or it holds the index of the deque. -/
def CellOk (s : Shared) (w p : Nat) : Prop :=
  (s.tls (cell w p) = POOL_UNINIT ∧ ⟨w, p⟩ ∉ s.lpools p) ∨
    ∃ pid : Nat, s.tls (cell w p) = pid ∧ (s.lpools p)[pid]? = some ⟨w, p⟩

structure SharedOk (s : Shared) : Prop where
  nkey : s.nkey = s.pools.length
  keys : ∀ (p : Nat) (pool : LcPool), s.pools[p]? = some pool → pool.key = p
  fresh : s.initialized = false → s.pools = []
  cells : s.initialized = true → ∀ w < MAX_NPOOLS, ∀ p < MAX_LOCAL_POOL, CellOk s w p
  nodup : ∀ p, (s.lpools p).Nodup
  deques : ∀ p, ∀ d ∈ s.lpools p, d.wid < MAX_NPOOLS ∧ d.pool = p

/-- A call returned what its cell still holds. -/
structure CallOk (s : Shared) (c : Call) : Prop where
  wid : c.wid < MAX_NPOOLS
  pool : c.pool < s.pools.length
  pid : s.tls (cell c.wid c.pool) = c.pid
  set : c.pid ≠ POOL_UNINIT

structure Inv (s : St) : Prop where
  shared : SharedOk s.sh
  calls : ∀ c ∈ s.calls, CallOk s.sh c
  waits : ∀ t w p, s.pc t = some (w, p) → w < MAX_NPOOLS ∧ p < s.sh.pools.length

theorem lpools_of_some {s : Shared} {p : Nat} {pool : LcPool} (h : s.pools[p]? = some pool) :
    s.lpools p = pool.lpools := by
  rw [Shared.lpools, h]
  rfl

theorem SharedOk.initialized {s : Shared} (h : SharedOk s) {p : Nat} (hp : p < s.pools.length) :
    s.initialized = true := by
  cases hi : s.initialized with
  | true => rfl
  | false =>
    rw [h.fresh hi] at hp
    exact absurd hp (by simp)

/-- While a worker has no deque in a pool, there is room for it in `lpools`. -/
theorem SharedOk.room {s : Shared} (h : SharedOk s) {w p : Nat} (hw : w < MAX_NPOOLS) (hn : ⟨w, p⟩ ∉ s.lpools p) :
    (s.lpools p).length < MAX_NPOOLS := by
  have hnd : (⟨w, p⟩ :: s.lpools p).Nodup := List.nodup_cons.2 ⟨hn, h.nodup p⟩
  have hsub : ⟨w, p⟩ :: s.lpools p ⊆ (List.range MAX_NPOOLS).map fun v => ⟨v, p⟩ := by
    intro d hd
    rcases List.mem_cons.1 hd with rfl | hd
    · exact List.mem_map.2 ⟨w, List.mem_range.2 hw, rfl⟩
    · obtain ⟨h1, h2⟩ := h.deques p d hd
      exact List.mem_map.2 ⟨d.wid, List.mem_range.2 h1, by rw [← h2]⟩
  have hle := (List.subperm_of_subset hnd hsub).length_le
  rw [List.length_cons, List.length_map, List.length_range] at hle
  omega

/-! ## The steps -/

theorem lpools_snoc (pools : List LcPool) (k p : Nat) :
    ((pools ++ [⟨k, []⟩])[p]?.map LcPool.lpools).getD [] = (pools[p]?.map LcPool.lpools).getD [] := by
  rcases Nat.lt_trichotomy p pools.length with h | rfl | h
  · rw [List.getElem?_append_left h]
  · simp
  · rw [List.getElem?_eq_none (by simp; omega), List.getElem?_eq_none (by omega)]

theorem lcPoolInit_eq (s : Shared) : (lcPoolInit s).pools = s.pools ∧ (lcPoolInit s).nkey = s.nkey ∧
    (lcPoolInit s).initialized = true ∧ (s.initialized = true → (lcPoolInit s).tls = s.tls) ∧
    (s.initialized = false → ∀ w < MAX_NPOOLS, ∀ k < MAX_LOCAL_POOL, (lcPoolInit s).tls (cell w k) = POOL_UNINIT) := by
  unfold lcPoolInit
  cases hi : s.initialized with
  | true => exact ⟨rfl, rfl, hi, fun _ => rfl, fun h => by cases h⟩
  | false => exact ⟨rfl, rfl, rfl, fun h => (by cases h), fun _ w hw k hk => if_pos (cell_lt hw hk)⟩

/-- A creation adds a pool without deques, and clears the table only while there is no pool. -/
theorem lcPoolCreate_spec {s s' : Shared} (h : SharedOk s) (hc : lcPoolCreate s = some s') :
    SharedOk s' ∧ s'.pools.length = s.pools.length + 1 ∧ ∀ c, CallOk s c → CallOk s' c := by
  obtain ⟨hp, hn, hi, ht, hf⟩ := lcPoolInit_eq s
  simp only [lcPoolCreate] at hc
  split at hc
  · cases hc
  obtain rfl := Option.some.inj hc
  rw [hp, hn, h.nkey]
  have hl : ∀ p, Shared.lpools ⟨(lcPoolInit s).tls, s.pools.length + 1, (lcPoolInit s).initialized,
      s.pools ++ [⟨s.pools.length, []⟩]⟩ p = s.lpools p := lpools_snoc s.pools s.pools.length
  refine ⟨⟨by simp, fun p pool hpool => ?_, fun h0 => ?_, fun _ w hw p hpl => ?_, fun p => ?_, fun p => ?_⟩, by simp,
    fun c hc => ?_⟩
  · rcases Nat.lt_or_ge p s.pools.length with hlt | hge
    · rw [List.getElem?_append_left hlt] at hpool
      exact h.keys p pool hpool
    · rw [List.getElem?_append_right hge] at hpool
      obtain ⟨h1, rfl⟩ := List.getElem?_eq_some_iff.1 hpool
      simp only [List.length_singleton] at h1
      simp only [List.getElem_singleton]
      omega
  · rw [hi] at h0
    cases h0
  · unfold CellOk
    rw [hl]
    cases h0 : s.initialized with
    | true =>
      rw [ht h0]
      exact h.cells h0 w hw p hpl
    | false =>
      -- the table has just been cleared, and there was no deque before
      have hnil : s.lpools p = [] := by rw [Shared.lpools, h.fresh h0]; rfl
      exact .inl ⟨hf h0 w hw p hpl, by rw [hnil]; simp⟩
  · rw [hl]
    exact h.nodup p
  · rw [hl]
    exact h.deques p
  · refine ⟨hc.wid, hc.pool.trans (by simp), ?_, hc.set⟩
    show (lcPoolInit s).tls _ = _
    rw [ht (h.initialized hc.pool)]
    exact hc.pid

/-- What the locked part does to a cell that is not set: a new deque, and its index in the cell. -/
def added (s : Shared) (w p : Nat) (pool : LcPool) : Shared :=
  { s with
    tls := Function.update s.tls (cell w p) pool.lpools.length
    pools := s.pools.set p { pool with lpools := pool.lpools ++ [⟨w, p⟩] } }

theorem added_lpools {s : Shared} {p : Nat} {pool : LcPool} (hpool : s.pools[p]? = some pool) (w q : Nat) :
    (added s w p pool).lpools q = if q = p then s.lpools q ++ [⟨w, p⟩] else s.lpools q := by
  have hp : p < s.pools.length := (List.getElem?_eq_some_iff.1 hpool).1
  unfold Shared.lpools added
  by_cases hq : q = p
  · subst hq
    rw [if_pos rfl, List.getElem?_set_self hp, hpool]
    rfl
  · rw [if_neg hq, List.getElem?_set_ne (Ne.symm hq)]

theorem added_tls {s : Shared} {w p : Nat} {pool : LcPool} {w' p' : Nat} (hp : p < MAX_LOCAL_POOL)
    (hp' : p' < MAX_LOCAL_POOL) (h : ¬ (w' = w ∧ p' = p)) : (added s w p pool).tls (cell w' p') = s.tls (cell w' p') :=
  Function.update_of_ne (fun hc => h (cell_inj hp' hp hc)) ..

theorem SharedOk.added {s : Shared} (h : SharedOk s) {w p : Nat} {pool : LcPool} (hpool : s.pools[p]? = some pool)
    (hw : w < MAX_NPOOLS) (hp : p < MAX_LOCAL_POOL) (hn : ⟨w, p⟩ ∉ s.lpools p) : SharedOk (added s w p pool) := by
  have hl := added_lpools hpool w
  refine ⟨h.nkey.trans (by simp [Local.added]), fun q pool' hq => ?_, fun h0 => ?_, fun hi w' hw' q hq => ?_,
    fun q => ?_, fun q d hd => ?_⟩
  · by_cases hqp : q = p
    · subst hqp
      have hlt : q < s.pools.length := (List.getElem?_eq_some_iff.1 hpool).1
      rw [Local.added, List.getElem?_set_self hlt] at hq
      rw [← Option.some.inj hq]
      exact h.keys q pool hpool
    · rw [Local.added, List.getElem?_set_ne (Ne.symm hqp)] at hq
      exact h.keys q pool' hq
  · rw [h.fresh h0] at hpool
    cases hpool
  · unfold CellOk
    by_cases hqp : q = p
    · subst hqp
      rw [hl, if_pos rfl]
      by_cases hww : w' = w
      · -- the new deque is the last
        subst hww
        refine .inr ⟨pool.lpools.length, Function.update_self .., ?_⟩
        rw [← lpools_of_some hpool, List.getElem?_concat_length]
      · rw [added_tls hp hq (fun hc => hww hc.1)]
        rcases h.cells hi w' hw' q hq with ⟨h1, h2⟩ | ⟨pid, h1, h2⟩
        · refine .inl ⟨h1, fun hm => ?_⟩
          rcases List.mem_append.1 hm with hm | hm
          · exact h2 hm
          · exact hww (congrArg Deque.wid (List.mem_singleton.1 hm))
        · exact .inr ⟨pid, h1, by rw [List.getElem?_append_left (List.getElem?_eq_some_iff.1 h2).1]; exact h2⟩
    · rw [hl, if_neg hqp, added_tls hp hq (fun hc => hqp hc.2)]
      exact h.cells hi w' hw' q hq
  · rw [hl]
    split
    · rename_i hqp
      subst hqp
      exact List.nodup_append.2 ⟨h.nodup q, List.nodup_singleton _, fun a ha b hb => by
        rintro rfl
        exact hn (List.mem_singleton.1 hb ▸ ha)⟩
    · exact h.nodup q
  · rw [hl] at hd
    split at hd
    · rename_i hqp
      rcases List.mem_append.1 hd with hd | hd
      · exact h.deques q d hd
      · rw [List.mem_singleton.1 hd]
        exact ⟨hw, hqp.symm⟩
    · exact h.deques q d hd

/-- The locked part returns, and leaves the cell of the worker and the pool with the index returned. -/
theorem initLocal_spec {s : Shared} (h : SharedOk s) (hle : s.pools.length ≤ MAX_LOCAL_POOL) {w p : Nat}
    (hw : w < MAX_NPOOLS) (hp : p < s.pools.length) :
    ∃ pid s', initLocal s w p = some (pid, s') ∧ SharedOk s' ∧ s'.pools.length = s.pools.length ∧
      CallOk s' ⟨w, p, pid⟩ ∧ ∀ c, CallOk s c → CallOk s' c := by
  have hpool : s.pools[p]? = some s.pools[p] := List.getElem?_eq_getElem hp
  have hkey := h.keys p _ hpool
  have hlp := lpools_of_some hpool
  have hp' := hp.trans_le hle
  have hcell := h.cells (h.initialized hp) w hw p hp'
  generalize s.pools[p] = pool at *
  obtain ⟨key, lpools⟩ := pool
  obtain rfl : key = p := hkey
  unfold initLocal
  rw [hpool, Option.bind_eq_bind, Option.bind_some, look_eq s hw hp', Option.bind_eq_bind, Option.bind_some]
  rcases hcell with ⟨ht, hn⟩ | ⟨pid, ht, hd⟩
  · have hroom := h.room hw hn
    rw [hlp] at hroom
    rw [if_pos ht, if_pos hroom]
    refine ⟨_, added s w key ⟨key, lpools⟩, rfl, h.added hpool hw hp' hn, by simp [added], ?_, fun c hc => ?_⟩
    · refine ⟨hw, by simpa [added] using hp, Function.update_self .., ?_⟩
      show (lpools.length : Int) ≠ -1
      omega
    · -- a cell that a call has returned is set
      refine ⟨hc.wid, by simpa [added] using hc.pool, ?_, hc.set⟩
      rw [added_tls hp' (hc.pool.trans_le hle) (fun ⟨h1, h2⟩ => hc.set (by rw [← hc.pid, h1, h2, ht]))]
      exact hc.pid
  · have hne : (pid : Int) ≠ POOL_UNINIT := by unfold POOL_UNINIT; omega
    rw [ht, if_neg hne]
    exact ⟨_, _, rfl, h, rfl, ⟨hw, hp, ht, hne⟩, fun c hc => hc⟩

theorem Inv.start : Inv St.start := by
  refine ⟨⟨rfl, fun p pool h => ?_, fun _ => rfl, fun h => ?_, fun p => ?_, fun p d h => ?_⟩, fun c h => ?_,
    fun t w p h => ?_⟩
  all_goals simp_all [St.start, Shared.lpools]

/-- The keys of the pools are their numbers, whatever the table holds. -/
def Keyed (s : Shared) : Prop := s.nkey = s.pools.length ∧ s.pools.map LcPool.key = List.range s.pools.length

theorem lcPoolCreate_keyed {s s' : Shared} (hc : lcPoolCreate s = some s') (h : Keyed s) :
    Keyed s' ∧ s'.pools.length = s.pools.length + 1 := by
  obtain ⟨hp, hn, -⟩ := lcPoolInit_eq s
  simp only [lcPoolCreate] at hc
  split at hc
  · cases hc
  obtain rfl := Option.some.inj hc
  rw [hp, hn]
  refine ⟨⟨by simp [h.1], ?_⟩, by simp⟩
  rw [List.map_append, h.2, List.length_append, List.length_singleton, List.range_succ, h.1]
  rfl

theorem initLocal_keyed {s s' : Shared} {w p : Nat} {pid : Int} (hc : initLocal s w p = some (pid, s')) :
    s'.nkey = s.nkey ∧ s'.pools.map LcPool.key = s.pools.map LcPool.key := by
  unfold initLocal at hc
  obtain ⟨pool, hpool, hc⟩ := Option.bind_eq_some_iff.1 hc
  obtain ⟨v, -, hc⟩ := Option.bind_eq_some_iff.1 hc
  split at hc
  · split at hc
    · cases hc
      obtain ⟨hp, hget⟩ := List.getElem?_eq_some_iff.1 hpool
      refine ⟨rfl, ?_⟩
      rw [List.map_set]
      show (s.pools.map LcPool.key).set p pool.key = _
      rw [← hget, ← List.getElem_map LcPool.key (h := by simpa using hp), List.set_getElem_self]
    · cases hc
  · cases hc
    exact ⟨rfl, rfl⟩

theorem Step.keyed {s s' : St} (hs : Step s s') (h : Keyed s.sh) :
    Keyed s'.sh ∧ s.sh.pools.length ≤ s'.sh.pools.length := by
  cases hs with
  | create hc =>
    obtain ⟨h1, h2⟩ := lcPoolCreate_keyed hc h
    exact ⟨h1, by rw [h2]; omega⟩
  | found hpc hw hp hl hpid => exact ⟨h, le_rfl⟩
  | missed hpc hw hp hl => exact ⟨h, le_rfl⟩
  | init hpc hc =>
    obtain ⟨h1, h2⟩ := initLocal_keyed hc
    have hlen := congrArg List.length h2
    rw [List.length_map, List.length_map] at hlen
    exact ⟨⟨by rw [h1, h.1, hlen], by rw [h2, h.2, hlen]⟩, hlen.ge⟩

theorem Reachable.keyed {s : St} (h : Reachable s) : Keyed s.sh := by
  induction h with
  | start => exact ⟨rfl, rfl⟩
  | step h hs ih => exact (hs.keyed ih).1

theorem Inv.step {s s' : St} (h : Inv s) (hs : Step s s') (hle' : s.sh.pools.length ≤ MAX_LOCAL_POOL) : Inv s' := by
  obtain ⟨hsh, hcalls, hwaits⟩ := h
  cases hs with
  | create h =>
    obtain ⟨h1, h2, h3⟩ := lcPoolCreate_spec hsh h
    refine ⟨h1, fun c hc => h3 c (hcalls c hc), fun t w p hw => ?_⟩
    obtain ⟨h4, h5⟩ := hwaits t w p hw
    exact ⟨h4, h5.trans_le (by rw [h2]; omega)⟩
  | @found t wid p pool pid hpc hw hp h hpid =>
    have hlt : p < s.sh.pools.length := (List.getElem?_eq_some_iff.1 hp).1
    refine ⟨hsh, fun c hc => ?_, hwaits⟩
    rcases List.mem_append.1 hc with hc | hc
    · exact hcalls c hc
    · rw [List.mem_singleton.1 hc]
      rw [hsh.keys p pool hp, look_eq s.sh hw (hlt.trans_le hle')] at h
      exact ⟨hw, hlt, Option.some.inj h, hpid⟩
  | @missed t wid p pool hpc hw hp h =>
    refine ⟨hsh, hcalls, fun t' w' p' hpc' => ?_⟩
    dsimp only at hpc'
    by_cases ht : t' = t
    · subst ht
      rw [Function.update_self] at hpc'
      cases hpc'
      exact ⟨hw, (List.getElem?_eq_some_iff.1 hp).1⟩
    · rw [Function.update_of_ne ht] at hpc'
      exact hwaits t' w' p' hpc'
  | @init t wid p pid sh hpc h =>
    obtain ⟨hw, hp⟩ := hwaits t wid p hpc
    -- the lookup is made again under the lock
    obtain ⟨pid', sh', h0, h1, h2, h3, h4⟩ := initLocal_spec hsh hle' hw hp
    rw [h] at h0
    cases h0
    refine ⟨h1, fun c hc => ?_, fun t' w' p' hpc' => ?_⟩
    · rcases List.mem_append.1 hc with hc | hc
      · exact h4 c (hcalls c hc)
      · rw [List.mem_singleton.1 hc]
        exact h3
    · dsimp only at hpc'
      by_cases ht : t' = t
      · subst ht
        rw [Function.update_self] at hpc'
        cases hpc'
      · rw [Function.update_of_ne ht] at hpc'
        exact ⟨(hwaits t' w' p' hpc').1, h2 ▸ (hwaits t' w' p' hpc').2⟩

theorem Reachable.inv {s : St} (h : Reachable s) (hle : s.sh.pools.length ≤ MAX_LOCAL_POOL) : Inv s := by
  induction h with
  | start => exact Inv.start
  | step h hs ih =>
    have hle' := (hs.keyed h.keyed).2.trans hle
    exact (ih hle').step hs hle'

/-! ## Lookup -/

theorem Inv.own {s : St} (h : Inv s) (hle : s.sh.pools.length ≤ MAX_LOCAL_POOL) {c : Call} (hc : c ∈ s.calls) :
    ∃ pool, s.sh.pools[c.pool]? = some pool ∧ 0 ≤ c.pid ∧ c.pid < pool.lpools.length ∧
      pool.lpools[c.pid.toNat]? = some ⟨c.wid, c.pool⟩ := by
  obtain ⟨hw, hp, hpid, hset⟩ := h.calls c hc
  have hpool : s.sh.pools[c.pool]? = some s.sh.pools[c.pool] := List.getElem?_eq_getElem hp
  have hlp := lpools_of_some hpool
  rcases h.shared.cells (h.shared.initialized hp) c.wid hw c.pool (hp.trans_le hle) with ⟨h1, -⟩ | ⟨pid, h1, h2⟩
  · exact absurd (hpid.symm.trans h1) hset
  · have heq : c.pid = pid := hpid.symm.trans h1
    rw [hlp] at h2
    have hlt := (List.getElem?_eq_some_iff.1 h2).1
    refine ⟨_, hpool, by omega, by omega, ?_⟩
    rw [heq, Int.toNat_natCast]
    exact h2

/-- In every state of every run, no lookup crosses pools exactly when at most `MAX_LOCAL_POOL` pools have been
created. -/
theorem lookup_safe_iff {s : St} (h : Reachable s) : LookupSafe s ↔ s.sh.pools.length ≤ MAX_LOCAL_POOL := by
  have hkeyed := h.keyed
  have hkey : ∀ (p : Nat) (pool : LcPool), s.sh.pools[p]? = some pool → pool.key = p := by
    intro p pool hp
    obtain ⟨hlt, hget⟩ := List.getElem?_eq_some_iff.1 hp
    have := congrArg (fun l => l[p]?) hkeyed.2
    simpa [hlt, hget] using this
  constructor
  · intro hsafe
    by_contra hn
    have hlt : MAX_LOCAL_POOL < s.sh.pools.length := by omega
    have h32 := List.getElem?_eq_getElem hlt
    have h0 := List.getElem?_eq_getElem (show 0 < s.sh.pools.length by omega)
    -- the last cell of worker 0 and key 32 is the first one of worker 1
    have hcell : cell 0 (s.sh.pools[MAX_LOCAL_POOL]).key = cell 1 (s.sh.pools[0]).key := by
      rw [hkey _ _ h32, hkey _ _ h0]
      rfl
    exact absurd (hsafe.cells 0 (by decide) 1 (by decide) _ _ _ _ h32 h0 hcell).1 (by decide)
  · intro hle
    have hinv := h.inv hle
    refine ⟨fun c hc => hinv.own hle hc, fun c hc c' hc' hw hp => ?_, fun w hw w' hw' p p' pool pool' hp hp' hc => ?_,
      fun w hw p hp => ?_⟩
    · rw [← (hinv.calls c hc).pid, ← (hinv.calls c' hc').pid, hw, hp]
    · rw [hkey p pool hp, hkey p' pool' hp'] at hc
      exact cell_inj ((List.getElem?_eq_some_iff.1 hp).1.trans_le hle)
        ((List.getElem?_eq_some_iff.1 hp').1.trans_le hle) hc
    · obtain ⟨pid, s', h1, -⟩ := initLocal_spec hinv.shared hle hw hp
      rw [h1]
      rfl

/-! ## Runs -/

/-- The state after `n` creations. -/
def created (n : Nat) : St where
  sh := ⟨fun i => if i < MAX_NPOOLS * MAX_LOCAL_POOL then POOL_UNINIT else 0, n, true,
    (List.range n).map fun k => ⟨k, []⟩⟩
  pc := fun _ => none
  calls := []

theorem reachable_created {n : Nat} (h : n ≤ MAX_LOCAL_POOL) : Reachable (created (n + 1)) := by
  induction n with
  | zero => exact .step .start (.create rfl)
  | succ n ih =>
    refine .step (ih (by omega)) (.create ?_)
    have hle : ¬ n + 1 > MAX_LOCAL_POOL := by omega
    simp only [lcPoolCreate, lcPoolInit, created, if_true, hle, if_false]
    rw [List.range_succ (n := n + 1), List.map_append]
    rfl

/-- The first look and the locked part of a call on a pool that its worker has not used. -/
theorem reachable_init {s : St} (h : Reachable s) (hpc : s.pc 0 = none) {wid p : Nat} {pool : LcPool}
    (hw : wid < MAX_NPOOLS) (hp : s.sh.pools[p]? = some pool) (hl : s.sh.look wid pool.key = some POOL_UNINIT)
    {pid : Int} {sh : Shared} (hi : initLocal s.sh wid p = some (pid, sh)) :
    Reachable ⟨sh, Function.update (Function.update s.pc 0 (some (wid, p))) 0 none, s.calls ++ [⟨wid, p, pid⟩]⟩ :=
  .step (.step h (.missed hpc hw hp hl)) (.init (t := 0) (Function.update_self 0 _ s.pc :) hi)

/-- Worker 5 looks up the second of two pools. -/
theorem lookup_safe_iff_two : ∃ s, Reachable s ∧ s.sh.pools.length ≤ MAX_LOCAL_POOL ∧ s.calls = [⟨5, 1, 0⟩] ∧
    LookupSafe s := by
  have h := reachable_init (reachable_created (n := 1) (by decide)) rfl (p := 1)
    (show 5 < MAX_NPOOLS by decide) rfl rfl rfl
  exact ⟨_, h, by decide, rfl, (lookup_safe_iff h).2 (by decide)⟩

/-- With 33 pools, the first call of worker 0 on the last pool sets the cell of worker 1 and the first pool: worker 1 is
given index 0 of a pool that has no deque. -/
theorem lookup_crosses : ∃ s, Reachable s ∧ ⟨1, 0, 0⟩ ∈ s.calls ∧ s.sh.pools[0]? = some ⟨0, []⟩ ∧ ¬ LookupSafe s := by
  have h := reachable_init (reachable_created (n := 32) (by decide)) rfl (p := 32)
    (show 0 < MAX_NPOOLS by decide) rfl rfl rfl
  have h' := Reachable.step h (.found (t := 1) (p := 0) rfl (show 1 < MAX_NPOOLS by decide) rfl rfl
    (show (0 : Int) ≠ POOL_UNINIT by decide))
  refine ⟨_, h', List.mem_append_right _ List.mem_cons_self, rfl, fun hsafe => ?_⟩
  obtain ⟨pool, hp, h0, hlt, -⟩ := hsafe.own ⟨1, 0, 0⟩ (List.mem_append_right _ List.mem_cons_self)
  cases hp
  exact absurd hlt (by decide)

end Lci.Pool.Local
