/-
The records of PSM2 registrations. `lc_server_rma_reg` takes one from the queue of its server, which `lc_server_init`
fills with 256 of them, and asks the allocator where the queue has none; `lc_server_rma_dereg` gives it back to the
queue of the server that the record names. A record is in one place only: in use, or in one of the queues. Each queue
hands out its records in the order in which they came to it.
-/
import Lci.Pool.Lcrq

namespace Lci.Server.Records

open Lci.Lcrq

/-! ## Calls -/

/-- `struct psm_mr`, without the request of its receive. -/
structure PsmMr where
  server : Nat
  addr : Word
  size : Word
  rkey : BitVec 32

/-- The servers of a rank by number, each with its `free_mr`; the memory of the records; `next_key`. Beside them, the
records that were allocated and those of live registrations. -/
structure Rank where
  freeMr : Nat → Option Trace
  mrs : Word → PsmMr
  nextKey : BitVec 32
  allocated : List Word
  live : List Word

/-- A rank before its first server. -/
def Rank.start (mrs : Word → PsmMr) : Rank := ⟨fun _ => none, mrs, 1, [], []⟩

/-- A call; `mem` is what the allocator returns in it. -/
inductive Op
  | init (s : Nat) (mem : List Word)
  | reg (s : Nat) (buf size mem : Word)
  | dereg (mr : Word)

/-- `lc_server_init`: the records are put into the queue, and the heap draws a key. -/
def Rank.init (r : Rank) (s : Nat) (mem : List Word) : Option Rank := do
  let t ← mem.foldlM Trace.enqueue Trace.start
  pure { r with
    freeMr := Function.update r.freeMr s (some t), nextKey := r.nextKey + 1, allocated := mem ++ r.allocated }

/-- `_real_psm_reg` with the record `mr`. -/
def Rank.register (r : Rank) (s : Nat) (mr buf size : Word) : Rank :=
  { r with
    mrs := Function.update r.mrs mr ⟨s, buf, size, r.nextKey &&& 0x0fffffff⟩
    nextKey := r.nextKey + 1
    live := mr :: r.live }

/-- `lc_server_rma_reg`: the record, and the rank after the call. -/
def Rank.reg (r : Rank) (s : Nat) (buf size mem : Word) : Option (Word × Rank) := do
  let t ← r.freeMr s
  let (mr, t) ← t.dequeue
  let r := { r with freeMr := Function.update r.freeMr s (some t) }
  if mr = 0 then pure (mem, { r with allocated := mem :: r.allocated }.register s mem buf size)
  else pure (mr, r.register s mr buf size)

/-- `lc_server_rma_dereg`. -/
def Rank.dereg (r : Rank) (mr : Word) : Option Rank := do
  let t ← r.freeMr (r.mrs mr).server
  let t ← t.enqueue mr
  pure { r with freeMr := Function.update r.freeMr (r.mrs mr).server (some t), live := r.live.erase mr }

def Rank.step (r : Rank) : Op → Option Rank
  | .init s mem => r.init s mem
  | .reg s buf size mem => (r.reg s buf size mem).map Prod.snd
  | .dereg mr => r.dereg mr

/-- Memory that the allocator can return: a block that is not in use. Records are not freed. -/
def Rank.Fresh (r : Rank) (mem : Word) : Prop := mem ≠ 0 ∧ mem ≠ -1 ∧ mem ∉ r.allocated

/-- What a caller may do: a server is set up once and before it is used, and a registration is released once. -/
def Rank.Legal (r : Rank) : Op → Prop
  | .init s mem => r.freeMr s = none ∧ mem.length = 256 ∧ mem.Nodup ∧ ∀ x ∈ mem, r.Fresh x
  | .reg s _ _ mem => ∃ t, r.freeMr s = some t ∧ ∀ t', t.dequeue = some (0, t') → r.Fresh mem
  | .dereg mr => mr ∈ r.live

/-- A sequence of calls and the rank after it. -/
inductive Run : List Op → Rank → Prop
  | nil (mrs : Word → PsmMr) : Run [] (Rank.start mrs)
  | snoc {ops : List Op} {r r' : Rank} {op : Op} (h : Run ops r) (hl : r.Legal op) (hs : r.step op = some r') :
    Run (ops ++ [op]) r'

/-! ## Lists that share nothing -/

/-- Every element is in one of the lists only, and once. -/
structure Apart {α ι : Type} (l : ι → List α) : Prop where
  nodup : ∀ p, (l p).Nodup
  unique : ∀ p p' x, x ∈ l p → x ∈ l p' → p = p'

namespace Apart

variable {α ι : Type} [DecidableEq ι] {l : ι → List α}

/-- One list gets shorter. -/
theorem shrink (h : Apart l) {p : ι} {xs : List α} (hs : xs.Sublist (l p)) : Apart (Function.update l p xs) := by
  have hsub : ∀ q, (Function.update l p xs q).Sublist (l q) := by
    intro q
    by_cases hq : q = p
    · subst hq
      rwa [Function.update_self]
    · rw [Function.update_of_ne hq]
  exact ⟨fun q => (h.nodup q).sublist (hsub q), fun q q' x hx hx' => h.unique q q' x ((hsub q).subset hx)
    ((hsub q').subset hx')⟩

/-- One list gets elements that are in none. -/
theorem grow (h : Apart l) {p : ι} {xs ys : List α} (hp : xs.Perm (ys ++ l p)) (hy : ys.Nodup)
    (hnew : ∀ x ∈ ys, ∀ q, x ∉ l q) :
    Apart (Function.update l p xs) := by
  constructor
  · intro q
    by_cases hq : q = p
    · subst hq
      rw [Function.update_self, hp.nodup_iff]
      exact hy.append (h.nodup q) fun x hx => hnew x hx q
    · rw [Function.update_of_ne hq]
      exact h.nodup q
  · have hmem : ∀ q x, x ∈ Function.update l p xs q → (q = p ∧ x ∈ ys) ∨ x ∈ l q := by
      intro q x hx
      by_cases hq : q = p
      · subst hq
        rw [Function.update_self, hp.mem_iff, List.mem_append] at hx
        exact hx.imp_left fun hx => ⟨rfl, hx⟩
      · rw [Function.update_of_ne hq] at hx
        exact .inr hx
    intro q q' x hx hx'
    rcases hmem q x hx with ⟨rfl, hy⟩ | h1 <;> rcases hmem q' x hx' with ⟨rfl, hy'⟩ | h2
    · rfl
    · exact absurd h2 (hnew x hy q')
    · exact absurd h1 (hnew x hy' q)
    · exact h.unique q q' x h1 h2

/-- An element that leaves its list is in none. -/
theorem not_mem_shrink (h : Apart l) {p : ι} {xs : List α} {x : α} (hx : x ∈ l p) (hxs : x ∉ xs) :
    ∀ q, x ∉ Function.update l p xs q := by
  intro q hq
  by_cases hqp : q = p
  · subst hqp
    rw [Function.update_self] at hq
    exact hxs hq
  · rw [Function.update_of_ne hqp] at hq
    exact hqp (h.unique q p x hq hx)

end Apart

/-! ## Where the records are -/

/-- The records are in the lists `l`: at `none` those in use, at `some s` those in the queue of server `s`. No record is
in two places. -/
structure Rank.Inv (r : Rank) (l : Option Nat → List Word) : Prop where
  has : ∀ s t, r.freeMr s = some t → t.Has (l (some s))
  closed : ∀ s, r.freeMr s = none → l (some s) = []
  live : l none = r.live
  apart : Apart l
  allocated : ∀ p, ∀ mr ∈ l p, mr ∈ r.allocated
  valid : ∀ mr ∈ r.allocated, mr ≠ 0 ∧ mr ≠ -1
  server : ∀ mr ∈ r.live, ∃ t, r.freeMr (r.mrs mr).server = some t

theorem start_inv (mrs : Word → PsmMr) : (Rank.start mrs).Inv fun _ => [] where
  has := nofun
  closed _ _ := rfl
  live := rfl
  apart := ⟨fun _ => List.nodup_nil, nofun⟩
  allocated := nofun
  valid := nofun
  server := nofun

/-- The records that a queue is filled with. -/
theorem fill {t : Trace} {l : List Word} (ht : t.Has l) (mem : List Word) (hm : ∀ x ∈ mem, x ≠ 0 ∧ x ≠ -1) :
    ∃ t', mem.foldlM Trace.enqueue t = some t' ∧ t'.Has (l ++ mem) := by
  induction mem generalizing t l with
  | nil => exact ⟨t, rfl, by rwa [List.append_nil]⟩
  | cons x mem ih =>
    obtain ⟨h0, h1⟩ := hm x List.mem_cons_self
    obtain ⟨t₁, h₁, hh⟩ := ht.enqueue h0 h1
    obtain ⟨t', h₂, hh'⟩ := ih hh fun y hy => hm y (List.mem_cons_of_mem _ hy)
    refine ⟨t', ?_, ?_⟩
    · rw [List.foldlM_cons, h₁]
      exact h₂
    · rwa [List.append_assoc] at hh'

namespace Rank.Inv

variable {r : Rank} {l l' : Option Nat → List Word}

/-- The queue of one server changes, and with it the list of its records. -/
theorem has_update (hr : r.Inv l) {s : Nat} {t : Trace} (ht : t.Has (l' (some s)))
    (hl : ∀ s', s' ≠ s → l' (some s') = l (some s')) :
    ∀ s' t', Function.update r.freeMr s (some t) s' = some t' → t'.Has (l' (some s')) := by
  intro s' t' h
  by_cases hs : s' = s
  · subst hs
    rw [Function.update_self] at h
    cases h
    exact ht
  · rw [Function.update_of_ne hs] at h
    rw [hl s' hs]
    exact hr.has s' t' h

theorem closed_update (hr : r.Inv l) {s : Nat} {t : Trace} (hl : ∀ s', s' ≠ s → l' (some s') = l (some s')) :
    ∀ s', Function.update r.freeMr s (some t) s' = none → l' (some s') = [] := by
  intro s' h
  by_cases hs : s' = s
  · subst hs
    rw [Function.update_self] at h
    cases h
  · rw [Function.update_of_ne hs] at h
    rw [hl s' hs]
    exact hr.closed s' h

theorem server_update (hr : r.Inv l) {s : Nat} {t : Trace} {mr : Word} (h : mr ∈ r.live) :
    ∃ t', Function.update r.freeMr s (some t) (r.mrs mr).server = some t' := by
  obtain ⟨t', ht'⟩ := hr.server mr h
  by_cases hs : (r.mrs mr).server = s
  · rw [hs, Function.update_self]
    exact ⟨t, rfl⟩
  · rw [Function.update_of_ne hs]
    exact ⟨t', ht'⟩

theorem init (hr : r.Inv l) {s : Nat} {mem : List Word} (hl : r.Legal (.init s mem)) :
    ∃ r' l', r.step (.init s mem) = some r' ∧ r'.Inv l' := by
  obtain ⟨hs, -, hn, hfresh⟩ := hl
  obtain ⟨t, ht, hh⟩ := fill Trace.start_has mem fun x hx => ⟨(hfresh x hx).1, (hfresh x hx).2.1⟩
  have hself : Function.update l (some s) mem (some s) = mem := Function.update_self ..
  have hother : ∀ s', s' ≠ s → Function.update l (some s) mem (some s') = l (some s') :=
    fun s' hs' => Function.update_of_ne (fun he => hs' (Option.some.inj he)) ..
  refine ⟨_, Function.update l (some s) mem, by rw [Rank.step, Rank.init, ht]; rfl,
    hr.has_update (hself.symm ▸ hh) hother, hr.closed_update hother, ?_, ?_, ?_, ?_, ?_⟩
  · rw [Function.update_of_ne (by simp)]
    exact hr.live
  · have hperm : mem.Perm (mem ++ l (some s)) := by rw [hr.closed s hs, List.append_nil]
    exact hr.apart.grow hperm hn fun x hx q hq => (hfresh x hx).2.2 (hr.allocated q x hq)
  · intro p mr hmr
    by_cases hp : p = some s
    · subst hp
      rw [Function.update_self] at hmr
      exact List.mem_append_left _ hmr
    · rw [Function.update_of_ne hp] at hmr
      exact List.mem_append_right _ (hr.allocated p mr hmr)
  · intro mr hmr
    obtain hmr | hmr := List.mem_append.1 hmr
    · exact ⟨(hfresh mr hmr).1, (hfresh mr hmr).2.1⟩
    · exact hr.valid mr hmr
  · exact fun mr hmr => hr.server_update hmr

/-- A record goes from one place to another. -/
theorem allocated_move (hr : r.Inv l) {p p' : Option Nat} {xs ys allocated : List Word} {mr : Word}
    (hmr : mr ∈ allocated) (hall : r.allocated ⊆ allocated) (hxs : xs ⊆ l p) (hys : ∀ x ∈ ys, x = mr ∨ x ∈ l p') :
    ∀ q, ∀ x ∈ Function.update (Function.update l p xs) p' ys q, x ∈ allocated := by
  intro q x hx
  by_cases hq : q = p'
  · subst hq
    rw [Function.update_self] at hx
    rcases hys x hx with rfl | hx
    · exact hmr
    · exact hall (hr.allocated q x hx)
  · rw [Function.update_of_ne hq] at hx
    by_cases hq : q = p
    · subst hq
      rw [Function.update_self] at hx
      exact hall (hr.allocated q x (hxs hx))
    · rw [Function.update_of_ne hq] at hx
      exact hall (hr.allocated q x hx)

theorem dereg (hr : r.Inv l) {mr : Word} (hl : r.Legal (.dereg mr)) : ∃ r' l', r.step (.dereg mr) = some r' ∧
    r'.Inv l' := by
  obtain ⟨t, ht⟩ := hr.server mr hl
  have hmem : mr ∈ l none := hr.live ▸ hl
  have hmr := hr.allocated none mr hmem
  obtain ⟨h0, h1⟩ := hr.valid mr hmr
  obtain ⟨t', ht', hh⟩ := (hr.has _ t ht).enqueue h0 h1
  generalize hs : (r.mrs mr).server = s at ht hh
  have hsub : (r.live.erase mr).Sublist (l none) := hr.live ▸ List.erase_sublist
  have hout : mr ∉ r.live.erase mr := List.Nodup.not_mem_erase (hr.live ▸ hr.apart.nodup none)
  have hq : Function.update l none (r.live.erase mr) (some s) = l (some s) := Function.update_of_ne (by simp) ..
  let l' := Function.update (Function.update l none (r.live.erase mr)) (some s) (l (some s) ++ [mr])
  have hself : l' (some s) = l (some s) ++ [mr] := Function.update_self ..
  have hother : ∀ s', s' ≠ s → l' (some s') = l (some s') := fun s' hs' =>
    (Function.update_of_ne (fun he => hs' (Option.some.inj he)) ..).trans (Function.update_of_ne (by simp) ..)
  refine ⟨{ r with freeMr := Function.update r.freeMr s (some t'), live := r.live.erase mr }, l', ?_,
    hr.has_update (hself.symm ▸ hh) hother, hr.closed_update hother, ?_, ?_, ?_, hr.valid, ?_⟩
  · rw [Rank.step, Rank.dereg, hs, ht]
    show (t.enqueue mr >>= _) = _
    rw [ht']
    rfl
  · exact (Function.update_of_ne (by simp) ..).trans (Function.update_self ..)
  · have hperm : (l (some s) ++ [mr]).Perm ([mr] ++ Function.update l none (r.live.erase mr) (some s)) := by
      rw [hq]
      exact List.perm_append_comm
    refine (hr.apart.shrink hsub).grow hperm (List.nodup_singleton mr) fun x hx => ?_
    rw [List.mem_singleton.1 hx]
    exact hr.apart.not_mem_shrink hmem hout
  · refine hr.allocated_move hmr (List.Subset.refl _) hsub.subset fun x hx => ?_
    rw [List.mem_append, List.mem_singleton] at hx
    exact hx.symm
  · exact fun x hx => hr.server_update (List.mem_of_mem_erase hx)

/-- A record that is nowhere is in use from now on. -/
theorem take (hr : r.Inv l) {s : Nat} {t : Trace} {rest allocated : List Word} {mr : Word} (buf size : Word)
    (hh : t.Has rest)
    (hsub : rest.Sublist (l (some s))) (hnew : ∀ q, mr ∉ Function.update l (some s) rest q) (hmr : mr ∈ allocated)
    (hall : r.allocated ⊆ allocated) (hvalid : ∀ x ∈ allocated, x ≠ 0 ∧ x ≠ -1) :
    ({ r with freeMr := Function.update r.freeMr s (some t), allocated }.register s mr buf size).Inv
      (Function.update (Function.update l (some s) rest) none (mr :: r.live)) := by
  have hself : Function.update (Function.update l (some s) rest) none (mr :: r.live) (some s) = rest :=
    (Function.update_of_ne (by simp) ..).trans (Function.update_self ..)
  have hother : ∀ s', s' ≠ s → Function.update (Function.update l (some s) rest) none (mr :: r.live) (some s') =
    l (some s') :=
    fun s' hs' => (Function.update_of_ne (by simp) ..).trans
      (Function.update_of_ne (fun he => hs' (Option.some.inj he)) ..)
  have hlive : Function.update l (some s) rest none = r.live := (Function.update_of_ne (by simp) ..).trans hr.live
  refine ⟨hr.has_update (by rwa [hself]) hother, hr.closed_update hother, Function.update_self .., ?_, ?_, hvalid, ?_⟩
  · have hperm : (mr :: r.live).Perm ([mr] ++ Function.update l (some s) rest none) := by
      rw [hlive]
      rfl
    refine (hr.apart.shrink hsub).grow hperm (List.nodup_singleton mr) fun x hx => ?_
    rw [List.mem_singleton.1 hx]
    exact hnew
  · refine hr.allocated_move hmr hall hsub.subset fun x hx => ?_
    rw [hr.live]
    exact List.mem_cons.1 hx
  · intro x hx
    show ∃ t', Function.update r.freeMr s (some t) (Function.update r.mrs mr _ x).server = some t'
    by_cases hx' : x = mr
    · subst hx'
      rw [Function.update_self, Function.update_self]
      exact ⟨t, rfl⟩
    · rw [Function.update_of_ne hx']
      exact hr.server_update ((List.mem_cons.1 hx).resolve_left hx')

/-- The record of a registration comes from the queue, or is a new one where that returns `NULL`. -/
theorem reg (hr : r.Inv l) {s : Nat} {buf size mem : Word} (hl : r.Legal (.reg s buf size mem)) :
    ∃ r' l', r.step (.reg s buf size mem) = some r' ∧ r'.Inv l' := by
  obtain ⟨t, ht, hfresh⟩ := hl
  have hhas := hr.has s t ht
  obtain ⟨v, t', hd, -, hnull, hval⟩ := hhas.dequeue
  by_cases hv : v = 0
  · subst hv
    obtain rfl := hnull rfl
    obtain ⟨h0, h1, hmem⟩ := hfresh _ hd
    have hnew : ∀ q, mem ∉ Function.update l (some s) (l (some s)) q := by
      rw [Function.update_eq_self]
      exact fun q hq => hmem (hr.allocated q mem hq)
    have hvalid : ∀ x ∈ mem :: r.allocated, x ≠ 0 ∧ x ≠ -1 := by
      intro x hx
      rcases List.mem_cons.1 hx with rfl | hx
      · exact ⟨h0, h1⟩
      · exact hr.valid x hx
    refine ⟨_, _, ?_, hr.take buf size hhas (List.Sublist.refl _) hnew List.mem_cons_self
      (List.subset_cons_self _ _) hvalid⟩
    simp only [Rank.step, Rank.reg, ht, hd, Option.bind_eq_bind, Option.bind_some, if_true]
    rfl
  · obtain ⟨rest, hrest, hh⟩ := hval hv
    have hvm : v ∈ l (some s) := hrest ▸ List.mem_cons_self
    have hout : v ∉ rest := (List.nodup_cons.1 (hrest ▸ hr.apart.nodup (some s))).1
    refine ⟨_, _, ?_, hr.take buf size hh (hrest ▸ List.sublist_cons_self v rest) (hr.apart.not_mem_shrink hvm hout)
      (hr.allocated _ v hvm) (List.Subset.refl _) hr.valid⟩
    simp only [Rank.step, Rank.reg, ht, hd, Option.bind_eq_bind, Option.bind_some, hv, if_false]
    rfl

/-- Every call that is made as it may be returns, and keeps the records apart. -/
theorem step (hr : r.Inv l) {op : Op} (hl : r.Legal op) : ∃ r' l', r.step op = some r' ∧ r'.Inv l' := by
  cases op with
  | init s mem => exact hr.init hl
  | reg s buf size mem => exact hr.reg hl
  | dereg mr => exact hr.dereg hl

end Rank.Inv

theorem Run.inv {ops : List Op} {r : Rank} (h : Run ops r) : ∃ l, r.Inv l := by
  induction h with
  | nil mrs => exact ⟨_, start_inv mrs⟩
  | snoc _ hl hs ih =>
    obtain ⟨l, hr⟩ := ih
    obtain ⟨r₁, l', h, hr'⟩ := hr.step hl
    rw [hs] at h
    cases h
    exact ⟨l', hr'⟩

/-! ## Order and sharing -/

/-- The values that were returned are the first of those that were entered, and the next call returns the first of the
others: `NULL` where there is none, and where the counter of a ring has come to the top bit, which takes `2 ^ 63`
values; the next value then opens a new ring, and the values come out again. -/
structure Fifo (t : Trace) (l : List Word) : Prop where
  order : t.entered = t.returned ++ l
  returns : ∃ v t', t.dequeue = some (v, t') ∧ (v = 0 ↔ l = [] ∨ t.q.Spent) ∧ (v ≠ 0 → l.head? = some v)
  spent : t.q.Spent → 2 ^ 63 ≤ t.entered.length
  reopens : t.q.Spent → ∀ v, v ≠ 0 → v ≠ -1 → ∃ t', t.enqueue v = some t' ∧ t'.entered = t'.returned ++ (l ++ [v]) ∧
    ¬t'.q.Spent ∧ t'.q.count = t.q.count + 1

theorem fifo_of_has {t : Trace} {l : List Word} (ht : t.Has l) : Fifo t l := by
  refine ⟨ht.entered, ?_, ht.entered_of_spent, fun hs v h0 h1 => ?_⟩
  · obtain ⟨v, t', hd, hnull, -, hval⟩ := ht.dequeue
    refine ⟨v, t', hd, hnull, fun hv => ?_⟩
    obtain ⟨l', rfl, -⟩ := hval hv
    rfl
  · obtain ⟨t', he, hh, hns, hc⟩ := ht.enqueue_spent hs h0 h1
    exact ⟨t', he, hh.entered, hns, hc⟩

/-- The queue of `lcrq.c`, called with values other than `NULL` and `-1`; and the records of registrations, in every
sequence of calls. -/
theorem records_in_order :
    (∀ cs : List Call, (∀ v ∈ Call.args cs, v ≠ 0 ∧ v ≠ -1) →
        ∃ t l, calls cs = some t ∧ t.entered = Call.args cs ∧ Fifo t l) ∧
      ∀ ops r, Run ops r → r.live.Nodup ∧ (∀ op, r.Legal op → ∃ r', r.step op = some r') ∧
        ∀ s t, r.freeMr s = some t → ∃ l, Fifo t l ∧ l.Nodup ∧ ∀ mr ∈ l, mr ∉ r.live := by
  constructor
  · intro cs hcs
    obtain ⟨t, l, ht, hh, he⟩ := Trace.start_has.calls cs hcs
    exact ⟨t, l, ht, he, fifo_of_has hh⟩
  · intro ops r h
    obtain ⟨l, hr⟩ := h.inv
    refine ⟨hr.live ▸ hr.apart.nodup none, fun op hl => ?_, fun s t ht => ?_⟩
    · obtain ⟨r', -, hs, -⟩ := hr.step hl
      exact ⟨r', hs⟩
    · refine ⟨l (some s), fifo_of_has (hr.has s t ht), hr.apart.nodup _, fun mr hmr hlive => ?_⟩
      cases hr.apart.unique (some s) none mr hmr (hr.live ▸ hlive)

/-- Values that are too many for one ring are in more than one, in their order. -/
theorem rings_of_values (vs : List Word) (hv : ∀ x ∈ vs, x ≠ 0 ∧ x ≠ -1) (hl : 2 ^ RING_POW < vs.length) :
    ∃ t, calls (vs.map .enqueue) = some t ∧ 1 < t.q.count ∧ Fifo t vs := by
  obtain ⟨t, ht, hh⟩ := fill Trace.start_has vs hv
  refine ⟨t, ?_, hh.holds.one_lt_count hl, fifo_of_has hh⟩
  rw [calls, List.foldlM_map]
  exact ht

/-- One value more than a ring has cells. -/
example : ∃ t, calls ((List.replicate (2 ^ RING_POW + 1) 8).map .enqueue) = some t ∧ 1 < t.q.count :=
  have hv : ∀ x ∈ List.replicate (2 ^ RING_POW + 1) (8 : Word), x ≠ 0 ∧ x ≠ -1 := fun x hx => by
    rw [List.eq_of_mem_replicate hx]
    decide
  have hl : 2 ^ RING_POW < (List.replicate (2 ^ RING_POW + 1) (8 : Word)).length := by
    rw [List.length_replicate]
    exact Nat.lt_succ_self _
  let ⟨t, ht, hc, _⟩ := rings_of_values _ hv hl
  ⟨t, ht, hc⟩

/-! ## A counter at the top bit -/

/-- After `n` registrations that were each released before the next: the queue of server 0 has its records in one
ring. -/
structure Turned (r : Rank) (n : Nat) (l : List Word) : Prop where
  len : l.length = 256
  idle : r.live = []
  queue : ∃ t, r.freeMr 0 = some t ∧ t.Has l ∧ t.q.Single n l

theorem enqueue_single {t t' : Trace} {h : Nat} {l : List Word} {v : Word} (hs : t.q.Single h l)
    (hroom : l.length < 2 ^ RING_POW)
    (hb : h + l.length < 2 ^ 63) (hv : v ≠ -1) (he : t.enqueue v = some t') : t'.q.Single h (l ++ [v]) := by
  obtain ⟨q, hq, rfl⟩ := Option.map_eq_some_iff.1 he
  exact hs.enqueue hroom hb hv hq

theorem fill_single {t t' : Trace} {l : List Word} (hs : t.q.Single 0 l) (mem : List Word) (hm : ∀ x ∈ mem, x ≠ -1)
    (hlen : l.length + mem.length ≤ 256) (he : mem.foldlM Trace.enqueue t = some t') : t'.q.Single 0 (l ++ mem) := by
  induction mem generalizing t l with
  | nil =>
    cases he
    rwa [List.append_nil]
  | cons x mem ih =>
    rw [List.length_cons] at hlen
    obtain ⟨t₁, h₁, h₂⟩ := Option.bind_eq_some_iff.1 he
    have hroom : l.length < 2 ^ RING_POW := lt_of_lt_of_le (by omega : l.length < 256) (by decide)
    have hs₁ := enqueue_single hs hroom (by omega) (hm x List.mem_cons_self) h₁
    have hlen₁ : (l ++ [x]).length + mem.length ≤ 256 := by
      rw [List.length_append, List.length_singleton]
      omega
    have := ih hs₁ (fun y hy => hm y (List.mem_cons_of_mem _ hy)) hlen₁ h₂
    rwa [List.append_assoc] at this

/-- Blocks of 64 bytes. -/
def blocks : List Word := (List.range 256).map fun i => BitVec.ofNat 64 (64 * (i + 1))

theorem toNat_block {i : Nat} (hi : i ∈ List.range 256) : (BitVec.ofNat 64 (64 * (i + 1))).toNat = 64 * (i + 1) := by
  rw [List.mem_range] at hi
  rw [BitVec.toNat_ofNat]
  omega

theorem blocks_valid : ∀ x ∈ blocks, x ≠ 0 ∧ x ≠ -1 := by
  intro x hx
  obtain ⟨i, hi, rfl⟩ := List.mem_map.1 hx
  have ht := toNat_block hi
  rw [List.mem_range] at hi
  constructor
  · intro h
    rw [h] at ht
    change 0 = 64 * (i + 1) at ht
    omega
  · intro h
    rw [h] at ht
    change 2 ^ 64 - 1 = 64 * (i + 1) at ht
    omega

theorem blocks_nodup : blocks.Nodup := by
  refine List.Nodup.map_on (fun i hi j hj he => ?_) List.nodup_range
  have := congrArg BitVec.toNat he
  rw [toNat_block hi, toNat_block hj] at this
  omega

theorem turned_init : ∃ ops r l, Run ops r ∧ Turned r 0 l := by
  let r₀ := Rank.start fun _ => ⟨0, 0, 0, 0⟩
  have hlegal : r₀.Legal (.init 0 blocks) :=
    ⟨rfl, by rw [blocks, List.length_map, List.length_range], blocks_nodup,
      fun x hx => ⟨(blocks_valid x hx).1, (blocks_valid x hx).2, List.not_mem_nil⟩⟩
  obtain ⟨t, ht, hh⟩ := fill Trace.start_has blocks blocks_valid
  have hs := fill_single lcrqInit_single blocks (fun x hx => (blocks_valid x hx).2) (by rw [blocks]; simp) ht
  let r₁ : Rank := ⟨Function.update r₀.freeMr 0 (some t), r₀.mrs, r₀.nextKey + 1, blocks ++ r₀.allocated, []⟩
  have hq : r₁.freeMr 0 = some t := by
    show Function.update r₀.freeMr 0 (some t) 0 = _
    rw [Function.update_self]
  have hstep : r₀.step (.init 0 blocks) = some r₁ := by
    rw [Rank.step, Rank.init, ht]
    rfl
  exact ⟨_, r₁, blocks, .snoc (.nil _) hlegal hstep, hlegal.2.1, rfl, t, hq, hh, hs⟩

theorem Turned.next {ops : List Op} {r : Rank} {n : Nat} {l : List Word} (h : Run ops r) (ht : Turned r n l)
    (hn : n + 256 < 2 ^ 63) :
    ∃ ops' r' l', Run ops' r' ∧ Turned r' (n + 1) l' := by
  obtain ⟨hlen, hidle, t, hq, hh, hs⟩ := ht
  cases l with
  | nil => cases hlen
  | cons v l =>
    -- The first record is taken ...
    have hb : n + (v :: l).length < 2 ^ 63 := by omega
    obtain ⟨t₁, hd, hh₁⟩ := hh.dequeue_value fun hsp => Nat.ne_of_lt hb (hs.spent_iff.1 hsp)
    have hv := hh.ne_null v List.mem_cons_self
    have hv' := hs.ring.vals v List.mem_cons_self
    have hs₁ : t₁.q.Single (n + 1) l := by
      obtain ⟨x, hx, he⟩ := Option.map_eq_some_iff.1 hd
      cases he
      exact hs.dequeue hb hx
    have hreg : r.Legal (.reg 0 0 0 0) := by
      refine ⟨t, hq, fun t' ht' => ?_⟩
      rw [hd] at ht'
      cases ht'
      exact absurd rfl hv
    let r₁ := { r with freeMr := Function.update r.freeMr 0 (some t₁) }.register 0 v 0 0
    have hstep : r.step (.reg 0 0 0 0) = some r₁ := by
      simp only [Rank.step, Rank.reg, hq, hd, Option.bind_eq_bind, Option.bind_some, hv, if_false]
      rfl
    -- ... and released.
    have hm : r₁.mrs v = ⟨0, 0, 0, r.nextKey &&& 0x0fffffff⟩ := Function.update_self ..
    have hq₁ : r₁.freeMr (r₁.mrs v).server = some t₁ := by
      rw [hm]
      show Function.update r.freeMr 0 (some t₁) 0 = _
      rw [Function.update_self]
    obtain ⟨t₂, he, hh₂⟩ := hh₁.enqueue hv hv'
    rw [List.length_cons] at hlen hb
    have hroom : l.length < 2 ^ RING_POW := lt_of_lt_of_le (by omega : l.length < 256) (by decide)
    have hs₂ := enqueue_single hs₁ hroom (by omega) hv' he
    have hlive : r₁.live.erase v = [] := by
      show (v :: r.live).erase v = []
      rw [hidle, List.erase_cons_head]
    let r₂ := { r₁ with freeMr := Function.update r₁.freeMr (r₁.mrs v).server (some t₂), live := r₁.live.erase v }
    have hstep₂ : r₁.step (.dereg v) = some r₂ := by
      rw [Rank.step, Rank.dereg, hq₁]
      show (t₁.enqueue v >>= _) = _
      rw [he]
      rfl
    have hq₂ : r₂.freeMr 0 = some t₂ := by
      show Function.update r₁.freeMr (r₁.mrs v).server (some t₂) 0 = _
      rw [hm, Function.update_self]
    refine ⟨_, r₂, l ++ [v], .snoc (.snoc h hreg hstep) List.mem_cons_self hstep₂, ?_, hlive, t₂, hq₂, hh₂, hs₂⟩
    rw [List.length_append, List.length_singleton, hlen]

/-- After `2 ^ 63` values a queue with records in it returns `NULL`. -/
theorem null_with_records : ¬∀ ops r, Run ops r → ∀ s t l, r.freeMr s = some t → t.entered = t.returned ++ l →
    ∀ x, t.dequeue = some x → (x.1 = 0 ↔ l = []) := by
  have hturn : ∀ n, n + 256 ≤ 2 ^ 63 → ∃ ops r l, Run ops r ∧ Turned r n l := by
    intro n
    induction n with
    | zero => exact fun _ => turned_init
    | succ n ih =>
      intro hn
      obtain ⟨ops, r, l, h, ht⟩ := ih (by omega)
      exact ht.next h (by omega)
  intro hall
  obtain ⟨ops, r, l, h, hlen, -, t, hq, hh, hs⟩ := hturn (2 ^ 63 - 256) (by omega)
  have hspent : t.q.Spent := hs.spent_iff.2 (by omega)
  have hl := (hall ops r h 0 t l hq hh.entered _ (hh.dequeue_null (.inr hspent))).1 rfl
  rw [hl] at hlen
  cases hlen

end Lci.Server.Records
