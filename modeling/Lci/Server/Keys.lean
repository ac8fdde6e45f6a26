/-
The keys of PSM2 registrations. All devices of a rank draw them from one counter, `next_key`, which
starts at 1, is never reset, and is cut to 28 bits. So the keys of live registrations and of the heaps are
distinct and not 0 up to the last draw below `2^28`, and the draw after that gives out key 0.
-/
import Lci.Server.Demux

namespace Lci.Server

open Lci.Proto

/-! ## A rank -/

/-- `next_key` and the devices of a rank. -/
structure Rank where
  nextKey : BitVec 32
  devs : List Dev

/-- A call on device `i`, which sees the counter of the rank. -/
def Rank.call (r : Rank) (i : Nat) (f : Dev → Dev) : Option Rank := do
  let d ← r.devs[i]?
  let d := f { d with nextKey := r.nextKey }
  pure ⟨d.nextKey, r.devs.set i d⟩

/-- A call that draws or releases a key. -/
inductive KeyOp
  | init (raw : Dev)
  | reg (dev : Nat) (buf : Buf) (size : Nat)
  | dereg (dev : Nat) (mem : BitVec 32)

/-- `lc_server_init`, `lc_server_rma_reg` and `lc_server_rma_dereg`. -/
def Rank.step (r : Rank) : KeyOp → Option Rank
  | .init raw =>
    let d := lcServerInit { raw with backend := .psm2, nextKey := r.nextKey }
    some ⟨d.nextKey, r.devs ++ [d]⟩
  | .reg i buf size => r.call i fun d => (psm2RmaReg d buf size).2
  | .dereg i mem => r.call i fun d => lcServerRmaDereg d mem

/-- A rank before its first device. -/
def Rank.start : Rank := ⟨1, []⟩

/-- A run of calls from the start. -/
def keyRun (ops : List KeyOp) : Option Rank := ops.foldlM Rank.step Rank.start

/-- The call draws a key. -/
def KeyOp.draws : KeyOp → Bool
  | .init _ | .reg _ _ _ => true
  | .dereg _ _ => false

/-- The permanent key of a device and those of its live registrations. -/
def Dev.keys (d : Dev) : List (BitVec 32) := d.heapRkey :: d.mrs

def Rank.keys (r : Rank) : List (BitVec 32) := r.devs.flatMap Dev.keys

/-- The keys in use are distinct and not 0, so data under one of them matches the receives of that one
alone. -/
structure Rank.KeysOk (r : Rank) : Prop where
  nodup : r.keys.Nodup
  ne_zero : ∀ k ∈ r.keys, k ≠ 0
  apart : ∀ k ∈ r.keys, ¬ mqMatches psmTagTrecvData LCI_PSM2_TAGSEL (psmTagSrdmaDat k) ∧
    ∀ k' ∈ r.keys, mqMatches (psmTagRrdmaDat k') LCI_PSM2_TAGSEL (psmTagSrdmaDat k) ↔ k' = k

/-! ## One call -/

/-- The key that a draw gives out. -/
def drawnKey (r : Rank) : BitVec 32 := r.nextKey &&& 0x0fffffff

/-- A call on a device changes the keys of that device only. -/
theorem Rank.call_spec {r r' : Rank} {i : Nat} {f : Dev → Dev} (h : r.call i f = some r') :
    ∃ (d : Dev) (l₁ l₂ : List Dev), r.devs = l₁ ++ d :: l₂ ∧
      r'.devs = l₁ ++ f { d with nextKey := r.nextKey } :: l₂ ∧
      r'.nextKey = (f { d with nextKey := r.nextKey }).nextKey := by
  obtain ⟨d, hd, h⟩ := Option.bind_eq_some_iff.1 h
  cases h
  obtain ⟨hi, rfl⟩ := List.getElem?_eq_some_iff.1 hd
  refine ⟨r.devs[i], r.devs.take i, r.devs.drop (i + 1), ?_, ?_, rfl⟩
  · rw [← List.drop_eq_getElem_cons hi, List.take_append_drop]
  · exact List.set_eq_take_append_cons_drop.trans (if_pos hi)

/-- What one call does: a draw adds the drawn key and moves the counter, a release adds nothing. -/
theorem Rank.step_spec {r r' : Rank} {op : KeyOp} (h : r.step op = some r') :
    (op.draws = true ∧ r'.nextKey = r.nextKey + 1 ∧ r'.keys.Perm (drawnKey r :: r.keys)) ∨
      (op.draws = false ∧ r'.nextKey = r.nextKey ∧ r'.keys.Subperm r.keys) := by
  cases op with
  | init raw =>
    cases h
    refine .inl ⟨rfl, rfl, ?_⟩
    unfold Rank.keys
    rw [List.flatMap_append]
    exact List.perm_append_singleton _ _
  | reg i buf size =>
    unfold Rank.step at h
    obtain ⟨d, l₁, l₂, hr, hr', hn⟩ := Rank.call_spec h
    refine .inl ⟨rfl, hn, ?_⟩
    unfold Rank.keys
    rw [hr, hr']
    simp only [List.flatMap_append, List.flatMap_cons]
    have hk : ((psm2RmaReg { d with nextKey := r.nextKey } buf size).2).keys = d.keys ++ [drawnKey r] := rfl
    rw [hk, List.append_assoc, List.singleton_append, ← List.append_assoc, ← List.append_assoc]
    exact List.perm_middle
  | dereg i mem =>
    unfold Rank.step at h
    obtain ⟨d, l₁, l₂, hr, hr', hn⟩ := Rank.call_spec h
    refine .inr ⟨rfl, hn, ?_⟩
    unfold Rank.keys
    rw [hr, hr']
    simp only [List.flatMap_append, List.flatMap_cons]
    have hk : (lcServerRmaDereg { d with nextKey := r.nextKey } mem).keys.Sublist d.keys :=
      (List.erase_sublist (a := mem)).cons_cons d.heapRkey
    exact ((hk.append_right _).append_left _).subperm

/-! ## Runs -/

/-- The counter after `n` draws, and the keys while it has not wrapped. -/
structure Rank.Drawn (n : Nat) (r : Rank) : Prop where
  next : r.nextKey = BitVec.ofNat 32 (n + 1)
  keys : n < 2 ^ 28 → r.keys.Nodup ∧ ∀ k ∈ r.keys, 1 ≤ k.toNat ∧ k.toNat ≤ n

theorem drawnKey_toNat {n : Nat} {r : Rank} (h : r.Drawn n) :
    (drawnKey r).toNat = (n + 1) % 2 ^ 28 := by
  rw [drawnKey, show (0x0fffffff : BitVec 32) = BitVec.ofNat 32 (2 ^ 28 - 1) from rfl, and_low _ 28 (by decide), h.next,
    BitVec.toNat_ofNat]
  omega

theorem Rank.Drawn.step {n : Nat} {r r' : Rank} {op : KeyOp} (hd : r.Drawn n) (h : r.step op = some r') :
    r'.Drawn (n + if op.draws then 1 else 0) := by
  obtain ⟨hop, hn, hp⟩ | ⟨hop, hn, hp⟩ := Rank.step_spec h
  · rw [if_pos hop]
    refine ⟨?_, fun hlt => ?_⟩
    · rw [hn, hd.next]
      apply BitVec.eq_of_toNat_eq
      simp [BitVec.toNat_add]
    · obtain ⟨hnd, hle⟩ := hd.keys (by omega)
      have hk := drawnKey_toNat hd
      refine ⟨hp.nodup_iff.2 (List.nodup_cons.2 ⟨fun hm => ?_, hnd⟩), fun k hm => ?_⟩
      · have := hle _ hm
        omega
      · rcases List.mem_cons.1 (hp.mem_iff.1 hm) with rfl | hm
        · omega
        · have := hle k hm
          omega
  · rw [if_neg (by rw [hop]; decide)]
    refine ⟨hn.trans hd.next, fun hlt => ?_⟩
    obtain ⟨hnd, hle⟩ := hd.keys hlt
    obtain ⟨l, hl, hs⟩ := hp
    exact ⟨(hl.nodup_iff).1 (hs.nodup hnd), fun k hm => hle k (hs.subset (hl.mem_iff.2 hm))⟩

/-- The number of draws of a run. -/
def drawCount (ops : List KeyOp) : Nat := ops.countP KeyOp.draws

theorem keyRun_concat {ops : List KeyOp} {op : KeyOp} {r : Rank} (h : keyRun (ops ++ [op]) = some r) :
    ∃ r₀, keyRun ops = some r₀ ∧ r₀.step op = some r := by
  unfold keyRun at h
  rw [List.foldlM_append] at h
  obtain ⟨r₀, h₀, h⟩ := Option.bind_eq_some_iff.1 h
  exact ⟨r₀, h₀, by simpa using h⟩

theorem keyRun_drawn {ops : List KeyOp} : ∀ {r : Rank}, keyRun ops = some r → r.Drawn (drawCount ops) := by
  induction ops using List.reverseRecOn with
  | nil =>
    rintro r h
    cases h
    exact ⟨rfl, fun _ => ⟨List.nodup_nil, by simp [Rank.keys, Rank.start]⟩⟩
  | append_singleton ops op ih =>
    rintro r h
    obtain ⟨r₀, h₀, h⟩ := keyRun_concat h
    have := (ih h₀).step h
    unfold drawCount at this ⊢
    rwa [List.countP_append, List.countP_singleton]

/-- Below `2^28` draws the keys are in order. -/
theorem Rank.Drawn.keysOk {n : Nat} {r : Rank} (h : r.Drawn n) (hn : n < 2 ^ 28) : r.KeysOk := by
  obtain ⟨hnd, hle⟩ := h.keys hn
  have hv : ∀ k ∈ r.keys, ValidRkey k := fun k hk => ⟨(hle k hk).1, by have := (hle k hk).2; omega⟩
  refine ⟨hnd, fun k hk => (hv k hk).ne_zero, fun k hk => ⟨fun hm => ?_, fun k' hk' => ?_⟩⟩
  · have hm := (mqMatches_iff _ _).1 hm
    rw [show masked psmTagTrecvData.tag2 = 0 from by decide,
      show masked (psmTagSrdmaDat k).tag2 = k from masked_key (hv k hk).isKey] at hm
    exact (hv k hk).ne_zero hm.symm
  · rw [mqMatches_iff, show masked (psmTagRrdmaDat k').tag2 = k' from masked_key (hv k' hk').isKey,
      show masked (psmTagSrdmaDat k).tag2 = k from masked_key (hv k hk).isKey]

/-- A list with more than `n` elements of a kind has a place with exactly `n` before it. -/
theorem exists_countP_take {α : Type} (p : α → Bool) : ∀ (l : List α) (n : Nat), n < l.countP p →
    ∃ k x, l[k]? = some x ∧ p x = true ∧ (l.take k).countP p = n
  | [], n, h => absurd h (by simp)
  | x :: l, n, h => by
    rw [List.countP_cons] at h
    by_cases hx : p x = true
    · rw [if_pos hx] at h
      cases n with
      | zero => exact ⟨0, x, rfl, hx, rfl⟩
      | succ n =>
        obtain ⟨k, y, hk, hy, hc⟩ := exists_countP_take p l n (by omega)
        exact ⟨k + 1, y, hk, hy, by rw [List.take_succ_cons, List.countP_cons, hc, if_pos hx]⟩
    · rw [if_neg hx] at h
      obtain ⟨k, y, hk, hy, hc⟩ := exists_countP_take p l n h
      exact ⟨k + 1, y, hk, hy, by rw [List.take_succ_cons, List.countP_cons, hc, if_neg hx]; rfl⟩

theorem keyRun_take {ops : List KeyOp} {r : Rank} (h : keyRun ops = some r) (k : Nat) :
    ∃ r₀, keyRun (ops.take k) = some r₀ := by
  unfold keyRun at h ⊢
  rw [← List.take_append_drop k ops, List.foldlM_append] at h
  obtain ⟨r₀, h₀, -⟩ := Option.bind_eq_some_iff.1 h
  exact ⟨r₀, h₀⟩

/-- The `2^28`-th draw of a run gives out key 0. -/
theorem key_zero_of_draw {ops : List KeyOp} {op : KeyOp} {r r' : Rank} (h : keyRun ops = some r)
    (hn : drawCount ops = 2 ^ 28 - 1) (hs : r.step op = some r') (hop : op.draws = true) : 0 ∈ r'.keys := by
  have hzero : drawnKey r = 0 := by
    apply BitVec.eq_of_toNat_eq
    rw [drawnKey_toNat (keyRun_drawn h), hn]
    rfl
  obtain ⟨-, -, hp⟩ | ⟨hf, -, -⟩ := Rank.step_spec hs
  · exact hp.mem_iff.2 (hzero ▸ List.mem_cons_self)
  · rw [hop] at hf
    cases hf

theorem key_zero_of_draws {ops : List KeyOp} {r : Rank} (h : keyRun ops = some r) (hd : 2 ^ 28 ≤ drawCount ops) :
    ∃ k r₁, keyRun (ops.take k) = some r₁ ∧ 0 ∈ r₁.keys := by
  obtain ⟨k, op, hk, hop, hc⟩ := exists_countP_take KeyOp.draws ops (2 ^ 28 - 1) (by unfold drawCount at hd; omega)
  obtain ⟨r₁, h₁⟩ := keyRun_take h (k + 1)
  have hsucc : ops.take (k + 1) = ops.take k ++ [op] := by rw [List.take_add_one, hk]; rfl
  obtain ⟨r₀, h₀, hs⟩ := keyRun_concat (hsucc ▸ h₁)
  exact ⟨k + 1, r₁, h₁, key_zero_of_draw h₀ hc hs hop⟩

/-- At every moment of a run of `lc_server_init`, `lc_server_rma_reg` and `lc_server_rma_dereg` calls the keys
in use are distinct, not 0 and told apart by the matched queue, if and only if the run draws fewer than
`2^28` keys. -/
theorem live_keys_distinct_iff {ops : List KeyOp} {r : Rank} (h : keyRun ops = some r) :
    (∀ k r₁, keyRun (ops.take k) = some r₁ → r₁.KeysOk) ↔ drawCount ops < 2 ^ 28 := by
  constructor
  · intro hall
    by_contra hc
    obtain ⟨k, r₁, h₁, hz⟩ := key_zero_of_draws h (not_lt.1 hc)
    exact (hall k r₁ h₁).ne_zero 0 hz rfl
  · intro hn k r₁ h₁
    refine (keyRun_drawn h₁).keysOk (lt_of_le_of_lt ?_ hn)
    exact (List.take_sublist k ops).countP_le

/-- A device, two registrations, and the release of the first. -/
theorem live_keys_distinct_iff_two_regs :
    ∃ r, keyRun [.init (rawDev .psm2 4096 .exp .sync), .reg 0 (.mem 0) 8, .reg 0 (.mem 8) 8, .dereg 0 2] = some r ∧
      r.keys = [1, 3] ∧ r.KeysOk := by
  have h : ∃ r, keyRun [.init (rawDev .psm2 4096 .exp .sync), .reg 0 (.mem 0) 8, .reg 0 (.mem 8) 8, .dereg 0 2] =
      some r ∧ r.keys = [1, 3] := ⟨_, rfl, rfl⟩
  obtain ⟨r, h, hk⟩ := h
  exact ⟨r, h, hk, (live_keys_distinct_iff h).2 (by decide) 4 r h⟩

/-- A device and `n` registrations that stay live. -/
def regsOnly (raw : Dev) (n : Nat) : List KeyOp := .init raw :: List.replicate n (.reg 0 .null 0)

theorem keyRun_regsOnly (raw : Dev) : ∀ n, ∃ r, keyRun (regsOnly raw n) = some r ∧ 0 < r.devs.length
  | 0 => ⟨_, rfl, by simp [Rank.start]⟩
  | n + 1 => by
    obtain ⟨r, h, hl⟩ := keyRun_regsOnly raw n
    unfold regsOnly keyRun at h ⊢
    rw [List.replicate_succ', ← List.cons_append, List.foldlM_append, h]
    simp [Rank.step, Rank.call, hl]

theorem drawCount_regsOnly (raw : Dev) (n : Nat) : drawCount (regsOnly raw n) = n + 1 := by
  rw [drawCount, regsOnly, List.countP_cons_of_pos rfl, List.countP_replicate]
  rfl

/-- A device and `2^28 - 1` registrations that stay live: a key in use is 0, which is what eager messages
compare as. -/
theorem key_zero_given_out : ∃ r, keyRun (regsOnly (rawDev .psm2 4096 .exp .sync) (2 ^ 28 - 1)) = some r ∧
    ¬ r.KeysOk := by
  obtain ⟨n, hn⟩ : ∃ n, n + 1 = 2 ^ 28 - 1 := ⟨2 ^ 28 - 2, by omega⟩
  rw [← hn]
  obtain ⟨r, h, -⟩ := keyRun_regsOnly (rawDev .psm2 4096 .exp .sync) (n + 1)
  have hsnoc : regsOnly (rawDev .psm2 4096 .exp .sync) (n + 1) =
      regsOnly (rawDev .psm2 4096 .exp .sync) n ++ [.reg 0 .null 0] := by
    rw [regsOnly, List.replicate_succ', ← List.cons_append]
    rfl
  obtain ⟨r₀, h₀, hs⟩ := keyRun_concat (hsnoc ▸ h)
  have hd : drawCount (regsOnly (rawDev .psm2 4096 .exp .sync) n) = 2 ^ 28 - 1 :=
    (drawCount_regsOnly (rawDev .psm2 4096 .exp .sync) n).trans hn
  exact ⟨r, h, fun hk => hk.ne_zero 0 (key_zero_of_draw h₀ hd hs rfl) rfl⟩

end Lci.Server
