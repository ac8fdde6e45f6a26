/-
What `lc_server_init` of the verbs backend sets up between the ranks of a job: the table from queue pair numbers to
ranks, for which it looks for a modulus that no two numbers of the device share a remainder of, and the records that
the ranks exchange through the process manager, one for each device and peer.
-/
import Mathlib.Data.List.Basic
import Mathlib.Data.List.Nodup
import Mathlib.Tactic

namespace Lci.Server.Connect

/-! ## The table of queue pairs -/

/-- The inner loop of an attempt with modulus `j`: the marks, or `none` when a place is marked already. -/
def mark (j : Nat) : List (BitVec 32) → List Nat → Option (List Nat)
  | [], b => some b
  | q :: qps, b => if b.getD (q.toNat % j) 0 ≠ 0 then none else mark j qps (b.set (q.toNat % j) 1)

/-- The `while (1)` loop, for at most `fuel` attempts from modulus `j` on. -/
def search (qps : List (BitVec 32)) : Nat → Nat → Option (Nat × List Nat)
  | 0, _ => none
  | fuel + 1, j => match mark j qps (List.replicate j 0) with
    | some b => some (j, b)
    | none => search qps fuel (j + 1)

/-- The last loop: ranks from `i` on take the places of the marks. -/
def fill (j : Nat) : Nat → List (BitVec 32) → List Nat → List Nat
  | _, [], b => b
  | i, q :: qps, b => fill j (i + 1) qps (b.set (q.toNat % j) i)

/-- `qp2rank_mod` and `qp2rank`, for the numbers of the queue pairs of the device. -/
def qp2rank (fuel : Nat) (qps : List (BitVec 32)) : Option (Nat × List Nat) :=
  (search qps fuel qps.length).map fun x => (x.1, fill x.1 0 qps x.2)

/-- The remainders of the numbers. -/
def places (j : Nat) (qps : List (BitVec 32)) : List Nat := qps.map fun q => q.toNat % j

theorem mark_isSome {j : Nat} {qps : List (BitVec 32)} {b : List Nat} (hn : (places j qps).Nodup)
    (hb : ∀ k ∈ places j qps, b.getD k 0 = 0) : ∃ b', mark j qps b = some b' := by
  induction qps generalizing b with
  | nil => exact ⟨b, rfl⟩
  | cons q qps ih =>
    obtain ⟨hq, hn⟩ := List.nodup_cons.1 hn
    rw [mark, if_neg (not_not_intro (hb _ (by simp [places])))]
    refine ih hn fun k hk => ?_
    have hne : q.toNat % j ≠ k := by
      rintro rfl
      exact hq hk
    rw [List.getD_eq_getElem?_getD, List.getElem?_set_ne hne, ← List.getD_eq_getElem?_getD]
    exact hb k (List.mem_cons_of_mem _ hk)

/-- An attempt that ends has marked distinct places. -/
theorem mark_spec {j : Nat} (hj : 0 < j) {qps : List (BitVec 32)} {b b' : List Nat} (hlen : b.length = j)
    (h : mark j qps b = some b') : b'.length = j ∧ (places j qps).Nodup ∧ ∀ k ∈ places j qps, b.getD k 0 = 0 := by
  induction qps generalizing b with
  | nil =>
    cases h
    exact ⟨hlen, List.nodup_nil, by simp [places]⟩
  | cons q qps ih =>
    rw [mark] at h
    split_ifs at h with hq
    obtain ⟨h1, h2, h3⟩ := ih (by rw [List.length_set, hlen]) h
    have hlt : q.toNat % j < b.length := by rw [hlen]; exact Nat.mod_lt _ hj
    -- the place of `q` is marked when the others look
    have hfresh : ∀ k ∈ places j qps, k ≠ q.toNat % j := by
      rintro k hk rfl
      have := h3 _ hk
      rw [List.getD_eq_getElem?_getD, List.getElem?_set_self hlt] at this
      exact absurd this (by simp)
    refine ⟨h1, List.nodup_cons.2 ⟨fun hk => hfresh _ hk rfl, h2⟩, fun k hk => ?_⟩
    rcases List.mem_cons.1 hk with rfl | hk
    · exact not_not.1 hq
    · have := h3 k hk
      rwa [List.getD_eq_getElem?_getD, List.getElem?_set_ne (hfresh k hk).symm, ← List.getD_eq_getElem?_getD] at this

/-- The loop ends at a modulus that is no larger than one that works. -/
theorem search_spec {qps : List (BitVec 32)} {k : Nat} (hk : ∃ b, mark k qps (List.replicate k 0) = some b) {j : Nat}
    (hj : j ≤ k) : ∃ m b, j ≤ m ∧ m ≤ k ∧ mark m qps (List.replicate m 0) = some b ∧
      ∀ fuel, k - j < fuel → search qps fuel j = some (m, b) := by
  obtain ⟨n, rfl⟩ := Nat.exists_eq_add_of_le hj
  clear hj
  induction n generalizing j with
  | zero =>
    obtain ⟨b, hb⟩ := hk
    refine ⟨j, b, le_rfl, le_rfl, hb, fun fuel hf => ?_⟩
    obtain ⟨f, rfl⟩ := Nat.exists_eq_succ_of_ne_zero (show fuel ≠ 0 by omega)
    rw [search, show mark j qps (List.replicate j 0) = some b from hb]
  | succ n ih =>
    cases hm : mark j qps (List.replicate j 0) with
    | some b =>
      refine ⟨j, b, le_rfl, by omega, hm, fun fuel hf => ?_⟩
      obtain ⟨f, rfl⟩ := Nat.exists_eq_succ_of_ne_zero (show fuel ≠ 0 by omega)
      rw [search, hm]
    | none =>
      rw [show j + (n + 1) = j + 1 + n by omega] at hk ⊢
      obtain ⟨m, b, h1, h2, h3, h4⟩ := ih hk
      refine ⟨m, b, by omega, h2, h3, fun fuel hf => ?_⟩
      obtain ⟨f, rfl⟩ := Nat.exists_eq_succ_of_ne_zero (show fuel ≠ 0 by omega)
      rw [search, hm]
      exact h4 f (by omega)

theorem fill_length (j : Nat) (i : Nat) (qps : List (BitVec 32)) (b : List Nat) :
    (fill j i qps b).length = b.length := by
  induction qps generalizing i b with
  | nil => rfl
  | cons q qps ih => rw [fill, ih, List.length_set]

theorem fill_other {j k : Nat} {qps : List (BitVec 32)} (hk : k ∉ places j qps) (i : Nat) (b : List Nat) :
    (fill j i qps b)[k]? = b[k]? := by
  induction qps generalizing i b with
  | nil => rfl
  | cons q qps ih =>
    rw [places, List.map_cons, List.mem_cons, not_or] at hk
    rw [fill, ih hk.2, List.getElem?_set_ne (Ne.symm hk.1)]

/-- On distinct places every rank stays where it was written. -/
theorem fill_get {j : Nat} (hj : 0 < j) {qps : List (BitVec 32)} (hn : (places j qps).Nodup) {b : List Nat}
    (hlen : b.length = j) {i n : Nat} {q : BitVec 32} (hq : qps[n]? = some q) :
    (fill j i qps b)[q.toNat % j]? = some (i + n) := by
  induction qps generalizing i b n with
  | nil => simp at hq
  | cons a qps ih =>
    obtain ⟨ha, hn⟩ := List.nodup_cons.1 hn
    rw [fill]
    cases n with
    | zero =>
      cases hq
      rw [fill_other ha, List.getElem?_set_self (by rw [hlen]; exact Nat.mod_lt _ hj)]
      rfl
    | succ n =>
      rw [ih hn (by rw [List.length_set, hlen]) hq]
      congr 1
      omega

/-- Numbers below the modulus are their own remainders. -/
theorem places_nodup {qps : List (BitVec 32)} {j : Nat} (hd : qps.Nodup) (hlt : ∀ q ∈ qps, q.toNat < j) :
    (places j qps).Nodup := by
  have hmap : places j qps = qps.map BitVec.toNat := List.map_congr_left fun q hq => Nat.mod_eq_of_lt (hlt q hq)
  rw [hmap]
  exact hd.map fun a b h => BitVec.eq_of_toNat_eq h

theorem length_le_of_nodup {qps : List (BitVec 32)} {j : Nat} (hd : qps.Nodup) (hlt : ∀ q ∈ qps, q.toNat < j) :
    qps.length ≤ j := by
  have hn := places_nodup hd hlt
  have hsub : places j qps ⊆ List.range j := by
    rintro k hk
    obtain ⟨q, hq, rfl⟩ := List.mem_map.1 hk
    exact List.mem_range.2 ((Nat.mod_le _ _).trans_lt (hlt q hq))
  have := (hn.subperm hsub).length_le
  rwa [places, List.length_map, List.length_range] at this

/-- The search ends, whatever the numbers, and the table gives every queue pair its rank; every number that a
completion can carry falls inside the table. -/
theorem qp2rank_perfect {qps : List (BitVec 32)} (hne : qps ≠ []) (hd : qps.Nodup) (hlt : ∀ q ∈ qps, q.toNat < 2 ^ 24) :
    ∃ j b, (∀ fuel, 2 ^ 24 < fuel → qp2rank fuel qps = some (j, b)) ∧ b.length = j ∧ j ≤ 2 ^ 24 ∧
      (∀ i q, qps[i]? = some q → b[q.toNat % j]? = some i) ∧ ∀ q : BitVec 32, q.toNat % j < b.length := by
  have hP : 0 < qps.length := List.length_pos_iff.2 hne
  have hwork : ∃ b, mark (2 ^ 24) qps (List.replicate (2 ^ 24) 0) = some b := by
    refine mark_isSome (places_nodup hd hlt) fun k _ => ?_
    rw [List.getD_eq_getElem?_getD, List.getElem?_replicate]
    split_ifs <;> rfl
  obtain ⟨j, b, h1, h2, h3, h4⟩ := search_spec hwork (length_le_of_nodup hd hlt)
  have hj : 0 < j := by omega
  obtain ⟨hlen, hn, -⟩ := mark_spec hj List.length_replicate h3
  have htbl : (fill j 0 qps b).length = j := by rw [fill_length, hlen]
  refine ⟨j, fill j 0 qps b, fun fuel hf => ?_, htbl, h2, fun i q hq => ?_, fun q => ?_⟩
  · rw [qp2rank, h4 fuel (by omega)]
    rfl
  · rw [fill_get hj hn hlen hq, Nat.zero_add]
  · rw [htbl]
    exact Nat.mod_lt _ hj

/-- Three queue pairs whose numbers agree modulo three. -/
theorem qp2rank_perfect_three : ∃ j b, (∀ fuel, 2 ^ 24 < fuel → qp2rank fuel [70, 73, 76] = some (j, b)) ∧
    b.length = j ∧ j ≤ 2 ^ 24 ∧ (∀ i q, ([70, 73, 76] : List (BitVec 32))[i]? = some q → b[q.toNat % j]? = some i) ∧
    ∀ q : BitVec 32, q.toNat % j < b.length :=
  qp2rank_perfect (by decide) (by decide) (by simp)

/-! ## Keys of the process manager -/

/-- `(id << 8) | peer`, an `int`. -/
def gid (id peer : Nat) : BitVec 32 := BitVec.ofNat 32 id <<< 8 ||| BitVec.ofNat 32 peer

/-- The key of `lc_pm_publish` and `lc_pm_getname`. -/
def pmKey (rank : Nat) (gid : BitVec 32) : String := "_LC_KEY_" ++ toString rank ++ "_" ++ toString gid.toInt

/-- The record of the queue pair that a rank has for a peer on a device, named by the three. -/
structure Pub where
  rank : Nat
  device : Nat
  peer : Nat
deriving DecidableEq, Repr

/-- The key it is published under. -/
def Pub.key (x : Pub) : String := pmKey x.rank (gid x.device x.peer)

/-- The ranks and devices of a job. -/
def Pub.InJob (P ndev : Nat) (x : Pub) : Prop := x.rank < P ∧ x.device < ndev ∧ x.peer < P

/-- `PMI_KVS_Get` after some `PMI_KVS_Put`s: the last one under the key. -/
def kvsGet (puts : List Pub) (key : String) : Option Pub := puts.reverse.find? fun x => x.key = key

/-- The publish loops of all ranks for one device. A barrier follows each pass; the ranks make the `i`-th pass in the
order `order i`. -/
def publish (P : Nat) (order : Nat → List Nat) (device : Nat) : List Pub :=
  (List.range P).flatMap fun i => (order i).map fun r => ⟨r, device, i⟩

/-- All that was published when the ranks come to the lookup loop of a device. -/
def published (P : Nat) (order : Nat → Nat → List Nat) (device : Nat) : List Pub :=
  (List.range (device + 1)).flatMap fun d => publish P (order d) d

/-- What rank `r` reads in the lookup loop of a device for peer `i`. -/
def lookup (P : Nat) (order : Nat → Nat → List Nat) (r device i : Nat) : Option Pub :=
  kvsGet (published P order device) (pmKey i (gid device r))

theorem toDigits_inj {a b : Nat} (h : Nat.toDigits 10 a = Nat.toDigits 10 b) : a = b := by
  have := congrArg (fun l => Nat.ofDigitChars 10 l 0) h
  simpa using this

theorem repr_inj {a b : Nat} (h : a.repr = b.repr) : a = b := by
  refine toDigits_inj ?_
  rw [← Nat.toList_repr, h, Nat.toList_repr]

theorem int_repr_inj {a b : Int} (h : a.repr = b.repr) : a = b := by
  have hdash : ∀ n m : Nat, n.repr ≠ "-" ++ m.repr := by
    intro n m h
    have hl := congrArg String.toList h
    rw [Nat.toList_repr, String.toList_append] at hl
    have hmem : '-' ∈ Nat.toDigits 10 n := by
      rw [hl]
      simp
    exact absurd (Nat.isDigit_of_mem_toDigits (by decide) (by decide) hmem) (by decide)
  rw [Int.repr_eq_if, Int.repr_eq_if] at h
  split_ifs at h with ha hb hb
  · have := repr_inj h
    omega
  · exact absurd h (hdash _ _)
  · exact absurd h.symm (hdash _ _)
  · have := repr_inj ((String.append_right_inj "-").1 h)
    omega

/-- Keys of different ranks or numbers differ: no digit is an underscore. -/
theorem pmKey_inj {r r' : Nat} {g g' : BitVec 32} (h : pmKey r g = pmKey r' g') : r = r' ∧ g = g' := by
  have hl : Nat.toDigits 10 r ++ '_' :: g.toInt.repr.toList = Nat.toDigits 10 r' ++ '_' :: g'.toInt.repr.toList := by
    have := congrArg String.toList h
    simpa [pmKey, String.toList_append, Nat.toString_eq_repr, Nat.toList_repr] using this
  have htake : ∀ (n : Nat) (t : List Char), (Nat.toDigits 10 n ++ '_' :: t).takeWhile (· ≠ '_') =
    Nat.toDigits 10 n := by
    intro n t
    rw [List.takeWhile_append_of_pos, List.takeWhile_cons_of_neg (by simp), List.append_nil]
    intro c hc
    refine decide_eq_true fun he => ?_
    exact Nat.underscore_not_in_toDigits (he ▸ hc)
  have hr : Nat.toDigits 10 r = Nat.toDigits 10 r' := by
    rw [← htake r g.toInt.repr.toList, hl, htake]
  refine ⟨toDigits_inj hr, ?_⟩
  rw [hr] at hl
  have hg := (List.cons.inj (List.append_cancel_left hl)).2
  exact BitVec.eq_of_toInt_eq (int_repr_inj (String.toList_injective hg))

/-- With fewer than 256 peers the number has the device in its upper 24 bits. -/
theorem gid_toNat {d i : Nat} (hi : i < 2 ^ 8) : (gid d i).toNat = d % 2 ^ 24 * 2 ^ 8 + i := by
  have hshift : (BitVec.ofNat 32 d <<< 8).toNat = d % 2 ^ 24 * 2 ^ 8 := by
    rw [BitVec.toNat_shiftLeft, BitVec.toNat_ofNat, Nat.shiftLeft_eq]
    omega
  rw [gid, BitVec.toNat_or, hshift, BitVec.toNat_ofNat, Nat.mod_eq_of_lt (show i < 2 ^ 32 by omega), Nat.mul_comm,
    Nat.two_pow_add_eq_or_of_lt hi]

theorem gid_zero {i : Nat} (hi : i < 2 ^ 31) : (gid 0 i).toNat = i := by
  rw [gid, BitVec.toNat_or, BitVec.toNat_ofNat, Nat.mod_eq_of_lt (show i < 2 ^ 32 by omega)]
  simp

/-- The device loses its upper bits, and a peer from 256 on runs into those of the device. -/
theorem gid_wraps : gid 0 0 = gid (2 ^ 24) 0 ∧ gid 0 256 = gid 1 0 ∧ gid 1 0 = gid 1 256 := by decide

/-- When the keys are distinct. -/
def KeysFit (P ndev : Nat) : Prop := ndev ≤ 1 ∨ (P ≤ 2 ^ 8 ∧ ndev ≤ 2 ^ 24)

theorem key_inj {P ndev : Nat} (hP : P < 2 ^ 31) (h : KeysFit P ndev) {x y : Pub} (hx : x.InJob P ndev)
    (hy : y.InJob P ndev) (hxy : x.key = y.key) : x = y := by
  obtain ⟨r, d, i⟩ := x
  obtain ⟨r', d', i'⟩ := y
  obtain ⟨-, hd, hi⟩ := hx
  obtain ⟨-, hd', hi'⟩ := hy
  obtain ⟨rfl, hg⟩ := pmKey_inj hxy
  dsimp only at hd hi hd' hi' hg
  have hg := congrArg BitVec.toNat hg
  rcases h with h | ⟨hP', hn⟩
  · obtain rfl : d = 0 := by omega
    obtain rfl : d' = 0 := by omega
    rw [gid_zero (by omega), gid_zero (by omega)] at hg
    rw [hg]
  · rw [gid_toNat (by omega), gid_toNat (by omega), Nat.mod_eq_of_lt (by omega), Nat.mod_eq_of_lt (by omega)] at hg
    obtain ⟨rfl, rfl⟩ : d = d' ∧ i = i' := by omega
    rfl

/-! ## Lookups -/

/-- The last record put under a key is what is read. -/
theorem kvsGet_last {l r : List Pub} {x : Pub} (hr : ∀ y ∈ r, y.key ≠ x.key) : kvsGet (l ++ x :: r) x.key = some x := by
  have hnone : r.reverse.find? (fun y => y.key = x.key) = none := by
    rw [List.find?_eq_none]
    rintro y hy
    simpa using hr y (List.mem_reverse.1 hy)
  rw [kvsGet, List.reverse_append, List.reverse_cons, List.append_assoc, List.find?_append, hnone]
  simp

/-- A record whose key no other record has is what is read under it. -/
theorem kvsGet_of_unique {puts : List Pub} {x : Pub} (hx : x ∈ puts) (h : ∀ y ∈ puts, y.key = x.key → y = x) :
    kvsGet puts x.key = some x := by
  have hsome : (kvsGet puts x.key).isSome := by
    rw [kvsGet, List.find?_isSome]
    exact ⟨x, List.mem_reverse.2 hx, by simp⟩
  obtain ⟨y, hy⟩ := Option.isSome_iff_exists.1 hsome
  rw [hy]
  have hk : y.key = x.key := by simpa using List.find?_some hy
  exact congrArg some (h y (List.mem_reverse.1 (List.mem_of_find?_eq_some hy)) hk)

variable {P : Nat} {order : Nat → Nat → List Nat}

theorem mem_published (hord : ∀ d i, (order d i).Perm (List.range P)) {device : Nat} {x : Pub} :
    x ∈ published P order device ↔ x.InJob P (device + 1) := by
  simp only [published, publish, List.mem_flatMap, List.mem_map, List.mem_range, Pub.InJob]
  constructor
  · rintro ⟨d, hd, i, hi, r, hr, rfl⟩
    exact ⟨List.mem_range.1 ((hord d i).mem_iff.1 hr), hd, hi⟩
  · rintro ⟨hr, hd, hi⟩
    exact ⟨x.device, hd, x.peer, hi, x.rank, (hord _ _).mem_iff.2 (List.mem_range.2 hr), rfl⟩

/-- Every rank reads the record that its peer has published for it, and all keys in use are distinct, exactly when there
is one device or the peers fit the eight bits they have in the key (and the devices the other bits). -/
theorem connected_iff {ndev : Nat} (h0 : 0 < P) (hP : P < 2 ^ 31) (hord : ∀ d i, (order d i).Perm (List.range P)) :
    ((∀ r < P, ∀ d < ndev, ∀ i < P, lookup P order r d i = some ⟨i, d, r⟩) ∧
      ∀ x y : Pub, x.InJob P ndev → y.InJob P ndev → x.key = y.key → x = y) ↔
    ndev ≤ 1 ∨ (P ≤ 2 ^ 8 ∧ ndev ≤ 2 ^ 24) := by
  constructor
  · rintro ⟨-, hinj⟩
    by_contra hc
    obtain ⟨hn, hfit⟩ := not_or.1 hc
    by_cases h8 : P ≤ 2 ^ 8
    -- the number of the device wraps around
    · have hdev : 2 ^ 24 < ndev := by
        by_contra hle
        exact hfit ⟨h8, by omega⟩
      have hpos : 0 < ndev := by omega
      have := hinj ⟨0, 0, 0⟩ ⟨0, 2 ^ 24, 0⟩ ⟨h0, hpos, h0⟩ ⟨h0, hdev, h0⟩ (congrArg (pmKey 0) gid_wraps.1)
      exact absurd (congrArg Pub.device this) (by decide)
    -- peer 256 of device 0 has the number of peer 0 of device 1
    · have hdev : 0 < ndev ∧ 1 < ndev := by omega
      have hpeer : 256 < P := by omega
      have := hinj ⟨0, 0, 256⟩ ⟨0, 1, 0⟩ ⟨h0, hdev.1, hpeer⟩ ⟨h0, hdev.2, h0⟩ (congrArg (pmKey 0) gid_wraps.2.1)
      exact absurd (congrArg Pub.device this) (by decide)
  · intro hfit
    have hinj : ∀ x y : Pub, x.InJob P ndev → y.InJob P ndev → x.key = y.key → x = y :=
      fun x y hx hy => key_inj hP hfit hx hy
    refine ⟨fun r hr d hd i hi => ?_, hinj⟩
    have hx : (⟨i, d, r⟩ : Pub) ∈ published P order d := (mem_published hord).2 ⟨hi, Nat.lt_succ_self d, hr⟩
    show kvsGet (published P order d) (⟨i, d, r⟩ : Pub).key = _
    refine kvsGet_of_unique hx fun y hy hk => ?_
    obtain ⟨h1, h2, h3⟩ := (mem_published hord).1 hy
    exact hinj y ⟨i, d, r⟩ ⟨h1, by omega, h3⟩ ⟨hi, hd, hr⟩ hk

/-- Two devices and 256 ranks: the last job that fits. -/
theorem connected_iff_256 : (∀ r < 256, ∀ d < 2, ∀ i < 256,
      lookup 256 (fun _ _ => List.range 256) r d i = some ⟨i, d, r⟩) ∧
    ∀ x y : Pub, x.InJob 256 2 → y.InJob 256 2 → x.key = y.key → x = y :=
  (connected_iff (by decide) (by decide) fun _ _ => List.Perm.refl _).2 (by decide)

/-- After a pass of all ranks in order, the record of rank 0 is there. -/
theorem kvsGet_pass (l : List Pub) (n d i : Nat) :
    kvsGet (l ++ (List.range (n + 1)).map fun r => ⟨r, d, i⟩) (⟨0, d, i⟩ : Pub).key = some ⟨0, d, i⟩ := by
  rw [List.range_succ_eq_map, List.map_cons, List.map_map]
  refine kvsGet_last fun y hy hk => ?_
  obtain ⟨r, -, rfl⟩ := List.mem_map.1 hy
  exact absurd (pmKey_inj hk).1 (Nat.succ_ne_zero r)

/-- With 257 ranks and two devices, rank 0 reads for its queue pair to itself on device 1 the record that was published
for rank 256. -/
theorem wrong_peer_connected : lookup 257 (fun _ _ => List.range 257) 0 1 0 = some ⟨0, 1, 256⟩ ∧
    (⟨0, 1, 256⟩ : Pub) ≠ ⟨0, 1, 0⟩ := by
  refine ⟨?_, by decide⟩
  have hkey : pmKey 0 (gid 1 0) = (⟨0, 1, 256⟩ : Pub).key := congrArg (pmKey 0) gid_wraps.2.2
  have hlast : ∀ order : Nat → Nat → List Nat,
      ∃ l, published 257 order 1 = l ++ (order 1 256).map fun r => ⟨r, 1, 256⟩ := by
    intro order
    refine ⟨publish 257 (order 0) 0 ++ (List.range 256).flatMap fun i => (order 1 i).map fun r => ⟨r, 1, i⟩, ?_⟩
    have hpass : publish 257 (order 1) 1 =
        ((List.range 256).flatMap fun i => (order 1 i).map fun r => ⟨r, 1, i⟩) ++
          (order 1 256).map fun r => ⟨r, 1, 256⟩ := by
      rw [publish, show 257 = 256 + 1 from rfl, List.range_succ, List.flatMap_append, List.flatMap_singleton]
    rw [published, show List.range (1 + 1) = [0, 1] from rfl, List.flatMap_cons, List.flatMap_singleton, hpass,
      List.append_assoc]
  obtain ⟨l, hl⟩ := hlast fun _ _ => List.range 257
  rw [lookup, hkey, hl]
  exact kvsGet_pass l 256 1 256

end Lci.Server.Connect
