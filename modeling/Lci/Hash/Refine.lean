/-
The matching table refines a two-sided matching store. The live entries of a bucket, read row after
row and slot after slot, are the outstanding entries of the keys of that bucket in the order in
which they were stored: an entry is only ever put behind the last live slot of its chain, and a
match leaves a hole that no later entry may fill as long as a live one stands behind it.
-/
import Lci.Hash.Table
import Lci.Lib.Matcher

namespace Lci.Hash

open Matcher

/-! ## Tags -/

theorem tagOf_toNat {k : Key} (hk : k.toNat < 2 ^ 63) (s : InsertType) :
    (tagOf k s).toNat = 2 * k.toNat + s.toKey.toNat := by
  have h1 : (k <<< 1).toNat = 2 * k.toNat := by
    simp only [BitVec.toNat_shiftLeft, Nat.shiftLeft_eq]; omega
  unfold tagOf
  rw [BitVec.toNat_or, h1]
  have hs : s.toKey.toNat < 2 ^ 1 := by cases s <;> decide
  have := Nat.two_pow_add_eq_or_of_lt hs k.toNat
  simpa using this.symm

/-- A key the table can tell from the mark of a free slot in both types. -/
def ValidKey (k : Key) : Prop := k.toNat < 2 ^ 63 - 1

instance : DecidablePred ValidKey := fun _ => inferInstanceAs (Decidable (_ < _))

theorem tagOf_ne_empty {k : Key} (hk : ValidKey k) (s : InsertType) : tagOf k s ≠ EMPTY := by
  unfold ValidKey at hk
  intro h
  have h1 := tagOf_toNat (k := k) (by omega) s
  have h2 : EMPTY.toNat = 2 ^ 64 - 1 := by decide
  rw [h, h2] at h1
  have : s.toKey.toNat ≤ 1 := by cases s <;> decide
  omega

theorem tagOf_inj {k k' : Key} (hk : ValidKey k) (hk' : ValidKey k') {s s' : InsertType}
    (h : tagOf k s = tagOf k' s') : k = k' ∧ s = s' := by
  unfold ValidKey at hk hk'
  have h1 := tagOf_toNat (k := k) (by omega) s
  have h2 := tagOf_toNat (k := k') (by omega) s'
  rw [h, h2] at h1
  have hs : s.toKey.toNat = s'.toKey.toNat := by
    have a : s.toKey.toNat ≤ 1 := by cases s <;> decide
    have b : s'.toKey.toNat ≤ 1 := by cases s' <;> decide
    omega
  refine ⟨BitVec.eq_of_toNat_eq (by omega), ?_⟩
  cases s <;> cases s' <;> first | rfl | (exact absurd hs (by decide))

theorem cmpKeyOf_eq (k : Key) (s : InsertType) : cmpKeyOf k s = tagOf k s.other := by
  cases s <;> rfl

theorem other_other (s : InsertType) : s.other.other = s := by cases s <;> rfl

theorem other_ne (s : InsertType) : s.other ≠ s := by cases s <;> decide

section

variable {V : Type}

/-! ## A chain as the list of its slots -/

/-- The slots of a chain in scan order. -/
def slotsOf (rows : List (Row V)) : List (Slot V) := rows.flatMap Vector.toList

/-- The number of a position in scan order. -/
def Pos.flat (p : Pos) : Nat := rowSlots * p.row + p.slot

theorem slotsOf_length (rows : List (Row V)) : (slotsOf rows).length = rowSlots * rows.length := by
  induction rows with
  | nil => rfl
  | cons r rs ih =>
    rw [slotsOf, List.flatMap_cons, List.length_append, ← slotsOf, ih, Vector.length_toList, List.length_cons]
    ring

theorem slotsOf_append (rows rows' : List (Row V)) :
    slotsOf (rows ++ rows') = slotsOf rows ++ slotsOf rows' := List.flatMap_append ..

theorem modify_append_left {α : Type} (f : α → α) {l r : List α} {i : Nat} (h : i < l.length) :
    (l ++ r).modify i f = l.modify i f ++ r := by
  apply List.ext_getElem?
  intro j
  rw [List.getElem?_modify]
  by_cases hj : j < l.length
  · rw [List.getElem?_append_left hj, List.getElem?_append_left (by simpa using hj), List.getElem?_modify]
  · rw [List.getElem?_append_right (by omega), List.getElem?_append_right (by simpa using hj)]
    simp [show i ≠ j by omega]

theorem modify_append_mid {α : Type} (f : α → α) (l : List α) (a : α) (r : List α) :
    (l ++ a :: r).modify l.length f = l ++ f a :: r := by
  induction l with
  | nil => rfl
  | cons x l ih => simp [ih]

theorem row_modify (r : Row V) (j : Nat) (f : Slot V → Slot V) :
    (Vector.ofFn fun i : Fin rowSlots => if i.val = j then f (getElem r i i.isLt) else getElem r i i.isLt).toList =
      r.toList.modify j f := by
  apply List.ext_getElem
  · simp
  · intro i h1 h2
    simp only [Vector.getElem_toList, Vector.getElem_ofFn, List.getElem_modify, Fin.getElem_fin, eq_comm]

/-- Changing the slot at a position of a chain changes one element of its list of slots. -/
theorem slotsOf_modify (f : Slot V → Slot V) (j : Nat) (hj : j < rowSlots) :
    ∀ (rows : List (Row V)) (i : Nat), i < rows.length →
      slotsOf (rows.modify i fun r => Vector.ofFn fun k => if k.val = j then f r[k] else r[k]) =
        (slotsOf rows).modify (rowSlots * i + j) f
  | [], _, h => absurd h (by simp)
  | r :: rs, 0, _ => by
    simp only [List.modify_zero_cons, slotsOf, List.flatMap_cons, row_modify, Nat.mul_zero, Nat.zero_add]
    rw [modify_append_left f (by rw [Vector.length_toList]; exact hj)]
  | r :: rs, i + 1, h => by
    have ih := slotsOf_modify f j hj rs i (by simpa using h)
    simp only [slotsOf] at ih
    simp only [List.modify_succ_cons, slotsOf, List.flatMap_cons, ih]
    apply List.ext_getElem?
    intro n
    rw [List.getElem?_modify]
    by_cases hn : n < r.toList.length
    · rw [List.getElem?_append_left hn, List.getElem?_append_left hn]
      rw [Vector.length_toList] at hn
      simp [show rowSlots * (i + 1) + j ≠ n by rw [Nat.mul_add]; omega]
    · rw [List.getElem?_append_right (by omega), List.getElem?_append_right (by omega), List.getElem?_modify]
      rw [Vector.length_toList] at hn ⊢
      have : rowSlots * (i + 1) + j = n ↔ rowSlots * i + j = n - rowSlots := by rw [Nat.mul_add]; omega
      simp [this]

namespace Chain

def slots (c : Chain V) : List (Slot V) := slotsOf c.rows

theorem modify_slots (c : Chain V) {p : Pos} (hs : p.slot < rowSlots) (hp : p.flat < c.slots.length)
    (f : Slot V → Slot V) : (c.modify p f).slots = c.slots.modify p.flat f := by
  refine slotsOf_modify f p.slot hs c.rows p.row ?_
  rw [slots, slotsOf_length, Pos.flat] at hp
  by_contra hn
  have : rowSlots * c.rows.length ≤ rowSlots * p.row := Nat.mul_le_mul_left _ (by omega)
  omega

theorem link_slots (c : Chain V) (zero : V) :
    (c.link zero).slots = c.slots ++ List.replicate rowSlots ⟨EMPTY, zero⟩ := by
  unfold slots link
  rw [slotsOf_append]
  congr 1

/-- The slot at a position, when the position is inside the chain. -/
theorem get_eq (zero : V) : ∀ (rows : List (Row V)) (hne : rows ≠ []) (i j : Nat), j < rowSlots →
    ∀ (l : List (Slot V)) (e : Slot V) (r : List (Slot V)), slotsOf rows = l ++ e :: r →
      rowSlots * i + j = l.length → (Chain.mk rows hne).get zero ⟨i, j⟩ = e
  | [], h, _, _, _, _, _, _, _, _ => absurd rfl h
  | row :: rows, _, 0, j, hj, l, e, r, hs, hl => by
    have hlen : j < row.toList.length := by rw [Vector.length_toList]; exact hj
    have h1 : (slotsOf (row :: rows))[j]? = some e := by
      rw [hs, List.getElem?_append_right (by omega)]; simp [show j - l.length = 0 by omega]
    rw [slotsOf, List.flatMap_cons, List.getElem?_append_left hlen] at h1
    simp only [get, List.getElem?_cons_zero]
    rw [List.getD_eq_getElem?_getD, h1]; rfl
  | row :: rows, _, i + 1, j, hj, l, e, r, hs, hl => by
    have hrl : row.toList.length = rowSlots := Vector.length_toList
    have hrow : row.toList <+: slotsOf (row :: rows) := ⟨slotsOf rows, rfl⟩
    have hpre : row.toList <+: l := by
      refine List.prefix_of_prefix_length_le hrow ⟨_, hs.symm⟩ ?_
      rw [hrl, ← hl, Nat.mul_add]; omega
    obtain ⟨l', rfl⟩ := hpre
    have hs' : slotsOf rows = l' ++ e :: r := by
      rw [slotsOf, List.flatMap_cons, List.append_assoc] at hs
      exact List.append_cancel_left hs
    have hne : rows ≠ [] := by rintro rfl; simp [slotsOf] at hs'
    have := get_eq zero rows hne i j hj l' e r hs' (by
      rw [List.length_append, hrl, Nat.mul_add] at hl; omega)
    simpa only [get, List.getElem?_cons_succ] using this

end Chain

/-! ## The scan -/

/-- `empty_hentry` after scanning `done`: the first slot of a run of empty slots at its end. -/
def TailAt (done : List (Slot V)) (emptyHentry : Option Pos) : Prop :=
  ∀ p, emptyHentry = some p → p.slot < rowSlots ∧
    ∃ l r, done = l ++ r ∧ r ≠ [] ∧ p.flat = l.length ∧ ∀ x ∈ r, x.tag = EMPTY

theorem TailAt.snoc_empty {done : List (Slot V)} {eh : Option Pos} (h : TailAt done eh) {e : Slot V}
    (he : e.tag = EMPTY) {p : Pos} (hs : p.slot < rowSlots) (hp : p.flat = done.length) :
    TailAt (done ++ [e]) (if eh = none then some p else eh) := by
  intro q hq
  split at hq
  · cases hq
    exact ⟨hs, done, [e], rfl, by simp, hp, by simpa using he⟩
  · obtain ⟨h1, l, r, rfl, hr, hl, hall⟩ := h q hq
    refine ⟨h1, l, r ++ [e], by simp, by simp, hl, ?_⟩
    intro x hx
    rcases List.mem_append.1 hx with hx | hx
    · exact hall x hx
    · rw [List.mem_singleton.1 hx]; exact he

/-- What a scan that has passed `done` finds in the slots `es`. -/
def ScanOK (cmpKey : Key) (done es : List (Slot V)) : Scan → Prop
  | .hit p => p.slot < rowSlots ∧ ∃ l e r, es = l ++ e :: r ∧ (∀ x ∈ l, x.tag ≠ cmpKey) ∧ e.tag = cmpKey ∧
      p.flat = done.length + l.length
  | .fell eh => (∀ x ∈ es, x.tag ≠ cmpKey) ∧ TailAt (done ++ es) eh

theorem scanSlots_ok (cmpKey : Key) (i : Nat) :
    ∀ (es : List (Slot V)) (j : Nat) (eh : Option Pos) (done : List (Slot V)), j + es.length = rowSlots →
      done.length = rowSlots * i + j → TailAt done eh → ScanOK cmpKey done es (scanSlots cmpKey i es j eh)
  | [], j, eh, done, _, _, ht => by
    unfold scanSlots
    exact ⟨by simp, by simpa using ht⟩
  | e :: es, j, eh, done, hj, hd, ht => by
    rw [List.length_cons] at hj
    -- a slot that does not match is passed, whatever is recorded there
    have step : ∀ eh', TailAt (done ++ [e]) eh' → e.tag ≠ cmpKey →
        ScanOK cmpKey done (e :: es) (scanSlots cmpKey i es (j + 1) eh') := by
      intro eh' ht' hne
      have ih := scanSlots_ok cmpKey i es (j + 1) eh' (done ++ [e]) (by omega)
        (by rw [List.length_append, hd, List.length_singleton]; omega) ht'
      rcases hs : scanSlots cmpKey i es (j + 1) eh' with p | eh''
      · rw [hs] at ih
        obtain ⟨h1, l, x, r, rfl, hl, hx, hp⟩ := ih
        refine ⟨h1, e :: l, x, r, rfl, ?_, hx, ?_⟩
        · intro y hy
          rcases List.mem_cons.1 hy with rfl | hy
          · exact hne
          · exact hl y hy
        · rw [hp, List.length_append, List.length_singleton, List.length_cons]; omega
      · rw [hs] at ih
        obtain ⟨h1, h2⟩ := ih
        refine ⟨?_, by simpa using h2⟩
        intro y hy
        rcases List.mem_cons.1 hy with rfl | hy
        · exact hne
        · exact h1 y hy
    unfold scanSlots
    split
    · rename_i h
      exact ⟨by show j < rowSlots; omega, [], e, es, rfl, by simp, h, by simp [Pos.flat, hd]⟩
    · rename_i h
      split
      · rename_i he
        exact step _ (ht.snoc_empty he (by show j < rowSlots; omega) hd.symm) h
      · exact step none (fun p hp => by cases hp) h

theorem scanRows_ok (cmpKey : Key) :
    ∀ (rows : List (Row V)) (i : Nat) (eh : Option Pos) (done : List (Slot V)),
      done.length = rowSlots * i → TailAt done eh →
        ScanOK cmpKey done (slotsOf rows) (scanRows cmpKey rows i eh)
  | [], i, eh, done, _, ht => ⟨by simp [slotsOf], by simpa [slotsOf] using ht⟩
  | r :: rs, i, eh, done, hd, ht => by
    have h1 := scanSlots_ok cmpKey i r.toList 0 eh done (by simp) (by omega) ht
    unfold scanRows
    rcases hs : scanSlots cmpKey i r.toList 0 eh with p | eh'
    · rw [hs] at h1
      obtain ⟨hp, l, e, t, hr, hl, he, hf⟩ := h1
      refine ⟨hp, l, e, t ++ slotsOf rs, ?_, hl, he, hf⟩
      rw [slotsOf, List.flatMap_cons, hr]; simp [slotsOf]
    · rw [hs] at h1
      obtain ⟨hno, ht'⟩ := h1
      have ih := scanRows_ok cmpKey rs (i + 1) eh' (done ++ r.toList)
        (by rw [List.length_append, hd, Vector.length_toList]; ring) ht'
      show ScanOK cmpKey done (slotsOf (r :: rs)) (scanRows cmpKey rs (i + 1) eh')
      rcases hq : scanRows cmpKey rs (i + 1) eh' with p | eh''
      · rw [hq] at ih
        obtain ⟨hp, l, e, t, hr, hl, he, hf⟩ := ih
        refine ⟨hp, r.toList ++ l, e, t, ?_, ?_, he, by rw [hf, List.length_append, List.length_append]; omega⟩
        · rw [slotsOf, List.flatMap_cons, ← slotsOf, hr]; simp
        · intro x hx
          rcases List.mem_append.1 hx with hx | hx
          · exact hno x hx
          · exact hl x hx
      · rw [hq] at ih
        obtain ⟨hno', ht''⟩ := ih
        refine ⟨?_, by rw [slotsOf, List.flatMap_cons, ← slotsOf, ← List.append_assoc]; exact ht''⟩
        intro x hx
        rw [slotsOf, List.flatMap_cons] at hx
        rcases List.mem_append.1 hx with hx | hx
        · exact hno x hx
        · exact hno' x hx

/-! ## One call on a chain -/

/-- The live entries among some slots. -/
def live (l : List (Slot V)) : List (Slot V) := l.filter (fun e => e.tag ≠ EMPTY)

theorem live_append (l r : List (Slot V)) : live (l ++ r) = live l ++ live r := by simp [live]

theorem live_empty {l : List (Slot V)} (h : ∀ x ∈ l, x.tag = EMPTY) : live l = [] := by
  simp only [live, List.filter_eq_nil_iff, decide_eq_true_eq, ne_eq, not_not]
  exact h

theorem live_cons_of_ne {e : Slot V} (h : e.tag ≠ EMPTY) (l : List (Slot V)) : live (e :: l) = e :: live l := by
  simp [live, h]

theorem live_cons_of_eq {e : Slot V} (h : e.tag = EMPTY) (l : List (Slot V)) : live (e :: l) = live l := by
  simp [live, h]

section

variable (zero : V) {c : Chain V} {key : Key} (value : V) {type : InsertType}

/-- A scan that ends on a slot: its value is returned and it is marked free. -/
theorem insertChain_hit {p : Pos} (hs : scanRows (cmpKeyOf key type) c.rows 0 none = .hit p) :
    ∃ l e r, c.slots = l ++ e :: r ∧ (∀ x ∈ l, x.tag ≠ cmpKeyOf key type) ∧ e.tag = cmpKeyOf key type ∧
      (insertChain zero c key value type).1 = 0 ∧ (insertChain zero c key value type).2.1 = e.val ∧
      (insertChain zero c key value type).2.2.slots = l ++ { e with tag := EMPTY } :: r := by
  have hscan := scanRows_ok (cmpKeyOf key type) c.rows 0 none [] (by simp) (fun p hp => by cases hp)
  rw [hs] at hscan
  obtain ⟨hp, l, e, r, hsl, hl, he, hf⟩ := hscan
  rw [List.length_nil, Nat.zero_add] at hf
  have hsl' : c.slots = l ++ e :: r := hsl
  have hget : c.get zero p = e := Chain.get_eq zero c.rows c.rows_ne p.row p.slot hp l e r hsl hf
  have hmod := c.modify_slots (f := fun e => { e with tag := EMPTY }) hp (by rw [hsl', hf]; simp)
  rw [hsl', hf, modify_append_mid] at hmod
  unfold insertChain
  rw [hs]
  exact ⟨l, e, r, hsl', hl, he, rfl, by simp only [hget], hmod⟩

/-- A scan that ends with a slot of the empty run at the end of the chain: the entry is written there. -/
theorem insertChain_room {p : Pos} (hs : scanRows (cmpKeyOf key type) c.rows 0 none = .fell (some p)) :
    (∀ x ∈ c.slots, x.tag ≠ cmpKeyOf key type) ∧ ∃ l e r, c.slots = l ++ e :: r ∧ p.flat = l.length ∧
      (∀ x ∈ e :: r, x.tag = EMPTY) ∧
      (insertChain zero c key value type).1 = 1 ∧ (insertChain zero c key value type).2.1 = value ∧
      (insertChain zero c key value type).2.2.slots = l ++ ⟨tagOf key type, value⟩ :: r := by
  have hscan := scanRows_ok (cmpKeyOf key type) c.rows 0 none [] (by simp) (fun p hp => by cases hp)
  rw [hs] at hscan
  obtain ⟨hno, ht⟩ := hscan
  obtain ⟨hp, l, r, hsl, hr, hf, hall⟩ := ht p rfl
  rw [List.nil_append] at hsl
  obtain ⟨e, r, rfl⟩ := List.exists_cons_of_ne_nil hr
  have hsl' : c.slots = l ++ e :: r := hsl
  have hmod := c.modify_slots (f := fun _ => ⟨tagOf key type, value⟩) hp (by rw [hsl', hf]; simp)
  rw [hsl', hf, modify_append_mid] at hmod
  unfold insertChain
  rw [hs]
  exact ⟨hno, l, e, r, hsl', hf, hall, rfl, rfl, hmod⟩

/-- A scan that ends with no empty slot at the end of the chain: a new row is linked for the entry. -/
theorem insertChain_link (hs : scanRows (cmpKeyOf key type) c.rows 0 none = .fell none) :
    (∀ x ∈ c.slots, x.tag ≠ cmpKeyOf key type) ∧
      (insertChain zero c key value type).1 = 1 ∧ (insertChain zero c key value type).2.1 = value ∧
      (insertChain zero c key value type).2.2.slots =
        c.slots ++ ⟨tagOf key type, value⟩ :: List.replicate 2 ⟨EMPTY, zero⟩ := by
  have hscan := scanRows_ok (cmpKeyOf key type) c.rows 0 none [] (by simp) (fun p hp => by cases hp)
  rw [hs] at hscan
  have hlen : (⟨c.rows.length, 0⟩ : Pos).flat = c.slots.length := by
    rw [Pos.flat, Chain.slots, slotsOf_length, Nat.add_zero]
  have hmod := (c.link zero).modify_slots (p := ⟨c.rows.length, 0⟩) (f := fun _ => ⟨tagOf key type, value⟩)
    (show 0 < rowSlots by decide) (by
      rw [hlen, Chain.link_slots, List.length_append, List.length_replicate]
      exact Nat.lt_add_of_pos_right (by decide))
  have hrep : List.replicate rowSlots (⟨EMPTY, zero⟩ : Slot V) =
      ⟨EMPTY, zero⟩ :: List.replicate 2 ⟨EMPTY, zero⟩ := rfl
  rw [Chain.link_slots, hlen, hrep, modify_append_mid] at hmod
  unfold insertChain
  rw [hs]
  exact ⟨hscan.1, rfl, rfl, hmod⟩

end

/-- A call on a chain takes out its first live slot with the tag it looks for, or puts its own entry
behind all the live ones. -/
theorem insertChain_cases (zero : V) (c : Chain V) (key : Key) (value : V) (type : InsertType)
    (hcmp : cmpKeyOf key type ≠ EMPTY) (htag : tagOf key type ≠ EMPTY) :
    (∃ l e r, live c.slots = l ++ e :: r ∧ (∀ x ∈ l, x.tag ≠ cmpKeyOf key type) ∧ e.tag = cmpKeyOf key type ∧
      (insertChain zero c key value type).1 = 0 ∧ (insertChain zero c key value type).2.1 = e.val ∧
      live (insertChain zero c key value type).2.2.slots = l ++ r) ∨
    ((∀ x ∈ live c.slots, x.tag ≠ cmpKeyOf key type) ∧
      (insertChain zero c key value type).1 = 1 ∧ (insertChain zero c key value type).2.1 = value ∧
      live (insertChain zero c key value type).2.2.slots = live c.slots ++ [⟨tagOf key type, value⟩]) := by
  rcases hs : scanRows (cmpKeyOf key type) c.rows 0 none with p | (_ | p)
  · obtain ⟨l, e, r, hsl, hl, he, h1, h2, h3⟩ := insertChain_hit zero value hs
    refine .inl ⟨live l, e, live r, ?_, fun x hx => hl x (List.mem_of_mem_filter hx), he, h1, h2, ?_⟩
    · rw [hsl, live_append, live_cons_of_ne (he ▸ hcmp)]
    · rw [h3, live_append, live_cons_of_eq rfl]
  · obtain ⟨hno, h1, h2, h3⟩ := insertChain_link zero value hs
    refine .inr ⟨fun x hx => hno x (List.mem_of_mem_filter hx), h1, h2, ?_⟩
    have hnew : live (List.replicate 2 (⟨EMPTY, zero⟩ : Slot V)) = [] :=
      live_empty fun x hx => by rw [List.eq_of_mem_replicate hx]
    rw [h3, live_append, live_cons_of_ne htag, hnew]
  · obtain ⟨hno, l, e, r, hsl, -, hall, h1, h2, h3⟩ := insertChain_room zero value hs
    refine .inr ⟨fun x hx => hno x (List.mem_of_mem_filter hx), h1, h2, ?_⟩
    have hr : live r = [] := live_empty fun x hx => hall x (by simp [hx])
    rw [h3, hsl, live_append, live_append, live_cons_of_ne htag, live_cons_of_eq (hall e (by simp)), hr,
      List.append_nil]

/-! ## The simulation -/

/-- A call, and an outstanding entry: its key, its type and the value of the call. -/
abbrev Call (V : Type) := Entry Key InsertType V

/-- The slot that holds an entry. -/
def encode (e : Call V) : Slot V := ⟨tagOf e.key e.side, e.val⟩

/-- The outstanding entries of one bucket. -/
abbrev inBucket (b : Fin (2 ^ tblBitSize)) (q : List (Call V)) : List (Call V) :=
  restrict (fun k => decide (bucket k = b)) q

/-- `t` holds exactly the entries `q`: in every bucket its live slots are, in order, the entries of
the keys of that bucket. -/
structure Represents (t : Table V) (q : List (Call V)) : Prop where
  live_eq : ∀ b, live (t b).slots = (inBucket b q).map encode
  valid : ∀ e ∈ q, ValidKey e.key

theorem represents_create (zero : V) : Represents (lcHashCreate zero) [] := by
  refine ⟨fun b => ?_, by simp⟩
  exact live_empty fun x hx => by
    have : x ∈ List.replicate rowSlots (⟨EMPTY, zero⟩ : Slot V) := by
      simpa [lcHashCreate, Chain.slots, slotsOf, emptyRow] using hx
    rw [List.eq_of_mem_replicate this]

/-- A slot of an entry carries the tag a call looks for exactly when the call looks for the entry. -/
theorem encode_tag_eq {c e : Call V} (hc : ValidKey c.key) (he : ValidKey e.key) :
    (encode e).tag = cmpKeyOf c.key c.side ↔ Meets InsertType.other c e := by
  rw [cmpKeyOf_eq]
  constructor
  · intro h
    obtain ⟨h1, h2⟩ := tagOf_inj he hc h
    exact ⟨h1, h2⟩
  · rintro ⟨h1, h2⟩
    simp only [encode, h1, h2]

theorem map_eq_append_cons {α β : Type} {f : α → β} {l : List α} {l₁ r₁ : List β} {b : β}
    (h : l.map f = l₁ ++ b :: r₁) : ∃ u a v, l = u ++ a :: v ∧ u.map f = l₁ ∧ f a = b ∧ v.map f = r₁ := by
  obtain ⟨u, w, rfl, hu, hw⟩ := List.map_eq_append_iff.1 h
  obtain ⟨a, v, rfl, ha, hv⟩ := List.map_eq_cons_iff.1 hw
  exact ⟨u, a, v, rfl, hu, ha, hv⟩

/-- What a call returns, read off what the store did with it. -/
def resultOf (c : Call V) : Outcome V → Nat × V
  | .matched v => (0, v)
  | .stored => (1, c.val)

/-- One call on the chain of a bucket is one call on the entries of that bucket. -/
theorem insertChain_refines (zero : V) (ch : Chain V) (q : List (Call V)) (c : Call V)
    (hq : live ch.slots = q.map encode) (hv : ∀ e ∈ q, ValidKey e.key) (hc : ValidKey c.key) :
    ((insertChain zero ch c.key c.val c.side).1, (insertChain zero ch c.key c.val c.side).2.1) =
        resultOf c (insert InsertType.other q c).1 ∧
      live (insertChain zero ch c.key c.val c.side).2.2.slots = (insert InsertType.other q c).2.map encode := by
  rcases insertChain_cases zero ch c.key c.val c.side (by rw [cmpKeyOf_eq]; exact tagOf_ne_empty hc _)
    (tagOf_ne_empty hc _) with ⟨l, e, r, hl, hno, he, h1, h2, h3⟩ | ⟨hno, h1, h2, h3⟩
  · rw [hq] at hl
    obtain ⟨u, a, v, rfl, rfl, rfl, rfl⟩ := map_eq_append_cons hl
    have hm : Meets InsertType.other c a := (encode_tag_eq hc (hv a (by simp))).1 he
    have hu : ∀ x ∈ u, ¬ Meets InsertType.other c x := fun x hx hx' =>
      hno (encode x) (List.mem_map_of_mem hx) ((encode_tag_eq hc (hv x (by simp [hx]))).2 hx')
    rcases insert_cases InsertType.other (u ++ a :: v) c with ⟨l', e', r', hs, hl', hm', hi⟩ | ⟨hn, -⟩
    · -- both take the first entry the call looks for
      have : u = l' ∧ a = e' ∧ v = r' := by
        rcases List.append_eq_append_iff.1 hs with ⟨w, rfl, hw⟩ | ⟨w, rfl, hw⟩
        · cases w with
          | nil => simp at hw; exact ⟨by simp, hw.1, hw.2⟩
          | cons x w => rw [List.cons_append, List.cons.injEq] at hw; exact absurd (hw.1 ▸ hm) (hl' x (by simp))
        · cases w with
          | nil => simp at hw; exact ⟨by simp, hw.1.symm, hw.2.symm⟩
          | cons x w => rw [List.cons_append, List.cons.injEq] at hw; exact absurd (hw.1 ▸ hm') (hu x (by simp))
      obtain ⟨rfl, rfl, rfl⟩ := this
      rw [hi, h1, h2, h3]
      exact ⟨rfl, by simp⟩
    · exact absurd hm (hn a (by simp))
  · have hn : ∀ x ∈ q, ¬ Meets InsertType.other c x := fun x hx hx' =>
      hno (encode x) (hq ▸ List.mem_map_of_mem hx) ((encode_tag_eq hc (hv x hx)).2 hx')
    rw [insert_stored _ hn, h1, h2, h3, hq]
    exact ⟨rfl, by simp [encode]⟩

/-- The step of the simulation: one `lc_hash_insert` is one call on the store. -/
theorem lcHashInsert_refines (zero : V) {t : Table V} {q : List (Call V)} (h : Represents t q)
    (c : Call V) (hc : ValidKey c.key) :
    ((lcHashInsert zero t c.key c.val c.side).ret, (lcHashInsert zero t c.key c.val c.side).value) =
        resultOf c (insert InsertType.other q c).1 ∧
      Represents (lcHashInsert zero t c.key c.val c.side).table (insert InsertType.other q c).2 := by
  have hsel : decide (bucket c.key = bucket c.key) = true := by simp
  obtain ⟨r1, r2⟩ := insert_restrict_of_true InsertType.other (fun k => decide (bucket k = bucket c.key)) q c hsel
  obtain ⟨s1, s2⟩ := insertChain_refines zero (t (bucket c.key)) (inBucket (bucket c.key) q) c (h.live_eq _)
    (fun e he => h.valid e (List.mem_of_mem_filter he)) hc
  refine ⟨by rw [r1]; exact s1, ⟨fun b => ?_, fun e he => ?_⟩⟩
  · by_cases hb : b = bucket c.key
    · subst hb
      simp only [lcHashInsert, Function.update_self]
      rw [s2, inBucket, ← r2]
    · simp only [lcHashInsert, Function.update_of_ne hb]
      rw [h.live_eq b, inBucket, inBucket,
        insert_restrict_of_false InsertType.other _ q c (by simpa using fun hh => hb hh.symm)]
  · rcases insert_mem InsertType.other he with he | rfl
    · exact h.valid e he
    · exact hc

/-- A sequence of calls on a table: what each one returns and the table they leave. -/
def runTable (zero : V) : Table V → List (Call V) → List (Nat × V) × Table V
  | t, [] => ([], t)
  | t, c :: cs =>
    let r := lcHashInsert zero t c.key c.val c.side
    ((r.ret, r.value) :: (runTable zero r.table cs).1, (runTable zero r.table cs).2)

/-- Every run of the table is a run of the store. -/
theorem runTable_refines (zero : V) : ∀ (cs : List (Call V)) {t : Table V} {q : List (Call V)}, Represents t q →
    (∀ c ∈ cs, ValidKey c.key) →
      (runTable zero t cs).1 = List.zipWith resultOf cs (run InsertType.other q cs).1 ∧
        Represents (runTable zero t cs).2 (run InsertType.other q cs).2
  | [], _, _, h, _ => ⟨rfl, h⟩
  | c :: cs, _, _, h, hk => by
    obtain ⟨h1, h2⟩ := lcHashInsert_refines zero h c (hk c (by simp))
    obtain ⟨i1, i2⟩ := runTable_refines zero cs h2 (fun x hx => hk x (by simp [hx]))
    exact ⟨by simp only [runTable, run, List.zipWith_cons_cons, h1, i1], i2⟩

/-! ## Per-key first in, first out -/

/-- What a call did, read off what it returned. -/
def outcomeOf : Nat × V → Outcome V
  | (0, v) => .matched v
  | _ => .stored

theorem run_length (q : List (Call V)) : ∀ cs : List (Call V), (run InsertType.other q cs).1.length = cs.length := by
  intro cs
  induction cs generalizing q with
  | nil => rfl
  | cons c cs ih => simp only [run, List.length_cons, ih]

theorem map_outcomeOf : ∀ (cs : List (Call V)) (os : List (Outcome V)), os.length = cs.length →
    (List.zipWith resultOf cs os).map outcomeOf = os
  | [], [], _ => rfl
  | _ :: cs, o :: os, h => by
    have ih := map_outcomeOf cs os (by simpa using h)
    cases o <;> simp [resultOf, outcomeOf, ih]

/-- The outcomes of a run of the table from its creation are those of the store. -/
theorem runTable_outcomes (zero : V) (cs : List (Call V)) (hk : ∀ c ∈ cs, ValidKey c.key) :
    (runTable zero (lcHashCreate zero) cs).1.map outcomeOf = (run InsertType.other [] cs).1 := by
  rw [(runTable_refines zero cs (represents_create zero) hk).1, map_outcomeOf _ _ (run_length _ _)]

/-- The entry a call of `lc_hash_insert` can be matched with: its key, the other type. -/
def Matching (c e : Call V) : Prop := e.key = c.key ∧ e.side = c.side.other

/-- `lc_hash_insert` on a table made by `lc_hash_create` is a per-key FIFO. `q` being the entries
outstanding before a call, the call returns 0 exactly when one of them is of its key and the other
type, and then delivers the oldest of these and takes out nothing else; otherwise it returns 1,
leaves the value and adds one entry. Over the whole run, what was stored under a key and type is
what was delivered from it, in order, followed by what is outstanding; a key is outstanding in one
type only; and the calls on one key return what they return when no other key is used. -/
theorem lcHashInsert_fifo (zero : V) (calls : List (Call V)) (hk : ∀ c ∈ calls, ValidKey c.key) :
    let outcomes := (runTable zero (lcHashCreate zero) calls).1.map outcomeOf
    (∀ pre c post, calls = pre ++ c :: post →
      let t := (runTable zero (lcHashCreate zero) pre).2
      let q := (run InsertType.other [] pre).2
      let r := lcHashInsert zero t c.key c.val c.side
      Represents t q ∧ OneSided InsertType.other q ∧ (r.ret = 0 ↔ ∃ e ∈ q, Matching c e) ∧
      ((∃ l e rest, q = l ++ e :: rest ∧ Matching c e ∧ (∀ x ∈ l, ¬ Matching c x) ∧
          r.ret = 0 ∧ r.value = e.val ∧ Represents r.table (l ++ rest)) ∨
        ((∀ x ∈ q, ¬ Matching c x) ∧ r.ret = 1 ∧ r.value = c.val ∧ Represents r.table (q ++ [c])))) ∧
    (∀ k s, puts k s calls outcomes =
      takes InsertType.other k s calls outcomes ++ waiting k s (run InsertType.other [] calls).2) ∧
    (∀ k, outcomesOn (fun k' => decide (k' = k)) calls outcomes =
      (runTable zero (lcHashCreate zero) (restrict (fun k' => decide (k' = k)) calls)).1.map outcomeOf) := by
  intro outcomes
  have ho : outcomes = (run InsertType.other [] calls).1 := runTable_outcomes zero calls hk
  refine ⟨?_, fun k s => ?_, fun k => ?_⟩
  · rintro pre c post rfl t q r
    have hpre : ∀ x ∈ pre, ValidKey x.key := fun x hx => hk x (by simp [hx])
    have hc : ValidKey c.key := hk c (by simp)
    have hrep : Represents t q := (runTable_refines zero pre (represents_create zero) hpre).2
    have hone : OneSided InsertType.other q :=
      run_oneSided _ other_other other_ne pre [] (fun e he => by cases he)
    obtain ⟨hres, hrep'⟩ := lcHashInsert_refines zero hrep c hc
    have hr : (r.ret, r.value) = resultOf c (insert InsertType.other q c).1 := hres
    refine ⟨hrep, hone, ?_⟩
    rcases insert_cases InsertType.other q c with ⟨l, e, rest, hq, hl, hm, hi⟩ | ⟨hno, hi⟩
    · rw [hi] at hr hrep'
      obtain ⟨h1, h2⟩ := Prod.mk.injEq .. ▸ hr
      exact ⟨⟨fun _ => ⟨e, by rw [hq]; simp, hm⟩, fun _ => h1⟩, .inl ⟨l, e, rest, hq, hm, hl, h1, h2, hrep'⟩⟩
    · rw [hi] at hr hrep'
      obtain ⟨h1, h2⟩ := Prod.mk.injEq .. ▸ hr
      refine ⟨⟨fun h => ?_, fun ⟨e, he, hm⟩ => absurd hm (hno e he)⟩, .inr ⟨hno, h1, h2, hrep'⟩⟩
      rw [h1] at h; cases h
  · have := run_fifo InsertType.other k s calls []
    rw [ho]
    simpa [waiting] using this
  · have hk' : ∀ x ∈ restrict (fun k' => decide (k' = k)) calls, ValidKey x.key :=
      fun x hx => hk x (List.mem_of_mem_filter hx)
    rw [runTable_outcomes zero _ hk', ho]
    exact (run_restrict InsertType.other (fun k' => decide (k' = k)) calls []).1

/-- Two messages and a receive of one key: the receive gets the older message. -/
theorem lcHashInsert_fifo_two_messages :
    let calls : List (Call Nat) := [⟨1, .server, 1⟩, ⟨1, .server, 2⟩, ⟨1, .client, 3⟩]
    let outcomes := (runTable 0 (lcHashCreate 0) calls).1.map outcomeOf
    (∀ c ∈ calls, ValidKey c.key) ∧
      puts 1 .server calls outcomes = takes InsertType.other 1 .server calls outcomes ++
        waiting 1 .server (run InsertType.other [] calls).2 := by
  intro calls outcomes
  have hk : ∀ c ∈ calls, ValidKey c.key := by decide
  exact ⟨hk, (lcHashInsert_fifo 0 calls hk).2.1 1 .server⟩

end

end Lci.Hash
