/-
How long the chains grow. A call that stores writes right behind the last live slot of its chain, so the slots before
that one come free again only when the bucket drains: what bounds the rows of a bucket is the number of entries stored
between two moments at which it is empty, not the number outstanding at one time.
-/
import Lci.Hash.Refine

namespace Lci.Hash

section

variable {V : Type}

/-! ## The used part of a chain -/

/-- The slots up to the last live one. -/
def used : List (Slot V) → Nat
  | [] => 0
  | e :: es => if used es = 0 ∧ e.tag = EMPTY then 0 else used es + 1

theorem used_le : ∀ l : List (Slot V), used l ≤ l.length
  | [] => le_rfl
  | e :: es => by
    have ih := used_le es
    rw [used, List.length_cons]
    split <;> omega

theorem used_eq_zero_iff : ∀ l : List (Slot V), used l = 0 ↔ live l = []
  | [] => by simp [used, live]
  | e :: es => by
    rw [used]
    by_cases he : e.tag = EMPTY
    · rw [live_cons_of_eq he, ← used_eq_zero_iff es]
      simp [he]
    · rw [live_cons_of_ne he]
      simp [he]

theorem used_append (l r : List (Slot V)) : used (l ++ r) = if used r = 0 then used l else l.length + used r := by
  induction l with
  | nil => simp only [List.nil_append, List.length_nil, used]; split <;> omega
  | cons e es ih =>
    rw [List.cons_append, used, used, ih, List.length_cons]
    by_cases hr : used r = 0
    · simp only [hr, if_true]
    · rw [if_neg hr, if_neg hr, if_neg (by omega)]
      omega

theorem used_append_empty (l : List (Slot V)) {r : List (Slot V)} (hr : ∀ x ∈ r, x.tag = EMPTY) :
    used (l ++ r) = used l := by
  rw [used_append, if_pos ((used_eq_zero_iff r).2 (live_empty hr))]

/-- A live slot with nothing live behind it is the end of the used part. -/
theorem used_append_live (l : List (Slot V)) {e : Slot V} (he : e.tag ≠ EMPTY) {r : List (Slot V)}
    (hr : ∀ x ∈ r, x.tag = EMPTY) : used (l ++ e :: r) = l.length + 1 := by
  have h0 : used r = 0 := (used_eq_zero_iff r).2 (live_empty hr)
  rw [used_append, used, h0]
  simp [he]

/-- Freeing a slot leaves no more used. -/
theorem used_free (l : List (Slot V)) (e : Slot V) (r : List (Slot V)) :
    used (l ++ { e with tag := EMPTY } :: r) ≤ used (l ++ e :: r) := by
  rw [used_append, used_append]
  have h1 : used ({ e with tag := EMPTY } :: r) = if used r = 0 then 0 else used r + 1 := by simp [used]
  have h2 : used r = 0 ∨ used (e :: r) = used r + 1 := by
    rw [used]
    by_cases h : used r = 0 <;> simp [h]
  have h3 := used_le l
  rw [h1]
  split_ifs <;> omega

/-- With a live slot behind it, freeing a slot leaves as much used. -/
theorem used_free_of_live (l : List (Slot V)) (e : Slot V) {r : List (Slot V)} (hr : live r ≠ []) :
    used (l ++ { e with tag := EMPTY } :: r) = used (l ++ e :: r) := by
  have h0 : used r ≠ 0 := fun h => hr ((used_eq_zero_iff r).1 h)
  rw [used_append, used_append, used, used]
  simp [h0]

/-! ## Where a scan ends -/

/-- `empty_hentry` after scanning `done` is the slot behind the last live one, if `done` has it. -/
def EndsAt (done : List (Slot V)) : Option Pos → Prop
  | none => used done = done.length
  | some p => p.flat = used done ∧ used done < done.length

theorem EndsAt.snoc_empty {done : List (Slot V)} {eh : Option Pos} (h : EndsAt done eh) {e : Slot V}
    (he : e.tag = EMPTY) {p : Pos} (hp : p.flat = done.length) :
    EndsAt (done ++ [e]) (if eh = none then some p else eh) := by
  have hu : used (done ++ [e]) = used done := used_append_empty done (by simpa using he)
  cases eh with
  | none =>
    have hd : used done = done.length := h
    exact ⟨by rw [hu, hp, hd], by rw [hu, hd]; simp⟩
  | some q =>
    obtain ⟨h1, h2⟩ := h
    refine ⟨by rw [hu]; exact h1, ?_⟩
    rw [hu, List.length_append, List.length_singleton]
    omega

theorem scanSlots_ends (cmpKey : Key) (i : Nat) : ∀ (es : List (Slot V)) (j : Nat) (eh : Option Pos)
    (done : List (Slot V)) (eh' : Option Pos), done.length = rowSlots * i + j → EndsAt done eh →
      scanSlots cmpKey i es j eh = .fell eh' → EndsAt (done ++ es) eh'
  | [], j, eh, done, eh', _, h, hs => by
    cases hs
    simpa using h
  | e :: es, j, eh, done, eh', hd, h, hs => by
    have hlen : (done ++ [e]).length = rowSlots * i + (j + 1) := by simp [hd]; omega
    rw [show done ++ e :: es = done ++ [e] ++ es by simp]
    unfold scanSlots at hs
    split at hs
    · cases hs
    · split at hs
      · rename_i he
        exact scanSlots_ends cmpKey i es (j + 1) _ _ eh' hlen (h.snoc_empty he (p := ⟨i, j⟩) hd.symm) hs
      · rename_i he
        refine scanSlots_ends cmpKey i es (j + 1) none _ eh' hlen ?_ hs
        show used (done ++ [e]) = (done ++ [e]).length
        rw [used_append_live done he (by simp), List.length_append, List.length_singleton]

theorem scanRows_ends (cmpKey : Key) : ∀ (rows : List (Row V)) (i : Nat) (eh : Option Pos)
    (done : List (Slot V)) (eh' : Option Pos), done.length = rowSlots * i → EndsAt done eh →
      scanRows cmpKey rows i eh = .fell eh' → EndsAt (done ++ slotsOf rows) eh'
  | [], i, eh, done, eh', _, h, hs => by
    cases hs
    simpa [slotsOf] using h
  | r :: rs, i, eh, done, eh', hd, h, hs => by
    unfold scanRows at hs
    rcases hr : scanSlots cmpKey i r.toList 0 eh with p | eh₁
    · rw [hr] at hs
      cases hs
    · rw [hr] at hs
      have h1 := scanSlots_ends cmpKey i r.toList 0 eh done eh₁ hd h hr
      have h2 := scanRows_ends cmpKey rs (i + 1) eh₁ (done ++ r.toList) eh'
        (by rw [List.length_append, hd, Vector.length_toList]; ring) h1 hs
      rw [slotsOf, List.flatMap_cons, ← slotsOf, ← List.append_assoc]
      exact h2

/-! ## One call -/

section

variable (zero : V) (c : Chain V) (key : Key) (value : V) (type : InsertType)

theorem slots_length (c : Chain V) : c.slots.length = rowSlots * c.rows.length := slotsOf_length c.rows

/-- A call frees the first slot with the tag it looks for, or it writes its entry behind the used part, where it links a
row if there is none. -/
theorem insertChain_used :
    (∃ l e r, c.slots = l ++ e :: r ∧ (∀ x ∈ l, x.tag ≠ cmpKeyOf key type) ∧ e.tag = cmpKeyOf key type ∧
      (insertChain zero c key value type).1 = 0 ∧
      (insertChain zero c key value type).2.2.slots = l ++ { e with tag := EMPTY } :: r) ∨
    ((∀ x ∈ c.slots, x.tag ≠ cmpKeyOf key type) ∧ (insertChain zero c key value type).1 = 1 ∧
      ∃ l r₀ r, c.slots = l ++ r₀ ∧ l.length = used c.slots ∧ (∀ x ∈ r₀, x.tag = EMPTY) ∧ (∀ x ∈ r, x.tag = EMPTY) ∧
        (insertChain zero c key value type).2.2.slots = l ++ ⟨tagOf key type, value⟩ :: r ∧
        ((insertChain zero c key value type).2.2.rows.length = c.rows.length ∨
          used c.slots = rowSlots * c.rows.length ∧
            (insertChain zero c key value type).2.2.rows.length = c.rows.length + 1)) := by
  have hends := scanRows_ends (cmpKeyOf key type) c.rows 0 none []
  rcases hs : scanRows (cmpKeyOf key type) c.rows 0 none with p | (_ | p)
  · obtain ⟨l, e, r, hsl, hl, he, h1, -, h3⟩ := insertChain_hit zero value hs
    exact .inl ⟨l, e, r, hsl, hl, he, h1, h3⟩
  · obtain ⟨hno, h1, -, h3⟩ := insertChain_link zero value hs
    have hend : used c.slots = c.slots.length := hends none rfl rfl hs
    refine .inr ⟨hno, h1, c.slots, [], List.replicate 2 ⟨EMPTY, zero⟩, by simp, hend.symm, by simp, ?_, h3, .inr ?_⟩
    · intro x hx
      rw [List.eq_of_mem_replicate hx]
    · have h4 := congrArg List.length h3
      rw [slots_length, List.length_append, slots_length] at h4
      refine ⟨by rw [hend, slots_length], ?_⟩
      simp only [rowSlots, List.length_cons, List.length_replicate] at h4
      omega
  · obtain ⟨hno, l, e, r, hsl, hp, hall, h1, -, h3⟩ := insertChain_room zero value hs
    have hend : p.flat = used c.slots ∧ used c.slots < c.slots.length := hends (some p) rfl rfl hs
    refine .inr ⟨hno, h1, l, e :: r, r, hsl, by rw [← hend.1, hp], hall, fun x hx => hall x (by simp [hx]), h3, .inl ?_⟩
    have h4 := congrArg List.length h3
    have h5 := congrArg List.length hsl
    rw [slots_length] at h4 h5
    simp only [rowSlots, List.length_append, List.length_cons] at h4 h5
    omega

/-- How far a call moves the end of the used part, and when it links a row. -/
theorem insertChain_grows :
    ((insertChain zero c key value type).1 = 0 ∧
      used (insertChain zero c key value type).2.2.slots ≤ used c.slots ∧
      (insertChain zero c key value type).2.2.rows.length = c.rows.length) ∨
    ((insertChain zero c key value type).1 = 1 ∧
      used c.slots ≤ used (insertChain zero c key value type).2.2.slots ∧
      used (insertChain zero c key value type).2.2.slots ≤ used c.slots + 1 ∧
      ((insertChain zero c key value type).2.2.rows.length = c.rows.length ∨
        used c.slots = rowSlots * c.rows.length ∧
          (insertChain zero c key value type).2.2.rows.length = c.rows.length + 1)) := by
  obtain ⟨l, e, r, hsl, -, -, h0, h1⟩ | ⟨-, h0, l, r₀, r, hsl, hl, hr₀, hr, h1, hrows⟩ :=
    insertChain_used zero c key value type
  · refine .inl ⟨h0, by rw [h1, hsl]; exact used_free l e r, ?_⟩
    have h4 := congrArg List.length h1
    have h5 := congrArg List.length hsl
    rw [slots_length] at h4 h5
    simp only [rowSlots, List.length_append, List.length_cons] at h4 h5
    omega
  · refine .inr ⟨h0, ?_, ?_, hrows⟩
    all_goals
      rw [h1]
      by_cases ht : tagOf key type = EMPTY
      · -- the tag of a free slot: nothing is used that was not
        have hu : used (l ++ ⟨tagOf key type, value⟩ :: r) = used c.slots := by
          rw [hsl, used_append_empty l hr₀]
          exact used_append_empty l (by simpa [ht] using hr)
        omega
      · rw [used_append_live l ht hr]
        omega

end

/-! ## Runs -/

/-- The entries of a bucket that no call has taken yet. -/
def outstanding (t : Table V) (b : Fin (2 ^ tblBitSize)) : Nat := (live (t b).slots).length

/-- The table that a call leaves. -/
def after (zero : V) (t : Table V) (c : Call V) : Table V := (lcHashInsert zero t c.key c.val c.side).table

/-- At no time of a run are more than `n` entries of the bucket outstanding. -/
def AtMost (zero : V) (n : Nat) (b : Fin (2 ^ tblBitSize)) : Table V → List (Call V) → Prop
  | t, [] => outstanding t b ≤ n
  | t, c :: cs => outstanding t b ≤ n ∧ AtMost zero n b (after zero t c) cs

/-- The entries stored in a bucket since it was empty, after a call that found `s` of them. -/
def stretch (zero : V) (b : Fin (2 ^ tblBitSize)) (s : Nat) (t : Table V) (c : Call V) : Nat :=
  if outstanding (after zero t c) b = 0 then 0
  else if bucket c.key = b then s + (lcHashInsert zero t c.key c.val c.side).ret
  else s

/-- Between two moments at which the bucket is empty, at most `m` entries are stored in it; `s` of the present stretch
are there already. -/
def Stretches (zero : V) (m : Nat) (b : Fin (2 ^ tblBitSize)) : Nat → Table V → List (Call V) → Prop
  | s, _, [] => s ≤ m
  | s, t, c :: cs => s ≤ m ∧ Stretches zero m b (stretch zero b s t c) (after zero t c) cs

/-- The rows of a bucket after a run from the empty table. -/
def rowsAfter (zero : V) (cs : List (Call V)) (b : Fin (2 ^ tblBitSize)) : Nat :=
  ((runTable zero (lcHashCreate zero) cs).2 b).rows.length

theorem after_self (zero : V) (t : Table V) (c : Call V) :
    after zero t c (bucket c.key) = (insertChain zero (t (bucket c.key)) c.key c.val c.side).2.2 := by
  rw [after, lcHashInsert_table, Function.update_self]

theorem after_of_ne (zero : V) (t : Table V) {c : Call V} {b : Fin (2 ^ tblBitSize)} (h : bucket c.key ≠ b) :
    after zero t c b = t b := by
  rw [after, lcHashInsert_table, Function.update_of_ne (Ne.symm h)]

/-! ## The bound -/

/-- What a run keeps: as much of the chain is used as was stored since the bucket was empty, and the rows are those of
the longest stretch. -/
structure Grown (m s : Nat) (c : Chain V) : Prop where
  used_le : used c.slots ≤ s
  rows_le : c.rows.length ≤ max 1 ((m + 2) / 3)

theorem Grown.after {zero : V} {m s : Nat} {t : Table V} {b : Fin (2 ^ tblBitSize)} (h : Grown m s (t b)) (c : Call V)
    (hm : stretch zero b s t c ≤ m) : Grown m (stretch zero b s t c) (after zero t c b) := by
  obtain ⟨hu, hr⟩ := h
  by_cases hb : bucket c.key = b
  · subst hb
    have hgrow := insertChain_grows zero (t (bucket c.key)) c.key c.val c.side
    rw [← after_self zero] at hgrow
    have hpos := List.length_pos_iff.2 (t (bucket c.key)).rows_ne
    by_cases hz : outstanding (Hash.after zero t c) (bucket c.key) = 0
    · -- a bucket that has drained uses nothing, and a call that links a row does not drain it
      have hused := (used_eq_zero_iff _).2 (List.eq_nil_of_length_eq_zero hz)
      rw [stretch, if_pos hz]
      constructor <;> simp only [rowSlots] at hgrow <;> omega
    · rw [stretch, if_neg hz, if_pos rfl, lcHashInsert_ret] at hm ⊢
      constructor <;> simp only [rowSlots] at hgrow <;> omega
  · rw [stretch, if_neg hb]
    rw [after_of_ne zero t hb]
    refine ⟨?_, hr⟩
    split
    · rename_i hz
      rw [outstanding, after_of_ne zero t hb] at hz
      exact ((used_eq_zero_iff _).2 (List.eq_nil_of_length_eq_zero hz)).le
    · exact hu

theorem Stretches.le {zero : V} {m s : Nat} {b : Fin (2 ^ tblBitSize)} {t : Table V} :
    ∀ {cs : List (Call V)}, Stretches zero m b s t cs → s ≤ m
  | [], h => h
  | _ :: _, h => h.1

theorem Grown.run {zero : V} {m : Nat} {b : Fin (2 ^ tblBitSize)} (cs : List (Call V)) {s : Nat} {t : Table V}
    (h : Grown m s (t b)) (hs : Stretches zero m b s t cs) :
    ((runTable zero t cs).2 b).rows.length ≤ max 1 ((m + 2) / 3) := by
  induction cs generalizing s t with
  | nil => exact h.rows_le
  | cons c cs ih => exact ih (h.after c hs.2.le) hs.2

theorem create_slots (zero : V) (b : Fin (2 ^ tblBitSize)) : used (lcHashCreate zero b).slots = 0 := by
  rw [used_eq_zero_iff]
  exact (represents_create zero).live_eq b

/-- The rows of a bucket are those of its longest stretch. -/
theorem rows_le_stretches (zero : V) {m : Nat} {b : Fin (2 ^ tblBitSize)} {cs : List (Call V)}
    (h : Stretches zero m b 0 (lcHashCreate zero) cs) : rowsAfter zero cs b ≤ max 1 ((m + 2) / 3) :=
  Grown.run cs ⟨(create_slots zero b).le, le_max_left _ _⟩ h

/-! ## One outstanding entry -/

/-- A chain of one row with nothing live behind its first slot. -/
structure OneRow (c : Chain V) : Prop where
  used_le : used c.slots ≤ 1
  rows_eq : c.rows.length = 1

theorem OneRow.after {zero : V} {t : Table V} {b : Fin (2 ^ tblBitSize)} (h : OneRow (t b)) (c : Call V)
    (h1 : outstanding (after zero t c) b ≤ 1) : OneRow (after zero t c b) := by
  obtain ⟨hu, hr⟩ := h
  by_cases hb : bucket c.key = b
  · subst hb
    rw [outstanding, after_self] at h1
    rw [after_self]
    obtain ⟨-, hle, hrows⟩ | ⟨-, -, -, hrows⟩ := insertChain_grows zero (t (bucket c.key)) c.key c.val c.side
    · exact ⟨by omega, by omega⟩
    · refine ⟨?_, by simp only [rowSlots] at hrows; omega⟩
      obtain ⟨l, e, r, hsl, -, -, -, h2⟩ | ⟨-, -, l, r₀, r, hsl, hl, hr₀, hr', h2, -⟩ :=
        insertChain_used zero (t (bucket c.key)) c.key c.val c.side
      · rw [h2]
        exact le_trans (used_free l e r) (hsl ▸ hu)
      · rw [h2] at h1 ⊢
        by_cases ht : tagOf c.key c.side = EMPTY
        · rw [used_append_empty l (by simpa [ht] using hr'), ← used_append_empty l hr₀, ← hsl]
          exact hu
        · -- a live slot before the new one would make two
          rw [used_append_live l ht hr']
          rw [live_append, live_cons_of_ne ht, List.length_append, List.length_cons] at h1
          have hnil : live l = [] := List.eq_nil_of_length_eq_zero (by omega)
          have h0 := (used_eq_zero_iff l).2 hnil
          rw [← used_append_empty l hr₀, ← hsl] at h0
          omega
  · rw [after_of_ne zero t hb]
    exact ⟨hu, hr⟩

theorem AtMost.le {zero : V} {n : Nat} {b : Fin (2 ^ tblBitSize)} {t : Table V} :
    ∀ {cs : List (Call V)}, AtMost zero n b t cs → outstanding t b ≤ n
  | [], h => h
  | _ :: _, h => h.1

theorem OneRow.run {zero : V} {n : Nat} (hn : n ≤ 1) {b : Fin (2 ^ tblBitSize)} (cs : List (Call V)) {t : Table V}
    (h : OneRow (t b)) (hs : AtMost zero n b t cs) : ((runTable zero t cs).2 b).rows.length ≤ 1 := by
  induction cs generalizing t with
  | nil => exact h.rows_eq.le
  | cons c cs ih => exact ih (h.after c (hs.2.le.trans hn)) hs.2

/-! ## Two outstanding entries -/

/-- Messages and receives of one key in turn. -/
def slide (key : Key) (v : V) : Nat → List (Call V)
  | 0 => []
  | j + 1 => ⟨key, .server, v⟩ :: ⟨key, .client, v⟩ :: slide key v j

/-- `n` receives of a key are outstanding in a bucket that uses `u` slots. -/
structure Window (n u : Nat) (key : Key) (c : Chain V) : Prop where
  live_length : (live c.slots).length = n
  tags : ∀ x ∈ live c.slots, x.tag = tagOf key .client
  used_eq : used c.slots = u

section

variable {key : Key} (hk : ValidKey key) {c : Chain V} (zero : V) (v : V)

include hk

/-- A message takes the first of the receives; with a second one behind it nothing comes free. -/
theorem Window.message {n u : Nat} (h : Window (n + 2) u key c) :
    Window (n + 1) u key (insertChain zero c key v .server).2.2 := by
  obtain ⟨hlen, htags, hused⟩ := h
  have hcmp : cmpKeyOf key .server = tagOf key .client := cmpKeyOf_eq key .server
  obtain ⟨l, e, r, hsl, hno, he, -, h1⟩ | ⟨hno, -, -⟩ := insertChain_used zero c key v .server
  · rw [hcmp] at hno he
    rw [hsl, live_append] at hlen htags
    have hl : live l = [] := List.eq_nil_iff_forall_not_mem.2 fun x hx =>
      hno x (List.mem_of_mem_filter hx) (htags x (List.mem_append_left _ hx))
    rw [hl, List.nil_append, live_cons_of_ne (he ▸ tagOf_ne_empty hk _), List.length_cons] at hlen
    have hr : live r ≠ [] := by
      intro h0
      rw [h0] at hlen
      simp at hlen
    constructor
    · rw [h1, live_append, live_cons_of_eq rfl, hl, List.nil_append]
      omega
    · intro x hx
      rw [h1, live_append, live_cons_of_eq rfl, hl, List.nil_append] at hx
      exact htags x (List.mem_append_right _ (List.mem_filter.2 ⟨by simp [List.mem_of_mem_filter hx],
        (List.mem_filter.1 hx).2⟩))
    · rw [h1, used_free_of_live l e hr, ← hsl, hused]
  · -- the receives are there to be found
    rw [hcmp] at hno
    obtain ⟨x, hx⟩ := List.exists_mem_of_ne_nil (live c.slots) (fun h0 => by simp [h0] at hlen)
    exact absurd (htags x hx) (hno x (List.mem_of_mem_filter hx))

/-- A receive goes behind the used part. -/
theorem Window.receive {n u : Nat} (h : Window n u key c) :
    Window (n + 1) (u + 1) key (insertChain zero c key v .client).2.2 := by
  obtain ⟨hlen, htags, hused⟩ := h
  have hcmp : cmpKeyOf key .client = tagOf key .server := cmpKeyOf_eq key .client
  obtain ⟨l, e, r, hsl, -, he, -, -⟩ | ⟨-, -, l, r₀, r, hsl, hl, hr₀, hr, h1, -⟩ :=
    insertChain_used zero c key v .client
  · -- no message is waiting
    rw [hcmp] at he
    have hmem : e ∈ live c.slots := List.mem_filter.2 ⟨by rw [hsl]; simp, by
      simpa [he] using tagOf_ne_empty hk .server⟩
    exact absurd (tagOf_inj hk hk (he.symm.trans (htags e hmem))).2 (by decide)
  · have ht := tagOf_ne_empty hk .client
    have hlive : live (insertChain zero c key v .client).2.2.slots = live c.slots ++ [⟨tagOf key .client, v⟩] := by
      rw [h1, hsl, live_append, live_append, live_cons_of_ne ht, live_empty hr, live_empty hr₀, List.append_nil]
    constructor
    · rw [hlive, List.length_append, hlen, List.length_singleton]
    · intro x hx
      rw [hlive] at hx
      rcases List.mem_append.1 hx with hx | hx
      · exact htags x hx
      · rw [List.mem_singleton.1 hx]
    · rw [h1, used_append_live l ht hr, hl, hused]

/-- Two receives that overlap move one slot on with every message. -/
theorem Window.run {n : Nat} (hn : 2 ≤ n) (j : Nat) {u : Nat} {t : Table V} (h : Window 2 u key (t (bucket key))) :
    AtMost zero n (bucket key) t (slide key v j) ∧
      Window 2 (u + j) key ((runTable zero t (slide key v j)).2 (bucket key)) := by
  induction j generalizing u t with
  | zero => exact ⟨h.live_length.trans_le hn, h⟩
  | succ j ih =>
    have h1 : Window 1 u key (after zero t ⟨key, .server, v⟩ (bucket key)) := by
      rw [after_self zero t ⟨key, .server, v⟩]
      exact h.message hk zero v
    have h2 : Window 2 (u + 1) key
        (after zero (after zero t ⟨key, .server, v⟩) ⟨key, .client, v⟩ (bucket key)) := by
      rw [after_self zero _ ⟨key, .client, v⟩]
      exact h1.receive hk zero v
    obtain ⟨h3, h4⟩ := ih h2
    rw [show u + (j + 1) = u + 1 + j by omega]
    exact ⟨⟨h.live_length.trans_le hn, h1.live_length.trans_le (by omega), h3⟩, h4⟩

/-- A run that keeps at most two entries outstanding and uses any number of slots. -/
theorem slide_rows {n : Nat} (hn : 2 ≤ n) (j : Nat) :
    AtMost zero n (bucket key) (lcHashCreate zero) (⟨key, .client, v⟩ :: ⟨key, .client, v⟩ :: slide key v j) ∧
      j + 2 ≤ rowSlots * rowsAfter zero (⟨key, .client, v⟩ :: ⟨key, .client, v⟩ :: slide key v j) (bucket key) := by
  have hlive : live (lcHashCreate zero (bucket key)).slots = [] := (represents_create zero).live_eq (bucket key)
  have h0 : Window 0 0 key (lcHashCreate zero (bucket key)) :=
    ⟨by rw [hlive]; rfl, by rw [hlive]; simp, create_slots zero _⟩
  have h1 : Window 1 1 key (after zero (lcHashCreate zero) ⟨key, .client, v⟩ (bucket key)) := by
    rw [after_self zero _ ⟨key, .client, v⟩]
    exact h0.receive hk zero v
  have h2 : Window 2 2 key
      (after zero (after zero (lcHashCreate zero) ⟨key, .client, v⟩) ⟨key, .client, v⟩ (bucket key)) := by
    rw [after_self zero _ ⟨key, .client, v⟩]
    exact h1.receive hk zero v
  obtain ⟨h3, h4⟩ := Window.run hk zero v hn j h2
  refine ⟨⟨h0.live_length.trans_le (by omega), h1.live_length.trans_le (by omega), h3⟩, ?_⟩
  have hle := h4.used_eq.symm.le.trans (used_le _)
  rw [slots_length] at hle
  rw [Nat.add_comm]
  exact hle

end

/-- The rows of a bucket never exceed a bound that depends only on the number of outstanding entries exactly when that
is at most one, and then there is one row; in every run they are at most those of the entries stored between two moments
at which the bucket is empty. -/
theorem rows_bounded (zero : V) :
    (∀ n, (∃ bound, ∀ (cs : List (Call V)) (b : Fin (2 ^ tblBitSize)), AtMost zero n b (lcHashCreate zero) cs →
      rowsAfter zero cs b ≤ bound) ↔ n ≤ 1) ∧
    (∀ n ≤ 1, ∀ (cs : List (Call V)) (b : Fin (2 ^ tblBitSize)), AtMost zero n b (lcHashCreate zero) cs →
      rowsAfter zero cs b ≤ 1) ∧
    ∀ (m : Nat) (cs : List (Call V)) (b : Fin (2 ^ tblBitSize)), Stretches zero m b 0 (lcHashCreate zero) cs →
      rowsAfter zero cs b ≤ max 1 ((m + 2) / 3) := by
  have hone : ∀ n ≤ 1, ∀ (cs : List (Call V)) (b : Fin (2 ^ tblBitSize)), AtMost zero n b (lcHashCreate zero) cs →
      rowsAfter zero cs b ≤ 1 := fun n hn cs b h =>
    OneRow.run hn cs ⟨(create_slots zero b).le.trans (by decide), rfl⟩ h
  refine ⟨fun n => ⟨?_, fun hn => ⟨1, hone n hn⟩⟩, hone, fun m cs b h => rows_le_stretches zero h⟩
  · rintro ⟨bound, h⟩
    by_contra hn
    have hk : ValidKey 0 := by decide
    obtain ⟨h1, h2⟩ := slide_rows hk zero zero (n := n) (by omega) (3 * bound)
    have h3 := h _ _ h1
    simp only [rowSlots] at h2
    omega

/-- With two entries outstanding at most, no number of rows is enough. -/
theorem rows_unbounded : ¬ ∃ bound, ∀ (cs : List (Call Nat)) (b : Fin (2 ^ tblBitSize)),
    AtMost 0 2 b (lcHashCreate 0) cs → rowsAfter 0 cs b ≤ bound := by
  rintro ⟨bound, h⟩
  have hk : ValidKey 0 := by decide
  obtain ⟨h1, h2⟩ := slide_rows hk 0 7 le_rfl (3 * bound)
  have h3 := h _ _ h1
  simp only [rowSlots] at h2
  omega

end

end Lci.Hash
