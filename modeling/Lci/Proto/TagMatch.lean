/-
End-to-end tag matching on an explicit endpoint. A message reaches the table under the key that
`lci_serve_recv_expl` builds from the sender's rank and the 16 bits of meta on the wire; a receive
under the key that `lc_recv`, `lc_recvm` and `lc_recvl` build from the caller's rank and `int` tag.
The two agree on a tag exactly when it fits the 16 bits, and a receive with tag -1 looks for the
mark of a free slot.
-/
import Lci.Hash.Refine
import Lci.Proto.Word

namespace Lci.Proto

open Lci.Hash Matcher

/-- The key of an arriving message: `lc_make_key(p->context.req->rank, PROTO_GET_META(proto))`. -/
def arrivalKey (gid : CInt) (proto : LcProto) (rank tag : CInt) : Key :=
  lcMakeKey rank (protoGetMeta (makeProto gid proto tag))

/-- The key of a posted receive: `lc_make_key(rank, tag)`. -/
def recvKey (rank tag : CInt) : Key := lcMakeKey rank tag

section

variable {V : Type}

/-! ## Two calls on a new table -/

theorem live_create (zero : V) (b : Fin (2 ^ tblBitSize)) : live (lcHashCreate zero b).slots = [] := by
  rw [(represents_create zero).live_eq]; rfl

/-- The live slots of a table after its first call. -/
theorem live_first (zero : V) {k : Key} {s : InsertType} (v : V) (hcmp : cmpKeyOf k s ≠ EMPTY)
    (htag : tagOf k s ≠ EMPTY) (b : Fin (2 ^ tblBitSize)) :
    live ((lcHashInsert zero (lcHashCreate zero) k v s).table b).slots =
      if b = bucket k then [⟨tagOf k s, v⟩] else [] := by
  by_cases hb : b = bucket k
  · subst hb
    simp only [lcHashInsert, Function.update_self, if_true]
    rcases insertChain_cases zero (lcHashCreate zero (bucket k)) k v s hcmp htag with
      ⟨l, e, r, hl, -⟩ | ⟨-, -, -, h⟩
    · rw [live_create] at hl; simp at hl
    · rw [h, live_create]; rfl
  · simp only [lcHashInsert, Function.update_of_ne hb, if_neg hb, live_create]

/-- The second call on a table is matched with the first one exactly when they use one bucket and
the second looks for the tag of the first. -/
theorem second_call (zero : V) {k k' : Key} {s s' : InsertType} (v v' : V) (hcmp : cmpKeyOf k s ≠ EMPTY)
    (htag : tagOf k s ≠ EMPTY) (hcmp' : cmpKeyOf k' s' ≠ EMPTY) (htag' : tagOf k' s' ≠ EMPTY) :
    let r := lcHashInsert zero (lcHashInsert zero (lcHashCreate zero) k v s).table k' v' s'
    (r.ret = 0 ↔ bucket k = bucket k' ∧ tagOf k s = cmpKeyOf k' s') ∧ (r.ret = 0 → r.value = v) := by
  intro r
  have hl := live_first zero v hcmp htag (bucket k')
  have hr1 : r.ret = _ := lcHashInsert_ret zero _ k' v' s'
  have hr2 : r.value = _ := lcHashInsert_value zero _ k' v' s'
  generalize (lcHashInsert zero (lcHashCreate zero) k v s).table (bucket k') = ch at hl hr1 hr2
  rcases insertChain_cases zero ch k' v' s' hcmp' htag' with ⟨l, e, rest, he, -, ht, h1, h2, -⟩ | ⟨hno, h1, -, -⟩
  · rw [hl] at he
    split at he
    · rename_i hb
      have hle : e = ⟨tagOf k s, v⟩ := by
        rcases List.append_eq_singleton_iff.1 he.symm with ⟨-, h⟩ | ⟨-, h⟩
        · exact (List.cons.inj h).1
        · cases h
      subst hle
      refine ⟨⟨fun _ => ⟨hb.symm, ht⟩, fun _ => hr1.trans h1⟩, fun _ => hr2.trans h2⟩
    · simp at he
  · have hne : r.ret ≠ 0 := by rw [hr1, h1]; decide
    refine ⟨⟨fun h => absurd h hne, fun ⟨hb, ht⟩ => ?_⟩, fun h => absurd h hne⟩
    rw [hl, if_pos hb.symm] at hno
    exact absurd ht (hno ⟨tagOf k s, v⟩ (by simp))

/-- A receive with tag -1 is matched with a free slot: it returns what `create_table` wrote there. -/
theorem recv_neg_one (zero : V) (rank : CInt) (v : V) :
    (lcHashInsert zero (lcHashCreate zero) (recvKey rank (-1)) v .client).ret = 0 ∧
      (lcHashInsert zero (lcHashCreate zero) (recvKey rank (-1)) v .client).value = zero := by
  have hk : recvKey rank (-1) = -1 := lcMakeKey_neg_one rank
  rw [hk]
  exact ⟨rfl, rfl⟩

/-! ## Exactness for one message and one receive -/

/-- Matching is exact for a message of `(rank, tag)` and a receive for `(rank', tag')`: in either
order the second finds the first exactly when ranks and tags are equal, and gets its value; and no
tag stored or looked for is the mark of a free slot. -/
structure TagExact (zero : V) (gid : CInt) (proto : LcProto) (rank tag rank' tag' : CInt) : Prop where
  arrivalFirst : ∀ p q : V,
    let h := (lcHashInsert zero (lcHashCreate zero) (arrivalKey gid proto rank tag) p .server).table
    let r := lcHashInsert zero h (recvKey rank' tag') q .client
    (r.ret = 0 ↔ rank = rank' ∧ tag = tag') ∧ (rank = rank' ∧ tag = tag' → r.value = p)
  recvFirst : ∀ p q : V,
    let h := (lcHashInsert zero (lcHashCreate zero) (recvKey rank' tag') q .client).table
    let r := lcHashInsert zero h (arrivalKey gid proto rank tag) p .server
    (r.ret = 0 ↔ rank = rank' ∧ tag = tag') ∧ (rank = rank' ∧ tag = tag' → r.value = q)
  arrivalTags : tagOf (arrivalKey gid proto rank tag) .server ≠ EMPTY ∧
    cmpKeyOf (arrivalKey gid proto rank tag) .server ≠ EMPTY
  recvTags : tagOf (recvKey rank' tag') .client ≠ EMPTY ∧ cmpKeyOf (recvKey rank' tag') .client ≠ EMPTY

end

theorem arrivalKey_eq {gid : CInt} (hg : gid.toNat < 2 ^ 14) (proto : LcProto) (rank tag : CInt) :
    arrivalKey gid proto rank tag = lcMakeKey rank (tag &&& 0xffff) := by
  rw [arrivalKey, protoGetMeta_makeProto hg]

theorem low_half_toNat (tag : CInt) : (tag &&& 0xffff).toNat = tag.toNat % 2 ^ 16 := and_low tag 16 (by decide)

theorem validKey_of_tag {rank tag : CInt} (hr : rank.toNat < 2 ^ 31) (ht : tag.toNat < 2 ^ 31) :
    ValidKey (lcMakeKey rank tag) := by
  unfold ValidKey
  rw [lcMakeKey_toNat hr ht]; omega

theorem tag_bit (k : Key) (s : InsertType) (i : Nat) (hi : i + 1 < 64) :
    (tagOf k s).getLsbD (i + 1) = k.getLsbD i := by
  have h0 : s.toKey.getLsbD (i + 1) = false := by
    cases s with
    | client => exact BitVec.getLsbD_zero
    | server => simp [InsertType.toKey, BitVec.getLsbD_one]
  rw [tagOf, BitVec.getLsbD_or, h0, Bool.or_false, BitVec.getLsbD_shiftLeft]
  simp [hi]

/-- A receive with a negative tag other than -1 still looks for a proper tag. -/
theorem cmpKeyOf_recv_ne {rank tag : CInt} (ht : tag ≠ -1) : cmpKeyOf (recvKey rank tag) .client ≠ EMPTY := by
  intro h
  apply ht
  apply BitVec.eq_of_getLsbD_eq
  intro i hi
  have hb : (tagOf (recvKey rank tag) .server).getLsbD (i + 1) = true := by
    rw [cmpKeyOf_eq] at h
    show (tagOf (recvKey rank tag) InsertType.client.other).getLsbD (i + 1) = true
    rw [h]
    have : EMPTY = BitVec.allOnes 64 := by decide
    rw [this, BitVec.getLsbD_allOnes]; simp; omega
  rw [tag_bit _ _ _ (by omega), recvKey, lcMakeKey, BitVec.getLsbD_or, BitVec.getLsbD_shiftLeft] at hb
  have hs : (tag.signExtend 64).getLsbD i = tag.getLsbD i := by
    rw [BitVec.getLsbD_signExtend]; simp [hi]; omega
  rw [hs] at hb
  have : (-1 : CInt) = BitVec.allOnes 32 := by decide
  rw [this, BitVec.getLsbD_allOnes]
  simpa [hi] using hb

theorem tagOf_client_ne (k : Key) : tagOf k .client ≠ EMPTY := by
  intro h
  have h0 : (tagOf k .client).getLsbD 0 = false := by
    simp [tagOf, InsertType.toKey]
  rw [h] at h0
  exact absurd h0 (by decide)

/-- The bucket and the tags of a message and a receive agree exactly when the ranks are equal and
the receive's tag is the low half of the message's. -/
theorem keys_meet_iff {gid : CInt} (hg : gid.toNat < 2 ^ 14) (proto : LcProto) {rank rank' : CInt}
    (hr : rank.toNat < 2 ^ 31) (hr' : rank'.toNat < 2 ^ 31) (tag tag' : CInt) (s : InsertType) :
    (bucket (arrivalKey gid proto rank tag) = bucket (recvKey rank' tag') ∧
      tagOf (arrivalKey gid proto rank tag) s = tagOf (recvKey rank' tag') s) ↔
      rank = rank' ∧ tag &&& 0xffff = tag' := by
  rw [arrivalKey_eq hg, recvKey]
  have hlow : (tag &&& 0xffff).toNat < 2 ^ 16 := by rw [low_half_toNat]; omega
  constructor
  · rintro ⟨-, h⟩
    by_cases ht' : tag'.toNat < 2 ^ 31
    · exact lcMakeKey_inj hr (by omega) hr' ht' (tagOf_inj (validKey_of_tag hr (by omega))
        (validKey_of_tag hr' ht') h).1
    · -- bit 31 of the key is the sign of the tag, and the wire carries no sign
      have h1 := tag_bit (lcMakeKey rank (tag &&& 0xffff)) s 31 (by decide)
      have h2 := tag_bit (lcMakeKey rank' tag') s 31 (by decide)
      rw [h, h2, lcMakeKey_bit31, lcMakeKey_bit31] at h1
      have m1 : tag'.msb = true := BitVec.msb_eq_true_iff_two_mul_ge.2 (by omega)
      have m2 : (tag &&& 0xffff).msb = false := BitVec.msb_eq_false_iff_two_mul_lt.2 (by omega)
      rw [m1, m2] at h1
      cases h1
  · rintro ⟨rfl, rfl⟩
    exact ⟨rfl, rfl⟩

/-- Matching of one message and one receive is exact if and only if the receive's tag is not -1 and,
for equal ranks, the message's tag fits 16 bits or the receive's tag is neither that tag nor its low
half. -/
theorem tagExact_pair {V : Type} (zero : V) {gid : CInt} (hg : gid.toNat < 2 ^ 14) (proto : LcProto)
    {rank rank' : CInt} (hr : rank.toNat < 2 ^ 31) (hr' : rank'.toNat < 2 ^ 31) (tag tag' : CInt) :
    TagExact zero gid proto rank tag rank' tag' ↔
      tag' ≠ -1 ∧ (rank ≠ rank' ∨ tag.toNat < 2 ^ 16 ∨ (tag' ≠ tag ∧ tag' ≠ tag &&& 0xffff)) := by
  have hvalid : ValidKey (arrivalKey gid proto rank tag) := by
    rw [arrivalKey_eq hg]; exact validKey_of_tag hr (by rw [low_half_toNat]; omega)
  have ha1 : tagOf (arrivalKey gid proto rank tag) .server ≠ EMPTY := tagOf_ne_empty hvalid _
  have ha2 : cmpKeyOf (arrivalKey gid proto rank tag) .server ≠ EMPTY := by
    rw [cmpKeyOf_eq]; exact tagOf_ne_empty hvalid _
  have hmeet := keys_meet_iff hg proto hr hr' tag tag'
  by_cases hneg : tag' = -1
  · constructor
    · intro h
      exact absurd (by rw [hneg, recvKey, lcMakeKey_neg_one]; decide) h.recvTags.2
    · rintro ⟨h, -⟩
      exact absurd hneg h
  have hb1 : tagOf (recvKey rank' tag') .client ≠ EMPTY := tagOf_client_ne _
  have hb2 : cmpKeyOf (recvKey rank' tag') .client ≠ EMPTY := cmpKeyOf_recv_ne hneg
  -- the two orders meet on the same condition
  have hfirst : ∀ p q : V,
      let h := (lcHashInsert zero (lcHashCreate zero) (arrivalKey gid proto rank tag) p .server).table
      let r := lcHashInsert zero h (recvKey rank' tag') q .client
      (r.ret = 0 ↔ rank = rank' ∧ tag &&& 0xffff = tag') ∧ (r.ret = 0 → r.value = p) := by
    intro p q h r
    obtain ⟨h1, h2⟩ := second_call zero p q ha2 ha1 hb2 hb1
    refine ⟨h1.trans ?_, h2⟩
    rw [cmpKeyOf_eq]
    exact hmeet .server
  have hsecond : ∀ p q : V,
      let h := (lcHashInsert zero (lcHashCreate zero) (recvKey rank' tag') q .client).table
      let r := lcHashInsert zero h (arrivalKey gid proto rank tag) p .server
      (r.ret = 0 ↔ rank = rank' ∧ tag &&& 0xffff = tag') ∧ (r.ret = 0 → r.value = q) := by
    intro p q h r
    obtain ⟨h1, h2⟩ := second_call zero q p hb2 hb1 ha2 ha1
    refine ⟨h1.trans ?_, h2⟩
    rw [cmpKeyOf_eq, eq_comm, eq_comm (a := tagOf _ _)]
    exact hmeet .client
  have hcond : (tag' ≠ -1 ∧ (rank ≠ rank' ∨ tag.toNat < 2 ^ 16 ∨ (tag' ≠ tag ∧ tag' ≠ tag &&& 0xffff))) ↔
      ((rank = rank' ∧ tag &&& 0xffff = tag') ↔ (rank = rank' ∧ tag = tag')) := by
    have hlow : tag.toNat < 2 ^ 16 ↔ tag &&& 0xffff = tag := by
      rw [← BitVec.toNat_inj, low_half_toNat]; omega
    rw [hlow]
    by_cases hrr : rank = rank'
    · simp only [hrr, ne_eq, not_true_eq_false, true_and, false_or]
      constructor
      · rintro ⟨-, h | ⟨h, h'⟩⟩
        · rw [h]
        · exact ⟨fun e => absurd e.symm h', fun e => absurd e.symm h⟩
      · intro h
        refine ⟨hneg, ?_⟩
        by_cases ht : tag = tag'
        · exact .inl ((h.2 ht).trans ht.symm)
        · exact .inr ⟨fun e => ht e.symm, fun e => ht (h.1 e.symm)⟩
    · exact ⟨fun _ => ⟨fun h => absurd h.1 hrr, fun h => absurd h.1 hrr⟩, fun _ => ⟨hneg, .inl hrr⟩⟩
  rw [hcond]
  constructor
  · intro h
    exact (hfirst zero zero).1.symm.trans (h.arrivalFirst zero zero).1
  · intro h
    exact ⟨fun p q => ⟨(hfirst p q).1.trans h, fun e => (hfirst p q).2 ((hfirst p q).1.2 (h.2 e))⟩,
      fun p q => ⟨(hsecond p q).1.trans h, fun e => (hsecond p q).2 ((hsecond p q).1.2 (h.2 e))⟩,
      ⟨ha1, ha2⟩, ⟨hb1, hb2⟩⟩

/-! ## Exactness over whole runs -/

section Run

variable {V : Type}

/-- The table call of a message (`server`) or a receive (`client`) named by its rank and tag. -/
def keyedCall (gid : CInt) (proto : V → LcProto) (c : Entry (CInt × CInt) InsertType V) : Call V :=
  match c.side with
  | .server => ⟨arrivalKey gid (proto c.val) c.key.1 c.key.2, .server, c.val⟩
  | .client => ⟨recvKey c.key.1 c.key.2, .client, c.val⟩

/-- The ranks and tags for which both sides build the same key. -/
def InRange (c : Entry (CInt × CInt) InsertType V) : Prop :=
  c.key.1.toNat < 2 ^ 31 ∧ c.key.2.toNat < 2 ^ 31 ∧ (c.side = .server → c.key.2.toNat < 2 ^ 16)

theorem keyedCall_eq {gid : CInt} (hg : gid.toNat < 2 ^ 14) (proto : V → LcProto)
    {c : Entry (CInt × CInt) InsertType V} (hc : InRange c) :
    keyedCall gid proto c = c.rekey fun k => lcMakeKey k.1 k.2 := by
  obtain ⟨⟨r, t⟩, s, v⟩ := c
  obtain ⟨-, -, h⟩ := hc
  cases s with
  | client => rfl
  | server =>
    have ht : t &&& 0xffff = t := by
      apply BitVec.eq_of_toNat_eq
      rw [low_half_toNat, Nat.mod_eq_of_lt (h rfl)]
    simp only [keyedCall, Entry.rekey, arrivalKey_eq hg, ht]

/-- With tags in range, a table serves any run of messages and receives as the store keyed by rank
and tag does. -/
theorem runTable_by_tag (zero : V) {gid : CInt} (hg : gid.toNat < 2 ^ 14) (proto : V → LcProto)
    (calls : List (Entry (CInt × CInt) InsertType V)) (hc : ∀ c ∈ calls, InRange c) :
    (runTable zero (lcHashCreate zero) (calls.map (keyedCall gid proto))).1.map outcomeOf =
      (run InsertType.other [] calls).1 := by
  have hmap : calls.map (keyedCall gid proto) = calls.map (Entry.rekey fun k => lcMakeKey k.1 k.2) :=
    List.map_congr_left fun c h => keyedCall_eq hg proto (hc c h)
  rw [hmap, runTable_outcomes zero _ (by
    intro x hx
    obtain ⟨c, h, rfl⟩ := List.mem_map.1 hx
    exact validKey_of_tag (hc c h).1 (hc c h).2.1)]
  have := run_rekey InsertType.other (fun k : CInt × CInt => lcMakeKey k.1 k.2)
    (D := fun k => k.1.toNat < 2 ^ 31 ∧ k.2.toNat < 2 ^ 31)
    (fun k k' h h' e => Prod.ext_iff.2 (lcMakeKey_inj h.1 h.2 h'.1 h'.2 e)) calls [] (by simp)
    (fun c h => ⟨(hc c h).1, (hc c h).2.1⟩)
  exact congrArg Prod.fst this

end Run

/-- Tag matching end to end. For one message and one receive it is exact if and only if the
receive's tag is not -1 and, for equal ranks, the message's tag fits 16 bits or the receive's tag is
neither that tag nor its low half; and in every run of messages with tags of 16 bits and receives
with non-negative tags, each message and receive is matched by rank and tag alone. -/
theorem tag_matching_exact_iff {V : Type} (zero : V) {gid : CInt} (hg : gid.toNat < 2 ^ 14) :
    (∀ (proto : LcProto) (rank tag rank' tag' : CInt), rank.toNat < 2 ^ 31 → rank'.toNat < 2 ^ 31 →
      (TagExact zero gid proto rank tag rank' tag' ↔
        tag' ≠ -1 ∧ (rank ≠ rank' ∨ tag.toNat < 2 ^ 16 ∨ (tag' ≠ tag ∧ tag' ≠ tag &&& 0xffff)))) ∧
    ∀ (proto : V → LcProto) (calls : List (Entry (CInt × CInt) InsertType V)), (∀ c ∈ calls, InRange c) →
      (runTable zero (lcHashCreate zero) (calls.map (keyedCall gid proto))).1.map outcomeOf =
        (run InsertType.other [] calls).1 :=
  ⟨fun proto _ tag _ tag' hr hr' => tagExact_pair zero hg proto hr hr' tag tag',
    fun proto calls hc => runTable_by_tag zero hg proto calls hc⟩

/-- Tag 7 from rank 1 on endpoint 0, and a run of one message and its receive. -/
theorem tag_matching_exact_iff_tag_seven :
    (0 : CInt).toNat < 2 ^ 14 ∧ TagExact (0 : Nat) 0 .data 1 7 1 7 ∧
      (runTable 0 (lcHashCreate 0) ([⟨(1, 7), .server, 10⟩, ⟨(1, 7), .client, 20⟩].map
        (keyedCall 0 fun _ => .data))).1.map outcomeOf = [Outcome.stored, Outcome.matched 10] := by
  have hg : (0 : CInt).toNat < 2 ^ 14 := by decide
  obtain ⟨h1, h2⟩ := tag_matching_exact_iff (0 : Nat) hg
  refine ⟨hg, (h1 .data 1 7 1 7 (by decide) (by decide)).2 (by decide), (h2 _ _ ?_).trans (by decide)⟩
  intro c hc
  simp only [List.mem_cons, List.not_mem_nil, or_false] at hc
  rcases hc with rfl | rfl
  · exact ⟨by decide, by decide, by decide⟩
  · exact ⟨by decide, by decide, by decide⟩

/-- A message and a receive that both name tag 65536 of rank 0 are not matched, and a receive with
tag -1 looks for the mark of a free slot. -/
theorem tag_matching_not_exact :
    ¬ TagExact (0 : Nat) 0 .data 0 65536 0 65536 ∧
      cmpKeyOf (recvKey 0 (-1)) .client = EMPTY ∧ ¬ TagExact (0 : Nat) 0 .data 0 5 0 (-1) := by
  refine ⟨fun h => ?_, by decide, fun h => h.recvTags.2 (by decide)⟩
  have := ((h.arrivalFirst 1 2).1).2 ⟨rfl, rfl⟩
  exact absurd this (by decide)

end Lci.Proto
