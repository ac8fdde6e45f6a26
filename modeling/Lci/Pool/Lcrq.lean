/-
The queue of `lcrq.c`, one call at a time: a chain of rings, each an array of cells with two counters. A cell carries
the index that it was last used at, the top bit of which marks it unsafe; the top bit of a ring's tail closes the ring,
and what comes after goes to a new one. `lcrq_enqueue` looks for the last ring from the first that was ever allocated,
`lcrq_dequeue` leaves drained rings behind. The calls are those of a queue (`Holds`), up to the state in which the
counter of a ring that was never full has come to the top bit: until the next value comes, the ring looks closed and
empty.
-/
import Mathlib.Logic.Function.Basic
import Mathlib.Tactic

namespace Lci.Lcrq

/-! ## Words -/

/-- `uint64_t`, and pointers. -/
abbrev Word := BitVec 64

def RING_POW : Nat := 17

def RING_SIZE : Word := 1#64 <<< RING_POW

/-- `1ull << 63`. -/
def topBit : Word := 1#64 <<< 63

/-- `is_empty`. -/
def isEmpty (v : Word) : Bool := v == -1

/-- `node_index`. -/
def nodeIndex (i : Word) : Word := i &&& ~~~topBit

/-- `set_unsafe`. -/
def setUnsafe (i : Word) : Word := i ||| topBit

/-- `node_unsafe`. -/
def nodeUnsafe (i : Word) : Word := i &&& topBit

/-- `tail_index`. -/
def tailIndex (t : Word) : Word := t &&& ~~~topBit

/-- `crq_is_closed`. -/
def crqIsClosed (t : Word) : Bool := t &&& topBit != 0

/-- The index `i & (RING_SIZE - 1)` of a cell. -/
def slot (i : Word) : Nat := (i &&& (RING_SIZE - 1)).toNat

/-! ## Rings -/

structure RingNode where
  val : Word
  idx : Word
deriving DecidableEq, Repr

/-- A ring; `next` is the number of a ring of the queue. -/
structure RingQueue where
  head : Word
  tail : Word
  next : Option Nat
  array : Nat → RingNode

/-- `init_ring`. -/
def initRing : RingQueue where
  head := 0
  tail := 0
  next := none
  array i := ⟨-1, BitVec.ofNat 64 i⟩

def RingQueue.setCell (rq : RingQueue) (i : Nat) (c : RingNode) : RingQueue :=
  { rq with array := Function.update rq.array i c }

/-- `BIT_TEST_AND_SET(&rq->tail, 63)`: whether the bit was clear. -/
def RingQueue.close (rq : RingQueue) : Bool × RingQueue :=
  (!crqIsClosed rq.tail, { rq with tail := rq.tail ||| topBit })

/-- `fixState`; nothing changes `tail` between its reads. -/
def fixState (rq : RingQueue) : RingQueue := if rq.tail < rq.head then { rq with tail := rq.head } else rq

/-- `close_crq`. -/
def closeCrq (rq : RingQueue) (t : Word) (tries : Nat) : Bool × RingQueue :=
  if tries < 10 then
    if rq.tail = t + 1 then (true, { rq with tail := t + 1 ||| topBit }) else (false, rq)
  else rq.close

/-- `lcrq_t`, with the rings that were allocated, by number. -/
structure Queue where
  rings : Nat → RingQueue
  count : Nat
  head : Nat
  tail : Nat

def Queue.setRing (q : Queue) (i : Nat) (rq : RingQueue) : Queue := { q with rings := Function.update q.rings i rq }

/-- `lcrq_init`. -/
def lcrqInit : Queue where
  rings _ := initRing
  count := 1
  head := 0
  tail := 0

/-! ## Enqueue -/

/-- The ring in which `arg` is alone. -/
def solo (arg : Word) : RingQueue := { initRing with tail := 1 }.setCell 0 ⟨arg, 0⟩

/-- From the label `alloc` on. `nrq` is `NULL` between calls, and `rq` is the last ring, so that its `next` is set. -/
def Queue.alloc (q : Queue) (rq : Nat) (arg : Word) : Queue :=
  { (q.setRing rq { q.rings rq with next := some q.count }).setRing q.count (solo arg) with count := q.count + 1 }

/-- What a turn of the loop of `lcrq_enqueue` does with the last ring. -/
inductive Turn
  | done (rq : RingQueue)
  | alloc (rq : RingQueue)
  | again (rq : RingQueue) (tryClose : Nat)

/-- A turn at the last ring; the compare-and-swap of the cell is against what was read of it. -/
def enqueueTurn (rq : RingQueue) (arg : Word) (tryClose : Nat) : Turn :=
  let t := rq.tail
  let rq := { rq with tail := t + 1 }
  if crqIsClosed t then .alloc rq
  else
    let cell := rq.array (slot t)
    if isEmpty cell.val ∧ nodeIndex cell.idx ≤ t ∧ (nodeUnsafe cell.idx = 0 ∨ rq.head < t) then
      .done (rq.setCell (slot t) ⟨arg, t⟩)
    else if RING_SIZE.toInt ≤ (t - rq.head).toInt then
      match closeCrq rq t (tryClose + 1) with
      | (true, rq) => .alloc rq
      | (false, rq) => .again rq (tryClose + 1)
    else .again rq tryClose

/-- The loop of `lcrq_enqueue`, for at most `fuel` turns; `tail` is its local variable. -/
def enqueueLoop (arg : Word) : Nat → Nat → Nat → Queue → Option Queue
  | 0, _, _, _ => none
  | fuel + 1, tail, tryClose, q => match (q.rings tail).next with
    | some next => enqueueLoop arg fuel next tryClose q
    | none => match enqueueTurn (q.rings tail) arg tryClose with
      | .done rq => some (q.setRing tail rq)
      | .alloc rq => some ((q.setRing tail rq).alloc tail arg)
      | .again rq tryClose => enqueueLoop arg fuel tail tryClose (q.setRing tail rq)

/-- `lcrq_enqueue`, with a turn for each ring. -/
def lcrqEnqueue (q : Queue) (arg : Word) : Option Queue := enqueueLoop arg q.count q.tail 0 q

/-! ## Dequeue -/

/-- The inner loop of `lcrq_dequeue` at index `h`: the value that it returns, or `none` where it breaks. -/
def takeLoop (h : Word) : Nat → Nat → Word → RingQueue → Option (Option Word × RingQueue)
  | 0, _, _, _ => none
  | fuel + 1, r, tt, rq =>
    let cell := rq.array (slot h)
    let mark := nodeUnsafe cell.idx
    let idx := nodeIndex cell.idx
    if h < idx then some (none, rq)
    else if isEmpty cell.val = false then
      if idx = h then some (some cell.val, rq.setCell (slot h) ⟨-1, mark ||| (h + RING_SIZE)⟩)
      else some (none, rq.setCell (slot h) ⟨cell.val, setUnsafe idx⟩)
    else
      let tt := if r % 1024 = 0 then rq.tail else tt
      if mark ≠ 0 then some (none, rq.setCell (slot h) ⟨cell.val, mark ||| (h + RING_SIZE)⟩)
      else if tailIndex tt < h + 1 ∨ 200000 < r ∨ crqIsClosed tt then
        let rq := rq.setCell (slot h) ⟨cell.val, h + RING_SIZE⟩
        some (none, if 200000 < r ∧ RING_SIZE < tt then rq.close.2 else rq)
      else takeLoop h fuel (r + 1) tt rq

/-- The turns of the inner loop, after which it gives up. -/
def spins : Nat := 200001

/-- The outer loop, for at most `fuel` turns. -/
def dequeueLoop : Nat → Queue → Option (Word × Queue)
  | 0, _ => none
  | fuel + 1, q =>
    let h := (q.rings q.head).head
    match takeLoop h (spins + 1) 0 0 { q.rings q.head with head := h + 1 } with
    | none => none
    | some (some v, rq) => some (v, q.setRing q.head rq)
    | some (none, rq) =>
      if tailIndex rq.tail ≤ h + 1 then
        let rq := fixState rq
        let q := q.setRing q.head rq
        match rq.next with
        | none => some (0, q)
        | some next =>
          if tailIndex rq.tail ≤ h + 1 then dequeueLoop fuel { q with head := next } else dequeueLoop fuel q
      else dequeueLoop fuel (q.setRing q.head rq)

/-- `lcrq_dequeue`; zero is `NULL`. -/
def lcrqDequeue (q : Queue) : Option (Word × Queue) :=
  if tailIndex (q.rings q.head).tail < (q.rings q.head).head + 1 ∧ (q.rings q.head).next = none then some (0, q)
  else dequeueLoop q.count q

theorem Queue.setRing_self (q : Queue) (i : Nat) (rq : RingQueue) : (q.setRing i rq).rings i = rq :=
  Function.update_self ..

theorem Queue.setRing_of_ne (q : Queue) {i j : Nat} (rq : RingQueue) (h : j ≠ i) :
    (q.setRing i rq).rings j = q.rings j :=
  Function.update_of_ne h ..

theorem Queue.alloc_count (q : Queue) (rq : Nat) (arg : Word) : (q.alloc rq arg).rings q.count = solo arg :=
  Function.update_self ..

theorem Queue.alloc_self (q : Queue) {rq : Nat} (arg : Word) (h : rq ≠ q.count) :
    (q.alloc rq arg).rings rq = { q.rings rq with next := some q.count } :=
  (Function.update_of_ne h ..).trans (Function.update_self ..)

theorem Queue.alloc_of_ne (q : Queue) {rq j : Nat} (arg : Word) (h : j ≠ q.count) (hj : j ≠ rq) :
    (q.alloc rq arg).rings j = q.rings j :=
  (Function.update_of_ne h ..).trans (Function.update_of_ne hj ..)

/-! ## Arithmetic of the counters -/

theorem slot_ofNat (i : Nat) : slot (BitVec.ofNat 64 i) = i % 2 ^ RING_POW := by
  have h : RING_SIZE - 1 = BitVec.ofNat 64 (2 ^ 17 - 1) := by decide
  rw [slot, h, BitVec.toNat_and, BitVec.toNat_ofNat, BitVec.toNat_ofNat,
    Nat.mod_eq_of_lt (by norm_num : 2 ^ 17 - 1 < 2 ^ 64),
    Nat.and_two_pow_sub_one_eq_mod, Nat.mod_mod_of_dvd _ (by norm_num)]
  rfl

theorem tailIndex_toNat (t : Word) : (tailIndex t).toNat = t.toNat % 2 ^ 63 := by
  have h : ~~~topBit = BitVec.ofNat 64 (2 ^ 63 - 1) := by decide
  rw [tailIndex, h, BitVec.toNat_and, BitVec.toNat_ofNat, Nat.mod_eq_of_lt (by norm_num : 2 ^ 63 - 1 < 2 ^ 64),
    Nat.and_two_pow_sub_one_eq_mod]

theorem nodeIndex_ofNat {i : Nat} (h : i < 2 ^ 63) : nodeIndex (BitVec.ofNat 64 i) = BitVec.ofNat 64 i := by
  apply BitVec.eq_of_toNat_eq
  have : (nodeIndex (BitVec.ofNat 64 i)).toNat = (BitVec.ofNat 64 i).toNat % 2 ^ 63 := tailIndex_toNat _
  rw [this, BitVec.toNat_ofNat]
  omega

theorem topBit_and (t : Word) : t &&& topBit = if 2 ^ 63 ≤ t.toNat then topBit else 0 := by
  have h : topBit = BitVec.twoPow 64 63 := by decide
  have hm : t.getLsbD 63 = decide (2 ^ 63 ≤ t.toNat) := BitVec.msb_eq_decide t
  rw [h, BitVec.and_twoPow, hm]
  simp only [decide_eq_true_eq]
  rfl

theorem crqIsClosed_iff (t : Word) : crqIsClosed t = true ↔ 2 ^ 63 ≤ t.toNat := by
  rw [crqIsClosed, topBit_and]
  split <;> rename_i h
  · exact iff_of_true (by decide) h
  · exact iff_of_false (by decide) h

theorem nodeUnsafe_ofNat {i : Nat} (h : i < 2 ^ 63) : nodeUnsafe (BitVec.ofNat 64 i) = 0#64 := by
  rw [nodeUnsafe, topBit_and, BitVec.toNat_ofNat, if_neg (by omega)]
  rfl

theorem toNat_succ {i : Nat} (h : i ≤ 2 ^ 63) : (BitVec.ofNat 64 i + 1).toNat = i + 1 := by
  rw [BitVec.toNat_add, BitVec.toNat_ofNat]
  change (i % 2 ^ 64 + 1) % 2 ^ 64 = i + 1
  omega

theorem le_toNat_or (t : Word) : 2 ^ 63 ≤ (t ||| topBit).toNat := by
  rw [BitVec.toNat_or]
  exact Nat.right_le_or

theorem toNat_or_le (t : Word) : (t ||| topBit).toNat ≤ 2 ^ 63 + t.toNat := by
  by_cases h : t.toNat < 2 ^ 63
  · rw [BitVec.toNat_or, Nat.or_comm]
    exact (Nat.two_pow_add_eq_or_of_lt h 1).ge
  · have := (t ||| topBit).isLt
    omega

theorem ofNat_add_ring (i : Nat) : BitVec.ofNat 64 i + RING_SIZE = BitVec.ofNat 64 (i + 2 ^ RING_POW) := by
  rw [BitVec.ofNat_add]
  rfl

/-! ## What a ring holds -/

/-- The values `l` are at the indices from `h` on; the other cells wait for the indices after these. -/
structure RingQueue.Holds (rq : RingQueue) (h : Nat) (l : List Word) : Prop where
  head : rq.head = BitVec.ofNat 64 h
  room : l.length ≤ 2 ^ RING_POW
  bound : h + l.length ≤ 2 ^ 63
  used : ∀ i v, l[i]? = some v → rq.array ((h + i) % 2 ^ RING_POW) = ⟨v, BitVec.ofNat 64 (h + i)⟩
  free : ∀ i, h + l.length ≤ i → i < h + 2 ^ RING_POW → rq.array (i % 2 ^ RING_POW) = ⟨-1, BitVec.ofNat 64 i⟩
  vals : ∀ v ∈ l, v ≠ -1

/-- A last ring. Its counter may have come to the top bit. -/
structure RingQueue.Open (rq : RingQueue) (h : Nat) (l : List Word) : Prop extends rq.Holds h l where
  tail : rq.tail = BitVec.ofNat 64 (h + l.length)
  next : rq.next = none

/-- A ring that is closed before the values are all taken. -/
structure RingQueue.Closed (rq : RingQueue) (h : Nat) (l : List Word) : Prop extends rq.Holds h l where
  closed : 2 ^ 63 ≤ rq.tail.toNat
  tail_le : rq.tail.toNat ≤ 2 ^ 63 + (h + l.length + 1)

/-- Two indices of one turn have different cells. -/
theorem slot_inj {i j h : Nat} (hi : h ≤ i ∧ i < h + 2 ^ RING_POW) (hj : h ≤ j ∧ j < h + 2 ^ RING_POW)
    (he : i % 2 ^ RING_POW = j % 2 ^ RING_POW) : i = j := by
  simp only [RING_POW] at *
  omega

namespace RingQueue.Holds

variable {rq rq' : RingQueue} {h : Nat} {l : List Word} {v : Word}

/-- Only the counter of the tail and the successor are different. -/
theorem of_eq (hh : rq.Holds h l) (hd : rq'.head = rq.head) (ha : rq'.array = rq.array) : rq'.Holds h l where
  head := hd.trans hh.head
  room := hh.room
  bound := hh.bound
  used := by
    rw [ha]
    exact hh.used
  free := by
    rw [ha]
    exact hh.free
  vals := hh.vals

/-- A value behind the others. -/
theorem push (hh : rq.Holds h l) (hroom : l.length < 2 ^ RING_POW) (hb : h + l.length < 2 ^ 63) (hv : v ≠ -1)
    (hd : rq'.head = rq.head)
    (ha : rq'.array = Function.update rq.array ((h + l.length) % 2 ^ RING_POW) ⟨v, BitVec.ofNat 64 (h + l.length)⟩) :
    rq'.Holds h (l ++ [v]) where
  head := hd.trans hh.head
  room := by
    rw [List.length_append, List.length_singleton]
    exact hroom
  bound := by
    rw [List.length_append, List.length_singleton]
    exact hb
  used := by
    intro i w hw
    have hi : i ≤ l.length := by
      have := (List.getElem?_eq_some_iff.1 hw).1
      rw [List.length_append, List.length_singleton] at this
      omega
    rw [ha]
    obtain hi | rfl := Nat.lt_or_eq_of_le hi
    · rw [List.getElem?_append_left hi] at hw
      rw [Function.update_of_ne, hh.used i w hw]
      intro he
      have := slot_inj (h := h) (by omega) (by omega) he
      omega
    · rw [List.getElem?_concat_length] at hw
      cases hw
      rw [Function.update_self]
  free := by
    intro i h1 h2
    rw [List.length_append, List.length_singleton] at h1
    rw [ha, Function.update_of_ne, hh.free i (by omega) h2]
    intro he
    have := slot_inj (h := h) (by omega) (by omega) he
    omega
  vals := by
    intro w hw
    obtain hw | hw := List.mem_append.1 hw
    · exact hh.vals w hw
    · rwa [List.mem_singleton.1 hw]

/-- The first value is taken. -/
theorem pop (hh : rq.Holds h (v :: l)) (hd : rq'.head = BitVec.ofNat 64 (h + 1))
    (ha : rq'.array = Function.update rq.array (h % 2 ^ RING_POW) ⟨-1, BitVec.ofNat 64 (h + 2 ^ RING_POW)⟩) :
    rq'.Holds (h + 1) l := by
  have hlen := hh.room
  rw [List.length_cons] at hlen
  have hb := hh.bound
  rw [List.length_cons] at hb
  constructor
  · exact hd
  · omega
  · omega
  · intro i w hw
    have hi := (List.getElem?_eq_some_iff.1 hw).1
    have := hh.used (i + 1) w hw
    rw [ha, Function.update_of_ne, Nat.add_assoc, Nat.add_comm 1 i, this]
    intro he
    have := slot_inj (h := h) (by omega) (by omega) he
    omega
  · intro i h1 h2
    rw [ha]
    by_cases hi : i = h + 2 ^ RING_POW
    · -- The cell that was emptied waits for the next turn.
      subst hi
      rw [Nat.add_mod_right, Function.update_self]
    · rw [Function.update_of_ne, hh.free i (by rw [List.length_cons]; omega) (by omega)]
      intro he
      have := slot_inj (h := h) (i := i) (j := h) (by omega) (by omega) he
      omega
  · exact fun w hw => hh.vals w (List.mem_cons_of_mem _ hw)

/-- The inner loop finds the first value. -/
theorem take (hh : rq.Holds h (v :: l)) (fuel r : Nat) (tt : Word) :
    ∃ rq', takeLoop (BitVec.ofNat 64 h) (fuel + 1) r tt { rq with head := BitVec.ofNat 64 h + 1 } = some (some v, rq') ∧
      rq'.Holds (h + 1) l ∧ rq'.tail = rq.tail ∧ rq'.next = rq.next := by
  have hb := hh.bound
  rw [List.length_cons] at hb
  have hcell : rq.array (slot (BitVec.ofNat 64 h)) = ⟨v, BitVec.ofNat 64 h⟩ := by
    rw [slot_ofNat]
    exact hh.used 0 v rfl
  have hv : isEmpty v = false := by
    have := hh.vals v List.mem_cons_self
    simpa [isEmpty] using this
  refine ⟨{ rq with head := BitVec.ofNat 64 h + 1 }.setCell (slot (BitVec.ofNat 64 h))
    ⟨-1, BitVec.ofNat 64 (h + 2 ^ RING_POW)⟩, ?_, hh.pop ?_ ?_, rfl, rfl⟩
  · rw [takeLoop]
    simp only [hcell, nodeIndex_ofNat (show h < 2 ^ 63 by omega), nodeUnsafe_ofNat (show h < 2 ^ 63 by omega), hv,
      BitVec.lt_irrefl, if_true, if_false, BitVec.zero_or, ofNat_add_ring]
  · exact (BitVec.ofNat_add h 1).symm
  · rw [← slot_ofNat]
    rfl

/-- In a closed ring that is drained it breaks at once. -/
theorem take_nil (hh : rq.Holds h []) (hc : 2 ^ 63 ≤ rq.tail.toNat) (fuel : Nat) :
    ∃ rq', takeLoop (BitVec.ofNat 64 h) (fuel + 1) 0 0 { rq with head := BitVec.ofNat 64 h + 1 } = some (none, rq') ∧
      rq'.head = BitVec.ofNat 64 h + 1 ∧ rq'.tail = rq.tail ∧ rq'.next = rq.next := by
  have hb : h ≤ 2 ^ 63 := hh.bound
  have hcell : rq.array (slot (BitVec.ofNat 64 h)) = ⟨-1, BitVec.ofNat 64 h⟩ := by
    rw [slot_ofNat]
    exact hh.free h le_rfl (Nat.lt_add_of_pos_right (Nat.two_pow_pos _))
  have hidx : ¬BitVec.ofNat 64 h < nodeIndex (BitVec.ofNat 64 h) := by
    rw [BitVec.lt_def, show (nodeIndex (BitVec.ofNat 64 h)).toNat = _ from tailIndex_toNat _]
    omega
  have hclosed : crqIsClosed rq.tail = true := (crqIsClosed_iff _).2 hc
  have hv : isEmpty (-1) = true := rfl
  rw [takeLoop]
  simp only [hcell, hidx, hv, if_false, Bool.true_eq_false, if_true, hclosed, or_true]
  -- An index that has come to the top bit marks its cell unsafe.
  by_cases hm : nodeUnsafe (BitVec.ofNat 64 h) ≠ 0
  · rw [if_pos hm]
    exact ⟨_, rfl, rfl, rfl, rfl⟩
  · rw [if_neg hm, if_neg (fun h => absurd h.1 (by decide))]
    exact ⟨_, rfl, rfl, rfl, rfl⟩

end RingQueue.Holds

namespace RingQueue.Open

variable {rq : RingQueue} {h : Nat} {l : List Word} {arg : Word}

/-- There is room for a value in a last ring. -/
theorem turn_done (ho : rq.Open h l) (hroom : l.length < 2 ^ RING_POW) (hb : h + l.length < 2 ^ 63) (ha : arg ≠ -1)
    (n : Nat) :
    ∃ rq', enqueueTurn rq arg n = .done rq' ∧ rq'.Open h (l ++ [arg]) := by
  have hcell : rq.array (slot rq.tail) = ⟨-1, BitVec.ofNat 64 (h + l.length)⟩ := by
    rw [ho.tail, slot_ofNat]
    exact ho.free _ le_rfl (by omega)
  have hopen : crqIsClosed rq.tail = false := by
    rw [Bool.eq_false_iff, Ne, crqIsClosed_iff, ho.tail, BitVec.toNat_ofNat]
    omega
  refine ⟨{ rq with tail := rq.tail + 1 }.setCell (slot rq.tail) ⟨arg, rq.tail⟩, ?_, ho.toHolds.push hroom hb ha rfl ?_,
    ?_, ho.next⟩
  · have hidx : nodeIndex (BitVec.ofNat 64 (h + l.length)) = rq.tail := by rw [ho.tail, nodeIndex_ofNat hb]
    have hv : isEmpty (-1) = true := rfl
    rw [enqueueTurn]
    simp only [hopen, hcell, hidx, nodeUnsafe_ofNat hb, hv, BitVec.le_refl, Bool.false_eq_true, if_false]
    exact if_pos ⟨trivial, trivial, Or.inl rfl⟩
  · rw [← slot_ofNat, ← ho.tail]
    rfl
  · show rq.tail + 1 = _
    rw [ho.tail, List.length_append, List.length_singleton, ← Nat.add_assoc]
    exact (BitVec.ofNat_add _ 1).symm

/-- There is none: the ring is full, or its counter has come to the top bit. It is closed. -/
theorem turn_alloc (ho : rq.Open h l) (arg : Word) (hfull : ¬(l.length < 2 ^ RING_POW ∧ h + l.length < 2 ^ 63)) :
    ∃ rq', enqueueTurn rq arg 0 = .alloc rq' ∧ rq'.Closed h l := by
  have hb := ho.bound
  have hroom := ho.room
  by_cases hc : h + l.length = 2 ^ 63
  · have hclosed : crqIsClosed rq.tail = true := by
      rw [crqIsClosed_iff, ho.tail, BitVec.toNat_ofNat]
      omega
    have htail : (rq.tail + 1).toNat = 2 ^ 63 + 1 := by rw [ho.tail, toNat_succ hb, hc]
    refine ⟨{ rq with tail := rq.tail + 1 }, ?_, ho.toHolds.of_eq rfl rfl, ?_, ?_⟩
    · rw [enqueueTurn]
      simp only [hclosed, if_true]
    · exact htail.symm ▸ by omega
    · exact htail.symm ▸ by omega
  · have hlen : l.length = 2 ^ RING_POW := by omega
    have hopen : crqIsClosed rq.tail = false := by
      rw [Bool.eq_false_iff, Ne, crqIsClosed_iff, ho.tail, BitVec.toNat_ofNat]
      omega
    -- The cell at the tail still holds the first value.
    obtain ⟨v, hv⟩ : ∃ v, l[0]? = some v := ⟨_, List.getElem?_eq_getElem (hlen ▸ Nat.two_pow_pos _)⟩
    have hcell : isEmpty (rq.array (slot rq.tail)).val = false := by
      rw [ho.tail, slot_ofNat, hlen, Nat.add_mod_right, show h = h + 0 from rfl, ho.used 0 v hv]
      simpa [isEmpty] using ho.vals v (List.mem_of_getElem? hv)
    have hsub : rq.tail - rq.head = RING_SIZE := by
      rw [ho.tail, ho.head, hlen, ← ofNat_add_ring, BitVec.add_comm, BitVec.add_sub_cancel]
    have htail : (rq.tail + 1).toNat = h + l.length + 1 := by rw [ho.tail, toNat_succ hb]
    refine ⟨{ rq with tail := rq.tail + 1 ||| topBit }, ?_, ho.toHolds.of_eq rfl rfl, ?_, ?_⟩
    · rw [enqueueTurn]
      have hclose : closeCrq { rq with tail := rq.tail + 1 } rq.tail (0 + 1) = (true,
        { rq with tail := rq.tail + 1 ||| topBit }) := by
        rw [closeCrq, if_pos (by decide), if_pos rfl]
      simp only [hopen, hcell, hsub, Bool.false_eq_true, false_and, if_false, le_refl, if_true, hclose]
    · exact le_toNat_or _
    · exact (toNat_or_le _).trans (by rw [htail])

end RingQueue.Open

/-! ## What the chain holds -/

/-- The values from ring `i` on: every ring before the last is closed, and behind it there are values. -/
inductive Chain (rings : Nat → RingQueue) (count : Nat) : Nat → List Word → Prop
  | last {i h : Nat} {l : List Word} (hr : (rings i).Open h l) (hc : i + 1 = count) : Chain rings count i l
  | cons {i h : Nat} {l l' : List Word} (hr : (rings i).Closed h l) (hn : (rings i).next = some (i + 1)) (hl : l' ≠ [])
    (hc : Chain rings count (i + 1) l') : Chain rings count i (l ++ l')

/-- The queue holds the values `l`, the oldest first. -/
structure Queue.Holds (q : Queue) (l : List Word) : Prop where
  tail : q.tail = 0
  prior : ∀ i < q.head, (q.rings i).next = some (i + 1)
  chain : Chain q.rings q.count q.head l

namespace Chain

variable {rings rings' : Nat → RingQueue} {count i : Nat} {l : List Word}

theorem congr (hc : Chain rings count i l) (he : ∀ j, i ≤ j → rings' j = rings j) : Chain rings' count i l := by
  induction hc with
  | last hr hc => exact .last (he _ le_rfl ▸ hr) hc
  | cons hr hn hl hc ih =>
    rw [← he _ le_rfl] at hr hn
    exact .cons hr hn hl (ih fun j hj => he j (by omega))

theorem count_gt (hc : Chain rings count i l) : i < count := by
  induction hc with
  | last _ hc => omega
  | cons _ _ _ _ ih => omega

/-- The last ring, the way to it, and that it can be replaced by a chain with other values. -/
theorem split (hc : Chain rings count i l) :
    ∃ n h l₁ l₂, count = n + 1 ∧ i ≤ n ∧ l = l₁ ++ l₂ ∧ (rings n).Open h l₂ ∧
      (∀ j, i ≤ j → j < n → (rings j).next = some (j + 1)) ∧
      ∀ rings' count' l', (∀ j, i ≤ j → j < n → rings' j = rings j) → l' ≠ [] → Chain rings' count' n l' →
        Chain rings' count' i (l₁ ++ l') := by
  induction hc with
  | @last i h l hr hc =>
    refine ⟨i, h, [], l, hc.symm, le_rfl, rfl, hr, fun j h1 h2 => absurd h2 (by omega), ?_⟩
    intro rings' count' l' _ _ h'
    exact h'
  | @cons i h l l' hr hn hl hc ih =>
    obtain ⟨n, h₂, l₁, l₂, hcount, hle, rfl, hopen, hnext, hrep⟩ := ih
    refine ⟨n, h₂, l ++ l₁, l₂, hcount, by omega, (List.append_assoc _ _ _).symm, hopen, ?_, ?_⟩
    · intro j h1 h2
      obtain rfl | h1 := Nat.eq_or_lt_of_le h1
      · exact hn
      · exact hnext j h1 h2
    · intro rings' count' l' he hl' h'
      have hi := he i le_rfl (by omega)
      rw [List.append_assoc]
      refine .cons (hi ▸ hr) (hi ▸ hn) ?_ (hrep rings' count' l' (fun j h1 h2 => he j (by omega) h2) hl' h')
      exact fun he => hl' (List.append_eq_nil_iff.1 he).2

end Chain

/-- The way of `lcrq_enqueue` to the last ring. -/
theorem enqueueLoop_walk {q : Queue} (arg : Word) (n fuel i : Nat)
    (hnext : ∀ j, i ≤ j → j < i + n → (q.rings j).next = some (j + 1)) :
    enqueueLoop arg (n + fuel) i 0 q = enqueueLoop arg fuel (i + n) 0 q := by
  induction n generalizing i with
  | zero => rw [Nat.zero_add, Nat.add_zero]
  | succ n ih =>
    rw [Nat.succ_add, enqueueLoop, hnext i le_rfl (by omega)]
    show enqueueLoop arg (n + fuel) (i + 1) 0 q = _
    rw [ih (i + 1) (fun j h1 h2 => hnext j (by omega) (by omega)), Nat.add_assoc, Nat.add_comm 1 n]

theorem initRing_open : initRing.Open 0 [] := by
  refine ⟨⟨rfl, Nat.zero_le _, Nat.zero_le _, nofun, fun i _ hi => ?_, nofun⟩, rfl, rfl⟩
  rw [Nat.mod_eq_of_lt (by omega)]
  rfl

theorem solo_open {arg : Word} (ha : arg ≠ -1) : (solo arg).Open 0 [arg] :=
  ⟨initRing_open.toHolds.push (Nat.two_pow_pos _) (Nat.two_pow_pos _) ha rfl rfl, rfl, rfl⟩

/-- The counter of the last ring. -/
def Queue.used (q : Queue) : Nat := (q.rings (q.count - 1)).tail.toNat

theorem Queue.setRing_used (q : Queue) {i : Nat} {rq : RingQueue} (h : rq.tail = (q.rings i).tail) :
    (q.setRing i rq).used = q.used := by
  by_cases hi : q.count - 1 = i
  · exact congrArg BitVec.toNat ((congrArg RingQueue.tail (hi ▸ q.setRing_self i rq)).trans (h.trans (hi ▸ rfl)))
  · exact congrArg (fun r => r.tail.toNat) (q.setRing_of_ne rq hi)

/-- `lcrq_enqueue` puts a value behind the others. -/
theorem Queue.Holds.enqueue {q : Queue} {l : List Word} (hq : q.Holds l) {arg : Word} (ha : arg ≠ -1) :
    ∃ q', lcrqEnqueue q arg = some q' ∧ q'.Holds (l ++ [arg]) ∧ q'.used ≤ q.used + 1 := by
  obtain ⟨n, h, l₁, l₂, hcount, hle, rfl, hopen, hnext, hrep⟩ := hq.chain.split
  -- The loop starts at the first ring and follows the links to the last one.
  have hwalk : ∀ j, 0 ≤ j → j < 0 + n → (q.rings j).next = some (j + 1) := by
    intro j _ hj
    by_cases hjh : j < q.head
    · exact hq.prior j hjh
    · exact hnext j (by omega) (by omega)
  have hloop : lcrqEnqueue q arg = enqueueLoop arg 1 n 0 q := by
    rw [lcrqEnqueue, hq.tail, hcount, enqueueLoop_walk arg n 1 0 hwalk, Nat.zero_add]
  rw [hloop, enqueueLoop, hopen.next]
  by_cases hroom : l₂.length < 2 ^ RING_POW ∧ h + l₂.length < 2 ^ 63
  · obtain ⟨rq, hturn, ho⟩ := hopen.turn_done hroom.1 hroom.2 ha 0
    refine ⟨q.setRing n rq, by simp only [hturn], ⟨hq.tail, ?_, ?_⟩, ?_⟩
    · intro j hj
      have hj : j < q.head := hj
      rw [q.setRing_of_ne rq (by omega)]
      exact hq.prior j hj
    · rw [List.append_assoc]
      have ho : ((q.setRing n rq).rings n).Open h (l₂ ++ [arg]) := by
        rw [q.setRing_self]
        exact ho
      exact hrep _ _ _ (fun j _ hj => q.setRing_of_ne rq (by omega)) (by simp) (.last ho hcount.symm)
    · have hlast : q.count - 1 = n := by omega
      show ((q.setRing n rq).rings (q.count - 1)).tail.toNat ≤ _
      rw [hlast, q.setRing_self, ho.tail, BitVec.toNat_ofNat, List.length_append, List.length_singleton, Queue.used,
        hlast, hopen.tail, BitVec.toNat_ofNat]
      omega
  · -- The value goes to a ring of its own.
    obtain ⟨rq, hturn, hclosed⟩ := hopen.turn_alloc arg hroom
    have hne : n ≠ (q.setRing n rq).count := by
      rw [show (q.setRing n rq).count = q.count from rfl, hcount]
      omega
    have hlast : ((q.setRing n rq).alloc n arg).rings n = { rq with next := some (n + 1) } := by
      rw [Queue.alloc_self _ arg hne, q.setRing_self, ← hcount]
      rfl
    have hold : ∀ j, j < n → ((q.setRing n rq).alloc n arg).rings j = q.rings j := by
      intro j hj
      have : j ≠ (q.setRing n rq).count := by
        rw [show (q.setRing n rq).count = q.count from rfl, hcount]
        omega
      rw [Queue.alloc_of_ne _ arg this (by omega), q.setRing_of_ne rq (by omega)]
    have hnew : (((q.setRing n rq).alloc n arg).rings (n + 1)).Open 0 [arg] := by
      rw [← hcount]
      exact (Queue.alloc_count (q.setRing n rq) n arg).symm ▸ solo_open ha
    refine ⟨(q.setRing n rq).alloc n arg, by simp only [hturn], ⟨hq.tail, ?_, ?_⟩, ?_⟩
    · intro j hj
      have hj : j < q.head := hj
      rw [hold j (by omega)]
      exact hq.prior j hj
    · have hcl : (((q.setRing n rq).alloc n arg).rings n).Closed h l₂ := by
        rw [hlast]
        exact ⟨hclosed.toHolds.of_eq rfl rfl, hclosed.closed, hclosed.tail_le⟩
      rw [List.append_assoc]
      refine hrep _ _ _ (fun j _ hj => hold j hj) (by simp) ?_
      exact .cons hcl (by rw [hlast]) (List.cons_ne_nil _ _) (.last hnew (congrArg (· + 1) hcount.symm))
    · show (((q.setRing n rq).alloc n arg).rings q.count).tail.toNat ≤ _
      rw [hcount, hnew.tail]
      exact Nat.le_add_left _ _

/-! ## Dequeue -/

/-- The ring that values are taken from is also the last, and its counter has come to the top bit. -/
def Queue.Spent (q : Queue) : Prop := (q.rings q.head).tail = topBit ∧ (q.rings q.head).next = none

/-- A value in the ring is taken. -/
theorem Queue.take_head {q : Queue} {h : Nat} {v : Word} {l : List Word} (hh : (q.rings q.head).Holds h (v :: l))
    (fuel : Nat) :
    ∃ rq, dequeueLoop (fuel + 1) q = some (v, q.setRing q.head rq) ∧ rq.Holds (h + 1) l ∧
      rq.tail = (q.rings q.head).tail ∧
      rq.next = (q.rings q.head).next := by
  obtain ⟨rq, htake, hpop, ht, hn⟩ := hh.take spins 0 0
  refine ⟨rq, ?_, hpop, ht, hn⟩
  rw [dequeueLoop]
  simp only [hh.head, htake]

/-- A ring that is closed and drained is left behind. -/
theorem Queue.pass_head {q : Queue} {h n : Nat} (hc : (q.rings q.head).Closed h [])
    (hn : (q.rings q.head).next = some n) (fuel : Nat) :
    ∃ rq, dequeueLoop (fuel + 1) q = dequeueLoop fuel { q.setRing q.head rq with head := n } ∧ rq.next = some n := by
  obtain ⟨rq, htake, hd, ht, hn'⟩ := hc.toHolds.take_nil hc.closed spins
  have hb : h ≤ 2 ^ 63 := hc.bound
  have hle : tailIndex rq.tail ≤ BitVec.ofNat 64 h + 1 := by
    have h1 := hc.closed
    have h2 : (q.rings q.head).tail.toNat ≤ 2 ^ 63 + (h + 0 + 1) := hc.tail_le
    rw [BitVec.le_def, tailIndex_toNat, toNat_succ hb, ht]
    omega
  have hfix : tailIndex (fixState rq).tail ≤ BitVec.ofNat 64 h + 1 := by
    unfold fixState
    split
    · show tailIndex rq.head ≤ _
      rw [BitVec.le_def, tailIndex_toNat, hd]
      exact Nat.mod_le _ _
    · exact hle
  have hnext : (fixState rq).next = some n := by
    have : (fixState rq).next = rq.next := by
      unfold fixState
      split <;> rfl
    rw [this, hn', hn]
  refine ⟨fixState rq, ?_, hnext⟩
  rw [dequeueLoop]
  simp only [hc.head, htake, hle, if_true, hnext, hfix]

/-- Drained rings are left behind until a value is found. -/
theorem Chain.dequeue {rings : Nat → RingQueue} {count i : Nat} {l : List Word} (hc : Chain rings count i l) {q : Queue}
    (he : ∀ j, i ≤ j → q.rings j = rings j) (hcount : q.count = count) (hhead : q.head = i) (htail : q.tail = 0)
    (hprior : ∀ j < i, (q.rings j).next = some (j + 1)) {v : Word} {l₀ : List Word} (hl : l = v :: l₀) {fuel : Nat}
    (hf : count ≤ i + fuel) :
    ∃ q', dequeueLoop fuel q = some (v, q') ∧ q'.Holds l₀ ∧ q'.used = q.used := by
  induction hc generalizing q fuel with
  | @last i h l hr hc =>
    subst hl hhead
    obtain ⟨fuel, rfl⟩ : ∃ n, fuel = n + 1 := ⟨fuel - 1, by omega⟩
    rw [← he _ le_rfl] at hr
    obtain ⟨rq, hloop, hh, ht, hn⟩ := Queue.take_head hr.toHolds fuel
    refine ⟨_, hloop, ⟨htail, fun j (hj : j < q.head) => ?_, ?_⟩, q.setRing_used ht⟩
    · rw [q.setRing_of_ne rq (Nat.ne_of_lt hj)]
      exact hprior j hj
    · have ho : ((q.setRing q.head rq).rings q.head).Open (h + 1) l₀ := by
        rw [q.setRing_self]
        refine ⟨hh, ?_, hn.trans hr.next⟩
        rw [ht, hr.tail, List.length_cons]
        exact congrArg _ (by omega)
      exact .last ho (hc.trans hcount.symm)
  | @cons i h l l' hr hn hl' hc ih =>
    subst hhead
    have hlt := hc.count_gt
    obtain ⟨fuel, rfl⟩ : ∃ n, fuel = n + 1 := ⟨fuel - 1, by omega⟩
    rw [← he _ le_rfl] at hr hn
    cases l with
    | cons v' l =>
      obtain ⟨rfl, rfl⟩ := List.cons.inj hl
      obtain ⟨rq, hloop, hh, ht, hn'⟩ := Queue.take_head hr.toHolds fuel
      refine ⟨_, hloop, ⟨htail, fun j (hj : j < q.head) => ?_, ?_⟩, q.setRing_used ht⟩
      · rw [q.setRing_of_ne rq (Nat.ne_of_lt hj)]
        exact hprior j hj
      · have hcl : ((q.setRing q.head rq).rings q.head).Closed (h + 1) l := by
          have htl := hr.tail_le
          rw [List.length_cons] at htl
          rw [q.setRing_self]
          refine ⟨hh, ht ▸ hr.closed, ?_⟩
          rw [ht]
          omega
        rw [← hcount] at hc
        refine .cons hcl ?_ hl' (hc.congr fun j hj => ?_)
        · exact (congrArg RingQueue.next (q.setRing_self _ rq)).trans (hn'.trans hn)
        · exact (q.setRing_of_ne rq (Nat.ne_of_gt hj)).trans (he j (Nat.le_of_lt hj))
    | nil =>
      -- An empty ring that has a next one is left behind.
      obtain ⟨rq, hloop, hn'⟩ := Queue.pass_head hr hn fuel
      have hused : ({ q.setRing q.head rq with head := q.head + 1 } : Queue).used = q.used :=
        congrArg (fun r => r.tail.toNat) (q.setRing_of_ne rq (by omega : q.count - 1 ≠ q.head))
      rw [hloop, ← hused]
      refine ih (q := { q.setRing q.head rq with head := q.head + 1 }) (fun j hj => ?_) hcount rfl htail
        (fun j hj => ?_) hl (by omega)
      · exact (q.setRing_of_ne rq (Nat.ne_of_gt hj)).trans (he j (Nat.le_of_lt hj))
      · obtain rfl | hj := Nat.lt_succ_iff_lt_or_eq.1 hj |>.symm
        · exact (congrArg RingQueue.next (q.setRing_self _ rq)).trans hn'
        · exact (congrArg RingQueue.next (q.setRing_of_ne rq (Nat.ne_of_lt hj))).trans (hprior j hj)

/-- `lcrq_dequeue` of an empty queue, or of one whose counter has come to the top bit. -/
theorem Queue.Holds.dequeue_null {q : Queue} {l : List Word} (hq : q.Holds l) (h : l = [] ∨ q.Spent) :
    lcrqDequeue q = some (0, q) := by
  have hquick : tailIndex (q.rings q.head).tail < (q.rings q.head).head + 1 ∧ (q.rings q.head).next = none := by
    cases hq.chain with
    | @last _ h₀ _ hr _ =>
      refine ⟨?_, hr.next⟩
      rw [BitVec.lt_def, tailIndex_toNat, hr.head, toNat_succ (le_trans (Nat.le_add_right _ _) hr.bound)]
      rcases h with rfl | hs
      · rw [hr.tail]
        exact Nat.lt_succ_of_le (le_trans (Nat.mod_le _ _) (Nat.mod_le _ _))
      · rw [hs.1, show topBit.toNat % 2 ^ 63 = 0 by decide]
        exact Nat.succ_pos _
    | cons hr hn hl _ =>
      -- There are values behind a ring that is not the last.
      rcases h with h | hs
      · exact absurd (List.append_eq_nil_iff.1 h).2 hl
      · cases hn.symm.trans hs.2
  rw [lcrqDequeue, if_pos hquick]

/-- Otherwise it returns the oldest value. -/
theorem Queue.Holds.dequeue_value {q : Queue} {v : Word} {l : List Word} (hq : q.Holds (v :: l)) (h : ¬q.Spent) :
    ∃ q', lcrqDequeue q = some (v, q') ∧ q'.Holds l ∧ q'.used = q.used := by
  have hquick : ¬(tailIndex (q.rings q.head).tail < (q.rings q.head).head + 1 ∧ (q.rings q.head).next = none) := by
    rintro ⟨hlt, hn⟩
    generalize hl : v :: l = l' at hq
    cases hq.chain with
    | @last _ h₀ _ hr _ =>
      subst hl
      have hb := hr.bound
      have hne : h₀ + (v :: l).length ≠ 2 ^ 63 := fun he => h ⟨by rw [hr.tail, he]; rfl, hn⟩
      rw [BitVec.lt_def, tailIndex_toNat, hr.head, toNat_succ (by omega), hr.tail, BitVec.toNat_ofNat] at hlt
      rw [List.length_cons] at *
      omega
    | cons hr hn' _ _ => cases hn'.symm.trans hn
  rw [lcrqDequeue, if_neg hquick]
  exact hq.chain.dequeue (fun _ _ => rfl) rfl rfl hq.tail hq.prior rfl (Nat.le_add_left _ _)

/-- The counter comes to the top bit with the value that is enqueued as the `2 ^ 63`th. -/
theorem Queue.Holds.used_of_spent {q : Queue} {l : List Word} (hq : q.Holds l) (h : q.Spent) : q.used = 2 ^ 63 := by
  cases hq.chain with
  | last hr hc =>
    rw [Queue.used, ← hc, Nat.add_sub_cancel, h.1]
    rfl
  | cons _ hn _ _ => cases hn.symm.trans h.2

/-- The value that is enqueued next opens a new ring, and the ring that values are taken from is no longer the last. -/
theorem Queue.Holds.enqueue_spent {q q' : Queue} {l : List Word} (hq : q.Holds l) (hs : q.Spent) {arg : Word}
    (he : lcrqEnqueue q arg = some q') : ¬q'.Spent ∧ q'.count = q.count + 1 := by
  cases hq.chain with
  | cons _ hn _ _ => cases hn.symm.trans hs.2
  | @last _ h _ hr hc =>
    have hfull : ¬(l.length < 2 ^ RING_POW ∧ h + l.length < 2 ^ 63) := by
      rintro ⟨-, hlt⟩
      have ht := congrArg BitVec.toNat (hr.tail.symm.trans hs.1)
      rw [BitVec.toNat_ofNat, show topBit.toNat = 2 ^ 63 from rfl] at ht
      omega
    obtain ⟨rq, hturn, -⟩ := hr.turn_alloc arg hfull
    have hloop : lcrqEnqueue q arg = enqueueLoop arg 1 q.head 0 q := by
      rw [lcrqEnqueue, hq.tail, ← hc, enqueueLoop_walk arg q.head 1 0 fun j _ hj => hq.prior j (by omega), Nat.zero_add]
    rw [hloop, enqueueLoop, hr.next] at he
    simp only [hturn] at he
    cases he
    have hne : q.head ≠ (q.setRing q.head rq).count := by
      rw [show (q.setRing q.head rq).count = q.count from rfl, ← hc]
      omega
    refine ⟨fun hs' => ?_, rfl⟩
    have hnext := hs'.2
    rw [show ((q.setRing q.head rq).alloc q.head arg).head = q.head from rfl, Queue.alloc_self _ arg hne] at hnext
    cases hnext

/-- More values than a ring has cells are in more than one ring. -/
theorem Queue.Holds.one_lt_count {q : Queue} {l : List Word} (hq : q.Holds l) (hl : 2 ^ RING_POW < l.length) :
    1 < q.count := by
  by_contra hc
  cases hq.chain with
  | last hr _ => exact absurd hr.room (not_le.2 hl)
  | cons _ _ _ hch =>
    have := hch.count_gt
    omega

/-- The queue of `lcrq_init` is empty. -/
theorem lcrqInit_holds : lcrqInit.Holds [] := ⟨rfl, nofun, .last initRing_open rfl⟩

/-! ## A queue of one ring -/

/-- No ring was closed yet. -/
structure Queue.Single (q : Queue) (h : Nat) (l : List Word) : Prop where
  ring : (q.rings 0).Open h l
  count : q.count = 1
  head : q.head = 0
  tail : q.tail = 0

namespace Queue.Single

variable {q q' : Queue} {h : Nat} {l : List Word} {v : Word}

theorem enqueue (hs : q.Single h l) (hroom : l.length < 2 ^ RING_POW) (hb : h + l.length < 2 ^ 63) (hv : v ≠ -1)
    (he : lcrqEnqueue q v = some q') : q'.Single h (l ++ [v]) := by
  obtain ⟨rq, hturn, ho⟩ := hs.ring.turn_done hroom hb hv 0
  rw [lcrqEnqueue, hs.count, hs.tail, enqueueLoop, hs.ring.next] at he
  simp only [hturn] at he
  cases he
  refine ⟨?_, hs.count, hs.head, hs.tail⟩
  rw [q.setRing_self]
  exact ho

theorem spent_iff (hs : q.Single h l) : q.Spent ↔ h + l.length = 2 ^ 63 := by
  have hb := hs.ring.bound
  have ht : (q.rings q.head).tail.toNat = h + l.length := by
    rw [hs.head, hs.ring.tail, BitVec.toNat_ofNat]
    omega
  constructor
  · rintro ⟨h1, -⟩
    rw [← ht, h1]
    rfl
  · intro he
    refine ⟨BitVec.eq_of_toNat_eq (ht.trans he), ?_⟩
    rw [hs.head]
    exact hs.ring.next

theorem dequeue (hs : q.Single h (v :: l)) (hb : h + (v :: l).length < 2 ^ 63) {x : Word}
    (he : lcrqDequeue q = some (x, q')) :
    q'.Single (h + 1) l := by
  have hring := hs.ring
  rw [← hs.head] at hring
  have hquick : ¬(tailIndex (q.rings q.head).tail < (q.rings q.head).head + 1 ∧ (q.rings q.head).next = none) := by
    rw [BitVec.lt_def, tailIndex_toNat, hring.head, toNat_succ (by omega), hring.tail, BitVec.toNat_ofNat,
      List.length_cons] at *
    omega
  obtain ⟨rq, hloop, hh, ht, hn⟩ := Queue.take_head hring.toHolds 0
  rw [lcrqDequeue, if_neg hquick, hs.count, hloop] at he
  cases he
  refine ⟨?_, hs.count, hs.head, hs.tail⟩
  rw [hs.head] at ht hn ⊢
  rw [q.setRing_self]
  refine ⟨hh, ?_, hn.trans hs.ring.next⟩
  rw [ht, hs.ring.tail, List.length_cons]
  exact congrArg _ (by omega)

end Queue.Single

theorem lcrqInit_single : lcrqInit.Single 0 [] := ⟨initRing_open, rfl, rfl, rfl⟩

/-! ## Sequences of calls -/

/-- A queue with the values that were given to it and those that it returned, in order. -/
structure Trace where
  q : Queue
  entered : List Word
  returned : List Word

def Trace.start : Trace := ⟨lcrqInit, [], []⟩

def Trace.enqueue (t : Trace) (arg : Word) : Option Trace :=
  (lcrqEnqueue t.q arg).map fun q => { t with q, entered := t.entered ++ [arg] }

def Trace.dequeue (t : Trace) : Option (Word × Trace) :=
  (lcrqDequeue t.q).map fun (v, q) => (v, { t with q, returned := if v = 0 then t.returned else t.returned ++ [v] })

/-- The values `l` wait in the queue. -/
structure Trace.Has (t : Trace) (l : List Word) : Prop where
  holds : t.q.Holds l
  entered : t.entered = t.returned ++ l
  ne_null : ∀ v ∈ l, v ≠ 0
  used : t.q.used ≤ t.entered.length

theorem Trace.start_has : Trace.start.Has [] := ⟨lcrqInit_holds, rfl, nofun, Nat.zero_le _⟩

namespace Trace.Has

variable {t : Trace} {l : List Word} {v : Word}

theorem enqueue (ht : t.Has l) (h0 : v ≠ 0) (h1 : v ≠ -1) : ∃ t', t.enqueue v = some t' ∧ t'.Has (l ++ [v]) := by
  obtain ⟨q, hq, hh, hu⟩ := ht.holds.enqueue h1
  refine ⟨⟨q, t.entered ++ [v], t.returned⟩, by rw [Trace.enqueue, hq]; rfl, hh, ?_, ?_, ?_⟩
  · rw [ht.entered, List.append_assoc]
  · intro w hw
    obtain hw | hw := List.mem_append.1 hw
    · exact ht.ne_null w hw
    · rwa [List.mem_singleton.1 hw]
  · rw [List.length_append]
    exact hu.trans (Nat.add_le_add_right ht.used 1)

theorem dequeue_null (ht : t.Has l) (h : l = [] ∨ t.q.Spent) : t.dequeue = some (0, t) := by
  rw [Trace.dequeue, ht.holds.dequeue_null h]
  rfl

theorem dequeue_value (ht : t.Has (v :: l)) (h : ¬t.q.Spent) : ∃ t', t.dequeue = some (v, t') ∧ t'.Has l := by
  have h0 := ht.ne_null v List.mem_cons_self
  obtain ⟨q, hq, hh, hu⟩ := ht.holds.dequeue_value h
  refine ⟨⟨q, t.entered, t.returned ++ [v]⟩, ?_, hh, ?_, fun w hw => ht.ne_null w (List.mem_cons_of_mem _ hw),
    hu.trans_le ht.used⟩
  · rw [Trace.dequeue, hq]
    simp only [Option.map_some, h0, if_false]
  · rw [ht.entered, List.append_assoc]
    rfl

/-- A dequeue returns the oldest of the values that wait, or `NULL` when there is none or the counter has come to the
top bit. -/
theorem dequeue (ht : t.Has l) :
    ∃ v t', t.dequeue = some (v, t') ∧ (v = 0 ↔ l = [] ∨ t.q.Spent) ∧ (v = 0 → t' = t) ∧
      (v ≠ 0 → ∃ l', l = v :: l' ∧ t'.Has l') := by
  by_cases h : l = [] ∨ t.q.Spent
  · exact ⟨0, t, ht.dequeue_null h, iff_of_true rfl h, fun _ => rfl, fun h => absurd rfl h⟩
  · cases l with
    | nil => exact absurd (Or.inl rfl) h
    | cons v l =>
      obtain ⟨t', hd, hh⟩ := ht.dequeue_value fun hs => h (.inr hs)
      have h0 := ht.ne_null v List.mem_cons_self
      exact ⟨v, t', hd, iff_of_false h0 h, fun hv => absurd hv h0, fun _ => ⟨l, rfl, hh⟩⟩

/-- After the counter has come to the top bit, the next value makes the queue take from its rings again. -/
theorem enqueue_spent (ht : t.Has l) (hs : t.q.Spent) (h0 : v ≠ 0) (h1 : v ≠ -1) :
    ∃ t', t.enqueue v = some t' ∧ t'.Has (l ++ [v]) ∧ ¬t'.q.Spent ∧ t'.q.count = t.q.count + 1 := by
  obtain ⟨t', he, hh⟩ := ht.enqueue h0 h1
  obtain ⟨q, hq, rfl⟩ := Option.map_eq_some_iff.1 he
  exact ⟨_, he, hh, ht.holds.enqueue_spent hs hq⟩

/-- The counter does not come to the top bit with fewer than `2 ^ 63` values. -/
theorem entered_of_spent (ht : t.Has l) (h : t.q.Spent) : 2 ^ 63 ≤ t.entered.length := by
  rw [← ht.holds.used_of_spent h]
  exact ht.used

end Trace.Has

/-- A call on a queue. -/
inductive Call
  | enqueue (arg : Word)
  | dequeue

def Trace.call (t : Trace) : Call → Option Trace
  | .enqueue arg => t.enqueue arg
  | .dequeue => t.dequeue.map Prod.snd

/-- The calls from `lcrq_init` on. -/
def calls (cs : List Call) : Option Trace := cs.foldlM Trace.call Trace.start

/-- The arguments of the calls that enqueue. -/
def Call.args (cs : List Call) : List Word := cs.filterMap fun
  | .enqueue arg => some arg
  | .dequeue => none

theorem Trace.Has.calls {t : Trace} {l : List Word} (ht : t.Has l) (cs : List Call)
    (hcs : ∀ v ∈ Call.args cs, v ≠ 0 ∧ v ≠ -1) :
    ∃ t' l', cs.foldlM Trace.call t = some t' ∧ t'.Has l' ∧ t'.entered = t.entered ++ Call.args cs := by
  induction cs generalizing t l with
  | nil => exact ⟨t, l, rfl, ht, (List.append_nil _).symm⟩
  | cons c cs ih =>
    cases c with
    | enqueue arg =>
      have hv := hcs arg List.mem_cons_self
      obtain ⟨t₁, h1, hh⟩ := ht.enqueue hv.1 hv.2
      have hent : t₁.entered = t.entered ++ [arg] := by
        obtain ⟨q, -, rfl⟩ := Option.map_eq_some_iff.1 h1
        rfl
      obtain ⟨t', l', h2, hh', he⟩ := ih hh fun v hv => hcs v (List.mem_cons_of_mem _ hv)
      refine ⟨t', l', ?_, hh', ?_⟩
      · rw [List.foldlM_cons]
        exact (congrArg (· >>= _) h1).trans h2
      · rw [he, hent, List.append_assoc]
        rfl
    | dequeue =>
      obtain ⟨v, t₁, h1, -, hnull, hval⟩ := ht.dequeue
      obtain ⟨l₁, hh, hent⟩ : ∃ l₁, t₁.Has l₁ ∧ t₁.entered = t.entered := by
        obtain ⟨x, hx, he⟩ := Option.map_eq_some_iff.1 h1
        by_cases hv : v = 0
        · exact ⟨l, hnull hv ▸ ht, hnull hv ▸ rfl⟩
        · obtain ⟨l', -, hh⟩ := hval hv
          cases he
          exact ⟨l', hh, rfl⟩
      obtain ⟨t', l', h2, hh', he⟩ := ih hh hcs
      refine ⟨t', l', ?_, hh', he.trans (congrArg (· ++ _) hent)⟩
      have hcall : t.call .dequeue = some t₁ := congrArg (Option.map Prod.snd) h1
      rw [List.foldlM_cons]
      exact (congrArg (· >>= _) hcall).trans h2

end Lci.Lcrq
