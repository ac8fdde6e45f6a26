/-
The matching table of `include/lc/hashtable.h`: 2^16 buckets, each a row of three slots with a
chain of overflow rows behind its `control.next`. `lcHashInsert` is `lc_hash_insert` as one atomic
call under the bucket lock: it scans the rows of the bucket of its key for an entry of the other
type, and otherwise stores its own in the first slot of the run of empty slots at the end of the
chain, linking a new row when there is none.

Values are only copied by the table, so they are a type parameter; `zero` is what `create_table`
writes in them.
-/
import Mathlib.Logic.Function.Basic
import Mathlib.Tactic

namespace Lci.Hash

/-- `lc_key`. -/
abbrev Key := BitVec 64

/-- `enum insert_type`. -/
inductive InsertType
  | client
  | server
deriving DecidableEq, Repr

/-- The value of the enumerator, as it is or-ed into a tag. -/
def InsertType.toKey : InsertType → Key
  | .client => 0
  | .server => 1

def InsertType.other : InsertType → InsertType
  | .client => .server
  | .server => .client

/-- The mark of a free slot. -/
def EMPTY : Key := -1

/-- `TBL_BIT_SIZE`. -/
def tblBitSize : Nat := 16

/-- The slots of a row: `TBL_WIDTH - 1`, the first cell of a row being its control. -/
def rowSlots : Nat := 3

/-- `struct hash_val` as an entry. -/
structure Slot (V : Type) where
  tag : Key
  val : V
deriving DecidableEq, Repr

abbrev Row (V : Type) := Vector (Slot V) rowSlots

/-- The rows of a bucket in `control.next` order; the first one is in the main table. -/
structure Chain (V : Type) where
  rows : List (Row V)
  rows_ne : rows ≠ []

/-- A table: one chain for each hash value. -/
abbrev Table (V : Type) := Fin (2 ^ tblBitSize) → Chain V

/-! ## Hashing -/

def prime : Key := 0x01000193

def seed : Key := 0x811C9DC5

/-- One round of the hash: byte `i` of the key, computed in 64 bits and cut to `uint32_t`. -/
def hashByte (k : Key) (i : Nat) (hash : BitVec 32) : BitVec 32 :=
  (((k >>> (8 * i) &&& 0xff) ^^^ hash.setWidth 64) * prime).setWidth 32

/-- `myhash`: the eight bytes of the key from the low one up, folded to `TBL_BIT_SIZE` bits. -/
def myhash (k : Key) : BitVec 32 :=
  let hash := (((k &&& 0xff) ^^^ seed) * prime).setWidth 32
  let hash := hashByte k 1 hash
  let hash := hashByte k 2 hash
  let hash := hashByte k 3 hash
  let hash := hashByte k 4 hash
  let hash := hashByte k 5 hash
  let hash := hashByte k 6 hash
  let hash := hashByte k 7 hash
  ((hash >>> tblBitSize) ^^^ hash) &&& ((1 <<< tblBitSize) - 1)

theorem myhash_lt (k : Key) : (myhash k).toNat < 2 ^ tblBitSize := by
  unfold myhash
  simp only [BitVec.toNat_and]
  exact lt_of_le_of_lt Nat.and_le_right (by decide)

/-- The bucket of a key. -/
def bucket (k : Key) : Fin (2 ^ tblBitSize) := ⟨(myhash k).toNat, myhash_lt k⟩

/-! ## Creation -/

section

variable {V : Type}

/-- A row as `create_table` makes it. -/
def emptyRow (zero : V) : Row V := Vector.replicate rowSlots ⟨EMPTY, zero⟩

/-- `lc_hash_create`: `create_table(1 << TBL_BIT_SIZE)`. -/
def lcHashCreate (zero : V) : Table V := fun _ => ⟨[emptyRow zero], by simp⟩

/-! ## Insertion -/

/-- A slot of a chain: the number of its row and its place in the row. -/
structure Pos where
  row : Nat
  slot : Nat
deriving DecidableEq, Repr

/-- How the scan of a chain ends: on a slot whose tag is the one looked for, or after the last row
with `empty_hentry`. -/
inductive Scan
  | hit (p : Pos)
  | fell (emptyHentry : Option Pos)
deriving DecidableEq, Repr

/-- The loop body over the slots of row `i`, from `checked_slot` on. -/
def scanSlots (cmpKey : Key) (i : Nat) : List (Slot V) → Nat → Option Pos → Scan
  | [], _, emptyHentry => .fell emptyHentry
  | e :: es, checkedSlot, emptyHentry =>
    if e.tag = cmpKey then .hit ⟨i, checkedSlot⟩
    else if e.tag = EMPTY then
      -- the first empty slot is recorded, the scan goes on
      scanSlots cmpKey i es (checkedSlot + 1)
        (if emptyHentry = none then some ⟨i, checkedSlot⟩ else emptyHentry)
    else
      -- a live entry: the empty slots before it may not be taken
      scanSlots cmpKey i es (checkedSlot + 1) none

/-- The `while (1)` loop: row after row until `control.next` is null. -/
def scanRows (cmpKey : Key) : List (Row V) → Nat → Option Pos → Scan
  | [], _, emptyHentry => .fell emptyHentry
  | r :: rs, i, emptyHentry =>
    match scanSlots cmpKey i r.toList 0 emptyHentry with
    | .hit p => .hit p
    | .fell e => scanRows cmpKey rs (i + 1) e

/-- Changes the slot at a position of a chain. -/
def Chain.modify (c : Chain V) (p : Pos) (f : Slot V → Slot V) : Chain V where
  rows := c.rows.modify p.row (fun r => Vector.ofFn fun j => if j.val = p.slot then f r[j] else r[j])
  rows_ne := by
    intro h
    exact c.rows_ne (List.length_eq_zero_iff.1 (by rw [← List.length_modify, h, List.length_nil]))

/-- `hcontrol->control.next = create_table(1)`. -/
def Chain.link (c : Chain V) (zero : V) : Chain V where
  rows := c.rows ++ [emptyRow zero]
  rows_ne := by simp

/-- The entry at a position, or the initial one outside the chain. -/
def Chain.get (c : Chain V) (zero : V) (p : Pos) : Slot V :=
  match c.rows[p.row]? with
  | some r => r.toList.getD p.slot ⟨EMPTY, zero⟩
  | none => ⟨EMPTY, zero⟩

/-- What a call leaves: the returned 0 or 1, `*value` and the table. -/
structure Insert (V : Type) where
  ret : Nat
  value : V
  table : Table V

/-- The tag of an entry: `(key << 1) | type`. -/
def tagOf (key : Key) (type : InsertType) : Key := (key <<< 1) ||| type.toKey

/-- The tag a call looks for: `(key << 1) | (1 - type)`. -/
def cmpKeyOf (key : Key) (type : InsertType) : Key := (key <<< 1) ||| (1 - type.toKey)

/-- `lc_hash_insert` on the chain of the key's bucket. -/
def insertChain (zero : V) (c : Chain V) (key : Key) (value : V) (type : InsertType) : Nat × V × Chain V :=
  match scanRows (cmpKeyOf key type) c.rows 0 none with
  | .hit p => (0, (c.get zero p).val, c.modify p fun e => { e with tag := EMPTY })
  | .fell (some p) => (1, value, c.modify p fun _ => ⟨tagOf key type, value⟩)
  | .fell none =>
    (1, value, (c.link zero).modify ⟨c.rows.length, 0⟩ fun _ => ⟨tagOf key type, value⟩)

/-- `lc_hash_insert`. -/
def lcHashInsert (zero : V) (h : Table V) (key : Key) (value : V) (type : InsertType) : Insert V :=
  let r := insertChain zero (h (bucket key)) key value type
  ⟨r.1, r.2.1, Function.update h (bucket key) r.2.2⟩

theorem lcHashInsert_ret (zero : V) (h : Table V) (key : Key) (value : V) (type : InsertType) :
    (lcHashInsert zero h key value type).ret = (insertChain zero (h (bucket key)) key value type).1 := rfl

theorem lcHashInsert_value (zero : V) (h : Table V) (key : Key) (value : V) (type : InsertType) :
    (lcHashInsert zero h key value type).value = (insertChain zero (h (bucket key)) key value type).2.1 := rfl

theorem lcHashInsert_table (zero : V) (h : Table V) (key : Key) (value : V) (type : InsertType) :
    (lcHashInsert zero h key value type).table =
      Function.update h (bucket key) (insertChain zero (h (bucket key)) key value type).2.2 := rfl

end

end Lci.Hash
