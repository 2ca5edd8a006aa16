/-
  The generic hash table of libfiu/hash.c.

  1. **Data** — `Hash` is `struct hash`: a pointer to an array of slots (`none` is NULL), the
     size the array should have and two counters.  A slot has a key and a value only while it is
     `IN_USE`, so they are arguments of that constructor.  `destroyed` is not in the source: it
     is the list of the values that `h->destructor` was called on.

  2. **Operations** — `hashGet`, `hashSet`, `hashDel`, `resizeTable` and their helpers, line by
     line.  The three probing loops of the source walk alike (up to a slot never used, or one
     that holds the key), so the walk is one function, `findSlot`; its `none` is the exit after
     a complete probe that the source calls pathological.  `malloc` is the outcome of the one
     allocation that a call may make, in `resizeTable`.

  3. **Walks in ℕ** — the loops count the slots that they have tested in an `int`, `findSlot` does
     not count.  `HashInt` has the same functions with the counter, proves when the two agree
     (while every walk ends within 2^31 slots: `hashStep_eq`; so at least for the first 2^30 calls
     of `hash_set`), and what happens to the claim that the table is a map when they do not.

  What is left out: the `strdup` of a key succeeds here (`FiuAlloc` lets it fail), sizes in bytes do
  not wrap, and reading an entry of an array that is there is always defined, since an index is a
  remainder by the size. A slot that was removed keeps neither its key nor its value in the source,
  and has none here.
-/
import Libfiu.Platform
import Libfiu.Lib.Probing

namespace Libfiu

open Probing

/-! ## The hash function of the source

`murmurhash2` on 32-bit words, as the source computes it. No result depends on which function it is:
the theorems are over every `Platform`, and this one is the platform of the examples. -/

/-- One step of the four-byte mix of `murmurhash2`. -/
def murmurMix (h k : UInt32) : UInt32 :=
  let m : UInt32 := 0x5bd1e995
  let k := k * m
  let k := k ^^^ (k >>> 24)
  let k := k * m
  (h * m) ^^^ k

/-- A `char` as an operand of `<<` and `^`: on the platforms at hand it is signed. -/
def signedChar (b : UInt8) : UInt32 :=
  if b < 128 then b.toUInt32 else b.toUInt32 ||| 0xffffff00

/-- The loop over whole words, and then the `switch` over what is left of the key. -/
def murmurBytes : List UInt8 → UInt32 → UInt32
  | a :: b :: c :: d :: rest, h =>
    murmurBytes rest (murmurMix h
      (a.toUInt32 ||| b.toUInt32 <<< 8 ||| c.toUInt32 <<< 16 ||| d.toUInt32 <<< 24))
  | [a, b, c], h =>
    (h ^^^ signedChar c <<< 16 ^^^ signedChar b <<< 8 ^^^ signedChar a) * 0x5bd1e995
  | [a, b], h => (h ^^^ signedChar b <<< 8 ^^^ signedChar a) * 0x5bd1e995
  | [a], h => (h ^^^ signedChar a) * 0x5bd1e995
  | [], h => h

/-- `murmurhash2`. -/
def murmurhash2 (key : CString) : UInt32 :=
  let h := murmurBytes key.bytes (0x34a4b627 ^^^ UInt32.ofNat key.strlen)
  let h := h ^^^ (h >>> 13)
  let h := h * 0x5bd1e995
  h ^^^ (h >>> 15)

/-- The platform of the source: its own hash function, IEEE single and double precision. -/
def Platform.ieee : Platform where
  murmurhash2 key := (Libfiu.murmurhash2 key).toNat
  single := Rounding.binary 24 (by decide)
  double := Rounding.binary 53 (by decide)

/-! ## The data

A slot says how it is used, and a slot in use has its key and the pointer that is stored, which may
be NULL. `destroyed` is a history: the values that the destructor was called on, in their order. -/

/-- `struct entry` with its `enum used_as`. -/
inductive Entry (V : Type) where
  | never
  | inUse (key : CString) (value : Option V)
  | removed
  deriving DecidableEq

namespace Entry

variable {V : Type}

/-- The slot was never used. -/
def isNever : Entry V → Bool
  | never => true
  | _ => false

/-- The slot holds an entry. -/
def isInUse : Entry V → Bool
  | inUse _ _ => true
  | _ => false

/-- The entry of the slot was removed. -/
def isRemoved : Entry V → Bool
  | removed => true
  | _ => false

/-- The key of a slot in use. -/
def key? : Entry V → Option CString
  | inUse key _ => some key
  | _ => none

/-- The value of a slot in use. -/
def value? : Entry V → Option (Option V)
  | inUse _ value => some value
  | _ => none

/-- The slots of hash.c as a probing scheme. -/
def scheme (P : Platform) : Scheme (Entry V) CString where
  free := isNever
  key := key?
  home := P.murmurhash2
  key_of_free s h := by cases s <;> first | rfl | cases h

end Entry

/-- `struct hash`. -/
structure Hash (V : Type) where
  /-- The array of slots, or NULL. -/
  entries : Option (List (Entry V))
  /-- The number of slots that the array should have. -/
  tableSize : ℕ
  nentries : ℕ
  nremoved : ℕ
  /-- The calls of the destructor so far, the first one first. -/
  destroyed : List (Option V)
  deriving DecidableEq

/-- `MIN_SIZE`, of hash.c and of wtable.c. -/
def minSize : ℕ := 10

variable {V : Type} (P : Platform)

/-- `hash_create`, all allocations succeeding. -/
def hashCreate : Hash V where
  entries := some (List.replicate minSize .never)
  tableSize := minSize
  nentries := 0
  nremoved := 0
  destroyed := []

/-- `hash_free`: the destructor calls that it adds. -/
def hashFree (h : Hash V) : Option (List (Option V)) :=
  h.entries.map fun entries => h.destroyed ++ entries.filterMap Entry.value?

/-- The `table_size` slots at `entries`: they can be read and written when the array is there
    and has that size. -/
def Hash.slots (h : Hash V) : Option (List (Entry V)) :=
  h.entries.filter fun entries => entries.length = h.tableSize

/-- The walk of the probing loops: the slot at which it ends, none after a complete probe. -/
def findSlot (entries : List (Entry V)) (key : CString) : Option ℕ :=
  (Entry.scheme P).find entries key

/-! ## The operations

Each of them is `none` where the source would read an array that is not there. A complete probe
without a slot to stop at is not `none`: it is the fall-through exit, with what the source returns
then.

The destructor is called on a value that is overridden, removed, or left at the end, and each such
call is one more element of `destroyed`. -/

/-- `hash_get`. -/
def hashGet (h : Hash V) (key : CString) : Option (Option V) := do
  let entries ← h.slots
  match findSlot P entries key with
  | none => some none
  | some pos =>
    match entries[pos]? with
    | some (.inUse _ value) => some value
    | _ => some none

/-- `_hash_set`: it keeps the array's size. -/
def hashSetInternal (h : Hash V) (key : CString) (value : Option V) : Option (Bool × Hash V) := do
  let entries ← h.slots
  match findSlot P entries key with
  | none => some (false, h)
  | some pos =>
    match ← entries[pos]? with
    | .inUse key' old =>
      some (true, { h with
        entries := some (entries.set pos (.inUse key' value))
        destroyed := h.destroyed ++ [old] })
    | _ =>
      -- only slots never used are taken, the walk does not stop at a removed one
      some (true, { h with
        entries := some (entries.set pos (.inUse key value))
        nentries := h.nentries + 1 })

/-- The loop of `resize_table` over the old array.  The source ignores what `_hash_set` returns;
    here the loop says whether it was always true. -/
def rehash : List (Entry V) → Hash V → Option (Bool × Hash V)
  | [], h => some (true, h)
  | .inUse key value :: old, h => do
    let (ok, h) ← hashSetInternal P h key value
    let (oks, h) ← rehash old h
    some (ok && oks, h)
  | _ :: old, h => rehash old h

/-- The table that `resize_table` fills: all slots never used. -/
def Hash.emptied (h : Hash V) (newSize : ℕ) : Hash V :=
  { h with
    entries := some (List.replicate newSize .never)
    tableSize := newSize
    nentries := 0
    nremoved := 0 }

/-- `resize_table` of hash.c.  When `malloc` fails, `h->entries` is already overwritten. -/
def resizeTable (malloc : Bool) (h : Hash V) (newSize : ℕ) : Option (Bool × Hash V) :=
  let newSize := if newSize < minSize then minSize else newSize
  if malloc then do
    let old ← h.slots
    let (_, h) ← rehash P old (h.emptied newSize)
    some (true, h)
  else some (false, { h with entries := none })

/-- `(float) n / size`. -/
def floatRatio (n size : ℕ) : ℚ := P.single.round (P.single.round n / P.single.round size)

/-- `auto_resize_table`. -/
def autoResizeTable (malloc : Bool) (h : Hash V) : Option (Bool × Hash V) :=
  if floatRatio P (h.tableSize - h.nentries - h.nremoved) h.tableSize
      < P.double.round (3 / 10) then
    resizeTable P malloc h (h.nentries * 2)
  else if minSize < h.tableSize ∧
      floatRatio P h.nentries h.tableSize < P.double.round (3 / 10) then
    resizeTable P malloc h (h.nentries * 2)
  else some (true, h)

/-- `hash_set`. -/
def hashSet (malloc : Bool) (h : Hash V) (key : CString) (value : Option V) :
    Option (Bool × Hash V) := do
  let (r, h) ← hashSetInternal P h key value
  let (ok, h) ← autoResizeTable P malloc h
  if ok then some (r, h) else some (false, h)

/-- The part of `hash_del` after the loop: the slot at `pos`, in use with `value`, is removed. -/
def Hash.removeAt (h : Hash V) (entries : List (Entry V)) (pos : ℕ) (value : Option V) : Hash V :=
  { h with
    entries := some (entries.set pos .removed)
    nentries := h.nentries - 1
    nremoved := h.nremoved + 1
    destroyed := h.destroyed ++ [value] }

/-- `hash_del`. -/
def hashDel (malloc : Bool) (h : Hash V) (key : CString) : Option (Bool × Hash V) := do
  let entries ← h.slots
  match findSlot P entries key with
  | none => some (false, h)
  | some pos =>
    match entries[pos]? with
    | some (.inUse _ value) => autoResizeTable P malloc (h.removeAt entries pos value)
    | _ => some (false, h)

end Libfiu
