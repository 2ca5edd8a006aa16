/-
  The wildcard table of libfiu/wtable.c.

  1. **Data** — `Wtable` is `struct wtable`.  Everything but the lookup cache is its parent
     `UncachedWtable`, which is a table of its own: the one that a lookup without the cache would
     use.  A slot of the wildcards array that is not in use is `none`.  As in `Hash`, `destroyed`
     lists the values that `t->destructor` was called on, here by this file itself.

  2. **Operations** — line by line, those that do not touch the cache on the parent.  `strlast`
     counts in an `unsigned int`, so it counts modulo 2^32.  `Mallocs` are the outcomes of the
     allocations that one call may make; the `strdup`s succeed.

  3. **The same table with the cache removed** — `uncachedGet`, `uncachedSet`, `uncachedDel`.

  A call is defined when every array that it reads is there and every index is inside of it.
  `is_wildcard` of an empty string is not, and neither is `ws_matches_s` with a length that the
  string does not have; `FiuNames` shows that the second one never happens in a table that calls
  have made.
-/
import Libfiu.Cache

namespace Libfiu

/-! ## Strings

The three functions on strings, with the reads that are out of bounds left undefined and the 32-bit
counter of `strlast` kept. -/

/-- `strlast`: how many leading characters of the strings are equal, modulo 2^32. -/
def strlast : List UInt8 → List UInt8 → ℕ
  | c₁ :: s₁, c₂ :: s₂ => if c₁ = c₂ then (strlast s₁ s₂ + 1) % 2 ^ 32 else 0
  | _, _ => 0

/-- `is_wildcard`: it reads `s[len - 1]`, which is outside of `s` when `len` is zero. -/
def isWildcard (s : CString) (len : ℕ) : Option Bool :=
  if len = 0 then none else (s.charAt (len - 1)).map fun c => decide (c = star)

/-- `ws_matches_s`. -/
def wsMatchesS (ws : CString) (wsLen : ℕ) (s : CString) (sLen : ℕ) (exact : Bool) :
    Option Bool := do
  let exactMatch ← if exact then some true else (isWildcard ws wsLen).map (! ·)
  if exactMatch then
    if wsLen ≠ sLen then some false else some (decide (ws = s))
  else some (decide (strlast ws.bytes s.bytes ≥ wsLen - 1))

/-! ## The data

The table has three parts, and each allocation of a call can fail on its own. The cache is a part of
the table and no part of what it means, so `UncachedWtable` stands alone. -/

/-- `struct wentry`, of a slot in use. -/
structure Wentry (V : Type) where
  key : CString
  keyLen : ℕ
  value : Option V
  deriving DecidableEq

/-- `struct wtable` without its cache. -/
structure UncachedWtable (V : Type) where
  finals : Hash V
  /-- The array of wildcards, or NULL. -/
  wildcards : Option (List (Option (Wentry V)))
  /-- The number of slots that the array should have. -/
  wsSize : ℕ
  wsUsedCount : ℕ
  /-- The calls of the destructor so far that wtable.c made, the first one first. -/
  destroyed : List (Option V)
  deriving DecidableEq

/-- `struct wtable`. -/
structure Wtable (V : Type) extends UncachedWtable V where
  wcache : Cache V
  deriving DecidableEq

/-- The outcomes of the allocations that one call may make: of the wildcards array, of the array
    of the cache and of the array of the finals. -/
structure Mallocs where
  wildcards : Bool
  cache : Bool
  finals : Bool
  deriving DecidableEq

/-- All allocations succeed. -/
def Mallocs.ok : Mallocs := ⟨true, true, true⟩

variable {V : Type} (P : Platform)

/-- The finals and the wildcards of `wtable_create`. -/
def uncachedCreate : UncachedWtable V where
  finals := hashCreate
  wildcards := some (List.replicate minSize none)
  wsSize := minSize
  wsUsedCount := 0
  destroyed := []

/-- `wtable_create`, all allocations succeeding; `garbage` is in the `c->size` of the cache. -/
def wtableCreate (garbage : ℕ) : Wtable V :=
  { (uncachedCreate : UncachedWtable V) with wcache := cacheCreate garbage }

/-- The `ws_size` slots at `wildcards`. -/
def UncachedWtable.slots (t : UncachedWtable V) : Option (List (Option (Wentry V))) :=
  t.wildcards.filter fun ws => ws.length = t.wsSize

/-- `wtable_free`: all the destructor calls of the table's life, and those that it adds. -/
def wtableFree (t : Wtable V) : Option (List (Option V)) := do
  let finals ← hashFree t.finals
  let ws ← t.slots
  some (finals ++ t.destroyed ++ ws.filterMap fun slot => slot.map Wentry.value)

/-! ## The wildcards array

An unordered array with holes. The search goes over all of it, since a free slot says nothing about
what is behind it; where an entry is, is where a hole was when it came.

Which hole a new entry gets decides which of two wildcards is found for a name that both cover; the
array is the only place where the order of the calls is kept. -/

/-- The loop of `wildcards_find_entry` from `pos` on: the entry that matches and where it is, and
    the first free slot met on the way. -/
def findEntryFrom (key : CString) (exact : Bool) :
    List (Option (Wentry V)) → ℕ → Option ℕ → Option (Option (ℕ × Wentry V) × Option ℕ)
  | [], _, firstFree => some (none, firstFree)
  | none :: ws, pos, firstFree => findEntryFrom key exact ws (pos + 1) (firstFree <|> some pos)
  | some entry :: ws, pos, firstFree => do
    let found ← wsMatchesS entry.key entry.keyLen key key.strlen exact
    if found then some (some (pos, entry), firstFree)
    else findEntryFrom key exact ws (pos + 1) firstFree

/-- `wildcards_find_entry`: the entry, and `*first_free`. -/
def wildcardsFindEntry (t : UncachedWtable V) (key : CString) (exact : Bool) :
    Option (Option (ℕ × Wentry V) × Option ℕ) := do
  let ws ← t.slots
  findEntryFrom key exact ws 0 none

/-- `wildcards_set`. -/
def wildcardsSet (t : UncachedWtable V) (key : CString) (value : Option V) :
    Option (Bool × UncachedWtable V) := do
  let ws ← t.slots
  match ← wildcardsFindEntry t key true with
  | (some (pos, entry), _) =>
    some (true, { t with
      wildcards := some (ws.set pos (some { entry with key := key, value := value }))
      destroyed := t.destroyed ++ [entry.value] })
  | (none, some pos) =>
    some (true, { t with
      wildcards := some (ws.set pos (some ⟨key, key.strlen, value⟩))
      wsUsedCount := t.wsUsedCount + 1 })
  | (none, none) => some (false, t)

/-- The loop of `resize_table` over the old array. -/
def reinsert : List (Option (Wentry V)) → UncachedWtable V → Option (UncachedWtable V)
  | [], t => some t
  | none :: old, t => reinsert old t
  | some entry :: old, t => do
    let (_, t) ← wildcardsSet t entry.key entry.value
    reinsert old t

/-- The table that `resize_table` fills: no slot in use. -/
def UncachedWtable.emptied (t : UncachedWtable V) (newSize : ℕ) : UncachedWtable V :=
  { t with
    wildcards := some (List.replicate newSize none)
    wsSize := newSize
    wsUsedCount := 0 }

/-- What `resize_table` of wtable.c does to the wildcards, when it resizes.  When `malloc` fails,
    `t->wildcards` is already overwritten. -/
def moveWildcards (malloc : Bool) (t : UncachedWtable V) (newSize : ℕ) :
    Option (Bool × UncachedWtable V) :=
  if malloc then do
    let old ← t.slots
    let t ← reinsert old (t.emptied newSize)
    some (true, t)
  else some (false, { t with wildcards := none })

/-- `t->ws_size * 1.3 + 1`, converted to a `size_t`. -/
def grownSize (wsSize : ℕ) : ℕ :=
  ⌊P.double.round (P.double.round (P.double.round wsSize * P.double.round (13 / 10)) + 1)⌋₊

/-- The table is to be grown before a wildcard is set. -/
def UncachedWtable.almostFull (t : UncachedWtable V) : Bool := t.wsSize - t.wsUsedCount ≤ 1

/-- The table is to be shrunk after a wildcard is deleted. -/
def UncachedWtable.sparse (t : UncachedWtable V) : Bool :=
  minSize < t.wsSize ∧ floatRatio P t.wsUsedCount t.wsSize < P.double.round (6 / 10)

/-- The part of `wtable_del` that marks the entry at `pos` as free. -/
def UncachedWtable.freeAt (t : UncachedWtable V) (ws : List (Option (Wentry V))) (pos : ℕ)
    (entry : Wentry V) : UncachedWtable V :=
  { t with
    wildcards := some (ws.set pos none)
    wsUsedCount := t.wsUsedCount - 1
    destroyed := t.destroyed ++ [entry.value] }

/-! ## The table

The calls of the library, in the order in which the source does things: the array is grown and the
cache invalidated before the key is copied and written. -/

/-- The table with its wildcards and finals replaced. -/
def Wtable.withUncached (t : Wtable V) (u : UncachedWtable V) : Wtable V :=
  { u with wcache := t.wcache }

/-- `resize_table` of wtable.c.  What `cache_resize` returns is ignored. -/
def Wtable.resizeTable (malloc : Mallocs) (t : Wtable V) (newSize : ℕ) :
    Option (Bool × Wtable V) :=
  if newSize < minSize then some (true, t)
  else do
    let (ok, u) ← moveWildcards malloc.wildcards t.toUncachedWtable newSize
    if ok then do
      let (_, c) ← cacheResize P malloc.cache t.wcache newSize
      some (true, { u with wcache := c })
    else some (false, t.withUncached u)

/-- The growth at the start of `wtable_set`. -/
def Wtable.grow (malloc : Mallocs) (t : Wtable V) : Option (Bool × Wtable V) :=
  if t.almostFull then t.resizeTable P malloc (grownSize P t.wsSize) else some (true, t)

/-- The shrinking at the end of `wtable_del`. -/
def Wtable.shrink (malloc : Mallocs) (t : Wtable V) : Option (Bool × Wtable V) :=
  if t.sparse P then t.resizeTable P malloc (t.wsUsedCount + 3) else some (true, t)

/-- `cache_invalidate(t->wcache)`. -/
def Wtable.invalidate (t : Wtable V) : Option (Wtable V) := do
  let (_, c) ← cacheInvalidate t.wcache
  some { t with wcache := c }

/-- `wtable_get`. -/
def wtableGet (t : Wtable V) (key : CString) : Option (Option V × Wtable V) := do
  let value ← hashGet P t.finals key
  if value.isSome then return (value, t)
  let (hit, value) ← cacheGet P t.wcache key
  if hit then return (value, t)
  let (found, _) ← wildcardsFindEntry t.toUncachedWtable key false
  let value := found.bind fun e => e.2.value
  let (_, c) ← cacheSet P t.wcache key value
  return (value, { t with wcache := c })

/-- `wtable_set`. -/
def wtableSet (malloc : Mallocs) (t : Wtable V) (key : CString) (value : Option V) :
    Option (Bool × Wtable V) := do
  if ← isWildcard key key.strlen then
    let (ok, t) ← t.grow P malloc
    if ok then
      let t ← t.invalidate
      let (r, u) ← wildcardsSet t.toUncachedWtable key value
      some (r, t.withUncached u)
    else some (false, t)
  else
    let (r, h) ← hashSet P malloc.finals t.finals key value
    some (r, { t with finals := h })

/-- `wtable_del`. -/
def wtableDel (malloc : Mallocs) (t : Wtable V) (key : CString) : Option (Bool × Wtable V) := do
  if ← isWildcard key key.strlen then
    let ws ← t.slots
    match (← wildcardsFindEntry t.toUncachedWtable key true).1 with
    | none => some (false, t)
    | some (pos, entry) =>
      let (ok, t) ←
        (t.withUncached (t.toUncachedWtable.freeAt ws pos entry)).shrink P malloc
      if ok then
        let t ← t.invalidate
        some (true, t)
      else some (false, t)
  else
    let (r, h) ← hashDel P malloc.finals t.finals key
    some (r, { t with finals := h })

/-! ## The same table with the cache removed

What `wtable_get` would be without the cache, and the writing calls without the lines about it. This
is the table that the cache is compared with. -/

/-- `wtable_get` without the cache: from the finals straight to the wildcards. -/
def uncachedGet (t : UncachedWtable V) (key : CString) : Option (Option V) := do
  let value ← hashGet P t.finals key
  if value.isSome then return value
  let (found, _) ← wildcardsFindEntry t key false
  return found.bind fun e => e.2.value

/-- `resize_table` without the cache. -/
def UncachedWtable.resizeTable (malloc : Mallocs) (t : UncachedWtable V) (newSize : ℕ) :
    Option (Bool × UncachedWtable V) :=
  if newSize < minSize then some (true, t) else moveWildcards malloc.wildcards t newSize

/-- The growth at the start of `wtable_set`, without the cache. -/
def UncachedWtable.grow (malloc : Mallocs) (t : UncachedWtable V) :
    Option (Bool × UncachedWtable V) :=
  if t.almostFull then t.resizeTable malloc (grownSize P t.wsSize) else some (true, t)

/-- The shrinking at the end of `wtable_del`, without the cache. -/
def UncachedWtable.shrink (malloc : Mallocs) (t : UncachedWtable V) :
    Option (Bool × UncachedWtable V) :=
  if t.sparse P then t.resizeTable malloc (t.wsUsedCount + 3) else some (true, t)

/-- `wtable_set` without the cache. -/
def uncachedSet (malloc : Mallocs) (t : UncachedWtable V) (key : CString) (value : Option V) :
    Option (Bool × UncachedWtable V) := do
  if ← isWildcard key key.strlen then
    let (ok, t) ← t.grow P malloc
    if ok then wildcardsSet t key value else some (false, t)
  else
    let (r, h) ← hashSet P malloc.finals t.finals key value
    some (r, { t with finals := h })

/-- `wtable_del` without the cache. -/
def uncachedDel (malloc : Mallocs) (t : UncachedWtable V) (key : CString) :
    Option (Bool × UncachedWtable V) := do
  if ← isWildcard key key.strlen then
    let ws ← t.slots
    match (← wildcardsFindEntry t key true).1 with
    | none => some (false, t)
    | some (pos, entry) =>
      (t.freeAt ws pos entry).shrink P malloc
  else
    let (r, h) ← hashDel P malloc.finals t.finals key
    some (r, { t with finals := h })

end Libfiu
