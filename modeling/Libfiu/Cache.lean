/-
  The generic cache of libfiu/hash.c, and how fresh what it returns is.

  A cache is a hash table that is written behind its back: `cache_get`, `cache_set` and
  `cache_del` only ever look at the HOME slot of a key (`entry_for_key`), but `cache_resize` grows
  the table with `resize_table`, which probes.  A growth can therefore put a key outside of its
  home slot, where no call of the cache sees it, and a later growth can bring it back.

  * `Cache.Ready` — the array is there, with the recorded size; no operation is undefined;
  * `Cache.Fresh M` — every entry in its home slot is the one that the calls made so far (`M`)
    would give.  Hits only read home slots, so a fresh cache only has fresh hits
    (`cacheGet_fresh`);
  * every call keeps `Fresh`, a growth only when the entries outside of their home are up to date
    too (`UpToDate`).  `cache_run_stale` is a run in which one is not: two keys, set, grown, one of
    them set again, grown again.

  The lock of the cache makes each call one atomic step; it has no part in what a call returns.

  The invariant is weak because the cache is. Nothing says that a key is in the array once: a key
  may be in its home slot and, from before a growth, in another slot as well. What saves most runs
  is that nobody looks there; what the condition of `cache_run_fresh` is about, is the next growth,
  in which `resize_table` takes all entries alike, and of two with one key the later one in the
  array stays.
-/
import Libfiu.HashSpec

namespace Libfiu

variable {V : Type}

/-- `struct cache`, without its lock. -/
structure Cache (V : Type) where
  hash : Hash V
  size : ℕ
  deriving DecidableEq

/-- `cache_create`: `c->size` is not initialised, so it holds `garbage`. -/
def cacheCreate (garbage : ℕ) : Cache V := ⟨hashCreate, garbage⟩

/-- The cache with its slots written over. -/
def Cache.withEntries (c : Cache V) (entries : List (Entry V)) : Cache V :=
  { c with hash := { c.hash with entries := some entries } }

/-- What `_cache_invalidate` does to one slot. -/
def Entry.invalidated : Entry V → Entry V
  | inUse _ _ => never
  | s => s

/-- `_cache_invalidate`. -/
def cacheInvalidateInternal (c : Cache V) : Option (Cache V) := do
  let entries ← c.hash.slots
  some (c.withEntries (entries.map Entry.invalidated))

/-- `cache_invalidate`. -/
def cacheInvalidate (c : Cache V) : Option (Bool × Cache V) := do
  let c ← cacheInvalidateInternal c
  some (true, c)

variable (P : Platform)

/-- The part that both branches of `cache_resize` end with. -/
def Cache.resizeTo (malloc : Bool) (c : Cache V) (newSize : ℕ) : Option (Bool × Cache V) := do
  let (ok, h) ← resizeTable P malloc c.hash newSize
  if ok then some (true, { hash := h, size := newSize }) else some (false, { c with hash := h })

/-- `cache_resize`. -/
def cacheResize (malloc : Bool) (c : Cache V) (newSize : ℕ) : Option (Bool × Cache V) :=
  if newSize > c.size then c.resizeTo P malloc newSize
  else do
    -- shrinking: everything is invalidated first
    let c ← cacheInvalidateInternal c
    c.resizeTo P malloc newSize

/-- The index of `entry_for_key`. -/
def homeSlot (entries : List (Entry V)) (key : CString) : ℕ :=
  P.murmurhash2 key % entries.length

/-- `cache_get`: hit or miss, and the value stored through `value`. -/
def cacheGet (c : Cache V) (key : CString) : Option (Bool × Option V) := do
  let entries ← c.hash.slots
  match ← entries[homeSlot P entries key]? with
  | .inUse key' value => if key = key' then some (true, value) else some (false, none)
  | _ => some (false, none)

/-- `cache_set`: the entry in the home slot, of whatever key, is replaced. -/
def cacheSet (c : Cache V) (key : CString) (value : Option V) : Option (Bool × Cache V) := do
  let entries ← c.hash.slots
  let _ ← entries[homeSlot P entries key]?
  some (true, c.withEntries (entries.set (homeSlot P entries key) (.inUse key value)))

/-- `cache_del`. -/
def cacheDel (c : Cache V) (key : CString) : Option (Bool × Cache V) := do
  let entries ← c.hash.slots
  match ← entries[homeSlot P entries key]? with
  | .inUse key' _ =>
    if key' = key then
      some (true, c.withEntries (entries.set (homeSlot P entries key) .never))
    else some (false, c)
  | _ => some (false, c)

/-! ## What the calls do to the array

`entry_for_key` computes the home slot and looks no further, so `cache_get`, `cache_set` and
`cache_del` are each one access to one slot. -/

variable {P : Platform}

/-- The array of a cache that can be used. -/
structure Cache.Ready (c : Cache V) (entries : List (Entry V)) : Prop where
  entries_eq : c.hash.entries = some entries
  size : entries.length = c.hash.tableSize
  min_le : minSize ≤ c.hash.tableSize

/-- A new cache has ten slots, whatever is in `c->size`. -/
theorem cacheCreate_ready (garbage : ℕ) :
    (cacheCreate garbage : Cache V).Ready (List.replicate minSize .never) :=
  ⟨rfl, rfl, le_refl _⟩

namespace Cache.Ready

variable {c : Cache V} {entries : List (Entry V)}

theorem slots_eq (hc : c.Ready entries) : c.hash.slots = some entries := by
  rw [Hash.slots, hc.entries_eq, Option.filter_some, if_pos (by simpa using hc.size)]

/-- `entry_for_key` stays inside of the array. -/
theorem homeSlot_lt (hc : c.Ready entries) (key : CString) :
    homeSlot P entries key < entries.length := by
  refine Nat.mod_lt _ ?_
  have := hc.size
  have := hc.min_le
  unfold minSize at this
  omega

/-- The slot that `entry_for_key` finds. -/
theorem home_eq (hc : c.Ready entries) (key : CString) :
    ∃ s, entries[homeSlot P entries key]? = some s :=
  ⟨_, List.getElem?_eq_getElem (hc.homeSlot_lt key)⟩

theorem write (hc : c.Ready entries) (p : ℕ) (s : Entry V) :
    (c.withEntries (entries.set p s)).Ready (entries.set p s) :=
  ⟨rfl, by rw [List.length_set]; exact hc.size, hc.min_le⟩

end Cache.Ready

/-- `cache_get` hits exactly when the home slot holds the key. -/
theorem cacheGet_eq {c : Cache V} {entries : List (Entry V)} (hc : c.Ready entries)
    (key : CString) :
    (∃ value, entries[homeSlot P entries key]? = some (.inUse key value) ∧
      cacheGet P c key = some (true, value)) ∨ cacheGet P c key = some (false, none) := by
  obtain ⟨s, hs⟩ := hc.home_eq (P := P) key
  cases s with
  | inUse key' value =>
    by_cases hk : key = key'
    · subst hk
      exact Or.inl ⟨value, hs, by simp [cacheGet, hc.slots_eq, hs]⟩
    · exact Or.inr (by simp [cacheGet, hc.slots_eq, hs, hk])
  | never => exact Or.inr (by simp [cacheGet, hc.slots_eq, hs])
  | removed => exact Or.inr (by simp [cacheGet, hc.slots_eq, hs])

/-- `cache_set` writes the home slot. -/
theorem cacheSet_eq {c : Cache V} {entries : List (Entry V)} (hc : c.Ready entries)
    (key : CString) (value : Option V) :
    ∃ c', cacheSet P c key value = some (true, c') ∧ c'.size = c.size ∧
      c'.Ready (entries.set (homeSlot P entries key) (.inUse key value)) := by
  obtain ⟨s, hs⟩ := hc.home_eq (P := P) key
  exact ⟨c.withEntries _, by simp [cacheSet, hc.slots_eq, hs], rfl, hc.write _ _⟩

/-- `cache_del` clears the home slot, or does nothing when another key is there. -/
theorem cacheDel_eq {c : Cache V} {entries : List (Entry V)} (hc : c.Ready entries)
    (key : CString) :
    (∃ c', cacheDel P c key = some (true, c') ∧
      c'.Ready (entries.set (homeSlot P entries key) .never)) ∨
    (cacheDel P c key = some (false, c) ∧
      ∀ value, entries[homeSlot P entries key]? ≠ some (.inUse key value)) := by
  obtain ⟨s, hs⟩ := hc.home_eq (P := P) key
  cases s with
  | inUse key' value =>
    by_cases hk : key' = key
    · exact Or.inl ⟨c.withEntries _, by simp [cacheDel, hc.slots_eq, hs, hk], hc.write _ _⟩
    · refine Or.inr ⟨by simp [cacheDel, hc.slots_eq, hs, hk], fun v hv => ?_⟩
      rw [hs] at hv
      cases hv
      exact hk rfl
  | never =>
    exact Or.inr ⟨by simp [cacheDel, hc.slots_eq, hs], fun v hv => by rw [hs] at hv; cases hv⟩
  | removed =>
    exact Or.inr ⟨by simp [cacheDel, hc.slots_eq, hs], fun v hv => by rw [hs] at hv; cases hv⟩

/-- An invalidated slot holds nothing. -/
theorem not_inUse_invalidated {entries : List (Entry V)} {key : CString} {value : Option V} :
    Entry.inUse key value ∉ entries.map Entry.invalidated := by
  intro hm
  obtain ⟨s, -, hs⟩ := List.mem_map.mp hm
  cases s <;> cases hs

/-- `_cache_invalidate` leaves nothing in use. -/
theorem cacheInvalidateInternal_eq {c : Cache V} {entries : List (Entry V)}
    (hc : c.Ready entries) :
    ∃ c', cacheInvalidateInternal c = some c' ∧ c'.size = c.size ∧
      c'.Ready (entries.map Entry.invalidated) :=
  ⟨c.withEntries _, by simp [cacheInvalidateInternal, hc.slots_eq], rfl, rfl,
    by rw [List.length_map]; exact hc.size, hc.min_le⟩

/-- `cache_invalidate` leaves nothing in use. -/
theorem cacheInvalidate_eq {c : Cache V} {entries : List (Entry V)} (hc : c.Ready entries) :
    ∃ c', cacheInvalidate c = some (true, c') ∧
      c'.Ready (entries.map Entry.invalidated) := by
  obtain ⟨c', hinv, -, hr⟩ := cacheInvalidateInternal_eq hc
  exact ⟨c', by simp [cacheInvalidate, hinv], hr⟩

/-! ## Resizing

`cache_resize` is the one call that probes. Here the array is arbitrary, since a cache keeps no
chains; what is in use after a resize was in use before, and that is all that can be said.

When the array gets larger, the homes change, and an entry that was displaced can come home. When
`malloc` fails, the array is gone. -/

/-- The probing of `_hash_set` in any array, valid or not: it is defined, keeps the size, and what
    is in use afterwards was in use before or is what was set. -/
theorem hashSetInternal_mem {h : Hash V} {entries : List (Entry V)}
    (hslots : h.slots = some entries) (key : CString) (value : Option V) :
    ∃ ok h' entries', hashSetInternal P h key value = some (ok, h') ∧
      h'.entries = some entries' ∧ entries'.length = entries.length ∧
      h'.tableSize = h.tableSize ∧
      ∀ k v, Entry.inUse k v ∈ entries' → Entry.inUse k v ∈ entries ∨ (k = key ∧ v = value) := by
  have hentries : h.entries = some entries := (Option.filter_eq_some_iff.mp hslots).1
  have hset : ∀ (p : ℕ) (k' : CString), k' = key → ∀ k v,
      Entry.inUse k v ∈ entries.set p (.inUse k' value) →
      Entry.inUse k v ∈ entries ∨ (k = key ∧ v = value) := by
    intro p k' hk' k v hm
    rcases List.mem_or_eq_of_mem_set hm with h | h
    · exact Or.inl h
    · cases h
      exact Or.inr ⟨hk', rfl⟩
  cases hfind : findSlot P entries key with
  | none =>
    exact ⟨false, h, entries, by simp [hashSetInternal, hslots, hfind], hentries, rfl, rfl,
      fun k v hm => Or.inl hm⟩
  | some p =>
    obtain ⟨s, hs, hstop⟩ := Probing.Scheme.stop_of_find hfind
    cases s with
    | inUse k' old =>
      -- the walk stopped here, so this is the key
      have hk' : k' = key := by
        simpa [Probing.Scheme.stopsAt, Entry.scheme, Entry.isNever, Entry.key?] using hstop
      exact ⟨true, { h with
          entries := some (entries.set p (.inUse k' value))
          destroyed := h.destroyed ++ [old] }, _, by simp [hashSetInternal, hslots, hfind, hs], rfl,
        List.length_set, rfl, hset p k' hk'⟩
    | never | removed =>
      exact ⟨true, { h with
          entries := some (entries.set p (.inUse key value))
          nentries := h.nentries + 1 }, _, by simp [hashSetInternal, hslots, hfind, hs], rfl,
        List.length_set, rfl, hset p key rfl⟩

/-- The rehash loop invents nothing. The induction is on the entries that are left. -/
theorem rehash_mem : ∀ (old : List (Entry V)) (h : Hash V) (entries : List (Entry V)),
    h.slots = some entries →
    ∃ ok h' entries', rehash P old h = some (ok, h') ∧ h'.entries = some entries' ∧
      entries'.length = entries.length ∧ h'.tableSize = h.tableSize ∧
      ∀ k v, Entry.inUse k v ∈ entries' → Entry.inUse k v ∈ entries ∨ Entry.inUse k v ∈ old := by
  intro old
  induction old with
  | nil =>
    intro h entries hslots
    exact ⟨true, h, entries, rfl, (Option.filter_eq_some_iff.mp hslots).1, rfl, rfl,
      fun k v hm => Or.inl hm⟩
  | cons s old ih =>
    intro h entries hslots
    cases s with
    | inUse key value =>
      obtain ⟨ok₁, h₁, entries₁, hset, he₁, hlen₁, hsize₁, hmem₁⟩ :=
        hashSetInternal_mem (P := P) hslots key value
      have hslots₁ : h₁.slots = some entries₁ := by
        have hlen : entries.length = h.tableSize := by
          simpa using (Option.filter_eq_some_iff.mp hslots).2
        rw [Hash.slots, he₁, Option.filter_some,
          if_pos (by simpa using (hlen₁.trans hlen).trans hsize₁.symm)]
      obtain ⟨ok₂, h₂, entries₂, hre, he₂, hlen₂, hsize₂, hmem₂⟩ := ih h₁ entries₁ hslots₁
      refine ⟨ok₁ && ok₂, h₂, entries₂, by simp [rehash, hset, hre], he₂, hlen₂.trans hlen₁,
        hsize₂.trans hsize₁, fun k v hm => ?_⟩
      rcases hmem₂ k v hm with h | h
      · rcases hmem₁ k v h with h | ⟨rfl, rfl⟩
        · exact Or.inl h
        · exact Or.inr (List.mem_cons_self ..)
      · exact Or.inr (List.mem_cons_of_mem _ h)
    | never | removed =>
      obtain ⟨ok₂, h₂, entries₂, hre, he₂, hlen₂, hsize₂, hmem₂⟩ := ih h entries hslots
      exact ⟨ok₂, h₂, entries₂, hre, he₂, hlen₂, hsize₂,
        fun k v hm => (hmem₂ k v hm).imp_right (List.mem_cons_of_mem _)⟩

/-- A resize of the cache's table keeps it ready, and invents nothing. -/
theorem resizeTo_eq {c : Cache V} {entries : List (Entry V)} (hc : c.Ready entries)
    (newSize : ℕ) :
    ∃ c' entries', c.resizeTo P true newSize = some (true, c') ∧ c'.Ready entries' ∧
      ∀ k v, Entry.inUse k v ∈ entries' → Entry.inUse k v ∈ entries := by
  have hslots : ∀ n, (c.hash.emptied n).slots = some (List.replicate n .never) := by
    intro n
    rw [Hash.slots, Hash.emptied, Option.filter_some, if_pos (by simp)]
  have hsize : minSize ≤ (if newSize < minSize then minSize else newSize) := by split <;> omega
  obtain ⟨ok, h', entries', hre, he, hlen, hts, hmem⟩ :=
    rehash_mem (P := P) entries _ _ (hslots (if newSize < minSize then minSize else newSize))
  refine ⟨{ hash := h', size := newSize }, entries', ?_, ⟨he, ?_, ?_⟩, fun k v hm => ?_⟩
  · simp [Cache.resizeTo, resizeTable, hc.slots_eq, hre]
  · rw [hlen, List.length_replicate]
    exact hts.symm
  · show minSize ≤ h'.tableSize
    rw [hts]
    exact hsize
  · rcases hmem k v hm with h | h
    · cases List.eq_of_mem_replicate h
    · exact h

/-- `cache_resize` keeps the cache ready; what it holds afterwards it held before, and a cache
    that does not grow is emptied. -/
theorem cacheResize_eq {c : Cache V} {entries : List (Entry V)} (hc : c.Ready entries)
    (newSize : ℕ) :
    ∃ c' entries', cacheResize P true c newSize = some (true, c') ∧ c'.Ready entries' ∧
      ∀ k v, Entry.inUse k v ∈ entries' → Entry.inUse k v ∈ entries ∧ c.size < newSize := by
  unfold cacheResize
  split
  · rename_i hgrow
    obtain ⟨c', entries', hres, hr, hmem⟩ := resizeTo_eq (P := P) hc newSize
    exact ⟨c', entries', hres, hr, fun k v hm => ⟨hmem k v hm, hgrow⟩⟩
  · obtain ⟨c₁, hinv, -, hr₁⟩ := cacheInvalidateInternal_eq hc
    obtain ⟨c', entries', hres, hr, hmem⟩ := resizeTo_eq (P := P) hr₁ newSize
    refine ⟨c', entries', by simp [hinv, hres], hr, fun k v hm => ?_⟩
    exact absurd (hmem k v hm) not_inUse_invalidated

/-! ## Runs, and how fresh a hit is

The specification is the history of the calls, as the map of the most recent values. A miss is
always right; a hit has to give the value of that map. -/

/-- A call of a cache.  Values may be NULL. -/
inductive CacheCall (V : Type) where
  | set (key : CString) (value : Option V)
  | get (key : CString)
  | del (key : CString)
  | invalidate
  | resize (newSize : ℕ)

/-- What a call of a cache returns. -/
inductive CacheReply (V : Type) where
  | bool (b : Bool)
  | lookup (hit : Bool) (value : Option V)
  deriving DecidableEq

/-- One call of a cache, its allocation succeeding. -/
def cacheStep (P : Platform) (c : Cache V) : CacheCall V → Option (CacheReply V × Cache V)
  | .set key value => (cacheSet P c key value).map fun r => (.bool r.1, r.2)
  | .get key => (cacheGet P c key).map fun r => (.lookup r.1 r.2, c)
  | .del key => (cacheDel P c key).map fun r => (.bool r.1, r.2)
  | .invalidate => (cacheInvalidate c).map fun r => (.bool r.1, r.2)
  | .resize newSize => (cacheResize P true c newSize).map fun r => (.bool r.1, r.2)

/-- The value of the most recent `cache_set` of each key, unless a `cache_del` of it or a
    `cache_invalidate` came after. -/
def cacheNext (M : CString → Option (Option V)) : CacheCall V → CString → Option (Option V)
  | .set key value => Function.update M key (some value)
  | .del key => Function.update M key none
  | .invalidate => fun _ => none
  | .get _ => M
  | .resize _ => M

/-- A hit gives the most recent value. -/
def freshReply (M : CString → Option (Option V)) : CacheCall V → CacheReply V → Prop
  | .get key, r => ∀ value, r = .lookup true value → M key = some value
  | _, _ => True

/-- Every entry in its home slot is up to date. -/
def Cache.Fresh (P : Platform) (entries : List (Entry V)) (M : CString → Option (Option V)) : Prop :=
  ∀ key value, entries[homeSlot P entries key]? = some (.inUse key value) → M key = some value

/-- The entry at `p`, if outside of its home slot, is up to date. -/
def Entry.UpToDateAt (P : Platform) (entries : List (Entry V)) (M : CString → Option (Option V))
    (p : ℕ) : Entry V → Prop
  | inUse key value => p ≠ homeSlot P entries key → M key = some value
  | _ => True

/-- Every entry outside of its home slot is up to date. -/
def Cache.UpToDate (P : Platform) (entries : List (Entry V)) (M : CString → Option (Option V)) :
    Prop :=
  ∀ p < entries.length, ∀ s ∈ entries[p]?, s.UpToDateAt P entries M p

/-- When the table is grown, the entries outside of their home slots are up to date. -/
def growsUpToDate (P : Platform) (c : Cache V) (M : CString → Option (Option V)) :
    CacheCall V → Prop
  | .resize newSize => c.size < newSize → ∀ entries ∈ c.hash.entries, Cache.UpToDate P entries M
  | _ => True

section Decidable

variable [DecidableEq V] (P : Platform) (entries : List (Entry V))
  (M : CString → Option (Option V))

instance (p : ℕ) (s : Entry V) : Decidable (s.UpToDateAt P entries M p) :=
  match s with
  | .inUse key value =>
    inferInstanceAs (Decidable (p ≠ homeSlot P entries key → M key = some value))
  | .never => .isTrue trivial
  | .removed => .isTrue trivial

instance : Decidable (Cache.UpToDate P entries M) :=
  inferInstanceAs (Decidable (∀ p < entries.length, ∀ s ∈ entries[p]?, s.UpToDateAt P entries M p))

instance (c : Cache V) (call : CacheCall V) : Decidable (growsUpToDate P c M call) :=
  match call with
  | .resize newSize => inferInstanceAs
    (Decidable (c.size < newSize → ∀ entries ∈ c.hash.entries, Cache.UpToDate P entries M))
  | .set _ _ => .isTrue trivial
  | .get _ => .isTrue trivial
  | .del _ => .isTrue trivial
  | .invalidate => .isTrue trivial

end Decidable

/-- Entries that were there before, and no other calls between. -/
theorem Cache.Fresh.of_mem {entries : List (Entry V)} {M : CString → Option (Option V)}
    (h : ∀ key value, Entry.inUse key value ∈ entries → M key = some value) :
    Cache.Fresh P entries M :=
  fun key value hk => h key value (List.mem_of_getElem? hk)

/-- With the entries outside of their home up to date too, all entries are. -/
theorem Cache.Fresh.all {entries : List (Entry V)} {M : CString → Option (Option V)}
    (hf : Cache.Fresh P entries M) (hu : Cache.UpToDate P entries M) {key : CString}
    {value : Option V} (hm : Entry.inUse key value ∈ entries) : M key = some value := by
  obtain ⟨p, hp⟩ := List.mem_iff_getElem?.mp hm
  by_cases hhome : p = homeSlot P entries key
  · exact hf key value (hhome ▸ hp)
  · exact hu p (List.getElem?_eq_some_iff.mp hp).1 _ hp hhome

/-- A hit reads a home slot. -/
theorem cacheGet_fresh {c : Cache V} {entries : List (Entry V)} {M : CString → Option (Option V)}
    (hc : c.Ready entries) (hf : Cache.Fresh P entries M) (key : CString) {value : Option V}
    (hget : cacheGet P c key = some (true, value)) : M key = some value := by
  rcases cacheGet_eq (P := P) hc key with ⟨v, hv, hg⟩ | hg
  · rw [hg] at hget
    cases hget
    exact hf key value hv
  · rw [hg] at hget
    cases hget

/-- A write of the home slot of `key` by `s`, and the map updated alike. -/
theorem Cache.Fresh.write {entries : List (Entry V)} {M : CString → Option (Option V)}
    (hf : Cache.Fresh P entries M) (key : CString) (s : Entry V) (w : Option (Option V))
    (hs : ∀ k v, s = .inUse k v → k = key ∧ w = some v) :
    Cache.Fresh P (entries.set (homeSlot P entries key) s) (Function.update M key w) := by
  intro k v hk
  have hhome : homeSlot P (entries.set (homeSlot P entries key) s) k = homeSlot P entries k := by
    simp only [homeSlot, List.length_set]
  rw [hhome, List.getElem?_set] at hk
  split at hk
  · -- the slot that was written: it holds what the map holds
    split at hk
    · obtain ⟨rfl, rfl⟩ := hs k v (Option.some.inj hk)
      rw [Function.update_self]
    · cases hk
  · rename_i hne
    have hkey : k ≠ key := by
      rintro rfl
      exact hne rfl
    rw [Function.update_of_ne hkey]
    exact hf k v hk

/-- One call keeps the cache fresh, when a growth finds it up to date. -/
theorem cacheStep_spec {c : Cache V} {M : CString → Option (Option V)}
    (hI : ∃ entries, c.Ready entries ∧ Cache.Fresh P entries M) (call : CacheCall V)
    (hgrow : growsUpToDate P c M call) :
    ∃ r c', cacheStep P c call = some (r, c') ∧ freshReply M call r ∧
      ∃ entries, c'.Ready entries ∧ Cache.Fresh P entries (cacheNext M call) := by
  obtain ⟨entries, hc, hf⟩ := hI
  cases call with
  | set key value =>
    obtain ⟨c', hset, -, hc'⟩ := cacheSet_eq (P := P) hc key value
    refine ⟨.bool true, c', by simp [cacheStep, hset], trivial, _, hc', ?_⟩
    refine hf.write key _ (some value) fun k v he => ?_
    cases he
    exact ⟨rfl, rfl⟩
  | get key =>
    rcases cacheGet_eq (P := P) hc key with ⟨v, hv, hget⟩ | hget
    · refine ⟨.lookup true v, c, by simp [cacheStep, hget], ?_, entries, hc, hf⟩
      intro value he
      cases he
      exact cacheGet_fresh hc hf key hget
    · refine ⟨.lookup false none, c, by simp [cacheStep, hget], ?_, entries, hc, hf⟩
      intro value he
      cases he
  | del key =>
    rcases cacheDel_eq (P := P) hc key with ⟨c', hdel, hc'⟩ | ⟨hdel, hno⟩
    · refine ⟨.bool true, c', by simp [cacheStep, hdel], trivial, _, hc', ?_⟩
      exact hf.write key .never none fun k v he => by cases he
    · refine ⟨.bool false, c, by simp [cacheStep, hdel], trivial, entries, hc, ?_⟩
      intro k v hk
      have hkey : k ≠ key := by
        rintro rfl
        exact hno v hk
      show Function.update M key none k = some v
      rw [Function.update_of_ne hkey]
      exact hf k v hk
  | invalidate =>
    obtain ⟨c', hinv, hc'⟩ := cacheInvalidate_eq hc
    exact ⟨.bool true, c', by simp [cacheStep, hinv], trivial, _, hc',
      Cache.Fresh.of_mem fun k v hm => absurd hm not_inUse_invalidated⟩
  | resize newSize =>
    obtain ⟨c', entries', hres, hc', hmem⟩ := cacheResize_eq (P := P) hc newSize
    refine ⟨.bool true, c', by simp [cacheStep, hres], trivial, entries', hc', ?_⟩
    refine Cache.Fresh.of_mem fun k v hm => ?_
    obtain ⟨hold, hlt⟩ := hmem k v hm
    exact hf.all (hgrow hlt entries hc.entries_eq) hold

/-- **Hits are fresh in every run whose growths find the displaced entries up to date.**

    The condition is about the cache before each `cache_resize` to a greater size, and about nothing
    else (`growsUpToDate`): an entry that is not in the home slot of its key has the value that was
    set last. A run that meets it is defined, and every hit in it gives the value of the most recent
    `cache_set` of its key, with no `cache_del` of the key and no `cache_invalidate` in between
    (`freshReply`); of misses nothing is said. -/
theorem cache_run_fresh (P : Platform) (garbage : ℕ) (calls : List (CacheCall V))
    (hgrow : Machine.Along (cacheStep P) cacheNext (growsUpToDate P) (cacheCreate garbage)
      (fun _ => none) calls) :
    ∃ rs c, Machine.run (cacheStep P) (cacheCreate garbage) calls = some (rs, c) ∧
      Machine.Follows cacheNext freshReply (fun _ => none) calls rs := by
  obtain ⟨rs, c, hrun, hfol, -⟩ := Machine.run_follows
    (fun c M call hI hok => cacheStep_spec (P := P) hI call hok) calls (cacheCreate garbage)
    (fun _ => none) ⟨_, cacheCreate_ready garbage, Cache.Fresh.of_mem fun k v hm => by
      cases List.eq_of_mem_replicate hm⟩ hgrow
  exact ⟨rs, c, hrun, hfol⟩

/-- `"j"` and `"k"`: different home slots among 10, the same among 14. -/
def keyJ : CString := ⟨[106], by decide⟩

def keyK : CString := ⟨[107], by decide⟩

/-- The run in which a value comes back after it was overwritten. -/
def staleCalls : List (CacheCall ℕ) :=
  [.set keyJ (some 1), .set keyK (some 2), .resize 14, .set keyK (some 3), .resize 20, .get keyK]

/-- **A hit that is not fresh**: the lookup gives the first value of `"k"`, not the second. -/
theorem cache_run_stale :
    ∃ rs c, Machine.run (cacheStep Platform.ieee) (cacheCreate 0) staleCalls = some (rs, c) ∧
      ¬ Machine.Follows cacheNext freshReply (fun _ => none) staleCalls rs := by
  have hrun : (Machine.run (cacheStep Platform.ieee) (cacheCreate 0) staleCalls).map Prod.fst
      = some [.bool true, .bool true, .bool true, .bool true, .bool true, .lookup true (some 2)] := by
    decide +kernel
  obtain ⟨⟨rs, c⟩, hr, rfl⟩ := Option.map_eq_some_iff.mp hrun
  refine ⟨_, c, hr, ?_⟩
  rintro ⟨-, -, -, -, -, hget, -⟩
  have h := hget (some 2) rfl
  simp [cacheNext] at h

/-- The same run without the second set of `"k"`: its second growth finds `"k"` outside of its home,
    but up to date. -/
theorem cache_run_fresh_twoGrowths :
    ∃ rs c, Machine.run (cacheStep Platform.ieee) (cacheCreate 0)
        [.set keyJ (some 1), .set keyK (some 2), .resize 14, .resize 20, .get keyK]
          = some (rs, c) ∧
      Machine.Follows cacheNext freshReply (fun _ => none)
        [.set keyJ (some 1), .set keyK (some 2), .resize 14, .resize 20, .get keyK] rs :=
  cache_run_fresh Platform.ieee 0 _ (by decide +kernel)

end Libfiu
