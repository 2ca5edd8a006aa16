/-
  The probing loops of hash.c with the counter that they have.

  `hash_get`, `_hash_set` and `hash_del` go over the slots with `for (int i = 0; i < h->table_size;
  i++)`: the counter is an `int`, the size a `size_t`.  `Hash` walks without a counter; this module
  puts it back, and says what it changes.

  1. **Program** — `IntLoops` has the functions of `Hash` once more, with the walk `findSlot` that is
     undefined where `i` is `INT_MAX` and goes on.  (Where a compiler lets it wrap, it is compared
     as a number above every table size, and the loop ends as after a complete probe.)

  2. **Condition** — `probes` are all walks of a call: its own, and one for each entry that
     `resize_table` puts in again.  `Fits` says that each of them ends within 2^31 slots from the
     home of its key.

  3. **Bridge** (`hashStep_eq`) — from a table between two calls, a call that fits is the call of
     `Hash`, and any other is undefined.  It is what entitles the results about `Hash` to speak of
     the code as long as no walk is longer; `fits_of_sets` gives 2^30 calls of `hash_set` for free.

  4. **Result** (`hash_run_is_map_iff`) — the runs in which the table is a finite map are those whose
     calls all fit.  Keys with one hash form one chain, and the search for a new key walks it
     (`colliding_not_fits`): with 2^31 of them in the table, the next one passes `INT_MAX`.

  The argument for the bridge is local. A table between two calls has a slot never used, so every
  walk ends somewhere; with the counter it ends there as well if that is near enough
  (`Scheme.findCounted_eq`), and is undefined otherwise. A call makes its own walk and at most one
  rehash, whose walks go over arrays that are themselves between two calls. So a call is one
  conjunction over its walks, and a run is one over its calls.
-/
import Libfiu.HashResize

namespace Libfiu

open Probing

variable {V : Type} (P : Platform)

/-- The values of an `int` from 0 on: `INT_MAX + 1`. -/
def intValues : ℕ := 2 ^ 31

theorem intValues_pos : 0 < intValues := Nat.two_pow_pos 31

/-- The call with the pointer that it stores. -/
def Call.stored : Call V → Call (Option V)
  | .set key value => .set key (some value)
  | .del key => .del key
  | .get key => .get key

namespace IntLoops

/-! ## The program

Only the walk is new. The functions are written out once more so that each can be read against the
source; the loop of `resize_table` over the old array counts in a `size_t`, and stays as it is. -/

/-- The walk of the probing loops, counted by `int i`: the inner `none` is the exit after a complete
    probe, the outer one the increment of `INT_MAX`. -/
def findSlot (entries : List (Entry V)) (key : CString) : Option (Option ℕ) :=
  (Entry.scheme P).findCounted intValues entries key

/-- `hash_get`. -/
def hashGet (h : Hash V) (key : CString) : Option (Option V) := do
  let entries ← h.slots
  match ← findSlot P entries key with
  | none => some none
  | some pos =>
    match entries[pos]? with
    | some (.inUse _ value) => some value
    | _ => some none

/-- `_hash_set`. -/
def hashSetInternal (h : Hash V) (key : CString) (value : Option V) : Option (Bool × Hash V) := do
  let entries ← h.slots
  match ← findSlot P entries key with
  | none => some (false, h)
  | some pos =>
    match ← entries[pos]? with
    | .inUse key' old =>
      some (true, { h with
        entries := some (entries.set pos (.inUse key' value))
        destroyed := h.destroyed ++ [old] })
    | _ =>
      some (true, { h with
        entries := some (entries.set pos (.inUse key value))
        nentries := h.nentries + 1 })

/-- The loop of `resize_table` over the old array, whose own counter is a `size_t`. -/
def rehash : List (Entry V) → Hash V → Option (Bool × Hash V)
  | [], h => some (true, h)
  | .inUse key value :: old, h => do
    let (ok, h) ← hashSetInternal P h key value
    let (oks, h) ← rehash old h
    some (ok && oks, h)
  | _ :: old, h => rehash old h

/-- `resize_table` of hash.c. -/
def resizeTable (malloc : Bool) (h : Hash V) (newSize : ℕ) : Option (Bool × Hash V) :=
  let newSize := if newSize < minSize then minSize else newSize
  if malloc then do
    let old ← h.slots
    let (_, h) ← rehash P old (h.emptied newSize)
    some (true, h)
  else some (false, { h with entries := none })

/-- `auto_resize_table`. -/
def autoResizeTable (malloc : Bool) (h : Hash V) : Option (Bool × Hash V) :=
  if floatRatio P (h.tableSize - h.nentries - h.nremoved) h.tableSize
      < P.double.round (3 / 10) then
    resizeTable P malloc h (h.nentries * 2)
  else if minSize < h.tableSize ∧
      floatRatio P h.nentries h.tableSize < P.double.round (3 / 10) then
    resizeTable P malloc h (h.nentries * 2)
  else some (true, h)

/-- `hash_set`. -/
def hashSet (malloc : Bool) (h : Hash V) (key : CString) (value : Option V) :
    Option (Bool × Hash V) := do
  let (r, h) ← hashSetInternal P h key value
  let (ok, h) ← autoResizeTable P malloc h
  if ok then some (r, h) else some (false, h)

/-- `hash_del`. -/
def hashDel (malloc : Bool) (h : Hash V) (key : CString) : Option (Bool × Hash V) := do
  let entries ← h.slots
  match ← findSlot P entries key with
  | none => some (false, h)
  | some pos =>
    match entries[pos]? with
    | some (.inUse _ value) => autoResizeTable P malloc (h.removeAt entries pos value)
    | _ => some (false, h)

/-- One call of a hash table, its allocation succeeding. -/
def hashStep (h : Hash V) : Call V → Option (Reply V × Hash V)
  | .set key value => (hashSet P true h key (some value)).map fun r => (.bool r.1, r.2)
  | .del key => (hashDel P true h key).map fun r => (.bool r.1, r.2)
  | .get key => (hashGet P h key).map fun p => (.ptr p, h)

/-! ## The walks of a call

The condition on a call is about the arrays in which it searches, the ones that a resize goes
through included, all of them known before the call. -/

/-- All walks of a call: its own one, and those of the resize that may follow. -/
def probes (h : Hash V) (call : Call V) : List (List (Entry V) × CString) :=
  (h.entries.getD [], call.key) ::
    (h.beforeResize P call.stored).elim [] (resizeProbes P)

/-- A walk meets its key, or a slot never used, within the values of the counter. -/
def Near (entries : List (Entry V)) (key : CString) : Prop :=
  (Entry.scheme P).Near intValues entries key

/-- Every walk of the call ends within the values of the counter. -/
def Fits (h : Hash V) (call : Call V) : Prop := ∀ w ∈ probes P h call, Near P w.1 w.2

/-- Every walk of the call, with its counter, stops at a slot: no loop makes a complete probe. -/
def ProbesStop (h : Hash V) (call : Call V) : Prop :=
  ∀ w ∈ probes P h call, ∃ pos, findSlot P w.1 w.2 = some (some pos)

/-! ## The functions with and without the counter

From a table in which a walk ends at all, the counter changes nothing as long as the walk is short,
and makes the call undefined otherwise. For `rehash` the induction is on the rest of the old array,
with one walk for each entry. -/

variable {P}

theorem findSlot_eq {entries : List (Entry V)} {key : CString}
    (hend : Libfiu.findSlot P entries key ≠ none) :
    (Near P entries key → findSlot P entries key = some (Libfiu.findSlot P entries key)) ∧
      (¬ Near P entries key → findSlot P entries key = none) := by
  have heq := Scheme.findCounted_eq (S := Entry.scheme P) intValues_pos hend
  constructor
  · exact fun hn => heq.trans (if_pos hn)
  · exact fun hn => heq.trans (if_neg hn)

/-- The slots of a table are its array. -/
theorem entries_of_slots {h : Hash V} {entries : List (Entry V)} (hs : h.slots = some entries) :
    h.entries = some entries := by
  rw [Hash.slots, Option.filter_eq_some_iff] at hs
  exact hs.1

/-- `_hash_set`, from a table in which its walk ends. -/
theorem hashSetInternal_eq {h : Hash V} {entries : List (Entry V)} {key : CString}
    (hs : h.slots = some entries) (hend : Libfiu.findSlot P entries key ≠ none)
    (value : Option V) :
    (Near P entries key → hashSetInternal P h key value = Libfiu.hashSetInternal P h key value) ∧
      (¬ Near P entries key → hashSetInternal P h key value = none) := by
  obtain ⟨hnear, hfar⟩ := findSlot_eq hend
  constructor
  · intro hn
    unfold hashSetInternal Libfiu.hashSetInternal
    rw [hs]
    show (findSlot P entries key).bind _ = _
    rw [hnear hn]
    rfl
  · intro hn
    simp only [hashSetInternal, hs, hfar hn, Option.bind_eq_bind, Option.bind_some,
      Option.bind_none]

/-- A `_hash_set` that returns true has found a slot. -/
theorem findSlot_of_set {h h' : Hash V} {key : CString} {value : Option V}
    (hset : Libfiu.hashSetInternal P h key value = some (true, h')) :
    ∃ entries, h.slots = some entries ∧ Libfiu.findSlot P entries key ≠ none := by
  cases hs : h.slots with
  | none => simp [Libfiu.hashSetInternal, hs] at hset
  | some entries =>
    refine ⟨entries, rfl, fun hnone => ?_⟩
    simp [Libfiu.hashSetInternal, hs, hnone] at hset

/-- The rehash loop, where every `_hash_set` of `Hash` finds a slot. By induction on the entries
    that are left, into any array. -/
theorem rehash_eq : ∀ (old : List (Entry V)) {h h' : Hash V},
    Libfiu.rehash P old h = some (true, h') →
    ((∀ w ∈ rehashProbes P old h, Near P w.1 w.2) → rehash P old h = some (true, h')) ∧
      (¬ (∀ w ∈ rehashProbes P old h, Near P w.1 w.2) → rehash P old h = none) := by
  intro old
  induction old with
  | nil =>
    intro h h' hre
    exact ⟨fun _ => hre, fun hno => absurd (fun w hw => absurd hw List.not_mem_nil) hno⟩
  | cons s old ih =>
    intro h h' hre
    cases s with
    | never | removed => exact ih hre
    | inUse key value =>
      simp only [Libfiu.rehash, Option.bind_eq_bind, Option.bind_eq_some_iff, Option.some.injEq,
        Prod.mk.injEq, Bool.and_eq_true] at hre
      obtain ⟨⟨ok, h₁⟩, hset, ⟨oks, h₂⟩, hrest, ⟨rfl, rfl⟩, rfl⟩ := hre
      obtain ⟨entries, hs, hend⟩ := findSlot_of_set hset
      obtain ⟨hnear, hfar⟩ := hashSetInternal_eq hs hend value
      obtain ⟨hall, hsome⟩ := ih hrest
      -- the first walk, and those of the rest of the loop
      have hprobes : (∀ w ∈ rehashProbes P (.inUse key value :: old) h, Near P w.1 w.2) ↔
          Near P entries key ∧ ∀ w ∈ rehashProbes P old h₁, Near P w.1 w.2 := by
        rw [rehashProbes, entries_of_slots hs, hset, List.forall_mem_cons]
        rfl
      rw [hprobes]
      constructor
      · rintro ⟨hn, hrest'⟩
        simp [rehash, hnear hn, hset, hall hrest']
      · intro hno
        by_cases hn : Near P entries key
        · simp [rehash, hnear hn, hset, hsome fun h => hno ⟨hn, h⟩]
        · simp [rehash, hfar hn]

/-- `auto_resize_table` of a well-formed table. -/
theorem autoResizeTable_eq {h : Hash V} {entries : List (Entry V)} (hw : h.WF P entries) :
    ((∀ w ∈ resizeProbes P h, Near P w.1 w.2) →
        autoResizeTable P true h = Libfiu.autoResizeTable P true h) ∧
      (¬ (∀ w ∈ resizeProbes P h, Near P w.1 w.2) → autoResizeTable P true h = none) := by
  have hsplit : autoResizeTable P true h = if needsResize P h.tableSize h.nentries h.nremoved then
      resizeTable P true h (h.nentries * 2) else some (true, h) := needsResize_branches ..
  rw [hsplit, Libfiu.autoResizeTable_eq, resizeProbes, hw.entries_eq, Option.getD_some]
  by_cases hneeds : needsResize P h.tableSize h.nentries h.nremoved = true
  · obtain ⟨h', entries', hre, -⟩ :=
      rehash_emptied hw (le_max_left minSize (h.nentries * 2)) (nentries_lt_double h.nentries)
    obtain ⟨hall, hsome⟩ := rehash_eq entries hre
    have hsize : (if h.nentries * 2 < minSize then minSize else h.nentries * 2)
        = max minSize (h.nentries * 2) := by
      split <;> omega
    simp only [if_pos hneeds]
    constructor
    · intro hn
      simp [resizeTable, Libfiu.resizeTable, hsize, hw.slots_eq, hall hn, hre]
    · intro hno
      simp [resizeTable, hsize, hw.slots_eq, hsome hno]
  · simp only [if_neg hneeds]
    exact ⟨fun _ => trivial, fun hno => absurd (fun w hw => absurd hw List.not_mem_nil) hno⟩

/-! ## Calls

A table between two calls has a slot never used, so all walks of a call end; what remains is whether
they end soon enough. -/

/-- Between two calls the walk for a key ends, however long it is. -/
theorem findSlot_ends {h : Hash V} {entries : List (Entry V)} (hw : h.WF P entries)
    (hroom : Entry.never ∈ entries) (key : CString) : Libfiu.findSlot P entries key ≠ none :=
  Scheme.find_ne_none hw.valid ⟨_, hroom, rfl⟩ key

/-- A call fits when its own walk does and those of the resize do. -/
theorem fits_iff {h : Hash V} {entries : List (Entry V)} (hw : h.WF P entries) (call : Call V) :
    Fits P h call ↔ Near P entries call.key ∧
      ∀ w ∈ (h.beforeResize P call.stored).elim [] (resizeProbes P), Near P w.1 w.2 := by
  rw [Fits, probes, hw.entries_eq, List.forall_mem_cons]
  rfl

/-- `hash_get` has one walk, its own. -/
theorem hashGet_eq {h : Hash V} {entries : List (Entry V)} (hw : h.WF P entries)
    (hroom : Entry.never ∈ entries) (key : CString) :
    (Near P entries key → hashGet P h key = Libfiu.hashGet P h key) ∧
      (¬ Near P entries key → hashGet P h key = none) := by
  obtain ⟨hnear, hfar⟩ := findSlot_eq (findSlot_ends hw hroom key)
  constructor
  · intro hn
    unfold hashGet Libfiu.hashGet
    rw [hw.slots_eq]
    show (findSlot P entries key).bind _ = _
    rw [hnear hn]
    rfl
  · intro hn
    simp only [hashGet, hw.slots_eq, hfar hn, Option.bind_eq_bind, Option.bind_some,
      Option.bind_none]

/-- `hash_set` has its own walk, and those of the resize that may follow. -/
theorem hashSet_eq {h : Hash V} {entries : List (Entry V)} (hw : h.WF P entries)
    (hroom : Entry.never ∈ entries) (key : CString) (value : V) :
    (Fits P h (.set key value) →
        hashSet P true h key (some value) = Libfiu.hashSet P true h key (some value)) ∧
      (¬ Fits P h (.set key value) → hashSet P true h key (some value) = none) := by
  obtain ⟨hset, hunset⟩ := hashSetInternal_eq hw.slots_eq (findSlot_ends hw hroom key) (some value)
  have hspec := hashMallocStep_spec hw hroom (.set key (some value))
  rcases hset' : Libfiu.hashSetInternal P h key (some value) with _ | ⟨r, h₁⟩
  · have hbefore : h.beforeResize P (.set key (some value)) = none := by
      rw [Hash.beforeResize, hset']
      rfl
    rw [hbefore] at hspec
    cases hspec.1
  · have hbefore : h.beforeResize P (.set key (some value)) = some h₁ := by
      rw [Hash.beforeResize, hset']
      rfl
    rw [hbefore] at hspec
    obtain ⟨entries₁, hw₁, -⟩ := hspec
    obtain ⟨hresize, hstuck⟩ := autoResizeTable_eq hw₁
    rw [fits_iff hw, Call.stored, hbefore]
    constructor
    · rintro ⟨hn, hrest⟩
      simp [hashSet, Libfiu.hashSet, hset hn, hset', hresize hrest]
    · intro hno
      by_cases hn : Near P entries key
      · simp [hashSet, hset hn, hset', hstuck fun hrest => hno ⟨hn, hrest⟩]
      · simp [hashSet, hunset hn]

/-- `hash_del` likewise; when the key is not there, nothing follows. -/
theorem hashDel_eq {h : Hash V} {entries : List (Entry V)} (hw : h.WF P entries)
    (hroom : Entry.never ∈ entries) (key : CString) :
    (Fits P h (.del key) → hashDel P true h key = Libfiu.hashDel P true h key) ∧
      (¬ Fits P h (.del key) → hashDel P true h key = none) := by
  obtain ⟨hnear, hfar⟩ := findSlot_eq (findSlot_ends hw hroom key)
  rw [fits_iff hw, Call.stored, Call.key]
  by_cases hmem : ∃ value, Entry.inUse key value ∈ entries
  · obtain ⟨value, hmem⟩ := hmem
    obtain ⟨p, hp⟩ := List.mem_iff_getElem?.mp hmem
    have hfind := findSlot_present hw.valid hp
    have hbefore : h.beforeResize P (.del key) = some (h.removeAt entries p value) := by
      simp [Hash.beforeResize, hw.slots_eq, hfind, hp]
    obtain ⟨hresize, hstuck⟩ := autoResizeTable_eq (removeAt_spec hw hp).1
    rw [hbefore]
    constructor
    · rintro ⟨hn, hrest⟩
      simp [hashDel, Libfiu.hashDel, hw.slots_eq, hnear hn, hfind, hp, hresize hrest]
    · intro hno
      by_cases hn : Near P entries key
      · simp [hashDel, hw.slots_eq, hnear hn, hfind, hp, hstuck fun hrest => hno ⟨hn, hrest⟩]
      · simp [hashDel, hw.slots_eq, hfar hn]
  · obtain ⟨p, hfind, hp, -⟩ := findSlot_absent (P := P) hroom fun v hv => hmem ⟨v, hv⟩
    have hbefore : h.beforeResize P (.del key) = none := by
      simp [Hash.beforeResize, hw.slots_eq, hfind, hp]
    rw [hbefore]
    constructor
    · rintro ⟨hn, -⟩
      simp [hashDel, Libfiu.hashDel, hw.slots_eq, hnear hn, hfind, hp]
    · intro hno
      have hn : ¬ Near P entries key := fun hn => hno ⟨hn, fun w hw => absurd hw List.not_mem_nil⟩
      simp [hashDel, hw.slots_eq, hfar hn]

/-- **One call**, from a table between two calls: if it fits it is the call of `Hash`, and otherwise it
    is undefined. -/
theorem hashStep_eq {h : Hash V} (hr : h.Ready P) (call : Call V) :
    (Fits P h call → hashStep P h call = Libfiu.hashStep P h call) ∧
      (¬ Fits P h call → hashStep P h call = none) := by
  obtain ⟨entries, hw, hroom⟩ := hr
  cases call with
  | get key =>
    obtain ⟨heq, hnone⟩ := hashGet_eq hw hroom key
    have hfits : Fits P h (.get key) ↔ Near P entries key := by
      rw [fits_iff hw]
      exact and_iff_left fun w hw => absurd hw List.not_mem_nil
    rw [hfits]
    exact ⟨fun hn => by rw [hashStep, Libfiu.hashStep, heq hn],
      fun hno => by rw [hashStep, hnone hno, Option.map_none]⟩
  | set key value =>
    obtain ⟨heq, hnone⟩ := hashSet_eq hw hroom key value
    exact ⟨fun hn => by rw [hashStep, Libfiu.hashStep, heq hn],
      fun hno => by rw [hashStep, hnone hno, Option.map_none]⟩
  | del key =>
    obtain ⟨heq, hnone⟩ := hashDel_eq hw hroom key
    exact ⟨fun hn => by rw [hashStep, Libfiu.hashStep, heq hn],
      fun hno => by rw [hashStep, hnone hno, Option.map_none]⟩

/-- A call fits exactly when all its loops, with their counter, stop at a slot. -/
theorem fits_iff_probesStop {h : Hash V} {call : Call V} : Fits P h call ↔ ProbesStop P h call :=
  forall_congr' fun _ => imp_congr_right fun _ =>
    (Scheme.findCounted_eq_some_iff intValues_pos).symm

/-- **A call is a step of the map**, if it fits. -/
theorem hashStep_fits {h : Hash V} {M : CString → Option V} (ht : h.Table P M) {call : Call V}
    (hfits : Fits P h call) :
    ∃ r h', hashStep P h call = some (r, h') ∧ mapReply M call r ∧ h'.Table P (mapNext M call) := by
  obtain ⟨r, h', hs, hreply, ht'⟩ := hashStep_spec ht call
  obtain ⟨entries, hw, -, hroom⟩ := ht
  exact ⟨r, h', by rw [(hashStep_eq ⟨entries, hw, hroom⟩ call).1 hfits, hs], hreply, ht'⟩

/-- A call that is defined fits. -/
theorem fits_of_hashStep {h h' : Hash V} {M : CString → Option V} (ht : h.Table P M)
    {call : Call V} {r : Reply V} (hs : hashStep P h call = some (r, h')) :
    Fits P h call ∧ h'.Table P (mapNext M call) := by
  have hfits : Fits P h call := by
    by_contra hno
    obtain ⟨entries, hw, -, hroom⟩ := ht
    rw [(hashStep_eq ⟨entries, hw, hroom⟩ call).2 hno] at hs
    cases hs
  obtain ⟨r', t, hs', -, ht'⟩ := hashStep_fits ht hfits
  cases hs.symm.trans hs'
  exact ⟨hfits, ht'⟩

/-! ## Runs

As long as all calls fit, the runs are those of `Hash`, which are those of the map. At the first
call that does not fit the run is undefined. -/

/-- Every call of the run is defined, each `hash_set` returns true, each `hash_del` tells whether the
    key was present, and each `hash_get` returns the last value that was set and not deleted. -/
def RunsAsMap (P : Platform) (calls : List (Call V)) : Prop :=
  ∃ rs h, Machine.run (hashStep P) hashCreate calls = some (rs, h) ∧
    Machine.Follows mapNext mapReply (fun _ => none) calls rs

/-- A run of calls that all fit, with the table that it leaves. -/
theorem run_of_fits {calls : List (Call V)}
    (hfits : Machine.Guarded (hashStep P) (Fits P) hashCreate calls) :
    ∃ rs h, Machine.run (hashStep P) hashCreate calls = some (rs, h) ∧
      Machine.Follows mapNext mapReply (fun _ => none) calls rs ∧
      h.Table P (calls.foldl mapNext fun _ => none) := by
  exact Machine.run_follows (R := fun h M => h.Table P M)
    (fun h M call ht hfit => hashStep_fits ht hfit) calls hashCreate (fun _ => none)
    hashCreate_table (hfits.along _)

/-- **Exactly when the table is a finite map**, for every hash function and every run: when each
    walk of each call, those of a resize included, meets its key or a slot never used among the
    first 2^31 slots.  In these runs, and in no others, all probing loops stop at a slot. -/
theorem hash_run_is_map_iff (P : Platform) (calls : List (Call V)) :
    (RunsAsMap P calls ↔ Machine.Guarded (hashStep P) (Fits P) hashCreate calls) ∧
      (RunsAsMap P calls ↔ Machine.Guarded (hashStep P) (ProbesStop P) hashCreate calls) := by
  have hiff : RunsAsMap P calls ↔ Machine.Guarded (hashStep P) (Fits P) hashCreate calls := by
    constructor
    · rintro ⟨rs, h, hrun, -⟩
      exact Machine.guarded_of_run (J := fun h => ∃ M, h.Table P M)
        (fun ⟨M, ht⟩ hs => (fits_of_hashStep ht hs).imp_right fun ht' => ⟨_, ht'⟩) calls
        ⟨_, hashCreate_table⟩ hrun
    · intro hfits
      obtain ⟨rs, h, hrun, hfol, -⟩ := run_of_fits hfits
      exact ⟨rs, h, hrun, hfol⟩
  have hsame : Fits (V := V) P = ProbesStop P :=
    funext fun _ => funext fun _ => propext fits_iff_probesStop
  exact ⟨hiff, hsame ▸ hiff⟩

/-! ## Runs that always fit

A table has ten slots or twice the entries that it had when it was rebuilt, and a walk is never
longer than its table. So no walk passes the counter before there are 2^30 entries. -/

/-- In a table of no more slots than the counter has values, every walk that ends fits. -/
theorem near_of_small {h : Hash V} {entries : List (Entry V)} {key : CString}
    (hs : h.slots = some entries) (hsize : h.tableSize ≤ intValues)
    (hend : Libfiu.findSlot P entries key ≠ none) : Near P entries key := by
  rw [Hash.slots, Option.filter_eq_some_iff] at hs
  have hlen : entries.length = h.tableSize := by simpa using hs.2
  exact Scheme.near_of_length_le (hlen.trans_le hsize) hend

/-- `_hash_set` keeps the array's size. -/
theorem hashSetInternal_tableSize {h h' : Hash V} {key : CString} {value : Option V} {r : Bool}
    (hset : Libfiu.hashSetInternal P h key value = some (r, h')) : h'.tableSize = h.tableSize := by
  simp only [Libfiu.hashSetInternal, Option.bind_eq_bind, Option.bind_eq_some_iff] at hset
  obtain ⟨entries, -, hset⟩ := hset
  split at hset
  · cases hset
    rfl
  · obtain ⟨s, -, hset⟩ := Option.bind_eq_some_iff.mp hset
    split at hset
    · cases hset
      rfl
    · cases hset
      rfl

/-- The walks of a rehash into a small array. -/
theorem rehash_near : ∀ (old : List (Entry V)) {h h' : Hash V}, h.tableSize ≤ intValues →
    Libfiu.rehash P old h = some (true, h') → ∀ w ∈ rehashProbes P old h, Near P w.1 w.2 := by
  intro old
  induction old with
  | nil => exact fun _ _ w hw => absurd hw List.not_mem_nil
  | cons s old ih =>
    intro h h' hsize hre
    cases s with
    | never | removed => exact ih hsize hre
    | inUse key value =>
      simp only [Libfiu.rehash, Option.bind_eq_bind, Option.bind_eq_some_iff, Option.some.injEq,
        Prod.mk.injEq, Bool.and_eq_true] at hre
      obtain ⟨⟨ok, h₁⟩, hset, ⟨oks, h₂⟩, hrest, ⟨rfl, rfl⟩, rfl⟩ := hre
      obtain ⟨entries, hs, hend⟩ := findSlot_of_set hset
      rw [rehashProbes, entries_of_slots hs, hset, List.forall_mem_cons]
      refine ⟨near_of_small hs hsize hend, ih ?_ hrest⟩
      rw [hashSetInternal_tableSize hset]
      exact hsize

/-- The walks of a resize fit, and the table that it leaves is small, when there are few entries. -/
theorem resize_small {h : Hash V} {entries : List (Entry V)} (hw : h.WF P entries)
    (hn : h.nentries * 2 ≤ intValues) (hsize : h.tableSize ≤ intValues) :
    (∀ w ∈ resizeProbes P h, Near P w.1 w.2) ∧
      ∃ h', Libfiu.autoResizeTable P true h = some (true, h') ∧ h'.tableSize ≤ intValues ∧
        h'.nentries = h.nentries := by
  have hnew : max minSize (h.nentries * 2) ≤ intValues := max_le (by decide) hn
  rw [Libfiu.autoResizeTable_eq, resizeProbes, hw.entries_eq, Option.getD_some]
  by_cases hneeds : needsResize P h.tableSize h.nentries h.nremoved = true
  · rw [if_pos hneeds, if_pos hneeds]
    obtain ⟨h₁, entries₁, hre, -⟩ :=
      rehash_emptied hw (le_max_left minSize (h.nentries * 2)) (nentries_lt_double h.nentries)
    obtain ⟨h', entries', hres, -, -, -, -, hsize', hn', -⟩ :=
      resizeTable_spec hw (nentries_lt_double h.nentries)
    exact ⟨rehash_near entries hnew hre, h', hres, hsize'.trans_le hnew, hn'⟩
  · rw [if_neg hneeds, if_neg hneeds]
    exact ⟨fun w hw => absurd hw List.not_mem_nil, h, rfl, hsize, rfl⟩

/-- The number of calls of `hash_set`. -/
def sets : List (Call V) → ℕ
  | [] => 0
  | .set _ _ :: calls => sets calls + 1
  | _ :: calls => sets calls

/-- A small table stays small while there are few calls of `hash_set`. -/
theorem call_small {h : Hash V} {entries : List (Entry V)} (hw : h.WF P entries)
    (hroom : Entry.never ∈ entries) (call : Call V)
    (hn : (h.nentries + sets [call]) * 2 ≤ intValues) (hsize : h.tableSize ≤ intValues) :
    Fits P h call ∧ ∀ r h', hashStep P h call = some (r, h') →
      h'.tableSize ≤ intValues ∧ h'.nentries ≤ h.nentries + sets [call] := by
  have hstep : Libfiu.hashStep P h call = hashMallocStep P h (true, call.stored) := by
    cases call <;> rfl
  have hspec := hashMallocStep_spec hw hroom call.stored
  have hnear := near_of_small hw.slots_eq hsize (findSlot_ends hw hroom call.key)
  have hfits : Fits P h call ∧ ∀ r h', Libfiu.hashStep P h call = some (r, h') →
      h'.tableSize ≤ intValues ∧ h'.nentries ≤ h.nentries + sets [call] := by
    rw [fits_iff hw, hstep]
    rcases hbefore : h.beforeResize P call.stored with _ | h₁
    · rw [hbefore] at hspec
      obtain ⟨-, r, hr⟩ := hspec
      refine ⟨⟨hnear, fun w hw => absurd hw List.not_mem_nil⟩, fun r' h' hs => ?_⟩
      cases (hr true).symm.trans hs
      exact ⟨hsize, Nat.le_add_right _ _⟩
    · rw [hbefore] at hspec
      obtain ⟨entries₁, hw₁, hsize₁, hcounts, hs₁⟩ := hspec
      have hmore : h₁.nentries ≤ h.nentries + sets [call] := by
        cases call with
        | get key => cases hcounts
        | set key value =>
          rw [Call.stored, Hash.countsAfter, Option.some.injEq, Prod.mk.injEq] at hcounts
          have : sets [Call.set key value] = 1 := rfl
          obtain ⟨hcount, -⟩ := hcounts
          split at hcount
          · omega
          · omega
        | del key =>
          rw [Call.stored, Hash.countsAfter] at hcounts
          split at hcounts
          · rw [Option.some.injEq, Prod.mk.injEq] at hcounts
            omega
          · cases hcounts
      obtain ⟨hwalks, h', hauto, hsize', hn'⟩ := resize_small hw₁ (by omega) (hsize₁.trans_le hsize)
      refine ⟨⟨hnear, hwalks⟩, fun r t hs => ?_⟩
      rw [hs₁, hauto] at hs
      cases hs
      exact ⟨hsize', hn'.trans_le hmore⟩
  refine ⟨hfits.1, fun r h' hs => hfits.2 r h' ?_⟩
  rw [← (hashStep_eq ⟨entries, hw, hroom⟩ call).1 hfits.1, hs]

/-- **Runs of at most 2^30 calls of `hash_set` fit**, whatever the hash function is: no table of
    such a run has more than 2^31 slots. By induction on the calls, the count of those that are left
    being the slack. -/
theorem fits_of_sets : ∀ (calls : List (Call V)) {h : Hash V}, (∃ M, h.Table P M) →
    (h.nentries + sets calls) * 2 ≤ intValues → h.tableSize ≤ intValues →
    Machine.Guarded (hashStep P) (Fits P) h calls := by
  intro calls
  induction calls with
  | nil => exact fun _ _ _ => trivial
  | cons call calls ih =>
    rintro h ⟨M, ht⟩ hn hsize
    have hsets : sets (call :: calls) = sets [call] + sets calls := by
      cases call <;> simp [sets, Nat.add_comm]
    have ht' := ht
    obtain ⟨entries, hw, -, hroom⟩ := ht'
    obtain ⟨hfits, hnext⟩ := call_small hw hroom call (by omega) hsize
    refine ⟨hfits, fun r hr => ?_⟩
    obtain ⟨hsize', hn'⟩ := hnext r.1 r.2 hr
    exact ih ⟨_, (fits_of_hashStep ht hr).2⟩ (by omega) hsize'

/-- The table is a finite map in every run of at most 2^30 calls of `hash_set`. -/
theorem runsAsMap_of_sets {calls : List (Call V)} (hsets : sets calls ≤ 2 ^ 30) :
    RunsAsMap P calls := by
  refine (hash_run_is_map_iff P calls).1.mpr (fits_of_sets calls ⟨_, hashCreate_table⟩ ?_
    (show minSize ≤ intValues by decide))
  show (0 + sets calls) * 2 ≤ 2 ^ 31
  omega

/-! ## Runs that do not

The condition is no formality: with keys of one hash the table is one chain, and its length is the
number of entries. The argument counts slots and never computes the run. -/

/-- **Keys with one hash**: when 2^31 of them are in use, the walk for a new key passes `INT_MAX`. -/
theorem colliding_not_fits {h : Hash V} {entries : List (Entry V)} (hw : h.WF P entries)
    (hhash : ∀ key key', P.murmurhash2 key = P.murmurhash2 key') (hmany : intValues ≤ h.nentries)
    {call : Call V} (hno : ∀ value, Entry.inUse call.key value ∉ entries) : ¬ Fits P h call := by
  rw [fits_iff hw]
  rintro ⟨hnear, -⟩
  refine Scheme.not_near_of_colliding hw.valid (fun key => hhash key call.key) ?_ ?_ hnear
  · intro s hs hkey
    obtain ⟨value, rfl⟩ := Entry.key?_eq_some.mp hkey
    exact hno value hs
  · rw [hw.nentries_eq] at hmany
    refine hmany.trans_eq (congrFun (congrArg _ (funext fun s => ?_)) entries)
    cases s <;> rfl

/-- The calls of `hash_set` for the first `n` keys of a sequence. -/
def setsOf (keys : ℕ → CString) (n : ℕ) : List (Call Unit) :=
  (List.range n).map fun i => .set (keys i) ()

/-- One key more is one call more. -/
theorem setsOf_succ (keys : ℕ → CString) (n : ℕ) :
    setsOf keys (n + 1) = setsOf keys n ++ [.set (keys n) ()] := by
  rw [setsOf, List.range_succ, List.map_append]
  rfl

/-- What the map holds after them. -/
theorem setsOf_map {keys : ℕ → CString} (n : ℕ) (key : CString) :
    (setsOf keys n).foldl mapNext (fun _ => none) key = some () ↔ ∃ i < n, keys i = key := by
  induction n with
  | zero => simp [setsOf]
  | succ n ih =>
    rw [setsOf_succ, List.foldl_append]
    show Function.update ((setsOf keys n).foldl mapNext fun _ => none) (keys n) (some ()) key
      = some () ↔ _
    by_cases hkey : key = keys n
    · subst hkey
      exact iff_of_true (Function.update_self ..) ⟨n, Nat.lt_succ_self n, rfl⟩
    · rw [Function.update_of_ne hkey, ih]
      constructor
      · rintro ⟨i, hi, rfl⟩
        exact ⟨i, Nat.lt_succ_of_lt hi, rfl⟩
      · rintro ⟨i, hi, rfl⟩
        exact ⟨i, Nat.lt_of_le_of_ne (Nat.le_of_lt_succ hi) fun he => hkey (by rw [he]), rfl⟩

/-- A table has as many entries as it holds keys. -/
theorem le_nentries {h : Hash Unit} {M : CString → Option Unit} (ht : h.Table P M)
    {keys : ℕ → CString} (hinj : Function.Injective keys) {n : ℕ}
    (hheld : ∀ i < n, M (keys i) = some ()) : n ≤ h.nentries := by
  obtain ⟨entries, hw, hM, -⟩ := ht
  have hnodup : ((List.range n).map fun i => Entry.inUse (keys i) (some ())).Nodup := by
    refine List.Nodup.map (fun i j hij => hinj ?_) List.nodup_range
    injection hij
  have hsub : ((List.range n).map fun i => Entry.inUse (keys i) (some ())) ⊆
      entries.filter Entry.isInUse := by
    intro s hs
    obtain ⟨i, hi, rfl⟩ := List.mem_map.mp hs
    refine List.mem_filter.mpr ⟨(hM (keys i) (some ())).mpr ⟨by simp, ?_⟩, rfl⟩
    exact hheld i (List.mem_range.mp hi)
  have hle := (List.subperm_of_subset hnodup hsub).length_le
  rw [List.length_map, List.length_range, ← List.countP_eq_length_filter] at hle
  rw [hw.nentries_eq]
  exact hle

/-- **One key too many**: of pairwise different keys with one hash, 2^31 can be set, and setting
    another one is undefined. -/
theorem not_runsAsMap_of_colliding {keys : ℕ → CString} (hinj : Function.Injective keys)
    (hhash : ∀ key key', P.murmurhash2 key = P.murmurhash2 key') {n : ℕ} (hn : intValues ≤ n) :
    ¬ RunsAsMap P (setsOf keys (n + 1)) := by
  intro hmap
  have hfits := (hash_run_is_map_iff P _).1.mp hmap
  rw [setsOf_succ] at hfits
  obtain ⟨rs, h, hrun, -, ht⟩ := run_of_fits hfits.take
  have hmany : n ≤ h.nentries :=
    le_nentries ht hinj fun i hi => (setsOf_map n (keys i)).mpr ⟨i, hi, rfl⟩
  obtain ⟨entries, hw, hM, -⟩ := ht
  refine colliding_not_fits hw hhash (hn.trans hmany) (fun value hmem => ?_) (hfits.last hrun)
  -- the new key is none of those that the map holds
  obtain ⟨hne, hheld⟩ := (hM _ value).mp hmem
  obtain ⟨u, rfl⟩ := Option.ne_none_iff_exists'.mp hne
  obtain ⟨i, hi, hkeys⟩ := (setsOf_map n _).mp hheld
  exact absurd (hinj hkeys) (Nat.ne_of_lt hi)

/-- **The counter overflows**: the keys `""`, `"a"`, `"aa"`, … with a hash function that is constant. -/
theorem hash_run_overflows :
    ¬ RunsAsMap { Platform.ieee with murmurhash2 := fun _ => 0 } (setsOf letters (2 ^ 31 + 1)) := by
  refine not_runsAsMap_of_colliding (fun m n h => ?_) (fun _ _ => rfl) (le_refl intValues)
  have hlen := congrArg CString.strlen h
  simpa [letters, CString.strlen] using hlen

end IntLoops

end Libfiu
