/-
  When the hash table of hash.c resizes, and what becomes of it then.

  `hash_set` and `hash_del` change the table and then call `auto_resize_table`, which decides by the
  counters and the size alone (`needsResize`).  `Hash.beforeResize` is the table that it is called
  on, and `hashMallocStep_spec` says of each call what that table is.

  * **The load** (`hash_run_load`): if ratios are compared exactly, at least 30% of the slots were
    never used after every call, and at least 30% are in use, or the table has its minimal size.
    Both thresholds rebuild to twice the entries, which is in between.

  * **The allocation** (`hash_call_atomic_iff`): `resize_table` overwrites `h->entries` before it looks
    whether `malloc` returned NULL, when the entry was already written or destroyed.  So a call is
    atomic exactly when it does not resize or the allocation succeeds.

  Values may be NULL here.

  The two results need opposite things of a resize: the load wants to know what its thresholds say,
  whatever the hash function is, and the allocation wants to know whether there is a resize at all.
  Both start from the table in front of it, so that is where the calls are taken apart.
-/
import Libfiu.HashSpec

namespace Libfiu

variable {V : Type} {P : Platform}

/-- One call of a hash table, with the outcome of the allocation in `resize_table`. -/
def hashMallocStep (P : Platform) (h : Hash V) :
    Bool × Call (Option V) → Option (Reply V × Hash V)
  | (malloc, .set key value) => (hashSet P malloc h key value).map fun r => (.bool r.1, r.2)
  | (malloc, .del key) => (hashDel P malloc h key).map fun r => (.bool r.1, r.2)
  | (_, .get key) => (hashGet P h key).map fun p => (.ptr p, h)

/-- The table on which a call runs `auto_resize_table`, if it does. -/
def Hash.beforeResize (P : Platform) (h : Hash V) : Call (Option V) → Option (Hash V)
  | .set key value => (hashSetInternal P h key value).map Prod.snd
  | .del key => do
    let entries ← h.slots
    let pos ← findSlot P entries key
    match entries[pos]? with
    | some (.inUse _ value) => some (h.removeAt entries pos value)
    | _ => none
  | .get _ => none

/-- The two thresholds of `auto_resize_table`. -/
def needsResize (P : Platform) (size nentries nremoved : ℕ) : Bool :=
  floatRatio P (size - nentries - nremoved) size < P.double.round (3 / 10) ∨
    minSize < size ∧ floatRatio P nentries size < P.double.round (3 / 10)

/-- The key is in use. -/
def Hash.hasKey (h : Hash V) (key : CString) : Bool :=
  (h.entries.getD []).any fun s => s.key? = some key

/-- The counters `nentries` and `nremoved` with which a call comes to `auto_resize_table`. -/
def Hash.countsAfter (h : Hash V) : Call (Option V) → Option (ℕ × ℕ)
  | .set key _ => some (if h.hasKey key then h.nentries else h.nentries + 1, h.nremoved)
  | .del key => if h.hasKey key then some (h.nentries - 1, h.nremoved + 1) else none
  | .get _ => none

/-- The call resizes the table. -/
def Hash.resizes (P : Platform) (h : Hash V) (call : Call (Option V)) : Bool :=
  (h.countsAfter call).any fun c => needsResize P h.tableSize c.1 c.2

/-! ## The walks of a resize

The loop of `resize_table` searches a slot for each entry in the array as it is then. The list of
these searches is what a bound on them speaks about: their length in `HashAmortised`, the counter of
the loop in `HashInt`. -/

/-- The walks of `rehash`: each array, and the key that is searched in it. -/
def rehashProbes (P : Platform) : List (Entry V) → Hash V → List (List (Entry V) × CString)
  | [], _ => []
  | .inUse key value :: old, h =>
    (h.entries.getD [], key) ::
      (hashSetInternal P h key value).elim [] fun r => rehashProbes P old r.2
  | _ :: old, h => rehashProbes P old h

/-- The walks of `auto_resize_table`. -/
def resizeProbes (P : Platform) (h : Hash V) : List (List (Entry V) × CString) :=
  if needsResize P h.tableSize h.nentries h.nremoved then
    rehashProbes P (h.entries.getD []) (h.emptied (max minSize (h.nentries * 2)))
  else []

/-! ## One call

`hash_set` and `hash_del` come to `auto_resize_table` with a table that is known, and return what it
returns; a `hash_get`, and a `hash_del` of a key that is not there, write nothing. -/

/-- Two branches that do the same, one for each threshold. -/
theorem needsResize_branches {α : Type*} (size nentries nremoved : ℕ) (x y : α) :
    (if floatRatio P (size - nentries - nremoved) size < P.double.round (3 / 10) then x
      else if minSize < size ∧ floatRatio P nentries size < P.double.round (3 / 10) then x else y) =
      if needsResize P size nentries nremoved then x else y := by
  unfold needsResize
  by_cases husable : floatRatio P (size - nentries - nremoved) size < P.double.round (3 / 10)
  · simp [husable]
  · by_cases hused : minSize < size ∧ floatRatio P nentries size < P.double.round (3 / 10)
    · simp [hused]
    · simp [husable, hused]

/-- The two branches of `auto_resize_table` do the same: they rebuild to twice the entries. -/
theorem autoResizeTable_eq (malloc : Bool) (h : Hash V) :
    autoResizeTable P malloc h = if needsResize P h.tableSize h.nentries h.nremoved then
      resizeTable P malloc h (h.nentries * 2) else some (true, h) :=
  needsResize_branches ..

/-- A table between two calls: well formed, and with a slot never used. -/
def Hash.Ready (P : Platform) (h : Hash V) : Prop :=
  ∃ entries, h.WF P entries ∧ Entry.never ∈ entries

/-- A table that was just created. -/
theorem hashCreate_ready : (hashCreate : Hash V).Ready P := by
  obtain ⟨entries, hw, -, hroom⟩ := hashCreate_table (V := V) (P := P)
  exact ⟨entries, hw, hroom⟩

/-- `hasKey` looks for the key in the whole array, and not along its chain. -/
theorem Hash.WF.hasKey_iff {h : Hash V} {entries : List (Entry V)} (hw : h.WF P entries)
    {key : CString} : h.hasKey key = true ↔ ∃ value, Entry.inUse key value ∈ entries := by
  rw [Hash.hasKey, hw.entries_eq, Option.getD_some, List.any_eq_true]
  constructor
  · rintro ⟨s, hs, hkey⟩
    obtain ⟨value, rfl⟩ := Entry.key?_eq_some.mp (of_decide_eq_true hkey)
    exact ⟨value, hs⟩
  · rintro ⟨value, hmem⟩
    exact ⟨_, hmem, decide_eq_true rfl⟩

/-- **What a call does** before `auto_resize_table`, and that it returns what that returns; or it does
    nothing. -/
theorem hashMallocStep_spec {h : Hash V} {entries : List (Entry V)} (hw : h.WF P entries)
    (hroom : Entry.never ∈ entries) (call : Call (Option V)) :
    match h.beforeResize P call with
    | none => h.countsAfter call = none ∧ ∃ r, ∀ malloc, hashMallocStep P h (malloc, call) = some (r, h)
    | some h₁ => ∃ entries₁, h₁.WF P entries₁ ∧ h₁.tableSize = h.tableSize ∧
        h.countsAfter call = some (h₁.nentries, h₁.nremoved) ∧
        ∀ malloc, hashMallocStep P h (malloc, call) =
          (autoResizeTable P malloc h₁).map fun r => (.bool r.1, r.2) := by
  cases call with
  | get key =>
    -- a lookup never resizes
    show _ ∧ _
    by_cases hmem : ∃ value, Entry.inUse key value ∈ entries
    · obtain ⟨value, hmem⟩ := hmem
      obtain ⟨p, hp⟩ := List.mem_iff_getElem?.mp hmem
      exact ⟨rfl, .ptr value, fun malloc => by
        simp [hashMallocStep, hashGet, hw.slots_eq, findSlot_present hw.valid hp, hp]⟩
    · obtain ⟨p, hfind, hp, -⟩ := findSlot_absent (P := P) hroom fun v hv => hmem ⟨v, hv⟩
      exact ⟨rfl, .ptr none, fun malloc => by
        simp [hashMallocStep, hashGet, hw.slots_eq, hfind, hp]⟩
  | set key value =>
    -- the walk meets the key, or a free slot
    have hset : ∃ h₁ entries₁, hashSetInternal P h key value = some (true, h₁) ∧ h₁.WF P entries₁ ∧
        h₁.tableSize = h.tableSize ∧ h₁.nremoved = h.nremoved ∧
        h₁.nentries = if h.hasKey key then h.nentries else h.nentries + 1 := by
      by_cases hmem : ∃ old, Entry.inUse key old ∈ entries
      · obtain ⟨old, hold⟩ := hmem
        obtain ⟨h₁, entries₁, hs, hw₁, -, -, hsize, hn, hr⟩ := hashSetInternal_present hw hold value
        refine ⟨h₁, entries₁, hs, hw₁, hsize, hr, ?_⟩
        rw [if_pos (hw.hasKey_iff.mpr ⟨old, hold⟩), hn]
      · obtain ⟨h₁, entries₁, hs, hw₁, -, -, hsize, hn, hr, -⟩ :=
          hashSetInternal_absent hw hroom (fun v hv => hmem ⟨v, hv⟩) value
        refine ⟨h₁, entries₁, hs, hw₁, hsize, hr, ?_⟩
        rw [if_neg (mt hw.hasKey_iff.mp hmem), hn]
    obtain ⟨h₁, entries₁, hs, hw₁, hsize, hr, hn⟩ := hset
    have hbefore : h.beforeResize P (.set key value) = some h₁ := by
      simp [Hash.beforeResize, hs]
    rw [hbefore]
    refine ⟨entries₁, hw₁, hsize, ?_, fun malloc => ?_⟩
    · rw [Hash.countsAfter, hn, hr]
    · simp only [hashMallocStep, hashSet, hs, Option.bind_eq_bind, Option.bind_some]
      cases autoResizeTable P malloc h₁ with
      | none => rfl
      | some r =>
        obtain ⟨ok, h₂⟩ := r
        cases ok <;> rfl
  | del key =>
    by_cases hmem : ∃ value, Entry.inUse key value ∈ entries
    · have hkey : h.hasKey key = true := hw.hasKey_iff.mpr hmem
      obtain ⟨value, hmem⟩ := hmem
      obtain ⟨p, hp⟩ := List.mem_iff_getElem?.mp hmem
      have hbefore : h.beforeResize P (.del key) = some (h.removeAt entries p value) := by
        simp [Hash.beforeResize, hw.slots_eq, findSlot_present hw.valid hp, hp]
      rw [hbefore]
      refine ⟨_, (removeAt_spec hw hp).1, rfl, ?_, fun malloc => ?_⟩
      · rw [Hash.countsAfter, if_pos hkey]
        rfl
      · simp [hashMallocStep, hashDel, hw.slots_eq, findSlot_present hw.valid hp, hp]
    · obtain ⟨p, hfind, hp, -⟩ := findSlot_absent (P := P) hroom fun v hv => hmem ⟨v, hv⟩
      have hbefore : h.beforeResize P (.del key) = none := by
        simp [Hash.beforeResize, hw.slots_eq, hfind, hp]
      rw [hbefore]
      refine ⟨?_, .bool false, fun malloc => ?_⟩
      · rw [Hash.countsAfter, if_neg (mt hw.hasKey_iff.mp hmem)]
      · simp [hashMallocStep, hashDel, hw.slots_eq, hfind, hp]

/-- **A call of a table that is ready**: it does nothing, or it comes to `auto_resize_table` with a
    well-formed table. -/
theorem Hash.Ready.call {h : Hash V} (hr : h.Ready P) (call : Call (Option V)) :
    (h.beforeResize P call = none ∧ h.resizes P call = false ∧
        ∃ r, ∀ malloc, hashMallocStep P h (malloc, call) = some (r, h)) ∨
      ∃ h₁ entries₁, h.beforeResize P call = some h₁ ∧ h₁.WF P entries₁ ∧
        h.resizes P call = needsResize P h₁.tableSize h₁.nentries h₁.nremoved ∧
        ∀ malloc, hashMallocStep P h (malloc, call) =
          (autoResizeTable P malloc h₁).map fun r => (.bool r.1, r.2) := by
  obtain ⟨entries, hw, hroom⟩ := hr
  have hspec := hashMallocStep_spec hw hroom call
  cases hbefore : h.beforeResize P call with
  | none =>
    rw [hbefore] at hspec
    obtain ⟨hcounts, hstep⟩ := hspec
    refine Or.inl ⟨rfl, ?_, hstep⟩
    rw [Hash.resizes, hcounts]
    rfl
  | some h₁ =>
    rw [hbefore] at hspec
    obtain ⟨entries₁, hw₁, hsize, hcounts, hstep⟩ := hspec
    refine Or.inr ⟨h₁, entries₁, rfl, hw₁, ?_, hstep⟩
    rw [Hash.resizes, hcounts, hsize]
    rfl

/-! ## The load

Here ratios are compared exactly. A rebuild leaves at most half of the slots in use and none
removed, so both ratios are far from their thresholds, and a call moves them by one entry.

The minimal size is an exception to the second threshold only: a table of ten slots is not made
smaller. -/

/-- Ratios compared exactly, with any hash function. -/
def Platform.exact (hash : CString → ℕ) : Platform := ⟨hash, Rounding.exact, Rounding.exact⟩

/-- The counters count, and both ratios are kept, unless the table has its minimal size. -/
structure Hash.Loaded (h : Hash V) (entries : List (Entry V)) : Prop where
  entries_eq : h.entries = some entries
  size : entries.length = h.tableSize
  min_le : minSize ≤ h.tableSize
  nentries_eq : h.nentries = entries.countP Entry.isInUse
  nremoved_eq : h.nremoved = entries.countP Entry.isRemoved
  usable : 3 * h.tableSize ≤ 10 * entries.countP Entry.isNever
  used : h.tableSize = minSize ∨ 3 * h.tableSize ≤ 10 * entries.countP Entry.isInUse

/-- The counters never add up to more than the size. -/
theorem Hash.WF.counts_le {h : Hash V} {entries : List (Entry V)} (hw : h.WF P entries) :
    h.nentries + h.nremoved ≤ h.tableSize := by
  have hkinds := Entry.countP_kinds entries
  have hsize := hw.size
  have hn := hw.nentries_eq
  have hr := hw.nremoved_eq
  omega

/-- A ratio is below 30%, compared exactly. -/
theorem floatRatio_exact_lt {hash : CString → ℕ} {n size : ℕ} (hsize : 0 < size) :
    floatRatio (Platform.exact hash) n size < (Platform.exact hash).double.round (3 / 10) ↔
      10 * n < 3 * size := by
  have hpos : (0 : ℚ) < size := by exact_mod_cast hsize
  show (n : ℚ) / size < 3 / 10 ↔ _
  rw [div_lt_div_iff₀ hpos (by norm_num)]
  constructor
  · intro h
    have h' : n * 10 < 3 * size := by exact_mod_cast h
    omega
  · intro h
    have h' : n * 10 < 3 * size := by omega
    exact_mod_cast h'

/-- **`auto_resize_table` restores both ratios**, from any table. -/
theorem autoResizeTable_loaded {hash : CString → ℕ} {h : Hash V} {entries : List (Entry V)}
    (hw : h.WF (Platform.exact hash) entries) :
    ∃ h' entries', autoResizeTable (Platform.exact hash) true h = some (true, h') ∧
      h'.WF (Platform.exact hash) entries' ∧ h'.Loaded entries' := by
  have hmin : 0 < h.tableSize := Nat.lt_of_lt_of_le (by decide) hw.min_le
  have hkinds := Entry.countP_kinds entries
  have hn := hw.nentries_eq
  have hr := hw.nremoved_eq
  have hsize := hw.size
  rw [autoResizeTable_eq]
  split
  · -- rebuilt to twice the entries, or to the minimal size
    obtain ⟨h', entries', hres, hw', -, -, -, hsize', hn', hr'⟩ :=
      resizeTable_spec hw (nentries_lt_double h.nentries)
    refine ⟨h', entries', hres, hw', hw'.entries_eq, hw'.size, hw'.min_le, hw'.nentries_eq,
      hw'.nremoved_eq, ?_, ?_⟩
    all_goals
      have hkinds' := Entry.countP_kinds entries'
      have hin' := hw'.nentries_eq
      have hre' := hw'.nremoved_eq
      have hlen' := hw'.size
      unfold minSize at *
      omega
  · -- both thresholds were met already
    rename_i hno
    have hcounts := hw.counts_le
    simp only [needsResize, decide_eq_true_eq, not_or, not_and, floatRatio_exact_lt hmin] at hno
    refine ⟨h, entries, rfl, hw, hw.entries_eq, hw.size, hw.min_le, hn, hr, by omega, ?_⟩
    by_cases hlt : minSize < h.tableSize
    · have hused := hno.2 hlt
      right
      omega
    · left
      have hle := hw.min_le
      omega

/-- A loaded table has room. -/
theorem Hash.Loaded.never_mem {h : Hash V} {entries : List (Entry V)} (hl : h.Loaded entries) :
    Entry.never ∈ entries := by
  have hmin := hl.min_le
  have husable := hl.usable
  unfold minSize at hmin
  obtain ⟨t, ht, hn⟩ := List.countP_pos_iff.mp (by omega : 0 < entries.countP Entry.isNever)
  rwa [← Entry.isNever_iff.mp hn]

/-- Ten slots, none in use: the minimal size. -/
theorem hashCreate_loaded : ∃ entries, (hashCreate : Hash V).WF P entries ∧
    (hashCreate : Hash V).Loaded entries := by
  obtain ⟨entries, hw, -⟩ := hashCreate_table (V := V) (P := P)
  obtain rfl : List.replicate minSize .never = entries := Option.some.inj hw.entries_eq
  have hnever : (List.replicate minSize (Entry.never : Entry V)).countP Entry.isNever = minSize :=
    (List.countP_replicate ..).trans (if_pos rfl)
  refine ⟨_, hw, rfl, rfl, le_refl _, hw.nentries_eq, hw.nremoved_eq, ?_, Or.inl rfl⟩
  rw [hnever]
  show 3 * minSize ≤ 10 * minSize
  decide

/-- **The load of the hash table**, after every run of calls whose allocations succeed, with any
    hash function and ratios that are not rounded.

    `Loaded` has the counters, which count the slots in use and the removed ones; at least 30% of
    the slots were never used; and at least 30% are in use, or the table has its minimal size. The
    last conjunct is about a further call, at the moment where `auto_resize_table` subtracts: the
    counters do not add up to more than the size, so the unsigned difference does not wrap. -/
theorem hash_run_load (hash : CString → ℕ) (calls : List (Call (Option V))) :
    ∃ rs h entries, Machine.run (hashMallocStep (Platform.exact hash)) hashCreate
        (calls.map fun call => (true, call)) = some (rs, h) ∧
      h.Loaded entries ∧
      ∀ call h₁, h.beforeResize (Platform.exact hash) call = some h₁ →
        h₁.nentries + h₁.nremoved ≤ h₁.tableSize := by
  have hstep : ∀ (h : Hash V) (call : Bool × Call (Option V)),
      (∃ entries, h.WF (Platform.exact hash) entries ∧ h.Loaded entries) → call.1 = true →
      ∃ r h', hashMallocStep (Platform.exact hash) h call = some (r, h') ∧
        ∃ entries, h'.WF (Platform.exact hash) entries ∧ h'.Loaded entries := by
    rintro h ⟨malloc, call⟩ ⟨entries, hw, hl⟩ hmalloc
    obtain rfl : malloc = true := hmalloc
    have hready : h.Ready (Platform.exact hash) := ⟨entries, hw, hl.never_mem⟩
    rcases hready.call call with ⟨-, -, r, hs⟩ | ⟨h₁, entries₁, -, hw₁, -, hs⟩
    · exact ⟨r, h, hs true, entries, hw, hl⟩
    · obtain ⟨h', entries', hauto, hw', hl'⟩ := autoResizeTable_loaded hw₁
      exact ⟨.bool true, h', by rw [hs, hauto]; rfl, entries', hw', hl'⟩
  have hall : ∀ call ∈ calls.map fun call => (true, call), call.1 = true := by
    intro call hcall
    obtain ⟨call', -, rfl⟩ := List.mem_map.mp hcall
    rfl
  obtain ⟨rs, h, hrun, entries, hw, hl⟩ := Machine.run_invariant hstep
    (calls.map fun call => (true, call)) hashCreate hashCreate_loaded hall
  refine ⟨rs, h, entries, hrun, hl, fun call h₁ hbefore => ?_⟩
  have hready : h.Ready (Platform.exact hash) := ⟨entries, hw, hl.never_mem⟩
  rcases hready.call call with ⟨hnone, -⟩ | ⟨h₂, entries₂, hbefore', hw₂, -⟩
  · rw [hnone] at hbefore
    cases hbefore
  · cases hbefore.symm.trans hbefore'
    exact hw₂.counts_le

/-! ## The allocation

Whether a call allocates is decided by the table before it, so whether it is atomic is a condition
on that table and on the outcome of the one allocation. -/

/-- The call is defined and leaves a well-formed table; and if it returns false, every lookup gives
    what it gave before and nothing was destroyed. -/
def AtomicHashCall (P : Platform) (h : Hash V) (call : Bool × Call (Option V)) : Prop :=
  ∃ r h' entries', hashMallocStep P h call = some (r, h') ∧ h'.WF P entries' ∧
    (r = .bool false →
      (∀ key, hashGet P h' key = hashGet P h key) ∧ h'.destroyed = h.destroyed)

/-- The call does not resize, or its allocation succeeds. -/
def HashAllocates (P : Platform) (h : Hash V) (call : Bool × Call (Option V)) : Prop :=
  h.resizes P call.2 = true → call.1 = true

instance (h : Hash V) (call : Bool × Call (Option V)) : Decidable (HashAllocates P h call) :=
  inferInstanceAs (Decidable (h.resizes P call.2 = true → call.1 = true))

/-- `resize_table` whose allocation fails leaves NULL in `h->entries`. -/
theorem autoResizeTable_fail {h : Hash V}
    (hres : needsResize P h.tableSize h.nentries h.nremoved = true) :
    autoResizeTable P false h = some (false, { h with entries := none }) := by
  rw [autoResizeTable_eq, if_pos hres]
  rfl

/-- Without a resize the outcome does not matter. -/
theorem autoResizeTable_allocates {h : Hash V} {malloc : Bool}
    (halloc : needsResize P h.tableSize h.nentries h.nremoved = true → malloc = true) :
    autoResizeTable P malloc h = autoResizeTable P true h := by
  rw [autoResizeTable_eq, autoResizeTable_eq]
  split
  · rename_i hneeds
    rw [halloc hneeds]
  · rfl

/-- A call whose allocation succeeds, if it makes one, is the call of a run in which they all do. -/
theorem Hash.Ready.allocates {h : Hash V} (hr : h.Ready P) {call : Bool × Call (Option V)}
    (halloc : HashAllocates P h call) :
    hashMallocStep P h call = hashMallocStep P h (true, call.2) := by
  obtain ⟨malloc, call⟩ := call
  rcases hr.call call with ⟨-, -, r, hs⟩ | ⟨h₁, entries₁, -, -, hres, hs⟩
  · rw [hs, hs]
  · rw [hs, hs, autoResizeTable_allocates fun hneeds => halloc (hres.trans hneeds)]

/-- **Exactly when a call is atomic.** -/
theorem atomicHashCall_iff {h : Hash V} (hr : h.Ready P) (call : Bool × Call (Option V)) :
    AtomicHashCall P h call ↔ HashAllocates P h call := by
  obtain ⟨malloc, call⟩ := call
  rcases hr.call call with ⟨-, hno, r, hs⟩ | ⟨h₁, entries₁, -, hw₁, hres, hs⟩
  · -- a lookup, or a deletion of a key that is not there
    obtain ⟨entries, hw, -⟩ := hr
    refine iff_of_true ⟨r, h, entries, hs malloc, hw, fun _ => ⟨fun _ => rfl, rfl⟩⟩ fun hneeds => ?_
    rw [hno] at hneeds
    cases hneeds
  · constructor
    · rintro ⟨r, h', entries', hstep, hw', -⟩ hneeds
      show malloc = true
      by_contra hmalloc
      rw [Bool.not_eq_true] at hmalloc
      subst hmalloc
      rw [hs, autoResizeTable_fail (hres ▸ hneeds)] at hstep
      cases hstep
      cases hw'.entries_eq
    · intro halloc
      obtain ⟨h', entries', hok, hw', -⟩ := autoResizeTable_spec hw₁
      refine ⟨.bool true, h', entries', ?_, hw', fun hfalse => by cases hfalse⟩
      rw [hs, autoResizeTable_allocates fun hneeds => halloc (hres.trans hneeds), hok]
      rfl

/-- A call whose allocation succeeds leaves a table that is ready for the next one. -/
theorem Hash.Ready.step {h h' : Hash V} (hr : h.Ready P) {call : Bool × Call (Option V)} {r : Reply V}
    (halloc : HashAllocates P h call) (hstep : hashMallocStep P h call = some (r, h')) :
    h'.Ready P := by
  obtain ⟨malloc, call⟩ := call
  rcases hr.call call with ⟨-, -, r', hs⟩ | ⟨h₁, entries₁, -, hw₁, hres, hs⟩
  · rw [hs] at hstep
    cases hstep
    exact hr
  · obtain ⟨h₂, entries₂, hok, hw₂, -, hroom, -⟩ := autoResizeTable_spec hw₁
    rw [hs, autoResizeTable_allocates fun hneeds => halloc (hres.trans hneeds), hok] at hstep
    cases hstep
    exact ⟨entries₂, hw₂, hroom⟩

/-- **Calls are atomic exactly when their allocations succeed**, in every run and for every hash
    function, with the outcome of `malloc` free at each call. All calls of the run are atomic if and
    only if none of them resizes the table while `malloc` fails.

    Atomic means that the call leaves a well-formed table, and if it returns false, that every
    lookup gives what it gave before and nothing was destroyed (`AtomicHashCall`). The condition is
    on the table before the call: `needsResize` on its counters as the call will leave them. -/
theorem hash_call_atomic_iff (P : Platform) (calls : List (Bool × Call (Option V))) :
    Machine.Guarded (hashMallocStep P) (AtomicHashCall P) hashCreate calls ↔
      Machine.Guarded (hashMallocStep P) (HashAllocates P) hashCreate calls :=
  Machine.guarded_congr (fun _ call hr => atomicHashCall_iff hr call)
    (fun hr halloc hstep => hr.step halloc hstep) calls hashCreate hashCreate_ready

/-- The key `"aa…a"`, `n` letters long. -/
def letters (n : ℕ) : CString := ⟨List.replicate n 97, by simp⟩

/-- **A call that is not atomic**: the eighth key leaves less than 30% of the ten slots, and the
    allocation fails. -/
theorem hash_set_not_atomic :
    ∃ rs h, Machine.run (hashMallocStep Platform.ieee) hashCreate
        ((List.range 7).map fun n => (true, .set (letters n) (some n))) = some (rs, h) ∧
      ¬ AtomicHashCall Platform.ieee h (false, .set (letters 7) (some 7)) := by
  have hrun : (Machine.run (hashMallocStep Platform.ieee) hashCreate
      ((List.range 7).map fun n => (true, .set (letters n) (some n)))).map (fun r =>
        (hashMallocStep Platform.ieee r.2 (false, .set (letters 7) (some 7))).map
          fun r => r.2.entries.isSome) = some (some false) := by
    decide +kernel
  obtain ⟨⟨rs, h⟩, hr, hcall⟩ := Option.map_eq_some_iff.mp hrun
  refine ⟨rs, h, hr, ?_⟩
  rintro ⟨r, h', entries', hstep, hw', -⟩
  rw [hstep, Option.map_some, hw'.entries_eq] at hcall
  cases hcall

end Libfiu
