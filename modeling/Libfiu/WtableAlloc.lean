/-
  The wildcard table when an allocation fails.

  A call that changes a wildcard may resize: two allocations, of the wildcards array and of the
  array of the cache.  Neither failure is handled:

  * the first one leaves NULL in `t->wildcards`, which `resize_table` overwrites before it looks;
  * the second one leaves NULL in the cache, `resize_table` ignores it, and the `cache_invalidate`
    that follows goes through the NULL array.

  So a call is atomic (`AtomicCall`) exactly when it does not resize, or both allocations succeed:
  `wtable_call_atomic_iff`, for every table that calls with this condition reach.

  A `strdup` that fails is no part of this: it is not looked at, and what follows reads through NULL
  (`FiuAlloc`). The failures here are those that the source does look at, in part too late.
-/
import Libfiu.WtableOwner

namespace Libfiu

variable {V : Type} {P : Platform}

/-- `wtable_set` of a wildcard resizes this table. -/
def UncachedWtable.setResizes (P : Platform) (t : UncachedWtable V) : Bool :=
  t.almostFull ∧ minSize ≤ grownSize P t.wsSize

/-- `wtable_del` of the wildcard `key` resizes this table: the key is there, the table is sparse
    without it, and what is left is not below the minimal size. -/
def UncachedWtable.delResizes (P : Platform) (t : UncachedWtable V) (key : CString) : Bool :=
  match t.slots, wildcardsFindEntry t key true with
  | some ws, some (some (pos, entry), _) =>
    let t := t.freeAt ws pos entry
    t.sparse P ∧ minSize ≤ t.wsUsedCount + 3
  | _, _ => false

/-- A call resizes the wildcards. -/
def UncachedWtable.resizes (P : Platform) (t : UncachedWtable V) : Call V → Bool
  | .set _ _ => t.setResizes P
  | .del key => t.delResizes P key
  | .get _ => false

/-- One call of a table, with the outcomes of its allocations. -/
def mallocStep (P : Platform) (t : Wtable V) : Mallocs × Call V → Option (Reply V × Wtable V)
  | (malloc, .set key value) =>
    (wtableSet P malloc t key (some value)).map fun r => (.bool r.1, r.2)
  | (malloc, .del key) => (wtableDel P malloc t key).map fun r => (.bool r.1, r.2)
  | (_, .get key) => (wtableGet P t key).map fun r => (.ptr r.1, r.2)

/-- The allocations of a call succeed: those of a resize of the wildcards, and of the finals. -/
def Allocates (P : Platform) (t : Wtable V) (call : Mallocs × Call V) : Prop :=
  if call.2.key.isWild then
    t.toUncachedWtable.resizes P call.2 = true →
      call.1.wildcards = true ∧ call.1.cache = true
  else call.1.finals = true

instance (t : Wtable V) (call : Mallocs × Call V) : Decidable (Allocates P t call) :=
  inferInstanceAs (Decidable (if call.2.key.isWild then
    t.toUncachedWtable.resizes P call.2 = true → call.1.wildcards = true ∧ call.1.cache = true
    else call.1.finals = true))

/-! ## When no allocation fails

What is shown of the runs in which everything succeeds holds of any call that gets the memory which
it asks for. -/

/-- A resize with memory. -/
theorem Wtable.resizeTable_malloc {malloc : Mallocs} (t : Wtable V) {newSize : ℕ}
    (h : minSize ≤ newSize → malloc.wildcards = true ∧ malloc.cache = true) :
    t.resizeTable P malloc newSize = t.resizeTable P .ok newSize := by
  unfold Wtable.resizeTable
  split
  · rfl
  · rename_i hlt
    obtain ⟨hw, hc⟩ := h (by omega)
    rw [hw, hc]
    rfl

/-- **A call whose allocations succeed** is the call of the runs so far. -/
theorem mallocStep_eq (t : Wtable V) (malloc : Mallocs) (call : Call V)
    (hkey : call.key.bytes ≠ []) (h : Allocates P t (malloc, call)) :
    mallocStep P t (malloc, call) = wtableStep P t call := by
  unfold Allocates at h
  cases call with
  | get key => rfl
  | set key value =>
    have hkey' : key.bytes ≠ [] := hkey
    by_cases hwild : key.isWild
    · rw [if_pos (show (Call.set key value).key.isWild from hwild)] at h
      have hgrow : t.grow P malloc = t.grow P .ok := by
        unfold Wtable.grow
        split
        · rename_i hfull
          exact t.resizeTable_malloc fun hle => h (by
            simp [UncachedWtable.resizes, UncachedWtable.setResizes, hfull, hle])
        · rfl
      simp [mallocStep, wtableStep, wtableSet, isWildcard_strlen hkey', hwild, hgrow]
    · rw [if_neg (show ¬ (Call.set key value).key.isWild from hwild)] at h
      have hfin : malloc.finals = true := h
      simp [mallocStep, wtableStep, wtableSet, isWildcard_strlen hkey', hwild, hfin, Mallocs.ok]
  | del key =>
    have hkey' : key.bytes ≠ [] := hkey
    by_cases hwild : key.isWild
    · rw [if_pos (show (Call.del key : Call V).key.isWild from hwild)] at h
      simp only [mallocStep, wtableStep, wtableDel, isWildcard_strlen hkey', decide_eq_true hwild,
        Option.bind_eq_bind, Option.bind_some, if_true]
      cases hslots : t.slots with
      | none => rfl
      | some ws =>
        cases hfind : wildcardsFindEntry t.toUncachedWtable key true with
        | none => rfl
        | some r =>
          obtain ⟨found, free⟩ := r
          cases found with
          | none => rfl
          | some e =>
            obtain ⟨pos, entry⟩ := e
            have hshrink : (t.withUncached (t.freeAt ws pos entry)).shrink P malloc
                = (t.withUncached (t.freeAt ws pos entry)).shrink P .ok := by
              unfold Wtable.shrink
              split
              · rename_i hsparse
                refine (t.withUncached _).resizeTable_malloc fun hle => h ?_
                have hsparse' : (t.freeAt ws pos entry).sparse P = true := hsparse
                have hle' : minSize ≤ (t.freeAt ws pos entry).wsUsedCount + 3 := hle
                simp [UncachedWtable.resizes, UncachedWtable.delResizes, hslots, hfind, hsparse', hle']
              · rfl
            simp only [Option.bind_some, hshrink]
    · rw [if_neg (show ¬ (Call.del key : Call V).key.isWild from hwild)] at h
      have hfin : malloc.finals = true := h
      simp [mallocStep, wtableStep, wtableDel, isWildcard_strlen hkey', hwild, hfin, Mallocs.ok]

/-! ## When one fails

`resize_table` writes the result of `malloc` over the array before it looks at it; that of the cache
is not looked at at all. Either way an array is NULL from then on. -/

/-- `cache_resize` whose allocation fails leaves NULL in the cache. -/
theorem cacheResize_null {c : Cache V} {entries : List (Entry V)} (hc : c.Ready entries)
    (newSize : ℕ) :
    ∃ c', cacheResize P false c newSize = some (false, c') ∧ c'.hash.slots = none := by
  unfold cacheResize
  split
  · exact ⟨{ c with hash := { c.hash with entries := none } },
      by simp [Cache.resizeTo, resizeTable], rfl⟩
  · obtain ⟨c₁, hinv, -, -⟩ := cacheInvalidateInternal_eq hc
    exact ⟨{ c₁ with hash := { c₁.hash with entries := none } },
      by simp [hinv, Cache.resizeTo, resizeTable], rfl⟩

/-- A resize in which an allocation fails leaves NULL: in the wildcards, and it returns false, or
    in the cache, and it returns true. -/
theorem Wtable.resizeTable_fail {malloc : Mallocs} {t : Wtable V} {ws : List (Option (Wentry V))}
    {entries : List (Entry V)} (hw : t.toUncachedWtable.WF ws) (hc : t.wcache.Ready entries)
    {newSize : ℕ} (hmin : minSize ≤ newSize) (hle : t.wsUsedCount ≤ newSize)
    (hfail : ¬ (malloc.wildcards = true ∧ malloc.cache = true)) :
    ∃ ok t', t.resizeTable P malloc newSize = some (ok, t') ∧
      ((ok = false ∧ t'.slots = none) ∨ (ok = true ∧ t'.wcache.hash.slots = none)) := by
  unfold Wtable.resizeTable
  rw [if_neg (by omega)]
  cases hmw : malloc.wildcards with
  | false =>
    refine ⟨false, t.withUncached { t.toUncachedWtable with wildcards := none }, ?_,
      Or.inl ⟨rfl, rfl⟩⟩
    simp [moveWildcards]
  | true =>
    have hmc : malloc.cache = false := by simpa [hmw] using hfail
    obtain ⟨u, ws', hmove, -⟩ := moveWildcards_spec hw hle
    obtain ⟨c', hres, hnull⟩ := cacheResize_null (P := P) hc newSize
    exact ⟨true, { u with wcache := c' }, by simp [hmove, hmc, hres], Or.inr ⟨rfl, hnull⟩⟩

/-- `cache_invalidate` goes through the array, NULL or not. -/
theorem Wtable.invalidate_null {t : Wtable V} (h : t.wcache.hash.slots = none) :
    t.invalidate = none := by
  simp [Wtable.invalidate, cacheInvalidate, cacheInvalidateInternal, h]

/-- A table with both arrays there, of the sizes that are recorded. -/
def Wtable.arraysOk (t : Wtable V) : Bool := t.slots.isSome && t.wcache.hash.slots.isSome

/-- **A call in which a resize fails** is undefined, or leaves the array of wildcards NULL. -/
theorem mallocStep_fail {t : Wtable V} {M : CString → Option V} (ht : t.Holds P M)
    {malloc : Mallocs} {call : Call V} (hwild : call.key.isWild)
    (hres : t.toUncachedWtable.resizes P call = true)
    (hfail : ¬ (malloc.wildcards = true ∧ malloc.cache = true)) :
    ∀ r t', mallocStep P t (malloc, call) = some (r, t') → t'.arraysOk = false := by
  obtain ⟨⟨-, hmin, ws, hw, hM⟩, entries, hc, -⟩ := ht
  have hused := hw.used_le
  cases call with
  | get key => cases hres
  | set key value =>
    obtain ⟨hfull, hle⟩ : t.almostFull = true ∧ minSize ≤ grownSize P t.wsSize := by
      simpa [UncachedWtable.resizes, UncachedWtable.setResizes] using hres
    have hlt := lt_grownSize P hmin
    obtain ⟨ok, t₁, hgrow, hcase⟩ := Wtable.resizeTable_fail (P := P) hw hc hle (by omega) hfail
    have hkey : key.isWild := hwild
    intro r t' hstep
    rcases hcase with ⟨rfl, hnull⟩ | ⟨rfl, hnull⟩
    · simp [mallocStep, wtableSet, isWildcard_strlen hkey.ne_nil, hkey, Wtable.grow, hfull, hgrow]
        at hstep
      rw [← hstep.2, Wtable.arraysOk, hnull]
      rfl
    · simp [mallocStep, wtableSet, isWildcard_strlen hkey.ne_nil, hkey, Wtable.grow, hfull, hgrow,
        Wtable.invalidate_null hnull] at hstep
  | del key =>
    have hkey : key.isWild := hwild
    obtain ⟨free, hfind, -⟩ := hw.findEntry_eq key true
    cases hfirst : firstFrom (Wentry.accepts key true) ws 0 with
    | none =>
      simp [UncachedWtable.resizes, UncachedWtable.delResizes, hw.slots_eq, hfind, hfirst] at hres
    | some e =>
      obtain ⟨pos, entry⟩ := e
      obtain ⟨i, rfl, hp, -⟩ := firstFrom_some ws 0 hfirst
      rw [Nat.zero_add] at hfirst
      obtain ⟨hsparse, hle⟩ : (t.freeAt ws i entry).sparse P = true ∧
          minSize ≤ (t.freeAt ws i entry).wsUsedCount + 3 := by
        simpa [UncachedWtable.resizes, UncachedWtable.delResizes, hw.slots_eq, hfind, hfirst]
          using hres
      have hc' : (t.withUncached (t.freeAt ws i entry)).wcache.Ready entries := hc
      have hsparse' : (t.withUncached (t.freeAt ws i entry)).sparse P = true := hsparse
      obtain ⟨ok, t₁, hshrink, hcase⟩ := Wtable.resizeTable_fail (P := P)
        (t := t.withUncached (t.freeAt ws i entry)) (freeAt_spec hw hp).1 hc' hle
        (Nat.le_add_right _ 3) hfail
      have hshrink' : (t.withUncached (t.freeAt ws i entry)).shrink P malloc = some (ok, t₁) := by
        rw [Wtable.shrink, if_pos hsparse']
        exact hshrink
      intro r t' hstep
      rcases hcase with ⟨rfl, hnull⟩ | ⟨rfl, hnull⟩
      · simp [mallocStep, wtableDel, isWildcard_strlen hkey.ne_nil, hkey, hw.slots_eq, hfind, hfirst,
          hshrink'] at hstep
        rw [← hstep.2, Wtable.arraysOk, hnull]
        rfl
      · simp [mallocStep, wtableDel, isWildcard_strlen hkey.ne_nil, hkey, hw.slots_eq, hfind, hfirst,
          hshrink', Wtable.invalidate_null hnull] at hstep

/-! ## Atomic calls

Atomic is what a caller can see: no undefined step, both arrays there, no destroyed value to be
reached, and no change to what is looked up if the call returns false. -/

/-- No value that can be reached was destroyed. -/
def Wtable.Clean (t : Wtable V) : Prop := ∀ v ∈ t.slotValues, v ∉ t.allDestroyed

/-- The call is defined and leaves both arrays there; and if it returns false, every lookup gives
    what it gave before and no value that was destroyed comes to be held. -/
def AtomicCall (P : Platform) (t : Wtable V) (call : Mallocs × Call V) : Prop :=
  ∃ r t', mallocStep P t call = some (r, t') ∧ t'.arraysOk = true ∧
    (r = .bool false →
      (∀ key, (wtableGet P t' key).map Prod.fst = (wtableGet P t key).map Prod.fst) ∧
      (t.Clean → t'.Clean))

/-- Between two calls both arrays are there. -/
theorem Wtable.Holds.arraysOk {t : Wtable V} {M : CString → Option V} (ht : t.Holds P M) :
    t.arraysOk = true := by
  obtain ⟨⟨-, -, ws, hw, -⟩, entries, hc, -⟩ := ht
  simp [Wtable.arraysOk, hw.slots_eq, hc.slots_eq]

/-- A del that returns false did nothing. -/
theorem wtableDel_false {t t' : Wtable V} {M : CString → Option V} (ht : t.Holds P M)
    {key : CString} (hkey : key.isWild) (h : wtableDel P .ok t key = some (false, t')) : t' = t := by
  obtain ⟨⟨-, hmin, ws, hw, hM⟩, entries, hc, -⟩ := ht
  obtain ⟨free, hfind, -⟩ := hw.findEntry_eq key true
  simp only [wtableDel, isWildcard_strlen hkey.ne_nil, decide_eq_true hkey, hw.slots_eq, hfind,
    Option.bind_eq_bind, Option.bind_some, if_true] at h
  split at h
  · cases h
    rfl
  · rename_i pos entry hfirst
    obtain ⟨i, rfl, hp, -⟩ := firstFrom_some ws 0 hfirst
    rw [Nat.zero_add] at h
    obtain ⟨u, ws', hshrink, -⟩ := UncachedWtable.shrink_spec (P := P) (freeAt_spec hw hp).1 hmin
    have hc' : (t.withUncached (t.freeAt ws i entry)).wcache.Ready entries := hc
    obtain ⟨-, c, entries', hs, hc₁⟩ := Wtable.shrink_eq (P := P) hc' hshrink
    obtain ⟨c₂, hinv, -⟩ := cacheInvalidate_eq hc₁
    rw [hs] at h
    simp [Wtable.invalidate, hinv] at h

/-- **Exactly when a call is atomic.** -/
theorem atomicCall_iff {t : Wtable V} {M : CString → Option V} (ht : t.Holds P M)
    (malloc : Mallocs) {call : Call V} (hwild : call.key.isWild) :
    AtomicCall P t (malloc, call) ↔ (t.toUncachedWtable.resizes P call = true →
      malloc.wildcards = true ∧ malloc.cache = true) := by
  constructor
  · rintro ⟨r, t', hstep, harr, -⟩ hres
    by_contra hfail
    rw [mallocStep_fail ht hwild hres hfail r t' hstep] at harr
    cases harr
  · intro h
    have halloc : Allocates P t (malloc, call) := by
      rw [Allocates, if_pos hwild]
      exact h
    obtain ⟨ws, hw, -⟩ := ht.uncached.array
    obtain ⟨t', hstep, -, ht', -⟩ := wtableStep_spec ht hw call hwild.ne_nil
    refine ⟨_, t', (mallocStep_eq t malloc call hwild.ne_nil halloc).trans hstep, ht'.arraysOk, ?_⟩
    intro hr
    cases call with
    | get key => cases hr
    | set key value => cases hr
    | del key =>
      rw [hr] at hstep
      obtain ⟨⟨b, t₁⟩, hdel, he⟩ := Option.map_eq_some_iff.mp hstep
      cases he
      obtain rfl := wtableDel_false ht hwild hdel
      exact ⟨fun _ => rfl, id⟩

/-! ## Runs

The condition is on each call and on the table that it finds; a run that meets it stays inside of
the tables of which all this was shown. -/

/-- **A run in which every allocation that is made succeeds** is defined, and its table follows
    the ledger. -/
theorem malloc_run_ledger (garbage : ℕ) (calls : List (Mallocs × Call V))
    (hkeys : ∀ call ∈ calls, call.2.key.bytes ≠ [])
    (halloc : Machine.Guarded (mallocStep P) (Allocates P) (wtableCreate garbage) calls) :
    ∃ rs t, Machine.run (mallocStep P) (wtableCreate garbage) calls = some (rs, t) ∧
      t.Follows P ((calls.map Prod.snd).foldl Ledger.next Ledger.empty) := by
  have hstep : ∀ (t : Wtable V) (L : Ledger V) (call : Mallocs × Call V), t.Follows P L →
      Allocates P t call ∧ call.2.key.bytes ≠ [] →
      ∃ r t', mallocStep P t call = some (r, t') ∧ True ∧ t'.Follows P (L.next call.2) := by
    rintro t L ⟨malloc, call⟩ ht ⟨halloc, hkey⟩
    obtain ⟨r, t', hs, ht'⟩ := wtableStep_ledger ht call hkey
    exact ⟨r, t', (mallocStep_eq t malloc call hkey halloc).trans hs, trivial, ht'⟩
  obtain ⟨rs, t, hrun, -, hend⟩ := Machine.run_follows hstep calls _ _
    (wtableCreate_follows garbage) ((halloc.along _).and_forall hkeys)
  exact ⟨rs, t, hrun, by rwa [List.foldl_map]⟩

/-- **Calls are atomic exactly when their allocations succeed.**

    The table is any that is reached by calls whose allocations succeeded (`halloc`), on keys that
    are not empty. The first conjunct says that it is a table to speak of: it holds nothing that was
    destroyed, when no value was handed over twice. The second is about one further call on a
    wildcard, for every outcome of its allocations: it is atomic if and only if it does not resize,
    or both of the allocations of the resize succeed. Atomic means that the call is defined, that
    both arrays are there afterwards, and that a call which returns false has changed no lookup and
    brought back no destroyed value (`AtomicCall`). -/
theorem wtable_call_atomic_iff (P : Platform) (garbage : ℕ) (calls : List (Mallocs × Call V))
    (hkeys : ∀ call ∈ calls, call.2.key.bytes ≠ [])
    (halloc : Machine.Guarded (mallocStep P) (Allocates P) (wtableCreate garbage) calls) :
    ∃ rs t, Machine.run (mallocStep P) (wtableCreate garbage) calls = some (rs, t) ∧
      ((givenValues (calls.map Prod.snd)).Nodup → t.Clean) ∧
      ∀ malloc (call : Call V), call.key.isWild → (AtomicCall P t (malloc, call) ↔
        (t.toUncachedWtable.resizes P call = true →
          malloc.wildcards = true ∧ malloc.cache = true)) := by
  obtain ⟨rs, t, hrun, ht⟩ := malloc_run_ledger garbage calls hkeys halloc
  exact ⟨rs, t, hrun,
    fun hdistinct =>
      slotValues_not_destroyed ht (Ledger.balanced_foldl _ Ledger.balanced_empty hdistinct),
    fun malloc call hwild => atomicCall_iff ht.holds malloc hwild⟩

/-- The wildcards `*`, `a*`, `aa*` and so on, all allocations succeeding. -/
def wildcardSets (n : ℕ) : List (Mallocs × Call ℕ) :=
  (List.range n).map fun i => (.ok, .set (longWildcard i) i)

/-- **A call that is not atomic**: the tenth wildcard grows the array, and the first allocation
    fails. -/
theorem wtable_set_notAtomic :
    ∃ rs t, Machine.run (mallocStep Platform.ieee) (wtableCreate 0) (wildcardSets 9)
        = some (rs, t) ∧
      ¬ AtomicCall Platform.ieee t (⟨false, true, true⟩, .set (longWildcard 9) 9) := by
  have hrun : (Machine.run (mallocStep Platform.ieee) (wtableCreate 0) (wildcardSets 9)).map
      (fun r => (mallocStep Platform.ieee r.2 (⟨false, true, true⟩, .set (longWildcard 9) 9)).map
        fun r => r.2.arraysOk) = some (some false) := by
    decide +kernel
  obtain ⟨⟨rs, t⟩, hr, hcall⟩ := Option.map_eq_some_iff.mp hrun
  refine ⟨rs, t, hr, ?_⟩
  rintro ⟨r, t', hstep, harr, -⟩
  rw [hstep, Option.map_some, harr] at hcall
  cases hcall

/-- Nine wildcards are set, and the tenth grows the array or fails to. -/
theorem wtable_call_atomic_iff_nine :
    ∃ rs t, Machine.run (mallocStep Platform.ieee) (wtableCreate 0) (wildcardSets 9)
        = some (rs, t) ∧
      ((givenValues ((wildcardSets 9).map Prod.snd)).Nodup → t.Clean) ∧
      ∀ malloc (call : Call ℕ), call.key.isWild → (AtomicCall Platform.ieee t (malloc, call) ↔
        (t.toUncachedWtable.resizes Platform.ieee call = true →
          malloc.wildcards = true ∧ malloc.cache = true)) :=
  wtable_call_atomic_iff Platform.ieee 0 (wildcardSets 9) (by decide) (by decide +kernel)

end Libfiu
