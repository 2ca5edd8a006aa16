/-
  The lookup cache of the wildcard table is transparent.

  The generic cache does return stale values, but not here: the table caches the result of the walk
  over its wildcards, positive or negative, and empties the cache with every call that changes the
  wildcards.  So the invariant is about ALL entries of the cache, those outside of their home slot
  included: each holds what the walk gives for its key now (`CacheAgrees`).

  * `resizeTable_eq`, `wtableSet_eq`, `wtableDel_eq`, `wtableGet_eq` — what a call with the cache
    does, from what it does without;
  * `wtableStep_spec` — both calls give the same reply and the same table, and the cache keeps
    agreeing; from it, by induction over the run, `wtable_run_cache_transparent`.

  What makes this work is the order of things inside of a call that writes: the cache is emptied
  after the array was resized and before, or after, the entry is written, all under the lock that
  keeps readers out. The uninitialised `c->size` only decides whether a resize of the cache keeps
  its entries or drops them, and either is right.
-/
import Libfiu.WtableSpec

namespace Libfiu

variable {V : Type} {P : Platform}

/-- Every entry in use, at home or displaced, holds what the walk over `ws` gives for its key. -/
def CacheAgrees (ws : List (Option (Wentry V))) (entries : List (Entry V)) : Prop :=
  ∀ key value, Entry.inUse key value ∈ entries → value = wildcardFor ws key

/-- A table with its cache, that holds the keys and values of `M`. -/
structure Wtable.Holds (P : Platform) (t : Wtable V) (M : CString → Option V) : Prop where
  uncached : t.toUncachedWtable.Represents P M
  cache : ∃ entries, t.wcache.Ready entries ∧
    ∀ ws, t.wildcards = some ws → CacheAgrees ws entries

/-- A new table holds nothing, and nothing is cached. -/
theorem wtableCreate_holds (garbage : ℕ) :
    (wtableCreate garbage : Wtable V).Holds P fun _ => none :=
  ⟨uncachedCreate_represents, _, cacheCreate_ready garbage, fun _ _ _ _ hm => by
    cases List.eq_of_mem_replicate hm⟩

/-! ## The calls, from those without the cache

Every call of the table is the call without the cache, with something done to the cache beside it.
So each proof has two parts: the other two components are those of `WtableSpec`, and the cache is
kept, which is to say that it was invalidated or that the wildcards stayed as they were. -/

/-- With memory the wildcards are moved. -/
theorem moveWildcards_true {t u : UncachedWtable V} {newSize : ℕ} {ok : Bool}
    (h : moveWildcards true t newSize = some (ok, u)) : ok = true := by
  simp only [moveWildcards, if_true, Option.bind_eq_bind, Option.bind_eq_some_iff] at h
  obtain ⟨old, -, u', -, h⟩ := h
  cases h
  rfl

/-- `resize_table`: the wildcards as without the cache, and a cache that can be used. -/
theorem Wtable.resizeTable_eq {t : Wtable V} {entries : List (Entry V)}
    (hc : t.wcache.Ready entries) {newSize : ℕ} {u : UncachedWtable V} {ok : Bool}
    (h : t.toUncachedWtable.resizeTable .ok newSize = some (ok, u)) :
    ok = true ∧ ∃ c entries', t.resizeTable P .ok newSize = some (true, { u with wcache := c }) ∧
      c.Ready entries' := by
  unfold UncachedWtable.resizeTable at h
  unfold Wtable.resizeTable
  split at h
  · rename_i hlt
    cases h
    exact ⟨rfl, t.wcache, entries, by rw [if_pos hlt], hc⟩
  · rename_i hlt
    obtain rfl := moveWildcards_true h
    obtain ⟨c, entries', hres, hc', -⟩ := cacheResize_eq (P := P) hc newSize
    refine ⟨rfl, c, entries', ?_, hc'⟩
    rw [if_neg hlt, h]
    simp [Mallocs.ok, hres]

/-- The growth before a wildcard is set. -/
theorem Wtable.grow_eq {t : Wtable V} {entries : List (Entry V)} (hc : t.wcache.Ready entries)
    {u : UncachedWtable V} {ok : Bool} (h : t.toUncachedWtable.grow P .ok = some (ok, u)) :
    ok = true ∧ ∃ c entries', t.grow P .ok = some (true, { u with wcache := c }) ∧
      c.Ready entries' := by
  unfold UncachedWtable.grow at h
  unfold Wtable.grow
  split at h
  · rename_i hfull
    rw [if_pos hfull]
    exact Wtable.resizeTable_eq hc h
  · rename_i hfull
    cases h
    exact ⟨rfl, t.wcache, entries, by rw [if_neg hfull], hc⟩

/-- The shrinking after a wildcard is deleted. -/
theorem Wtable.shrink_eq {t : Wtable V} {entries : List (Entry V)} (hc : t.wcache.Ready entries)
    {u : UncachedWtable V} {ok : Bool} (h : t.toUncachedWtable.shrink P .ok = some (ok, u)) :
    ok = true ∧ ∃ c entries', t.shrink P .ok = some (true, { u with wcache := c }) ∧
      c.Ready entries' := by
  unfold UncachedWtable.shrink at h
  unfold Wtable.shrink
  split at h
  · rename_i hsparse
    rw [if_pos hsparse]
    exact Wtable.resizeTable_eq hc h
  · rename_i hsparse
    cases h
    exact ⟨rfl, t.wcache, entries, by rw [if_neg hsparse], hc⟩

/-- After a call that changes the wildcards nothing is cached; after another one the cache and the
    wildcards are those from before. -/
def CacheKept (t : Wtable V) (u : UncachedWtable V) (entries entries' : List (Entry V)) : Prop :=
  (∀ key value, Entry.inUse key value ∉ entries') ∨
    (entries' = entries ∧ u.wildcards = t.wildcards)

/-- `wtable_set` does what it does without the cache, and keeps the cache. -/
theorem wtableSet_eq {t : Wtable V} {entries : List (Entry V)} (hc : t.wcache.Ready entries)
    {key : CString} {value : Option V} {r : Bool} {u : UncachedWtable V}
    (h : uncachedSet P .ok t.toUncachedWtable key value = some (r, u)) :
    ∃ c entries', wtableSet P .ok t key value = some (r, { u with wcache := c }) ∧
      c.Ready entries' ∧ CacheKept t u entries entries' := by
  simp only [uncachedSet, Option.bind_eq_bind, Option.bind_eq_some_iff] at h
  obtain ⟨wild, hwild, h⟩ := h
  cases wild with
  | true =>
    simp only [if_true, Option.bind_eq_some_iff] at h
    obtain ⟨⟨ok, u₁⟩, hgrow, h⟩ := h
    obtain ⟨rfl, c₁, entries₁, hgrow', hc₁⟩ := Wtable.grow_eq (P := P) hc hgrow
    obtain ⟨c₂, hinv, hc₂⟩ := cacheInvalidate_eq hc₁
    refine ⟨c₂, _, ?_, hc₂, Or.inl fun k v => not_inUse_invalidated⟩
    have hset : wildcardsSet u₁ key value = some (r, u) := by simpa using h
    simp [wtableSet, hwild, hgrow', Wtable.invalidate, hinv, hset, Wtable.withUncached]
  | false =>
    simp only [Bool.false_eq_true, if_false, Option.bind_eq_some_iff] at h
    obtain ⟨⟨r', h'⟩, hset, h⟩ := h
    cases h
    exact ⟨t.wcache, entries, by simp [wtableSet, hwild, hset], hc, Or.inr ⟨rfl, rfl⟩⟩

/-- `wtable_del` does what it does without the cache, and keeps the cache. -/
theorem wtableDel_eq {t : Wtable V} {entries : List (Entry V)} (hc : t.wcache.Ready entries)
    {key : CString} {r : Bool} {u : UncachedWtable V}
    (h : uncachedDel P .ok t.toUncachedWtable key = some (r, u)) :
    ∃ c entries', wtableDel P .ok t key = some (r, { u with wcache := c }) ∧
      c.Ready entries' ∧ CacheKept t u entries entries' := by
  simp only [uncachedDel, Option.bind_eq_bind, Option.bind_eq_some_iff] at h
  obtain ⟨wild, hwild, h⟩ := h
  cases wild with
  | true =>
    simp only [if_true, Option.bind_eq_some_iff] at h
    obtain ⟨ws, hslots, ⟨found, free⟩, hfind, h⟩ := h
    cases found with
    | none =>
      cases h
      exact ⟨t.wcache, entries, by simp [wtableDel, hwild, hslots, hfind], hc, Or.inr ⟨rfl, rfl⟩⟩
    | some e =>
      obtain ⟨pos, entry⟩ := e
      have hc' : (t.withUncached (t.toUncachedWtable.freeAt ws pos entry)).wcache.Ready entries := hc
      obtain ⟨rfl, c₁, entries₁, hshrink, hc₁⟩ := Wtable.shrink_eq (P := P) hc' h
      obtain ⟨c₂, hinv, hc₂⟩ := cacheInvalidate_eq hc₁
      refine ⟨c₂, _, ?_, hc₂, Or.inl fun k v => not_inUse_invalidated⟩
      simp [wtableDel, hwild, hslots, hfind, hshrink, Wtable.invalidate, hinv]
  | false =>
    simp only [Bool.false_eq_true, if_false, Option.bind_eq_some_iff] at h
    obtain ⟨⟨r', h'⟩, hdel, h⟩ := h
    cases h
    exact ⟨t.wcache, entries, by simp [wtableDel, hwild, hdel], hc, Or.inr ⟨rfl, rfl⟩⟩

/-- What the walk gives can be cached. -/
theorem CacheAgrees.set {ws : List (Option (Wentry V))} {entries : List (Entry V)}
    (h : CacheAgrees ws entries) (p : ℕ) (key : CString) :
    CacheAgrees ws (entries.set p (.inUse key (wildcardFor ws key))) := by
  intro k v hm
  rcases List.mem_or_eq_of_mem_set hm with hold | hnew
  · exact h k v hold
  · cases hnew
    rfl

/-- **`wtable_get`** gives what it gives without the cache, hit or miss. -/
theorem wtableGet_eq {t : Wtable V} {M : CString → Option V} (ht : t.Holds P M) (key : CString) :
    ∃ value c, wtableGet P t key = some (value, { t with wcache := c }) ∧
      uncachedGet P t.toUncachedWtable key = some value ∧
      ({ t with wcache := c } : Wtable V).Holds P M := by
  obtain ⟨hrep, entries, hc, hagree⟩ := ht
  obtain ⟨ws, hw, hM⟩ := hrep.array
  have hcoh := hagree ws hw.wildcards_eq
  have hget := uncachedGet_eq hrep hw key
  cases hfin : (finalsOf M key).isSome with
  | true =>
    rw [hfin, if_pos rfl] at hget
    exact ⟨finalsOf M key, t.wcache, by simp [wtableGet, hashGet_eq hrep.finals, hfin], hget,
      hrep, entries, hc, hagree⟩
  | false =>
    rw [hfin, if_neg Bool.false_ne_true] at hget
    rcases cacheGet_eq (P := P) hc key with ⟨v, hv, hhit⟩ | hmiss
    · -- a hit: the cache agrees with the walk
      obtain rfl := hcoh key v (List.mem_of_getElem? hv)
      exact ⟨_, t.wcache, by simp [wtableGet, hashGet_eq hrep.finals, hfin, hhit], hget, hrep,
        entries, hc, hagree⟩
    · obtain ⟨free, hfind, -⟩ := hw.findEntry_eq key false
      obtain ⟨c', hset, -, hc'⟩ := cacheSet_eq (P := P) hc key (wildcardFor ws key)
      refine ⟨wildcardFor ws key, c', ?_, hget, hrep, _, hc', fun ws' hws' => ?_⟩
      · rw [wildcardFor] at hset
        simp [wtableGet, hashGet_eq hrep.finals, hfin, hmiss, hfind, hset, wildcardFor]
      · obtain rfl : ws = ws' := Option.some.inj (hw.wildcards_eq.symm.trans hws')
        exact hcoh.set _ key

/-! ## Runs

A simulation of two machines: the table, and the same table without its cache, of which nothing but
the other two components is known. -/

/-- One call of a table, its allocations succeeding. -/
def wtableStep (P : Platform) (t : Wtable V) : Call V → Option (Reply V × Wtable V)
  | .set key value => (wtableSet P .ok t key (some value)).map fun r => (.bool r.1, r.2)
  | .del key => (wtableDel P .ok t key).map fun r => (.bool r.1, r.2)
  | .get key => (wtableGet P t key).map fun r => (.ptr r.1, r.2)

/-- A cache that was kept agrees with the wildcards that are there now. -/
theorem CacheKept.holds {t : Wtable V} {u : UncachedWtable V} {c : Cache V} {M : CString → Option V}
    {entries entries' : List (Entry V)} (hk : CacheKept t u entries entries')
    (hagree : ∀ ws, t.wildcards = some ws → CacheAgrees ws entries) (hu : u.Represents P M)
    (hc : c.Ready entries') : ({ u with wcache := c } : Wtable V).Holds P M := by
  refine ⟨hu, entries', hc, fun ws hws => ?_⟩
  rcases hk with hempty | ⟨rfl, hsame⟩
  · exact fun k v hm => absurd hm (hempty k v)
  · exact hagree ws (hsame ▸ hws)

/-- **One call**: the reply and the table are those without the cache, and the cache agrees. -/
theorem wtableStep_spec {t : Wtable V} {M : CString → Option V} (ht : t.Holds P M)
    {ws : List (Option (Wentry V))} (hw : t.toUncachedWtable.WF ws) (call : Call V)
    (hkey : call.key.bytes ≠ []) :
    ∃ t', wtableStep P t call = some (slotReply M ws call, t') ∧
      uncachedStep P t.toUncachedWtable call = some (slotReply M ws call, t'.toUncachedWtable) ∧
      t'.Holds P (mapNext M call) ∧
      t'.allDestroyed.Perm (t.allDestroyed ++ (displaced M call).map some) := by
  obtain ⟨u, hstep, hu, hd⟩ := uncachedStep_spec ht.uncached hw call hkey
  obtain ⟨entries, hc, hagree⟩ := ht.cache
  cases call with
  | set key value =>
    obtain ⟨⟨r, u'⟩, hset, he⟩ := Option.map_eq_some_iff.mp hstep
    cases he
    obtain ⟨c, entries', hset', hc', hk⟩ := wtableSet_eq hc hset
    exact ⟨{ u' with wcache := c }, by rw [wtableStep, hset']; rfl, hstep, hk.holds hagree hu hc', hd⟩
  | del key =>
    obtain ⟨⟨r, u'⟩, hdel, he⟩ := Option.map_eq_some_iff.mp hstep
    cases he
    obtain ⟨c, entries', hdel', hc', hk⟩ := wtableDel_eq hc hdel
    exact ⟨{ u' with wcache := c }, by rw [wtableStep, hdel']; rfl, hstep, hk.holds hagree hu hc', hd⟩
  | get key =>
    obtain ⟨value, c, hget, hget', hholds⟩ := wtableGet_eq ht key
    obtain ⟨v, hv, he⟩ := Option.map_eq_some_iff.mp hstep
    rw [hget', Option.some.injEq] at hv
    subst hv
    obtain ⟨hr, rfl⟩ := Prod.mk.inj he
    refine ⟨{ t with wcache := c }, ?_, hstep, hholds, hd⟩
    rw [wtableStep, hget, Option.map_some, hr]

/-- A get leaves the table without the cache as it is. -/
theorem uncachedStep_get {t t' : UncachedWtable V} {key : CString} {r : Reply V}
    (h : uncachedStep P t (.get key) = some (r, t')) : t' = t := by
  obtain ⟨v, -, he⟩ := Option.map_eq_some_iff.mp h
  cases he
  rfl

/-- Runs with and without the cache, from related tables. -/
theorem wtable_run_eq {t : Wtable V} {M : CString → Option V} (ht : t.Holds P M)
    (calls : List (Call V)) (hkeys : ∀ call ∈ calls, call.key.bytes ≠ []) :
    ∃ rs t', Machine.run (wtableStep P) t calls = some (rs, t') ∧
      Machine.run (uncachedStep P) t.toUncachedWtable calls = some (rs, t'.toUncachedWtable) := by
  obtain ⟨rs, t', u, hrun, hrun', hR⟩ := Machine.run_simulates
    (R := fun (t : Wtable V) (u : UncachedWtable V) =>
      u = t.toUncachedWtable ∧ ∃ M, t.Holds P M) (fun s u call hR hkey => by
      obtain ⟨rfl, M, ht⟩ := hR
      obtain ⟨ws, hw, -⟩ := ht.uncached.array
      obtain ⟨t', hstep, hstep', ht', -⟩ := wtableStep_spec ht hw call hkey
      exact ⟨_, t', t'.toUncachedWtable, hstep, hstep', rfl, _, ht'⟩)
    calls t t.toUncachedWtable ⟨rfl, M, ht⟩ hkeys
  obtain ⟨rfl, -⟩ := hR
  exact ⟨rs, t', hrun, hrun'⟩

/-- **The cache is transparent.** In every run of calls with keys that are not empty (`hkeys`):

    * the table replies as the same table without the cache does, and both end with the same slots;
    * a run from which some of the gets are left out (the marked calls, which `hgets` says are gets)
      gives the same replies to the other calls.

    The uninitialised field `c->size` has any value at all, `garbage` in the one cache and
    `garbage'` in the other. -/
theorem wtable_run_cache_transparent (P : Platform) (garbage garbage' : ℕ)
    (calls : List (Bool × Call V)) (hkeys : ∀ m ∈ calls, m.2.key.bytes ≠ [])
    (hgets : ∀ m ∈ calls, m.1 = true → ∃ key, m.2 = .get key) :
    ∃ rs t, Machine.run (wtableStep P) (wtableCreate garbage) (calls.map Prod.snd) = some (rs, t) ∧
      Machine.run (uncachedStep P) uncachedCreate (calls.map Prod.snd)
        = some (rs, t.toUncachedWtable) ∧
      ∃ t', Machine.run (wtableStep P) (wtableCreate garbage') (Machine.unmarked calls)
        = some (Machine.unmarked ((calls.map Prod.fst).zip rs), t') := by
  obtain ⟨rs, t, hrun, hrun'⟩ := wtable_run_eq (P := P) (wtableCreate_holds garbage)
    (calls.map Prod.snd) (by
      intro call hcall
      obtain ⟨m, hm, rfl⟩ := List.mem_map.mp hcall
      exact hkeys m hm)
  refine ⟨rs, t, hrun, hrun', ?_⟩
  have hleft := Machine.run_unmarked calls _ rs _ (fun m hm hmark s o u hs => by
    obtain ⟨key, hkey⟩ := hgets m hm hmark
    rw [hkey] at hs
    exact uncachedStep_get hs) hrun'
  obtain ⟨rs', t', hrun₂, hrun₂'⟩ := wtable_run_eq (P := P) (wtableCreate_holds garbage')
    (Machine.unmarked calls) (by
      intro call hcall
      obtain ⟨m, hm, rfl⟩ := List.mem_map.mp hcall
      exact hkeys m (List.mem_filter.mp hm).1)
  have hsame := Option.some.inj (hrun₂'.symm.trans hleft)
  rw [(Prod.mk.inj hsame).1] at hrun₂
  exact ⟨t', hrun₂⟩

/-- `"*"` is set, `"j"` looked up twice, the first time in vain for the second run, and `"*"`
    deleted. -/
def markedCalls : List (Bool × Call ℕ) :=
  [(false, .set ⟨[star], by decide⟩ 1), (true, .get keyJ), (false, .get keyJ),
    (false, .del ⟨[star], by decide⟩), (false, .get keyJ)]

theorem wtable_run_cache_transparent_marked :
    ∃ rs t, Machine.run (wtableStep Platform.ieee) (wtableCreate 0) (markedCalls.map Prod.snd)
        = some (rs, t) ∧
      Machine.run (uncachedStep Platform.ieee) uncachedCreate (markedCalls.map Prod.snd)
        = some (rs, t.toUncachedWtable) ∧
      ∃ t', Machine.run (wtableStep Platform.ieee) (wtableCreate 7) (Machine.unmarked markedCalls)
        = some (Machine.unmarked ((markedCalls.map Prod.fst).zip rs), t') :=
  wtable_run_cache_transparent Platform.ieee 0 7 markedCalls (by decide)
    (by simp [markedCalls])

end Libfiu
