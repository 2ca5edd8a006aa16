/-
  Lookups of concurrent calls are linearisable.

  The set of enabled points is what the writings of the history leave (`enabledAfter`).  What
  `wtable_get` yields to a call of `fiu_fail`, in whatever interleaving, is what a lookup without the
  cache yields on the points that were enabled when the call took the lock.

  Three assertions carry the proof, and `threads_invariant` shows that no step breaks one:

  * `TableHolds` — when nobody writes, the table follows the ledger of the history;
  * `GetHolds`   — a reader in the middle of its lookup is on the way to the right value: that its
    `probe` ends where the whole `hash_get` does, that its `scan` does, that what it is about to
    put into the cache is what a scan gives now.  These are about the table WITHOUT its cache, so
    other readers, that only write the cache, do not interfere;
  * `Writing`    — what is left of a writer's call brings the table to where the ledger will be.

  A reader keeps writers out, so the table of the lookup is the one from when the lock was taken
  (`uncached_kept`).
-/
import Libfiu.FiuThreadsSpec

namespace Libfiu

open Threads Probing

variable {W : Type} {P : Platform} {l : Linker}

/-! ## The history

The table at some moment is what the writings up to then make of it, so a lookup can be compared
with the history alone. -/

/-- The writings of a history. -/
def writesOf (h : List (ℕ × Event)) : List (Call ℕ) :=
  h.filterMap fun e => match e.2 with
    | .wrote call => some call
    | _ => none

/-- The ledger of the writings. -/
def ledgerOf (h : List (ℕ × Event)) : Ledger ℕ := (writesOf h).foldl Ledger.next Ledger.empty

/-- The points that are enabled after a history, under their names. -/
def enabledAfter (h : List (ℕ × Event)) : CString → Option ℕ :=
  (writesOf h).foldl mapNext fun _ => none

/-- The map of a ledger moves by itself. -/
theorem foldl_next_map : ∀ (calls : List (Call ℕ)) (L : Ledger ℕ),
    (calls.foldl Ledger.next L).map = calls.foldl mapNext L.map
  | [], _ => rfl
  | call :: calls, L => foldl_next_map calls (L.next call)

/-- The map of the ledger is what is enabled after the history. -/
theorem ledgerOf_map (h : List (ℕ × Event)) : (ledgerOf h).map = enabledAfter h :=
  foldl_next_map (writesOf h) Ledger.empty

/-- Most events write nothing. -/
theorem writesOf_other (h : List (ℕ × Event)) {i : ℕ} {e : Event} (he : ∀ call, e ≠ .wrote call) :
    writesOf (h ++ [(i, e)]) = writesOf h := by
  rw [writesOf, List.filterMap_append]
  cases e with
  | wrote call => exact absurd rfl (he call)
  | _ => exact List.append_nil _

/-- A writing comes last. -/
theorem writesOf_wrote (h : List (ℕ × Event)) (i : ℕ) (call : Call ℕ) :
    writesOf (h ++ [(i, .wrote call)]) = writesOf h ++ [call] := by
  rw [writesOf, List.filterMap_append]
  rfl

/-- Other events leave the ledger as it is. -/
theorem ledgerOf_other (h : List (ℕ × Event)) {i : ℕ} {e : Event} (he : ∀ call, e ≠ .wrote call) :
    ledgerOf (h ++ [(i, e)]) = ledgerOf h := by
  rw [ledgerOf, writesOf_other h he, ledgerOf]

/-- A writing moves the ledger. -/
theorem ledgerOf_wrote (h : List (ℕ × Event)) (i : ℕ) (call : Call ℕ) :
    ledgerOf (h ++ [(i, .wrote call)]) = (ledgerOf h).next call := by
  rw [ledgerOf, writesOf_wrote, List.foldl_append]
  rfl

/-! ## A lookup on its way

What is left of the lookup, from where it is, gives what the whole lookup gives. The cache may only
say what the walk over the wildcards would say, and it agrees with them as long as no writer comes
in. -/

/-- What the walk over the wildcards gives. -/
def walk (t : UncachedWtable ℕ) (name : CString) : Option (Option ℕ) :=
  (wildcardsFindEntry t name false).map fun r => r.1.bind fun e => e.2.value

/-- The lookup of `name` is on the way to what it yields without the cache. -/
def GetHolds (P : Platform) (t : UncachedWtable ℕ) (name : CString) : GetPc → Prop
  | .start => True
  | .probe left pos => ∃ entries, t.finals.slots = some entries ∧
      probe ((Entry.scheme P).stopsAt name) entries left pos = findSlot P entries name
  | .cacheGet => hashGet P t.finals name = some none
  | .scan pos => hashGet P t.finals name = some none ∧ ∃ ws free, t.slots = some ws ∧
      findEntryFrom name false (ws.drop pos) pos free = wildcardsFindEntry t name false
  | .cacheSet value => hashGet P t.finals name = some none ∧ walk t name = some value
  | .done value => uncachedGet P t name = some value

/-- The two halves of a lookup without the cache. -/
theorem uncachedGet_of_hash {t : UncachedWtable ℕ} {name : CString} {value : Option ℕ}
    (h : hashGet P t.finals name = some value) (hv : value.isSome) :
    uncachedGet P t name = some value := by
  simp [uncachedGet, h, hv]

/-- The lookup of a name that is not found among the finals. -/
theorem uncachedGet_of_walk {t : UncachedWtable ℕ} {name : CString} {value : Option ℕ}
    (h : hashGet P t.finals name = some none) (hw : walk t name = some value) :
    uncachedGet P t name = some value := by
  obtain ⟨⟨found, free⟩, hfind, hv⟩ := Option.map_eq_some_iff.mp hw
  simp only [uncachedGet, h, Option.bind_eq_bind, Option.bind_some, hfind]
  exact congrArg some hv

/-- What the walk gives, from what the array holds. -/
theorem walk_eq {t : UncachedWtable ℕ} {ws : List (Option (Wentry ℕ))} (hw : t.WF ws)
    (name : CString) : walk t name = some (wildcardFor ws name) := by
  obtain ⟨free, hfind, -⟩ := hw.findEntry_eq name false
  rw [walk, hfind, Option.map_some, wildcardFor]

/-- The value that `hash_get` gives for the slot at which its loop ends. -/
def valueAt (entries : List (Entry ℕ)) (pos : Option ℕ) : Option ℕ :=
  match pos with
  | none => none
  | some pos =>
    match entries[pos]? with
    | some (.inUse _ value) => value
    | _ => none

/-- `hash_get`, by the slot at which its loop ends. -/
theorem hashGet_of_slots {h : Hash ℕ} {entries : List (Entry ℕ)} (hs : h.slots = some entries)
    (name : CString) : hashGet P h name = some (valueAt entries (findSlot P entries name)) := by
  cases hf : findSlot P entries name with
  | none => simp [hashGet, hs, hf, valueAt]
  | some pos =>
    simp only [hashGet, hs, hf, valueAt, Option.bind_eq_bind, Option.bind_some]
    cases entries[pos]? with
    | none => rfl
    | some slot => cases slot <;> rfl

/-- One turn of the loop of `hash_get`. -/
theorem probe_turn {entries : List (Entry ℕ)} {name : CString} {left pos : ℕ} {slot : Entry ℕ}
    (hslot : entries[pos]? = some slot) :
    probe ((Entry.scheme P).stopsAt name) entries (left + 1) pos
      = if slot.isNever ∨ slot.key? = some name then some pos
        else probe ((Entry.scheme P).stopsAt name) entries left ((pos + 1) % entries.length) := by
  have hstop : (Entry.scheme P).stopsAt name slot = true ↔ slot.isNever ∨ slot.key? = some name := by
    show (slot.isNever || decide (slot.key? = some name)) = true ↔ _
    rw [Bool.or_eq_true, decide_eq_true_iff]
  rw [probe, hslot]
  by_cases h : slot.isNever ∨ slot.key? = some name
  · simp only [hstop.mpr h, if_true, if_pos h]
  · simp only [mt hstop.mp h, if_neg h]
    rfl

/-- One turn of the loop of `wildcards_find_entry`. -/
theorem scan_turn {ws : List (Option (Wentry ℕ))} {pos : ℕ} {slot : Option (Wentry ℕ)}
    (hslot : ws[pos]? = some slot) : ws.drop pos = slot :: ws.drop (pos + 1) := by
  obtain ⟨hlt, rfl⟩ := List.getElem?_eq_some_iff.mp hslot
  exact List.drop_eq_getElem_cons hlt

/-- **One step of `wtable_get`** on a table whose cache agrees with its wildcards. -/
theorem getStep_holds {name : CString} {pc pc' : GetPc} {t t' : Wtable ℕ} {M : CString → Option ℕ}
    (ht : t.Holds P M) (hpc : GetHolds P t.toUncachedWtable name pc)
    (h : getStep P name pc t = some (pc', t')) :
    t'.Holds P M ∧ GetHolds P t.toUncachedWtable name pc' := by
  cases pc with
  | start =>
    -- the walk over the finals begins, with all of their slots left
    obtain ⟨entries, hs, h⟩ := Option.bind_eq_some_iff.mp h
    cases h
    exact ⟨ht, entries, hs, rfl⟩
  | probe left pos =>
    obtain ⟨entries, hs, hprobe⟩ := hpc
    have hget := hashGet_of_slots (P := P) hs name
    cases left with
    | zero =>
      -- all slots were read, and none of them ended the walk
      cases h
      refine ⟨ht, ?_⟩
      show hashGet P t.finals name = some none
      rw [hget, ← hprobe]
      rfl
    | succ left =>
      obtain ⟨entries', hs', h⟩ := Option.bind_eq_some_iff.mp h
      obtain rfl := Option.some.inj (hs.symm.trans hs')
      obtain ⟨slot, hslot, h⟩ := Option.bind_eq_some_iff.mp h
      rw [probe_turn hslot] at hprobe
      cases slot with
      | never =>
        -- the end of the chain: the name is not a final key
        cases h
        simp only [Entry.isNever, true_or, if_true] at hprobe
        refine ⟨ht, ?_⟩
        show hashGet P t.finals name = some none
        rw [hget, ← hprobe, valueAt, hslot]
      | inUse key value =>
        by_cases hkey : key = name
        · -- the key itself, with a value or deleted in the meantime
          subst hkey
          simp only [Entry.key?, or_true, if_true] at hprobe
          have hv : hashGet P t.finals key = some value := by rw [hget, ← hprobe, valueAt, hslot]
          dsimp only at h
          rw [if_pos rfl] at h
          cases h
          refine ⟨ht, ?_⟩
          cases value with
          | none => exact hv
          | some v => exact uncachedGet_of_hash hv rfl
        · -- another key, so the walk goes on
          dsimp only at h
          rw [if_neg hkey] at h
          cases h
          rw [if_neg (by simp [Entry.isNever, Entry.key?, hkey])] at hprobe
          exact ⟨ht, entries, hs, hprobe⟩
      | removed =>
        cases h
        rw [if_neg (by simp [Entry.isNever, Entry.key?])] at hprobe
        exact ⟨ht, entries, hs, hprobe⟩
  | cacheGet =>
    obtain ⟨⟨hit, value⟩, hcache, h⟩ := Option.bind_eq_some_iff.mp h
    cases h
    refine ⟨ht, ?_⟩
    obtain ⟨hrep, entries, hc, hagree⟩ := ht
    obtain ⟨ws, hw, -⟩ := hrep.array
    rcases cacheGet_eq (P := P) hc name with ⟨v, hv, hhit⟩ | hmiss
    · -- a hit: the cache agrees with the walk
      rw [hhit] at hcache
      cases hcache
      obtain rfl := hagree ws hw.wildcards_eq name _ (List.mem_of_getElem? hv)
      exact uncachedGet_of_walk hpc (walk_eq hw name)
    · -- a miss: nothing of the wildcards was walked over yet
      rw [hmiss] at hcache
      cases hcache
      exact ⟨hpc, ws, none, hw.slots_eq, by
        show findEntryFrom name false ws 0 none = _
        simp [wildcardsFindEntry, hw.slots_eq]⟩
  | scan pos =>
    -- the same for the walk over the wildcards, whose end is the end of the array
    obtain ⟨hnone, ws, free, hs, hfind⟩ := hpc
    obtain ⟨ws', hs', h⟩ := Option.bind_eq_some_iff.mp h
    obtain rfl := Option.some.inj (hs.symm.trans hs')
    cases hslot : ws[pos]? with
    | none =>
      rw [hslot] at h
      cases h
      rw [List.drop_eq_nil_of_le (List.getElem?_eq_none_iff.mp hslot)] at hfind
      refine ⟨ht, hnone, ?_⟩
      rw [walk, ← hfind]
      rfl
    | some slot =>
      rw [hslot] at h
      rw [scan_turn hslot] at hfind
      cases slot with
      | none =>
        cases h
        exact ⟨ht, hnone, ws, _, hs, hfind⟩
      | some entry =>
        obtain ⟨found, hmatch, h⟩ := Option.bind_eq_some_iff.mp h
        cases h
        refine ⟨ht, ?_⟩
        cases found with
        | true =>
          refine ⟨hnone, ?_⟩
          rw [walk, ← hfind]
          simp [findEntryFrom, hmatch]
        | false => exact ⟨hnone, ws, free, hs, by rw [← hfind]; simp [findEntryFrom, hmatch]⟩
  | cacheSet value =>
    -- the entry that is stored is what the walk gave, so the cache still agrees
    obtain ⟨hnone, hwalk⟩ := hpc
    obtain ⟨⟨ok, c⟩, hset, h⟩ := Option.bind_eq_some_iff.mp h
    cases h
    refine ⟨?_, uncachedGet_of_walk hnone hwalk⟩
    obtain ⟨hrep, entries, hc, hagree⟩ := ht
    obtain ⟨ws, hw, -⟩ := hrep.array
    obtain ⟨c', hset', -, hc'⟩ := cacheSet_eq (P := P) hc name value
    rw [hset'] at hset
    cases hset
    rw [walk_eq hw, Option.some.injEq] at hwalk
    subst hwalk
    refine ⟨hrep, _, hc', fun ws' hws' => ?_⟩
    obtain rfl : ws = ws' := Option.some.inj (hw.wildcards_eq.symm.trans hws')
    exact (hagree ws hws').set _ name
  | done value => cases h

/-! ## What is left of a writer's call

The steps of a writer, put together again: what they leave and return is what `wtableSet` and
`wtableDel` do in one step. -/

/-- The steps of `wtable_set` or `wtable_del` that are left return `r` and leave `t'`. -/
inductive Finishes (P : Platform) (call : Call ℕ) :
    WritePc → Wtable ℕ → Bool → Wtable ℕ → Prop
  | done (r : Bool) (t : Wtable ℕ) : Finishes P call (.done r) t r t
  | step {pc pc' : WritePc} {t t₁ t' : Wtable ℕ} {r : Bool}
      (hstep : writeStep P call pc t = some (pc', t₁)) (hrest : Finishes P call pc' t₁ r t') :
      Finishes P call pc t r t'

namespace Finishes

variable {call : Call ℕ} {pc pc' : WritePc} {t t₁ t' : Wtable ℕ} {r ok : Bool}

/-- A step leaves the other steps. -/
theorem after (h : Finishes P call pc t r t') (hstep : writeStep P call pc t = some (pc', t₁)) :
    Finishes P call pc' t₁ r t' := by
  cases h with
  | done => cases hstep
  | step hstep' hrest =>
    rw [hstep] at hstep'
    cases hstep'
    exact hrest

/-- Behind the last one nothing is left. -/
theorem of_done (h : Finishes P call (.done ok) t r t') : ok = r ∧ t = t' := by
  cases h with
  | done => exact ⟨rfl, rfl⟩
  | step hstep => cases hstep

/-- The resizing is `resize_table`, if the size is to change at all. -/
theorem resize (h : (match t.newSize P call with
      | none => some (true, t)
      | some newSize => t.resizeTable P .ok newSize) = some (ok, t₁))
    (hrest : ok = true → Finishes P call .invalidate t₁ r t')
    (hfail : ok = false → r = false ∧ t' = t₁) : Finishes P call .resize t r t' := by
  cases hsize : t.newSize P call with
  | none =>
    rw [hsize] at h
    cases h
    exact .step (by rw [writeStep, hsize]) (hrest rfl)
  | some newSize =>
    rw [hsize] at h
    by_cases hmin : newSize < minSize
    · have h' : t.resizeTable P .ok newSize = some (ok, t₁) := h
      rw [Wtable.resizeTable, if_pos hmin] at h'
      cases h'
      exact .step (by simp [writeStep, hsize, hmin]) (hrest rfl)
    · have h' : t.resizeTable P .ok newSize = some (ok, t₁) := h
      rw [Wtable.resizeTable, if_neg hmin] at h'
      obtain ⟨⟨moved, u⟩, hmove, h'⟩ := Option.bind_eq_some_iff.mp h'
      have hmove' : moveWildcards true t.toUncachedWtable newSize = some (moved, u) := hmove
      cases moved with
      | true =>
        obtain ⟨⟨ok', c⟩, hcache, h'⟩ := Option.bind_eq_some_iff.mp h'
        cases h'
        have hcache' : cacheResize P true t.wcache newSize = some (ok', c) := hcache
        have hfirst : writeStep P call .resize t = some (.cacheResize newSize, t.withUncached u) := by
          simp [writeStep, hsize, hmin, hmove']
        have hsecond : writeStep P call (.cacheResize newSize) (t.withUncached u)
            = some (.invalidate, { u with wcache := c }) := by
          simp [writeStep, Wtable.withUncached, hcache']
        exact .step hfirst (.step hsecond (hrest rfl))
      | false =>
        cases h'
        obtain ⟨rfl, rfl⟩ := hfail rfl
        exact .step (by simp only [writeStep, hsize, hmin, if_false, hmove']; rfl) (.done _ _)

end Finishes

/-- The growth, by the size that is to come. -/
theorem Wtable.grow_eq_newSize (t : Wtable ℕ) (key : CString) (value : ℕ) :
    t.grow P .ok = match t.newSize P (.set key value) with
      | none => some (true, t)
      | some newSize => t.resizeTable P .ok newSize := by
  unfold Wtable.grow UncachedWtable.newSize
  cases t.almostFull <;> rfl

/-- The shrinking, by the size that is to come. -/
theorem Wtable.shrink_eq_newSize (t : Wtable ℕ) (key : CString) :
    t.shrink P .ok = match t.newSize P (.del key) with
      | none => some (true, t)
      | some newSize => t.resizeTable P .ok newSize := by
  unfold Wtable.shrink UncachedWtable.newSize
  cases t.sparse P <;> rfl

/-- The steps of `wtable_set`, one after another. -/
theorem finishes_set {key : CString} {value : ℕ} {t t' : Wtable ℕ} {r : Bool}
    (h : wtableSet P .ok t key (some value) = some (r, t')) :
    Finishes P (.set key value) .start t r t' := by
  obtain ⟨wild, hwild, h⟩ := Option.bind_eq_some_iff.mp h
  cases wild with
  | true =>
    obtain ⟨⟨ok, t₁⟩, hgrow, h⟩ := Option.bind_eq_some_iff.mp h
    refine .step (by simp only [writeStep, Call.key, hwild]; rfl) ?_
    rw [Wtable.grow_eq_newSize t key value] at hgrow
    refine Finishes.resize hgrow (fun hok => ?_) (fun hok => ?_)
    · subst hok
      obtain ⟨t₂, hinv, h⟩ := Option.bind_eq_some_iff.mp h
      obtain ⟨⟨r', u⟩, hset, h⟩ := Option.bind_eq_some_iff.mp h
      cases h
      refine .step (by simp only [writeStep, hinv]; rfl) ?_
      exact .step (by simp only [writeStep, hset]; rfl) (.done _ _)
    · subst hok
      cases h
      exact ⟨rfl, rfl⟩
  | false =>
    obtain ⟨⟨r', finals⟩, hset, h⟩ := Option.bind_eq_some_iff.mp h
    have hset' : hashSet P true t.finals key (some value) = some (r', finals) := hset
    cases h
    exact .step (by simp only [writeStep, Call.key, hwild, hset']; rfl) (.done _ _)

/-- The steps of `wtable_del`, one after another. -/
theorem finishes_del {key : CString} {t t' : Wtable ℕ} {r : Bool}
    (h : wtableDel P .ok t key = some (r, t')) : Finishes P (.del key) .start t r t' := by
  obtain ⟨wild, hwild, h⟩ := Option.bind_eq_some_iff.mp h
  cases wild with
  | true =>
    obtain ⟨ws, hws, h⟩ := Option.bind_eq_some_iff.mp h
    obtain ⟨⟨found, free⟩, hfind, h⟩ := Option.bind_eq_some_iff.mp h
    cases found with
    | none =>
      cases h
      exact .step (by simp only [writeStep, Call.key, hwild, hws, hfind]; rfl) (.done _ _)
    | some e =>
      obtain ⟨pos, entry⟩ := e
      obtain ⟨⟨ok, t₁⟩, hshrink, h⟩ := Option.bind_eq_some_iff.mp h
      refine .step (by simp only [writeStep, Call.key, hwild, hws, hfind]; rfl) ?_
      rw [Wtable.shrink_eq_newSize _ key] at hshrink
      refine Finishes.resize hshrink (fun hok => ?_) (fun hok => ?_)
      · subst hok
        obtain ⟨t₂, hinv, h⟩ := Option.bind_eq_some_iff.mp h
        cases h
        exact .step (by simp only [writeStep, hinv]; rfl) (.done _ _)
      · subst hok
        cases h
        exact ⟨rfl, rfl⟩
  | false =>
    obtain ⟨⟨r', finals⟩, hdel, h⟩ := Option.bind_eq_some_iff.mp h
    have hdel' : hashDel P true t.finals key = some (r', finals) := hdel
    cases h
    exact .step (by simp only [writeStep, Call.key, hwild, hdel']; rfl) (.done _ _)

/-! ## The assertions

One for the shared state and one for each thread. A writer may break what holds of the table, and
then it is the assertion of the writer that says how it will be restored. -/

/-- The table and the points, whoever has the turn: when nobody writes, the table follows the ledger
    of the history; and no point was put into it twice. -/
structure TableHolds (P : Platform) (h : List (ℕ × Event)) (s : Shared W) : Prop where
  table : ∃ t, s.enabledFails = some t ∧
    (s.enabledFailsLock.writer = none → t.Follows P (ledgerOf h))
  distinct : (givenValues (writesOf h)).Nodup
  old : ∀ id ∈ givenValues (writesOf h), id < s.pfs.length

/-- A writer that is in its call at `pc`. -/
structure Writing (P : Platform) (h : List (ℕ × Event)) (s : Shared W) (call : Call ℕ)
    (pc : WritePc) : Prop where
  finishes : ∃ t r t', s.enabledFails = some t ∧ Finishes P call pc t r t' ∧
    t'.Follows P ((ledgerOf h).next call)
  fresh : ∀ id ∈ givenValues [call], id ∉ givenValues (writesOf h) ∧ id < s.pfs.length

/-- The name of what a thread wants to write. -/
def WriteOp.name : WriteOp W → CString
  | .insert pf => pf.name
  | .disable name => name

/-- What holds where the thread is, besides who holds the lock. -/
def Thread.Asserts (P : Platform) (h : List (ℕ × Event)) (s : Shared W) : Thread W → Prop
  | .get _ name pc => ∃ t, s.enabledFails = some t ∧ GetHolds P t.toUncachedWtable name pc
  | .point _ name id _ => ∃ t, s.enabledFails = some t ∧
      uncachedGet P t.toUncachedWtable name = some (some id)
  | .wlock op => op.name.bytes ≠ []
  | .write call pc => Writing P h s call pc
  | _ => True

/-- A step that leaves the table and writes nothing. -/
theorem TableHolds.keep {h : List (ℕ × Event)} {s s' : Shared W} (hI : TableHolds P h s) {i : ℕ}
    {e : Event} (he : ∀ call, e ≠ .wrote call) (htable : s'.enabledFails = s.enabledFails)
    (hwriter : s'.enabledFailsLock.writer = none → s.enabledFailsLock.writer = none)
    (hlen : s.pfs.length ≤ s'.pfs.length) : TableHolds P (h ++ [(i, e)]) s' where
  table := by
    obtain ⟨t, ht, hfol⟩ := hI.table
    refine ⟨t, htable.trans ht, fun hw => ?_⟩
    rw [ledgerOf_other h he]
    exact hfol (hwriter hw)
  distinct := by
    rw [writesOf_other h he]
    exact hI.distinct
  old := by
    intro id hid
    rw [writesOf_other h he] at hid
    exact lt_of_lt_of_le (hI.old id hid) hlen

section own

variable {h : List (ℕ × Event)} {i : ℕ} {a : Choice W} {s s' : Shared W} {th th' : Thread W}
  {e : Event}

/-- A thread that takes the lock for writing starts on a table that follows the ledger. -/
theorem writing_begin (hI : TableHolds P h s) {op : WriteOp W} (hname : op.name.bytes ≠ [])
    (hw : s.enabledFailsLock.writer = none) {k : RwLock ℕ} :
    Writing P (h ++ [(i, .internal)]) { (op.begin s.toFiu).1 with enabledFailsLock := k }
      (op.begin s.toFiu).2 .start := by
  obtain ⟨t, ht, hfol⟩ := hI.table
  have hL : ledgerOf (h ++ [(i, .internal)]) = ledgerOf h :=
    ledgerOf_other h fun call he => by cases he
  have hW : writesOf (h ++ [(i, .internal)]) = writesOf h :=
    writesOf_other h fun call he => by cases he
  cases op with
  | insert pf =>
    have hkey : (Call.set pf.name s.pfs.length : Call ℕ).key.bytes ≠ [] := hname
    obtain ⟨r, t', hstep, hfol'⟩ := wtableStep_ledger (hfol hw) _ hkey
    obtain ⟨⟨b, t₁⟩, hset, hr⟩ := Option.map_eq_some_iff.mp hstep
    cases hr
    refine ⟨⟨t, b, t₁, ht, finishes_set hset, by rw [hL]; exact hfol'⟩, fun id hid => ?_⟩
    obtain rfl : id = s.pfs.length := List.mem_singleton.mp hid
    refine ⟨fun hgiven => ?_, ?_⟩
    · rw [hW] at hgiven
      exact absurd (hI.old _ hgiven) (Nat.lt_irrefl _)
    · show s.pfs.length < (s.pfs ++ [pf]).length
      rw [List.length_append, List.length_singleton]
      omega
  | disable name =>
    have hkey : (Call.del name : Call ℕ).key.bytes ≠ [] := hname
    obtain ⟨r, t', hstep, hfol'⟩ := wtableStep_ledger (hfol hw) _ hkey
    obtain ⟨⟨b, t₁⟩, hdel, hr⟩ := Option.map_eq_some_iff.mp hstep
    cases hr
    exact ⟨⟨t, b, t₁, ht, finishes_del hdel, by rw [hL]; exact hfol'⟩,
      fun id hid => absurd hid List.not_mem_nil⟩

/-- A thread keeps the table with each of its steps. -/
theorem tableHolds_move (hI : TableHolds P h s) (hlock : HoldsLock i s th)
    (hJ : th.Asserts P h s) (hm : Moves P l i s a th e s' th') :
    TableHolds P (h ++ [(i, e)]) s' := by
  have hlen := hm.pfs_length_le
  have hnot := hm.not_wrote
  cases hm with
  | get ht hstep =>
    obtain ⟨t₀, ht₀, hpc⟩ := hJ
    rw [ht] at ht₀
    cases ht₀
    obtain ⟨t, ht', hfol⟩ := hI.table
    rw [ht] at ht'
    cases ht'
    have he : ∀ call, Event.internal ≠ .wrote call := fun call he => by cases he
    refine ⟨⟨_, rfl, fun hw => ?_⟩, by rw [writesOf_other h he]; exact hI.distinct, fun id hid => ?_⟩
    · -- only the cache changed
      rw [ledgerOf_other h he]
      have hfol' := hfol hw
      refine ⟨(getStep_holds hfol'.holds hpc hstep).1, ?_⟩
      show UncachedWtable.allDestroyed _ |>.Perm _
      rw [Moves.getStep_uncached hstep]
      exact hfol'.destroyed
    · rw [writesOf_other h he] at hid
      exact hI.old id hid
  | write ht hstep =>
    -- nothing is asserted of the table while it is written
    have he : ∀ call, Event.internal ≠ .wrote call := fun call he => by cases he
    have hw : s.enabledFailsLock.writer = some i := hlock.writer.mpr rfl
    refine ⟨⟨_, rfl, fun hw' => ?_⟩, by rw [writesOf_other h he]; exact hI.distinct, fun id hid => ?_⟩
    · have hw'' : s.enabledFailsLock.writer = none := hw'
      rw [hw] at hw''
      cases hw''
    · rw [writesOf_other h he] at hid
      exact hI.old id hid
  | @wrote call r =>
    -- what the writer has asserted of the table holds from now on
    obtain ⟨⟨t, r', t', ht, hfin, hfol⟩, hfresh⟩ := hJ
    obtain ⟨-, rfl⟩ := hfin.of_done
    refine ⟨⟨t, ht, fun _ => ?_⟩, ?_, fun id hid => ?_⟩
    · rw [ledgerOf_wrote]
      exact hfol
    · rw [writesOf_wrote, givenValues_append]
      refine List.nodup_append.mpr ⟨hI.distinct, ?_, ?_⟩
      · cases call <;> simp [givenValues]
      · rintro x hx y hy rfl
        exact (hfresh x hy).1 hx
    · rw [writesOf_wrote, givenValues_append] at hid
      rcases List.mem_append.mp hid with hid | hid
      · exact hI.old id hid
      · exact (hfresh id hid).2
  | point hpf hmove htable hpfs => exact hI.keep (hnot rfl) htable (fun hw => hw) hlen
  | rdlock hk => exact hI.keep (hnot rfl) rfl (fun _ => (RwLock.rdlock_eq_some hk).1) hlen
  | runlock => exact hI.keep (hnot rfl) rfl (fun _ => hlock.no_writer rfl) hlen
  | wrlock hk =>
    exact hI.keep (hnot rfl) (WriteOp.begin_enabledFails _ _)
      (fun _ => (RwLock.wrlock_eq_some hk).1) hlen
  | _ => exact hI.keep (hnot rfl) rfl (fun hw => hw) hlen

/-- A thread keeps its own assertion with each of its steps. -/
theorem asserts_move (hI : TableHolds P h s) (hlock : HoldsLock i s th) (hJ : th.Asserts P h s)
    (hname : ∀ call, a = .call call → call.name.bytes ≠ []) (hm : Moves P l i s a th e s' th') :
    th'.Asserts P (h ++ [(i, e)]) s' := by
  cases hm with
  | enter call =>
    have hcall := hname call rfl
    unfold FiuCall.enter
    split
    · split <;> trivial
    · exact hcall
    · split
      · trivial
      · rename_i pf hpf
        show pf.name.bytes ≠ []
        rw [(FiuCall.created_eq_some hpf).1]
        exact hcall
  | testTable =>
    obtain ⟨t, ht, -⟩ := hI.table
    rw [ht]
    exact ⟨t, ht, trivial⟩
  | get ht hstep =>
    obtain ⟨t₀, ht₀, hpc⟩ := hJ
    rw [ht] at ht₀
    cases ht₀
    obtain ⟨t, ht', hfol⟩ := hI.table
    rw [ht] at ht'
    cases ht'
    refine ⟨_, rfl, ?_⟩
    rw [Moves.getStep_uncached hstep]
    exact (getStep_holds (hfol (hlock.no_writer rfl)).holds hpc hstep).2
  | found => exact hJ
  | point hpf hmove htable hpfs =>
    obtain ⟨t, ht, hget⟩ := hJ
    exact ⟨t, htable.trans ht, hget⟩
  | wrlock hk => exact writing_begin hI hJ (RwLock.wrlock_eq_some hk).1
  | write ht hstep =>
    obtain ⟨⟨t₀, r, t', ht₀, hfin, hfol⟩, hfresh⟩ := hJ
    rw [ht] at ht₀
    cases ht₀
    have he : ∀ call, Event.internal ≠ .wrote call := fun call he => by cases he
    refine ⟨⟨_, r, t', rfl, hfin.after hstep, by rw [ledgerOf_other h he]; exact hfol⟩, ?_⟩
    rw [writesOf_other h he]
    exact hfresh
  | _ => trivial

end own

/-! ## No interference

Three things can be between a thread and the step of another one: both only look something up, the
lock, or that neither has to do with the table. -/

section other

variable {h : List (ℕ × Event)} {i j : ℕ} {a : Choice W} {s s' : Shared W} {th th' thj : Thread W}
  {e : Event}

/-- Under a reader the table stays, but for its cache. -/
theorem uncached_other (hi : HoldsLock i s th) (hj : HoldsLock j s thj) (hr : thj.reads = true)
    (hm : Moves P l i s a th e s' th') {t : Wtable ℕ} (ht : s.enabledFails = some t) :
    ∃ t', s'.enabledFails = some t' ∧ t'.toUncachedWtable = t.toUncachedWtable := by
  have hw : th.writes = false := by
    apply hi.not_writes
    rw [hj.no_writer hr]
    exact fun he => by cases he
  have huncached := hm.uncached_eq hw
  rw [ht] at huncached
  exact Option.map_eq_some_iff.mp huncached

/-- No step of thread `i` breaks the assertion of thread `j`. -/
theorem asserts_other (hne : i ≠ j) (hi : HoldsLock i s th) (hj : HoldsLock j s thj)
    (hJ : thj.Asserts P h s) (hm : Moves P l i s a th e s' th') :
    thj.Asserts P (h ++ [(i, e)]) s' := by
  cases thj with
  | get caller name pc =>
    obtain ⟨t, ht, hpc⟩ := hJ
    obtain ⟨t', ht', hsame⟩ := uncached_other hi hj rfl hm ht
    exact ⟨t', ht', by rw [hsame]; exact hpc⟩
  | point caller name id pc =>
    obtain ⟨t, ht, hget⟩ := hJ
    obtain ⟨t', ht', hsame⟩ := uncached_other hi hj rfl hm ht
    exact ⟨t', ht', by rw [hsame]; exact hget⟩
  | wlock op => exact hJ
  | write call pc =>
    -- thread `i` has not got the lock at all
    have hw : th.writes = false := by
      apply hi.not_writes
      rw [hj.writer.mpr rfl]
      exact fun he => hne (Option.some.inj he).symm
    have hr : th.reads = false := hi.not_reads (hj.no_readers rfl)
    obtain ⟨⟨t, r, t', ht, hfin, hfol⟩, hfresh⟩ := hJ
    refine ⟨⟨t, r, t', (hm.enabled_eq hr hw).trans ht, hfin, ?_⟩, fun id hid => ?_⟩
    · rw [ledgerOf_other h (hm.not_wrote hw)]
      exact hfol
    · rw [writesOf_other h (hm.not_wrote hw)]
      exact ⟨(hfresh id hid).1, lt_of_lt_of_le (hfresh id hid).2 hm.pfs_length_le⟩
  | _ => trivial

end other

/-- The calls of the library get non-empty names. -/
def NamesCalls (_ : ℕ) (a : Choice W) (_ : Shared W) (_ : Thread W) : Prop :=
  ∀ call, a = .call call → call.name.bytes ≠ []

/-- **No step breaks an assertion.** -/
theorem threads_invariant : Invariant (threadStep (W := W) P l) NamesCalls (TableHolds P)
    (fun i h s th => HoldsLock i s th ∧ th.Asserts P h s) where
  own := by
    rintro h i a s s' th th' e hI ⟨hlock, hJ⟩ hname hstep
    have hm := threadStep_moves hstep
    exact ⟨tableHolds_move hI hlock hJ hm, hlock.move hm, asserts_move hI hlock hJ hname hm⟩
  other := by
    rintro h i j a s s' th th' thj e hne hI ⟨hi, -⟩ ⟨hj, hJ⟩ - hstep
    have hm := threadStep_moves hstep
    exact ⟨hj.of_same (hm.lock_same hne), asserts_other hne hi hj hJ hm⟩

/-- Before any call the table is empty and follows the empty ledger. -/
theorem tableHolds_start (world : W) (garbage : ℕ) (seed : UInt32) :
    TableHolds P [] (threadsStart world garbage seed).shared where
  table := ⟨_, rfl, fun _ => wtableCreate_follows garbage⟩
  distinct := List.nodup_nil
  old := fun _ h => absurd h List.not_mem_nil

/-! ## From when the lock was taken

Between taking the lock and giving it back, the table of a reader is the same but for its cache. -/

/-- The thread is in a call of `fiu_fail` that has the lock, and on `name`. -/
def Thread.looksUp (name : CString) : Thread W → Prop
  | .testTable _ name' | .get _ name' _ | .point _ name' _ _ => name' = name
  | _ => False

/-- The thread is in a call that is over, but for giving back the lock and returning. -/
def Thread.leaves : Thread W → Prop
  | .runlock _ | .ret _ => True
  | _ => False

/-- Until thread `i` returns, and as long as it has the lock, the table is `t`, but for its cache. -/
def KeepsTable (t : UncachedWtable ℕ) (name : CString) (i : ℕ) (h : List (ℕ × Event)) (s : Shared W)
    (th : Thread W) : Prop :=
  (∃ r, (i, .returned r) ∈ h) ∨ th.leaves ∨
    (th.looksUp name ∧ ∃ t', s.enabledFails = some t' ∧ t'.toUncachedWtable = t)

/-- No step breaks it. -/
theorem keepsTable_invariant (t : UncachedWtable ℕ) (name : CString) (i : ℕ) :
    Invariant (threadStep (W := W) P l) (fun _ _ _ _ => True) (fun _ _ => True)
      (fun j h s th => HoldsLock j s th ∧ (j = i → KeepsTable t name i h s th)) where
  own := by
    rintro h j a s s' th th' e - ⟨hlock, hK⟩ - hstep
    have hm := threadStep_moves hstep
    refine ⟨trivial, hlock.move hm, ?_⟩
    rintro rfl
    rcases hK rfl with ⟨r, hr⟩ | hleaves | ⟨hlooks, t', ht', rfl⟩
    · exact Or.inl ⟨r, List.mem_append_left _ hr⟩
    · cases hm with
      | runlock => exact Or.inr (Or.inl trivial)
      | ret => exact Or.inl ⟨_, List.mem_append_right _ (List.mem_singleton.mpr rfl)⟩
      | _ => exact hleaves.elim
    · cases hm with
      | testTable =>
        rw [ht']
        exact Or.inr (Or.inr ⟨hlooks, t', ht', rfl⟩)
      | get ht hstep =>
        rw [ht] at ht'
        cases ht'
        exact Or.inr (Or.inr ⟨hlooks, _, rfl, Moves.getStep_uncached hstep⟩)
      | notFound => exact Or.inr (Or.inl trivial)
      | found => exact Or.inr (Or.inr ⟨hlooks, t', ht', rfl⟩)
      | point hpf hmove htable hpfs =>
        exact Or.inr (Or.inr ⟨hlooks, t', htable.trans ht', rfl⟩)
      | pointDone => exact Or.inr (Or.inl trivial)
      | _ => exact hlooks.elim
  other := by
    rintro h k j a s s' th th' thj e hne - ⟨hk, -⟩ ⟨hj, hK⟩ - hstep
    have hm := threadStep_moves hstep
    refine ⟨hj.of_same (hm.lock_same hne), ?_⟩
    rintro rfl
    rcases hK rfl with ⟨r, hr⟩ | hleaves | ⟨hlooks, t', ht', rfl⟩
    · exact Or.inl ⟨r, List.mem_append_left _ hr⟩
    · exact Or.inr (Or.inl hleaves)
    · have hreads : thj.reads = true := by
        cases thj with
        | testTable | get | point => rfl
        | _ => exact hlooks.elim
      obtain ⟨t₂, ht₂, hsame⟩ := uncached_other hk hj hreads hm ht'
      exact Or.inr (Or.inr ⟨hlooks, t₂, ht₂, hsame⟩)

/-! ## The lookup

The moment at which a lookup takes effect is when its thread gets the lock, whatever it reads later.
-/

/-- What `wtable_get` yielded to the call of `fiu_fail` that the thread is in. -/
def Thread.found : Thread W → Option (Option ℕ)
  | .get _ _ (.done found) => some found
  | .point _ _ id _ => some (some id)
  | _ => none

/-- What a lookup of `name` should find in a table `t` of the points `M`: what it finds there without
    the cache, which is the point of that very name, else one whose name matches, and not nothing
    when there is one. -/
structure Finds (P : Platform) (t : UncachedWtable ℕ) (M : CString → Option ℕ) (name : CString)
    (found : Option ℕ) : Prop where
  uncached : uncachedGet P t name = some found
  itself : ¬ name.isWild → M name ≠ none → found = M name
  some_wild : ∀ p, p.isWild → M p ≠ none →
    wsMatchesS p p.strlen name name.strlen false = some true → found ≠ none
  named : ∀ id, found = some id → ∃ p, M p = some id ∧ (p = name ∨ p.Covers name)

theorem finds_of_uncached {t : UncachedWtable ℕ} {M : CString → Option ℕ} (ht : t.Represents P M)
    {name : CString} {found : Option ℕ} (h : uncachedGet P t name = some found) :
    Finds P t M name found := by
  obtain ⟨ws, hw, hM⟩ := ht.array
  have heq := h
  rw [uncachedGet_eq ht hw, Option.some.injEq] at heq
  subst heq
  refine ⟨h, fun hwild hne => ?_, fun p hp hne hmatch hnone => ?_, fun id hid => ?_⟩
  · have hfin : finalsOf M name = M name := if_neg hwild
    rw [hfin, if_pos (Option.isSome_iff_ne_none.mpr hne)]
  · -- the entry of the wildcard would have been accepted
    obtain ⟨e, he, rfl, -⟩ := (hM p (M p)).mpr ⟨hp, hne, rfl⟩
    have hgood := hw.good e he
    rw [← hgood.keyLen_eq, Wentry.wsMatchesS_eq hgood, Option.some.injEq] at hmatch
    split at hnone
    · rename_i hsome
      rw [hnone] at hsome
      cases hsome
    · rw [not_accepts_of_wildcardFor hw.good hnone he] at hmatch
      cases hmatch
  · split at hid
    · unfold finalsOf at hid
      split at hid
      · cases hid
      · exact ⟨name, hid, Or.inl rfl⟩
    · obtain ⟨p, hcov, hp, -⟩ := wildcardFor_some hM hw.good hid
      exact ⟨p, hp, Or.inr hcov⟩

/-- What the lookup of a thread yielded, in the table that is there now. -/
theorem found_holds {h : List (ℕ × Event)} {s : Shared W} {th : Thread W}
    (hJ : th.Asserts P h s) {found : Option ℕ} (hfound : th.found = some found) :
    th.reads = true ∧ ∃ name t, th.looksUp name ∧ s.enabledFails = some t ∧
      uncachedGet P t.toUncachedWtable name = some found := by
  cases th with
  | get caller name pc =>
    cases pc with
    | done value =>
      cases hfound
      obtain ⟨t, ht, hget⟩ := hJ
      exact ⟨rfl, name, t, rfl, ht, hget⟩
    | _ => cases hfound
  | point caller name id pc =>
    cases hfound
    obtain ⟨t, ht, hget⟩ := hJ
    exact ⟨rfl, name, t, rfl, ht, hget⟩
  | _ => cases hfound

/-- What is found in a table that follows the ledger was not freed. -/
theorem found_not_destroyed {h : List (ℕ × Event)} {s : Shared W} (hI : TableHolds P h s)
    {t : Wtable ℕ} (ht : t.Follows P (ledgerOf h)) {name : CString} {found : Option ℕ}
    (hget : uncachedGet P t.toUncachedWtable name = some found) : found ∉ t.allDestroyed := by
  intro hd
  cases found with
  | none => simpa using ht.destroyed.mem_iff.mp hd
  | some id =>
    obtain ⟨key, hkey⟩ := lookup_held ht.holds.uncached hget
    exact not_destroyed_of_held ht
      (Ledger.balanced_foldl _ Ledger.balanced_empty hI.distinct) hkey hd

/-- The names of all steps, one for each. -/
theorem namesCalls_of_forall {c : Config ℕ (Shared W) (Thread W)} {steps : List (ℕ × Choice W)}
    (h : ∀ step ∈ steps, ∀ call, step.2 = .call call → call.name.bytes ≠ []) :
    Guarded (threadStep P l) NamesCalls c steps :=
  guarded_of_forall c fun step hstep _ _ call hcall => h step hstep call hcall

/-- **Lookups are linearisable.** Thread `i`, about to take the lock in a call of `fiu_fail`
    (`hat`), takes it with its next step and has not returned since (`hsame`), whatever the other
    threads did before and after. By now its `wtable_get` has yielded `found` (`hfound`).

    There is a table at both moments. The one at which the lock was taken represents the points that
    the writings before it left enabled; `found` is what a lookup without the cache finds in it
    (`Finds`: the point of that very name, else one whose name covers it, and not nothing when there
    is one); and now `found` is not freed. -/
theorem fiu_fail_linearizable (P : Platform) (l : Linker) (world : W) (garbage : ℕ) (seed : UInt32)
    (before after : List (ℕ × Choice W))
    (hnames : ∀ step ∈ before ++ after, ∀ call, step.2 = .call call → call.name.bytes ≠ [])
    {os₁ os₂ : List (ℕ × Event)} {c₁ c₂ : Config ℕ (Shared W) (Thread W)} {i : ℕ} {caller : Caller}
    {name : CString} {found : Option ℕ}
    (hbefore : threadsRun P l (threadsStart world garbage seed) before = some (os₁, c₁))
    (hat : c₁.locals i = .rlock caller name)
    (hafter : threadsRun P l c₁ ((i, .next) :: after) = some (os₂, c₂))
    (hsame : ∀ r, (i, Event.returned r) ∉ os₂) (hfound : (c₂.locals i).found = some found) :
    ∃ t₁ t₂, c₁.shared.enabledFails = some t₁ ∧ c₂.shared.enabledFails = some t₂ ∧
      t₁.toUncachedWtable.Represents P (enabledAfter os₁) ∧
      Finds P t₁.toUncachedWtable (enabledAfter os₁) name found ∧ found ∉ t₂.allDestroyed := by
  -- the assertions hold when it is about to take the lock, and now
  obtain ⟨hI₁, hJ₁⟩ := threads_invariant.run before [] (tableHolds_start world garbage seed)
    (fun j => ⟨holdsLock_start world garbage seed j, trivial⟩)
    (namesCalls_of_forall fun step hstep => hnames step (List.mem_append_left _ hstep)) hbefore
  rw [List.nil_append] at hI₁ hJ₁
  have hguard : Guarded (threadStep P l) NamesCalls c₁ ((i, .next) :: after) := by
    apply namesCalls_of_forall
    intro step hstep call hcall
    rcases List.mem_cons.mp hstep with rfl | hstep
    · cases hcall
    · exact hnames step (List.mem_append_right _ hstep) call hcall
  obtain ⟨hI₂, hJ₂⟩ := threads_invariant.run _ os₁ hI₁ hJ₁ hguard hafter
  -- it takes the lock: nobody writes
  obtain ⟨e, c, os, hstep, hrest, rfl⟩ := Machine.run_cons_eq_some hafter
  obtain ⟨o, s, th, hact, rfl, rfl⟩ := step_eq_some hstep
  rw [hat] at hact
  have hm := threadStep_moves hact
  obtain ⟨t₁, ht₁, hfol₁⟩ := hI₁.table
  have hlock : ∀ j, HoldsLock j s (Function.update c₁.locals i th j) := by
    intro j
    by_cases hj : j = i
    · subst hj
      rw [Function.update_self]
      have hl := (hJ₁ j).1
      rw [hat] at hl
      exact hl.move hm
    · rw [Function.update_of_ne hj]
      exact (hJ₁ j).1.of_same (hm.lock_same (Ne.symm hj))
  cases hm with
  | rdlock hk =>
    have hrep : t₁.toUncachedWtable.Represents P (enabledAfter os₁) := by
      rw [← ledgerOf_map]
      exact (hfol₁ (RwLock.rdlock_eq_some hk).1).holds.uncached
    -- and nobody does until it returns
    obtain ⟨-, hK⟩ := (keepsTable_invariant t₁.toUncachedWtable name i).run after []
      trivial (fun j => ⟨hlock j, by
        rintro rfl
        refine Or.inr (Or.inr ⟨?_, t₁, ht₁, rfl⟩)
        show Thread.looksUp name (Function.update c₁.locals j _ j)
        rw [Function.update_self]
        exact rfl⟩) (guarded_of_forall _ fun _ _ _ _ => trivial) hrest
    obtain ⟨hreads, name', t₂, hlooks', ht₂, hget⟩ := found_holds (hJ₂ i).2 hfound
    rcases (hK i).2 rfl with ⟨r, hr⟩ | hleaves | ⟨hlooks, t, ht, hsame₂⟩
    · exact absurd (List.mem_cons_of_mem _ hr) (hsame r)
    · exfalso
      cases hth : c₂.locals i with
      | runlock | ret =>
        rw [hth] at hfound
        cases hfound
      | _ =>
        rw [hth] at hleaves
        exact hleaves
    · obtain rfl : t₂ = t := Option.some.inj (ht₂.symm.trans ht)
      have hname : name' = name := by
        cases hth : c₂.locals i with
        | testTable | get | point =>
          rw [hth] at hlooks hlooks'
          exact Eq.trans (Eq.symm hlooks') hlooks
        | _ =>
          rw [hth] at hlooks
          exact hlooks.elim
      subst hname
      obtain ⟨t, ht', hfol₂⟩ := hI₂.table
      obtain rfl : t₂ = t := Option.some.inj (ht₂.symm.trans ht')
      have hdead := found_not_destroyed hI₂ (hfol₂ ((hJ₂ i).1.no_writer hreads)) hget
      rw [hsame₂] at hget
      exact ⟨t₁, t₂, ht₁, ht₂, hrep, finds_of_uncached hrep hget, hdead⟩

/-! ### One interleaving -/

/-- Thread 1 is about to look up `"j"` while thread 0 enables it. -/
def lookupBefore : List (ℕ × Choice Unit) :=
  (1, .call (.fail ⟨1, 0, []⟩ keyJ)) :: (0, .call (.enable keyJ 7 0 0)) :: List.replicate 4 (0, .next)

/-- Thread 0 wants to disable it while thread 1 looks it up. -/
def lookupAfter : List (ℕ × Choice Unit) :=
  [(1, .next), (0, .call (.disable keyJ)), (1, .next), (1, .next)]

theorem fiu_fail_linearizable_enable :
    ∃ os₁ c₁ os₂ c₂ t₁ t₂, threadsRun Platform.ieee noSymbols (threadsStart () 0 0) lookupBefore
        = some (os₁, c₁) ∧
      threadsRun Platform.ieee noSymbols c₁ ((1, .next) :: lookupAfter) = some (os₂, c₂) ∧
      c₁.shared.enabledFails = some t₁ ∧ c₂.shared.enabledFails = some t₂ ∧
      t₁.toUncachedWtable.Represents Platform.ieee (enabledAfter os₁) ∧
      Finds Platform.ieee t₁.toUncachedWtable (enabledAfter os₁) keyJ (some 0) ∧
      some 0 ∉ t₂.allDestroyed := by
  have hall : (threadsRun Platform.ieee noSymbols (threadsStart () 0 0)
      (lookupBefore ++ (1, .next) :: lookupAfter)).map (fun r => ((r.2.locals 1).found, r.1))
      = some (some (some 0), [(1, .internal), (0, .internal), (0, .internal), (0, .internal),
        (0, .wrote (.set keyJ 0)), (0, .returned 0), (1, .internal), (1, .internal), (0, .internal),
        (1, .internal), (1, .internal)]) := by
    decide +kernel
  have hfirst : (threadsRun Platform.ieee noSymbols (threadsStart () 0 0) lookupBefore).isSome := by
    decide +kernel
  obtain ⟨⟨os₁, c₁⟩, hbefore⟩ := Option.isSome_iff_exists.mp hfirst
  -- the run goes on from there
  obtain ⟨r, hrun, hall⟩ := Option.map_eq_some_iff.mp hall
  rw [threadsRun, run, Machine.run_append hbefore] at hrun
  obtain ⟨⟨os₂, c₂⟩, hafter, rfl⟩ := Option.map_eq_some_iff.mp hrun
  obtain ⟨hfound, hevents⟩ := Prod.mk.inj hall
  have hat : c₁.locals 1 = .rlock ⟨1, 0, []⟩ keyJ := by
    rw [lookupBefore, threadsRun, run] at hbefore
    obtain ⟨e, c, os', hstep, hrest, -⟩ := Machine.run_cons_eq_some hbefore
    cases hstep
    exact run_locals _ hrest (by decide)
  have hnames : ∀ step ∈ lookupBefore ++ lookupAfter, ∀ call, step.2 = .call call →
      call.name.bytes ≠ [] := by
    intro step hstep call hcall
    simp only [lookupBefore, lookupAfter, List.replicate, List.cons_append, List.nil_append,
      List.mem_cons, List.not_mem_nil, or_false] at hstep
    rcases hstep with rfl | rfl | rfl | rfl | rfl | rfl | rfl | rfl | rfl | rfl <;> cases hcall <;>
      decide
  have hsame : ∀ r, (1, Event.returned r) ∉ os₂ := by
    intro r hr
    have hmem : (1, Event.returned r) ∈ os₁ ++ os₂ := List.mem_append_right _ hr
    have hevents' : os₁ ++ os₂ = _ := hevents
    rw [hevents'] at hmem
    simp at hmem
  obtain ⟨t₁, t₂, hconcl⟩ := fiu_fail_linearizable Platform.ieee noSymbols () 0 0 lookupBefore
    lookupAfter hnames hbefore hat hafter hsame hfound
  exact ⟨os₁, c₁, os₂, c₂, t₁, t₂, hbefore, hafter, hconcl⟩

end Libfiu
