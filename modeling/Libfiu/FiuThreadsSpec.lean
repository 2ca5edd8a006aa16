/-
  What one step of a thread can do.

  `Moves` lists the steps of `threadStep` and `PointMoves` those of `pointStep`, each with what it
  needs; the invariants of the threads are shown by going through these lists, and never open the
  step functions.  What a step does to other threads is little:

  * `Moves.lock_same`     — which locks they hold stays;
  * `Moves.uncached_eq`   — only a writer changes the table, but for its cache;
  * `Moves.enabled_eq`    — and a thread without the lock does not even change the cache.

  From the first one follows who holds the lock of the table, in every interleaving (`HoldsLock`): a
  thread holds it for reading, or for writing, exactly where its program says so.

  The lists are inversion lemmas (`threadStep_moves`, `pointStep_moves`): the step functions are
  opened there, once for each branch, and the constructors repeat the guards of the branch. If a
  step of `FiuThreads` changes, its constructor and its case in one of these two proofs change with
  it.
-/
import Libfiu.FiuThreads

namespace Libfiu

open Threads

variable {W : Type} {P : Platform} {l : Linker}

/-! ## Steps on a point

A thread on a point changes that point, the generator and the program. The list names the point
before and after, so that an invariant about points needs no look at the rest of the state. -/

/-- The thread is in the `switch`, on the way to a decision. -/
def PointPc.deciding : PointPc → Bool
  | .decide | .randdStore _ _ | .randdLoad _ | .callback => true
  | _ => false

/-- The steps of thread `i` on the point at `id`. -/
inductive PointMoves (i id : ℕ) (pf : PfInfo W) :
    PointPc → Choice W → Event → PfInfo W → PointPc → Prop
  | testFlags : PointMoves i id pf .testFlags .next .internal pf
      (if pf.onetime then .lock else .decide)
  | lock (hfree : pf.lock = none) : PointMoves i id pf .lock .next .internal
      { pf with lock := some i } .testFailedOnce
  | testFailedOnce : PointMoves i id pf .testFailedOnce .next .internal pf
      (if pf.failedOnce then .unlockSpent else .decide)
  | unlockSpent : PointMoves i id pf .unlockSpent .next .internal { pf with lock := none } (.done 0)
  | decides {pc pc' : PointPc} (hpc : pc.deciding) (hpc' : pc'.deciding) :
      PointMoves i id pf pc .next .internal pf pc'
  | stores (x : CallbackStore W) :
      PointMoves i id pf .callback (.store x) .internal (pf.stored x) .callback
  | fails {pc : PointPc} {a : Choice W} (hpc : pc.deciding) :
      PointMoves i id pf pc a (.exitFail id) pf .exitFail
  | passes {pc : PointPc} {a : Choice W} (hpc : pc.deciding) :
      PointMoves i id pf pc a .internal pf .testFlagsPass
  | testFlagsPass : PointMoves i id pf .testFlagsPass .next .internal pf
      (if pf.onetime then .unlockPass else .done 0)
  | unlockPass : PointMoves i id pf .unlockPass .next .internal { pf with lock := none } (.done 0)
  | exitFail : PointMoves i id pf .exitFail .next .internal pf .readFailnum
  | readFailnum : PointMoves i id pf .readFailnum .next .internal pf (.testFlagsFail pf.failnum)
  | testFlagsFail (failnum : ℤ) : PointMoves i id pf (.testFlagsFail failnum) .next .internal pf
      (if pf.onetime then .setFailedOnce failnum else .done failnum)
  | setFailedOnce (failnum : ℤ) : PointMoves i id pf (.setFailedOnce failnum) .next .internal
      { pf with failedOnce := true } (.unlockFail failnum)
  | unlockFail (failnum : ℤ) : PointMoves i id pf (.unlockFail failnum) .next .internal
      { pf with lock := none } (.done failnum)

/-- Out of the `switch`, either way. -/
theorem pointMoves_switched {i id : ℕ} {pf : PfInfo W} {pc pc' : PointPc} {a : Choice W}
    (hpc : pc.deciding) {fails : Bool} {s s' : Fiu W} {e : Event}
    (h : switched fails id s = (e, s', pc')) : s' = s ∧ PointMoves i id pf pc a e pf pc' := by
  cases fails with
  | true =>
    cases h
    exact ⟨rfl, .fails hpc⟩
  | false =>
    cases h
    exact ⟨rfl, .passes hpc⟩

/-- A point that can be read is in its place. -/
theorem Fiu.deref_eq_some {s : Fiu W} {id : ℕ} {pf : PfInfo W} (h : s.deref id = some pf) :
    s.pfs[id]? = some pf := by
  obtain ⟨t, -, hat⟩ := Option.bind_eq_some_iff.mp h
  unfold Fiu.pfAt at hat
  split at hat
  · cases hat
  · exact hat

/-- Every step on a point is one of the list, and touches no other point. -/
theorem pointStep_moves {i id : ℕ} {caller : Caller} {a : Choice W} {s s' : Fiu W}
    {pc pc' : PointPc} {e : Event} (h : pointStep P l i caller id a s pc = some (e, s', pc')) :
    ∃ pf pf', s.deref id = some pf ∧ PointMoves i id pf pc a e pf' pc' ∧
      s'.enabledFails = s.enabledFails ∧ s'.pfs = s.pfs.set id pf' := by
  obtain ⟨pf, hpf, h⟩ := Option.bind_eq_some_iff.mp h
  have hself : s.pfs = s.pfs.set id pf := (set_getElem?_self (Fiu.deref_eq_some hpf)).symm
  have hswitch : ∀ {fails : Bool}, pc.deciding → switched fails id s = (e, s', pc') →
      ∃ pf', PointMoves i id pf pc a e pf' pc' ∧ s'.enabledFails = s.enabledFails ∧
        s'.pfs = s.pfs.set id pf' := by
    intro fails hpc hs
    obtain ⟨rfl, hmove⟩ : s' = s ∧ PointMoves i id pf pc a e pf pc' := pointMoves_switched hpc hs
    exact ⟨pf, hmove, rfl, hself⟩
  obtain ⟨pf', hmove⟩ : ∃ pf', PointMoves i id pf pc a e pf' pc' ∧
      s'.enabledFails = s.enabledFails ∧ s'.pfs = s.pfs.set id pf' := by
    split at h
    · cases h
      exact ⟨pf, .testFlags, rfl, hself⟩
    · split at h
      · rename_i hfree
        cases h
        exact ⟨_, .lock hfree, rfl, rfl⟩
      · cases h
    · cases h
      exact ⟨pf, .testFailedOnce, rfl, hself⟩
    · cases h
      exact ⟨_, .unlockSpent, rfl, rfl⟩
    · -- the `switch`
      split at h
      · exact hswitch rfl (Option.some.inj h)
      · cases h
        exact ⟨pf, .decides rfl rfl, rfl, hself⟩
      · cases h
        exact ⟨pf, .decides rfl rfl, rfl, hself⟩
      · exact hswitch rfl (Option.some.inj h)
    · cases h
      exact ⟨pf, .decides rfl rfl, rfl, hself⟩
    · exact hswitch rfl (Option.some.inj h)
    · cases h
      exact ⟨_, .stores _, rfl, rfl⟩
    · exact hswitch rfl (Option.some.inj h)
    · cases h
      exact ⟨pf, .testFlagsPass, rfl, hself⟩
    · cases h
      exact ⟨_, .unlockPass, rfl, rfl⟩
    · cases h
      exact ⟨pf, .exitFail, rfl, hself⟩
    · cases h
      exact ⟨pf, .readFailnum, rfl, hself⟩
    · cases h
      exact ⟨pf, .testFlagsFail _, rfl, hself⟩
    · cases h
      exact ⟨_, .setFailedOnce _, rfl, rfl⟩
    · cases h
      exact ⟨_, .unlockFail _, rfl, rfl⟩
    · cases h
  exact ⟨pf, pf', hpf, hmove⟩

/-! ## Steps of a thread

Each constructor is a step at one place of the program, with the guards under which it is taken and
all that it does. -/

/-- The steps of thread `i`. -/
inductive Moves (P : Platform) (l : Linker) (i : ℕ) (s : Shared W) :
    Choice W → Thread W → Event → Shared W → Thread W → Prop
  | enter (call : FiuCall W) : Moves P l i s (.call call) .idle .internal s (call.enter l)
  | rdlock {caller : Caller} {name : CString} {k : RwLock ℕ}
      (hk : s.enabledFailsLock.rdlock i = some k) :
      Moves P l i s .next (.rlock caller name) .internal { s with enabledFailsLock := k }
        (.testTable caller name)
  | testTable {caller : Caller} {name : CString} :
      Moves P l i s .next (.testTable caller name) .internal s
        (if s.enabledFails.isNone then .runlock 0 else .get caller name .start)
  | get {caller : Caller} {name : CString} {pc pc' : GetPc} {t t' : Wtable ℕ}
      (ht : s.enabledFails = some t) (hstep : getStep P name pc t = some (pc', t')) :
      Moves P l i s .next (.get caller name pc) .internal { s with enabledFails := some t' }
        (.get caller name pc')
  | notFound {caller : Caller} {name : CString} :
      Moves P l i s .next (.get caller name (.done none)) .internal s (.runlock 0)
  | found {caller : Caller} {name : CString} {id : ℕ} :
      Moves P l i s .next (.get caller name (.done (some id))) .internal s
        (.point caller name id .testFlags)
  | point {caller : Caller} {name : CString} {id : ℕ} {a : Choice W} {pc pc' : PointPc}
      {pf pf' : PfInfo W} {e : Event} {s' : Fiu W} (hpf : s.deref id = some pf)
      (hmove : PointMoves i id pf pc a e pf' pc') (htable : s'.enabledFails = s.enabledFails)
      (hpfs : s'.pfs = s.pfs.set id pf') :
      Moves P l i s a (.point caller name id pc) e
        { s' with enabledFailsLock := s.enabledFailsLock } (.point caller name id pc')
  | pointDone {caller : Caller} {name : CString} {id : ℕ} {result : ℤ} :
      Moves P l i s .next (.point caller name id (.done result)) .internal s (.runlock result)
  | runlock {result : ℤ} :
      Moves P l i s .next (.runlock result) .internal
        { s with enabledFailsLock := s.enabledFailsLock.unlock i } (.ret result)
  | wrlock {op : WriteOp W} {k : RwLock ℕ} (hk : s.enabledFailsLock.wrlock i = some k) :
      Moves P l i s .next (.wlock op) .internal
        { (op.begin s.toFiu).1 with enabledFailsLock := k } (.write (op.begin s.toFiu).2 .start)
  | write {call : Call ℕ} {pc pc' : WritePc} {t t' : Wtable ℕ} (ht : s.enabledFails = some t)
      (hstep : writeStep P call pc t = some (pc', t')) :
      Moves P l i s .next (.write call pc) .internal { s with enabledFails := some t' }
        (.write call pc')
  | wrote {call : Call ℕ} {r : Bool} :
      Moves P l i s .next (.write call (.done r)) (.wrote call)
        { s with enabledFailsLock := s.enabledFailsLock.unlock i } (.ret (if r then 0 else -1))
  | ret {result : ℤ} : Moves P l i s .next (.ret result) (.returned result) s .idle

/-- Every step is one of the list. -/
theorem threadStep_moves {i : ℕ} {a : Choice W} {s s' : Shared W} {th th' : Thread W} {e : Event}
    (h : threadStep P l i a s th = some (e, s', th')) : Moves P l i s a th e s' th' := by
  unfold threadStep at h
  split at h
  · cases h
    exact .enter _
  · obtain ⟨k, hk, h⟩ := Option.bind_eq_some_iff.mp h
    cases h
    exact .rdlock hk
  · cases h
    exact .testTable
  · cases h
    exact .notFound
  · cases h
    exact .found
  · obtain ⟨t, ht, h⟩ := Option.bind_eq_some_iff.mp h
    obtain ⟨⟨pc', t'⟩, hstep, h⟩ := Option.bind_eq_some_iff.mp h
    cases h
    exact .get ht hstep
  · cases h
    exact .pointDone
  · obtain ⟨⟨e₁, s₁, pc₁⟩, hstep, h⟩ := Option.bind_eq_some_iff.mp h
    cases h
    obtain ⟨pf, pf', hpf, hmove, htable, hpfs⟩ := pointStep_moves hstep
    exact .point hpf hmove htable hpfs
  · cases h
    exact .runlock
  · obtain ⟨k, hk, h⟩ := Option.bind_eq_some_iff.mp h
    cases h
    exact .wrlock hk
  · cases h
    exact .wrote
  · obtain ⟨t, ht, h⟩ := Option.bind_eq_some_iff.mp h
    obtain ⟨⟨pc', t'⟩, hstep, h⟩ := Option.bind_eq_some_iff.mp h
    cases h
    exact .write ht hstep
  · cases h
    exact .ret
  · cases h

/-! ## What a step does to other threads

The frame conditions. They are all the proofs of non-interference use.

There is one for each thing that the assertion of a thread can be about: the lock, the table without
its cache, the whole table, the history, and the places of the points. -/

/-- The thread holds the lock of the table for reading. -/
def Thread.reads : Thread W → Bool
  | .testTable _ _ | .get _ _ _ | .point _ _ _ _ | .runlock _ => true
  | _ => false

/-- The thread holds the lock of the table for writing. -/
def Thread.writes : Thread W → Bool
  | .write _ _ => true
  | _ => false

/-- A writer that has just got the lock has not touched the table yet. -/
theorem WriteOp.begin_enabledFails (op : WriteOp W) (s : Fiu W) :
    (op.begin s).1.enabledFails = s.enabledFails := by
  cases op <;> rfl

namespace Moves

variable {i : ℕ} {a : Choice W} {s s' : Shared W} {th th' : Thread W} {e : Event}

/-- Another thread holds the lock of the table as before. -/
theorem lock_same (h : Moves P l i s a th e s' th') {j : ℕ} (hne : i ≠ j) :
    s.enabledFailsLock.SameFor s'.enabledFailsLock j := by
  cases h with
  | rdlock hk => exact RwLock.sameFor_rdlock hne hk
  | wrlock hk => exact RwLock.sameFor_wrlock hne hk
  | runlock => exact RwLock.sameFor_unlock hne
  | wrote => exact RwLock.sameFor_unlock hne
  | _ => exact ⟨Iff.rfl, Iff.rfl⟩

/-- What `getStep` does to the table, but for its cache: nothing. -/
theorem getStep_uncached {name : CString} {pc pc' : GetPc} {t t' : Wtable ℕ}
    (h : getStep P name pc t = some (pc', t')) : t'.toUncachedWtable = t.toUncachedWtable := by
  unfold getStep at h
  split at h
  · obtain ⟨entries, -, h⟩ := Option.bind_eq_some_iff.mp h
    cases h
    rfl
  · cases h
    rfl
  · obtain ⟨entries, -, h⟩ := Option.bind_eq_some_iff.mp h
    obtain ⟨slot, -, h⟩ := Option.bind_eq_some_iff.mp h
    split at h
    · cases h
      rfl
    · split at h
      · cases h
        rfl
      · cases h
        rfl
    · cases h
      rfl
  · obtain ⟨⟨hit, value⟩, -, h⟩ := Option.bind_eq_some_iff.mp h
    cases h
    rfl
  · obtain ⟨ws, -, h⟩ := Option.bind_eq_some_iff.mp h
    split at h
    · cases h
      rfl
    · cases h
      rfl
    · obtain ⟨found, -, h⟩ := Option.bind_eq_some_iff.mp h
      cases h
      rfl
  · obtain ⟨⟨ok, c⟩, -, h⟩ := Option.bind_eq_some_iff.mp h
    cases h
    rfl
  · cases h

/-- Only a writer changes the table, but for its cache. -/
theorem uncached_eq (h : Moves P l i s a th e s' th') (hw : th.writes = false) :
    s'.enabledFails.map Wtable.toUncachedWtable = s.enabledFails.map Wtable.toUncachedWtable := by
  cases h with
  | get ht hstep =>
    show some _ = s.enabledFails.map _
    rw [ht, Option.map_some, getStep_uncached hstep]
  | point hpf hmove htable hpfs =>
    show Option.map _ _ = _
    rw [htable]
  | wrlock hk =>
    show Option.map _ _ = _
    rw [WriteOp.begin_enabledFails]
  | write ht hstep => cases hw
  | _ => rfl

/-- A thread without the lock does not touch the table. -/
theorem enabled_eq (h : Moves P l i s a th e s' th') (hr : th.reads = false)
    (hw : th.writes = false) : s'.enabledFails = s.enabledFails := by
  cases h with
  | get ht hstep => cases hr
  | point hpf hmove htable hpfs => cases hr
  | wrlock hk => exact WriteOp.begin_enabledFails _ _
  | write ht hstep => cases hw
  | _ => rfl

/-- Only a writer adds a writing to the history. -/
theorem not_wrote (h : Moves P l i s a th e s' th') (hw : th.writes = false) (call : Call ℕ) :
    e ≠ .wrote call := by
  cases h with
  | point hpf hmove htable hpfs =>
    cases hmove <;> exact fun he => by cases he
  | wrote => cases hw
  | _ => exact fun he => by cases he

/-- Points stay where they are. -/
theorem pfs_length_le (h : Moves P l i s a th e s' th') : s.pfs.length ≤ s'.pfs.length := by
  cases h with
  | point hpf hmove htable hpfs =>
    show s.pfs.length ≤ List.length _
    rw [hpfs, List.length_set]
  | @wrlock op k hk =>
    cases op with
    | insert pf =>
      show s.pfs.length ≤ (s.pfs ++ [pf]).length
      rw [List.length_append]
      omega
    | disable name => exact le_refl _
  | _ => exact le_refl _

end Moves

/-! ## The calls

What a call creates before it comes to a lock, where nobody else is concerned. -/

/-- The point that an enabling call creates: fresh, under the name of the call. -/
theorem FiuCall.created_eq_some {call : FiuCall W} {pf : PfInfo W} (h : call.created l = some pf) :
    pf.name = call.name ∧ pf.lock = none ∧ pf.failedOnce = false := by
  have hstack : ∀ {name : CString} {failnum : ℤ} {failinfo : Addr} {flags : UInt32} {func : Addr}
      {funcPosInStack : ℤ},
      FiuCall.created.stackPoint l name failnum failinfo flags func funcPosInStack = some pf →
      pf.name = name ∧ pf.lock = none ∧ pf.failedOnce = false := by
    intro name failnum failinfo flags func funcPosInStack h
    unfold FiuCall.created.stackPoint at h
    split at h
    · cases h
    split at h
    · cases h
    split at h
    · cases h
    · cases h
      exact ⟨rfl, rfl, rfl⟩
  cases call with
  | enableStack name failnum failinfo flags func funcPosInStack => exact hstack h
  | enableStackByName name failnum failinfo flags funcName funcPosInStack =>
    simp only [FiuCall.created] at h
    split at h
    · cases h
    split at h
    · cases h
    · exact hstack h
  | fail caller name => cases h
  | disable name => cases h
  | _ =>
    cases h
    exact ⟨rfl, rfl, rfl⟩

/-- An enabling call of one thread alone: refused, or `insert_pf` of the point that it creates. -/
theorem fiuStep_created {call : FiuCall W} (h : call.enables = true) (s : Fiu W) :
    fiuStep P l s call = match call.created l with
      | none => some (.int (-1), s)
      | some pf => (insertPf P s pf).map fun r => (.int r.1, r.2) := by
  have hstack : ∀ (name : CString) (failnum : ℤ) (failinfo : Addr) (flags : UInt32) (func : Addr)
      (funcPosInStack : ℤ), fiuEnableStack P l s name failnum failinfo flags func funcPosInStack
        = match FiuCall.created.stackPoint l name failnum failinfo flags func funcPosInStack with
          | none => some (-1, s)
          | some pf => insertPf P s pf := by
    intro name failnum failinfo flags func funcPosInStack
    unfold fiuEnableStack FiuCall.created.stackPoint
    split
    · rfl
    split
    · rfl
    split <;> rfl
  cases call with
  | fail caller name => cases h
  | disable name => cases h
  | enableStack name failnum failinfo flags func funcPosInStack =>
    show Option.map _ (fiuEnableStack P l s name failnum failinfo flags func funcPosInStack)
      = match FiuCall.created.stackPoint l name failnum failinfo flags func funcPosInStack with
        | none => some (FiuReply.int (-1), s)
        | some pf => (insertPf P s pf).map fun r => (FiuReply.int r.1, r.2)
    rw [hstack]
    cases FiuCall.created.stackPoint (W := W) l name failnum failinfo flags func funcPosInStack <;> rfl
  | enableStackByName name failnum failinfo flags funcName funcPosInStack =>
    simp only [fiuStep, fiuEnableStackByName, FiuCall.created]
    split
    · rfl
    split
    · rfl
    · rw [hstack]
      cases FiuCall.created.stackPoint (W := W) l name failnum failinfo flags
        (l.getFuncAddr funcName) funcPosInStack <;> rfl
  | _ => rfl

/-- A point that a thread is about to insert is a new one. -/
theorem Moves.fresh {i : ℕ} {a : Choice W} {s s' : Shared W} {th th' : Thread W} {pf : PfInfo W}
    {e : Event} (h : Moves P l i s a th e s' th') (hinsert : th' = .wlock (.insert pf)) :
    pf.lock = none ∧ pf.failedOnce = false := by
  cases h with
  | enter call =>
    unfold FiuCall.enter at hinsert
    split at hinsert
    · split at hinsert <;> cases hinsert
    · cases hinsert
    · split at hinsert
      · cases hinsert
      · rename_i pf' hpf
        cases hinsert
        exact (FiuCall.created_eq_some hpf).2
  | testTable => split at hinsert <;> cases hinsert
  | _ => cases hinsert

/-! ## Who holds the lock of the table

`HoldsLock` ties the lock to the programs of the threads. A thread keeps it with its own steps, and
no step of another thread breaks it.

For each thread the assertion has two parts, reading and writing, and both are equivalences: from
the lock one knows where the thread is, and from where it is one knows the lock. -/

/-- Thread `i` holds the lock where its program says so. -/
structure HoldsLock (i : ℕ) (s : Shared W) (th : Thread W) : Prop where
  reader : i ∈ s.enabledFailsLock.readers ↔ th.reads = true
  writer : s.enabledFailsLock.writer = some i ↔ th.writes = true

namespace HoldsLock

variable {i : ℕ} {s s' : Shared W} {th th' : Thread W} {a : Choice W} {e : Event}

/-- The lock is held by the same threads, as far as `i` is concerned. -/
theorem of_same (h : HoldsLock i s th)
    (hsame : s.enabledFailsLock.SameFor s'.enabledFailsLock i) : HoldsLock i s' th :=
  ⟨hsame.1.trans h.reader, hsame.2.trans h.writer⟩

/-- A thread that is not the writer is not where a writer is. -/
theorem not_writes (h : HoldsLock i s th) (hw : s.enabledFailsLock.writer ≠ some i) :
    th.writes = false := by
  rw [← Bool.not_eq_true, ← h.writer]
  exact hw

/-- Where nobody reads, no thread is where a reader is. -/
theorem not_reads (h : HoldsLock i s th) (hr : s.enabledFailsLock.readers = ∅) :
    th.reads = false := by
  rw [← Bool.not_eq_true, ← h.reader, hr]
  exact Finset.notMem_empty i

/-- There is no writer while a thread reads. -/
theorem no_writer (h : HoldsLock i s th) (hr : th.reads = true) :
    s.enabledFailsLock.writer = none :=
  RwLock.writer_eq_none (h.reader.mpr hr)

/-- There is no reader while a thread writes. -/
theorem no_readers (h : HoldsLock i s th) (hw : th.writes = true) :
    s.enabledFailsLock.readers = ∅ := by
  apply s.enabledFailsLock.exclusive
  rw [h.writer.mpr hw]
  exact Option.some_ne_none i

/-- A thread takes and gives back the lock where its program says so. -/
theorem move (h : HoldsLock i s th) (hm : Moves P l i s a th e s' th') : HoldsLock i s' th' := by
  cases hm with
  | enter call =>
    have hout : (call.enter l).reads = false ∧ (call.enter l).writes = false := by
      unfold FiuCall.enter
      split
      · split <;> exact ⟨rfl, rfl⟩
      · exact ⟨rfl, rfl⟩
      · split <;> exact ⟨rfl, rfl⟩
    exact ⟨by rw [hout.1]; exact h.reader, by rw [hout.2]; exact h.writer⟩
  | rdlock hk =>
    obtain ⟨-, hw', hr⟩ := RwLock.rdlock_eq_some hk
    constructor
    · show i ∈ RwLock.readers _ ↔ _
      rw [hr]
      exact iff_of_true (Finset.mem_insert_self i _) rfl
    · show RwLock.writer _ = _ ↔ _
      rw [hw']
      exact iff_of_false (fun he => by cases he) (fun he => by cases he)
  | @testTable caller name =>
    have hin : ∀ b : Bool, (if b then .runlock 0 else .get caller name .start : Thread W).reads = true ∧
        (if b then .runlock 0 else .get caller name .start : Thread W).writes = false := by
      intro b
      cases b <;> exact ⟨rfl, rfl⟩
    exact ⟨by rw [(hin _).1]; exact h.reader, by rw [(hin _).2]; exact h.writer⟩
  | wrlock hk =>
    obtain ⟨-, -, hw', hr'⟩ := RwLock.wrlock_eq_some hk
    constructor
    · show i ∈ RwLock.readers _ ↔ _
      rw [hr']
      exact iff_of_false (Finset.notMem_empty i) (fun he => by cases he)
    · show RwLock.writer _ = _ ↔ _
      rw [hw']
      exact iff_of_true rfl rfl
  | runlock =>
    obtain ⟨hr, hw⟩ := RwLock.unlock_self s.enabledFailsLock i
    exact ⟨iff_of_false hr (fun he => by cases he), iff_of_false hw (fun he => by cases he)⟩
  | wrote =>
    obtain ⟨hr, hw⟩ := RwLock.unlock_self s.enabledFailsLock i
    exact ⟨iff_of_false hr (fun he => by cases he), iff_of_false hw (fun he => by cases he)⟩
  | _ => exact ⟨h.reader, h.writer⟩

end HoldsLock

/-- At first nobody holds the lock. -/
theorem holdsLock_start (world : W) (garbage : ℕ) (seed : UInt32) (i : ℕ) :
    HoldsLock i (threadsStart world garbage seed).shared ((threadsStart world garbage seed).locals i) :=
  ⟨iff_of_false (Finset.notMem_empty i) (fun he => by cases he),
    iff_of_false (fun he => by cases he) (fun he => by cases he)⟩

end Libfiu
