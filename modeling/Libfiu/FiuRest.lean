/-
  Calls come to an end.

  `threads_go_on` is that a thread takes its next step or waits.  Here is why the threads do not all
  wait for one another, and do not go round for ever.

  1. **What is left** (`Thread.writeLeft`, `Thread.readLeft`) — every step that a thread takes on its
     own leaves less of its call.  The loops of a lookup are as long as the arrays: a reader does not
     change them, and a writer, which may, has only so many steps until it is done.

  2. **Who goes first** (`some_thread_goes_on`) — a thread that holds the lock of a point waits for
     nothing but its callback.  If there is none, no point is locked, and whoever holds the lock of the
     table goes on; if nobody does, whoever asks for it gets it.

  3. **To rest** (`threads_come_to_rest`) — so from every state that an interleaving leads to, the calls
     that are under way come to their end in ANY order in which the threads go on from there.

  That nothing goes round for ever needs no fairness: the measure falls with every step that a
  thread takes on its own, whichever thread it is. That nothing stops short needs the callbacks to
  leave `FIU_ONETIME` alone, since a thread that finds it cleared passes over the unlocking of
  `pf->lock`.
-/
import Libfiu.FiuProgress
import Libfiu.FiuFork

namespace Libfiu

open Threads

variable {W : Type} {P : Platform} {l : Linker}

/-! ## What is left

Two counts: of the steps that are left to the writers, and of those that are left to the readers,
whose loops are as long as the arrays of the table. A writer makes the first one smaller and may
change the sizes in the second; a reader makes the second one smaller and leaves the first as it is.
-/

/-- How many steps are left at most of `fiu_fail` on its point. -/
def PointPc.left : PointPc → ℕ
  | .testFlags => 16
  | .lock => 15
  | .testFailedOnce => 14
  | .decide => 13
  | .randdStore _ _ | .callback => 12
  | .randdLoad _ => 11
  | .testFlagsPass => 8
  | .exitFail => 7
  | .readFailnum => 6
  | .testFlagsFail _ => 5
  | .setFailedOnce _ => 4
  | .unlockFail _ => 3
  | .unlockPass => 2
  | .unlockSpent => 1
  | .done _ => 0

/-- How many steps are left at most of `wtable_get`, in a table with so many slots for names and for
    wildcards. -/
def GetPc.left (slots wildcards : ℕ) : GetPc → ℕ
  | .start => 5 + wildcards + slots
  | .probe left _ => 4 + wildcards + left
  | .cacheGet => 3 + wildcards
  | .scan pos => 2 + (wildcards - pos)
  | .cacheSet _ => 1
  | .done _ => 0

/-- How many steps are left at most of `wtable_set` and `wtable_del`. -/
def WritePc.left : WritePc → ℕ
  | .start => 5
  | .resize => 4
  | .cacheResize _ => 3
  | .invalidate => 2
  | .store => 1
  | .done _ => 0

/-- The sizes of the two arrays of a table. -/
def UncachedWtable.sizes (t : UncachedWtable ℕ) : ℕ × ℕ :=
  (t.finals.slots.elim 0 List.length, t.slots.elim 0 List.length)

/-- The sizes of the arrays of the table. -/
def Shared.sizes (s : Shared W) : ℕ × ℕ :=
  (s.enabledFails.map Wtable.toUncachedWtable).elim (0, 0) UncachedWtable.sizes

/-- How many steps are left at most until a thread has written the table, if it is to. -/
def Thread.writeLeft : Thread W → ℕ
  | .wlock _ => 7
  | .write _ pc => 1 + pc.left
  | _ => 0

/-- How many steps are left at most of the call that a thread is in, besides. -/
def Thread.readLeft (s : Shared W) : Thread W → ℕ
  | .rlock _ _ => 27 + s.sizes.2 + s.sizes.1
  | .testTable _ _ => 26 + s.sizes.2 + s.sizes.1
  | .get _ _ pc => 20 + pc.left s.sizes.1 s.sizes.2
  | .point _ _ _ pc => 3 + pc.left
  | .runlock _ => 2
  | .ret _ => 1
  | .wlock _ | .write _ _ | .idle => 0

/-- What a thread takes upon itself: it goes on, or its callback returns. -/
def Choice.GoesOn (a : Choice W) : Prop := a = .next ∨ ∃ ret, a = .callbackRet ret

/-- Out of the `switch` nothing gets longer. -/
theorem switched_left {fails : Bool} {id : ℕ} {s s' : Fiu W} {e : Event} {pc' : PointPc}
    (h : switched fails id s = (e, s', pc')) : pc'.left < 11 := by
  cases fails <;> cases h <;> decide

/-- A step on a point. -/
theorem pointStep_left {i id : ℕ} {caller : Caller} {a : Choice W} {s s' : Fiu W} {pc pc' : PointPc}
    {e : Event} (ha : a.GoesOn) (h : pointStep P l i caller id a s pc = some (e, s', pc')) :
    pc'.left < pc.left := by
  obtain ⟨pf, -, h⟩ := Option.bind_eq_some_iff.mp h
  have hswitch : ∀ {fails : Bool} {n : ℕ}, 11 ≤ n → switched fails id s = (e, s', pc') → pc'.left < n :=
    fun hn hs => lt_of_lt_of_le (switched_left hs) hn
  split at h
  · cases h
    split <;> decide
  · split at h
    · cases h
      decide
    · cases h
  · cases h
    split <;> decide
  · cases h
    decide
  · -- the `switch`
    split at h
    · exact hswitch (by decide) (Option.some.inj h)
    · cases h
      exact Nat.lt_succ_self 12
    · cases h
      decide
    · exact hswitch (by decide) (Option.some.inj h)
  · cases h
    exact Nat.lt_succ_self 11
  · exact hswitch (le_refl 11) (Option.some.inj h)
  · -- a callback that stores does not go on
    rcases ha with ha | ⟨ret, ha⟩ <;> cases ha
  · exact hswitch (by decide) (Option.some.inj h)
  · cases h
    split <;> decide
  · cases h
    decide
  · cases h
    decide
  · cases h
    exact Nat.lt_succ_self 5
  · cases h
    split
    · exact Nat.lt_succ_self 4
    · exact Nat.succ_pos 4
  · cases h
    exact Nat.lt_succ_self 3
  · cases h
    exact Nat.succ_pos 2
  · cases h

/-- A step of a lookup, in a table whose arrays have these sizes. -/
theorem getStep_left {name : CString} {pc pc' : GetPc} {t t' : Wtable ℕ} {slots wildcards : ℕ}
    (hsizes : t.toUncachedWtable.sizes = (slots, wildcards))
    (h : getStep P name pc t = some (pc', t')) :
    pc'.left slots wildcards < pc.left slots wildcards := by
  obtain ⟨hslots, hwildcards⟩ := Prod.mk.inj hsizes
  unfold getStep at h
  split at h
  · -- `start`
    obtain ⟨entries, hs, h⟩ := Option.bind_eq_some_iff.mp h
    cases h
    have hsize : entries.length = slots := by
      rw [← hslots, hs]
      rfl
    rw [GetPc.left, GetPc.left, hsize]
    omega
  · cases h
    rw [GetPc.left, GetPc.left]
    omega
  · -- `probe`: one slot less is left, or the cache is next
    rename_i left pos
    have hdown : ∀ pc : GetPc, pc.left slots wildcards ≤ 4 + wildcards + left →
        pc.left slots wildcards < (GetPc.probe (left + 1) pos).left slots wildcards := by
      intro pc hpc
      rw [GetPc.left.eq_2]
      omega
    have hcache : GetPc.left slots wildcards .cacheGet ≤ 4 + wildcards + left := by
      rw [GetPc.left]
      omega
    obtain ⟨entries, hs, h⟩ := Option.bind_eq_some_iff.mp h
    obtain ⟨slot, -, h⟩ := Option.bind_eq_some_iff.mp h
    split at h
    · cases h
      exact hdown _ hcache
    · split at h
      · cases h
        apply hdown
        split
        · exact Nat.zero_le _
        · exact hcache
      · cases h
        exact hdown _ (le_refl _)
    · cases h
      exact hdown _ (le_refl _)
  · -- `cacheGet`
    obtain ⟨⟨hit, value⟩, -, h⟩ := Option.bind_eq_some_iff.mp h
    cases h
    cases hit with
    | true =>
      show 0 < _
      rw [GetPc.left]
      omega
    | false =>
      show 2 + (wildcards - 0) < _
      rw [GetPc.left]
      omega
  · -- `scan`
    rename_i pos
    obtain ⟨ws, hw, h⟩ := Option.bind_eq_some_iff.mp h
    have hsize : ws.length = wildcards := by
      rw [← hwildcards, hw]
      rfl
    have hset : ∀ value, (GetPc.cacheSet value).left slots wildcards
        < (GetPc.scan pos).left slots wildcards := by
      intro value
      rw [GetPc.left, GetPc.left]
      omega
    have hnext : pos < ws.length → (GetPc.scan (pos + 1)).left slots wildcards
        < (GetPc.scan pos).left slots wildcards := by
      intro hpos
      rw [GetPc.left, GetPc.left]
      omega
    split at h
    · cases h
      exact hset none
    · rename_i hslot
      cases h
      exact hnext (List.getElem?_eq_some_iff.mp hslot).1
    · rename_i entry hslot
      obtain ⟨found, -, h⟩ := Option.bind_eq_some_iff.mp h
      cases h
      split
      · exact hset _
      · exact hnext (List.getElem?_eq_some_iff.mp hslot).1
  · -- `cacheSet`
    obtain ⟨⟨ok, c⟩, -, h⟩ := Option.bind_eq_some_iff.mp h
    cases h
    exact Nat.zero_lt_one
  · cases h

/-- A step of a writer. -/
theorem writeStep_left {call : Call ℕ} {pc pc' : WritePc} {t t' : Wtable ℕ}
    (h : writeStep P call pc t = some (pc', t')) : pc'.left < pc.left := by
  unfold writeStep at h
  split at h
  · obtain ⟨wild, -, h⟩ := Option.bind_eq_some_iff.mp h
    split at h
    · split at h
      · cases h
        decide
      · obtain ⟨ws, -, h⟩ := Option.bind_eq_some_iff.mp h
        obtain ⟨found, -, h⟩ := Option.bind_eq_some_iff.mp h
        split at h
        · cases h
          decide
        · cases h
          decide
      · cases h
    · split at h
      · obtain ⟨⟨r, finals⟩, -, h⟩ := Option.bind_eq_some_iff.mp h
        cases h
        exact Nat.succ_pos 4
      · obtain ⟨⟨r, finals⟩, -, h⟩ := Option.bind_eq_some_iff.mp h
        cases h
        exact Nat.succ_pos 4
      · cases h
  · split at h
    · cases h
      decide
    · split at h
      · cases h
        decide
      · obtain ⟨⟨ok, u⟩, -, h⟩ := Option.bind_eq_some_iff.mp h
        cases h
        cases ok
        · exact Nat.succ_pos 3
        · exact Nat.lt_succ_self 3
  · obtain ⟨⟨ok, c⟩, -, h⟩ := Option.bind_eq_some_iff.mp h
    cases h
    exact Nat.lt_succ_self 2
  · obtain ⟨t₁, -, h⟩ := Option.bind_eq_some_iff.mp h
    split at h
    · cases h
      decide
    · cases h
      decide
  · split at h
    · obtain ⟨⟨r, u⟩, -, h⟩ := Option.bind_eq_some_iff.mp h
      cases h
      exact Nat.succ_pos 0
    · cases h
  · cases h

/-- A thread that does not write leaves the arrays as long as they are. -/
theorem Moves.sizes_eq {i : ℕ} {a : Choice W} {s s' : Shared W} {th th' : Thread W} {e : Event}
    (h : Moves P l i s a th e s' th') (hw : th.writes = false) : s'.sizes = s.sizes := by
  rw [Shared.sizes, h.uncached_eq hw, ← Shared.sizes]

/-- **Every step leaves less to do.** -/
theorem threads_settle : Settles (threadStep (W := W) P l) (fun _ a _ _ => a.GoesOn) (· = .idle)
    Thread.writeLeft Thread.readLeft where
  busy := by
    rintro i a s s' th th' e ha hact rfl
    rcases ha with rfl | ⟨ret, rfl⟩ <;> cases hact
  less := by
    intro i a s s' th th' e ha hact
    have hm := threadStep_moves hact
    have hsame : th.writes = false → ∀ m : Thread W, m.readLeft s' = m.readLeft s := by
      intro hw m
      unfold Thread.readLeft
      rw [hm.sizes_eq hw]
    have hread : th.writes = false → th'.writeLeft = th.writeLeft → th'.readLeft s < th.readLeft s →
        th'.writeLeft < th.writeLeft ∨ (th'.writeLeft = th.writeLeft ∧ th'.readLeft s' < th.readLeft s ∧
          ∀ m : Thread W, m.readLeft s' = m.readLeft s) := by
      intro hw hwrite hless
      rw [hsame hw]
      exact Or.inr ⟨hwrite, hless, hsame hw⟩
    -- one bullet for each place of a thread
    unfold threadStep at hact
    split at hact
    · -- a call: this is no way of going on
      rcases ha with ha | ⟨ret, ha⟩ <;> cases ha
    · -- `rlock`
      obtain ⟨k, -, hact⟩ := Option.bind_eq_some_iff.mp hact
      cases hact
      apply hread rfl rfl
      rw [Thread.readLeft, Thread.readLeft]
      omega
    · -- `testTable`
      cases hact
      by_cases hnone : s.enabledFails.isNone = true
      · rw [if_pos hnone] at hread ⊢
        apply hread rfl rfl
        rw [Thread.readLeft, Thread.readLeft]
        omega
      · rw [if_neg hnone] at hread ⊢
        apply hread rfl rfl
        rw [Thread.readLeft, Thread.readLeft, GetPc.left]
        omega
    · -- nothing was found
      cases hact
      apply hread rfl rfl
      rw [Thread.readLeft, Thread.readLeft]
      omega
    · -- a point was found
      cases hact
      apply hread rfl rfl
      rw [Thread.readLeft, Thread.readLeft, PointPc.left, GetPc.left]
      omega
    · -- `wtable_get`
      obtain ⟨t, ht, hact⟩ := Option.bind_eq_some_iff.mp hact
      obtain ⟨⟨pc', t'⟩, hstep, hact⟩ := Option.bind_eq_some_iff.mp hact
      cases hact
      have hless := getStep_left rfl hstep
      apply hread rfl rfl
      rw [Thread.readLeft, Thread.readLeft, Shared.sizes, ht]
      exact Nat.add_lt_add_left hless 20
    · -- the point is done with
      cases hact
      apply hread rfl rfl
      rw [Thread.readLeft, Thread.readLeft]
      omega
    · -- on the point
      obtain ⟨⟨e₁, s₁, pc₁⟩, hstep, hact⟩ := Option.bind_eq_some_iff.mp hact
      cases hact
      have hless := pointStep_left ha hstep
      exact hread rfl rfl (Nat.add_lt_add_left hless 3)
    · -- `runlock`
      cases hact
      exact hread rfl rfl (Nat.lt_succ_self 1)
    · -- `wlock`: the write part counts first
      obtain ⟨k, -, hact⟩ := Option.bind_eq_some_iff.mp hact
      cases hact
      exact Or.inl (Nat.lt_succ_self 6)
    · -- the lock is given back
      cases hact
      exact Or.inl (Nat.succ_pos _)
    · -- `wtable_set` and `wtable_del`
      obtain ⟨t, ht, hact⟩ := Option.bind_eq_some_iff.mp hact
      obtain ⟨⟨pc', t'⟩, hstep, hact⟩ := Option.bind_eq_some_iff.mp hact
      cases hact
      exact Or.inl (Nat.add_lt_add_left (writeStep_left hstep) 1)
    · -- `ret`
      cases hact
      exact hread rfl rfl (Nat.succ_pos 0)
    · cases hact

/-! ## Who goes first

There is no circle of threads that wait for each other: who waits for the lock of a point has the
lock of the table for reading, who holds the lock of a point waits for its callback at most, and a
writer waits for readers or another writer only.

So from any thread that cannot go on one is led to another one, and after at most two of these steps
to one that can: from the lock of a point to its holder, and from the lock of the table to whoever
reads or writes. -/

/-- A thread that is about to take the lock of the point `p` saw that this is to fail once. -/
def AtLock (p : ℕ) (s : Shared W) (th : Thread W) : Prop :=
  th.pcAt p = .lock → ∀ pf, s.pfs[p]? = some pf → pf.onetime = true

/-- No step breaks it: the flag is only changed by callbacks, and those leave it. -/
theorem atLock_invariant (p : ℕ) : Invariant (threadStep (W := W) P l) (LeavesOnetime p) (PointHolds p)
    (fun i h s th => ThreadHolds p i h s th ∧ AtLock p s th) where
  own := by
    rintro h i a s s' th th' e hI ⟨hJ, hat⟩ hQ hstep
    have hm := threadStep_moves hstep
    obtain ⟨hI', hJ'⟩ := (once_invariant p).own hI hJ hQ hstep
    refine ⟨hI', hJ', fun hpc q hq => ?_⟩
    rcases hm.at_point p with ⟨hsame, -, hsamepc⟩ | ⟨pf, -, -, -, -, hbegin⟩ |
      ⟨caller, name, pf, pf', hth, hpf, hpf', hmove⟩
    · rcases hsamepc with hsamepc | ⟨r, -, hbegin⟩
      · rw [hsame] at hq
        exact hat (hsamepc.symm.trans hpc) q hq
      · rw [hbegin] at hpc
        cases hpc
    · rw [hbegin] at hpc
      cases hpc
    · rw [hpf'] at hq
      cases hq
      rw [hth] at hQ
      rw [onetime_of_moves hQ hpf hmove]
      rw [hpc] at hmove
      exact hmove.to_lock
  other := by
    rintro h i j a s s' th th' thj e hne hI ⟨hi, -⟩ ⟨hj, hat⟩ hQ hstep
    have hm := threadStep_moves hstep
    refine ⟨(once_invariant p).other hne hI hi hj hQ hstep, fun hpc q hq => ?_⟩
    rcases hm.at_point p with ⟨hsame, -, -⟩ | ⟨pf, -, hnone, -⟩ |
      ⟨caller, name, pf, pf', hth, hpf, hpf', hmove⟩
    · rw [hsame] at hq
      exact hat hpc q hq
    · -- nobody is at a point that is not there yet
      rw [hj.unborn hnone] at hpc
      cases hpc
    · rw [hpf'] at hq
      cases hq
      rw [hth] at hQ
      rw [onetime_of_moves hQ hpf hmove]
      exact hat hpc pf hpf

/-- What holds of the shared state in every interleaving. -/
def SharedHolds (P : Platform) (h : List (ℕ × Event)) (s : Shared W) : Prop :=
  TableHolds P h s ∧ ∀ p, PointHolds p h s

/-- What holds of thread `i`. -/
def CallHolds (P : Platform) (i : ℕ) (h : List (ℕ × Event)) (s : Shared W) (th : Thread W) : Prop :=
  (HoldsLock i s th ∧ th.Asserts P h s) ∧ ∀ p, ThreadHolds p i h s th ∧ AtLock p s th

/-- The calls get names, and callbacks leave `FIU_ONETIME`. -/
def Behaves (i : ℕ) (a : Choice W) (s : Shared W) (th : Thread W) : Prop :=
  NamesCalls i a s th ∧ ∀ p, LeavesOnetime p i a s th

/-- All of it together. -/
theorem rest_invariant :
    Invariant (threadStep (W := W) P l) Behaves (SharedHolds P) (CallHolds P) :=
  threads_invariant.and (Invariant.forall atLock_invariant)

/-- A callback can return. -/
theorem callback_returns {i : ℕ} {h : List (ℕ × Event)} {s : Shared W} {caller : Caller}
    {name : CString} {id : ℕ} (hI : TableHolds P h s)
    (hlock : HoldsLock i s (.point caller name id .callback))
    (hJ : Thread.Asserts P h s (.point caller name id .callback)) :
    ∃ r, threadStep P l i (.callbackRet 0) s (.point caller name id .callback) = some r := by
  obtain ⟨t, ht, hget⟩ := hJ
  obtain ⟨t₀, ht₀, hfol⟩ := hI.table
  rw [ht] at ht₀
  cases ht₀
  obtain ⟨pf, hpf⟩ := deref_found hI ht (hfol (hlock.no_writer rfl)) hget
  have hpoint : ∃ r, pointStep P l i caller id (.callbackRet 0) s.toFiu .callback = some r :=
    ⟨_, by simp only [pointStep, hpf, Option.bind_eq_bind, Option.bind_some]; rfl⟩
  obtain ⟨r, hr⟩ := hpoint
  have hgo : threadStep P l i (.callbackRet 0) s (.point caller name id .callback) =
      (pointStep P l i caller id (.callbackRet 0) s.toFiu .callback).bind fun r =>
        some (r.1, { r.2.1 with enabledFailsLock := s.enabledFailsLock },
          .point caller name id r.2.2) := rfl
  rw [hgo, hr]
  exact ⟨_, rfl⟩

/-- A thread that is in a call goes on, or it waits for the lock of the table, or for that of a point. -/
theorem goes_on_or_waits {i : ℕ} {h : List (ℕ × Event)} {s : Shared W} {th : Thread W}
    (hI : TableHolds P h s) (hlock : HoldsLock i s th) (hJ : th.Asserts P h s) (hbusy : th ≠ .idle) :
    (∃ (a : Choice W) (r : Event × Shared W × Thread W), a.GoesOn ∧ threadStep P l i a s th = some r) ∨
      (th.reads = false ∧ th.writes = false ∧
        (s.enabledFailsLock.writer ≠ none ∨ s.enabledFailsLock.readers ≠ ∅)) ∨
      ∃ p pf, th.pcAt p = .lock ∧ s.pfs[p]? = some pf ∧ pf.lock ≠ none := by
  rcases thread_goes_on (l := l) hI hlock hJ with hwaits | ⟨r, hr⟩
  · cases th with
    | idle => exact absurd rfl hbusy
    | rlock caller name => exact Or.inr (Or.inl ⟨rfl, rfl, Or.inl hwaits⟩)
    | wlock op => exact Or.inr (Or.inl ⟨rfl, rfl, hwaits⟩)
    | point caller name id pc =>
      cases pc with
      | lock =>
        obtain ⟨pf, hpf, hheld⟩ := hwaits
        exact Or.inr (Or.inr ⟨id, pf, if_pos rfl, hpf, hheld⟩)
      | callback =>
        obtain ⟨r, hr⟩ := callback_returns hI hlock hJ
        exact Or.inl ⟨_, r, Or.inr ⟨0, rfl⟩, hr⟩
      | _ => exact hwaits.elim
    | _ => exact hwaits.elim
  · exact Or.inl ⟨_, r, Or.inl rfl, hr⟩

/-- **As long as a thread is in a call, some thread goes on.** -/
theorem some_thread_goes_on {h : List (ℕ × Event)} {c : Config ℕ (Shared W) (Thread W)}
    (hI : SharedHolds P h c.shared) (hJ : ∀ i, CallHolds P i h c.shared (c.locals i))
    (hbusy : ∃ i, c.locals i ≠ .idle) :
    ∃ c', Follows (threadStep P l) (fun _ a _ _ => a.GoesOn) c c' := by
  obtain ⟨hI, -⟩ := hI
  have hgo : ∀ i, (∃ (a : Choice W) (r : Event × Shared W × Thread W), a.GoesOn ∧
      threadStep P l i a c.shared (c.locals i) = some r) →
      ∃ c', Follows (threadStep P l) (fun _ a _ _ => a.GoesOn) c c' := by
    rintro i ⟨a, r, ha, hr⟩
    exact ⟨_, i, a, _, ha, by rw [Threads.step, hr]; rfl⟩
  have hwait : ∀ i, c.locals i ≠ .idle → _ := fun i hi =>
    goes_on_or_waits (l := l) hI (hJ i).1.1 (hJ i).1.2 hi
  by_cases hheld : ∃ (p : ℕ) (pf : PfInfo W) (j : ℕ), c.shared.pfs[p]? = some pf ∧
      pf.onetime = true ∧ pf.lock = some j
  · -- the thread that holds the lock of a point
    obtain ⟨p, pf, j, hpf, hone, hlock⟩ := hheld
    have honce := ((hJ j).2 p).1.once pf hpf hone
    obtain ⟨caller, name, pc, hth⟩ : ∃ caller name pc, c.locals j = .point caller name p pc := by
      cases hth : c.locals j with
      | point caller name id pc =>
        by_cases hid : id = p
        · exact ⟨caller, name, pc, by rw [hid]⟩
        · rw [hth, Thread.pcAt, if_neg hid] at honce
          exact absurd hlock honce
      | _ =>
        rw [hth] at honce
        exact absurd hlock honce
    apply hgo j
    rcases hwait j (by rw [hth]; exact fun h => by cases h) with hstep | ⟨hreads, -⟩ | ⟨q, -, hq, -⟩
    · exact hstep
    · rw [hth] at hreads
      cases hreads
    · -- it does not wait for another point, as it is on this one
      exfalso
      by_cases hp : p = q
      · rw [← hp] at hq
        rw [hq] at honce
        exact honce hlock
      · rw [hth, Thread.pcAt, if_neg hp] at hq
        cases hq
  · -- nobody waits for a point
    have hfree : ∀ i p pf, (c.locals i).pcAt p = .lock → c.shared.pfs[p]? = some pf →
        pf.lock ≠ none → False := by
      intro i p pf hpc hpf hne
      obtain ⟨j, hj⟩ := Option.ne_none_iff_exists'.mp hne
      exact hheld ⟨p, pf, j, hpf, ((hJ i).2 p).2 hpc pf hpf, hj⟩
    -- so only the lock of the table is left to wait for
    by_cases hholds : ∃ j, c.shared.enabledFailsLock.HeldBy j
    · -- the thread that holds the lock of the table
      obtain ⟨j, hj⟩ := hholds
      have hpart : (c.locals j).reads = true ∨ (c.locals j).writes = true :=
        hj.imp (hJ j).1.1.reader.mp (hJ j).1.1.writer.mp
      apply hgo j
      rcases hwait j (by rintro h; rw [h] at hpart; rcases hpart with h | h <;> cases h) with
        hstep | ⟨hreads, hwrites, -⟩ | ⟨q, pf, hq, hpf, hne⟩
      · exact hstep
      · rw [hreads, hwrites] at hpart
        rcases hpart with h | h <;> cases h
      · exact (hfree j q pf hq hpf hne).elim
    · -- no lock is held at all, so whoever is in a call goes on
      obtain ⟨i, hi⟩ := hbusy
      apply hgo i
      rcases hwait i hi with hstep | ⟨-, -, hw | hr⟩ | ⟨q, pf, hq, hpf, hne⟩
      · exact hstep
      · obtain ⟨j, hj⟩ := Option.ne_none_iff_exists'.mp hw
        exact absurd ⟨j, Or.inr hj⟩ hholds
      · obtain ⟨j, hj⟩ := Finset.nonempty_iff_ne_empty.mpr hr
        exact absurd ⟨j, Or.inl hj⟩ hholds
      · exact (hfree i q pf hq hpf hne).elim

/-! ## To rest

The bound gets smaller with each step and some thread can take one, so in the end no thread is in a
call.

For this the two counts are added up over all threads, the first before the second
(`Settles.no_infinite_run`). A sequence of steps cannot be extended for ever, and where it cannot be
extended at all, every call has returned. -/

/-- **Calls come to an end.** After any run of calls with names (`hnames`), in which the callbacks
    leave `FIU_ONETIME` as it is (`hleaves`; one that does not may leave `pf->lock` locked behind
    it), let the threads go on, and callbacks return, in any order, while no thread makes another
    call.

    This does not go on for ever, as there is no infinite sequence of such steps; and wherever no
    thread goes on any more, all their calls have returned, so nobody is left waiting for a lock. -/
theorem threads_come_to_rest (P : Platform) (l : Linker) (world : W) (garbage : ℕ) (seed : UInt32)
    (steps : List (ℕ × Choice W))
    (hnames : ∀ step ∈ steps, ∀ call, step.2 = .call call → call.name.bytes ≠ [])
    (hleaves : Guarded (threadStep P l) (fun i a s th => ∀ p, LeavesOnetime p i a s th)
      (threadsStart world garbage seed) steps)
    {os : List (ℕ × Event)} {c : Config ℕ (Shared W) (Thread W)}
    (hrun : threadsRun P l (threadsStart world garbage seed) steps = some (os, c)) :
    (¬ ∃ f : ℕ → Config ℕ (Shared W) (Thread W), f 0 = c ∧
      ∀ n, Follows (threadStep P l) (fun _ a _ _ => a.GoesOn) (f n) (f (n + 1))) ∧
    ∀ (more : List (ℕ × Choice W)) (os' : List (ℕ × Event)) (c' : Config ℕ (Shared W) (Thread W)),
      (∀ step ∈ more, step.2.GoesOn) → threadsRun P l c more = some (os', c') →
      (¬ ∃ c'', Follows (threadStep P l) (fun _ a _ _ => a.GoesOn) c' c'') →
      ∀ i, c'.locals i = .idle := by
  obtain ⟨hI, hJ⟩ := rest_invariant.run steps []
    ⟨tableHolds_start world garbage seed, fun p => pointHolds_start p world garbage seed⟩
    (fun i => ⟨⟨holdsLock_start world garbage seed i, trivial⟩, fun p =>
      ⟨threadHolds_start p world garbage seed i, fun h => by cases h⟩⟩)
    (Machine.Guarded.and (namesCalls_of_forall hnames) hleaves) hrun
  constructor
  · -- the threads that took no step are idle
    apply threads_settle.no_infinite_run (steps.map Prod.fst).toFinset
    intro i hi
    rw [run_locals steps hrun]
    · rfl
    · rintro step hstep rfl
      exact hi (List.mem_toFinset.mpr (List.mem_map_of_mem hstep))
  · intro more os' c' hmore hrun' hstop
    have hguard : Guarded (threadStep P l) Behaves c more := by
      apply guarded_of_forall
      intro step hstep s th
      constructor
      · intro call hcall
        rcases hmore step hstep with h | ⟨ret, h⟩ <;> rw [h] at hcall <;> cases hcall
      · intro p caller name value pf _ hstore
        rcases hmore step hstep with h | ⟨ret, h⟩ <;> rw [h] at hstore <;> cases hstore
    obtain ⟨hI', hJ'⟩ := rest_invariant.run more _ hI hJ hguard hrun'
    by_contra hbusy
    exact hstop (some_thread_goes_on hI' hJ' (not_forall.mp hbusy))

/-- Thread 0 enables `"j"`, to fail once.  Threads 1 and 2 both found it, and are about to take its lock,
    when thread 3 asks for disabling it. -/
def restSteps : List (ℕ × Choice Unit) :=
  (0, .call (.enable keyJ 7 0 fiuOnetime)) :: List.replicate 4 (0, .next) ++
    [(1, .call (.fail ⟨1, 0, []⟩ keyJ)), (2, .call (.fail ⟨2, 0, []⟩ keyJ))] ++
    (List.replicate 6 [(1, .next), (2, .next)]).flatten ++ [(3, .call (.disable keyJ))]

theorem threads_come_to_rest_four :
    ∃ os c, threadsRun Platform.ieee noSymbols (threadsStart () 0 0) restSteps = some (os, c) ∧
      (¬ ∃ f : ℕ → Config ℕ (Shared Unit) (Thread Unit), f 0 = c ∧
        ∀ n, Follows (threadStep Platform.ieee noSymbols) (fun _ a _ _ => a.GoesOn) (f n) (f (n + 1))) ∧
      ∀ (more : List (ℕ × Choice Unit)) (os' : List (ℕ × Event))
        (c' : Config ℕ (Shared Unit) (Thread Unit)), (∀ step ∈ more, step.2.GoesOn) →
        threadsRun Platform.ieee noSymbols c more = some (os', c') →
        (¬ ∃ c'', Follows (threadStep Platform.ieee noSymbols) (fun _ a _ _ => a.GoesOn) c' c'') →
        ∀ i, c'.locals i = .idle := by
  have hdefined : (threadsRun Platform.ieee noSymbols (threadsStart () 0 0) restSteps).isSome := by
    decide +kernel
  obtain ⟨⟨os, c⟩, hrun⟩ := Option.isSome_iff_exists.mp hdefined
  have hnames : ∀ step ∈ restSteps, ∀ call, step.2 = .call call → call.name.bytes ≠ [] := by
    simp [restSteps, FiuCall.name, keyJ]
  -- no callback runs
  have hstores : ∀ step ∈ restSteps, ∀ x, step.2 ≠ .store x := by simp [restSteps]
  have hleaves : Guarded (threadStep Platform.ieee noSymbols)
      (fun i a s th => ∀ p, LeavesOnetime p i a s th) (threadsStart () 0 0) restSteps :=
    guarded_of_forall _ fun step hstep _ _ _ _ _ _ _ _ hstore => absurd hstore (hstores step hstep _)
  exact ⟨os, c, hrun, threads_come_to_rest Platform.ieee noSymbols () 0 0 restSteps hnames hleaves hrun⟩

end Libfiu
