/-
  No interleaving runs into something undefined.

  A step of the threads is `none` when its thread has to wait, and also when the source would read
  what is not there: a point that was freed, a slot outside of an array, a table that was never
  created.  After every run every thread can take its next step, or it waits (`Thread.waits`): to
  be called, for a lock that another thread holds, or for a callback.

  Three kinds of places can be undefined: a read of a slot of the arrays, a read of the table, and a
  read of a point. The first two are ruled out by what `GetHolds` and `Writing` say of a lookup and
  of a writer on its way; the third by `deref_found`, as the point that a lookup has found is
  enabled until its thread gives the lock back. So this module needs no induction over steps of its
  own: it asks the invariant of `FiuLinear` at the place where each thread is.
-/
import Libfiu.FiuLinear

namespace Libfiu

open Threads Probing

variable {W : Type} {P : Platform} {l : Linker}

/-- What the thread does next is not up to it. -/
def Thread.waits (s : Shared W) : Thread W → Prop
  | .idle => True
  | .rlock _ _ => s.enabledFailsLock.writer ≠ none
  | .wlock _ => s.enabledFailsLock.writer ≠ none ∨ s.enabledFailsLock.readers ≠ ∅
  | .point _ _ id .lock => ∃ pf, s.pfs[id]? = some pf ∧ pf.lock ≠ none
  | .point _ _ _ .callback => True
  | _ => False

/-! ## `wtable_get`

The array has the recorded size, and the place of the lookup is inside of it, so each read is
defined. -/

/-- A lookup that is on its way goes on until it is done. -/
theorem getStep_defined {name : CString} {pc : GetPc} {t : Wtable ℕ} {M : CString → Option ℕ}
    (ht : t.Holds P M) (hpc : GetHolds P t.toUncachedWtable name pc)
    (hdone : ∀ value, pc ≠ .done value) : ∃ r, getStep P name pc t = some r := by
  obtain ⟨hrep, centries, hc, -⟩ := ht
  obtain ⟨ws, hw, -⟩ := hrep.array
  cases pc with
  | start =>
    obtain ⟨entries, hwf, -, -⟩ := hrep.finals
    exact ⟨_, by simp only [getStep, hwf.slots_eq]; rfl⟩
  | probe left pos =>
    cases left with
    | zero => exact ⟨_, rfl⟩
    | succ left =>
      obtain ⟨entries, hs, hprobe⟩ := hpc
      cases hslot : entries[pos]? with
      | none =>
        -- the loop never leaves the array: it would find nothing, and there is room
        rw [probe, hslot] at hprobe
        exact absurd hprobe.symm (findSlot_ne_none hrep.finals hs name)
      | some slot =>
        cases slot with
        | inUse key value =>
          by_cases hkey : key = name
          · exact ⟨_, by simp only [getStep, hs, hslot, Option.bind_eq_bind, Option.bind_some,
              if_pos hkey]; rfl⟩
          · exact ⟨_, by simp only [getStep, hs, hslot, Option.bind_eq_bind, Option.bind_some,
              if_neg hkey]; rfl⟩
        | _ =>
          exact ⟨_, by simp only [getStep, hs, hslot, Option.bind_eq_bind, Option.bind_some]; rfl⟩
  | cacheGet =>
    rcases cacheGet_eq (P := P) hc name with ⟨value, -, hhit⟩ | hmiss
    · exact ⟨_, by simp only [getStep, hhit, Option.bind_eq_bind, Option.bind_some]; rfl⟩
    · exact ⟨_, by simp only [getStep, hmiss, Option.bind_eq_bind, Option.bind_some]; rfl⟩
  | scan pos =>
    cases hslot : ws[pos]? with
    | none =>
      exact ⟨_, by simp only [getStep, hw.slots_eq, hslot, Option.bind_eq_bind, Option.bind_some]; rfl⟩
    | some slot =>
      cases slot with
      | none =>
        exact ⟨_, by simp only [getStep, hw.slots_eq, hslot, Option.bind_eq_bind, Option.bind_some]; rfl⟩
      | some entry =>
        have hgood := hw.good entry (List.mem_of_getElem? hslot)
        exact ⟨_, by simp only [getStep, hw.slots_eq, hslot, Wentry.wsMatchesS_eq hgood,
          Option.bind_eq_bind, Option.bind_some]; rfl⟩
  | cacheSet value =>
    obtain ⟨c', hset, -⟩ := cacheSet_eq (P := P) hc name value
    exact ⟨_, by simp only [getStep, hset, Option.bind_eq_bind, Option.bind_some]; rfl⟩
  | done value => exact absurd rfl (hdone value)

/-! ## The point

What a lookup has found is enabled, and nobody frees it while a reader has the lock. -/

/-- The point that a lookup found can be read. -/
theorem deref_found {h : List (ℕ × Event)} {s : Shared W} (hI : TableHolds P h s) {t : Wtable ℕ}
    (ht : s.enabledFails = some t) (hfol : t.Follows P (ledgerOf h)) {name : CString} {id : ℕ}
    (hget : uncachedGet P t.toUncachedWtable name = some (some id)) :
    ∃ pf, s.deref id = some pf := by
  have hL := Ledger.balanced_foldl (writesOf h) Ledger.balanced_empty hI.distinct
  have hlt : id < s.pfs.length := hI.old id ((hL.complete id).mpr
    (Or.inr (lookup_held hfol.holds.uncached hget)))
  refine ⟨s.pfs[id], ?_⟩
  rw [Fiu.deref, ht]
  show s.pfAt t id = _
  rw [Fiu.pfAt, if_neg (found_not_destroyed hI hfol hget), List.getElem?_eq_getElem hlt]

/-- A thread on a point that it can read goes on, or waits for its lock or for its callback. -/
theorem pointStep_defined {i : ℕ} {caller : Caller} {id : ℕ} {s : Fiu W} {pf : PfInfo W}
    (hpf : s.deref id = some pf) (pc : PointPc) (hdone : ∀ result, pc ≠ .done result) :
    pc = .callback ∨ (pc = .lock ∧ pf.lock ≠ none) ∨
      ∃ r, pointStep P l i caller id .next s pc = some r := by
  cases pc with
  | callback => exact Or.inl rfl
  | lock =>
    by_cases hfree : pf.lock = none
    · exact Or.inr (Or.inr ⟨_, by
        simp only [pointStep, hpf, Option.bind_eq_bind, Option.bind_some, if_pos hfree]; rfl⟩)
    · exact Or.inr (Or.inl ⟨rfl, hfree⟩)
  | decide =>
    refine Or.inr (Or.inr ?_)
    simp only [pointStep, hpf, Option.bind_eq_bind, Option.bind_some]
    cases pf.method <;> exact ⟨_, rfl⟩
  | done result => exact absurd rfl (hdone result)
  | _ =>
    exact Or.inr (Or.inr ⟨_, by
      simp only [pointStep, hpf, Option.bind_eq_bind, Option.bind_some]; rfl⟩)

/-! ## Threads

No invariant is new here: those of `FiuLinear` say of each place what it needs to go on.

A thread that is idle waits for its program, and one in a callback for the callback; these two are
the only places where a thread waits for something that is not in the library. -/

/-- **A thread goes on or waits.** -/
theorem thread_goes_on {i : ℕ} {h : List (ℕ × Event)} {s : Shared W} {th : Thread W}
    (hI : TableHolds P h s) (hlock : HoldsLock i s th) (hJ : th.Asserts P h s) :
    th.waits s ∨ ∃ r, threadStep P l i .next s th = some r := by
  obtain ⟨t, ht, hfol⟩ := hI.table
  cases th with
  | idle => exact Or.inl trivial
  | rlock caller name =>
    by_cases hw : s.enabledFailsLock.writer = none
    · right
      simp only [threadStep, RwLock.rdlock, if_pos hw, Option.bind_eq_bind, Option.bind_some]
      exact ⟨_, rfl⟩
    · exact Or.inl hw
  | wlock op =>
    by_cases hfree : s.enabledFailsLock.writer = none ∧ s.enabledFailsLock.readers = ∅
    · right
      simp only [threadStep, RwLock.wrlock, if_pos hfree, Option.bind_eq_bind, Option.bind_some]
      exact ⟨_, rfl⟩
    · exact Or.inl (not_and_or.mp hfree)
  | get caller name pc =>
    -- its reader's lock keeps writers away, so the table is as it should be
    right
    obtain ⟨t₀, ht₀, hpc⟩ := hJ
    rw [ht] at ht₀
    cases ht₀
    by_cases hdone : ∃ value, pc = .done value
    · obtain ⟨value, rfl⟩ := hdone
      cases value <;> exact ⟨_, rfl⟩
    · obtain ⟨r, hstep⟩ := getStep_defined (hfol (hlock.no_writer rfl)).holds hpc
        fun value hv => hdone ⟨value, hv⟩
      have hgo : threadStep P l i .next s (.get caller name pc) =
          s.enabledFails.bind fun t => (getStep P name pc t).bind fun r =>
            some (.internal, { s with enabledFails := some r.2 }, .get caller name r.1) := by
        cases pc with
        | done value => exact absurd ⟨value, rfl⟩ hdone
        | _ => rfl
      rw [hgo, ht, Option.bind_some, hstep]
      exact ⟨_, rfl⟩
  | point caller name id pc =>
    -- the point was found under this lock, so it is not freed
    by_cases hdone : ∃ result, pc = .done result
    · obtain ⟨result, rfl⟩ := hdone
      exact Or.inr ⟨_, rfl⟩
    · obtain ⟨t₀, ht₀, hget⟩ := hJ
      rw [ht] at ht₀
      cases ht₀
      obtain ⟨pf, hpf⟩ := deref_found hI ht (hfol (hlock.no_writer rfl)) hget
      have hpoint : pc = .callback ∨ (pc = .lock ∧ pf.lock ≠ none) ∨
          ∃ r, pointStep P l i caller id .next s.toFiu pc = some r :=
        pointStep_defined hpf pc fun result hr => hdone ⟨result, hr⟩
      rcases hpoint with rfl | ⟨rfl, hheld⟩ | ⟨r, hstep⟩
      · exact Or.inl trivial
      · exact Or.inl ⟨pf, Fiu.deref_eq_some hpf, hheld⟩
      · right
        have hgo : threadStep P l i .next s (.point caller name id pc) =
            (pointStep P l i caller id .next s.toFiu pc).bind fun r =>
              some (r.1, { r.2.1 with enabledFailsLock := s.enabledFailsLock },
                .point caller name id r.2.2) := by
          cases pc with
          | done result => exact absurd ⟨result, rfl⟩ hdone
          | _ => rfl
        rw [hgo, hstep]
        exact ⟨_, rfl⟩
  | write call pc =>
    -- what is left of the call is a part of one that is defined
    right
    obtain ⟨⟨t₀, r, t', ht₀, hfin, -⟩, -⟩ := hJ
    cases hfin with
    | done => exact ⟨_, rfl⟩
    | @step _ pc' _ t₁ _ _ hstep =>
      have hgo : threadStep P l i .next s (.write call pc) =
          s.enabledFails.bind fun t => (writeStep P call pc t).bind fun r =>
            some (.internal, { s with enabledFails := some r.2 }, .write call r.1) := by
        cases pc with
        | done r => cases hstep
        | _ => rfl
      rw [hgo, ht₀, Option.bind_some, hstep]
      exact ⟨_, rfl⟩
  | _ => exact Or.inr ⟨_, rfl⟩

/-- **No interleaving is undefined**: after every run of calls with names (`hnames`) each thread can
    go on, or it waits. It waits for a lock that another thread has, for its program to make a call,
    or for its callback to return (`Thread.waits`); all other steps of the library are defined where
    they are reached. -/
theorem threads_go_on (P : Platform) (l : Linker) (world : W) (garbage : ℕ) (seed : UInt32)
    (steps : List (ℕ × Choice W))
    (hnames : ∀ step ∈ steps, ∀ call, step.2 = .call call → call.name.bytes ≠ [])
    {os : List (ℕ × Event)} {c : Config ℕ (Shared W) (Thread W)}
    (hrun : threadsRun P l (threadsStart world garbage seed) steps = some (os, c)) (i : ℕ) :
    (c.locals i).waits c.shared ∨ ∃ r, threadStep P l i .next c.shared (c.locals i) = some r := by
  obtain ⟨hI, hJ⟩ := threads_invariant.run steps [] (tableHolds_start world garbage seed)
    (fun j => ⟨holdsLock_start world garbage seed j, trivial⟩) (namesCalls_of_forall hnames) hrun
  exact thread_goes_on hI (hJ i).1 (hJ i).2

/-- Thread 0 is writing the table, and thread 1 is about to ask for its lock. -/
theorem threads_go_on_lookup :
    ∃ os c, threadsRun Platform.ieee noSymbols (threadsStart () 0 0) lookupBefore = some (os, c) ∧
      ∀ i, (c.locals i).waits c.shared ∨
        ∃ r, threadStep Platform.ieee noSymbols i .next c.shared (c.locals i) = some r := by
  have hdefined : (threadsRun Platform.ieee noSymbols (threadsStart () 0 0) lookupBefore).isSome := by
    decide +kernel
  obtain ⟨⟨os, c⟩, hrun⟩ := Option.isSome_iff_exists.mp hdefined
  have hnames : ∀ step ∈ lookupBefore, ∀ call, step.2 = .call call → call.name.bytes ≠ [] := by
    simp [lookupBefore, FiuCall.name, keyJ]
  exact ⟨os, c, hrun, threads_go_on Platform.ieee noSymbols () 0 0 lookupBefore hnames hrun⟩

end Libfiu
