/-
  A call fails only on a point that is enabled, and a point that was removed is not touched again.

  A thread that found a point decides later, maybe much later, whether it fails: a callback may run
  in between, and other threads want to disable the point meanwhile.  They wait, because the thread
  has the lock of the table until its call is over.  In the history that says:

  1. **At the moment of the failure** (`exit_fail_enabled`) — every call that goes to `exit_fail` does so
     on a point that is enabled by the writings before it;

  2. **From the removal on** (`removed_point_never_fails`) — once a writing took a point out of the table,
     by `fiu_disable` or by enabling its name again, no call fails on it, and no thread is on it.

  The second one needs that a point never comes back: the ledger of the writings drops it for good.

  Both results are read off the same assertion: a thread is on a point only while it holds the lock
  of the table for reading, and the point is then one that the ledger of the history has under some
  key. Writers come in between two such sections, never into one; so the history up to a failure and
  the table at the failure speak of the same points.
-/
import Libfiu.FiuLinear

namespace Libfiu

open Threads

variable {W : Type} {P : Platform} {l : Linker}

/-- What was dropped stays dropped. -/
theorem Ledger.mem_dropped_foldl {V : Type} {v : V} : ∀ (calls : List (Call V)) {L : Ledger V},
    v ∈ L.dropped → v ∈ (calls.foldl Ledger.next L).dropped
  | [], _, h => h
  | _ :: calls, _, h => Ledger.mem_dropped_foldl calls (List.mem_append_left _ h)

/-- Two parts of a history. -/
theorem writesOf_append (h h' : List (ℕ × Event)) : writesOf (h ++ h') = writesOf h ++ writesOf h' :=
  List.filterMap_append

/-- The ledger goes on where it was. -/
theorem ledgerOf_append (h h' : List (ℕ × Event)) :
    ledgerOf (h ++ h') = (writesOf h').foldl Ledger.next (ledgerOf h) := by
  rw [ledgerOf, writesOf_append, List.foldl_append, ← ledgerOf]

/-- The ledger of a part of a history is balanced, if no point was put into the table twice. -/
theorem balanced_ledgerOf {h h' : List (ℕ × Event)} (hd : (givenValues (writesOf (h ++ h'))).Nodup) :
    (ledgerOf h).Balanced (givenValues (writesOf h)) := by
  rw [writesOf_append, givenValues_append] at hd
  exact Ledger.balanced_foldl (writesOf h) Ledger.balanced_empty (List.nodup_append.mp hd).1

/-! ## Points that threads are on

A thread is on a point only under the lock for reading, and then it is one that the table has. -/

/-- A point that a thread is on is enabled. -/
theorem point_enabled {i : ℕ} {h : List (ℕ × Event)} {s : Shared W} {caller : Caller} {name : CString}
    {id : ℕ} {pc : PointPc} (hI : TableHolds P h s) (hlock : HoldsLock i s (.point caller name id pc))
    (hJ : (Thread.point caller name id pc : Thread W).Asserts P h s) :
    ∃ key, enabledAfter h key = some id := by
  obtain ⟨t, ht, hget⟩ := hJ
  obtain ⟨t₀, ht₀, hfol⟩ := hI.table
  rw [ht] at ht₀
  cases ht₀
  rw [← ledgerOf_map]
  exact lookup_held (hfol (hlock.no_writer rfl)).holds.uncached hget

/-- A failure is one of a thread that is on the point. -/
theorem Moves.at_exitFail {i id : ℕ} {a : Choice W} {s s' : Shared W} {th th' : Thread W}
    (hm : Moves P l i s a th (.exitFail id) s' th') : ∃ caller name pc, th = .point caller name id pc := by
  cases hm with
  | point hpf hmove htable hpfs =>
    cases hmove with
    | fails hpc => exact ⟨_, _, _, rfl⟩

/-! ## Failures in the history

The failures are part of the history, each behind the writings that came before it, so an invariant
can speak of what the table held at that moment. -/

/-- Each failure of the history is on a point that was enabled by the writings before it. -/
def FailsEnabled (h : List (ℕ × Event)) : Prop :=
  ∀ h₁ i id h₂, h = h₁ ++ (i, .exitFail id) :: h₂ → ∃ key, enabledAfter h₁ key = some id

/-- A step adds one event at most. -/
theorem failsEnabled_append {h : List (ℕ × Event)} (hF : FailsEnabled h) {i : ℕ} {e : Event}
    (he : ∀ id, e = .exitFail id → ∃ key, enabledAfter h key = some id) :
    FailsEnabled (h ++ [(i, e)]) := by
  intro h₁ j id h₂ hsplit
  rcases List.eq_nil_or_concat h₂ with rfl | ⟨h₃, x, rfl⟩
  · -- the last one
    obtain ⟨rfl, hlast⟩ := List.append_inj' hsplit rfl
    cases hlast
    exact he id rfl
  · rw [List.concat_eq_append, ← List.cons_append, ← List.append_assoc] at hsplit
    exact hF h₁ j id h₃ (List.append_inj' hsplit rfl).1

/-- No step breaks it. -/
theorem failsEnabled_invariant : Invariant (threadStep (W := W) P l) NamesCalls
    (fun h s => TableHolds P h s ∧ FailsEnabled h)
    (fun i h s th => HoldsLock i s th ∧ th.Asserts P h s) where
  own := by
    rintro h i a s s' th th' e ⟨hI, hF⟩ hJ hname hstep
    obtain ⟨hI', hJ'⟩ := threads_invariant.own hI hJ hname hstep
    refine ⟨⟨hI', failsEnabled_append hF ?_⟩, hJ'⟩
    rintro id rfl
    obtain ⟨caller, name, pc, rfl⟩ := (threadStep_moves hstep).at_exitFail
    exact point_enabled hI hJ.1 hJ.2
  other := by
    rintro h i j a s s' th th' thj e hne ⟨hI, -⟩ hi hj hname hstep
    exact threads_invariant.other hne hI hi hj hname hstep

section runs

variable (P : Platform) (l : Linker) (world : W) (garbage : ℕ) (seed : UInt32)

/-- The invariant after a run from the start. -/
theorem failsEnabled_run {steps : List (ℕ × Choice W)}
    (hnames : ∀ step ∈ steps, ∀ call, step.2 = .call call → call.name.bytes ≠ [])
    {os : List (ℕ × Event)} {c : Config ℕ (Shared W) (Thread W)}
    (hrun : threadsRun P l (threadsStart world garbage seed) steps = some (os, c)) :
    (TableHolds P os c.shared ∧ FailsEnabled os) ∧
      ∀ i, HoldsLock i c.shared (c.locals i) ∧ (c.locals i).Asserts P os c.shared :=
  failsEnabled_invariant.run steps []
    ⟨tableHolds_start world garbage seed, fun h₁ i id h₂ h => by simp at h⟩
    (fun j => ⟨holdsLock_start world garbage seed j, trivial⟩) (namesCalls_of_forall hnames) hrun

/-- **A call fails only on a point that is enabled**: at every failure in every run, in any
    interleaving, the writings before it enabled the point under some name, and none of them removed
    it since. `os₁` is the history up to the failure, and `enabledAfter` replays its writings. -/
theorem exit_fail_enabled (steps : List (ℕ × Choice W))
    (hnames : ∀ step ∈ steps, ∀ call, step.2 = .call call → call.name.bytes ≠ [])
    {os₁ os₂ : List (ℕ × Event)} {i id : ℕ} {c : Config ℕ (Shared W) (Thread W)}
    (hrun : threadsRun P l (threadsStart world garbage seed) steps
      = some (os₁ ++ (i, .exitFail id) :: os₂, c)) :
    ∃ key, enabledAfter os₁ key = some id :=
  (failsEnabled_run P l world garbage seed hnames hrun).1.2 os₁ i id os₂ rfl

/-- Thread 0 enables `"j"`, thread 1 fails on it; then thread 0 disables it, and thread 1 looks again. -/
def removeSteps : List (ℕ × Choice Unit) :=
  (0, .call (.enable keyJ 7 0 0)) :: List.replicate 4 (0, .next) ++
    (1, .call (.fail ⟨1, 0, []⟩ keyJ)) :: List.replicate 13 (1, .next) ++
    (0, .call (.disable keyJ)) :: List.replicate 3 (0, .next) ++
    (1, .call (.fail ⟨1, 0, []⟩ keyJ)) :: List.replicate 4 (1, .next)

/-- The history of these steps before the failure. -/
def beforeFail : List (ℕ × Event) :=
  List.replicate 3 (0, .internal) ++ [(0, .wrote (.set keyJ 0)), (0, .returned 0)] ++
    List.replicate 7 (1, .internal)

/-- And from there until the point is removed. -/
def untilRemoved : List (ℕ × Event) :=
  List.replicate 5 (1, .internal) ++ [(1, .returned 7)] ++ List.replicate 3 (0, .internal)

theorem removeSteps_names : ∀ step ∈ removeSteps, ∀ call, step.2 = .call call → call.name.bytes ≠ [] := by
  simp [removeSteps, FiuCall.name, keyJ]

theorem removeSteps_history :
    (threadsRun Platform.ieee noSymbols (threadsStart () 0 0) removeSteps).map Prod.fst
      = some (beforeFail ++ (1, .exitFail 0) :: untilRemoved ++
          (0, .wrote (.del keyJ)) :: List.replicate 5 (1, .internal)) := by
  decide +kernel

theorem exit_fail_enabled_keyJ : ∃ key, enabledAfter beforeFail key = some 0 := by
  obtain ⟨⟨os, c⟩, hrun, rfl⟩ := Option.map_eq_some_iff.mp removeSteps_history
  rw [List.append_assoc] at hrun
  exact exit_fail_enabled Platform.ieee noSymbols () 0 0 removeSteps removeSteps_names hrun

/-- **A point that was removed is not touched again.** In the run thread `j` writes the table, and
    this takes the point `id` out of it (`hremoved`): it was disabled, or another one was enabled
    under its name. After that no call fails on it; and at the end of the run no thread is on it, so
    it could be freed. -/
theorem removed_point_never_fails (steps : List (ℕ × Choice W))
    (hnames : ∀ step ∈ steps, ∀ call, step.2 = .call call → call.name.bytes ≠ [])
    {os₁ os₂ : List (ℕ × Event)} {j id : ℕ} {call : Call ℕ} {c : Config ℕ (Shared W) (Thread W)}
    (hrun : threadsRun P l (threadsStart world garbage seed) steps
      = some (os₁ ++ (j, .wrote call) :: os₂, c))
    (hremoved : id ∈ displaced (enabledAfter os₁) call) :
    (∀ i, (i, Event.exitFail id) ∉ os₂) ∧
      ∀ i caller name pc, c.locals i ≠ .point caller name id pc := by
  obtain ⟨⟨hI, hF⟩, hJ⟩ := failsEnabled_run P l world garbage seed hnames hrun
  -- whatever was written since, the ledger has dropped the point
  have hgone : ∀ h h', os₂ = h ++ h' → ∀ key,
      enabledAfter (os₁ ++ (j, .wrote call) :: h) key ≠ some id := by
    rintro h h' rfl key hkey
    have hassoc : os₁ ++ (j, .wrote call) :: (h ++ h') = (os₁ ++ (j, .wrote call) :: h) ++ h' := by
      rw [List.append_assoc, List.cons_append]
    have hd := hI.distinct
    rw [hassoc] at hd
    have hdrop : id ∈ (ledgerOf (os₁ ++ (j, .wrote call) :: h)).dropped := by
      rw [List.append_cons, ledgerOf_append, ledgerOf_wrote]
      apply Ledger.mem_dropped_foldl
      apply List.mem_append_right
      rw [ledgerOf_map]
      exact hremoved
    rw [← ledgerOf_map] at hkey
    exact (balanced_ledgerOf hd).apart id hdrop key hkey
  constructor
  · intro i hmem
    obtain ⟨h, h', rfl⟩ := List.append_of_mem hmem
    have hsplit : os₁ ++ (j, .wrote call) :: (h ++ (i, .exitFail id) :: h')
        = (os₁ ++ (j, .wrote call) :: h) ++ (i, .exitFail id) :: h' := by
      rw [List.append_assoc, List.cons_append]
    obtain ⟨key, hkey⟩ := hF _ i id h' hsplit
    exact hgone h _ rfl key hkey
  · intro i caller name pc hth
    have hi := hJ i
    rw [hth] at hi
    obtain ⟨key, hkey⟩ := point_enabled hI hi.1 hi.2
    exact hgone os₂ [] (List.append_nil _).symm key hkey

theorem removed_point_never_fails_keyJ :
    ∃ os c, threadsRun Platform.ieee noSymbols (threadsStart () 0 0) removeSteps = some (os, c) ∧
      (∀ i, (i, Event.exitFail 0) ∉ List.replicate 5 (1, Event.internal)) ∧
      ∀ i caller name pc, c.locals i ≠ .point caller name 0 pc := by
  obtain ⟨⟨os, c⟩, hrun, rfl⟩ := Option.map_eq_some_iff.mp removeSteps_history
  exact ⟨_, c, hrun, removed_point_never_fails Platform.ieee noSymbols () 0 0 removeSteps
    removeSteps_names hrun (by decide)⟩

end runs

end Libfiu
