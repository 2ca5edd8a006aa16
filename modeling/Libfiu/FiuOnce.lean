/-
  A point that is to fail once fails once, with any number of threads.

  Between the test of `failed_once` and its writing a thread decides, by a random number, by its
  stack or by a callback that takes its time, and all that keeps the others out is `pf->lock`,
  which it leaves locked until it has decided.

  The assertion of a thread on the point `p` (`PointPc.Once`) says, for each place where it may be,
  whether it holds the lock, and what `failed_once` and the number of failures so far are while it
  does.  When nobody holds the lock, `failed_once` IS that number.  So each step of a thread only
  needs what it asserts itself (`PointMoves.once`), and as long as it is not its turn no other
  thread can change what it asserts (`PointMoves.once_other`).

  A point is a new one each time it is enabled, so its failures are those from when it was enabled.

  The method of the point does not occur in the argument. All of them are between the test of
  `failed_once` and its writing, and the lock is held over both; a callback is the only one that
  could break it, by clearing `FIU_ONETIME` in the flags that are tested again (`LeavesOnetime`).
-/
import Libfiu.FiuThreadsSpec

namespace Libfiu

open Threads

variable {W : Type} {P : Platform} {l : Linker}

/-- How many calls went to `exit_fail` on the point `p`. -/
def exitsOf (p : ℕ) (h : List (ℕ × Event)) : ℕ := h.countP fun e => e.2 = .exitFail p

/-- What this event adds to it. -/
def Event.exits (p : ℕ) (e : Event) : ℕ := if e = .exitFail p then 1 else 0

/-- Two parts of a history. -/
theorem exitsOf_append (p : ℕ) (h : List (ℕ × Event)) (i : ℕ) (e : Event) :
    exitsOf p (h ++ [(i, e)]) = exitsOf p h + e.exits p := by
  rw [exitsOf, List.countP_append, Event.exits]
  by_cases he : e = .exitFail p <;> simp [exitsOf, he]

/-- While a callback of the point `p` runs, it leaves `FIU_ONETIME` in its flags as it is. -/
def LeavesOnetime (p : ℕ) (_ : ℕ) (a : Choice W) (s : Shared W) (th : Thread W) : Prop :=
  ∀ caller name value pf, th = .point caller name p .callback → a = .store (.flags value) →
    s.pfs[p]? = some pf → { pf with flags := value }.onetime = pf.onetime

/-! ## Steps on the point

What is asserted at each place: the thread has the lock from `lock` on, it saw `failed_once` not set
behind the test, and it has written it before it goes to `exit_fail`.

A number of failures that is 1 while `failed_once` is not set yet is what the thread with the lock
knows, and it alone. -/

/-- What thread `i` asserts of a point that it is at, and of the number of its failures. -/
def PointPc.Once (i : ℕ) (pf : PfInfo W) (exits : ℕ) : PointPc → Prop
  | .testFlags | .lock | .done _ => pf.lock ≠ some i
  | .testFailedOnce => pf.lock = some i ∧ exits = pf.failedOnce.toNat
  | .unlockSpent | .unlockFail _ => pf.lock = some i ∧ pf.failedOnce = true ∧ exits = 1
  | .exitFail | .readFailnum | .testFlagsFail _ | .setFailedOnce _ =>
    pf.lock = some i ∧ pf.failedOnce = false ∧ exits = 1
  | .decide | .randdStore _ _ | .randdLoad _ | .callback | .testFlagsPass | .unlockPass =>
    pf.lock = some i ∧ pf.failedOnce = false ∧ exits = 0

/-- On the way to the decision the assertion is one and the same. -/
theorem PointPc.once_deciding {i : ℕ} {pf : PfInfo W} {exits : ℕ} {pc : PointPc}
    (h : pc.deciding = true) :
    pc.Once i pf exits ↔ pf.lock = some i ∧ pf.failedOnce = false ∧ exits = 0 := by
  cases pc with
  | decide | randdStore | randdLoad | callback => exact Iff.rfl
  | _ => cases h

/-- A thread that does not hold the lock asserts that, and nothing else. -/
theorem PointPc.once_of_lock_ne {j : ℕ} {pf pf' : PfInfo W} {exits exits' : ℕ} {pc : PointPc}
    (h : pc.Once j pf exits) (hne : pf.lock ≠ some j) (hne' : pf'.lock ≠ some j) :
    pc.Once j pf' exits' := by
  cases pc with
  | testFlags | lock | done => exact hne'
  | _ => exact absurd h.1 hne

/-- At most one failure, if all that is asserted holds. -/
theorem PointPc.exits_le {i : ℕ} {pf : PfInfo W} {exits : ℕ} {pc : PointPc}
    (h : pc.Once i pf exits) (hlock : pf.lock = some i) : exits ≤ 1 := by
  cases pc with
  | testFlags | lock | done => exact absurd hlock h
  | testFailedOnce =>
    rw [h.2]
    exact Bool.toNat_le _
  | _ =>
    have := h.2.2
    omega

/-- A callback cannot reach the lock through its pointers. -/
theorem PfInfo.stored_lock (pf : PfInfo W) (x : CallbackStore W) :
    (pf.stored x).lock = pf.lock ∧ (pf.stored x).failedOnce = pf.failedOnce := by
  cases x <;> exact ⟨rfl, rfl⟩

namespace PointMoves

variable {i j id : ℕ} {pf pf' : PfInfo W} {pc pc' pcj : PointPc} {a : Choice W} {e : Event}
  {exits : ℕ}

/-- The lock is left as it is, taken, or given back. -/
theorem lock_cases (h : PointMoves i id pf pc a e pf' pc') :
    pf'.lock = pf.lock ∨ pf'.lock = some i ∨ pf'.lock = none := by
  cases h with
  | lock hfree => exact Or.inr (Or.inl rfl)
  | unlockSpent | unlockPass | unlockFail => exact Or.inr (Or.inr rfl)
  | stores x => exact Or.inl (pf.stored_lock x).1
  | _ => exact Or.inl rfl

/-- The failures of another point are not counted. -/
theorem exits_eq (h : PointMoves i id pf pc a e pf' pc') {p : ℕ} (hne : id ≠ p) : e.exits p = 0 := by
  cases h with
  | fails hd => exact if_neg fun he => hne (Event.exitFail.inj he)
  | _ => rfl

/-- `FIU_ONETIME` stays as it is, if the callback leaves it. -/
theorem onetime_eq (h : PointMoves i id pf pc a e pf' pc')
    (hleaves : ∀ value, pc = .callback → a = .store (.flags value) →
      { pf with flags := value }.onetime = pf.onetime) : pf'.onetime = pf.onetime := by
  cases h with
  | stores x =>
    cases x with
    | flags value => exact hleaves value rfl rfl
    | _ => rfl
  | _ => rfl

/-- **A step keeps what its thread asserts**, and that a free lock means that `failed_once` is the
    number of failures. -/
theorem once (h : PointMoves i id pf pc a e pf' pc') (hone : pf.onetime = true)
    (hfree : pf.lock = none → exits = pf.failedOnce.toNat) (hpc : pc.Once i pf exits) :
    (pf'.lock = none → exits + e.exits id = pf'.failedOnce.toNat) ∧
      pc'.Once i pf' (exits + e.exits id) := by
  have hheld : pf.lock = some i → pf.lock = none → False := fun h h' => by
    rw [h] at h'
    cases h'
  have hinternal : exits + Event.internal.exits id = exits := rfl
  cases h with
  | testFlags =>
    rw [hinternal, if_pos hone]
    exact ⟨hfree, hpc⟩
  | lock hnone =>
    rw [hinternal]
    exact ⟨fun hnone' => (by cases hnone'), rfl, hfree hnone⟩
  | testFailedOnce =>
    obtain ⟨hlock, hexits⟩ := hpc
    rw [hinternal]
    refine ⟨fun hnone => (hheld hlock hnone).elim, ?_⟩
    -- the one place where two threads could both go on
    cases hf : pf.failedOnce with
    | true => exact ⟨hlock, hf, by rw [hexits, hf]; rfl⟩
    | false => exact ⟨hlock, hf, by rw [hexits, hf]; rfl⟩
  | unlockSpent =>
    obtain ⟨-, hf, hexits⟩ := hpc
    rw [hinternal]
    refine ⟨fun _ => ?_, fun hlock => (by cases hlock)⟩
    show exits = pf.failedOnce.toNat
    rw [hexits, hf]
    rfl
  | decides hd hd' =>
    rw [PointPc.once_deciding hd] at hpc
    rw [hinternal, PointPc.once_deciding hd']
    exact ⟨fun hnone => (hheld hpc.1 hnone).elim, hpc⟩
  | stores x =>
    obtain ⟨hlock, hf, hexits⟩ := hpc
    obtain ⟨hl, ho⟩ := pf.stored_lock x
    rw [hinternal]
    exact ⟨fun hnone => (hheld hlock (hl ▸ hnone)).elim, hl.trans hlock, ho.trans hf, hexits⟩
  | fails hd =>
    obtain ⟨hlock, hf, hexits⟩ := (PointPc.once_deciding hd).mp hpc
    have hcount : exits + (Event.exitFail id).exits id = 1 := by
      rw [hexits, Event.exits, if_pos rfl]
    rw [hcount]
    exact ⟨fun hnone => (hheld hlock hnone).elim, hlock, hf, rfl⟩
  | passes hd =>
    obtain ⟨hlock, hf, hexits⟩ := (PointPc.once_deciding hd).mp hpc
    rw [hinternal]
    exact ⟨fun hnone => (hheld hlock hnone).elim, hlock, hf, hexits⟩
  | testFlagsPass =>
    rw [hinternal, if_pos hone]
    exact ⟨fun hnone => (hheld hpc.1 hnone).elim, hpc⟩
  | unlockPass =>
    obtain ⟨-, hf, hexits⟩ := hpc
    rw [hinternal]
    refine ⟨fun _ => ?_, fun hlock => (by cases hlock)⟩
    show exits = pf.failedOnce.toNat
    rw [hexits, hf]
    rfl
  | exitFail | readFailnum =>
    rw [hinternal]
    exact ⟨fun hnone => (hheld hpc.1 hnone).elim, hpc⟩
  | testFlagsFail failnum =>
    rw [hinternal, if_pos hone]
    exact ⟨fun hnone => (hheld hpc.1 hnone).elim, hpc⟩
  | setFailedOnce failnum =>
    rw [hinternal]
    exact ⟨fun hnone => (hheld hpc.1 hnone).elim, hpc.1, rfl, hpc.2.2⟩
  | unlockFail failnum =>
    obtain ⟨-, hf, hexits⟩ := hpc
    rw [hinternal]
    refine ⟨fun _ => ?_, fun hlock => (by cases hlock)⟩
    show exits = pf.failedOnce.toNat
    rw [hexits, hf]
    rfl

/-- A thread that has not got the lock changes nothing, but that it may take it. -/
theorem eq_of_lock_ne (h : PointMoves i id pf pc a e pf' pc') (hpc : pc.Once i pf exits)
    (hne : pf.lock ≠ some i) :
    e = .internal ∧ (pf' = pf ∨ pf.lock = none) := by
  cases h with
  | testFlags => exact ⟨rfl, Or.inl rfl⟩
  | lock hfree => exact ⟨rfl, Or.inr hfree⟩
  | decides hd => exact absurd ((PointPc.once_deciding hd).mp hpc).1 hne
  | fails hd => exact absurd ((PointPc.once_deciding hd).mp hpc).1 hne
  | passes hd => exact absurd ((PointPc.once_deciding hd).mp hpc).1 hne
  | _ => exact absurd hpc.1 hne

/-- **A step does not break what another thread asserts** at the same point. -/
theorem once_other (h : PointMoves i id pf pc a e pf' pc') (hpc : pc.Once i pf exits) (hne : i ≠ j)
    (hj : pcj.Once j pf exits) :
    pcj.Once j pf' (exits + e.exits id) := by
  by_cases hlock : pf.lock = some j
  · -- thread `j` has the lock: thread `i` can do nothing
    have hi : pf.lock ≠ some i := by
      rw [hlock]
      exact fun he => hne (Option.some.inj he).symm
    obtain ⟨rfl, rfl | hnone⟩ := h.eq_of_lock_ne hpc hi
    · exact hj
    · rw [hnone] at hlock
      cases hlock
  · -- thread `i` does not take it for thread `j`
    refine PointPc.once_of_lock_ne hj hlock ?_
    rcases h.lock_cases with hl | hl | hl
    · rwa [hl]
    · rw [hl]
      exact fun he => hne (Option.some.inj he)
    · rw [hl]
      exact fun he => by cases he

end PointMoves

/-! ## The assertions

Those of the single threads are about one point each; these are about the shared state and all
threads. A writer has to be among them, for the point may still be on its way into the table. -/

/-- Where the thread is on the point `p`; elsewhere it is as if it was still to begin. -/
def Thread.pcAt (p : ℕ) : Thread W → PointPc
  | .point _ _ id pc => if id = p then pc else .testFlags
  | _ => .testFlags

/-- The point `p`: when its lock is free, `failed_once` is the number of its failures; there are
    none before it is created. -/
structure PointHolds (p : ℕ) (h : List (ℕ × Event)) (s : Shared W) : Prop where
  free : ∀ pf, s.pfs[p]? = some pf → pf.onetime = true → pf.lock = none →
    exitsOf p h = pf.failedOnce.toNat
  unborn : s.pfs[p]? = none → exitsOf p h = 0

/-- Thread `i`: what it asserts of the point `p`, once that is there; and a point that it is about to
    insert is a new one. -/
structure ThreadHolds (p i : ℕ) (h : List (ℕ × Event)) (s : Shared W) (th : Thread W) : Prop where
  lock : HoldsLock i s th
  once : ∀ pf, s.pfs[p]? = some pf → pf.onetime = true → (th.pcAt p).Once i pf (exitsOf p h)
  unborn : s.pfs[p]? = none → th.pcAt p = .testFlags
  fresh : ∀ pf, th = .wlock (.insert pf) → pf.lock = none ∧ pf.failedOnce = false

/-- What a step is to the point `p`: nothing, its creation, or a step on it. -/
theorem Moves.at_point {i : ℕ} {a : Choice W} {s s' : Shared W} {th th' : Thread W} {e : Event}
    (hm : Moves P l i s a th e s' th') (p : ℕ) :
    (s'.pfs[p]? = s.pfs[p]? ∧ e.exits p = 0 ∧
      (th'.pcAt p = th.pcAt p ∨ ∃ r, th.pcAt p = .done r ∧ th'.pcAt p = .testFlags)) ∨
    (∃ pf, th = .wlock (.insert pf) ∧ s.pfs[p]? = none ∧ s'.pfs[p]? = some pf ∧ e.exits p = 0 ∧
      th'.pcAt p = .testFlags) ∨
    (∃ caller name pf pf', th = .point caller name p (th.pcAt p) ∧ s.pfs[p]? = some pf ∧
      s'.pfs[p]? = some pf' ∧ PointMoves i p pf (th.pcAt p) a e pf' (th'.pcAt p)) := by
  cases hm with
  | enter call =>
    -- whatever is called, the thread is on no point yet
    refine Or.inl ⟨rfl, rfl, Or.inl ?_⟩
    unfold FiuCall.enter
    split
    · split <;> rfl
    · rfl
    · split <;> rfl
  | @testTable caller name =>
    refine Or.inl ⟨rfl, rfl, Or.inl ?_⟩
    cases s.enabledFails.isNone <;> rfl
  | @found caller name id =>
    refine Or.inl ⟨rfl, rfl, Or.inl ?_⟩
    show (if id = p then PointPc.testFlags else .testFlags) = .testFlags
    split <;> rfl
  | @point caller name id a pc pc' pf pf' e s₁ hpf hmove htable hpfs =>
    have hget := Fiu.deref_eq_some hpf
    by_cases hid : id = p
    · subst hid
      have hpc : ∀ pc, (Thread.point caller name id pc : Thread W).pcAt id = pc := fun pc => if_pos rfl
      refine Or.inr (Or.inr ⟨caller, name, pf, pf', by rw [hpc], hget, ?_, by rw [hpc, hpc]; exact hmove⟩)
      show s₁.pfs[id]? = some pf'
      rw [hpfs]
      exact List.getElem?_set_self (List.getElem?_eq_some_iff.mp hget).1
    · refine Or.inl ⟨?_, hmove.exits_eq hid, Or.inl ?_⟩
      · show s₁.pfs[p]? = s.pfs[p]?
        rw [hpfs, List.getElem?_set_ne hid]
      · show (if id = p then pc' else .testFlags) = if id = p then pc else .testFlags
        rw [if_neg hid, if_neg hid]
  | @pointDone caller name id result =>
    -- the thread leaves its point, which may be this one
    refine Or.inl ⟨rfl, rfl, ?_⟩
    by_cases hid : id = p
    · exact Or.inr ⟨result, if_pos hid, rfl⟩
    · exact Or.inl (if_neg hid).symm
  | @wrlock op k hk =>
    -- a new point gets the next number, and this may be `p`
    cases op with
    | insert pf =>
      have hpfs : ∀ n, (s.pfs ++ [pf])[n]? = if n < s.pfs.length then s.pfs[n]?
          else if n = s.pfs.length then some pf else none := by
        intro n
        rw [List.getElem?_append]
        split
        · rfl
        · rename_i hn
          by_cases hn' : n = s.pfs.length
          · simp [hn']
          · rw [if_neg hn', List.getElem?_eq_none_iff, List.length_singleton]
            omega
      rcases Nat.lt_trichotomy p s.pfs.length with hlt | rfl | hgt
      · refine Or.inl ⟨?_, rfl, Or.inl rfl⟩
        show (s.pfs ++ [pf])[p]? = s.pfs[p]?
        rw [hpfs, if_pos hlt]
      · refine Or.inr (Or.inl ⟨pf, rfl, List.getElem?_eq_none_iff.mpr (le_refl _), ?_, rfl, rfl⟩)
        show (s.pfs ++ [pf])[s.pfs.length]? = some pf
        rw [hpfs, if_neg (Nat.lt_irrefl _), if_pos rfl]
      · refine Or.inl ⟨?_, rfl, Or.inl rfl⟩
        show (s.pfs ++ [pf])[p]? = s.pfs[p]?
        rw [hpfs, if_neg (by omega), if_neg (by omega), List.getElem?_eq_none_iff.mpr (by omega)]
    | disable name => exact Or.inl ⟨rfl, rfl, Or.inl rfl⟩
  | _ => exact Or.inl ⟨rfl, rfl, Or.inl rfl⟩

section steps

variable {p i j : ℕ} {h : List (ℕ × Event)} {a : Choice W} {s s' : Shared W}
  {th th' thj : Thread W} {e : Event}

/-- A step on the point leaves `FIU_ONETIME` as it is. -/
theorem onetime_of_moves {caller : Caller} {name : CString} {pf pf' : PfInfo W} {pc pc' : PointPc}
    (hQ : LeavesOnetime p i a s (.point caller name p pc)) (hpf : s.pfs[p]? = some pf)
    (hmove : PointMoves i p pf pc a e pf' pc') : pf'.onetime = pf.onetime :=
  hmove.onetime_eq fun value hpc ha => hQ caller name value pf (by rw [hpc]) ha hpf

/-- The point keeps what holds of it. -/
theorem pointHolds_move (hI : PointHolds p h s) (hJ : ThreadHolds p i h s th)
    (hQ : LeavesOnetime p i a s th) (hm : Moves P l i s a th e s' th') :
    PointHolds p (h ++ [(i, e)]) s' := by
  rcases hm.at_point p with ⟨hsame, he, -⟩ | ⟨pf, rfl, hnone, hnew, he, -⟩ |
    ⟨caller, name, pf, pf', hth, hpf, hpf', hmove⟩
  · constructor <;> rw [hsame, exitsOf_append, he]
    · exact hI.free
    · exact hI.unborn
  · constructor
    · intro pf' hpf' _ _
      rw [hnew] at hpf'
      cases hpf'
      rw [exitsOf_append, he, hI.unborn hnone, (hJ.fresh pf rfl).2]
      rfl
    · intro h'
      rw [hnew] at h'
      cases h'
  · constructor
    · intro q hq hone hlock
      rw [hpf'] at hq
      cases hq
      rw [hth] at hQ
      rw [onetime_of_moves hQ hpf hmove] at hone
      rw [exitsOf_append]
      exact (hmove.once hone (hI.free pf hpf hone) (hJ.once pf hpf hone)).1 hlock
    · intro h'
      rw [hpf'] at h'
      cases h'

/-- A thread keeps what it asserts with each of its steps. -/
theorem threadHolds_move (hI : PointHolds p h s) (hJ : ThreadHolds p i h s th)
    (hQ : LeavesOnetime p i a s th) (hm : Moves P l i s a th e s' th') :
    ThreadHolds p i (h ++ [(i, e)]) s' th' := by
  refine ⟨hJ.lock.move hm, fun q hq hone => ?_, fun hnone => ?_, fun q hq => ?_⟩
  · rw [exitsOf_append]
    rcases hm.at_point p with ⟨hsame, he, hpc⟩ | ⟨pf, rfl, hnone, hnew, he, hpc⟩ |
      ⟨caller, name, pf, pf', hth, hpf, hpf', hmove⟩
    · rw [hsame] at hq
      have honce := hJ.once q hq hone
      rw [he]
      rcases hpc with hpc | ⟨r, hdone, hpc⟩
      · rw [hpc]
        exact honce
      · rw [hdone] at honce
        rw [hpc]
        exact honce
    · rw [hnew] at hq
      cases hq
      rw [hpc]
      show q.lock ≠ some i
      rw [(hJ.fresh q rfl).1]
      exact fun h' => by cases h'
    · rw [hpf'] at hq
      cases hq
      rw [hth] at hQ
      rw [onetime_of_moves hQ hpf hmove] at hone
      exact (hmove.once hone (hI.free pf hpf hone) (hJ.once pf hpf hone)).2
  · rcases hm.at_point p with ⟨hsame, -, hpc⟩ | ⟨pf, -, -, hnew, -⟩ | ⟨_, _, pf, pf', -, -, hpf', -⟩
    · rw [hsame] at hnone
      have hbegin := hJ.unborn hnone
      rcases hpc with hpc | ⟨r, hdone, hpc⟩
      · rw [hpc, hbegin]
      · exact hpc
    · rw [hnew] at hnone
      cases hnone
    · rw [hpf'] at hnone
      cases hnone
  · exact hm.fresh hq

/-- No step of thread `i` breaks what thread `j` asserts. -/
theorem threadHolds_other (hne : i ≠ j) (hi : ThreadHolds p i h s th) (hj : ThreadHolds p j h s thj)
    (hQ : LeavesOnetime p i a s th) (hm : Moves P l i s a th e s' th') :
    ThreadHolds p j (h ++ [(i, e)]) s' thj := by
  refine ⟨hj.lock.of_same (hm.lock_same hne), fun q hq hone => ?_, fun hnone => ?_, hj.fresh⟩
  · rw [exitsOf_append]
    rcases hm.at_point p with ⟨hsame, he, -⟩ | ⟨pf, rfl, hnone, hnew, he, -⟩ |
      ⟨caller, name, pf, pf', hth, hpf, hpf', hmove⟩
    · rw [hsame] at hq
      rw [he]
      exact hj.once q hq hone
    · rw [hnew] at hq
      cases hq
      rw [hj.unborn hnone]
      show q.lock ≠ some j
      rw [(hi.fresh q rfl).1]
      exact fun h' => by cases h'
    · rw [hpf'] at hq
      cases hq
      rw [hth] at hQ
      rw [onetime_of_moves hQ hpf hmove] at hone
      exact hmove.once_other (hi.once pf hpf hone) hne (hj.once pf hpf hone)
  · apply hj.unborn
    rw [List.getElem?_eq_none_iff] at hnone ⊢
    exact le_trans hm.pfs_length_le hnone

end steps

/-- **No step breaks an assertion.** -/
theorem once_invariant (p : ℕ) : Invariant (threadStep (W := W) P l) (LeavesOnetime p) (PointHolds p)
    (ThreadHolds p) where
  own := by
    intro h i a s s' th th' e hI hJ hQ hstep
    have hm := threadStep_moves hstep
    exact ⟨pointHolds_move hI hJ hQ hm, threadHolds_move hI hJ hQ hm⟩
  other := by
    intro h i j a s s' th th' thj e hne _ hi hj hQ hstep
    exact threadHolds_other hne hi hj hQ (threadStep_moves hstep)

/-! ## Runs

The number of failures is read off the assertion at the end of the run, when the lock is free or the
thread that has it says how many there were. -/

/-- There are no points at first. -/
theorem pointHolds_start (p : ℕ) (world : W) (garbage : ℕ) (seed : UInt32) :
    PointHolds p [] (threadsStart world garbage seed).shared where
  free := fun _ h => by cases h
  unborn := fun _ => rfl

/-- And no thread is on one. -/
theorem threadHolds_start (p : ℕ) (world : W) (garbage : ℕ) (seed : UInt32) (i : ℕ) :
    ThreadHolds p i [] (threadsStart world garbage seed).shared
      ((threadsStart world garbage seed).locals i) where
  lock := holdsLock_start world garbage seed i
  once := fun _ h => by cases h
  unborn := fun _ => rfl
  fresh := fun _ h => by cases h

/-- The thread is not in the library, or about to leave it. -/
def Thread.outside : Thread W → Prop
  | .idle | .ret _ => True
  | _ => False

/-- **A point that is to fail once fails at most once**, in any interleaving of any number of
    threads, whichever method it has.

    The point `p` is one that has `FIU_ONETIME` at the end of the run (`hone`), and while its
    callback ran it left this flag as it was (`hleaves`); so it had it all along. Then at most one
    call went to `exit_fail` on the point. And a thread whose call has returned holds neither the
    lock of the point nor, for reading or for writing, that of the table, on whichever way it
    returned. -/
theorem fiu_onetime_once (P : Platform) (l : Linker) (world : W) (garbage : ℕ) (seed : UInt32)
    (steps : List (ℕ × Choice W)) {os : List (ℕ × Event)} {c : Config ℕ (Shared W) (Thread W)}
    (hrun : threadsRun P l (threadsStart world garbage seed) steps = some (os, c)) (p : ℕ)
    (hleaves : Guarded (threadStep P l) (LeavesOnetime p) (threadsStart world garbage seed) steps)
    {pf : PfInfo W} (hpf : c.shared.pfs[p]? = some pf) (hone : pf.onetime = true) :
    exitsOf p os ≤ 1 ∧ ∀ i, (c.locals i).outside → pf.lock ≠ some i ∧
      i ∉ c.shared.enabledFailsLock.readers ∧ c.shared.enabledFailsLock.writer ≠ some i := by
  obtain ⟨hI, hJ⟩ := (once_invariant p).run steps [] (pointHolds_start p world garbage seed)
    (threadHolds_start p world garbage seed) hleaves hrun
  rw [List.nil_append] at hI hJ
  refine ⟨?_, fun i hout => ?_⟩
  · cases hlock : pf.lock with
    | none =>
      rw [hI.free pf hpf hone hlock]
      exact Bool.toNat_le _
    | some j => exact PointPc.exits_le ((hJ j).once pf hpf hone) hlock
  · have honce := (hJ i).once pf hpf hone
    have hheld := (hJ i).lock
    cases hth : c.locals i with
    | idle | ret =>
      rw [hth] at honce hheld
      exact ⟨honce, mt hheld.reader.mp Bool.false_ne_true, mt hheld.writer.mp Bool.false_ne_true⟩
    | _ =>
      rw [hth] at hout
      exact hout.elim

/-- Thread 0 enables `"j"`, to fail once.  Threads 1 and 2 both find it, and both find the flag; then
    one of them gets the lock. -/
def onceSteps : List (ℕ × Choice Unit) :=
  (0, .call (.enable keyJ 7 0 fiuOnetime)) :: List.replicate 4 (0, .next) ++
    [(1, .call (.fail ⟨1, 0, []⟩ keyJ)), (2, .call (.fail ⟨2, 0, []⟩ keyJ))] ++
    (List.replicate 6 [(1, .next), (2, .next)]).flatten ++ List.replicate 11 (1, .next) ++
    List.replicate 6 (2, .next)

theorem fiu_onetime_once_two :
    ∃ os c pf, threadsRun Platform.ieee noSymbols (threadsStart () 0 0) onceSteps = some (os, c) ∧
      c.shared.pfs[0]? = some pf ∧ exitsOf 0 os ≤ 1 ∧
      ∀ i, (c.locals i).outside → pf.lock ≠ some i ∧
        i ∉ c.shared.enabledFailsLock.readers ∧ c.shared.enabledFailsLock.writer ≠ some i := by
  have hall : ((threadsRun Platform.ieee noSymbols (threadsStart () 0 0) onceSteps).bind
      fun r => r.2.shared.pfs[0]?.map PfInfo.onetime) = some true := by
    decide +kernel
  obtain ⟨⟨os, c⟩, hrun, hpf⟩ := Option.bind_eq_some_iff.mp hall
  obtain ⟨pf, hpf, hone⟩ := Option.map_eq_some_iff.mp hpf
  -- no callback runs
  have hstores : ∀ step ∈ onceSteps, ∀ x, step.2 ≠ .store x := by simp [onceSteps]
  have hleaves : Guarded (threadStep Platform.ieee noSymbols) (LeavesOnetime 0)
      (threadsStart () 0 0) onceSteps :=
    guarded_of_forall _ fun step hstep _ _ _ _ _ _ _ hstore => absurd hstore (hstores step hstep _)
  exact ⟨os, c, pf, hrun, hpf, fiu_onetime_once Platform.ieee noSymbols () 0 0 onceSteps hrun 0
    hleaves hpf hone⟩

end Libfiu
