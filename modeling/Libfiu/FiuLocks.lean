/-
  The lock of a point that an external callback decides about.

  `fiu_fail` takes `pf->lock` when it finds `FIU_ONETIME` in `pf->flags`, and gives it back when it
  finds it there again, after the callback had its turn at the flags.  So a call leaves the lock as
  it was exactly when the callback leaves the bit as it was (`fail_balanced_iff`), and so do all
  calls of a sequence (`fiu_fail_locks_iff`).

  The contract of the callback lets it change the flags; `fiu_fail_lock_left` is a callback that
  clears them.

  Only external points are spoken of, because with any other method nothing can change the flags
  between the two tests. Nested calls take no lock at all, whatever their callback would do, so the
  condition leaves them out.
-/
import Libfiu.FiuSpec

namespace Libfiu

variable {W : Type} {P : Platform} {l : Linker}

/-- The call returned, and gave `pf->lock` back as often as it took it: once or not at all. -/
def FailReply.Balanced (r : FailReply) : Prop :=
  (r.ops = [] ∨ r.ops = [.lock, .unlock]) ∧ r.result ≠ none

instance (r : FailReply) : Decidable r.Balanced :=
  inferInstanceAs (Decidable ((r.ops = [] ∨ r.ops = [.lock, .unlock]) ∧ r.result ≠ none))

/-- The callback of the point, if a call of `fiu_fail` now comes to run it, leaves `FIU_ONETIME` as
    it is. -/
def PfInfo.KeepsOnetime (pf : PfInfo W) (world : W) : Prop :=
  match pf.method with
  | .external externalCb =>
    (pf.onetime = true → pf.failedOnce = false) →
      { pf with flags := (externalCb world pf.name pf.failnum pf.failinfo pf.flags).1.flags }.onetime
        = pf.onetime
  | _ => True

/-! ## One call

The bit is tested twice, before the decision and after it. The lock is taken by the first test and
given back by the second, so everything depends on whether a callback changes it in between.

A call that finds the point spent gives the lock back on a way of its own, before any callback runs.
-/

/-- After the decision: balanced when the bit is what it was when the lock was taken or not. -/
theorem PfInfo.finish_balanced_iff (taken : Bool) (decision : Bool × PfInfo W × UInt32 × W) :
    (PfInfo.finish taken decision).reply.Balanced ↔ decision.2.1.onetime = taken := by
  obtain ⟨fails, pf, xn, world⟩ := decision
  show (_ ∨ _) ∧ some _ ≠ none ↔ pf.onetime = taken
  rw [and_iff_left (Option.some_ne_none _)]
  -- the four pairs of readings
  show (if taken then [LockOp.lock] else []) ++ (if pf.onetime then [.unlock] else []) = [] ∨
    (if taken then [LockOp.lock] else []) ++ (if pf.onetime then [.unlock] else [])
      = [.lock, .unlock] ↔ pf.onetime = taken
  cases taken <;> cases pf.onetime <;> decide

/-- A call that finds the lock free. -/
theorem PfInfo.fail_balanced_iff (caller : Caller) (pf : PfInfo W) (xn : UInt32) (world : W)
    (hlock : pf.lock = none) :
    ((pf.fail P l caller xn world).reply.Balanced ↔ pf.KeepsOnetime world) ∧
    (pf.KeepsOnetime world → (pf.fail P l caller xn world).pf.lock = none) := by
  have hfree : ¬ (pf.onetime = true ∧ pf.lock.isSome = true) := by simp [hlock]
  unfold PfInfo.fail
  rw [if_neg hfree]
  by_cases hspent : pf.onetime = true ∧ pf.failedOnce = true
  · -- it failed before: the callback is not run
    rw [if_pos hspent]
    have hkeeps : pf.KeepsOnetime world := by
      unfold PfInfo.KeepsOnetime
      split
      · intro h
        have := h hspent.1
        rw [hspent.2] at this
        cases this
      · trivial
    exact ⟨iff_of_true ⟨Or.inr rfl, Option.some_ne_none _⟩ hkeeps, fun _ => hlock⟩
  · rw [if_neg hspent]
    have hruns : pf.onetime = true → pf.failedOnce = false := by
      intro h
      rw [← Bool.not_eq_true]
      exact fun h' => hspent ⟨h, h'⟩
    obtain ⟨-, hl, -, -, hflags⟩ := PfInfo.decide_spec (P := P) (l := l) caller
      (pf.locked caller) xn world
    have hkeeps : pf.KeepsOnetime world ↔
        ((pf.locked caller).decide P l caller xn world).2.1.onetime = pf.onetime := by
      rw [PfInfo.onetime, hflags]
      unfold PfInfo.KeepsOnetime
      show _ ↔ Decidable.decide ((match pf.method with
        | .external externalCb =>
          (externalCb world pf.name pf.failnum pf.failinfo pf.flags).1.flags
        | _ => pf.flags) &&& fiuOnetime ≠ 0) = pf.onetime
      cases pf.method with
      | external externalCb => exact ⟨fun h => h hruns, fun h _ => h⟩
      | _ => exact iff_of_true trivial rfl
    rw [hkeeps]
    refine ⟨PfInfo.finish_balanced_iff _ _, fun h => ?_⟩
    rw [PfInfo.finish_lock, h, hl, PfInfo.locked]
    cases pf.onetime
    · exact hlock
    · rfl

/-! ## Sequences of calls

As long as all calls leave the lock free, each next one finds it free; after a call that keeps it,
the next one on the same point never returns. -/

/-- One call of `fiu_fail`. -/
def failStep (P : Platform) (l : Linker) (s : Fiu W) (call : Caller × CString) :
    Option (FailReply × Fiu W) :=
  fiuFail P l s call.1 call.2

/-- The callback of the point at `i`, if this call runs it, leaves `FIU_ONETIME` as it is. -/
def CallbackKeeps (i : ℕ) (s : Fiu W) (call : Caller × CString) : Prop :=
  call.1.recCount = 0 → ∀ pf, s.pfs[i]? = some pf → pf.KeepsOnetime s.world

/-- The lookups of a state whose table was only looked up in. -/
theorem lookup_eq {s s' : Fiu W} {t t' : Wtable ℕ} (ht : s.enabledFails = some t)
    (ht' : s'.enabledFails = some t') (h : t'.toUncachedWtable = t.toUncachedWtable)
    (name : CString) : s'.lookup P name = s.lookup P name := by
  rw [Fiu.lookup, Fiu.lookup, ht, ht']
  show uncachedGet P t'.toUncachedWtable name = uncachedGet P t.toUncachedWtable name
  rw [h]

/-- A call of `fiu_fail` leaves what is looked up as it is. -/
theorem fiuFail_lookup {s s' : Fiu W} {L : Ledger ℕ} (hs : s.Valid P L) {caller : Caller}
    {name : CString} {r : FailReply} (h : fiuFail P l s caller name = some (r, s'))
    (name' : CString) : s'.lookup P name' = s.lookup P name' := by
  by_cases hrec : caller.recCount = 0
  · obtain ⟨t, t', ht, -, hsame, ⟨-, hf⟩ | ⟨id, pf, -, -, hf⟩⟩ := fiuFail_eq (l := l) hs hrec name
    · rw [hf] at h
      cases h
      exact lookup_eq ht rfl hsame name'
    · rw [hf] at h
      cases h
      exact lookup_eq ht rfl hsame name'
  · rw [fiuFail_nested hrec] at h
    cases h
    rfl

/-- **All calls on a point leave its lock balanced exactly when its callback leaves the bit.** -/
theorem fail_run_locks_iff {s : Fiu W} {L : Ledger ℕ} (hs : s.Valid P L) {i : ℕ} {pf : PfInfo W}
    (hpf : s.pfs[i]? = some pf) (hlock : pf.lock = none) (calls : List (Caller × CString))
    (hcalls : ∀ call ∈ calls, s.lookup P call.2 = some (some i)) :
    ∃ rs s', Machine.run (failStep P l) s calls = some (rs, s') ∧
      ((∀ r ∈ rs, r.Balanced) ↔ Machine.Guarded (failStep P l) (CallbackKeeps i) s calls) := by
  refine Machine.run_forall_iff
    (J := fun s' : Fiu W => s'.Valid P L ∧ ∀ name, s'.lookup P name = s.lookup P name)
    (K := fun s' => ∃ pf, s'.pfs[i]? = some pf ∧ pf.lock = none)
    (p := fun call => s.lookup P call.2 = some (some i)) ?_ calls s ⟨hs, fun _ => rfl⟩
    ⟨pf, hpf, hlock⟩ hcalls
  rintro s' ⟨caller, name⟩ ⟨hv, hlook⟩ hname
  by_cases hrec : caller.recCount = 0
  · obtain ⟨t, t', ht, ht', hsame, ⟨hnone, -⟩ | ⟨id, q, hsome, hq, hf⟩⟩ :=
      fiuFail_eq (l := l) hv hrec name
    · rw [hlook, hname] at hnone
      cases hnone
    · rw [hlook, hname] at hsome
      cases hsome
      have hv' := hv.afterFail ht' caller hq
        (PfInfo.fail_name (P := P) (l := l) caller q s'.randdXn s'.world)
      refine ⟨_, _, hf, ⟨hv', fun n => (fiuFail_lookup hv hf n).trans (hlook n)⟩, ?_⟩
      rintro ⟨q', hq', hfree⟩
      rw [hq] at hq'
      cases hq'
      obtain ⟨hbal, hkeep⟩ := PfInfo.fail_balanced_iff (P := P) (l := l) caller q s'.randdXn s'.world hfree
      have hiff : CallbackKeeps i s' (caller, name) ↔ q.KeepsOnetime s'.world :=
        ⟨fun h => h hrec q hq, fun h _ pf' hpf' => by
          rw [hq] at hpf'
          cases hpf'
          exact h⟩
      rw [hiff]
      refine ⟨hbal, fun h => ⟨_, ?_, hkeep h⟩⟩
      exact List.getElem?_set_self (List.getElem?_eq_some_iff.mp hq).1
  · refine ⟨_, s', fiuFail_nested hrec name, ⟨hv, hlook⟩, fun hK => ⟨?_, fun _ => hK⟩⟩
    exact iff_of_true ⟨Or.inl rfl, Option.some_ne_none _⟩ fun h => absurd h hrec

/-- The library after `fiu_init`. -/
def initialized (world : W) (garbage : ℕ) (seed : UInt32) : Fiu W :=
  (fiuInit (fiuStart world) garbage seed).2

/-- Every run after `fiu_init` is defined and ends in a valid state. -/
theorem fiu_run_valid (world : W) (garbage : ℕ) (seed : UInt32) (calls : List (FiuCall W))
    (hnames : ∀ call ∈ calls, call.name.bytes ≠ []) :
    ∃ rs s L, Machine.run (fiuStep P l) (initialized world garbage seed) calls = some (rs, s) ∧
      s.Valid P L := by
  obtain ⟨rs, s, hrun, L, hv⟩ := Machine.run_invariant (J := fun s : Fiu W => ∃ L, s.Valid P L)
    (p := fun call : FiuCall W => call.name.bytes ≠ []) (fun s call hs hname => by
      obtain ⟨L, hs⟩ := hs
      obtain ⟨r, s', L', hstep, hv⟩ := fiuStep_valid (l := l) hs call hname
      exact ⟨r, s', hstep, L', hv⟩)
    calls (initialized world garbage seed) ⟨_, fiuInit_valid world garbage seed⟩ hnames
  exact ⟨rs, s, L, hrun, hv⟩

/-- **The lock of an external point stays balanced exactly as long as its callback leaves
    `FIU_ONETIME` alone.**

    `setup` leads to any state that the library can be in, by calls with names (`hnames`; a call
    with the empty name may be undefined). In it an external point is free, and any sequence of
    calls of `fiu_fail` find this point. All of them return. Each has taken `pf->lock` as often as
    it gave it back, which is once or never, if and only if at each call that is not nested the
    callback leaves the flag as it is (`CallbackKeeps`). -/
theorem fiu_fail_locks_iff (P : Platform) (l : Linker) (world : W) (garbage : ℕ) (seed : UInt32)
    (setup : List (FiuCall W)) (hnames : ∀ call ∈ setup, call.name.bytes ≠ []) :
    ∃ rs s, Machine.run (fiuStep P l) (initialized world garbage seed) setup = some (rs, s) ∧
      ∀ i pf externalCb, s.pfs[i]? = some pf → pf.method = .external externalCb → pf.lock = none →
        ∀ calls, (∀ call ∈ calls, s.lookup P call.2 = some (some i)) →
          ∃ rs' s', Machine.run (failStep P l) s calls = some (rs', s') ∧
            ((∀ r ∈ rs', r.Balanced) ↔
              Machine.Guarded (failStep P l) (CallbackKeeps i) s calls) := by
  obtain ⟨rs, s, L, hrun, hv⟩ := fiu_run_valid (P := P) (l := l) world garbage seed setup hnames
  exact ⟨rs, s, hrun, fun i pf _ hpf _ hlock calls hcalls =>
    fail_run_locks_iff hv hpf hlock calls hcalls⟩

/-! ## Two callbacks

One that breaks the condition, and one that meets it and does not fail every time. -/

/-- A program without symbols. -/
def noSymbols : Linker := ⟨fun _ => 0, fun _ => 0, fun _ => 0, false⟩

/-- A thread that is not inside of the library. -/
def mainThread : Caller := ⟨0, 0, []⟩

/-- The state after one external point was enabled. -/
theorem run_enableExternal (world : W) (name : CString) (hname : name.bytes ≠ []) (flags : UInt32)
    (externalCb : ExternalCb W) :
    ∃ s, Machine.run (fiuStep P l) (initialized world 0 0)
        [.enableExternal name 1 0 flags externalCb] = some ([.int 0], s) ∧
      s.pfs = [pfCreate name 1 0 flags (.external externalCb)] := by
  have hpf : (pfCreate name 1 0 flags (.external externalCb) : PfInfo W).name.bytes ≠ [] := hname
  obtain ⟨t', hins, -⟩ := insertPf_eq (fiuInit_valid (P := P) world 0 0) hpf
  have hstep : fiuStep P l (initialized world 0 0) (.enableExternal name 1 0 flags externalCb)
      = some (.int 0, { initialized world 0 0 with
          enabledFails := some t'
          pfs := [pfCreate name 1 0 flags (.external externalCb)] }) := by
    rw [fiuStep, fiuEnableExternal, initialized, hins]
    rfl
  exact ⟨_, by rw [Machine.run_cons hstep]; rfl, rfl⟩

/-- A callback that never fails, and clears the flags. -/
def clearFlags : ExternalCb Unit := fun world _ failnum failinfo _ => (⟨0, failnum, failinfo, 0⟩, world)

/-- **A call that takes the lock and keeps it**: the callback of a point that fails once clears the
    flags. -/
theorem fiu_fail_lock_left :
    ∃ rs s, Machine.run (fiuStep Platform.ieee noSymbols) (initialized () 0 0)
        [.enableExternal keyJ 1 0 fiuOnetime clearFlags] = some (rs, s) ∧
      s.pfs = [pfCreate keyJ 1 0 fiuOnetime (.external clearFlags)] ∧
      ∃ rs' s', Machine.run (failStep Platform.ieee noSymbols) s [(mainThread, keyJ)]
          = some (rs', s') ∧ ¬ ∀ r ∈ rs', r.Balanced := by
  obtain ⟨s, hrun, hpfs⟩ := run_enableExternal (P := Platform.ieee) (l := noSymbols) () keyJ
    (by decide) fiuOnetime clearFlags
  refine ⟨_, s, hrun, hpfs, ?_⟩
  have hcall : ((Machine.run (fiuStep Platform.ieee noSymbols) (initialized () 0 0)
      [.enableExternal keyJ 1 0 fiuOnetime clearFlags]).bind fun r =>
        (Machine.run (failStep Platform.ieee noSymbols) r.2 [(mainThread, keyJ)]).map Prod.fst)
      = some [⟨some 0, [.lock]⟩] := by
    decide +kernel
  rw [hrun, Option.bind_some] at hcall
  obtain ⟨⟨rs', s'⟩, hr, rfl⟩ := Option.map_eq_some_iff.mp hcall
  exact ⟨_, s', hr, by decide⟩

/-- A callback that fails every other time, and leaves the flags. -/
def everyOther : ExternalCb ℕ := fun world _ failnum failinfo flags =>
  (⟨world % 2, failnum, failinfo, flags⟩, world + 1)

theorem fiu_fail_locks_iff_everyOther :
    ∃ rs s, Machine.run (fiuStep Platform.ieee noSymbols) (initialized 0 0 0)
        [.enableExternal keyJ 1 0 fiuOnetime everyOther] = some (rs, s) ∧
      ∃ rs' s', Machine.run (failStep Platform.ieee noSymbols) s
          [(mainThread, keyJ), (mainThread, keyJ), (mainThread, keyJ)] = some (rs', s') ∧
        ((∀ r ∈ rs', r.Balanced) ↔ Machine.Guarded (failStep Platform.ieee noSymbols)
          (CallbackKeeps 0) s [(mainThread, keyJ), (mainThread, keyJ), (mainThread, keyJ)]) := by
  obtain ⟨rs, s, hrun, hcalls⟩ := fiu_fail_locks_iff Platform.ieee noSymbols 0 0 0
    [.enableExternal keyJ 1 0 fiuOnetime everyOther] (by decide)
  refine ⟨rs, s, hrun, ?_⟩
  obtain ⟨s₁, hrun₁, hpfs⟩ := run_enableExternal (P := Platform.ieee) (l := noSymbols) 0 keyJ
    (by decide) fiuOnetime everyOther
  rw [hrun₁] at hrun
  cases hrun
  have hlook : ((Machine.run (fiuStep Platform.ieee noSymbols) (initialized 0 0 0)
      [.enableExternal keyJ 1 0 fiuOnetime everyOther]).bind
        fun r => r.2.lookup Platform.ieee keyJ) = some (some 0) := by
    decide +kernel
  rw [hrun₁, Option.bind_some] at hlook
  refine hcalls 0 _ everyOther (by rw [hpfs]; rfl) rfl rfl _ fun call hcall => ?_
  have hname : call.2 = keyJ := by
    simp only [List.mem_cons, List.not_mem_nil, or_false, or_self] at hcall
    rw [hcall]
  rw [hname, hlook]

end Libfiu
