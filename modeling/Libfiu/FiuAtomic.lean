/-
  Under any number of threads, each call of the library takes effect at one moment.

  `FiuThreads` is what threads do, step by step, to the table, its cache, the locks and the points.
  `Fiu` is one call at a time.  Here the first refines the second: whatever the threads do, their calls
  and returns are those of clients of an atomic object whose operations are the calls of `Fiu`
  (`fiu_linearizable`).

  1. **The moments** — `insert_pf` and `fiu_disable` take effect when they give back the lock.  A call
     of `fiu_fail` takes effect when its lookup has found nothing, when it finds that its point has
     failed once already, when it decides not to fail, or when it stores the `failinfo`; until its
     thread has stored `failed_once`, the point is in the sequential library already what it will be.

  2. **Points** (`PointPc.Holds`) — nobody sees that: a point that fails once is locked meanwhile.

  3. **The table** — is the sequential one whenever nobody writes, but for the cache (`Refines`).

  4. **Draws** — `randd_xn` has no lock, so threads may draw at the same time, and the same number.  In
     the object its value is left open before each operation (`fiuAtomic`).  Where no point fails at
     random that is nothing, and the operations are the calls of `Fiu` (`fiuAtomic_certain`).

  Points with an external callback are left out: foreign code runs there, which stores into the point
  when it likes.

  The proof is a simulation (`Simulates` of `Lib/Atomic`). To each state of the library it keeps a
  state `z` of the sequential one, and to each thread a client of it that is idle, has called, or is
  done with a result. `Refines` ties the shared state to `z`; `Thread.Refines` ties each place of
  the program to what its client may know. A step is answered by no operation, or by the one that
  its own client asked for (`threads_simulate`), and then the history of the threads is a history of
  the object, by the induction that `Lib/Atomic` has once for all.

  That `failed_once` is set in `z` before it is set in the library is what makes the order of the
  operations right: a second call on a point that is to fail once waits for `pf->lock`, and when it
  gets it, the two agree again (`PfInfo.Matches.free`).
-/
import Libfiu.FiuLinear
import Libfiu.FiuOnce
import Libfiu.Lib.Atomic

namespace Libfiu

open Threads Atomic

variable {W : Type} {P : Platform} {l : Linker}

/-! ## The atomic object

Its operations are calls of the sequential library, and what is seen of a thread is which call it
makes and what that returns. -/

/-- What a call of the library returns, if it does. -/
def FiuReply.value : FiuReply → Option ℤ
  | .fail reply => reply.result
  | .int r => some r

/-- A call of the sequential library, with any number in `randd_xn`. -/
def fiuAtomic (P : Platform) (l : Linker) (s : Fiu W) (call : FiuCall W) (r : ℤ) (s' : Fiu W) : Prop :=
  ∃ (xn : UInt32) (reply : FiuReply),
    fiuStep P l { s with randdXn := xn } call = some (reply, s') ∧ reply.value = some r

/-- What is seen of a step of a thread. -/
def seen (a : Choice W) (e : Event) : List (Act (FiuCall W) ℤ) :=
  match a, e with
  | .call call, _ => [.call call]
  | _, .returned r => [.ret r]
  | _, _ => []

/-- The call enables no point with an external callback. -/
def FiuCall.internal : FiuCall W → Bool
  | .enableExternal _ _ _ _ _ => false
  | _ => true

/-! ## The decision

Without a callback the decision is made by the method alone: always, by a number, or by the stack of
the caller. So it does not matter at which moment it is made.

For a point that draws, "a number" is whatever `randd_xn` was when it was read, which need not be
what is there now; `Method.fails` takes it as an argument. -/

/-- Whether a point with this method fails, if it has no callback. -/
def Method.fails (P : Platform) (l : Linker) (caller : Caller) (xn : UInt32) : Method W → Bool
  | .always => true
  | .prob probability => decide (probability > randd P (randdNext xn))
  | .external _ => false
  | .stack st => shouldStackFail l st caller.backtrace

/-- The point has no external callback. -/
def PfInfo.internal (pf : PfInfo W) : Bool :=
  match pf.method with
  | .external _ => false
  | _ => true

/-- Nothing but the method decides, and nothing is stored into the point. -/
theorem PfInfo.decide_internal {pf : PfInfo W} (h : pf.internal = true) (caller : Caller) (xn : UInt32)
    (world : W) : ∃ xn', pf.decide P l caller xn world
      = (pf.method.fails P l caller xn, pf, xn', world) := by
  unfold PfInfo.internal at h
  unfold PfInfo.decide
  cases hm : pf.method with
  | external cb =>
    rw [hm] at h
    cases h
  | always => exact ⟨xn, rfl⟩
  | prob probability => exact ⟨randdNext xn, rfl⟩
  | stack stack => exact ⟨xn, rfl⟩

/-- What a step from here stores for `fiu_failinfo`. -/
def PointPc.failinfo (pf : PfInfo W) : PointPc → Option Addr
  | .exitFail => some pf.failinfo
  | _ => none

/-- What is under `last_failinfo_key` after that. -/
def storeFailinfo (last : ℕ → Addr) (caller : Caller) : Option Addr → ℕ → Addr
  | some failinfo => Function.update last caller.thread failinfo
  | none => last

/-- Every number comes after one. -/
theorem randdNext_surjective (x : UInt32) : ∃ xn, randdNext xn = x := by
  refine ⟨4005161829 * (x - 12345), ?_⟩
  unfold randdNext
  have hone : (1103515245 : UInt32) * 4005161829 = 1 := by decide
  grind

/-- **`fiu_fail` on a point that is not locked**, and has no callback. -/
theorem PfInfo.fail_internal {q : PfInfo W} (hint : q.internal = true) (hlock : q.lock = none)
    (caller : Caller) (xn : UInt32) (world : W) :
    let call := q.fail P l caller xn world
    (q.onetime = true → q.failedOnce = true →
      call.reply.result = some 0 ∧ call.pf = q ∧ call.failinfo = none) ∧
    (¬ (q.onetime = true ∧ q.failedOnce = true) → q.method.fails P l caller xn = false →
      call.reply.result = some 0 ∧ call.pf = q ∧ call.failinfo = none) ∧
    (¬ (q.onetime = true ∧ q.failedOnce = true) → q.method.fails P l caller xn = true →
      call.reply.result = some q.failnum ∧
      call.pf = { q with failedOnce := q.failedOnce || q.onetime } ∧
      call.failinfo = some q.failinfo) := by
  have hfree : ¬ (q.onetime = true ∧ q.lock.isSome = true) := by
    rw [hlock]
    exact fun h => by cases h.2
  have hlocked : (q.locked caller).internal = true := hint
  obtain ⟨xn', hdecide⟩ := PfInfo.decide_internal (P := P) (l := l) hlocked caller xn world
  have hmethod : (q.locked caller).method = q.method := rfl
  have hrest : ¬ (q.onetime = true ∧ q.failedOnce = true) →
      q.fail P l caller xn world = PfInfo.finish q.onetime
        (q.method.fails P l caller xn, q.locked caller, xn', world) := by
    intro h
    unfold PfInfo.fail
    rw [if_neg hfree, if_neg h, hdecide, hmethod]
  -- the lock is given back
  have hback : (if q.onetime = true then none else (q.locked caller).lock) = q.lock := by
    show (if q.onetime = true then none else if q.onetime = true then some caller.thread else q.lock) = _
    by_cases h : q.onetime = true
    · rw [if_pos h, hlock]
    · rw [if_neg h, if_neg h]
  refine ⟨fun hone hspent => ?_, fun hnot hpass => ?_, fun hnot hfails => ?_⟩
  · unfold PfInfo.fail
    rw [if_neg hfree, if_pos ⟨hone, hspent⟩]
    exact ⟨rfl, rfl, rfl⟩
  · rw [hrest hnot, hpass]
    refine ⟨rfl, ?_, rfl⟩
    show { q.locked caller with
      lock := if q.onetime = true then none else (q.locked caller).lock
      failedOnce := q.failedOnce || (false && q.onetime) } = q
    rw [hback, Bool.false_and, Bool.or_false]
    rfl
  · rw [hrest hnot, hfails]
    refine ⟨rfl, ?_, rfl⟩
    show { q.locked caller with
      lock := if q.onetime = true then none else (q.locked caller).lock
      failedOnce := q.failedOnce || (true && q.onetime) } = _
    rw [hback, Bool.true_and]
    rfl

/-! ## Where a call is on its point

A call takes effect when its result is settled: at the test of `failed_once` if the point is spent,
at the end of the `switch` if it does not fail, and with the storing of the failinfo if it does.

`Chosen` is what the thread remembers of its decision, and `Holds` is what it knows of the point as
long as it has the lock. Both are about one thread and one point, so the steps of other threads
concern them only through `pf->lock`. -/

/-- What was decided before a thread came here. -/
def PointPc.Chosen (P : Platform) (l : Linker) (caller : Caller) (pf : PfInfo W) : PointPc → Prop
  | .randdStore probability _ | .randdLoad probability => pf.method = .prob probability
  | .callback => pf.internal = false
  | .exitFail => ∃ xn, pf.method.fails P l caller xn = true
  | _ => True

/-- The point `q` of the sequential library is `pf`, not locked; `failed_once` is the same when `pf` is
    not locked either. -/
structure PfInfo.Matches (pf q : PfInfo W) : Prop where
  same : q = { pf with lock := none, failedOnce := q.failedOnce }
  free : pf.lock = none → q.failedOnce = pf.failedOnce
  once : pf.onetime = false → pf.lock = none

/-- What thread `i` holds of the point, and what it knows of `failed_once`. -/
def PointPc.Holds (i : ℕ) (pf q : PfInfo W) : PointPc → Prop
  | .testFlags | .done _ => True
  | .lock => pf.onetime = true
  | .testFailedOnce | .unlockSpent | .unlockPass | .unlockFail _ =>
    pf.onetime = true ∧ pf.lock = some i ∧ q.failedOnce = pf.failedOnce
  | .decide | .randdStore _ _ | .randdLoad _ | .callback | .exitFail =>
    pf.onetime = true → pf.lock = some i ∧ q.failedOnce = false ∧ pf.failedOnce = false
  | .testFlagsPass => pf.onetime = true → pf.lock = some i ∧ q.failedOnce = pf.failedOnce
  | .readFailnum | .testFlagsFail _ => pf.onetime = true → pf.lock = some i ∧ q.failedOnce = true
  | .setFailedOnce _ => pf.onetime = true ∧ pf.lock = some i ∧ q.failedOnce = true

/-- Whether the call has taken effect, and with what result. -/
def PointPc.phase (pf : PfInfo W) (call : FiuCall W) : PointPc → Phase (FiuCall W) ℤ
  | .testFlags | .lock | .testFailedOnce | .decide | .randdStore _ _ | .randdLoad _ | .callback
  | .exitFail => .called call
  | .unlockSpent | .testFlagsPass | .unlockPass => .done 0
  | .readFailnum => .done pf.failnum
  | .testFlagsFail failnum | .setFailedOnce failnum | .unlockFail failnum => .done failnum
  | .done result => .done result

/-- A step decides as the method says. -/
theorem pointStep_chosen {i id : ℕ} {caller : Caller} {a : Choice W} {s s' : Fiu W} {pc pc' : PointPc}
    {e : Event} {pf : PfInfo W} (h : pointStep P l i caller id a s pc = some (e, s', pc'))
    (hpf : s.deref id = some pf) (hint : pf.internal = true) (hpc : pc.Chosen P l caller pf) :
    pc'.Chosen P l caller pf ∧
      (pc.deciding = true → pc' = .testFlagsPass → ∃ xn, pf.method.fails P l caller xn = false) ∧
      s'.lastFailinfo = storeFailinfo s.lastFailinfo caller (pc.failinfo pf) ∧ seen a e = [] := by
  have hswitch : ∀ {fails : Bool} (xn : UInt32), pf.method.fails P l caller xn = fails →
      switched fails id s = (e, s', pc') → pc'.Chosen P l caller pf ∧
        (pc.deciding = true → pc' = .testFlagsPass → ∃ xn, pf.method.fails P l caller xn = false) ∧
        s'.lastFailinfo = s.lastFailinfo ∧ seen (.next : Choice W) e = [] := by
    intro fails xn hxn hs
    cases fails with
    | true =>
      cases hs
      exact ⟨⟨xn, hxn⟩, fun _ h => (by cases h), rfl, rfl⟩
    | false =>
      cases hs
      exact ⟨trivial, fun _ _ => ⟨xn, hxn⟩, rfl, rfl⟩
  unfold pointStep at h
  rw [hpf, Option.bind_eq_bind, Option.bind_some] at h
  split at h
  · -- `testFlags`
    cases h
    refine ⟨?_, fun h => (by cases h), rfl, rfl⟩
    split <;> trivial
  · -- `lock`
    split at h
    · cases h
      exact ⟨trivial, fun h => (by cases h), rfl, rfl⟩
    · cases h
  · -- `testFailedOnce`
    cases h
    refine ⟨?_, fun h => (by cases h), rfl, rfl⟩
    split <;> trivial
  · -- `unlockSpent`
    cases h
    exact ⟨trivial, fun h => (by cases h), rfl, rfl⟩
  · -- the `switch`
    split at h
    · rename_i hm
      exact hswitch 0 (by rw [hm]; rfl) (Option.some.inj h)
    · rename_i hm
      cases h
      exact ⟨hm, fun _ h => (by cases h), rfl, rfl⟩
    · rename_i hm
      rw [PfInfo.internal, hm] at hint
      cases hint
    · rename_i hm
      exact hswitch 0 (by rw [hm]; rfl) (Option.some.inj h)
  · -- `randdStore`
    cases h
    exact ⟨hpc, fun _ h => (by cases h), rfl, rfl⟩
  · -- the number that is read now comes after some number
    obtain ⟨xn, hxn⟩ := randdNext_surjective s.randdXn
    have hm : pf.method = _ := hpc
    refine hswitch xn ?_ (Option.some.inj h)
    rw [hm, Method.fails, hxn]
  · -- a callback: there is none
    have hext : pf.internal = false := hpc
    rw [hint] at hext
    cases hext
  · have hext : pf.internal = false := hpc
    rw [hint] at hext
    cases hext
  · -- `testFlagsPass`
    cases h
    refine ⟨?_, fun h => (by cases h), rfl, rfl⟩
    split <;> trivial
  · -- `unlockPass`
    cases h
    exact ⟨trivial, fun h => (by cases h), rfl, rfl⟩
  · -- `exitFail`: the failinfo is stored
    cases h
    exact ⟨trivial, fun h => (by cases h), rfl, rfl⟩
  · -- `readFailnum`
    cases h
    exact ⟨trivial, fun h => (by cases h), rfl, rfl⟩
  · -- `testFlagsFail`
    cases h
    refine ⟨?_, fun h => (by cases h), rfl, rfl⟩
    split <;> trivial
  · -- `setFailedOnce`
    cases h
    exact ⟨trivial, fun h => (by cases h), rfl, rfl⟩
  · -- `unlockFail`
    cases h
    exact ⟨trivial, fun h => (by cases h), rfl, rfl⟩
  · cases h

/-- A point that matches one without a callback has none. -/
theorem PfInfo.Matches.internal {pf q : PfInfo W} (h : pf.Matches q) (hint : pf.internal = true) :
    q.internal = true := by
  rw [h.same]
  exact hint

/-- **A step on a point**, and what it is for the sequential library: nothing, or the whole call. -/
theorem PointMoves.refines {i id : ℕ} {caller : Caller} {a : Choice W} {e : Event}
    {pf pf' q : PfInfo W} {pc pc' : PointPc} (hm : PointMoves i id pf pc a e pf' pc')
    (call : FiuCall W) (hint : pf.internal = true) (hmatch : pf.Matches q) (hpc : pc.Holds i pf q)
    (hchosen : pc.Chosen P l caller pf)
    (hpass : pc.deciding = true → pc' = .testFlagsPass →
      ∃ xn, pf.method.fails P l caller xn = false) :
    ∃ q', pf'.Matches q' ∧ pc'.Holds i pf' q' ∧ (pc ≠ .exitFail → q' = q) ∧
      ((q' = q ∧ pc'.phase pf' call = pc.phase pf call ∧ pc.failinfo pf = none) ∨
      ∃ xn r, pc.phase pf call = .called call ∧ pc'.phase pf' call = .done r ∧ ∀ world,
        (q.fail P l caller xn world).reply.result = some r ∧
        (q.fail P l caller xn world).pf = q' ∧
        (q.fail P l caller xn world).failinfo = pc.failinfo pf) := by
  have hqint := hmatch.internal hint
  have hqlock : q.lock = none := by rw [hmatch.same]
  have hqone : q.onetime = pf.onetime := by rw [hmatch.same]; rfl
  have hqmethod : q.method = pf.method := by rw [hmatch.same]
  have hfail : ∀ xn world, _ := fun xn world =>
    PfInfo.fail_internal (P := P) (l := l) hqint hqlock caller xn world
  -- while this thread decides, the point has not failed, or it does not matter
  have hundecided : pc.deciding = true ∨ pc = .exitFail →
      (pf.onetime = true → pf.lock = some i ∧ q.failedOnce = false ∧ pf.failedOnce = false) ∧
      ¬ (q.onetime = true ∧ q.failedOnce = true) := by
    intro h
    have hheld : pf.onetime = true → pf.lock = some i ∧ q.failedOnce = false ∧
        pf.failedOnce = false := by
      cases pc with
      | decide | randdStore | randdLoad | callback | exitFail => exact hpc
      | _ => rcases h with h | h <;> cases h
    refine ⟨hheld, fun hspent => ?_⟩
    rw [hqone] at hspent
    have := (hheld hspent.1).2.1
    rw [hspent.2] at this
    cases this
  -- the lock is given back
  have hback : pf.onetime = true → q.failedOnce = pf.failedOnce →
      PfInfo.Matches { pf with lock := none } q := fun hone hsame =>
    ⟨hmatch.same, fun _ => hsame, fun _ => rfl⟩
  have hself : pc ≠ .exitFail → q = q := fun _ => rfl
  cases hm with
  | testFlags =>
    refine ⟨q, hmatch, ?_, hself, Or.inl ⟨rfl, ?_, rfl⟩⟩
    · cases hone : pf.onetime with
      | true => exact hone
      | false =>
        intro h
        rw [hone] at h
        cases h
    · cases pf.onetime <;> rfl
  | lock hfree =>
    have hone : pf.onetime = true := hpc
    refine ⟨q, ⟨hmatch.same, fun h => (by cases h), fun h => ?_⟩, ⟨hone, rfl, hmatch.free hfree⟩,
      hself, Or.inl ⟨rfl, rfl, rfl⟩⟩
    have h : pf.onetime = false := h
    rw [hone] at h
    cases h
  | testFailedOnce =>
    obtain ⟨hone, hlock, hsame⟩ := hpc
    cases hspent : pf.failedOnce with
    | true =>
      -- it has failed already
      refine ⟨q, hmatch, ⟨hone, hlock, hsame⟩, hself, Or.inr ⟨0, 0, rfl, rfl, fun world => ?_⟩⟩
      exact (hfail 0 world).1 (hqone.trans hone) (hsame.trans hspent)
    | false =>
      exact ⟨q, hmatch, fun _ => ⟨hlock, hsame.trans hspent, hspent⟩, hself, Or.inl ⟨rfl, rfl, rfl⟩⟩
  | unlockSpent => exact ⟨q, hback hpc.1 hpc.2.2, trivial, hself, Or.inl ⟨rfl, rfl, rfl⟩⟩
  | decides hd hd' =>
    obtain ⟨hheld, -⟩ := hundecided (Or.inl hd)
    refine ⟨q, hmatch, ?_, hself, Or.inl ⟨rfl, ?_, ?_⟩⟩
    · cases pc' with
      | decide | randdStore | randdLoad | callback => exact hheld
      | _ => cases hd'
    · cases pc with
      | decide | randdStore | randdLoad | callback =>
        cases pc' with
        | decide | randdStore | randdLoad | callback => rfl
        | _ => cases hd'
      | _ => cases hd
    · cases pc with
      | exitFail => cases hd
      | _ => rfl
  | stores x =>
    have hext : pf.internal = false := hchosen
    rw [hint] at hext
    cases hext
  | fails hd =>
    obtain ⟨hheld, -⟩ := hundecided (Or.inl hd)
    refine ⟨q, hmatch, hheld, hself, Or.inl ⟨rfl, ?_, ?_⟩⟩
    · cases pc with
      | decide | randdStore | randdLoad | callback => rfl
      | _ => cases hd
    · cases pc with
      | exitFail => cases hd
      | _ => rfl
  | passes hd =>
    -- it decides not to fail
    obtain ⟨hheld, hunspent⟩ := hundecided (Or.inl hd)
    obtain ⟨xn, hxn⟩ := hpass hd rfl
    refine ⟨q, hmatch, fun hone => ⟨(hheld hone).1, (hheld hone).2.1.trans (hheld hone).2.2.symm⟩,
      hself, Or.inr ⟨xn, 0, ?_, rfl, fun world => ?_⟩⟩
    · cases pc with
      | decide | randdStore | randdLoad | callback => rfl
      | _ => cases hd
    · obtain ⟨hresult, hpf, hinfo⟩ := (hfail xn world).2.1 hunspent (by rw [hqmethod]; exact hxn)
      refine ⟨hresult, hpf, hinfo.trans ?_⟩
      cases pc with
      | exitFail => cases hd
      | _ => rfl
  | testFlagsPass =>
    refine ⟨q, hmatch, ?_, hself, Or.inl ⟨rfl, ?_, rfl⟩⟩
    · cases hone : pf.onetime with
      | true => exact ⟨hone, (hpc hone).1, (hpc hone).2⟩
      | false => trivial
    · cases pf.onetime <;> rfl
  | unlockPass => exact ⟨q, hback hpc.1 hpc.2.2, trivial, hself, Or.inl ⟨rfl, rfl, rfl⟩⟩
  | exitFail =>
    -- it fails
    obtain ⟨hheld, hunspent⟩ := hundecided (Or.inr rfl)
    obtain ⟨xn, hxn⟩ := hchosen
    refine ⟨{ q with failedOnce := q.failedOnce || q.onetime }, ⟨?_, fun hfree => ?_, hmatch.once⟩, ?_,
      fun h => absurd rfl h, Or.inr ⟨xn, pf.failnum, rfl, rfl, fun world => ?_⟩⟩
    · rw [hmatch.same]
    · show (q.failedOnce || q.onetime) = pf.failedOnce
      have hone : pf.onetime = false := by
        rw [← Bool.not_eq_true]
        intro hone
        rw [(hheld hone).1] at hfree
        cases hfree
      rw [hqone, hone, Bool.or_false]
      exact hmatch.free hfree
    · intro hone
      refine ⟨(hheld hone).1, ?_⟩
      show (q.failedOnce || q.onetime) = true
      rw [hqone, hone, Bool.or_true]
    · obtain ⟨hresult, hpf, hinfo⟩ := (hfail xn world).2.2 hunspent (by rw [hqmethod]; exact hxn)
      have hfailnum : q.failnum = pf.failnum := by rw [hmatch.same]
      have hfailinfo : q.failinfo = pf.failinfo := by rw [hmatch.same]
      exact ⟨hresult.trans (congrArg some hfailnum), hpf, hinfo.trans (congrArg some hfailinfo)⟩
  | readFailnum => exact ⟨q, hmatch, hpc, hself, Or.inl ⟨rfl, rfl, rfl⟩⟩
  | testFlagsFail failnum =>
    refine ⟨q, hmatch, ?_, hself, Or.inl ⟨rfl, ?_, rfl⟩⟩
    · cases hone : pf.onetime with
      | true => exact ⟨hone, (hpc hone).1, (hpc hone).2⟩
      | false => trivial
    · cases pf.onetime <;> rfl
  | setFailedOnce failnum =>
    obtain ⟨hone, hlock, hspent⟩ := hpc
    refine ⟨q, ⟨hmatch.same, fun hfree => ?_, hmatch.once⟩, ⟨hone, hlock, hspent⟩,
      hself, Or.inl ⟨rfl, rfl, rfl⟩⟩
    have hfree : pf.lock = none := hfree
    rw [hlock] at hfree
    cases hfree
  | unlockFail failnum => exact ⟨q, hback hpc.1 hpc.2.2, trivial, hself, Or.inl ⟨rfl, rfl, rfl⟩⟩

/-- A thread that has not got the lock of the point knows nothing that another one can change. -/
theorem PointPc.holds_of_lock_ne {j : ℕ} {pf pf' q q' : PfInfo W} {pc : PointPc} (h : pc.Holds j pf q)
    (hne : pf.lock ≠ some j) (hone : pf'.onetime = pf.onetime) : pc.Holds j pf' q' := by
  cases pc with
  | testFlags | done => trivial
  | lock => exact hone.trans h
  | testFailedOnce | unlockSpent | unlockPass | unlockFail => exact absurd h.2.1 hne
  | setFailedOnce => exact absurd h.2.1 hne
  | _ => exact fun h' => absurd (h (hone.symm.trans h')).1 hne

namespace PointMoves

variable {i j id : ℕ} {caller : Caller} {a : Choice W} {e : Event} {pf pf' q q' : PfInfo W}
  {pc pc' pcj : PointPc}

/-- A step of a thread changes the lock of the point and `failed_once`, and nothing else. -/
theorem keeps (hm : PointMoves i id pf pc a e pf' pc') (hint : pf.internal = true)
    (hchosen : pc.Chosen P l caller pf) :
    pf'.failnum = pf.failnum ∧ pf'.method = pf.method ∧ pf'.onetime = pf.onetime := by
  cases hm with
  | stores x =>
    have hext : pf.internal = false := hchosen
    rw [hint] at hext
    cases hext
  | _ => exact ⟨rfl, rfl, rfl⟩

/-- **What another thread knows of the point** stays true. -/
theorem refines_other (hm : PointMoves i id pf pc a e pf' pc') (hint : pf.internal = true)
    (hchosen : pc.Chosen P l caller pf) (hmatch : pf.Matches q) (hpc : pc.Holds i pf q) (hne : i ≠ j)
    (hq' : pc ≠ .exitFail → q' = q) (hj : pcj.Holds j pf q) : pcj.Holds j pf' q' := by
  by_cases hlock : pf.lock = some j
  · -- thread `j` has the lock: thread `i` is still to begin
    have hone : pf.onetime = true := by
      by_contra hone
      rw [hmatch.once (Bool.not_eq_true _ ▸ hone)] at hlock
      cases hlock
    have hi : pf.lock ≠ some i := by
      rw [hlock]
      exact fun h => hne (Option.some.inj h).symm
    have hsame : pf' = pf ∧ pc ≠ .exitFail := by
      cases hm with
      | testFlags => exact ⟨rfl, fun h => by cases h⟩
      | lock hfree =>
        rw [hfree] at hlock
        cases hlock
      | testFailedOnce | unlockSpent | unlockPass | unlockFail => exact absurd hpc.2.1 hi
      | setFailedOnce => exact absurd hpc.2.1 hi
      | decides hd | fails hd | passes hd =>
        cases pc with
        | decide | randdStore | randdLoad | callback => exact absurd (hpc hone).1 hi
        | _ => cases hd
      | _ => exact absurd (hpc hone).1 hi
    rw [hsame.1, hq' hsame.2]
    exact hj
  · exact PointPc.holds_of_lock_ne hj hlock (hm.keeps hint hchosen).2.2

end PointMoves

/-! ## The assertions

The abstract object has done what was seen to take effect. Its points are those of the library but
for their locks, and its table is that of the library whenever nobody writes.

A writer is described by what is left of its call (`Finishes`), as in `FiuLinear`: while it is at
work the table of the library is neither the old nor the new one, and `z` still has the old one. -/

/-- The call that wants this written. -/
def WriteOp.Calls (l : Linker) (call : FiuCall W) : WriteOp W → Prop
  | .insert pf => call.created l = some pf ∧ pf.internal = true
  | .disable name => call = .disable name

/-- A writer that is in its call at `pc`: what is left of it brings the table to where the sequential
    call brings the sequential one, and a new point has its place. -/
structure Writes (P : Platform) (s : Shared W) (z : Fiu W) (op : WriteOp W) (c : Call ℕ)
    (pc : WritePc) : Prop where
  named : op.name.bytes ≠ []
  call : c = (op.begin z).2
  length : s.pfs.length = (op.begin z).1.pfs.length
  place : ∀ id, z.pfs.length ≤ id → s.pfs[id]? = (op.begin z).1.pfs[id]?
  finishes : ∃ t r t' u u', s.enabledFails = some t ∧ Finishes P c pc t r t' ∧
    z.enabledFails = some u ∧ wtableStep P u c = some (.bool r, u') ∧
    u'.toUncachedWtable = t'.toUncachedWtable

/-- Where thread `i` is, its client of the sequential library is at `φ`. -/
def Thread.Refines (P : Platform) (l : Linker) (i : ℕ) (s : Shared W) (z : Fiu W)
    (φ : Phase (FiuCall W) ℤ) : Thread W → Prop
  | .idle => φ = .idle
  | .rlock caller name | .testTable caller name | .get caller name _ =>
    caller.recCount = 0 ∧ φ = .called (.fail caller name)
  | .point caller name id pc => caller.recCount = 0 ∧ ∃ pf q, s.pfs[id]? = some pf ∧
      z.pfs[id]? = some q ∧ pc.Holds i pf q ∧ pc.Chosen P l caller pf ∧
      φ = pc.phase pf (.fail caller name)
  | .runlock result | .ret result => φ = .done result
  | .wlock op => ∃ call, op.Calls l call ∧ φ = .called call
  | .write c pc => ∃ op call, op.Calls l call ∧ φ = .called call ∧ Writes P s z op c pc

/-- The sequential library: it has done what the history says was written; and whenever nobody writes,
    it has the same table, but for the cache, and the same points, but for what their threads are
    about to store. -/
structure Refines (P : Platform) (h : List (ℕ × Event)) (s : Shared W) (z : Fiu W) : Prop where
  table : TableHolds P h s
  valid : z.Valid P (ledgerOf h)
  uncached : s.enabledFailsLock.writer = none →
    s.enabledFails.map (·.toUncachedWtable) = z.enabledFails.map (·.toUncachedWtable)
  length : s.enabledFailsLock.writer = none → s.pfs.length = z.pfs.length
  points : ∀ (id : ℕ) (q : PfInfo W), z.pfs[id]? = some q → ∃ pf, s.pfs[id]? = some pf ∧ pf.Matches q
  internal : ∀ (id : ℕ) (pf : PfInfo W), s.pfs[id]? = some pf → pf.internal = true
  failinfo : s.lastFailinfo = z.lastFailinfo

/-- A thread that takes no step: what it needs of the points, or of the table. -/
theorem Thread.Refines.frame {j : ℕ} {s s' : Shared W} {z z' : Fiu W} {ψ : Phase (FiuCall W) ℤ}
    {th : Thread W} (h : th.Refines P l j s z ψ)
    (hpoint : th.reads = true → ∀ (id : ℕ) (pf q : PfInfo W) (pc : PointPc), s.pfs[id]? = some pf →
      z.pfs[id]? = some q → pc.Holds j pf q → ∃ pf' q', s'.pfs[id]? = some pf' ∧
        z'.pfs[id]? = some q' ∧ pc.Holds j pf' q' ∧ pf'.failnum = pf.failnum ∧
        pf'.method = pf.method)
    (hwrite : th.writes = true → s'.enabledFails = s.enabledFails ∧ s'.pfs = s.pfs ∧
      z'.enabledFails = z.enabledFails ∧ z'.pfs = z.pfs) : th.Refines P l j s' z' ψ := by
  cases th with
  | point caller name id pc =>
    obtain ⟨hrec, pf, q, hpf, hq, hpc, hchosen, hφ⟩ := h
    obtain ⟨pf', q', hpf', hq', hpc', hfailnum, hmethod⟩ := hpoint rfl id pf q pc hpf hq hpc
    refine ⟨hrec, pf', q', hpf', hq', hpc', ?_, ?_⟩
    · cases pc with
      | randdStore | randdLoad => exact hmethod.trans hchosen
      | callback =>
        show pf'.internal = false
        rw [PfInfo.internal, hmethod]
        exact hchosen
      | exitFail =>
        obtain ⟨xn, hxn⟩ := hchosen
        exact ⟨xn, by rw [hmethod]; exact hxn⟩
      | _ => trivial
    · cases pc with
      | readFailnum =>
        rw [hφ, PointPc.phase, PointPc.phase, hfailnum]
      | _ => exact hφ
  | write c pc =>
    obtain ⟨op, call, hop, hφ, hwrites⟩ := h
    obtain ⟨htable, hpfs, hztable, hzpfs⟩ := hwrite rfl
    have hbegin : (op.begin z').2 = (op.begin z).2 ∧ (op.begin z').1.pfs = (op.begin z).1.pfs := by
      cases op with
      | insert pf =>
        refine ⟨?_, congrArg (· ++ [pf]) hzpfs⟩
        show Call.set pf.name z'.pfs.length = .set pf.name z.pfs.length
        rw [hzpfs]
      | disable name => exact ⟨rfl, hzpfs⟩
    refine ⟨op, call, hop, hφ, hwrites.named, hwrites.call.trans hbegin.1.symm, ?_, fun id hid => ?_, ?_⟩
    · rw [hpfs, hbegin.2]
      exact hwrites.length
    · rw [hzpfs] at hid
      rw [hpfs, hbegin.2]
      exact hwrites.place id hid
    · rw [htable, hztable]
      exact hwrites.finishes
  | _ => exact h

section own

variable {h : List (ℕ × Event)} {i : ℕ} {a : Choice W} {s s' : Shared W} {z : Fiu W}
  {th th' : Thread W} {e : Event}

/-- A step that is nothing for the sequential library. -/
theorem Refines.keep (hI : Refines P h s z) (hT : TableHolds P (h ++ [(i, e)]) s')
    (he : ∀ call, e ≠ .wrote call)
    (hfree : s'.enabledFailsLock.writer = none → s.enabledFailsLock.writer = none ∧
      s'.enabledFails.map (·.toUncachedWtable) = s.enabledFails.map (·.toUncachedWtable) ∧
      s'.pfs.length = s.pfs.length)
    (hold : ∀ id, id < z.pfs.length → s'.pfs[id]? = s.pfs[id]?)
    (hint : ∀ (id : ℕ) (pf : PfInfo W), s'.pfs[id]? = some pf → pf.internal = true)
    (hinfo : s'.lastFailinfo = s.lastFailinfo) : Refines P (h ++ [(i, e)]) s' z where
  table := hT
  valid := by
    rw [ledgerOf_other h he]
    exact hI.valid
  uncached hw := by
    obtain ⟨hw, hsame, -⟩ := hfree hw
    exact hsame.trans (hI.uncached hw)
  length hw := by
    obtain ⟨hw, -, hlen⟩ := hfree hw
    exact hlen.trans (hI.length hw)
  points id q hq := by
    rw [hold id (List.getElem?_eq_some_iff.mp hq).1]
    exact hI.points id q hq
  internal := hint
  failinfo := hinfo.trans hI.failinfo

/-- What is looked up in the table is looked up in the sequential one, while nobody writes. -/
theorem Refines.lookup_eq (hI : Refines P h s z) (hw : s.enabledFailsLock.writer = none)
    {t : Wtable ℕ} (ht : s.enabledFails = some t) (name : CString) :
    z.lookup P name = uncachedGet P t.toUncachedWtable name := by
  have hsame := hI.uncached hw
  rw [ht] at hsame
  obtain ⟨u, hu, hut⟩ := Option.map_eq_some_iff.mp hsame.symm
  have hut : u.toUncachedWtable = t.toUncachedWtable := hut
  rw [Fiu.lookup, hu, ← hut]
  rfl

/-- A call that enables no callback creates none. -/
theorem FiuCall.created_internal {call : FiuCall W} {pf : PfInfo W} (hint : call.internal = true)
    (h : call.created l = some pf) : pf.internal = true := by
  have hstack : ∀ {name : CString} {failnum : ℤ} {failinfo : Addr} {flags : UInt32} {func : Addr}
      {funcPosInStack : ℤ},
      FiuCall.created.stackPoint l name failnum failinfo flags func funcPosInStack = some pf →
      pf.internal = true := by
    intro name failnum failinfo flags func funcPosInStack h
    unfold FiuCall.created.stackPoint at h
    split at h
    · cases h
    split at h
    · cases h
    split at h
    · cases h
    · cases h
      rfl
  cases call with
  | enableExternal => cases hint
  | enableStack name failnum failinfo flags func funcPosInStack => exact hstack h
  | enableStackByName name failnum failinfo flags funcName funcPosInStack =>
    simp only [FiuCall.created] at h
    split at h
    · cases h
    split at h
    · cases h
    · exact hstack h
  | fail caller name => cases h
  | disable name => cases h
  | _ =>
    cases h
    rfl

/-- **A call begins**: some are over at once. -/
theorem enter_refines {call : FiuCall W} (hint : call.internal = true) (s : Shared W) (z : Fiu W) :
    ∃ φ, Atomic.Moves (fiuAtomic P l) z .idle [.call call] z φ ∧
      (call.enter l).Refines P l i s z φ := by
  have hrefused : call.enables = true → call.created l = none →
      fiuAtomic P l z call (-1) z := by
    intro henables hnone
    refine ⟨z.randdXn, .int (-1), ?_, rfl⟩
    rw [fiuStep_created henables, hnone]
  have henable : call.enables = true →
      (call.created l = none → call.enter l = .ret (-1)) →
      (∀ pf, call.created l = some pf → call.enter l = .wlock (.insert pf)) →
      ∃ φ, Atomic.Moves (fiuAtomic P l) z .idle [.call call] z φ ∧
        (call.enter l).Refines P l i s z φ := by
    intro henables hnone hsome
    cases hcreated : call.created l with
    | none =>
      rw [hnone hcreated]
      exact ⟨.done (-1), .call call (.effect (hrefused henables hcreated) (.refl _ _)), rfl⟩
    | some pf =>
      rw [hsome pf hcreated]
      exact ⟨.called call, .call call (.refl _ _), call,
        ⟨hcreated, FiuCall.created_internal hint hcreated⟩, rfl⟩
  cases call with
  | fail caller name =>
    by_cases hrec : caller.recCount + 1 > 1
    · have hnested : fiuAtomic P l z (.fail caller name) 0 z := by
        refine ⟨z.randdXn, .fail ⟨some 0, []⟩, ?_, rfl⟩
        show Option.map _ (fiuFail P l z caller name) = _
        rw [fiuFail_nested (by omega)]
        rfl
      refine ⟨.done 0, .call _ (.effect hnested (.refl _ _)), ?_⟩
      rw [FiuCall.enter, if_pos hrec]
      rfl
    · refine ⟨.called (.fail caller name), .call _ (.refl _ _), ?_⟩
      rw [FiuCall.enter, if_neg hrec]
      exact ⟨by omega, rfl⟩
  | disable name => exact ⟨.called (.disable name), .call _ (.refl _ _), .disable name, rfl, rfl⟩
  | _ =>
    exact henable rfl (fun h => by simp only [FiuCall.enter, h]) fun pf h => by
      simp only [FiuCall.enter, h]

/-- **The lookup has found nothing**: the call takes effect. -/
theorem notFound_refines (hI : Refines P h s z) (hw : s.enabledFailsLock.writer = none)
    {t : Wtable ℕ} (ht : s.enabledFails = some t) {caller : Caller} (hrec : caller.recCount = 0)
    {name : CString} (hget : uncachedGet P t.toUncachedWtable name = some none) :
    ∃ u', fiuAtomic P l z (.fail caller name) 0 { z with enabledFails := some u' } ∧
      Refines P h s { z with enabledFails := some u' } := by
  obtain ⟨u, u', hu, hfol, hsame, hcases⟩ := fiuFail_eq (l := l) hI.valid hrec name
  have hlook := (hI.lookup_eq hw ht name).trans hget
  rcases hcases with ⟨-, hfail⟩ | ⟨id, pf, hfound, -⟩
  · refine ⟨u', ⟨z.randdXn, .fail ⟨some 0, []⟩, ?_, rfl⟩, hI.table, ?_, fun hw => ?_, hI.length, hI.points,
      hI.internal, hI.failinfo⟩
    · show Option.map _ (fiuFail P l z caller name) = _
      rw [hfail]
      rfl
    · exact ⟨⟨u', rfl, hfol⟩, hI.valid.balanced, hI.valid.named, hI.valid.nonempty⟩
    · rw [hI.uncached hw, hu]
      exact congrArg some hsame.symm
  · rw [hlook] at hfound
    cases hfound

/-- A call on the point that it finds, with the number `xn` in `randd_xn`. -/
theorem fiuFail_atomic {L : Ledger ℕ} (hz : z.Valid P L) {caller : Caller} (hrec : caller.recCount = 0)
    {name : CString} {id : ℕ} {q : PfInfo W} (hlook : z.lookup P name = some (some id))
    (hq : z.pfs[id]? = some q) {xn : UInt32} {r : ℤ}
    (hresult : (q.fail P l caller xn z.world).reply.result = some r) :
    ∃ z', fiuAtomic P l z (.fail caller name) r z' ∧ z'.Valid P L ∧
      z'.enabledFails.map (·.toUncachedWtable) = z.enabledFails.map (·.toUncachedWtable) ∧
      z'.pfs = z.pfs.set id (q.fail P l caller xn z.world).pf ∧
      z'.lastFailinfo
        = storeFailinfo z.lastFailinfo caller (q.fail P l caller xn z.world).failinfo := by
  have hvalid : Fiu.Valid P { z with randdXn := xn } L :=
    ⟨hz.table, hz.balanced, hz.named, hz.nonempty⟩
  obtain ⟨u, u', hu, hfol, hsame, ⟨hnot, -⟩ | ⟨id', q', hfound, hq', hfiu⟩⟩ :=
    fiuFail_eq (l := l) hvalid hrec name
  · have hnot : z.lookup P name = some none := hnot
    rw [hlook] at hnot
    cases hnot
  · have hfound : z.lookup P name = some (some id') := hfound
    rw [hlook] at hfound
    cases hfound
    obtain rfl : q = q' := Option.some.inj (hq.symm.trans hq')
    refine ⟨Fiu.afterFail { z with randdXn := xn } u' caller id (q.fail P l caller xn z.world),
      ⟨xn, .fail (q.fail P l caller xn z.world).reply, ?_, hresult⟩, ?_, ?_, rfl, ?_⟩
    · show Option.map _ (fiuFail P l { z with randdXn := xn } caller name) = _
      rw [hfiu]
      rfl
    · exact hvalid.afterFail hfol caller hq (PfInfo.fail_name caller q xn z.world)
    · have hu : z.enabledFails = some u := hu
      rw [hu]
      exact congrArg some hsame
    · unfold Fiu.afterFail storeFailinfo
      cases (q.fail P l caller xn z.world).failinfo <;> rfl

/-- The points of both libraries after a step on one of them. -/
theorem Refines.set {z' : Fiu W} (hI : Refines P h s z) (hT : TableHolds P (h ++ [(i, e)]) s')
    (he : ∀ call, e ≠ .wrote call) {id : ℕ} {pf pf' q q' : PfInfo W} (hpf : s.pfs[id]? = some pf)
    (hlock : s'.enabledFailsLock = s.enabledFailsLock)
    (htable : s'.enabledFails = s.enabledFails) (hpfs : s'.pfs = s.pfs.set id pf')
    (hvalid : z'.Valid P (ledgerOf h))
    (hsame : z'.enabledFails.map (·.toUncachedWtable) = z.enabledFails.map (·.toUncachedWtable))
    (hq : z.pfs[id]? = some q) (hqs : z'.pfs = z.pfs.set id q') (hmatch : pf'.Matches q')
    (hint : pf'.internal = true) (hinfo : s'.lastFailinfo = z'.lastFailinfo) :
    Refines P (h ++ [(i, e)]) s' z' where
  table := hT
  valid := by
    rw [ledgerOf_other h he]
    exact hvalid
  uncached hw := by
    rw [htable, hsame]
    exact hI.uncached (hlock ▸ hw)
  length hw := by
    rw [hpfs, hqs, List.length_set, List.length_set]
    exact hI.length (hlock ▸ hw)
  points id' q₁ hq₁ := by
    rw [hqs] at hq₁
    rw [hpfs]
    by_cases hid : id = id'
    · subst hid
      rw [List.getElem?_set_self (List.getElem?_eq_some_iff.mp hq).1] at hq₁
      cases hq₁
      exact ⟨pf', List.getElem?_set_self (List.getElem?_eq_some_iff.mp hpf).1, hmatch⟩
    · rw [List.getElem?_set_ne hid] at hq₁ ⊢
      exact hI.points id' q₁ hq₁
  internal id' pf₁ hpf₁ := by
    rw [hpfs] at hpf₁
    by_cases hid : id = id'
    · subst hid
      rw [List.getElem?_set_self (List.getElem?_eq_some_iff.mp hpf).1] at hpf₁
      cases hpf₁
      exact hint
    · rw [List.getElem?_set_ne hid] at hpf₁
      exact hI.internal id' pf₁ hpf₁
  failinfo := hinfo

/-- What the sequential library and the other threads are after a step of thread `i`. -/
def Answered (P : Platform) (l : Linker) (i : ℕ) (h : List (ℕ × Event)) (a : Choice W) (e : Event)
    (s s' : Shared W) (z : Fiu W) (φ : Phase (FiuCall W) ℤ) (th' : Thread W) : Prop :=
  ∃ z' φ', Atomic.Moves (fiuAtomic P l) z φ (seen a e) z' φ' ∧ Refines P (h ++ [(i, e)]) s' z' ∧
    th'.Refines P l i s' z' φ' ∧ ∀ (j : ℕ) (thj : Thread W) (ψ : Phase (FiuCall W) ℤ), i ≠ j →
      HoldsLock j s thj → thj.Refines P l j s z ψ → thj.Refines P l j s' z' ψ

/-- **A step on the point** that was found. -/
theorem point_refines (hI : Refines P h s z) (hlock : HoldsLock i s th) {t : Wtable ℕ}
    (ht : s.enabledFails = some t) {caller : Caller} {name : CString} {id : ℕ} {pc pc' : PointPc}
    (hth : th = .point caller name id pc)
    (hget : uncachedGet P t.toUncachedWtable name = some (some id)) {φ : Phase (FiuCall W) ℤ}
    (hJ : th.Refines P l i s z φ) {s₁ : Fiu W}
    (hstep : pointStep P l i caller id a s.toFiu pc = some (e, s₁, pc'))
    (hT : TableHolds P (h ++ [(i, e)]) { s₁ with enabledFailsLock := s.enabledFailsLock }) :
    Answered P l i h a e s { s₁ with enabledFailsLock := s.enabledFailsLock } z φ
      (.point caller name id pc') := by
  subst hth
  have hw := hlock.no_writer rfl
  obtain ⟨hrec, pf, q, hpf, hq, hpc, hchosen, rfl⟩ := hJ
  obtain ⟨pf₀, pf', hderef, hm, htable, hpfs⟩ := pointStep_moves hstep
  obtain rfl : pf = pf₀ := Option.some.inj (hpf.symm.trans (Fiu.deref_eq_some hderef))
  have hint := hI.internal id pf hpf
  have hmatch : pf.Matches q := by
    obtain ⟨pf₁, hpf₁, hmatch⟩ := hI.points id q hq
    rw [hpf] at hpf₁
    cases hpf₁
    exact hmatch
  obtain ⟨hchosen', hpass, hinfo, hseen⟩ := pointStep_chosen hstep hderef hint hchosen
  obtain ⟨q', hmatch', hpc', hq', hcases⟩ :=
    hm.refines (.fail caller name) hint hmatch hpc hchosen hpass
  obtain ⟨hfailnum, hmethod, -⟩ := hm.keeps hint hchosen
  have hint' : pf'.internal = true := by
    rw [PfInfo.internal, hmethod]
    exact hint
  have he : ∀ call, e ≠ .wrote call := by
    intro call he
    subst he
    cases hm
  have hself : s₁.pfs[id]? = some pf' := by
    rw [hpfs]
    exact List.getElem?_set_self (List.getElem?_eq_some_iff.mp hpf).1
  have hqself : (z.pfs.set id q')[id]? = some q' :=
    List.getElem?_set_self (List.getElem?_eq_some_iff.mp hq).1
  -- the sequential library has done nothing, or the call
  obtain ⟨z', hmoves, hvalid, hsame, hqs, hlast⟩ : ∃ z', Atomic.Moves (fiuAtomic P l) z
      (pc.phase pf (.fail caller name)) [] z' (pc'.phase pf' (.fail caller name)) ∧
      z'.Valid P (ledgerOf h) ∧
      z'.enabledFails.map (·.toUncachedWtable) = z.enabledFails.map (·.toUncachedWtable) ∧
      z'.pfs = z.pfs.set id q' ∧
      z'.lastFailinfo = storeFailinfo z.lastFailinfo caller (pc.failinfo pf) := by
    rcases hcases with ⟨rfl, hphase, hnone⟩ | ⟨xn, r, hcalled, hdone, hfail⟩
    · refine ⟨z, ?_, hI.valid, rfl, (set_getElem?_self hq).symm, ?_⟩
      · rw [hphase]
        exact .refl _ _
      · rw [hnone]
        rfl
    · obtain ⟨hresult, hcallpf, hcallinfo⟩ := hfail z.world
      obtain ⟨z', hatomic, hvalid, hsame, hqs, hlast⟩ := fiuFail_atomic hI.valid hrec
        ((hI.lookup_eq hw ht name).trans hget) hq hresult
      rw [hcallpf] at hqs
      rw [hcallinfo] at hlast
      rw [hcalled, hdone]
      exact ⟨z', .effect hatomic (.refl _ _), hvalid, hsame, hqs, hlast⟩
  refine ⟨z', _, by rw [hseen]; exact hmoves, ?_, ⟨hrec, pf', q', hself, ?_, hpc', ?_, rfl⟩, ?_⟩
  · refine hI.set hT he hpf rfl htable hpfs hvalid hsame hq hqs hmatch' hint' ?_
    rw [hlast, ← hI.failinfo]
    exact hinfo
  · rw [hqs]
    exact hqself
  · cases pc' with
    | randdStore | randdLoad => exact hmethod.trans hchosen'
    | callback =>
      have hext : pf.internal = false := hchosen'
      rw [hint] at hext
      cases hext
    | exitFail =>
      obtain ⟨xn, hxn⟩ := hchosen'
      exact ⟨xn, by rw [hmethod]; exact hxn⟩
    | _ => trivial
  · intro j thj ψ hne hj hJj
    refine hJj.frame (fun _ id' pf₁ q₁ pcj hpf₁ hq₁ hpcj => ?_) fun hwrites => ?_
    · by_cases hid : id = id'
      · subst hid
        rw [hpf] at hpf₁
        rw [hq] at hq₁
        cases hpf₁
        cases hq₁
        exact ⟨pf', q', hself, by rw [hqs]; exact hqself,
          hm.refines_other hint hchosen hmatch hpc hne hq' hpcj, hfailnum, hmethod⟩
      · refine ⟨pf₁, q₁, ?_, ?_, hpcj, rfl, rfl⟩
        · show s₁.pfs[id']? = some pf₁
          rw [hpfs, List.getElem?_set_ne hid]
          exact hpf₁
        · rw [hqs, List.getElem?_set_ne hid]
          exact hq₁
    · -- thread `i` is a reader
      rw [hj.writer.mpr hwrites] at hw
      cases hw

/-! ### Writers

A call that writes creates its point before it has the lock, and takes effect when it gives the lock
back. So between the two `z` stays as it is. -/

/-- **A writer takes the lock**: nothing yet, for the sequential library. -/
theorem begin_refines (hI : Refines P h s z) {op : WriteOp W} (hname : op.name.bytes ≠ [])
    {call : FiuCall W} (hcalls : op.Calls l call) {k : RwLock ℕ}
    (hk : s.enabledFailsLock.wrlock i = some k)
    (hT : TableHolds P (h ++ [(i, .internal)])
      { (op.begin s.toFiu).1 with enabledFailsLock := k }) :
    Refines P (h ++ [(i, .internal)]) { (op.begin s.toFiu).1 with enabledFailsLock := k } z ∧
      Writes P { (op.begin s.toFiu).1 with enabledFailsLock := k } z op (op.begin s.toFiu).2
        .start := by
  obtain ⟨hw, -, hk', -⟩ := RwLock.wrlock_eq_some hk
  -- nobody writes, so both sides have the same points, and a new one gets the same number
  have hlen := hI.length hw
  have hcall : (op.begin s.toFiu).2 = (op.begin z).2 := by
    cases op with
    | insert pf => exact congrArg (Call.set pf.name) hlen
    | disable name => rfl
  constructor
  · refine hI.keep hT (fun call he => by cases he) (fun hfree => ?_) (fun id hid => ?_) ?_ ?_
    · have hfree : k.writer = none := hfree
      rw [hk'] at hfree
      cases hfree
    · cases op with
      | insert pf => exact List.getElem?_append_left (hlen ▸ hid)
      | disable name => rfl
    · intro id pf' hpf'
      cases op with
      | insert pf =>
        have hmem : pf' ∈ s.pfs ++ [pf] := List.mem_of_getElem? hpf'
        rcases List.mem_append.mp hmem with hold | hnew
        · obtain ⟨id', hid'⟩ := List.mem_iff_getElem?.mp hold
          exact hI.internal id' pf' hid'
        · rw [List.mem_singleton.mp hnew]
          exact hcalls.2
      | disable name => exact hI.internal id pf' hpf'
    · cases op <;> rfl
  · -- both tables take the same call
    obtain ⟨t, ht, hfol⟩ := hI.table.table
    obtain ⟨u, hu, hufol⟩ := hI.valid.table
    have hsame : t.toUncachedWtable = u.toUncachedWtable := by
      have h := hI.uncached hw
      rw [ht, hu] at h
      exact Option.some.inj h
    have hkey : (op.begin s.toFiu).2.key.bytes ≠ [] := by
      cases op <;> exact hname
    obtain ⟨ws, hws, -⟩ := (hfol hw).holds.uncached.array
    obtain ⟨t', hstep, hstep', -⟩ := wtableStep_spec (hfol hw).holds hws _ hkey
    have hwsu : u.toUncachedWtable.WF ws := hsame ▸ hws
    obtain ⟨u', hustep, hustep', -⟩ := wtableStep_spec hufol.holds hwsu _ hkey
    rw [hsame, hustep'] at hstep'
    have hsame' := (Prod.mk.inj (Option.some.inj hstep')).2
    refine ⟨hname, hcall, ?_, fun id hid => ?_, ?_⟩
    · cases op with
      | insert pf =>
        show (s.pfs ++ [pf]).length = (z.pfs ++ [pf]).length
        rw [List.length_append, List.length_append, hlen]
      | disable name => exact hlen
    · cases op with
      | insert pf =>
        show (s.pfs ++ [pf])[id]? = (z.pfs ++ [pf])[id]?
        rw [List.getElem?_append_right (hlen ▸ hid), List.getElem?_append_right hid, hlen]
      | disable name =>
        show s.pfs[id]? = z.pfs[id]?
        rw [List.getElem?_eq_none_iff.mpr hid, List.getElem?_eq_none_iff.mpr (hlen ▸ hid)]
    · cases op with
      | insert pf =>
        have hset : wtableSet P .ok t pf.name (some s.pfs.length) = some (true, t') := by
          obtain ⟨⟨b, t₁⟩, hset, he⟩ := Option.map_eq_some_iff.mp hstep
          cases he
          exact hset
        exact ⟨t, true, t', u, u', ht, finishes_set hset, hu, hustep, hsame'⟩
      | disable name =>
        have hdel : wtableDel P .ok t name = some (((ledgerOf h).map name).isSome, t') := by
          obtain ⟨⟨b, t₁⟩, hdel, he⟩ := Option.map_eq_some_iff.mp hstep
          cases he
          exact hdel
        exact ⟨t, _, t', u, u', ht, finishes_del hdel, hu, hustep, hsame'⟩

/-- The call of the sequential library. -/
theorem fiuAtomic_write {L : Ledger ℕ} (hz : z.Valid P L) {op : WriteOp W} {call : FiuCall W}
    (hcalls : op.Calls l call) (hname : op.name.bytes ≠ []) {u u' : Wtable ℕ} {r : Bool}
    (hu : z.enabledFails = some u) (hstep : wtableStep P u (op.begin z).2 = some (.bool r, u')) :
    fiuAtomic P l z call (if r then 0 else -1) { (op.begin z).1 with enabledFails := some u' } ∧
      Fiu.Valid P { (op.begin z).1 with enabledFails := some u' } (L.next (op.begin z).2) := by
  cases op with
  | insert pf =>
    have hset : wtableSet P .ok u pf.name (some z.pfs.length) = some (r, u') := by
      obtain ⟨⟨b, u₁⟩, hset, he⟩ := Option.map_eq_some_iff.mp hstep
      cases he
      exact hset
    have hname : pf.name.bytes ≠ [] := hname
    have hinsert : insertPf P z pf = some (if r then 0 else -1,
        { z with enabledFails := some u', pfs := z.pfs ++ [pf] }) := by
      simp [insertPf, hu, hset]
    obtain ⟨u₂, hinsert', hvalid⟩ := insertPf_eq (P := P) hz hname
    rw [hinsert] at hinsert'
    have hfst := (Prod.mk.inj (Option.some.inj hinsert')).1
    have hsnd := (Prod.mk.inj (Option.some.inj hinsert')).2
    have henables : call.enables = true := by
      cases call with
      | fail | disable => cases hcalls.1
      | _ => rfl
    refine ⟨⟨z.randdXn, .int (if r then 0 else -1), ?_, rfl⟩, ?_⟩
    · show fiuStep P l z call = _
      rw [fiuStep_created henables, hcalls.1]
      show Option.map _ (insertPf P z pf) = _
      rw [hinsert]
      rfl
    · show Fiu.Valid P { z with enabledFails := some u', pfs := z.pfs ++ [pf] } _
      rw [hsnd]
      exact hvalid
  | disable name =>
    obtain rfl : call = .disable name := hcalls
    have hdel : wtableDel P .ok u name = some (r, u') := by
      obtain ⟨⟨b, u₁⟩, hdel, he⟩ := Option.map_eq_some_iff.mp hstep
      cases he
      exact hdel
    have hname : name.bytes ≠ [] := hname
    have hdisable : fiuDisable P z name = some (if r then 0 else -1,
        { z with enabledFails := some u' }) := by
      simp [fiuDisable, hu, hdel]
    obtain ⟨u₂, hdisable', hvalid⟩ := fiuDisable_eq (P := P) hz hname
    rw [hdisable] at hdisable'
    have hsnd := (Prod.mk.inj (Option.some.inj hdisable')).2
    refine ⟨⟨z.randdXn, .int (if r then 0 else -1), ?_, rfl⟩, ?_⟩
    · show Option.map _ (fiuDisable P z name) = _
      rw [hdisable]
      rfl
    · show Fiu.Valid P { z with enabledFails := some u' } _
      rw [hsnd]
      exact hvalid

/-- **A writer gives back the lock**: the call takes effect. -/
theorem wrote_refines (hI : Refines P h s z) {op : WriteOp W} {call : FiuCall W} {c : Call ℕ} {r : Bool}
    (hcalls : op.Calls l call) (hwrites : Writes P s z op c (.done r)) {k : RwLock ℕ}
    (hT : TableHolds P (h ++ [(i, .wrote c)]) { s with enabledFailsLock := k }) :
    ∃ z', fiuAtomic P l z call (if r then 0 else -1) z' ∧
      Refines P (h ++ [(i, .wrote c)]) { s with enabledFailsLock := k } z' := by
  obtain ⟨t, r', t', u, u', ht, hfin, hu, hstep, hsame⟩ := hwrites.finishes
  obtain ⟨rfl, rfl⟩ := hfin.of_done
  have hc := hwrites.call
  subst hc
  obtain ⟨hatomic, hvalid⟩ := fiuAtomic_write hI.valid hcalls hwrites.named hu hstep
  refine ⟨_, hatomic, hT, ?_, fun _ => ?_, fun _ => hwrites.length, fun id q hq => ?_, hI.internal, ?_⟩
  · rw [ledgerOf_wrote]
    exact hvalid
  · show s.enabledFails.map _ = _
    rw [ht]
    exact congrArg some hsame.symm
  · by_cases hid : id < z.pfs.length
    · have hq' : z.pfs[id]? = some q := by
        cases op with
        | insert pf =>
          have hq : (z.pfs ++ [pf])[id]? = some q := hq
          rwa [List.getElem?_append_left hid] at hq
        | disable name => exact hq
      exact hI.points id q hq'
    · -- the new one
      have hplace := hwrites.place id (by omega)
      have hq : (op.begin z).1.pfs[id]? = some q := hq
      refine ⟨q, hplace.trans hq, ?_⟩
      cases op with
      | insert pf =>
        have hq : (z.pfs ++ [pf])[id]? = some q := hq
        rw [List.getElem?_append_right (by omega)] at hq
        obtain rfl : pf = q := List.mem_singleton.mp (List.mem_of_getElem? hq) |>.symm
        obtain ⟨-, hlock, -⟩ := FiuCall.created_eq_some hcalls.1
        refine ⟨?_, fun _ => rfl, fun _ => hlock⟩
        rw [← hlock]
      | disable name =>
        have hq : z.pfs[id]? = some q := hq
        rw [List.getElem?_eq_none_iff.mpr (by omega)] at hq
        cases hq
  · rw [hI.failinfo]
    cases op <;> rfl

/-! ## The simulation

Every step is answered by the object: by nothing, or by one operation, and then it is the one that
the call of this thread asked for. -/

/-- The steps of a thread on a point are those of `pointStep`. -/
theorem threadStep_point {caller : Caller} {name : CString} {id : ℕ} {pc pc' : PointPc}
    (h : threadStep P l i a s (.point caller name id pc) = some (e, s', .point caller name id pc')) :
    ∃ s₁, pointStep P l i caller id a s.toFiu pc = some (e, s₁, pc') ∧
      s' = { s₁ with enabledFailsLock := s.enabledFailsLock } := by
  have hbind : ((pointStep P l i caller id a s.toFiu pc).bind fun r =>
      (some (r.1, { r.2.1 with enabledFailsLock := s.enabledFailsLock }, .point caller name id r.2.2) :
        Option (Event × Shared W × Thread W))) = some (e, s', .point caller name id pc') := by
    cases pc with
    | done result =>
      cases a with
      | next => cases h
      | _ => exact h
    | _ => exact h
  obtain ⟨⟨e₁, s₁, pc₁⟩, hstep, h⟩ := Option.bind_eq_some_iff.mp hbind
  cases h
  exact ⟨s₁, hstep, rfl⟩

/-- The threads call the library with names, and enable no point with a callback. -/
def CallsInternal (_ : ℕ) (a : Choice W) (_ : Shared W) (_ : Thread W) : Prop :=
  ∀ call, a = .call call → call.name.bytes ≠ [] ∧ call.internal = true

/-- A step that nobody who holds a lock notices. -/
theorem answered_silent {φ φ' : Phase (FiuCall W) ℤ}
    (hmoves : Atomic.Moves (fiuAtomic P l) z φ (seen a e) z φ') (hR : Refines P (h ++ [(i, e)]) s' z)
    (hth' : th'.Refines P l i s' z φ') (hpfs : s'.pfs = s.pfs)
    (htable : th.writes = false → th.reads = false → s'.enabledFails = s.enabledFails)
    (hlock : HoldsLock i s th) : Answered P l i h a e s s' z φ th' := by
  refine ⟨z, φ', hmoves, hR, hth', fun j thj ψ hne hj hJj => ?_⟩
  refine hJj.frame (fun _ id pf q pc hpf hq hpc => ?_) fun hwrites => ?_
  · exact ⟨pf, q, by rw [hpfs]; exact hpf, hq, hpc, rfl, rfl⟩
  · -- a writer is alone
    have hw : th.writes = false := by
      apply hlock.not_writes
      rw [hj.writer.mpr hwrites]
      exact fun h => hne (Option.some.inj h).symm
    have hr : th.reads = false := hlock.not_reads (hj.no_readers hwrites)
    exact ⟨htable hw hr, hpfs, rfl, rfl⟩

/-- A step of a writer: nobody else holds the lock. -/
theorem answered_alone {φ φ' : Phase (FiuCall W) ℤ} {z' : Fiu W}
    (hmoves : Atomic.Moves (fiuAtomic P l) z φ (seen a e) z' φ')
    (hR : Refines P (h ++ [(i, e)]) s' z') (hth' : th'.Refines P l i s' z' φ')
    (halone : ∀ j thj, i ≠ j → HoldsLock j s thj → thj.reads = false ∧ thj.writes = false) :
    Answered P l i h a e s s' z φ th' := by
  refine ⟨z', φ', hmoves, hR, hth', fun j thj ψ hne hj hJj => ?_⟩
  obtain ⟨hr, hw⟩ := halone j thj hne hj
  refine hJj.frame (fun hreads => ?_) fun hwrites => ?_
  · rw [hr] at hreads
    cases hreads
  · rw [hw] at hwrites
    cases hwrites

/-- **Each step** of a thread is answered. -/
theorem threadStep_answered (hI : Refines P h s z) (hlock : HoldsLock i s th)
    (hassert : th.Asserts P h s) {φ : Phase (FiuCall W) ℤ} (hJ : th.Refines P l i s z φ)
    (hcalls : CallsInternal i a s th) (hact : threadStep P l i a s th = some (e, s', th')) :
    Answered P l i h a e s s' z φ th' := by
  have hm := threadStep_moves hact
  have hT := tableHolds_move hI.table hlock hassert hm
  have hwriting : th.writes = true → ∀ j thj, i ≠ j → HoldsLock j s thj →
      thj.reads = false ∧ thj.writes = false := by
    intro hwrites j thj hne hj
    refine ⟨hj.not_reads (hlock.no_readers hwrites), hj.not_writes ?_⟩
    rw [hlock.writer.mpr hwrites]
    exact fun h => hne (Option.some.inj h)
  have hinternal : ∀ call, Event.internal ≠ .wrote call := fun call he => by cases he
  cases hm with
  | enter call =>
    obtain ⟨φ', hmoves, hth'⟩ := enter_refines (i := i) (hcalls call rfl).2 s z
    have hφ : φ = .idle := hJ
    rw [hφ]
    exact answered_silent hmoves (hI.keep hT hinternal (fun hw => ⟨hw, rfl, rfl⟩) (fun _ _ => rfl)
      hI.internal rfl) hth' rfl (fun _ _ => rfl) hlock
  | rdlock hk =>
    exact answered_silent (.refl _ _) (hI.keep hT hinternal
      (fun _ => ⟨(RwLock.rdlock_eq_some hk).1, rfl, rfl⟩) (fun _ _ => rfl) hI.internal rfl) hJ rfl
      (fun _ _ => rfl) hlock
  | @testTable caller name =>
    obtain ⟨t, ht, -⟩ := hI.table.table
    have hth' : Thread.Refines P l i s z φ
        (if s.enabledFails.isNone then .runlock 0 else .get caller name .start) := by
      rw [ht]
      exact hJ
    exact answered_silent (.refl _ _) (hI.keep hT hinternal (fun hw => ⟨hw, rfl, rfl⟩) (fun _ _ => rfl)
      hI.internal rfl) hth' rfl (fun _ _ => rfl) hlock
  | get ht hstep =>
    refine answered_silent (.refl _ _) (hI.keep hT hinternal (fun hw => ⟨hw, ?_, rfl⟩) (fun _ _ => rfl)
      hI.internal rfl) hJ rfl (fun _ hr => by cases hr) hlock
    show Option.map _ (some _) = _
    rw [ht]
    exact congrArg some (Moves.getStep_uncached hstep)
  | notFound =>
    obtain ⟨t, ht, hget⟩ := hassert
    obtain ⟨hrec, rfl⟩ := hJ
    obtain ⟨u', hatomic, hR⟩ := notFound_refines (l := l) hI (hlock.no_writer rfl) ht hrec hget
    refine ⟨_, _, .effect hatomic (.refl _ _), ?_, rfl, fun j thj ψ hne hj hJj => ?_⟩
    · exact hR.keep hT hinternal (fun hw => ⟨hw, rfl, rfl⟩) (fun _ _ => rfl) hR.internal rfl
    · refine hJj.frame (fun _ id pf q pc hpf hq hpc => ⟨pf, q, hpf, hq, hpc, rfl, rfl⟩) fun hwrites => ?_
      have hw := hlock.no_writer rfl
      rw [hj.writer.mpr hwrites] at hw
      cases hw
  | @found caller name id =>
    obtain ⟨t, ht, hget⟩ := hassert
    obtain ⟨hrec, rfl⟩ := hJ
    -- the point is there
    obtain ⟨q, hq⟩ : ∃ q, z.pfs[id]? = some q := by
      obtain ⟨u, u', -, -, -, ⟨hnot, -⟩ | ⟨id', q, hfound, hq, -⟩⟩ :=
        fiuFail_eq (l := l) hI.valid hrec name
      · rw [hI.lookup_eq (hlock.no_writer rfl) ht, hget] at hnot
        cases hnot
      · rw [hI.lookup_eq (hlock.no_writer rfl) ht, hget] at hfound
        cases hfound
        exact ⟨q, hq⟩
    obtain ⟨pf, hpf, -⟩ := hI.points id q hq
    exact answered_silent (.refl _ _) (hI.keep hT hinternal (fun hw => ⟨hw, rfl, rfl⟩) (fun _ _ => rfl)
      hI.internal rfl) ⟨hrec, pf, q, hpf, hq, trivial, trivial, rfl⟩ rfl (fun _ _ => rfl) hlock
  | point hpf hmove htable hpfs =>
    obtain ⟨s₁, hstep, hs⟩ := threadStep_point hact
    rw [hs] at hT ⊢
    obtain ⟨t, ht, hget⟩ := hassert
    exact point_refines hI hlock ht rfl hget hJ hstep hT
  | pointDone =>
    obtain ⟨-, pf, q, -, -, -, -, hφ⟩ := hJ
    exact answered_silent (.refl _ _) (hI.keep hT hinternal (fun hw => ⟨hw, rfl, rfl⟩) (fun _ _ => rfl)
      hI.internal rfl) hφ rfl (fun _ _ => rfl) hlock
  | runlock =>
    exact answered_silent (.refl _ _) (hI.keep hT hinternal (fun _ => ⟨hlock.no_writer rfl, rfl, rfl⟩)
      (fun _ _ => rfl) hI.internal rfl) hJ rfl (fun _ _ => rfl) hlock
  | wrlock hk =>
    obtain ⟨call, hop, hφ⟩ := hJ
    obtain ⟨hR, hwrites⟩ := begin_refines hI hassert hop hk hT
    refine answered_alone (.refl _ _) hR ⟨_, call, hop, hφ, hwrites⟩ fun j thj hne hj => ?_
    obtain ⟨hw, hr, -⟩ := RwLock.wrlock_eq_some hk
    refine ⟨hj.not_reads hr, hj.not_writes ?_⟩
    rw [hw]
    exact fun h => by cases h
  | write ht hstep =>
    obtain ⟨op, call, hop, hφ, hwrites⟩ := hJ
    obtain ⟨t₀, r, t', u, u', ht₀, hfin, hfinish⟩ := hwrites.finishes
    rw [ht] at ht₀
    cases ht₀
    refine answered_alone (.refl _ _) (hI.keep hT hinternal (fun hw => ?_) (fun _ _ => rfl) hI.internal
      rfl) ⟨op, call, hop, hφ, hwrites.named, hwrites.call, hwrites.length, hwrites.place,
      ⟨_, r, t', u, u', rfl, hfin.after hstep, hfinish⟩⟩ (hwriting rfl)
    have hw : s.enabledFailsLock.writer = none := hw
    rw [hlock.writer.mpr rfl] at hw
    cases hw
  | wrote =>
    obtain ⟨op, call, hop, rfl, hwrites⟩ := hJ
    obtain ⟨z', hatomic, hR⟩ := wrote_refines (l := l) hI hop hwrites hT
    exact answered_alone (.effect hatomic (.refl _ _)) hR rfl (hwriting rfl)
  | @ret result =>
    have hφ : φ = .done result := hJ
    rw [hφ]
    exact answered_silent (.ret result (.refl _ _)) (hI.keep hT (fun call he => by cases he)
      (fun hw => ⟨hw, rfl, rfl⟩) (fun _ _ => rfl) hI.internal rfl) rfl rfl (fun _ _ => rfl) hlock

end own

/-- The threads implement the atomic object. -/
theorem threads_simulate : Simulates (threadStep (W := W) P l) (fiuAtomic P l) seen CallsInternal
    (Refines P) (fun i h s z th φ => (HoldsLock i s th ∧ th.Asserts P h s) ∧ th.Refines P l i s z φ) := by
  rintro h i a s s' th th' e z φ hI ⟨⟨hlock, hassert⟩, hJ⟩ hcalls hact
  obtain ⟨z', φ', hmoves, hR, hth', hothers⟩ := threadStep_answered hI hlock hassert hJ hcalls hact
  have hm := threadStep_moves hact
  refine ⟨z', φ', hmoves, hR, ⟨⟨hlock.move hm, ?_⟩, hth'⟩, ?_⟩
  · exact asserts_move hI.table hlock hassert (fun call ha => (hcalls call ha).1) hm
  · rintro j thj ψ hne ⟨⟨hj, hassertj⟩, hJj⟩
    exact ⟨⟨hj.of_same (hm.lock_same hne), asserts_other hne hlock hj hassertj hm⟩,
      hothers j thj ψ hne hj hJj⟩

/-- Both begin with an empty table. -/
theorem refines_start (world : W) (garbage : ℕ) (seed : UInt32) :
    Refines P [] (threadsStart world garbage seed).shared (initialized world garbage seed) where
  table := tableHolds_start world garbage seed
  valid := fiuInit_valid world garbage seed
  uncached _ := rfl
  length _ := rfl
  points id q hq := by cases hq
  internal id pf hpf := by cases hpf
  failinfo := rfl

/-! ## Without random points

A draw may read a number that another draw has read, which no sequential order of the calls
explains; that is why the operations begin with an arbitrary number. A point that does not draw does
not care, and then that number can be left as it was. -/

/-- A call of the sequential library. -/
def fiuSequential (P : Platform) (l : Linker) (s : Fiu W) (call : FiuCall W) (r : ℤ) (s' : Fiu W) :
    Prop :=
  ∃ reply : FiuReply, fiuStep P l s call = some (reply, s') ∧ reply.value = some r

/-- The call enables no point whose decision another thread could have a part in. -/
def FiuCall.certain : FiuCall W → Bool
  | .enableRandom _ _ _ _ _ => false
  | .enableExternal _ _ _ _ _ => false
  | _ => true

/-- The point decides by itself. -/
def PfInfo.certain (pf : PfInfo W) : Bool :=
  match pf.method with
  | .always | .stack _ => true
  | .prob _ | .external _ => false

/-- The generator is nothing to such a point. -/
theorem PfInfo.fail_certain {pf : PfInfo W} (h : pf.certain = true) (caller : Caller) (xn yn : UInt32)
    (world : W) :
    pf.fail P l caller yn world = { pf.fail P l caller xn world with randdXn := yn } ∧
      (pf.fail P l caller xn world).pf.certain = true := by
  have hmethod : (pf.locked caller).method = pf.method := rfl
  obtain ⟨fails, hdecide⟩ : ∃ fails, ∀ xn, (pf.locked caller).decide P l caller xn world
      = (fails, pf.locked caller, xn, world) := by
    unfold PfInfo.certain at h
    cases hm : pf.method with
    | always => exact ⟨true, fun xn => by rw [PfInfo.decide, hmethod, hm]⟩
    | stack stack =>
      exact ⟨shouldStackFail l stack caller.backtrace, fun xn => by rw [PfInfo.decide, hmethod, hm]⟩
    | prob probability =>
      rw [hm] at h
      cases h
    | external externalCb =>
      rw [hm] at h
      cases h
  unfold PfInfo.fail
  rw [hdecide, hdecide]
  split
  · exact ⟨rfl, h⟩
  · split
    · exact ⟨rfl, h⟩
    · exact ⟨rfl, h⟩

/-- The library but for its generator: all its points decide by themselves. -/
structure Certain (z y : Fiu W) : Prop where
  same : ∃ xn, z = { y with randdXn := xn }
  points : ∀ pf ∈ y.pfs, pf.certain = true

/-- A point is put into the table, whatever the number is. -/
theorem insertPf_certain {z y : Fiu W} (hzy : Certain z y) {pf : PfInfo W} (hpf : pf.certain = true)
    {xn : UInt32} {r : ℤ} {z' : Fiu W} (h : insertPf P { z with randdXn := xn } pf = some (r, z')) :
    ∃ y', insertPf P y pf = some (r, y') ∧ Certain z' y' := by
  obtain ⟨⟨yn, rfl⟩, hpoints⟩ := hzy
  obtain ⟨t, ht, h⟩ := Option.bind_eq_some_iff.mp h
  obtain ⟨⟨success, t'⟩, hset, h⟩ := Option.bind_eq_some_iff.mp h
  cases h
  have ht : y.enabledFails = some t := ht
  have hset : wtableSet P .ok t pf.name (some y.pfs.length) = some (success, t') := hset
  refine ⟨{ y with enabledFails := some t', pfs := y.pfs ++ [pf] }, ?_, ⟨xn, rfl⟩, fun q hq => ?_⟩
  · simp [insertPf, ht, hset]
  · rcases List.mem_append.mp hq with hq | hq
    · exact hpoints q hq
    · rw [List.mem_singleton.mp hq]
      exact hpf

/-- A call of `fiu_fail` on points that decide by themselves. -/
theorem fiuFail_certain {z y : Fiu W} (hzy : Certain z y) {caller : Caller} {name : CString}
    {xn : UInt32} {reply : FailReply} {z' : Fiu W}
    (h : fiuFail P l { z with randdXn := xn } caller name = some (reply, z')) :
    ∃ y', fiuFail P l y caller name = some (reply, y') ∧ Certain z' y' := by
  obtain ⟨⟨yn, rfl⟩, hpoints⟩ := hzy
  unfold fiuFail at h ⊢
  split at h
  · rename_i hnested
    cases h
    exact ⟨y, if_pos hnested, ⟨xn, rfl⟩, hpoints⟩
  · rename_i hnested
    rw [if_neg hnested]
    cases ht : y.enabledFails with
    | none =>
      simp only [ht] at h
      cases h
      exact ⟨y, rfl, ⟨xn, by rw [ht]⟩, hpoints⟩
    | some t =>
      simp only [ht] at h
      obtain ⟨⟨found, t'⟩, hget, h⟩ := Option.bind_eq_some_iff.mp h
      cases found with
      | none =>
        cases h
        refine ⟨{ y with enabledFails := some t' }, ?_, ⟨xn, rfl⟩, hpoints⟩
        simp [hget]
      | some id =>
        obtain ⟨pf, hpf, h⟩ := Option.bind_eq_some_iff.mp h
        cases h
        have hpf' : y.pfAt t' id = some pf := hpf
        have hcertain : pf.certain = true := by
          unfold Fiu.pfAt at hpf'
          split at hpf'
          · cases hpf'
          · exact hpoints pf (List.mem_of_getElem? hpf')
        obtain ⟨hfail, hafter⟩ :=
          PfInfo.fail_certain (P := P) (l := l) hcertain caller y.randdXn xn y.world
        refine ⟨y.afterFail t' caller id (pf.fail P l caller y.randdXn y.world), ?_, ⟨xn, ?_⟩,
          fun q hq => ?_⟩
        · simp [hget, hpf', hfail]
        · show Fiu.afterFail _ t' caller id (pf.fail P l caller xn y.world) = _
          rw [hfail]
          rfl
        · rcases List.mem_or_eq_of_mem_set hq with hq | rfl
          · exact hpoints q hq
          · exact hafter

/-- **A call of the library**, all of whose points decide by themselves, whatever is in `randd_xn`. -/
theorem fiuAtomic_certain {z z' y : Fiu W} (hzy : Certain z y) {call : FiuCall W}
    (hcall : call.certain = true) {r : ℤ} (h : fiuAtomic P l z call r z') :
    ∃ y', fiuSequential P l y call r y' ∧ Certain z' y' := by
  obtain ⟨xn, reply, hstep, hvalue⟩ := h
  have hsame : Certain { z with randdXn := xn } y := by
    obtain ⟨⟨yn, rfl⟩, hpoints⟩ := hzy
    exact ⟨⟨xn, rfl⟩, hpoints⟩
  -- a call that inserts a point
  have hinsert : ∀ {pf : PfInfo W}, pf.certain = true →
      (insertPf P { z with randdXn := xn } pf).map (fun r => (FiuReply.int r.1, r.2))
        = some (reply, z') →
      ∃ y', (insertPf P y pf).map (fun r => (FiuReply.int r.1, r.2)) = some (reply, y') ∧
        Certain z' y' := by
    intro pf hpf h
    obtain ⟨⟨r, z₁⟩, hins, h⟩ := Option.map_eq_some_iff.mp h
    cases h
    obtain ⟨y', hins', hzy'⟩ := insertPf_certain hzy hpf hins
    exact ⟨y', by rw [hins']; rfl, hzy'⟩
  have hstack : ∀ {name : CString} {failnum : ℤ} {failinfo : Addr} {flags : UInt32} {func : Addr}
      {funcPosInStack : ℤ},
      (fiuEnableStack P l { z with randdXn := xn } name failnum failinfo flags func
        funcPosInStack).map (fun r => (FiuReply.int r.1, r.2)) = some (reply, z') →
      ∃ y', (fiuEnableStack P l y name failnum failinfo flags func funcPosInStack).map
        (fun r => (FiuReply.int r.1, r.2)) = some (reply, y') ∧ Certain z' y' := by
    intro name failnum failinfo flags func funcPosInStack h
    unfold fiuEnableStack at h ⊢
    split at h
    · rename_i hpos
      cases h
      exact ⟨y, by rw [if_pos hpos]; rfl, hsame⟩
    · rename_i hpos
      rw [if_neg hpos]
      split at h
      · rename_i hworks
        cases h
        exact ⟨y, by rw [if_pos hworks]; rfl, hsame⟩
      · rename_i hworks
        rw [if_neg hworks]
        split at h
        · rename_i hfunc
          cases h
          exact ⟨y, by rw [if_pos hfunc]; rfl, hsame⟩
        · rename_i hfunc
          rw [if_neg hfunc]
          exact hinsert rfl h
  have hdone : ∃ y', fiuStep P l y call = some (reply, y') ∧ Certain z' y' := by
    cases call with
    | fail caller name =>
      obtain ⟨⟨rep, z₁⟩, hfail, hstep⟩ := Option.map_eq_some_iff.mp hstep
      cases hstep
      obtain ⟨y', hfail', hzy'⟩ := fiuFail_certain hzy hfail
      exact ⟨y', by rw [fiuStep, hfail']; rfl, hzy'⟩
    | enable name failnum failinfo flags => exact hinsert rfl hstep
    | enableRandom name failnum failinfo flags probability => cases hcall
    | enableExternal name failnum failinfo flags externalCb => cases hcall
    | enableStack name failnum failinfo flags func funcPosInStack => exact hstack hstep
    | enableStackByName name failnum failinfo flags funcName funcPosInStack =>
      rw [fiuStep, fiuEnableStackByName] at hstep ⊢
      split at hstep
      · rename_i hworks
        cases hstep
        exact ⟨y, by rw [if_pos hworks]; rfl, hsame⟩
      · rename_i hworks
        rw [if_neg hworks]
        split at hstep
        · rename_i haddr
          cases hstep
          exact ⟨y, by rw [if_pos haddr]; rfl, hsame⟩
        · rename_i haddr
          rw [if_neg haddr]
          exact hstack hstep
    | disable name =>
      obtain ⟨⟨yn, rfl⟩, hpoints⟩ := hzy
      obtain ⟨⟨r', z₁⟩, hdis, hstep⟩ := Option.map_eq_some_iff.mp hstep
      cases hstep
      obtain ⟨t, ht, hdis⟩ := Option.bind_eq_some_iff.mp hdis
      obtain ⟨⟨success, t'⟩, hdel, hdis⟩ := Option.bind_eq_some_iff.mp hdis
      cases hdis
      have ht : y.enabledFails = some t := ht
      refine ⟨{ y with enabledFails := some t' }, ?_, ⟨xn, rfl⟩, hpoints⟩
      simp [fiuStep, fiuDisable, ht, hdel]
  obtain ⟨y', hstep', hzy'⟩ := hdone
  exact ⟨y', ⟨reply, hstep', hvalue⟩, hzy'⟩

/-- What is called in a run was called by one of its threads. -/
theorem mem_steps_of_seen {steps : List (ℕ × Choice W)} {os : List (ℕ × Event)} {i : ℕ}
    {call : FiuCall W} (h : (i, Act.call call) ∈ Atomic.seenOf seen steps os) :
    ∃ step ∈ steps, step.2 = .call call := by
  obtain ⟨⟨⟨j, a⟩, ⟨k, e⟩⟩, hmem, hact⟩ := List.mem_flatMap.mp h
  obtain ⟨act, hact, he⟩ := List.mem_map.mp hact
  cases he
  refine ⟨(j, a), (List.of_mem_zip hmem).1, ?_⟩
  cases a with
  | call call' =>
    rw [List.mem_singleton.mp hact |> Act.call.inj]
  | _ => cases e <;> simp [seen] at hact

/-! ## Every interleaving

The theorem, for the history of a run from after `fiu_init`.

The first part is the simulation, run from two equal states. For the second the operations of the
object are exchanged for those of the sequential library, one by one, along a run of the object: the
two states differ in `randd_xn` only (`Certain`), at which nobody looks. -/

/-- **Each call takes effect at one moment**, between its invocation and its return: whatever any number
    of threads do from when the library is initialized, in any interleaving, their calls and returns
    are those of clients of the sequential library, one of whose calls is one step.  And when they are
    done, `fiu_failinfo` gives each thread what it gives it there.

    `randd_xn` has no lock: two threads may draw the same number, which no calls one after the other
    do.  So with points that fail at random the operations are the calls of the library with some
    number in `randd_xn`; without them they are the calls of the library as they are. -/
theorem fiu_linearizable (P : Platform) (l : Linker) (world : W) (garbage : ℕ) (seed : UInt32)
    (steps : List (ℕ × Choice W))
    (hcalls : ∀ step ∈ steps, ∀ call, step.2 = .call call →
      call.name.bytes ≠ [] ∧ call.internal = true)
    {os : List (ℕ × Event)} {c : Config ℕ (Shared W) (Thread W)}
    (hrun : threadsRun P l (threadsStart world garbage seed) steps = some (os, c)) :
    (∃ z clients, Atomic.Runs (fiuAtomic P l) (initialized world garbage seed) (fun _ => .idle)
        (Atomic.seenOf seen steps os) z clients ∧
      ∀ thread, fiuFailinfo c.shared.toFiu thread = fiuFailinfo z thread) ∧
    ((∀ step ∈ steps, ∀ call, step.2 = .call call → call.certain = true) →
      ∃ z clients, Atomic.Runs (fiuSequential P l) (initialized world garbage seed) (fun _ => .idle)
          (Atomic.seenOf seen steps os) z clients ∧
        ∀ thread, fiuFailinfo c.shared.toFiu thread = fiuFailinfo z thread) := by
  have hguard : Guarded (threadStep P l) CallsInternal (threadsStart world garbage seed) steps :=
    guarded_of_forall _ fun step hstep _ _ call hcall => hcalls step hstep call hcall
  obtain ⟨z, clients, hruns, hR, -⟩ := threads_simulate.run steps [] (refines_start world garbage seed)
    (fun i => ⟨⟨holdsLock_start world garbage seed i, trivial⟩, rfl⟩) hguard hrun
  have hinfo : ∀ thread, fiuFailinfo c.shared.toFiu thread = fiuFailinfo z thread :=
    fun thread => congrFun hR.failinfo thread
  refine ⟨⟨z, clients, hruns, hinfo⟩, fun hcertain => ?_⟩
  have hstart : Certain (initialized world garbage seed) (initialized world garbage seed) :=
    ⟨⟨seed, rfl⟩, fun pf hpf => absurd hpf List.not_mem_nil⟩
  obtain ⟨y, hruns', hzy⟩ := hruns.refine (p := fun call : FiuCall W => call.certain = true)
    (fun hzy hcall h => fiuAtomic_certain hzy hcall h) hstart
    (fun _ call hcall => by cases hcall) fun i call hcall => by
      obtain ⟨step, hstep, he⟩ := mem_steps_of_seen hcall
      exact hcertain step hstep call he
  refine ⟨y, clients, hruns', fun thread => (hinfo thread).trans ?_⟩
  obtain ⟨⟨yn, rfl⟩, -⟩ := hzy
  rfl

/-- Of two threads that find the same point, which is to fail once, one fails: the moments of their calls
    were one after the other. -/
theorem fiu_linearizable_once :
    ∃ os c z clients, threadsRun Platform.ieee noSymbols (threadsStart () 0 0) onceSteps = some (os, c) ∧
      ((1, Event.returned 7) ∈ os ∧ (2, Event.returned 0) ∈ os) ∧
      Atomic.Runs (fiuSequential Platform.ieee noSymbols) (initialized () 0 0) (fun _ => .idle)
        (Atomic.seenOf seen onceSteps os) z clients := by
  have hall : (threadsRun Platform.ieee noSymbols (threadsStart () 0 0) onceSteps).map
      (fun r => decide ((1, Event.returned 7) ∈ r.1 ∧ (2, Event.returned 0) ∈ r.1)) = some true := by
    decide +kernel
  obtain ⟨⟨os, c⟩, hrun, hreturned⟩ := Option.map_eq_some_iff.mp hall
  have hall : ∀ step ∈ onceSteps, ∀ call, step.2 = .call call →
      call.name.bytes ≠ [] ∧ call.internal = true ∧ call.certain = true := by
    intro step hstep call hcall
    have hcases : step.2 = .next ∨ step ∈ [(0, Choice.call (.enable keyJ 7 0 fiuOnetime)),
        (1, .call (.fail ⟨1, 0, []⟩ keyJ)), (2, .call (.fail ⟨2, 0, []⟩ keyJ))] := by
      simp only [onceSteps, List.cons_append, List.mem_cons, List.mem_append, List.mem_replicate,
        List.mem_flatten, List.not_mem_nil, or_false] at hstep ⊢
      grind
    rcases hcases with hnext | hmem
    · rw [hnext] at hcall
      cases hcall
    · simp only [List.mem_cons, List.not_mem_nil, or_false] at hmem
      rcases hmem with rfl | rfl | rfl <;> cases hcall <;> exact ⟨by decide, rfl, rfl⟩
  have hcalls : ∀ step ∈ onceSteps, ∀ call, step.2 = .call call →
      call.name.bytes ≠ [] ∧ call.internal = true := fun step hstep call hcall =>
    ⟨(hall step hstep call hcall).1, (hall step hstep call hcall).2.1⟩
  have hcertain : ∀ step ∈ onceSteps, ∀ call, step.2 = .call call → call.certain = true :=
    fun step hstep call hcall => (hall step hstep call hcall).2.2
  obtain ⟨z, clients, hruns, -⟩ :=
    (fiu_linearizable Platform.ieee noSymbols () 0 0 onceSteps hcalls hrun).2 hcertain
  exact ⟨os, c, z, clients, hrun, of_decide_eq_true hreturned, hruns⟩

end Libfiu
