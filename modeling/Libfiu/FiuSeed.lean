/-
  A seed that was set by hand, under any number of threads, and in children.

  "If the seed is being handled manually, don't interfere", says `prng_seed`, which `fiu_init` calls
  and `atfork_child` in every child.  The generator itself has no lock ("we don't really need a
  thread-safe random source"): `randd` reads `randd_xn` and stores the next number, and another thread
  may do the same in between.

  1. **One step** (`processStep_randd`) — `randd_xn` is stored to where a thread is in `randd`, and
     by nobody else once the library is initialized and the seed was set;

  2. **A run** (`SeedKept`) — what is in `randd_xn`, and what threads have read of it, are all some
     number of steps away from the seed;

  3. **The seed** (`manual_seed_kept`) — the generator is at most so many steps from the seed as there
     were draws, and exactly so many if each draw still found the number that it had read.  This is
     from a moment on at which the library is initialized and nobody is in a draw: the first `fiu_init`
     puts the seed of `FIU_PRNG_SEED` in the place of any other, and a draw that has begun stores over
     a seed that is set meanwhile.

  The invariant is about distances. Each number in `randd_xn`, and each one that a thread has read
  and not stored yet, is some steps of the generator away from the seed; a draw adds one step to a
  number that was read, so none is ever further away than there were draws. Two draws that overlap
  store the same number or one that is behind, and only then is the generator less far than it could
  be.
-/
import Libfiu.FiuInit

namespace Libfiu

open Threads

variable {W : Type} {P : Platform} {l : Linker}

/-! ## Draws

A draw is two accesses, so the number that is stored is the successor of one that was read before,
maybe long before. -/

/-- The number that `randd` has read, and whose successor it is about to store. -/
def PointPc.drawn : PointPc → Option UInt32
  | .randdStore _ xn => some xn
  | _ => none

/-- The same of a thread that is in `fiu_fail`. -/
def Thread.drawn : Thread W → Option UInt32
  | .point _ _ _ pc => pc.drawn
  | _ => none

/-- The same of a thread of a process. -/
def Local.drawn : Local W → Option UInt32
  | .call th _ => th.drawn
  | .init _ => none

/-- The next step of the thread is the store of a draw: it has no lock of the cache to give back. -/
def Local.stores : Local W → Option UInt32
  | .call _ (.finished _) => none
  | .call th _ => th.drawn
  | .init _ => none

/-- What a step on a point does to the generator. -/
theorem pointStep_randd {i id : ℕ} {caller : Caller} {a : Choice W} {s s' : Fiu W} {pc pc' : PointPc}
    {e : Event} (h : pointStep P l i caller id a s pc = some (e, s', pc')) :
    s'.randdXn = pc.drawn.elim s.randdXn randdNext ∧ ∀ xn, pc'.drawn = some xn → xn = s.randdXn := by
  have hnone : ∀ {pc' : PointPc} {xn : UInt32}, pc'.drawn = none → pc'.drawn = some xn →
      xn = s.randdXn := by
    intro pc' xn hn hs
    rw [hn] at hs
    cases hs
  have hswitch : ∀ {fails : Bool}, switched fails id s = (e, s', pc') →
      s'.randdXn = s.randdXn ∧ ∀ xn, pc'.drawn = some xn → xn = s.randdXn := by
    intro fails hs
    cases fails <;> cases hs <;> exact ⟨rfl, fun xn => hnone rfl⟩
  obtain ⟨pf, -, h⟩ := Option.bind_eq_some_iff.mp h
  split at h
  · -- `testFlags`
    cases h
    refine ⟨rfl, fun xn => ?_⟩
    split <;> exact hnone rfl
  · -- `lock`
    split at h
    · cases h
      exact ⟨rfl, fun xn => hnone rfl⟩
    · cases h
  · -- `testFailedOnce`
    cases h
    refine ⟨rfl, fun xn => ?_⟩
    split <;> exact hnone rfl
  · -- `unlockSpent`
    cases h
    exact ⟨rfl, fun xn => hnone rfl⟩
  · -- the `switch`
    split at h
    · exact hswitch (Option.some.inj h)
    · cases h
      refine ⟨rfl, fun xn hxn => ?_⟩
      cases hxn
      rfl
    · cases h
      exact ⟨rfl, fun xn => hnone rfl⟩
    · exact hswitch (Option.some.inj h)
  · -- the store of a draw
    cases h
    exact ⟨rfl, fun xn => hnone rfl⟩
  · -- `randdLoad`, which only looks at the number
    exact hswitch (Option.some.inj h)
  · -- the callback stores
    cases h
    exact ⟨rfl, fun xn => hnone rfl⟩
  · -- and returns
    exact hswitch (Option.some.inj h)
  · -- `testFlagsPass`
    cases h
    refine ⟨rfl, fun xn => ?_⟩
    split <;> exact hnone rfl
  · -- `unlockPass`
    cases h
    exact ⟨rfl, fun xn => hnone rfl⟩
  · -- `exitFail`
    cases h
    exact ⟨rfl, fun xn => hnone rfl⟩
  · -- `readFailnum`
    cases h
    exact ⟨rfl, fun xn => hnone rfl⟩
  · -- `testFlagsFail`
    cases h
    refine ⟨rfl, fun xn => ?_⟩
    split <;> exact hnone rfl
  · -- `setFailedOnce`
    cases h
    exact ⟨rfl, fun xn => hnone rfl⟩
  · -- `unlockFail`
    cases h
    exact ⟨rfl, fun xn => hnone rfl⟩
  · cases h

/-- A writer does nothing to it. -/
theorem WriteOp.begin_randdXn (op : WriteOp W) (s : Fiu W) : (op.begin s).1.randdXn = s.randdXn := by
  cases op <;> rfl

/-- No call begins inside of a draw. -/
theorem FiuCall.enter_drawn (call : FiuCall W) : (call.enter l).drawn = none := by
  unfold FiuCall.enter
  split
  · split <;> rfl
  · rfl
  · split <;> rfl

/-- What a step of a thread does to it. -/
theorem threadStep_randd {i : ℕ} {a : Choice W} {s s' : Shared W} {th th' : Thread W} {e : Event}
    (h : threadStep P l i a s th = some (e, s', th')) :
    s'.randdXn = th.drawn.elim s.randdXn randdNext ∧ ∀ xn, th'.drawn = some xn → xn = s.randdXn := by
  have hnone : ∀ {th' : Thread W}, th'.drawn = none → ∀ xn, th'.drawn = some xn →
      xn = s.randdXn := by
    intro th' hn xn hs
    rw [hn] at hs
    cases hs
  unfold threadStep at h
  split at h
  · cases h
    exact ⟨rfl, hnone (FiuCall.enter_drawn _)⟩
  · obtain ⟨k, -, h⟩ := Option.bind_eq_some_iff.mp h
    cases h
    exact ⟨rfl, hnone rfl⟩
  · cases h
    refine ⟨rfl, hnone ?_⟩
    split <;> rfl
  · cases h
    exact ⟨rfl, hnone rfl⟩
  · cases h
    exact ⟨rfl, hnone rfl⟩
  · obtain ⟨t, -, h⟩ := Option.bind_eq_some_iff.mp h
    obtain ⟨⟨pc', t'⟩, -, h⟩ := Option.bind_eq_some_iff.mp h
    cases h
    exact ⟨rfl, hnone rfl⟩
  · cases h
    exact ⟨rfl, hnone rfl⟩
  · obtain ⟨⟨e', s₁, pc'⟩, hstep, h⟩ := Option.bind_eq_some_iff.mp h
    cases h
    exact pointStep_randd hstep
  · cases h
    exact ⟨rfl, hnone rfl⟩
  · obtain ⟨k, -, h⟩ := Option.bind_eq_some_iff.mp h
    cases h
    exact ⟨WriteOp.begin_randdXn _ _, hnone rfl⟩
  · cases h
    exact ⟨rfl, hnone rfl⟩
  · obtain ⟨t, -, h⟩ := Option.bind_eq_some_iff.mp h
    obtain ⟨⟨pc', t'⟩, -, h⟩ := Option.bind_eq_some_iff.mp h
    cases h
    exact ⟨rfl, hnone rfl⟩
  · cases h
    exact ⟨rfl, hnone rfl⟩
  · cases h

/-- Outside of `fiu_set_prng_seed` and the set-up, `randd_xn` is only stored to by draws; and what a
    thread has read, it reads now or has read before. -/
theorem localStep_randd {i : ℕ} {a : LocalChoice W} {g g' : Globals W} {loc loc' : Local W} {e : Event}
    (h : localStep P l i a g loc = some (e, g', loc')) (ha : ∀ seed, a ≠ .setPrngSeed seed)
    (hseed : loc.stage ≠ some .seed) :
    g'.randdXn = loc.stores.elim g.randdXn randdNext ∧ g'.randdXnManual = g.randdXnManual ∧
      ∀ xn, loc'.drawn = some xn → xn = g.randdXn ∨ loc.drawn = some xn := by
  unfold localStep at h
  split at h
  · rename_i th cache a
    unfold callStep at h
    split at h
    · rename_i cache
      split at h
      · obtain ⟨⟨e', s, th'⟩, hstep, h⟩ := Option.bind_eq_some_iff.mp h
        cases h
        obtain ⟨hxn, hread⟩ := threadStep_randd hstep
        exact ⟨hxn, rfl, fun xn hxn => Or.inl (hread xn hxn)⟩
      · -- the lock of the cache: the thread is not in `randd`
        rename_i mode hcall
        obtain ⟨k, -, h⟩ := Option.bind_eq_some_iff.mp h
        cases h
        refine ⟨?_, rfl, fun xn hxn => Or.inr hxn⟩
        cases th with
        | point caller name id pc => cases hcall
        | _ => rfl
    · obtain ⟨⟨e', s, th'⟩, hstep, h⟩ := Option.bind_eq_some_iff.mp h
      cases h
      obtain ⟨hxn, hread⟩ := threadStep_randd hstep
      exact ⟨hxn, rfl, fun xn hxn => Or.inl (hread xn hxn)⟩
    · cases h
      exact ⟨rfl, rfl, fun xn hxn => Or.inr hxn⟩
  · cases h
    exact ⟨rfl, rfl, fun xn hxn => by cases hxn⟩
  · exact absurd rfl (ha _)
  · cases h
    exact ⟨rfl, rfl, fun xn hxn => by cases hxn⟩
  · rename_i pc hdone
    obtain ⟨⟨g₁, pc'⟩, hstep, h⟩ := Option.bind_eq_some_iff.mp h
    cases h
    -- `fiu_init`: only its `seed` stores to the generator, and that is excluded
    have hkeep : g'.randdXn = g.randdXn ∧ g'.randdXnManual = g.randdXnManual := by
      cases pc with
      | wlock =>
        obtain ⟨k, -, hstep⟩ := Option.bind_eq_some_iff.mp hstep
        cases hstep
        exact ⟨rfl, rfl⟩
      | create =>
        simp only [initStep] at hstep
        split at hstep
        · cases hstep
          exact ⟨rfl, rfl⟩
        · cases hstep
      | register =>
        simp only [initStep] at hstep
        split at hstep
        · cases hstep
          exact ⟨rfl, rfl⟩
        · cases hstep
          exact ⟨rfl, rfl⟩
        · cases hstep
      | seed => exact absurd rfl hseed
      | done r => cases hstep
      | _ =>
        cases hstep
        exact ⟨rfl, rfl⟩
    exact ⟨hkeep.1, hkeep.2, fun xn hxn => by cases hxn⟩
  · cases h

/-! ## Processes

Besides draws, the generator is written by `fiu_set_prng_seed`, by the set-up and by the handler
that runs in a child. The last two look whether the seed was set by hand. -/

namespace Process

variable {p q : Process W}

/-- The number whose successor is stored by the next step, if that is a draw. -/
def stores (p : Process W) : ProcessInput W → Option UInt32
  | .turn i _ => (p.locals i).stores
  | _ => none

/-- How many draws store a number in the run of the inputs. -/
def draws (P : Platform) (l : Linker) : Process W → List (ProcessInput W) → ℕ
  | _, [] => 0
  | p, a :: as => (p.stores a).elim 0 (fun _ => 1) +
      (processStep P l p a).elim 0 fun r => draws P l r.2 as

/-- The input sets no seed. -/
def NoSeed : ProcessInput W → Prop
  | .turn _ a => ∀ seed, a ≠ .setPrngSeed seed
  | _ => True

/-- A draw stores the successor of the number that is in `randd_xn`: no other draw came in between. -/
def DrawsAlone (p : Process W) (a : ProcessInput W) : Prop := ∀ xn, p.stores a = some xn → xn = p.randdXn

/-- What handlers do in a child, they do to no seed that was set. -/
theorem child_randd (p : Process W) (f : ℕ) (answers : List (UInt32 × Bool))
    (hmanual : p.randdXnManual = true) :
    (p.child f answers).randdXn = p.randdXn ∧ (p.child f answers).randdXnManual = true ∧
      ∀ i ∈ (p.child f answers).threads, ∀ xn, ((p.child f answers).locals i).drawn = some xn →
        i = f ∧ (p.locals f).drawn = some xn := by
  refine handlers_keep (R := fun q => q.randdXn = p.randdXn ∧ q.randdXnManual = true ∧
    ∀ i ∈ q.threads, ∀ xn, (q.locals i).drawn = some xn → i = f ∧ (p.locals f).drawn = some xn)
    answers ⟨rfl, hmanual, fun i hi xn hxn => ?_⟩ ?_ ?_
  · have hif : i = f := Finset.mem_singleton.mp hi
    rw [hif, alone_self] at hxn
    exact ⟨hif, hxn⟩
  · rintro q usec ⟨hxn, hset, hdrawn⟩
    have hsame : q.toGlobals.prngSeed usec = q.toGlobals := if_pos hset
    rw [hsame]
    exact ⟨hxn, hset, hdrawn⟩
  · rintro q ⟨hxn, hset, hdrawn⟩
    refine ⟨hxn, hset, fun i hi xn hdraw => ?_⟩
    by_cases hnext : i = q.next
    · -- a new thread has read nothing
      rw [hnext] at hdraw
      have hnew : q.spawn.locals q.next = Local.start := Function.update_self _ _ _
      rw [hnew] at hdraw
      cases hdraw
    · have hold : q.spawn.locals i = q.locals i := Function.update_of_ne hnext _ _
      rw [hold] at hdraw
      rcases Finset.mem_insert.mp hi with h | hmem
      · exact absurd h hnext
      · exact hdrawn i hmem xn hdraw

/-- The library is initialized, and the seed was set by hand. -/
structure Seeded (p : Process W) : Prop where
  once : p.InitOnce False
  initialized : p.initialized = true
  manual : p.randdXnManual = true

/-- **One step** of a process whose seed was set by hand. -/
theorem Seeded.step_randd (hp : p.Seeded) {a : ProcessInput W} (ha : NoSeed a) {o : ProcessEvent W}
    (h : processStep P l p a = some (o, q)) :
    q.randdXn = (p.stores a).elim p.randdXn randdNext ∧ q.randdXnManual = true ∧
      ∀ i ∈ q.threads, ∀ xn, (q.locals i).drawn = some xn →
        xn = p.randdXn ∨ (i ∈ p.threads ∧ (p.locals i).drawn = some xn) := by
  -- a thread is created
  have hspawn : ∀ i ∈ p.spawn.threads, ∀ xn, (p.spawn.locals i).drawn = some xn →
      xn = p.randdXn ∨ (i ∈ p.threads ∧ (p.locals i).drawn = some xn) := by
    intro i hi xn hdraw
    by_cases hnext : i = p.next
    · rw [hnext] at hdraw
      have hnew : p.spawn.locals p.next = Local.start := Function.update_self _ _ _
      rw [hnew] at hdraw
      cases hdraw
    · have hold : p.spawn.locals i = p.locals i := Function.update_of_ne hnext _ _
      rw [hold] at hdraw
      exact Or.inr ⟨(Finset.mem_insert.mp hi).resolve_left hnext, hdraw⟩
  have hsame : ∀ i ∈ p.threads, ∀ xn, (p.locals i).drawn = some xn →
      xn = p.randdXn ∨ (i ∈ p.threads ∧ (p.locals i).drawn = some xn) :=
    fun i hi xn hdraw => Or.inr ⟨hi, hdraw⟩
  cases processStep_moves h with
  | @turn i _ _ _ loc hi _ hstep =>
    have hseed : (p.locals i).stage ≠ some .seed := by
      intro hstage
      have hnot := (hp.once.stage i hi .seed hstage).1
      rw [hp.initialized] at hnot
      cases hnot
    obtain ⟨hxn, hmanual, hread⟩ := localStep_randd hstep ha hseed
    refine ⟨hxn, hmanual.trans hp.manual, fun j hj xn hdraw => ?_⟩
    have hdraw : (Function.update p.locals i loc j).drawn = some xn := hdraw
    by_cases hji : j = i
    · subst hji
      rw [Function.update_self] at hdraw
      exact (hread xn hdraw).imp_right fun h => ⟨hi, h⟩
    · rw [Function.update_of_ne hji] at hdraw
      exact Or.inr ⟨hj, hdraw⟩
  | wait | rcFifoFailed => exact ⟨rfl, hp.manual, hsame⟩
  | pthreadCreate | rcFifo | rcFifoUnregistered => exact ⟨rfl, hp.manual, hspawn⟩
  | @fork f answers side hf _ =>
    cases side with
    | parent => exact ⟨rfl, hp.manual, hsame⟩
    | child =>
      obtain ⟨hxn, hset, hdrawn⟩ := p.child_randd f answers hp.manual
      refine ⟨hxn, hset, fun i hi xn hdraw => ?_⟩
      obtain ⟨rfl, hold⟩ := hdrawn i hi xn hdraw
      exact Or.inr ⟨hf, hold⟩

/-- It stays so, as long as nobody sets a seed. -/
theorem Seeded.step (hp : p.Seeded) {a : ProcessInput W} (ha : NoSeed a) {o : ProcessEvent W}
    (h : processStep P l p a = some (o, q)) : q.Seeded :=
  ⟨hp.once.step (fun h => h.elim) h, (hp.once.initialized_step hp.initialized h).1,
    (hp.step_randd ha h).2.1⟩

/-! ## Runs

A draw may store a successor of what was there some draws ago; so the number is at most as many
steps from the seed as there were draws, and it may be fewer. -/

/-- `n` steps of the generator from `x`, or fewer. -/
def Within (x : UInt32) (n : ℕ) (xn : UInt32) : Prop := ∃ m ≤ n, xn = randdNext^[m] x

/-- One step more. -/
theorem Within.succ {x xn : UInt32} {n : ℕ} (h : Within x n xn) : Within x (n + 1) (randdNext xn) := by
  obtain ⟨m, hm, rfl⟩ := h
  exact ⟨m + 1, by omega, (Function.iterate_succ_apply' randdNext m x).symm⟩

/-- Fewer steps are fewer. -/
theorem Within.mono {x xn : UInt32} {n k : ℕ} (h : Within x n xn) (hk : n ≤ k) : Within x k xn := by
  obtain ⟨m, hm, rfl⟩ := h
  exact ⟨m, by omega, rfl⟩

/-- What is in `randd_xn`, and what threads have read of it, are `n` steps from `x`, or fewer. -/
structure SeedKept (x : UInt32) (n : ℕ) (p : Process W) : Prop where
  current : Within x n p.randdXn
  read : ∀ i ∈ p.threads, ∀ xn, (p.locals i).drawn = some xn → Within x n xn

/-- What a thread is about to store it has read. -/
theorem drawn_of_stores {loc : Local W} {xn : UInt32} (h : loc.stores = some xn) :
    loc.drawn = some xn := by
  cases loc with
  | call th cache =>
    cases cache with
    | finished mode => cases h
    | _ => exact h
  | init pc => cases h

/-- One step of the process. -/
theorem SeedKept.step {x : UInt32} {n : ℕ} (hk : p.SeedKept x n) (hp : p.Seeded)
    {a : ProcessInput W} (ha : NoSeed a) {o : ProcessEvent W}
    (h : processStep P l p a = some (o, q)) :
    q.SeedKept x (n + (p.stores a).elim 0 fun _ => 1) := by
  obtain ⟨hxn, -, hread⟩ := hp.step_randd ha h
  have hle : n ≤ n + (p.stores a).elim 0 fun _ => 1 := Nat.le_add_right _ _
  constructor
  · rw [hxn]
    cases hstores : p.stores a with
    | none => exact hk.current
    | some xn =>
      -- the thread that draws is there, and what it has read is near the seed
      obtain ⟨i, hi, hdrawn⟩ : ∃ i ∈ p.threads, (p.locals i).drawn = some xn := by
        cases processStep_moves h with
        | @turn i _ _ _ _ hi _ _ => exact ⟨i, hi, drawn_of_stores hstores⟩
        | _ => cases hstores
      exact (hk.read i hi xn hdrawn).succ
  · intro i hi xn hdraw
    rcases hread i hi xn hdraw with rfl | ⟨hi, hdraw⟩
    · exact hk.current.mono hle
    · exact (hk.read i hi xn hdraw).mono hle

/-- All steps of a run. By induction on the inputs, from any process and with any count. -/
theorem SeedKept.run {x : UInt32} : ∀ (inputs : List (ProcessInput W)) {n : ℕ} {p q : Process W}
    {os : List (ProcessEvent W)}, p.SeedKept x n → p.Seeded → (∀ a ∈ inputs, NoSeed a) →
    Machine.run (processStep P l) p inputs = some (os, q) →
    q.SeedKept x (n + p.draws P l inputs) := by
  intro inputs
  induction inputs with
  | nil =>
    intro n p q os hk _ _ hrun
    cases hrun
    exact hk
  | cons a as ih =>
    intro n p q os hk hp hno hrun
    obtain ⟨o, p', os', hstep, hrest, -⟩ := Machine.run_cons_eq_some hrun
    have ha := hno a (List.mem_cons_self ..)
    have hend := ih (hk.step hp ha hstep) (hp.step ha hstep)
      (fun b hb => hno b (List.mem_cons_of_mem a hb)) hrest
    show q.SeedKept x (n + (_ + (processStep P l p a).elim 0 fun r => r.2.draws P l as))
    rw [hstep, ← Nat.add_assoc]
    exact hend

/-- Draws that do not overlap are steps of the generator. By induction on the inputs. -/
theorem draws_exact : ∀ (inputs : List (ProcessInput W)) {p q : Process W} {os : List (ProcessEvent W)},
    p.Seeded → (∀ a ∈ inputs, NoSeed a) → Machine.Guarded (processStep P l) DrawsAlone p inputs →
    Machine.run (processStep P l) p inputs = some (os, q) →
    q.randdXn = randdNext^[p.draws P l inputs] p.randdXn := by
  intro inputs
  induction inputs with
  | nil =>
    intro p q os _ _ _ hrun
    cases hrun
    rfl
  | cons a as ih =>
    intro p q os hp hno hg hrun
    obtain ⟨o, p', os', hstep, hrest, -⟩ := Machine.run_cons_eq_some hrun
    have ha := hno a (List.mem_cons_self ..)
    obtain ⟨halone, hg⟩ := (Machine.guarded_cons hstep as).mp hg
    have hend := ih (hp.step ha hstep) (fun b hb => hno b (List.mem_cons_of_mem a hb)) hg hrest
    have hdraws : p.draws P l (a :: as)
        = (p.stores a).elim 0 (fun _ => 1) + p'.draws P l as := by
      show _ + (processStep P l p a).elim 0 _ = _
      rw [hstep]
      rfl
    rw [hend, hdraws, (hp.step_randd ha hstep).1]
    cases hstores : p.stores a with
    | none => exact congrArg (fun n => randdNext^[n] p.randdXn) (Nat.zero_add _).symm
    | some xn =>
      rw [halone xn hstores]
      show randdNext^[_] (randdNext p.randdXn) = randdNext^[1 + _] p.randdXn
      rw [Nat.add_comm, Function.iterate_succ_apply]

end Process

/-- **A seed that was set by hand is kept.** `p` is a process after any run of it, in which the
    library is initialized (`hset`), the seed was set by hand (`hmanual`), and no thread is in a
    draw, with a number that it has read and not stored yet (`hdrawing`). Before the first
    `fiu_init` the seed may still be replaced by the one of `FIU_PRNG_SEED`; and a draw that has
    begun before stores the successor of what it read.

    `more` is whatever the process and its children do then, in any interleaving, wherever they fork
    and whoever calls `fiu_init`, as long as no other seed is set (`hno`). No clock is read into the
    generator: it is at most so many steps away from the seed as there were draws; and exactly so
    many if each draw stores while the number that it read is still there (`DrawsAlone`). -/
theorem manual_seed_kept (P : Platform) (l : Linker) (world : W) (inputs : List (ProcessInput W))
    {os : List (ProcessEvent W)} {p : Process W}
    (hrun : Machine.run (processStep P l) (processStart world) inputs = some (os, p))
    (hset : p.initialized = true) (hmanual : p.randdXnManual = true)
    (hdrawing : ∀ i ∈ p.threads, (p.locals i).drawn = none) (more : List (ProcessInput W))
    (hno : ∀ a ∈ more, Process.NoSeed a) {os' : List (ProcessEvent W)} {q : Process W}
    (hmore : Machine.run (processStep P l) p more = some (os', q)) :
    (∃ n ≤ p.draws P l more, q.randdXn = randdNext^[n] p.randdXn) ∧
      (Machine.Guarded (processStep P l) Process.DrawsAlone p more →
        q.randdXn = randdNext^[p.draws P l more] p.randdXn) := by
  have hp : p.Seeded := ⟨Machine.run_preserves (J := Process.InitOnce False)
    (fun hp h => hp.step (fun h => h.elim) h) inputs (Process.initOnce_start world) hrun, hset,
    hmanual⟩
  have hstart : p.SeedKept p.randdXn 0 := by
    refine ⟨⟨0, le_refl _, rfl⟩, fun i hi xn hdraw => ?_⟩
    rw [hdrawing i hi] at hdraw
    cases hdraw
  have hend := hstart.run more hp hno hmore
  rw [Nat.zero_add] at hend
  exact ⟨hend.current, fun hg => Process.draws_exact more hp hno hg hmore⟩

instance (p : Process W) (a : ProcessInput W) : Decidable (p.DrawsAlone a) :=
  decidable_of_iff ((p.stores a).elim true (fun xn => decide (xn = p.randdXn)) = true) (by
    unfold Process.DrawsAlone
    cases p.stores a <;> simp)

/-- The main thread calls `fiu_init`, sets the seed 5, and enables `"j"` with a probability. -/
def seedInputs : List (ProcessInput Unit) :=
  initInputs ++
    [.turn 0 (.setPrngSeed 5), .turn 0 (.thread (.call (.enableRandom keyJ 7 0 0 (1 / 2))))] ++
    List.replicate 4 (.turn 0 (.thread .next))

/-- Then it calls `fiu_fail("j")`, and forks when that has returned; the child calls `fiu_init`. -/
def seedMore : List (ProcessInput Unit) :=
  .turn 0 (.thread (.call (.fail mainThread keyJ))) ::
    (List.replicate 15 (.turn 0 (.thread .next)) ++ [.fork 0 [(9, false)] .child, .turn 0 .fiuInit])

/-- The child is one draw from the seed. -/
theorem manual_seed_kept_child :
    ∃ (p q : Process Unit) (os os' : List (ProcessEvent Unit)),
      Machine.run (processStep Platform.ieee noSymbols) (processStart ()) seedInputs = some (os, p) ∧
      Machine.run (processStep Platform.ieee noSymbols) p seedMore = some (os', q) ∧
      p.randdXn = 5 ∧ q.randdXn = randdNext 5 := by
  have hall : ((Machine.run (processStep Platform.ieee noSymbols) (processStart ())
      seedInputs).bind fun r =>
        (Machine.run (processStep Platform.ieee noSymbols) r.2 seedMore).map fun _ =>
        (decide (r.2.randdXn = 5 ∧ r.2.initialized = true ∧ r.2.randdXnManual = true ∧
            (∀ i ∈ r.2.threads, (r.2.locals i).drawn = none) ∧
            r.2.draws Platform.ieee noSymbols seedMore = 1),
          decide (Machine.Guarded (processStep Platform.ieee noSymbols) Process.DrawsAlone r.2
            seedMore))) = some (true, true) := by
    decide +kernel
  obtain ⟨⟨os, p⟩, hrun, hmore⟩ := Option.bind_eq_some_iff.mp hall
  obtain ⟨⟨os', q⟩, hmore, hfacts⟩ := Option.map_eq_some_iff.mp hmore
  obtain ⟨hfacts, halone⟩ := Prod.mk.inj hfacts
  obtain ⟨hseed, hset, hmanual, hdrawing, hdraws⟩ := of_decide_eq_true hfacts
  have hno : ∀ a ∈ seedMore, Process.NoSeed a := by
    intro a ha
    have hcases : (a = .turn 0 (.thread (.call (.fail mainThread keyJ))) ∨
        a = .turn 0 (.thread .next)) ∨ a = .fork 0 [(9, false)] .child ∨ a = .turn 0 .fiuInit := by
      simpa [seedMore, or_assoc] using ha
    rcases hcases with (rfl | rfl) | rfl | rfl
    · exact fun seed h => by cases h
    · exact fun seed h => by cases h
    · trivial
    · exact fun seed h => by cases h
  have hkept := (manual_seed_kept Platform.ieee noSymbols () seedInputs hrun hset hmanual hdrawing
    seedMore hno hmore).2 (of_decide_eq_true halone)
  rw [hdraws, hseed] at hkept
  exact ⟨p, q, os, os', hrun, hmore, hseed, hkept⟩

end Libfiu
