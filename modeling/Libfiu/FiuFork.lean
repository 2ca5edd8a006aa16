/-
  What `fork` leaves locked.

  The child of a `fork` has the locks as they are in the memory that was copied, and of the threads that
  hold them only the one that called `fork`.  The handlers that libfiu registers seed the generator and
  bring the remote control back; none of them takes the locks before the fork, or gives them back or
  initializes them after it.  So what another thread holds at that moment, nobody in the child can ever
  give back.  The same goes for a lock that another thread is only waiting for: a callback may fork,
  and its `fiu_fail` then hands `enabled_fails_lock` over to a writer that is not there.

  1. **Where a thread holds a lock** (`LocalHolds`) — exactly where its program says so; every step of
     a thread is one of a list (`LocalMoves`), and each of them keeps it so.

  2. **Soundness** (`Process.Sound`) — as long as no lock was left behind, its threads hold the locks
     where their programs say so, nobody else holds any, and the writer that waits is at `ef_wlock`.

  3. **The children** (`fork_child_usable_iff`) — all children are free of locks that are held by, or
     promised to, threads that they do not have, exactly when at every `fork` every other thread is
     outside of the sections of the locks and does not wait to enter one.

  4. **For ever** (`orphan_stays`, `awaited_stays`) — a lock that was left in the child stays locked,
     whatever the child does, and one that is promised to a thread that is not there is never
     given to another writer, and to a reader only as long as others read.

  The result is an equivalence, and its two halves are of different kinds. That a clear fork leaves
  a usable child, and that all of this can be said of the child's own forks again, is an induction
  over the run with `Sound` as its invariant. That a fork which is not clear leaves one that is not
  usable, is about the one moment: some lock is held by, or promised to, a thread that is not
  copied. What becomes of such a lock afterwards is the last part, `orphan_stays` and
  `awaited_stays`.
-/
import Libfiu.FiuOnce
import Libfiu.FiuProcess

namespace Libfiu

open Threads

variable {W : Type} {P : Platform} {l : Linker}

/-! ## The locks of a process

What is to be shown of a child: no lock is held by, or handed over to, a thread that it does not
have. -/

/-- Thread `i` holds one of the locks. -/
def Process.Holds (p : Process W) (i : ℕ) : Prop :=
  p.enabledFailsLock.HeldBy i ∨ p.cacheLock.HeldBy i ∨
    ∃ (id : ℕ) (pf : PfInfo W), p.pfs[id]? = some pf ∧ pf.lock = some i

/-- A child of thread `f` in which the library can be used: every lock that is held is held by a thread
    that is there, and so is the writer to whom one is handed over; and if `f` holds none, it gets each
    of those that `fiu_fail` takes. -/
structure Process.Usable (p : Process W) (f : ℕ) : Prop where
  no_orphans : ∀ i, p.Holds i → i ∈ p.threads
  awaited : ∀ i, p.pendingWriter = some i → i ∈ p.threads
  acquires : ¬ p.Holds f → (p.enabledFailsLock.rdlock f).isSome = true ∧ p.pendingWriter = none ∧
    (p.cacheLock.rdlock f).isSome = true ∧ (p.cacheLock.wrlock f).isSome = true ∧
    ∀ (id : ℕ) (pf : PfInfo W), p.pfs[id]? = some pf → pf.lock = none

/-- If this is a `fork`, the library can be used in the child. -/
def ProcessEvent.Usable : ProcessEvent W → Prop
  | .forked f child => child.Usable f
  | _ => True

/-! ## Where a thread holds a lock

Each place of a program says which locks a thread has there. The lock of a point is not among these:
a callback decides whether it is given back. -/

/-- `fiu_init` holds `enabled_fails_lock`. -/
def InitPc.locked : InitPc → Bool
  | .wlock | .done _ => false
  | _ => true

/-- The thread holds `enabled_fails_lock` for reading. -/
def Local.reads : Local W → Bool
  | .call th _ => th.reads
  | .init _ => false

/-- It holds it for writing. -/
def Local.writes : Local W → Bool
  | .call th _ => th.writes
  | .init pc => pc.locked

/-- The call only looks something up in the cache. -/
def CacheMode.reads : CacheMode → Bool
  | .rd => true
  | .wr => false

/-- The call writes to the cache. -/
def CacheMode.writes : CacheMode → Bool
  | .rd => false
  | .wr => true

/-- The lock of the cache is held for reading. -/
def Section.reads (cache : Section) : Bool := cache.mode.elim false CacheMode.reads

/-- It is held for writing. -/
def Section.writes (cache : Section) : Bool := cache.mode.elim false CacheMode.writes

/-- The section of the cache that the thread is in. -/
def Local.cache : Local W → Section
  | .call _ cache => cache
  | .init _ => .outside

/-- The thread is outside of the sections of `enabled_fails_lock` and of the lock of the cache. -/
def Local.outside : Local W → Bool
  | .call .idle .outside | .call (.rlock _ _) .outside | .call (.wlock _) .outside
  | .call (.ret _) .outside => true
  | .init .wlock | .init (.done _) => true
  | _ => false

/-- Outside means that none of the two locks is held. -/
theorem Local.outside_iff (loc : Local W) :
    loc.outside = true ↔ ¬ (loc.reads = true ∨ loc.writes = true) ∧
      ¬ (loc.cache.reads = true ∨ loc.cache.writes = true) := by
  cases loc with
  | call th cache =>
    cases cache with
    | outside => cases th <;> simp [outside, reads, writes, Thread.reads, Thread.writes, Local.cache,
        Section.reads, Section.writes, Section.mode]
    | entered mode | finished mode =>
      cases mode <;> simp [outside, Local.cache, Section.reads, Section.writes, Section.mode,
        CacheMode.reads, CacheMode.writes]
  | init pc => cases pc <;> simp [outside, reads, writes, InitPc.locked, Local.cache, Section.reads,
      Section.writes, Section.mode]

/-- Thread `i` holds the locks where its program says so. -/
structure LocalHolds (i : ℕ) (g : Globals W) (loc : Local W) : Prop where
  table : g.enabledFailsLock.HeldAs i loc.reads loc.writes
  cache : g.cacheLock.HeldAs i loc.cache.reads loc.cache.writes

/-- Outside of the sections it holds none of the two locks, and only there. -/
theorem LocalHolds.outside_iff {i : ℕ} {g : Globals W} {loc : Local W} (h : LocalHolds i g loc) :
    loc.outside = true ↔ ¬ g.enabledFailsLock.HeldBy i ∧ ¬ g.cacheLock.HeldBy i := by
  rw [loc.outside_iff, h.table.heldBy_iff, h.cache.heldBy_iff]

/-! ## Steps of a thread

As in `FiuThreadsSpec` the steps are made a list, with the cache and its lock in it. Two things are
read off it: a thread holds the locks where it is said to, and other threads hold them as before. -/

/-- The locks and the points of `g'` are those of `g`. -/
structure Globals.SameLocks (g g' : Globals W) : Prop where
  table : g'.enabledFailsLock = g.enabledFailsLock
  cache : g'.cacheLock = g.cacheLock
  pfs : g'.pfs = g.pfs

/-- The generator is no lock. -/
theorem Globals.prngSeed_same (g : Globals W) (usec : UInt32) : g.SameLocks (g.prngSeed usec) := by
  unfold Globals.prngSeed
  split <;> exact ⟨rfl, rfl, rfl⟩

/-- The steps of thread `i`. -/
inductive LocalMoves (P : Platform) (l : Linker) (i : ℕ) (g : Globals W) :
    LocalChoice W → Local W → Event → Globals W → Local W → Prop
  | thread {a : Choice W} {th th' : Thread W} {cache cache' : Section} {s : Shared W} {e : Event}
      (hm : Moves P l i g.toShared a th e s th') (hmode : cache'.mode = cache.mode) :
      LocalMoves P l i g (.thread a) (.call th cache) e { g with toShared := s } (.call th' cache')
  | cacheLock {a : Choice W} {th : Thread W} {mode : CacheMode} {k : RwLock ℕ}
      (hk : mode.take i g.cacheLock = some k) :
      LocalMoves P l i g (.thread a) (.call th .outside) .internal { g with cacheLock := k }
        (.call th (.entered mode))
  | cacheUnlock {a : Choice W} {th : Thread W} {mode : CacheMode} :
      LocalMoves P l i g (.thread a) (.call th (.finished mode)) .internal
        { g with cacheLock := g.cacheLock.unlock i } (.call th .outside)
  | fiuInit : LocalMoves P l i g .fiuInit Local.start .internal g (.init .wlock)
  | initLock {a : LocalChoice W} {k : RwLock ℕ} (hk : g.enabledFailsLock.wrlock i = some k) :
      LocalMoves P l i g a (.init .wlock) .internal { g with enabledFailsLock := k }
        (.init .testInitialized)
  | initLocked {a : LocalChoice W} {pc pc' : InitPc} {g' : Globals W} (hpc : pc.locked = true)
      (hpc' : pc'.locked = true) (hsame : g.SameLocks g') :
      LocalMoves P l i g a (.init pc) .internal g' (.init pc')
  | initUnlock {a : LocalChoice W} {r : ℤ} :
      LocalMoves P l i g a (.init (.unlock r)) .internal
        { g with enabledFailsLock := g.enabledFailsLock.unlock i } (.init (.done r))
  | initDone {a : LocalChoice W} {r : ℤ} :
      LocalMoves P l i g a (.init (.done r)) (.returned r) g Local.start
  | setPrngSeed {seed : UInt32} :
      LocalMoves P l i g (.setPrngSeed seed) Local.start .internal (g.setPrngSeed seed) Local.start

/-- Where the thread is on the point `p`; elsewhere it is as if it was still to begin. -/
def Local.pcAt (p : ℕ) : Local W → PointPc
  | .call th _ => th.pcAt p
  | .init _ => .testFlags

/-- What a step of a process does: one constructor for each branch that is defined. -/
inductive ProcessMoves (P : Platform) (l : Linker) (p : Process W) :
    ProcessInput W → ProcessEvent W → Process W → Prop
  | turn {i : ℕ} {a : LocalChoice W} {e : Event} {g : Globals W} {loc : Local W} (hi : i ∈ p.threads)
      (hadmits : p.admits i = true)
      (hstep : localStep P l i a p.toGlobals (p.locals i) = some (e, g, loc)) :
      ProcessMoves P l p (.turn i a) (.thread i e) { p with
        toGlobals := g
        locals := Function.update p.locals i loc
        pendingWriter := if (p.locals i).wlocks then none else p.pendingWriter }
  | wait {i : ℕ} (hi : i ∈ p.threads) (hwaits : p.waits i = true) :
      ProcessMoves P l p (.wait i) .internal { p with pendingWriter := some i }
  | pthreadCreate : ProcessMoves P l p .pthreadCreate .internal p.spawn
  | rcFifo {i : ℕ} : ProcessMoves P l p (.fiuRcFifo i true true) .internal
      { p.spawn with handlers := p.handlers ++ [.fifoAtforkChild] }
  | rcFifoUnregistered {i : ℕ} : ProcessMoves P l p (.fiuRcFifo i true false) .internal p.spawn
  | rcFifoFailed {i : ℕ} {registered : Bool} :
      ProcessMoves P l p (.fiuRcFifo i false registered) .internal p
  | fork {f : ℕ} {answers : List (UInt32 × Bool)} (side : Side) (hf : f ∈ p.threads)
      (hforeign : (p.locals f).foreign = true) :
      ProcessMoves P l p (.fork f answers side) (.forked f (p.child f answers))
        (match side with
        | .parent => p
        | .child => p.child f answers)

section moves

variable {i j : ℕ} {a : LocalChoice W} {g g' : Globals W} {loc loc' : Local W} {e : Event}

/-- The steps of `fiu_init` are among them. -/
theorem initStep_moves {pc pc' : InitPc} (h : initStep i a g pc = some (g', pc')) :
    LocalMoves P l i g a (.init pc) .internal g' (.init pc') := by
  cases pc with
  | wlock =>
    obtain ⟨k, hk, h⟩ := Option.bind_eq_some_iff.mp h
    cases h
    exact .initLock hk
  | testInitialized =>
    cases h
    refine .initLocked rfl ?_ ⟨rfl, rfl, rfl⟩
    split <;> rfl
  | create =>
    simp only [initStep] at h
    split at h
    · cases h
      exact .initLocked rfl rfl ⟨rfl, rfl, rfl⟩
    · cases h
  | register =>
    simp only [initStep] at h
    split at h
    · cases h
      exact .initLocked rfl rfl ⟨rfl, rfl, rfl⟩
    · cases h
      exact .initLocked rfl rfl ⟨rfl, rfl, rfl⟩
    · cases h
  | seed =>
    simp only [initStep] at h
    split at h
    · rename_i env usec
      cases h
      have hseed : g.SameLocks (env.elim g g.setPrngSeed) := by
        cases env <;> exact ⟨rfl, rfl, rfl⟩
      have hsame := (env.elim g g.setPrngSeed).prngSeed_same usec
      exact .initLocked rfl rfl ⟨hsame.table.trans hseed.table, hsame.cache.trans hseed.cache,
        hsame.pfs.trans hseed.pfs⟩
    · cases h
  | unlock r =>
    cases h
    exact .initUnlock
  | done r => cases h

/-- The steps of a call are among them. -/
theorem callStep_moves {a : Choice W} {th : Thread W} {cache : Section}
    (h : callStep P l i a g th cache = some (e, g', loc')) :
    LocalMoves P l i g (.thread a) (.call th cache) e g' loc' := by
  cases cache with
  | outside =>
    simp only [callStep] at h
    split at h
    · obtain ⟨⟨e₁, s, th'⟩, hstep, h⟩ := Option.bind_eq_some_iff.mp h
      cases h
      exact .thread (threadStep_moves hstep) rfl
    · obtain ⟨k, hk, h⟩ := Option.bind_eq_some_iff.mp h
      cases h
      exact .cacheLock hk
  | entered mode =>
    obtain ⟨⟨e₁, s, th'⟩, hstep, h⟩ := Option.bind_eq_some_iff.mp h
    cases h
    exact .thread (threadStep_moves hstep) rfl
  | finished mode =>
    cases h
    exact .cacheUnlock

/-- Every step is one of the list. -/
theorem localStep_moves (h : localStep P l i a g loc = some (e, g', loc')) :
    LocalMoves P l i g a loc e g' loc' := by
  unfold localStep at h
  split at h
  · exact callStep_moves h
  · cases h
    exact .fiuInit
  · cases h
    exact .setPrngSeed
  · cases h
    exact .initDone
  · obtain ⟨⟨g₁, pc'⟩, hstep, h⟩ := Option.bind_eq_some_iff.mp h
    cases h
    exact initStep_moves hstep
  · cases h

/-- Every step of a process is one of the list. -/
theorem processStep_moves {p q : Process W} {a : ProcessInput W} {o : ProcessEvent W}
    (h : processStep P l p a = some (o, q)) : ProcessMoves P l p a o q := by
  cases a with
  | turn i a =>
    simp only [processStep] at h
    split at h
    · rename_i hi
      obtain ⟨⟨e, g, loc⟩, hstep, h⟩ := Option.bind_eq_some_iff.mp h
      cases h
      exact .turn hi.1 hi.2 hstep
    · cases h
  | wait i =>
    simp only [processStep] at h
    split at h
    · rename_i hi
      cases h
      exact .wait hi.1 hi.2
    · cases h
  | pthreadCreate =>
    cases h
    exact .pthreadCreate
  | fiuRcFifo i created registered =>
    simp only [processStep] at h
    split at h
    · cases created with
      | false =>
        cases h
        exact .rcFifoFailed
      | true =>
        cases registered with
        | false =>
          cases h
          exact .rcFifoUnregistered
        | true =>
          cases h
          exact .rcFifo
    · cases h
  | fork f answers side =>
    simp only [processStep] at h
    split at h
    · rename_i hfork
      cases h
      exact .fork side hfork.1 hfork.2.1
    · cases h

/-- Who takes a lock takes it from nobody. -/
theorem sameFor_take {mode : CacheMode} {k k' : RwLock ℕ} (hne : i ≠ j)
    (h : mode.take i k = some k') : k.SameFor k' j := by
  cases mode with
  | rd => exact RwLock.sameFor_rdlock hne h
  | wr => exact RwLock.sameFor_wrlock hne h

/-- Who takes a lock has it. -/
theorem heldAs_take {mode : CacheMode} {k k' : RwLock ℕ} (h : mode.take i k = some k') :
    k'.HeldAs i mode.reads mode.writes := by
  cases mode with
  | rd => exact RwLock.heldAs_rdlock h
  | wr => exact RwLock.heldAs_wrlock h

namespace LocalMoves

/-- Another thread holds the two locks as before. -/
theorem lock_same (h : LocalMoves P l i g a loc e g' loc') (hne : i ≠ j) :
    g.enabledFailsLock.SameFor g'.enabledFailsLock j ∧ g.cacheLock.SameFor g'.cacheLock j := by
  have hself : ∀ k : RwLock ℕ, k.SameFor k j := fun k => ⟨Iff.rfl, Iff.rfl⟩
  cases h with
  | thread hm hmode => exact ⟨hm.lock_same hne, hself _⟩
  | cacheLock hk => exact ⟨hself _, sameFor_take hne hk⟩
  | cacheUnlock => exact ⟨hself _, RwLock.sameFor_unlock hne⟩
  | initLock hk => exact ⟨RwLock.sameFor_wrlock hne hk, hself _⟩
  | initLocked hpc hpc' hsame =>
    rw [hsame.table, hsame.cache]
    exact ⟨hself _, hself _⟩
  | initUnlock => exact ⟨RwLock.sameFor_unlock hne, hself _⟩
  | _ => exact ⟨hself _, hself _⟩

/-- **A thread holds the locks where its program says so**, after its step as before it. -/
theorem holds (h : LocalMoves P l i g a loc e g' loc') (hh : LocalHolds i g loc) :
    LocalHolds i g' loc' := by
  cases h with
  | @thread a th th' cache cache' s e hm hmode =>
    have htable : HoldsLock i g.toShared th := ⟨hh.table.1, hh.table.2⟩
    have hnext := htable.move hm
    refine ⟨⟨hnext.reader, hnext.writer⟩, ?_⟩
    show g.cacheLock.HeldAs i cache'.reads cache'.writes
    rw [Section.reads, Section.writes, hmode]
    exact hh.cache
  | cacheLock hk => exact ⟨hh.table, heldAs_take hk⟩
  | cacheUnlock => exact ⟨hh.table, RwLock.heldAs_unlock _ i⟩
  | initLock hk => exact ⟨RwLock.heldAs_wrlock hk, hh.cache⟩
  | initLocked hpc hpc' hsame =>
    refine ⟨?_, ?_⟩
    · have htable := hh.table
      rw [Local.writes, hpc] at htable
      rw [hsame.table, Local.writes, hpc']
      exact htable
    · rw [hsame.cache]
      exact hh.cache
  | initUnlock => exact ⟨RwLock.heldAs_unlock _ i, hh.cache⟩
  | fiuInit | initDone | setPrngSeed => exact ⟨hh.table, hh.cache⟩

/-- A point that thread `i` is about to insert is a new one. -/
theorem fresh (h : LocalMoves P l i g a loc e g' loc') {pf : PfInfo W} {cache' : Section}
    (hinsert : loc' = .call (.wlock (.insert pf)) cache')
    (hfresh : ∀ cache, loc = .call (.wlock (.insert pf)) cache → pf.lock = none) : pf.lock = none := by
  cases h with
  | thread hm hmode =>
    cases hinsert
    exact (hm.fresh rfl).1
  | cacheLock hk =>
    cases hinsert
    exact hfresh _ rfl
  | cacheUnlock =>
    cases hinsert
    exact hfresh _ rfl
  | _ => cases hinsert

/-- What a step is to the point `p`: nothing, its creation, or a step on it. -/
theorem at_point (h : LocalMoves P l i g a loc e g' loc') (p : ℕ) :
    (g'.pfs[p]? = g.pfs[p]? ∧
      (loc'.pcAt p = loc.pcAt p ∨ ∃ r, loc.pcAt p = .done r ∧ loc'.pcAt p = .testFlags)) ∨
    (∃ pf cache, loc = .call (.wlock (.insert pf)) cache ∧ g.pfs[p]? = none ∧ g'.pfs[p]? = some pf ∧
      loc'.pcAt p = .testFlags) ∨
    (∃ pf pf', g.pfs[p]? = some pf ∧ g'.pfs[p]? = some pf' ∧
      (∃ choice, a = .thread choice ∧ PointMoves i p pf (loc.pcAt p) choice e pf' (loc'.pcAt p)) ∧
      ∃ caller name cache, loc = .call (.point caller name p (loc.pcAt p)) cache) := by
  cases h with
  | @thread a th th' cache cache' s e hm hmode =>
    rcases hm.at_point p with ⟨hsame, -, hpc⟩ | ⟨pf, rfl, hnone, hnew, -, hpc⟩ |
      ⟨caller, name, pf, pf', hth, hpf, hpf', hmove⟩
    · exact Or.inl ⟨hsame, hpc⟩
    · exact Or.inr (Or.inl ⟨pf, cache, rfl, hnone, hnew, hpc⟩)
    · exact Or.inr (Or.inr ⟨pf, pf', hpf, hpf', ⟨a, rfl, hmove⟩, caller, name, cache,
        congrArg (Local.call · cache) hth⟩)
  | initLocked hpc hpc' hsame => exact Or.inl ⟨by rw [hsame.pfs], Or.inl rfl⟩
  | _ => exact Or.inl ⟨rfl, Or.inl rfl⟩

/-- The lock of a point is as before, or was taken or given back by thread `i`, or it is new. -/
theorem lock_cases (h : LocalMoves P l i g a loc e g' loc')
    (hfresh : ∀ pf cache, loc = .call (.wlock (.insert pf)) cache → pf.lock = none) {p : ℕ}
    {pf' : PfInfo W} (hpf' : g'.pfs[p]? = some pf') :
    (∃ pf, g.pfs[p]? = some pf ∧ pf'.lock = pf.lock) ∨ pf'.lock = some i ∨ pf'.lock = none := by
  rcases h.at_point p with ⟨hsame, -⟩ | ⟨pf, cache, hloc, -, hnew, -⟩ |
    ⟨pf, pf₁, hpf, hpf₁, ⟨choice, -, hmove⟩, -⟩
  · exact Or.inl ⟨pf', hsame.symm.trans hpf', rfl⟩
  · rw [hnew] at hpf'
    cases hpf'
    exact Or.inr (Or.inr (hfresh _ cache hloc))
  · rw [hpf₁] at hpf'
    cases hpf'
    rcases hmove.lock_cases with hl | hl | hl
    · exact Or.inl ⟨pf, hpf, hl⟩
    · exact Or.inr (Or.inl hl)
    · exact Or.inr (Or.inr hl)

end LocalMoves

theorem LocalHolds.of_same (hh : LocalHolds j g loc)
    (hsame : g.enabledFailsLock.SameFor g'.enabledFailsLock j ∧ g.cacheLock.SameFor g'.cacheLock j) :
    LocalHolds j g' loc :=
  ⟨hh.table.of_same hsame.1, hh.cache.of_same hsame.2⟩

end moves

/-! ## Steps of a process

`Sound` is kept by everything but a fork at which another thread is inside of a section. Such a fork
is where the induction ends, and where the claim about the child ends as well. -/

/-- What holds in a process as long as no lock was left behind: its threads hold the locks where their
    programs say so, nobody else holds any, and the writer that has a lock next is waiting for it. -/
structure Process.Sound (p : Process W) : Prop where
  holds : ∀ i, LocalHolds i p.toGlobals (p.locals i)
  gone : ∀ i, i ∉ p.threads → p.locals i = Local.start
  ids : ∀ i ∈ p.threads, i < p.next
  points : ∀ (id : ℕ) (pf : PfInfo W) (i : ℕ), p.pfs[id]? = some pf → pf.lock = some i → i ∈ p.threads
  fresh : ∀ i pf cache, p.locals i = .call (.wlock (.insert pf)) cache → pf.lock = none
  pending : ∀ i, p.pendingWriter = some i → (p.locals i).wlocks = true

/-- Thread `j` is outside of the sections of the locks, and does not wait to enter one. -/
def Process.Outside (p : Process W) (j : ℕ) : Prop :=
  (p.locals j).outside = true ∧ p.pendingWriter ≠ some j

/-- At a `fork`, every other thread is outside of the sections of the locks, and no call of it left a
    point locked. -/
def Process.ForksClear (p : Process W) : ProcessInput W → Prop
  | .fork f _ _ => ∀ j ∈ p.threads, j ≠ f → p.Outside j ∧
      ∀ (id : ℕ) (pf : PfInfo W), p.pfs[id]? = some pf → pf.lock ≠ some j
  | _ => True

namespace Process

variable {p q : Process W} {f : ℕ}

/-- One thread, and no lock held. -/
theorem sound_start (world : W) : (processStart world).Sound where
  holds i := ⟨RwLock.heldAs_free i, RwLock.heldAs_free i⟩
  gone _ _ := rfl
  ids i hi := by
    rw [Finset.mem_singleton.mp hi]
    exact zero_lt_one
  points id pf i h := by cases h
  fresh i pf cache h := by cases h
  pending i h := by cases h

/-- Nobody holds a lock who is not there. -/
theorem Sound.mem_of_holds (hp : p.Sound) {i : ℕ} (h : p.Holds i) : i ∈ p.threads := by
  by_contra hi
  have hout : (p.locals i).outside = true := by
    rw [hp.gone i hi]
    rfl
  obtain ⟨htable, hcache⟩ := (hp.holds i).outside_iff.mp hout
  rcases h with h | h | ⟨id, pf, hpf, hlock⟩
  · exact htable h
  · exact hcache h
  · exact hi (hp.points id pf i hpf hlock)

/-- A thread holds no lock exactly when it is outside, and left no point locked. -/
theorem Sound.not_holds_iff (hp : p.Sound) (i : ℕ) :
    ¬ p.Holds i ↔ (p.locals i).outside = true ∧
      ∀ (id : ℕ) (pf : PfInfo W), p.pfs[id]? = some pf → pf.lock ≠ some i := by
  rw [(hp.holds i).outside_iff, Holds, not_or, not_or, and_assoc]
  simp only [not_exists, not_and, ne_eq]

/-- The writer that waits is there, and it does not run foreign code. -/
theorem Sound.pending_spec (hp : p.Sound) {i : ℕ} (h : p.pendingWriter = some i) :
    i ∈ p.threads ∧ (p.locals i).foreign = false := by
  have hwlocks := hp.pending i h
  constructor
  · by_contra hi
    rw [hp.gone i hi] at hwlocks
    cases hwlocks
  · rw [← Bool.not_eq_true]
    intro hforeign
    unfold Local.foreign at hforeign
    split at hforeign
    · rename_i hloc
      rw [hloc] at hwlocks
      cases hwlocks
    · rename_i hloc
      rw [hloc] at hwlocks
      cases hwlocks
    · cases hforeign

/-- The locks of another process, held by the same threads. -/
theorem holds_iff_of_same (hsame : p.SameLocks q.toGlobals) (i : ℕ) : q.Holds i ↔ p.Holds i := by
  rw [Holds, Holds, hsame.table, hsame.cache, hsame.pfs]

/-- A step of a thread. -/
theorem Sound.turn (hp : p.Sound) {i : ℕ} {a : LocalChoice W} {g : Globals W} {loc : Local W} {e : Event}
    (hi : i ∈ p.threads) (hm : LocalMoves P l i p.toGlobals a (p.locals i) e g loc) :
    Sound { p with
      toGlobals := g
      locals := Function.update p.locals i loc
      pendingWriter := if (p.locals i).wlocks then none else p.pendingWriter } where
  holds j := by
    show LocalHolds j g (Function.update p.locals i loc j)
    by_cases hj : j = i
    · subst hj
      rw [Function.update_self]
      exact hm.holds (hp.holds j)
    · rw [Function.update_of_ne hj]
      exact (hp.holds j).of_same (hm.lock_same (Ne.symm hj))
  gone j hj := by
    show Function.update p.locals i loc j = _
    have hne : j ≠ i := fun h => hj (by rw [h]; exact hi)
    rw [Function.update_of_ne hne]
    exact hp.gone j hj
  ids := hp.ids
  points id pf j hpf hlock := by
    rcases hm.lock_cases (hp.fresh i) hpf with ⟨pf₀, hpf₀, hl⟩ | hl | hl
    · exact hp.points id pf₀ j hpf₀ (hl.symm.trans hlock)
    · rw [hl] at hlock
      cases hlock
      exact hi
    · rw [hl] at hlock
      cases hlock
  fresh j pf cache hloc := by
    have hloc : Function.update p.locals i loc j = .call (.wlock (.insert pf)) cache := hloc
    by_cases hj : j = i
    · subst hj
      rw [Function.update_self] at hloc
      exact hm.fresh hloc fun cache => hp.fresh j pf cache
    · rw [Function.update_of_ne hj] at hloc
      exact hp.fresh j pf cache hloc
  pending j hnext := by
    have hnext : (if (p.locals i).wlocks then none else p.pendingWriter) = some j := hnext
    show (Function.update p.locals i loc j).wlocks = true
    split at hnext
    · cases hnext
    · rename_i hnot
      have hj : j ≠ i := by
        intro hj
        rw [← hj] at hnot
        exact hnot (hp.pending j hnext)
      rw [Function.update_of_ne hj]
      exact hp.pending j hnext

/-- A writer begins to wait. -/
theorem Sound.wait (hp : p.Sound) {i : ℕ} (hwaits : p.waits i = true) :
    Sound { p with pendingWriter := some i } where
  holds := hp.holds
  gone := hp.gone
  ids := hp.ids
  points := hp.points
  fresh := hp.fresh
  pending j hj := by
    cases hj
    simp only [waits, Bool.and_eq_true] at hwaits
    exact hwaits.1.1.1

/-- A new thread is where a thread is that was never there. -/
theorem Sound.spawn_locals (hp : p.Sound) : p.spawn.locals = p.locals := by
  have hnext : p.next ∉ p.threads := fun h => absurd (hp.ids _ h) (lt_irrefl _)
  show Function.update p.locals p.next Local.start = p.locals
  rw [← hp.gone p.next hnext, Function.update_eq_self]

/-- A new thread holds nothing. -/
theorem Sound.spawn (hp : p.Sound) : p.spawn.Sound := by
  have hlocals := hp.spawn_locals
  constructor
  · rw [hlocals]
    exact hp.holds
  · intro i hi
    rw [hlocals]
    exact hp.gone i fun h => hi (Finset.mem_insert_of_mem h)
  · intro i hi
    show i < p.next + 1
    rcases Finset.mem_insert.mp hi with rfl | h
    · omega
    · have := hp.ids i h
      omega
  · exact fun id pf i hpf hlock => Finset.mem_insert_of_mem (hp.points id pf i hpf hlock)
  · rw [hlocals]
    exact hp.fresh
  · rw [hlocals]
    exact hp.pending

/-- The same locks in another process. -/
theorem Sound.of_same (hp : p.Sound) {g : Globals W} (hsame : p.SameLocks g) :
    Sound { p with toGlobals := g } where
  holds i := by
    have h := hp.holds i
    exact ⟨by rw [hsame.table]; exact h.table, by rw [hsame.cache]; exact h.cache⟩
  gone := hp.gone
  ids := hp.ids
  points id pf i hpf hlock := by
    rw [hsame.pfs] at hpf
    exact hp.points id pf i hpf hlock
  fresh := hp.fresh
  pending := hp.pending

/-! ### The child -/

/-- The thread that forks is in the copy as it was. -/
theorem alone_self (p : Process W) (f : ℕ) : (p.alone f).locals f = p.locals f := by
  show Function.update (fun _ => Local.start) f (p.locals f) f = p.locals f
  rw [Function.update_self]

/-- No other thread is in the copy. -/
theorem alone_of_ne {i : ℕ} (hi : i ≠ f) : (p.alone f).locals i = Local.start := by
  show Function.update (fun _ => Local.start) f (p.locals f) i = Local.start
  rw [Function.update_of_ne hi]

/-- What holds of the process with thread `f` alone, and is kept by what handlers do: they create threads,
    and do nothing to the locks. -/
theorem child_induction {R : Process W → Prop} (answers : List (UInt32 × Bool)) (halone : R (p.alone f))
    (hset : ∀ (q : Process W) (g : Globals W), R q → q.SameLocks g → R { q with toGlobals := g })
    (hspawn : ∀ q : Process W, R q → R q.spawn) : R (p.child f answers) := by
  have hrun : ∀ (h : Handler) (answer : UInt32 × Bool) (q : Process W), R q → R (h.run q answer) := by
    intro h answer q hq
    cases h with
    | atforkChild => exact hset q _ hq (q.toGlobals.prngSeed_same answer.1)
    | fifoAtforkChild =>
      simp only [Handler.run]
      split
      · exact hspawn q hq
      · exact hq
  have hfold : ∀ (hs : List (Handler × (UInt32 × Bool))) (q : Process W), R q →
      R (hs.foldl (fun p h => h.1.run p h.2) q) := by
    intro hs
    induction hs with
    | nil => exact fun q hq => hq
    | cons h hs ih => exact fun q hq => ih _ (hrun h.1 h.2 q hq)
  exact hfold _ _ halone

/-- The threads of the child are `f` and new ones, and its locks are those of the parent, with the writer
    that waits. -/
theorem child_spec (p : Process W) (f : ℕ) (answers : List (UInt32 × Bool)) :
    p.SameLocks (p.child f answers).toGlobals ∧
      (p.child f answers).pendingWriter = p.pendingWriter ∧ p.next ≤ (p.child f answers).next ∧
      ∀ i ∈ (p.child f answers).threads, i = f ∨ p.next ≤ i := by
  refine child_induction
    (R := fun q => p.SameLocks q.toGlobals ∧ q.pendingWriter = p.pendingWriter ∧ p.next ≤ q.next ∧
      ∀ i ∈ q.threads, i = f ∨ p.next ≤ i)
    answers ⟨⟨rfl, rfl, rfl⟩, rfl, le_refl _, fun i hi => Or.inl (Finset.mem_singleton.mp hi)⟩ ?_ ?_
  · rintro q g ⟨hsame, hpending, hnext, hids⟩ hg
    exact ⟨⟨hg.table.trans hsame.table, hg.cache.trans hsame.cache, hg.pfs.trans hsame.pfs⟩,
      hpending, hnext, hids⟩
  · rintro q ⟨hsame, hpending, hnext, hids⟩
    refine ⟨hsame, hpending, le_trans hnext (Nat.le_succ _), fun i hi => ?_⟩
    rcases Finset.mem_insert.mp hi with rfl | hi
    · exact Or.inr hnext
    · exact hids i hi

/-- The copy in which nothing was left locked. -/
theorem Sound.alone (hp : p.Sound) (hf : f ∈ p.threads) (hclear : ∀ j, j ≠ f → ¬ p.Holds j)
    (hnowait : p.pendingWriter = none) : (p.alone f).Sound := by
  constructor
  · intro i
    by_cases hi : i = f
    · subst hi
      rw [alone_self]
      exact hp.holds i
    · have hout := (hp.not_holds_iff i).mp (hclear i hi)
      obtain ⟨htable, hcache⟩ := (hp.holds i).outside_iff.mp hout.1
      rw [alone_of_ne hi]
      exact ⟨RwLock.heldAs_of_not_heldBy htable, RwLock.heldAs_of_not_heldBy hcache⟩
  · exact fun i hi => alone_of_ne fun h => hi (Finset.mem_singleton.mpr h)
  · intro i hi
    rw [Finset.mem_singleton.mp hi]
    exact hp.ids f hf
  · intro id pf i hpf hlock
    by_contra hi
    exact hclear i (fun h => hi (Finset.mem_singleton.mpr h)) (Or.inr (Or.inr ⟨id, pf, hpf, hlock⟩))
  · intro i pf cache hloc
    by_cases hi : i = f
    · subst hi
      rw [alone_self] at hloc
      exact hp.fresh i pf cache hloc
    · rw [alone_of_ne hi] at hloc
      cases hloc
  · intro i hi
    rw [show (p.alone f).pendingWriter = p.pendingWriter from rfl, hnowait] at hi
    cases hi

/-- Nobody waits for a lock where nobody but a thread that runs foreign code could. -/
theorem Sound.no_pending (hp : p.Sound) (hforeign : (p.locals f).foreign = true)
    (hnowait : ∀ j ∈ p.threads, j ≠ f → p.pendingWriter ≠ some j) : p.pendingWriter = none := by
  rw [Option.eq_none_iff_forall_ne_some]
  intro j hj
  obtain ⟨hmem, hnot⟩ := hp.pending_spec hj
  by_cases hjf : j = f
  · rw [hjf, hforeign] at hnot
    cases hnot
  · exact hnowait j hmem hjf hj

/-- A child that nothing was left locked in. -/
theorem Sound.child (hp : p.Sound) (hf : f ∈ p.threads) (hforeign : (p.locals f).foreign = true)
    (answers : List (UInt32 × Bool))
    (hclear : ∀ j ∈ p.threads, j ≠ f → ¬ p.Holds j ∧ p.pendingWriter ≠ some j) :
    (p.child f answers).Sound := by
  have hnone : ∀ j, j ≠ f → ¬ p.Holds j := fun j hj h => (hclear j (hp.mem_of_holds h) hj).1 h
  have hnowait := hp.no_pending hforeign fun j hj hjf => (hclear j hj hjf).2
  exact child_induction answers (hp.alone hf hnone hnowait) (fun q g hq hg => hq.of_same hg)
    fun q hq => hq.spawn

/-- **The child can use the library exactly if no other thread held a lock or waited for one.** -/
theorem Sound.child_usable_iff (hp : p.Sound) (hf : f ∈ p.threads)
    (hforeign : (p.locals f).foreign = true) (answers : List (UInt32 × Bool)) :
    (p.child f answers).Usable f ↔
      ∀ j ∈ p.threads, j ≠ f → ¬ p.Holds j ∧ p.pendingWriter ≠ some j := by
  obtain ⟨hsame, hpending, -, hthreads⟩ := child_spec p f answers
  have hholds : ∀ i, (p.child f answers).Holds i ↔ p.Holds i := holds_iff_of_same hsame
  constructor
  · intro h j hj hne
    have hnext := hp.ids j hj
    -- thread `j` is not in the child
    have hgone : j ∉ (p.child f answers).threads := by
      intro hmem
      rcases hthreads j hmem with heq | hle
      · exact hne heq
      · omega
    exact ⟨fun hheld => hgone (h.no_orphans j ((hholds j).mpr hheld)),
      fun hwait => hgone (h.awaited j (hpending.trans hwait))⟩
  · intro hclear
    have hchild := hp.child hf hforeign answers hclear
    have hnowait : (p.child f answers).pendingWriter = none :=
      hpending.trans (hp.no_pending hforeign fun j hj hjf => (hclear j hj hjf).2)
    refine ⟨fun i => hchild.mem_of_holds, fun i hi => ?_, fun hfree => ?_⟩
    · rw [hnowait] at hi
      cases hi
    -- only `f` could hold one
    have hnobody : ∀ i, ¬ (p.child f answers).Holds i := by
      intro i hi
      by_cases hif : i = f
      · exact hfree (hif ▸ hi)
      · have hheld := (hholds i).mp hi
        exact (hclear i (hp.mem_of_holds hheld) hif).1 hheld
    have htable := RwLock.take_of_not_heldBy (fun i h => hnobody i (Or.inl h)) f
    have hcache := RwLock.take_of_not_heldBy (fun i h => hnobody i (Or.inr (Or.inl h))) f
    refine ⟨htable.1, hnowait, hcache.1, hcache.2, fun id pf hpf => ?_⟩
    rw [Option.eq_none_iff_forall_ne_some]
    exact fun i hi => hnobody i (Or.inr (Or.inr ⟨id, pf, hpf, hi⟩))

/-- **One step**: its child can use the library exactly if it forks clear, and then nothing is left
    locked. -/
theorem Sound.step (hp : p.Sound) {a : ProcessInput W} {o : ProcessEvent W}
    (h : processStep P l p a = some (o, q)) :
    (o.Usable ↔ p.ForksClear a) ∧ (p.ForksClear a → q.Sound) := by
  cases processStep_moves h with
  | turn hi _ hstep => exact ⟨Iff.rfl, fun _ => hp.turn hi (localStep_moves hstep)⟩
  | wait _ hwaits => exact ⟨Iff.rfl, fun _ => hp.wait hwaits⟩
  | pthreadCreate | rcFifoUnregistered => exact ⟨Iff.rfl, fun _ => hp.spawn⟩
  | rcFifo => exact ⟨Iff.rfl, fun _ => hp.spawn.of_same ⟨rfl, rfl, rfl⟩⟩
  | rcFifoFailed => exact ⟨Iff.rfl, fun _ => hp⟩
  | @fork f answers side hf hforeign =>
    -- to be clear is to hold nothing and not to wait, which is what the child needs
    have hclear : p.ForksClear (.fork f answers side) ↔
        ∀ j ∈ p.threads, j ≠ f → ¬ p.Holds j ∧ p.pendingWriter ≠ some j := by
      refine forall₃_congr fun j _ _ => ?_
      rw [hp.not_holds_iff j, Outside, and_right_comm]
    rw [hclear]
    refine ⟨hp.child_usable_iff hf hforeign answers, fun hnone => ?_⟩
    cases side with
    | parent => exact hp
    | child => exact hp.child hf hforeign answers hnone

end Process

/-! ## Callbacks that leave `FIU_ONETIME`

Where the bit stays, a thread that took the lock of its point gives it back before it leaves, so a
thread that is outside has left nothing locked.

`Balanced` is one assertion more beside `Sound`, about the locks of the points alone, and is shown
along the same runs. -/

/-- A thread that is there may hold the lock of its point. -/
def PointPc.mayHold : PointPc → Bool
  | .testFlags | .lock | .done _ => false
  | _ => true

namespace PointMoves

variable {i id : ℕ} {pf pf' : PfInfo W} {pc pc' : PointPc} {a : Choice W} {e : Event}

/-- The lock is taken at one place. -/
theorem taken (h : PointMoves i id pf pc a e pf' pc') (hlock' : pf'.lock = some i) :
    pf.lock = some i ∨ pc = .lock := by
  cases h with
  | lock hfree => exact Or.inr rfl
  | unlockSpent | unlockPass | unlockFail => cases hlock'
  | stores x => exact Or.inl ((pf.stored_lock x).1 ▸ hlock')
  | _ => exact Or.inl hlock'

/-- A thread that holds the lock of its point, to fail once, goes where it may hold it. -/
theorem mayHold (h : PointMoves i id pf pc a e pf' pc') (hone : pf.onetime = true)
    (hpc : pf.lock = some i → pc.mayHold = true) (hlock' : pf'.lock = some i) :
    pc'.mayHold = true := by
  cases h with
  | testFlags => cases hpc hlock'
  | lock hfree => rfl
  | testFailedOnce => split <;> rfl
  | unlockSpent | unlockPass | unlockFail => cases hlock'
  | decides hd hd' =>
    cases pc' with
    | testFlags | lock | done => cases hd'
    | _ => rfl
  | testFlagsPass | testFlagsFail =>
    rw [if_pos hone]
    rfl
  | _ => rfl

/-- A thread is about to take the lock of its point only if that is to fail once. -/
theorem to_lock (h : PointMoves i id pf pc a e pf' .lock) : pf.onetime = true := by
  have hne : ∀ {b : Bool} {x y : PointPc}, x ≠ .lock → y ≠ .lock →
      PointPc.lock ≠ if b then x else y := by
    intro b x y hx hy
    cases b
    · exact hy.symm
    · exact hx.symm
  generalize hpc' : PointPc.lock = pc' at h
  cases h with
  | testFlags =>
    by_contra hone
    rw [if_neg hone] at hpc'
    cases hpc'
  | testFailedOnce => exact absurd hpc' (hne (fun h => by cases h) fun h => by cases h)
  | testFlagsPass => exact absurd hpc' (hne (fun h => by cases h) fun h => by cases h)
  | testFlagsFail => exact absurd hpc' (hne (fun h => by cases h) fun h => by cases h)
  | decides hd hd' =>
    rw [← hpc'] at hd'
    cases hd'
  | _ => cases hpc'

end PointMoves

namespace Process

variable {p q : Process W} {f : ℕ}

/-- While the callback of a point runs, it leaves `FIU_ONETIME` in the flags of the point as it is. -/
def LeavesOnetime (p : Process W) : ProcessInput W → Prop
  | .turn i (.thread a) => ∀ (id : ℕ) (th : Thread W) (cache : Section),
      p.locals i = .call th cache → Libfiu.LeavesOnetime id i a p.toShared th
  | _ => True

/-- At a `fork`, every other thread is outside of the sections of the locks. -/
def ForksOutside (p : Process W) : ProcessInput W → Prop
  | .fork f _ _ => ∀ j ∈ p.threads, j ≠ f → p.Outside j
  | _ => True

/-- A point is locked by a thread that is at a place where it will unlock it. -/
structure Balanced (p : Process W) : Prop where
  locked : ∀ (id : ℕ) (pf : PfInfo W) (j : ℕ), p.pfs[id]? = some pf → pf.lock = some j →
    pf.onetime = true ∧ ((p.locals j).pcAt id).mayHold = true
  atLock : ∀ id j, (p.locals j).pcAt id = .lock →
    ∃ pf : PfInfo W, p.pfs[id]? = some pf ∧ pf.onetime = true

/-- There are no points at first. -/
theorem balanced_start (world : W) : (processStart world).Balanced where
  locked id pf j h := by cases h
  atLock id j h := by cases h

/-- A thread that is outside is on no point. -/
theorem pcAt_of_outside {loc : Local W} (h : loc.outside = true) (id : ℕ) :
    loc.pcAt id = .testFlags := by
  cases loc with
  | call th cache =>
    cases th with
    | point caller name id pc =>
      cases cache <;> cases h
    | _ => rfl
  | init pc => rfl

/-- So a thread that is outside left no point locked. -/
theorem Balanced.clear_iff (hb : p.Balanced) (a : ProcessInput W) :
    p.ForksClear a ↔ p.ForksOutside a := by
  cases a with
  | fork f answers side =>
    refine forall₃_congr fun j _ _ => and_iff_left_of_imp fun hout id pf hpf hlock => ?_
    have hhold := (hb.locked id pf j hpf hlock).2
    rw [pcAt_of_outside hout.1] at hhold
    cases hhold
  | _ => exact Iff.rfl

/-- A step of a thread. -/
theorem Balanced.turn (hb : p.Balanced) (hp : p.Sound) {i : ℕ} {a : LocalChoice W} {g : Globals W}
    {loc : Local W} {e : Event} (hm : LocalMoves P l i p.toGlobals a (p.locals i) e g loc)
    (hleaves : p.LeavesOnetime (.turn i a)) {pending : Option ℕ} :
    Balanced { p with
      toGlobals := g
      locals := Function.update p.locals i loc
      pendingWriter := pending } := by
  -- what a step on a point does to its flag
  have honetime : ∀ {id : ℕ} {pf pf' : PfInfo W}, p.pfs[id]? = some pf →
      (∃ choice, a = .thread choice ∧
        PointMoves i id pf ((p.locals i).pcAt id) choice e pf' (loc.pcAt id)) →
      (∃ caller name cache, p.locals i = .call (.point caller name id ((p.locals i).pcAt id)) cache) →
      pf'.onetime = pf.onetime := by
    rintro id pf pf' hpf ⟨choice, rfl, hmove⟩ ⟨caller, name, cache, hloc⟩
    exact onetime_of_moves (hleaves id _ cache hloc) hpf hmove
  constructor
  · intro id pf' j hpf' hlock
    show _ ∧ ((Function.update p.locals i loc j).pcAt id).mayHold = true
    rcases hm.at_point id with ⟨hsame, hpc⟩ | ⟨pf, cache, hloc, -, hnew, -⟩ |
      ⟨pf, pf₁, hpf, hpf₁, hmove, hat⟩
    · -- nothing happens to the point
      have hpf : p.pfs[id]? = some pf' := hsame.symm.trans hpf'
      obtain ⟨hone, hhold⟩ := hb.locked id pf' j hpf hlock
      refine ⟨hone, ?_⟩
      by_cases hj : j = i
      · subst hj
        rw [Function.update_self]
        rcases hpc with hpc | ⟨r, hdone, -⟩
        · rwa [hpc]
        · rw [hdone] at hhold
          cases hhold
      · rwa [Function.update_of_ne hj]
    · -- it is new
      have hnone := hp.fresh i pf cache hloc
      rw [show _ = some pf from hnew] at hpf'
      cases hpf'
      rw [hnone] at hlock
      cases hlock
    · -- thread `i` is on it
      have hflag := honetime hpf hmove hat
      obtain ⟨choice, -, hmove⟩ := hmove
      rw [show _ = some pf₁ from hpf₁] at hpf'
      cases hpf'
      rw [hflag]
      by_cases hj : j = i
      · subst hj
        rw [Function.update_self]
        have hone : pf.onetime = true := by
          rcases hmove.taken hlock with hheld | hat
          · exact (hb.locked id pf j hpf hheld).1
          · obtain ⟨pf₀, hpf₀, hone⟩ := hb.atLock id j hat
            rw [hpf] at hpf₀
            cases hpf₀
            exact hone
        exact ⟨hone, hmove.mayHold hone (fun h => (hb.locked id pf j hpf h).2) hlock⟩
      · rw [Function.update_of_ne hj]
        apply hb.locked id pf j hpf
        rcases hmove.lock_cases with hl | hl | hl
        · rwa [← hl]
        · rw [hl] at hlock
          exact absurd (Option.some.inj hlock).symm hj
        · rw [hl] at hlock
          cases hlock
  · intro id j hlock
    have hlock : (Function.update p.locals i loc j).pcAt id = .lock := hlock
    show ∃ pf : PfInfo W, g.pfs[id]? = some pf ∧ pf.onetime = true
    have hold : (p.locals j).pcAt id = .lock →
        ∃ pf : PfInfo W, g.pfs[id]? = some pf ∧ pf.onetime = true := by
      intro h
      obtain ⟨pf, hpf, hone⟩ := hb.atLock id j h
      rcases hm.at_point id with ⟨hsame, -⟩ | ⟨-, -, -, hnone, -⟩ |
        ⟨pf₁, pf', hpf₁, hpf', hmove, hat⟩
      · exact ⟨pf, hsame.trans hpf, hone⟩
      · rw [hpf] at hnone
        cases hnone
      · have hflag := honetime hpf₁ hmove hat
        rw [show _ = some pf₁ from hpf₁] at hpf
        cases hpf
        exact ⟨pf', hpf', hflag.trans hone⟩
    by_cases hj : j = i
    · subst hj
      rw [Function.update_self] at hlock
      rcases hm.at_point id with ⟨hsame, hpc | ⟨r, -, hpc⟩⟩ | ⟨pf, cache, -, -, -, hpc⟩ |
        ⟨pf, pf', hpf, hpf', hmove, hat⟩
      · exact hold (hpc ▸ hlock)
      · rw [hpc] at hlock
        cases hlock
      · rw [hpc] at hlock
        cases hlock
      · have hflag := honetime hpf hmove hat
        obtain ⟨choice, -, hmove⟩ := hmove
        rw [hlock] at hmove
        exact ⟨pf', hpf', hflag.trans hmove.to_lock⟩
    · rw [Function.update_of_ne hj] at hlock
      exact hold hlock

/-- A new thread is on no point. -/
theorem Balanced.spawn (hb : p.Balanced) (hp : p.Sound) : p.spawn.Balanced := by
  constructor
  · rw [hp.spawn_locals]
    exact hb.locked
  · rw [hp.spawn_locals]
    exact hb.atLock

/-- The same points in another process. -/
theorem Balanced.of_same (hb : p.Balanced) {g : Globals W} (hsame : p.SameLocks g) :
    Balanced { p with toGlobals := g } where
  locked id pf j hpf := by
    rw [hsame.pfs] at hpf
    exact hb.locked id pf j hpf
  atLock id j h := by
    rw [hsame.pfs]
    exact hb.atLock id j h

/-- The copy with one thread, if no other one had locked a point. -/
theorem Balanced.alone (hb : p.Balanced)
    (hclear : ∀ j, j ≠ f → ¬ p.Holds j) : (p.alone f).Balanced := by
  constructor
  · intro id pf j hpf hlock
    by_cases hj : j = f
    · subst hj
      rw [alone_self]
      exact hb.locked id pf j hpf hlock
    · exact absurd (Or.inr (Or.inr ⟨id, pf, hpf, hlock⟩)) (hclear j hj)
  · intro id j hlock
    by_cases hj : j = f
    · subst hj
      rw [alone_self] at hlock
      exact hb.atLock id j hlock
    · rw [alone_of_ne hj] at hlock
      cases hlock

/-- **One step**, of a process whose callbacks leave the flag. -/
theorem Balanced.step (hb : p.Balanced) (hp : p.Sound) {a : ProcessInput W} {o : ProcessEvent W}
    (hleaves : p.LeavesOnetime a) (h : processStep P l p a = some (o, q)) (hclear : p.ForksClear a) :
    q.Balanced := by
  cases processStep_moves h with
  | turn _ _ hstep => exact hb.turn hp (localStep_moves hstep) hleaves
  | wait => exact ⟨hb.locked, hb.atLock⟩
  | pthreadCreate | rcFifoUnregistered => exact hb.spawn hp
  | rcFifo => exact (hb.spawn hp).of_same ⟨rfl, rfl, rfl⟩
  | rcFifoFailed => exact hb
  | @fork f answers side hf hforeign =>
    have hnone : ∀ j, j ≠ f → ¬ p.Holds j := by
      intro j hj hheld
      obtain ⟨hout, hpoints⟩ := hclear j (hp.mem_of_holds hheld) hj
      exact (hp.not_holds_iff j).mpr ⟨hout.1, hpoints⟩ hheld
    have hnowait := hp.no_pending hforeign fun j hj hjf => (hclear j hj hjf).1.2
    cases side with
    | parent => exact hb
    | child =>
      have hchild : (p.child f answers).Sound ∧ (p.child f answers).Balanced := by
        refine child_induction (R := fun q => q.Sound ∧ q.Balanced) answers
          ⟨hp.alone hf hnone hnowait, hb.alone hnone⟩ ?_ ?_
        · exact fun q g hq hg => ⟨hq.1.of_same hg, hq.2.of_same hg⟩
        · exact fun q hq => ⟨hq.1.spawn, hq.2.spawn hq.1⟩
      exact hchild.2

end Process

/-! ## Runs

Both equivalences come from the rules of `Lib/Machine` for the outputs of a run, with the step
lemmas `Sound.step` and `Balanced.step`. -/

/-- Thread `j` is not there, and never comes back; it holds the two locks in `q` as in `p`. -/
structure Process.Orphan (j : ℕ) (p q : Process W) : Prop where
  gone : j ∉ q.threads
  old : j < q.next
  table : p.enabledFailsLock.SameFor q.enabledFailsLock j
  cache : p.cacheLock.SameFor q.cacheLock j

namespace Process.Orphan

variable {j : ℕ} {p q r : Process W}

theorem of_same (h : p.Orphan j q) (hsame : q.SameLocks r.toGlobals) (hgone : j ∉ r.threads)
    (hold : q.next ≤ r.next) : p.Orphan j r where
  gone := hgone
  old := lt_of_lt_of_le h.old hold
  table := by
    rw [hsame.table]
    exact h.table
  cache := by
    rw [hsame.cache]
    exact h.cache

theorem spawn (h : p.Orphan j q) : p.Orphan j q.spawn := by
  refine h.of_same ⟨rfl, rfl, rfl⟩ (fun hj => ?_) (Nat.le_succ _)
  rcases Finset.mem_insert.mp hj with hj | hj
  · have := h.old
    omega
  · exact h.gone hj

/-- No step gives back what a thread holds that is not there. -/
theorem step (h : p.Orphan j q) {a : ProcessInput W} {o : ProcessEvent W}
    (hstep : processStep P l q a = some (o, r)) : p.Orphan j r := by
  cases processStep_moves hstep with
  | @turn i _ _ _ _ hi _ hlocal =>
    have hne : i ≠ j := fun he => h.gone (he ▸ hi)
    obtain ⟨htable, hcache⟩ := (localStep_moves hlocal).lock_same hne
    exact ⟨h.gone, h.old, ⟨htable.1.trans h.table.1, htable.2.trans h.table.2⟩,
      ⟨hcache.1.trans h.cache.1, hcache.2.trans h.cache.2⟩⟩
  | wait => exact ⟨h.gone, h.old, h.table, h.cache⟩
  | pthreadCreate | rcFifoUnregistered => exact h.spawn
  | rcFifo => exact h.spawn.of_same ⟨rfl, rfl, rfl⟩ h.spawn.gone (le_refl _)
  | rcFifoFailed => exact h
  | @fork f answers side hf _ =>
    cases side with
    | parent => exact h
    | child =>
      obtain ⟨hsame, -, hnext, hthreads⟩ := child_spec q f answers
      refine h.of_same hsame (fun hj => ?_) hnext
      rcases hthreads j hj with rfl | hle
      · exact h.gone hf
      · have := h.old
        omega

end Process.Orphan

/-- **A lock that was left behind stays locked.** Thread `j` is not one of the process any more, or
    never was one of this child (`hgone`), and no new thread will get its number (`hold`). Whatever
    the process does from there: if `j` holds `enabled_fails_lock` in any way, no thread gets it for
    writing, so no call that enables or disables comes to its end; and if `j` holds it for writing,
    no call of `fiu_fail` gets it either. -/
theorem orphan_stays {p q : Process W} {j : ℕ} (hgone : j ∉ p.threads) (hold : j < p.next)
    (inputs : List (ProcessInput W)) {os : List (ProcessEvent W)}
    (hrun : Machine.run (processStep P l) p inputs = some (os, q)) :
    (p.enabledFailsLock.HeldBy j → ∀ i, q.enabledFailsLock.wrlock i = none) ∧
      (p.enabledFailsLock.writer = some j → ∀ i, q.enabledFailsLock.rdlock i = none) := by
  have horphan : p.Orphan j q := Machine.run_preserves (J := p.Orphan j)
    (fun h hstep => h.step hstep) inputs ⟨hgone, hold, ⟨Iff.rfl, Iff.rfl⟩, ⟨Iff.rfl, Iff.rfl⟩⟩ hrun
  obtain ⟨hreads, hwrites⟩ := horphan.table
  exact ⟨fun hheld i => RwLock.wrlock_eq_none (hheld.imp hreads.mpr hwrites.mpr),
    fun hheld i => RwLock.rdlock_eq_none (hwrites.mpr hheld)⟩

/-- The writer that has `enabled_fails_lock` next is not there, and never comes back. -/
structure Process.Awaits (j : ℕ) (q : Process W) : Prop where
  gone : j ∉ q.threads
  old : j < q.next
  next : q.pendingWriter = some j

namespace Process.Awaits

variable {j : ℕ} {q r : Process W}

theorem spawn (h : q.Awaits j) : q.spawn.Awaits j := by
  refine ⟨fun hj => ?_, lt_of_lt_of_le h.old (Nat.le_succ _), h.next⟩
  rcases Finset.mem_insert.mp hj with hj | hj
  · have := h.old
    omega
  · exact h.gone hj

/-- Meanwhile nobody is admitted to write, and nobody to be the first who reads. -/
theorem not_admits (h : q.Awaits j) {i : ℕ} (hi : i ∈ q.threads)
    (hlocks : (q.locals i).wlocks = true ∨
      (q.locals i).rlocks = true ∧ q.enabledFailsLock.readers = ∅) : q.admits i = false := by
  have hne : i ≠ j := fun he => h.gone (he ▸ hi)
  rw [admits, h.next, Option.all_some]
  rcases hlocks with hw | ⟨hr, hempty⟩
  · rw [if_pos hw, decide_eq_false hne]
  · have hw : (q.locals i).wlocks = false := by
      cases hloc : q.locals i with
      | call th cache =>
        rw [hloc] at hr
        cases th <;> cases cache <;> first | rfl | cases hr
      | init pc =>
        rw [hloc] at hr
        cases hr
    rw [hw, if_neg Bool.false_ne_true, if_pos hr, hempty]
    rfl

/-- No step takes its place away from it. -/
theorem step (h : q.Awaits j) {a : ProcessInput W} {o : ProcessEvent W}
    (hstep : processStep P l q a = some (o, r)) : r.Awaits j := by
  cases processStep_moves hstep with
  | @turn i _ _ _ _ hi hadmits _ =>
    have hnot : ¬ (q.locals i).wlocks = true := by
      intro hw
      rw [h.not_admits hi (Or.inl hw)] at hadmits
      cases hadmits
    exact ⟨h.gone, h.old, (if_neg hnot).trans h.next⟩
  | wait _ hwaits =>
    -- there is a writer already that waits
    simp [waits, h.next] at hwaits
  | pthreadCreate | rcFifoUnregistered => exact h.spawn
  | rcFifo => exact ⟨h.spawn.gone, h.spawn.old, h.spawn.next⟩
  | rcFifoFailed => exact h
  | @fork f answers side hf _ =>
    cases side with
    | parent => exact h
    | child =>
      obtain ⟨-, hpending, hnext, hthreads⟩ := child_spec q f answers
      refine ⟨fun hj => ?_, lt_of_lt_of_le h.old hnext, hpending.trans h.next⟩
      rcases hthreads j hj with rfl | hle
      · exact h.gone hf
      · have := h.old
        omega

end Process.Awaits

/-- **A lock that is promised to a thread that is not there**: whatever a process does in which that thread
    is the next to get `enabled_fails_lock`, no thread gets it for writing any more; and once nobody
    holds it, no call of `fiu_fail` gets it. -/
theorem awaited_stays {p q : Process W} {j : ℕ} (hgone : j ∉ p.threads) (hold : j < p.next)
    (hwait : p.pendingWriter = some j) (inputs : List (ProcessInput W)) {os : List (ProcessEvent W)}
    (hrun : Machine.run (processStep P l) p inputs = some (os, q)) (i : ℕ) (a : LocalChoice W) :
    ((q.locals i).wlocks = true → processStep P l q (.turn i a) = none) ∧
      (q.enabledFailsLock.readers = ∅ → (q.locals i).rlocks = true →
        processStep P l q (.turn i a) = none) := by
  have hawaits : q.Awaits j := Machine.run_preserves (J := fun q : Process W => q.Awaits j)
    (fun h hstep => h.step hstep) inputs ⟨hgone, hold, hwait⟩ hrun
  have hstuck : ((q.locals i).wlocks = true ∨
      (q.locals i).rlocks = true ∧ q.enabledFailsLock.readers = ∅) →
      processStep P l q (.turn i a) = none := by
    intro hlocks
    refine if_neg fun hi => ?_
    have hadmits := hawaits.not_admits hi.1 hlocks
    rw [hi.2] at hadmits
    cases hadmits
  exact ⟨fun hw => hstuck (Or.inl hw), fun hempty hr => hstuck (Or.inr ⟨hr, hempty⟩)⟩

/-! ## A fork that is clear, and one that is not

The same program forks at two moments, and a callback of it forks at a third one. -/

/-- The main thread calls `fiu_init`. -/
def initInputs : List (ProcessInput Unit) :=
  [.turn 0 .fiuInit, .turn 0 .fiuInit, .turn 0 .fiuInit, .turn 0 (.malloc (some 0)),
    .turn 0 (.atfork true), .turn 0 (.clock none 0), .turn 0 .fiuInit, .turn 0 .fiuInit]

/-- After that it creates thread 1, which enables `"j"`: it has taken `steps` steps when the main thread
    forks, without a remote control. -/
def forkInputs (steps : ℕ) : List (ProcessInput Unit) :=
  initInputs ++ [.pthreadCreate, .turn 1 (.thread (.call (.enable keyJ 7 0 0)))] ++
    List.replicate steps (.turn 1 (.thread .next)) ++ [.fork 0 [(0, false)] .child]

/-- The child of a `fork`. -/
def ProcessEvent.child? : ProcessEvent W → Option (Process W)
  | .forked _ child => some child
  | _ => none

/-- **And stays locked**: whoever calls the library in the child after that waits. -/
theorem orphan_stays_fork :
    ∃ (child q : Process Unit) (os : List (ProcessEvent Unit)),
      Machine.run (processStep Platform.ieee noSymbols) child
        [.turn 0 (.thread (.call (.fail mainThread keyJ))), .pthreadCreate] = some (os, q) ∧
      child.enabledFailsLock.writer = some 1 ∧ (∀ i, q.enabledFailsLock.wrlock i = none) ∧
      ∀ i, q.enabledFailsLock.rdlock i = none := by
  have hall : ((Machine.run (processStep Platform.ieee noSymbols) (processStart ())
      (forkInputs 1)).bind fun r => r.1.getLast?.bind fun o => o.child?.bind fun child =>
        (Machine.run (processStep Platform.ieee noSymbols) child
          [.turn 0 (.thread (.call (.fail mainThread keyJ))), .pthreadCreate]).map fun _ =>
        (child.enabledFailsLock.writer, decide (1 ∈ child.threads), decide (1 < child.next)))
      = some (some 1, false, true) := by
    decide +kernel
  obtain ⟨⟨os, p⟩, -, hlast⟩ := Option.bind_eq_some_iff.mp hall
  obtain ⟨o, -, hchild⟩ := Option.bind_eq_some_iff.mp hlast
  obtain ⟨child, -, hrun⟩ := Option.bind_eq_some_iff.mp hchild
  obtain ⟨⟨os', q⟩, hrun, he⟩ := Option.map_eq_some_iff.mp hrun
  obtain ⟨hwriter, hgone, hold⟩ : _ ∧ _ ∧ _ := by simpa only [Prod.mk.injEq] using he
  have hstays := orphan_stays (of_decide_eq_false hgone) (of_decide_eq_true hold) _ hrun
  exact ⟨child, q, os', hrun, hwriter, hstays.1 (Or.inr hwriter), hstays.2 hwriter⟩

/-- A callback that lets its point pass. -/
def passes : ExternalCb Unit := fun world _ failnum failinfo flags =>
  (⟨0, failnum, failinfo, flags⟩, world)

/-- The main thread forks in a callback of `"j"`, while thread 1 waits in `fiu_enable`. -/
def callbackInputs : List (ProcessInput Unit) :=
  initInputs ++ .turn 0 (.thread (.call (.enableExternal keyJ 7 0 0 passes))) ::
    List.replicate 4 (.turn 0 (.thread .next)) ++
    .turn 0 (.thread (.call (.fail mainThread keyJ))) ::
    List.replicate 7 (.turn 0 (.thread .next)) ++
    [.pthreadCreate, .turn 1 (.thread (.call (.enable keyJ 7 0 0))), .wait 1,
      .fork 0 [(0, false)] .child]

/-- In the child the callback returns, then `fiu_fail`, and `fiu_fail` is called again. -/
def afterCallback : List (ProcessInput Unit) :=
  .turn 0 (.thread (.callbackRet 0)) :: List.replicate 4 (.turn 0 (.thread .next)) ++
    [.turn 0 (.thread (.call (.fail mainThread keyJ)))]

/-- **The lock that is promised**: the child's next call of `fiu_fail` waits for ever. -/
theorem awaited_stays_callback :
    ∃ (child q : Process Unit) (os os' : List (ProcessEvent Unit)),
      Machine.run (processStep Platform.ieee noSymbols) (processStart ()) callbackInputs
        = some (os, child) ∧
      Machine.run (processStep Platform.ieee noSymbols) child afterCallback = some (os', q) ∧
      q.enabledFailsLock.writer = none ∧ (q.locals 0).rlocks = true ∧
      ∀ a, processStep Platform.ieee noSymbols q (.turn 0 a) = none := by
  have hall : ((Machine.run (processStep Platform.ieee noSymbols) (processStart ())
      callbackInputs).bind fun r =>
        (Machine.run (processStep Platform.ieee noSymbols) r.2 afterCallback).map fun r' =>
        decide (1 ∉ r.2.threads ∧ 1 < r.2.next ∧ r.2.pendingWriter = some 1 ∧
          r'.2.enabledFailsLock.writer = none ∧ r'.2.enabledFailsLock.readers = ∅ ∧
          (r'.2.locals 0).rlocks = true)) = some true := by
    decide +kernel
  obtain ⟨⟨os, child⟩, hrun, hmore⟩ := Option.bind_eq_some_iff.mp hall
  obtain ⟨⟨os', q⟩, hmore, hfacts⟩ := Option.map_eq_some_iff.mp hmore
  obtain ⟨hgone, hold, hwait, hwriter, hempty, hreads⟩ := of_decide_eq_true hfacts
  exact ⟨child, q, os, os', hrun, hmore, hwriter, hreads, fun a =>
    (awaited_stays hgone hold hwait afterCallback hmore 0 a).2 hempty hreads⟩

instance (p : Process W) : ∀ a, Decidable (p.ForksOutside a)
  | .fork f _ _ => inferInstanceAs (Decidable (∀ j ∈ p.threads, j ≠ f →
      (p.locals j).outside = true ∧ p.pendingWriter ≠ some j))
  | .turn _ _ | .wait _ | .pthreadCreate | .fiuRcFifo _ _ _ => .isTrue trivial

end Libfiu
