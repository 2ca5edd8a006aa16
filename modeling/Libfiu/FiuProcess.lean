/-
  A process with threads that call libfiu, and its `fork`.

  `FiuThreads` is one process, whose threads are all there from the start and whose table is in place.
  Here threads come into being, `fiu_init` is called by one of them, and a process may fork: the child
  has a copy of the memory, and of the threads only the one that called `fork`.  A lock is memory.

  1. **Steps** — between two steps of `FiuThreads` nothing was to be seen of `cache->lock`.  A process
     may be forked while it is held, so a call of the cache is three steps here: it takes the lock,
     works on the cache, and gives the lock back (`Section`).

  2. **Writers that wait** — a thread that calls `ef_wlock` while others read leaves a trace in the
     lock before it gets it: it is the writer that the last reader hands the lock over to
     (`pendingWriter`).  Readers may still join those who read, as with the default attributes of a
     lock of glibc; but once they have left, the lock is for that writer and for nobody else
     (`admits`).  Writers for the lock of a cache need no such place: who waits for it holds
     `enabled_fails_lock` meanwhile.

  3. **`fiu_init`** — takes `enabled_fails_lock` for writing each time it is called, and the first time
     creates the table, registers `atfork_child` and seeds the generator.  `wtable_create` may give
     NULL, which is not looked at; and `pthread_atfork` may fail, and then the call returns -1 and
     leaves the table behind, with `initialized` unset: the next call makes another one.

  4. **`fork`** — may be called where foreign code runs: outside of the library, and in a callback.
     In the child the handlers run that were registered.  `fifo_atfork_child` creates the remote
     control thread again, if it can; no handler does anything to a lock.

  Left open are, besides what `FiuThreads` leaves open, the clock, the environment, whether `fiu_init`
  gets its memory and its handler, whether pipes and threads can be created, and whether the run goes
  on in the parent or in the child.

  A run follows one process at a time: at a `fork` it goes on on one of the two sides, and what is
  seen of the step is the child as it is at that moment. As every run is allowed, every process of
  the tree is in some of them. What two processes do to each other through pipes is no part of this.
-/
import Libfiu.FiuThreads

namespace Libfiu

open Threads

variable {W : Type}

/-! ## State

A process is `Shared` with the parts that matter to a fork: the lock of the cache, what the set-up
left, the handlers, which threads there are, and which of them is the writer that comes next. -/

/-- What is registered with `pthread_atfork`. -/
inductive Handler where
  | atforkChild
  | fifoAtforkChild

/-- The globals of fiu.c, the lock of the cache of the table, and what libc keeps for the library. -/
structure Globals (W : Type) extends Shared W where
  cacheLock : RwLock ℕ
  initialized : Bool
  randdXnManual : Bool
  handlers : List Handler

/-- How a call of the cache locks it. -/
inductive CacheMode where
  | rd
  | wr

/-- Where a thread is with the lock of the cache. -/
inductive Section where
  | outside
  | entered (mode : CacheMode)
  /-- Its work is done, before the lock is given back. -/
  | finished (mode : CacheMode)

/-- How a thread holds the lock of the cache. -/
def Section.mode : Section → Option CacheMode
  | .outside => none
  | .entered mode | .finished mode => some mode

/-- Where a thread is in `fiu_init`. -/
inductive InitPc where
  | wlock
  | testInitialized
  | create
  | register
  | seed
  /-- It gives back the lock, and returns `r`. -/
  | unlock (r : ℤ)
  | done (r : ℤ)

/-- A thread of a process. -/
inductive Local (W : Type) where
  | call (th : Thread W) (cache : Section)
  | init (pc : InitPc)

/-- A thread that does not use the library. -/
def Local.start : Local W := .call .idle .outside

/-- A process.  `next` is a thread that was never there. -/
structure Process (W : Type) extends Globals W where
  /-- The writer to whom the last reader hands `enabled_fails_lock` over; it is kept in the lock. -/
  pendingWriter : Option ℕ
  threads : Finset ℕ
  next : ℕ
  locals : ℕ → Local W

/-- The program before it uses the library, with its main thread. -/
def processStart (world : W) : Process W where
  toFiu := fiuStart world
  enabledFailsLock := RwLock.free
  cacheLock := RwLock.free
  initialized := false
  randdXnManual := false
  handlers := []
  pendingWriter := none
  threads := {0}
  next := 1
  locals := fun _ => Local.start

/-! ## Steps of a thread

A call of the cache takes its lock before and gives it back after; all else is a step of
`FiuThreads`, or one of `fiu_init`. -/

variable (P : Platform) (l : Linker)

/-- The call of the cache that is the next step of a thread. -/
def Thread.cacheCall : Thread W → Option CacheMode
  | .get _ _ .cacheGet => some .rd
  | .get _ _ (.cacheSet _) => some .wr
  | .write _ (.cacheResize _) => some .wr
  | .write _ .invalidate => some .wr
  | _ => none

/-- Taking the lock of the cache. -/
def CacheMode.take (i : ℕ) (k : RwLock ℕ) : CacheMode → Option (RwLock ℕ)
  | .rd => k.rdlock i
  | .wr => k.wrlock i

/-- What is left open in a step of a thread of a process. -/
inductive LocalChoice (W : Type) where
  | thread (a : Choice W)
  /-- The thread calls `fiu_init`, or goes on there. -/
  | fiuInit
  /-- What is in the memory of the new cache, unless `wtable_create` gives NULL. -/
  | malloc (garbage : Option ℕ)
  /-- Whether `pthread_atfork` registers the handler. -/
  | atfork (registered : Bool)
  /-- `FIU_PRNG_SEED`, and the microseconds of the clock. -/
  | clock (env : Option UInt32) (usec : UInt32)
  | setPrngSeed (seed : UInt32)

/-- `fiu_set_prng_seed`. -/
def Globals.setPrngSeed (g : Globals W) (seed : UInt32) : Globals W :=
  { g with randdXn := seed, randdXnManual := true }

/-- `prng_seed`. -/
def Globals.prngSeed (g : Globals W) (usec : UInt32) : Globals W :=
  if g.randdXnManual then g else { g with randdXn := usec }

/-- One step of thread `i` in `fiu_init`. -/
def initStep (i : ℕ) (a : LocalChoice W) (g : Globals W) : InitPc → Option (Globals W × InitPc)
  | .wlock => do
    let k ← g.enabledFailsLock.wrlock i
    some ({ g with enabledFailsLock := k }, .testInitialized)
  | .testInitialized => some (g, if g.initialized then .unlock 0 else .create)
  | .create =>
    match a with
    | .malloc garbage => some ({ g with enabledFails := garbage.map wtableCreate }, .register)
    | _ => none
  | .register =>
    match a with
    | .atfork true => some ({ g with handlers := g.handlers ++ [.atforkChild] }, .seed)
    -- `initialized` stays 0, and the table stays
    | .atfork false => some (g, .unlock (-1))
    | _ => none
  | .seed =>
    match a with
    | .clock env usec =>
      some ({ (env.elim g g.setPrngSeed).prngSeed usec with initialized := true }, .unlock 0)
    | _ => none
  | .unlock r => some ({ g with enabledFailsLock := g.enabledFailsLock.unlock i }, .done r)
  | .done _ => none

/-- One step of thread `i` in a call that `FiuThreads` knows. -/
def callStep (i : ℕ) (a : Choice W) (g : Globals W) (th : Thread W) :
    Section → Option (Event × Globals W × Local W)
  | .outside =>
    match th.cacheCall with
    | none => do
      let (e, s, th') ← threadStep P l i a g.toShared th
      some (e, { g with toShared := s }, .call th' .outside)
    | some mode => do
      let k ← mode.take i g.cacheLock
      some (.internal, { g with cacheLock := k }, .call th (.entered mode))
  | .entered mode => do
    let (e, s, th') ← threadStep P l i a g.toShared th
    some (e, { g with toShared := s }, .call th' (.finished mode))
  | .finished _ =>
    some (.internal, { g with cacheLock := g.cacheLock.unlock i }, .call th .outside)

/-- One step of thread `i`. -/
def localStep (i : ℕ) (a : LocalChoice W) (g : Globals W) (loc : Local W) :
    Option (Event × Globals W × Local W) :=
  match loc, a with
  | .call th cache, .thread a => callStep P l i a g th cache
  | .call .idle .outside, .fiuInit => some (.internal, g, .init .wlock)
  | .call .idle .outside, .setPrngSeed seed => some (.internal, g.setPrngSeed seed, Local.start)
  | .init (.done r), _ => some (.returned r, g, Local.start)
  | .init pc, a => do
    let (g', pc') ← initStep i a g pc
    some (.internal, g', .init pc')
  | _, _ => none

/-! ## Processes

`fork` copies the memory, the words of the locks in it, and one thread. A run goes on in the parent
or in the child, so that one run can follow any branch of the tree of processes. -/

/-- The thread is at `ef_wlock`. -/
def Local.wlocks : Local W → Bool
  | .call (.wlock _) .outside | .init .wlock => true
  | _ => false

/-- The thread is at `ef_rlock`. -/
def Local.rlocks : Local W → Bool
  | .call (.rlock _ _) .outside => true
  | _ => false

/-- While a writer waits for `enabled_fails_lock`, only that one gets it for writing, and for reading
    only who joins others. -/
def Process.admits (p : Process W) (i : ℕ) : Bool :=
  p.pendingWriter.all fun j =>
    if (p.locals i).wlocks then i = j
    else if (p.locals i).rlocks then p.enabledFailsLock.readers ≠ ∅
    else true

/-- Thread `i` calls `ef_wlock` while others read, and will be the next to get the lock. -/
def Process.waits (p : Process W) (i : ℕ) : Bool :=
  (p.locals i).wlocks && p.pendingWriter.isNone && p.enabledFailsLock.writer.isNone &&
    decide (p.enabledFailsLock.readers ≠ ∅)

/-- A new thread. -/
def Process.spawn (p : Process W) : Process W :=
  { p with
    threads := insert p.next p.threads
    next := p.next + 1
    locals := Function.update p.locals p.next Local.start }

/-- What a handler does in the child: `usec` is the clock, and `created` tells whether the pipes and
    the thread of the remote control could be created. -/
def Handler.run (p : Process W) (answer : UInt32 × Bool) : Handler → Process W
  | .atforkChild => { p with toGlobals := p.toGlobals.prngSeed answer.1 }
  | .fifoAtforkChild => if answer.2 then p.spawn else p

/-- The copy of the process in which only thread `f` is left. -/
def Process.alone (p : Process W) (f : ℕ) : Process W :=
  { p with
    threads := {f}
    locals := Function.update (fun _ => Local.start) f (p.locals f) }

/-- The child, once the handlers have run. -/
def Process.child (p : Process W) (f : ℕ) (answers : List (UInt32 × Bool)) : Process W :=
  (p.handlers.zip answers).foldl (fun p h => h.1.run p h.2) (p.alone f)

/-- The thread runs foreign code. -/
def Local.foreign : Local W → Bool
  | .call .idle .outside => true
  | .call (.point _ _ _ .callback) _ => true
  | _ => false

/-- Where a run goes on after a `fork`. -/
inductive Side where
  | parent
  | child

/-- What happens in a process. -/
inductive ProcessInput (W : Type) where
  | turn (i : ℕ) (a : LocalChoice W)
  /-- Thread `i` has to wait in `ef_wlock`. -/
  | wait (i : ℕ)
  /-- The program creates a thread. -/
  | pthreadCreate
  /-- `fiu_rc_fifo`: whether the pipes and the thread could be created, and the handler registered. -/
  | fiuRcFifo (i : ℕ) (created registered : Bool)
  | fork (f : ℕ) (answers : List (UInt32 × Bool)) (side : Side)

/-- What is seen of it. -/
inductive ProcessEvent (W : Type) where
  | internal
  | thread (i : ℕ) (e : Event)
  | forked (f : ℕ) (child : Process W)

/-- One step of a process. -/
def processStep (p : Process W) : ProcessInput W → Option (ProcessEvent W × Process W)
  | .turn i a =>
    if i ∈ p.threads ∧ p.admits i then do
      let (e, g, loc) ← localStep P l i a p.toGlobals (p.locals i)
      some (.thread i e, { p with
        toGlobals := g
        locals := Function.update p.locals i loc
        pendingWriter := if (p.locals i).wlocks then none else p.pendingWriter })
    else none
  | .wait i =>
    if i ∈ p.threads ∧ p.waits i then some (.internal, { p with pendingWriter := some i }) else none
  | .pthreadCreate => some (.internal, p.spawn)
  | .fiuRcFifo i created registered =>
    if i ∈ p.threads ∧ (p.locals i).foreign then
      if created then
        some (.internal,
          if registered then { p.spawn with handlers := p.handlers ++ [.fifoAtforkChild] }
          else p.spawn)
      else some (.internal, p)
    else none
  | .fork f answers side =>
    if f ∈ p.threads ∧ (p.locals f).foreign ∧ answers.length = p.handlers.length then
      some (.forked f (p.child f answers),
        match side with
        | .parent => p
        | .child => p.child f answers)
    else none

end Libfiu
