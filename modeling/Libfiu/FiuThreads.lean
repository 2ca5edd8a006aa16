/-
  fiu.c under any number of threads.

  `Fiu` does one call after another.  Here the threads take turns: every access to a lock, to the
  table, to its cache or to a field of a point is a step of its own, and any thread may run between
  two steps of another one.

  1. **State** — `Shared` is `Fiu` with `enabled_fails_lock`; the lock of the cache makes each call
     of the cache one step.  A `Thread` is where a thread is, and the variables it still needs.

  2. **Left open** — what a thread is asked to do when it is idle (`Choice.call`), and what an
     external callback does: it may store through its three pointers, and change the rest of the
     program, at any time and as often as it likes, and return anything.  When it calls `fiu_fail`
     itself, that call returns 0 at once, `rec_count` being 1: it takes no step here.

  3. **Steps** — `getStep` is `wtable_get` slot by slot, `pointStep` what `fiu_fail` does with the
     point that it found, `writeStep` what `insert_pf` and `fiu_disable` do inside of their lock.

  4. **Events** — what a history is about: that a call went to `exit_fail`, that the table was
     written, that a call returned.

  Allocations succeed.  A point has its place in `pfs` from when its thread may put it into the
  table; before that no other thread can know it.

  An access is atomic and takes effect at once, in the order of the steps: that is sequential
  consistency, which the locks give for what they protect, and which is assumed for the rest,
  `randd_xn` and the fields of a point among it. The walks count in ℕ, as those of `Hash` do, so all
  of this is about tables whose walks are shorter than 2^31 slots (`HashInt`).
-/
import Libfiu.FiuLocks
import Libfiu.Lib.Threads

namespace Libfiu

open Threads

variable {W : Type}

/-! ## State

Where a thread is says what it will do next; what it has read and still needs is stored with that.
The table is shared by all threads, the entry that one of them has found is not. -/

/-- The globals of fiu.c with the lock of the table. -/
structure Shared (W : Type) extends Fiu W where
  enabledFailsLock : RwLock ℕ

/-- Where a thread is in `wtable_get`. -/
inductive GetPc where
  | start
  /-- In the loop of `hash_get`: how many slots are left, and where it looks next. -/
  | probe (left pos : ℕ)
  | cacheGet
  /-- In the loop of `wildcards_find_entry`. -/
  | scan (pos : ℕ)
  | cacheSet (value : Option ℕ)
  | done (value : Option ℕ)

/-- Where a thread is in `fiu_fail` once it has found a point. -/
inductive PointPc where
  | testFlags
  | lock
  | testFailedOnce
  | unlockSpent
  | decide
  /-- In `randd`, with the number that was read. -/
  | randdStore (probability : ℚ) (xn : UInt32)
  | randdLoad (probability : ℚ)
  | callback
  | testFlagsPass
  | unlockPass
  | exitFail
  | readFailnum
  | testFlagsFail (failnum : ℤ)
  | setFailedOnce (failnum : ℤ)
  | unlockFail (failnum : ℤ)
  | done (result : ℤ)

/-- Where a thread is in `wtable_set` or `wtable_del`. -/
inductive WritePc where
  | start
  | resize
  | cacheResize (newSize : ℕ)
  | invalidate
  | store
  | done (r : Bool)

/-- What a thread wants the lock for writing for. -/
inductive WriteOp (W : Type) where
  | insert (pf : PfInfo W)
  | disable (name : CString)

/-- A thread. -/
inductive Thread (W : Type) where
  | idle
  /-- `fiu_fail`, before `ef_rlock`. -/
  | rlock (caller : Caller) (name : CString)
  | testTable (caller : Caller) (name : CString)
  | get (caller : Caller) (name : CString) (pc : GetPc)
  | point (caller : Caller) (name : CString) (id : ℕ) (pc : PointPc)
  /-- Before `ef_runlock`. -/
  | runlock (result : ℤ)
  /-- `insert_pf` or `fiu_disable`, before `ef_wlock`. -/
  | wlock (op : WriteOp W)
  | write (call : Call ℕ) (pc : WritePc)
  /-- All locks given back. -/
  | ret (result : ℤ)

/-! ## What is left open, and what is seen

A run is a list of pairs: which thread takes the next step, and what is left open in it. Every
interleaving is such a list. -/

/-- What a callback can change. -/
inductive CallbackStore (W : Type) where
  | failnum (value : ℤ)
  | failinfo (value : Addr)
  | flags (value : UInt32)
  | world (value : W)

/-- What is left open in a step. -/
inductive Choice (W : Type) where
  /-- The thread calls the library. -/
  | call (call : FiuCall W)
  /-- Nothing: it goes on. -/
  | next
  /-- The callback that runs stores something. -/
  | store (store : CallbackStore W)
  /-- The callback that runs returns. -/
  | callbackRet (ret : ℤ)

/-- What a step adds to the history. -/
inductive Event where
  | internal
  /-- A call of `fiu_fail` went to `exit_fail`, on the point at `id`. -/
  | exitFail (id : ℕ)
  /-- The table was written, and its lock given back. -/
  | wrote (call : Call ℕ)
  | returned (result : ℤ)
  deriving DecidableEq

variable (P : Platform) (l : Linker)

/-! ## `wtable_get`

One slot is read in each step, so a lookup may see the cache change under it. It cannot see the
wildcards change, but that is shown and not built in. -/

/-- One step of `wtable_get`. -/
def getStep (name : CString) : GetPc → Wtable ℕ → Option (GetPc × Wtable ℕ)
  | .start, t => do
    let entries ← t.finals.slots
    some (.probe entries.length (P.murmurhash2 name % entries.length), t)
  | .probe 0 _, t => some (.cacheGet, t)
  | .probe (left + 1) pos, t => do
    let entries ← t.finals.slots
    match ← entries[pos]? with
    | .never => some (.cacheGet, t)
    | .inUse key value =>
      if key = name then some (if value.isSome then .done value else .cacheGet, t)
      else some (.probe left ((pos + 1) % entries.length), t)
    | .removed => some (.probe left ((pos + 1) % entries.length), t)
  | .cacheGet, t => do
    let (hit, value) ← cacheGet P t.wcache name
    some (if hit then .done value else .scan 0, t)
  | .scan pos, t => do
    let ws ← t.slots
    match ws[pos]? with
    | none => some (.cacheSet none, t)
    | some none => some (.scan (pos + 1), t)
    | some (some entry) =>
      let found ← wsMatchesS entry.key entry.keyLen name name.strlen false
      some (if found then .cacheSet entry.value else .scan (pos + 1), t)
  | .cacheSet value, t => do
    let (_, c) ← cacheSet P t.wcache name value
    some (.done value, { t with wcache := c })
  | .done _, _ => none

/-! ## `fiu_fail` with the point that it found

The flags, `failed_once` and the lock are read and written one at a time. `randd` takes two steps,
between which another thread may draw the same number. -/

/-- The point at `id`, unless it was freed. -/
def Fiu.deref (s : Fiu W) (id : ℕ) : Option (PfInfo W) := do
  let t ← s.enabledFails
  s.pfAt t id

/-- The point at `id` written over. -/
def Fiu.setPf (s : Fiu W) (id : ℕ) (pf : PfInfo W) : Fiu W := { s with pfs := s.pfs.set id pf }

/-- The point after a callback stored through one of its pointers, which point into it. -/
def PfInfo.stored (pf : PfInfo W) : CallbackStore W → PfInfo W
  | .failnum value => { pf with failnum := value }
  | .failinfo value => { pf with failinfo := value }
  | .flags value => { pf with flags := value }
  | .world _ => pf

/-- The rest of the program after a callback stored something. -/
def CallbackStore.worldAfter (world : W) : CallbackStore W → W
  | .world value => value
  | _ => world

/-- Out of the `switch`: to `exit_fail`, or past it. -/
def switched (fails : Bool) (id : ℕ) (s : Fiu W) : Event × Fiu W × PointPc :=
  if fails then (.exitFail id, s, .exitFail) else (.internal, s, .testFlagsPass)

/-- One step of thread `i` in `fiu_fail`, on the point at `id`. -/
def pointStep (i : ℕ) (caller : Caller) (id : ℕ) (a : Choice W) (s : Fiu W) (pc : PointPc) :
    Option (Event × Fiu W × PointPc) := do
  let pf ← s.deref id
  match pc, a with
  | .testFlags, .next => some (.internal, s, if pf.onetime then .lock else .decide)
  | .lock, .next =>
    if pf.lock = none then some (.internal, s.setPf id { pf with lock := some i }, .testFailedOnce)
    else none
  | .testFailedOnce, .next => some (.internal, s, if pf.failedOnce then .unlockSpent else .decide)
  | .unlockSpent, .next => some (.internal, s.setPf id { pf with lock := none }, .done 0)
  | .decide, .next =>
    match pf.method with
    | .always => some (switched true id s)
    | .prob probability => some (.internal, s, .randdStore probability s.randdXn)
    | .external _ => some (.internal, s, .callback)
    | .stack stack => some (switched (shouldStackFail l stack caller.backtrace) id s)
  | .randdStore probability xn, .next =>
    some (.internal, { s with randdXn := randdNext xn }, .randdLoad probability)
  | .randdLoad probability, .next =>
    some (switched (Decidable.decide (probability > randd P s.randdXn)) id s)
  | .callback, .store x =>
    some (.internal, { s.setPf id (pf.stored x) with world := x.worldAfter s.world }, .callback)
  | .callback, .callbackRet ret => some (switched (ret ≠ 0) id s)
  | .testFlagsPass, .next => some (.internal, s, if pf.onetime then .unlockPass else .done 0)
  | .unlockPass, .next => some (.internal, s.setPf id { pf with lock := none }, .done 0)
  | .exitFail, .next =>
    some (.internal,
      { s with lastFailinfo := Function.update s.lastFailinfo caller.thread pf.failinfo },
      .readFailnum)
  | .readFailnum, .next => some (.internal, s, .testFlagsFail pf.failnum)
  | .testFlagsFail failnum, .next =>
    some (.internal, s, if pf.onetime then .setFailedOnce failnum else .done failnum)
  | .setFailedOnce failnum, .next =>
    some (.internal, s.setPf id { pf with failedOnce := true }, .unlockFail failnum)
  | .unlockFail failnum, .next =>
    some (.internal, s.setPf id { pf with lock := none }, .done failnum)
  | _, _ => none

/-! ## Writing the table

A writer holds the lock, so what it does to the wildcards is seen by nobody; the cache is still
written by its own lock, and each of those writings is a step. -/

/-- The size that the table is to be resized to, if it is. -/
def UncachedWtable.newSize (t : UncachedWtable ℕ) : Call ℕ → Option ℕ
  | .set _ _ => if t.almostFull then some (grownSize P t.wsSize) else none
  | .del _ => if t.sparse P then some (t.wsUsedCount + 3) else none
  | .get _ => none

/-- One step of `wtable_set` or `wtable_del`. -/
def writeStep (call : Call ℕ) : WritePc → Wtable ℕ → Option (WritePc × Wtable ℕ)
  | .start, t => do
    if ← isWildcard call.key call.key.strlen then
      match call with
      | .set _ _ => some (.resize, t)
      | .del key =>
        let ws ← t.slots
        match (← wildcardsFindEntry t.toUncachedWtable key true).1 with
        | none => some (.done false, t)
        | some (pos, entry) =>
          some (.resize, t.withUncached (t.toUncachedWtable.freeAt ws pos entry))
      | .get _ => none
    else
      match call with
      | .set key value =>
        let (r, h) ← hashSet P true t.finals key (some value)
        some (.done r, { t with finals := h })
      | .del key =>
        let (r, h) ← hashDel P true t.finals key
        some (.done r, { t with finals := h })
      | .get _ => none
  | .resize, t =>
    match t.newSize P call with
    | none => some (.invalidate, t)
    | some newSize =>
      if newSize < minSize then some (.invalidate, t)
      else do
        let (ok, u) ← moveWildcards true t.toUncachedWtable newSize
        some (if ok then .cacheResize newSize else .done false, t.withUncached u)
  | .cacheResize newSize, t => do
    let (_, c) ← cacheResize P true t.wcache newSize
    some (.invalidate, { t with wcache := c })
  | .invalidate, t => do
    let t ← t.invalidate
    match call with
    | .set _ _ => some (.store, t)
    | _ => some (.done true, t)
  | .store, t =>
    match call with
    | .set key value => do
      let (r, u) ← wildcardsSet t.toUncachedWtable key (some value)
      some (.done r, t.withUncached u)
    | _ => none
  | .done _, _ => none

/-! ## The library

One step of a thread, and from it the runs. -/

/-- The point that a call of a `fiu_enable` function creates, if it does. -/
def FiuCall.created : FiuCall W → Option (PfInfo W)
  | .enable name failnum failinfo flags => some (pfCreate name failnum failinfo flags .always)
  | .enableRandom name failnum failinfo flags probability =>
    some (pfCreate name failnum failinfo flags (.prob probability))
  | .enableExternal name failnum failinfo flags externalCb =>
    some (pfCreate name failnum failinfo flags (.external externalCb))
  | .enableStack name failnum failinfo flags func funcPosInStack =>
    stackPoint name failnum failinfo flags func funcPosInStack
  | .enableStackByName name failnum failinfo flags funcName funcPosInStack =>
    if l.backtraceWorks = false then none
    else if l.getFuncAddr funcName = 0 then none
    else stackPoint name failnum failinfo flags (l.getFuncAddr funcName) funcPosInStack
  | _ => none
where
  /-- The checks of `fiu_enable_stack`. -/
  stackPoint (name : CString) (failnum : ℤ) (failinfo : Addr) (flags : UInt32) (func : Addr)
      (funcPosInStack : ℤ) : Option (PfInfo W) :=
    if funcPosInStack ≠ -1 then none
    else if l.backtraceWorks = false then none
    else if l.getFuncEnd func = 0 ∧ l.getFuncStart func = 0 then none
    else some (pfCreate name failnum failinfo flags
      (.stack ⟨func, l.getFuncEnd func, funcPosInStack⟩))

/-- Where a call begins, once its thread has done what concerns nobody else. -/
def FiuCall.enter (call : FiuCall W) : Thread W :=
  match call with
  | .fail caller name => if caller.recCount + 1 > 1 then .ret 0 else .rlock caller name
  | .disable name => .wlock (.disable name)
  | _ =>
    match call.created l with
    | none => .ret (-1)
    | some pf => .wlock (.insert pf)

/-- `ef_wlock`, and the call of the table that follows; a new point gets its place. -/
def WriteOp.begin (s : Fiu W) : WriteOp W → Fiu W × Call ℕ
  | .insert pf => ({ s with pfs := s.pfs ++ [pf] }, .set pf.name s.pfs.length)
  | .disable name => (s, .del name)

/-- One step of thread `i`. -/
def threadStep (i : ℕ) (a : Choice W) (s : Shared W) (th : Thread W) :
    Option (Event × Shared W × Thread W) :=
  match th, a with
  | .idle, .call call => some (.internal, s, call.enter l)
  | .rlock caller name, .next => do
    let k ← s.enabledFailsLock.rdlock i
    some (.internal, { s with enabledFailsLock := k }, .testTable caller name)
  | .testTable caller name, .next =>
    some (.internal, s, if s.enabledFails.isNone then .runlock 0 else .get caller name .start)
  | .get _ _ (.done none), .next => some (.internal, s, .runlock 0)
  | .get caller name (.done (some id)), .next =>
    some (.internal, s, .point caller name id .testFlags)
  | .get caller name pc, .next => do
    let t ← s.enabledFails
    let (pc', t') ← getStep P name pc t
    some (.internal, { s with enabledFails := some t' }, .get caller name pc')
  | .point _ _ _ (.done result), .next => some (.internal, s, .runlock result)
  | .point caller name id pc, a => do
    let (e, s', pc') ← pointStep P l i caller id a s.toFiu pc
    some (e, { s' with enabledFailsLock := s.enabledFailsLock }, .point caller name id pc')
  | .runlock result, .next =>
    some (.internal, { s with enabledFailsLock := s.enabledFailsLock.unlock i }, .ret result)
  | .wlock op, .next => do
    let k ← s.enabledFailsLock.wrlock i
    let (s', call) := op.begin s.toFiu
    some (.internal, { s' with enabledFailsLock := k }, .write call .start)
  | .write call (.done r), .next =>
    some (.wrote call, { s with enabledFailsLock := s.enabledFailsLock.unlock i },
      .ret (if r then 0 else -1))
  | .write call pc, .next => do
    let t ← s.enabledFails
    let (pc', t') ← writeStep P call pc t
    some (.internal, { s with enabledFails := some t' }, .write call pc')
  | .ret result, .next => some (.returned result, s, .idle)
  | _, _ => none

/-- After `fiu_init`, before any other call. -/
def threadsStart (world : W) (garbage : ℕ) (seed : UInt32) : Config ℕ (Shared W) (Thread W) where
  shared := { initialized world garbage seed with enabledFailsLock := RwLock.free }
  locals := fun _ => .idle

/-- The run of the threads on a list of steps: whose it is, and what is left open. -/
def threadsRun (c : Config ℕ (Shared W) (Thread W)) (steps : List (ℕ × Choice W)) :
    Option (List (ℕ × Event) × Config ℕ (Shared W) (Thread W)) :=
  run (threadStep P l) c steps

end Libfiu
