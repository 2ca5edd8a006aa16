/-
  The core of libfiu/fiu.c: points of failure that are enabled, disabled, and fail.

  1. **Data** — `PfInfo` is `struct pf_info`.  The table of the enabled points holds pointers to
     them; here a pointer is an index into `pfs`, the list of all that were ever created, and one
     that `pf_free` was called on cannot be read any more (`Fiu.pfAt`).

  2. **Outside of the library** — an external callback may do what its contract allows, also
     depending on the rest of the program (`W`).  The dynamic linker is a `Linker`; the thread that
     calls and its stack are a `Caller`.

  3. **`fiu_fail`** — `PfInfo.fail` is what it does with the point that it found.  The lock of the
     point is taken or not by one reading of `flags`, and given back or not by another reading,
     after the callback ran; so its reply says what was done to the lock.  A call that waits for a
     lock that nobody gives back never returns.

  This is one call at a time: the lock of the table has no part here.

  A point is created with a new index each time it is enabled, so two points of one name are two
  indices; that is what allows a history to speak of THE point that failed, after its name was used
  again. `pf_free` is not a function here, but a question to the table: a point is freed once its
  index is among the values on which a destructor was called.
-/
import Libfiu.WtableOwner

namespace Libfiu

/-! ## Data

The types of fiu.c. A callback is a function of the rest of the program, which it may change; what
it stores through its three pointers comes back with what it returns. -/

/-- `FIU_ONETIME`. -/
def fiuOnetime : UInt32 := 1

/-- A pointer; 0 is NULL. -/
abbrev Addr := ℕ

/-- What a callback returns, and what it leaves behind its three pointers. -/
structure CallbackResult where
  ret : ℤ
  failnum : ℤ
  failinfo : Addr
  flags : UInt32

/-- `external_cb_t`.  What it does may depend on the state `W` of the rest of the program. -/
def ExternalCb (W : Type) : Type := W → CString → ℤ → Addr → UInt32 → CallbackResult × W

/-- `struct stack`. -/
structure Stack where
  funcStart : Addr
  funcEnd : Addr
  funcPosInStack : ℤ

/-- `enum pf_method`, with what `minfo` holds for it. -/
inductive Method (W : Type) where
  | always
  | prob (probability : ℚ)
  | external (externalCb : ExternalCb W)
  | stack (stack : Stack)

/-- `struct pf_info`. -/
structure PfInfo (W : Type) where
  name : CString
  failnum : ℤ
  failinfo : Addr
  flags : UInt32
  /-- The thread that holds `pf->lock`. -/
  lock : Option ℕ
  failedOnce : Bool
  method : Method W

/-- `pf->flags & FIU_ONETIME`. -/
def PfInfo.onetime {W : Type} (pf : PfInfo W) : Bool := pf.flags &&& fiuOnetime ≠ 0

/-- The functions of backtrace.c, for the program that is loaded. -/
structure Linker where
  getFuncStart : Addr → Addr
  getFuncEnd : Addr → Addr
  getFuncAddr : String → Addr
  backtraceWorks : Bool

/-- The thread that calls `fiu_fail`: its number, its `rec_count` and its stack. -/
structure Caller where
  thread : ℕ
  recCount : ℕ
  backtrace : List Addr

/-- The globals of fiu.c, the points that were created, and the rest of the program. -/
structure Fiu (W : Type) where
  enabledFails : Option (Wtable ℕ)
  pfs : List (PfInfo W)
  randdXn : UInt32
  /-- What each thread has under `last_failinfo_key`. -/
  lastFailinfo : ℕ → Addr
  world : W

variable {W : Type} (P : Platform) (l : Linker)

/-! ## The decision

The `switch` over the method. It returns whether the point fails, and everything that it has
changed: the point, when a callback ran, the generator, when a number was drawn, and the program. -/

/-- `pc_in_func`. -/
def pcInFunc (stack : Stack) (pc : Addr) : Bool :=
  if stack.funcEnd ≠ 0 then stack.funcStart ≤ pc ∧ pc ≤ stack.funcEnd
  else stack.funcStart = l.getFuncStart pc

/-- `should_stack_fail`, with a buffer for 100 addresses. -/
def shouldStackFail (stack : Stack) (backtrace : List Addr) : Bool :=
  (backtrace.take 100).zipIdx.any fun pc =>
    pcInFunc l stack pc.1 &&
      (stack.funcPosInStack = -1 || (pc.2 : ℤ) = stack.funcPosInStack)

/-- The step of the generator, `1103515245 * randd_xn + 12345`. -/
def randdNext (xn : UInt32) : UInt32 := 1103515245 * xn + 12345

/-- What `randd` returns: `(double) randd_xn / UINT_MAX`. -/
def randd (xn : UInt32) : ℚ :=
  P.double.round (P.double.round xn.toNat / P.double.round 4294967295)

/-- The `switch` of `fiu_fail`: whether it goes to `exit_fail`, and the point, the generator and
    the program afterwards. -/
def PfInfo.decide (caller : Caller) (pf : PfInfo W) (xn : UInt32) (world : W) :
    Bool × PfInfo W × UInt32 × W :=
  match pf.method with
  | .always => (true, pf, xn, world)
  | .prob probability =>
    (Decidable.decide (probability > randd P (randdNext xn)), pf, randdNext xn, world)
  | .external externalCb =>
    let (r, world) := externalCb world pf.name pf.failnum pf.failinfo pf.flags
    (r.ret ≠ 0, { pf with failnum := r.failnum, failinfo := r.failinfo, flags := r.flags },
      xn, world)
  | .stack stack => (shouldStackFail l stack caller.backtrace, pf, xn, world)

/-! ## `fiu_fail`

A reply tells what was done to `pf->lock`, so that a call can be seen to take it and not give it
back. A call that waits for a lock for ever has no result. -/

/-- What a call does to `pf->lock`. -/
inductive LockOp where
  | lock
  | unlock
  deriving DecidableEq

/-- The result of `fiu_fail`, none when it never returns, and what it did to `pf->lock`. -/
structure FailReply where
  result : Option ℤ
  ops : List LockOp
  deriving DecidableEq

/-- The outcome of the part of `fiu_fail` that follows the lookup. -/
structure PfCall (W : Type) where
  reply : FailReply
  pf : PfInfo W
  randdXn : UInt32
  world : W
  /-- What is stored for `fiu_failinfo`. -/
  failinfo : Option Addr

/-- The point with its lock taken, when it is to fail once. -/
def PfInfo.locked (pf : PfInfo W) (caller : Caller) : PfInfo W :=
  { pf with lock := if pf.onetime then some caller.thread else pf.lock }

/-- `fiu_fail` after the decision.  The flags are those that the callback left; `taken` tells
    whether the lock was taken before it. -/
def PfInfo.finish (taken : Bool) (decision : Bool × PfInfo W × UInt32 × W) : PfCall W :=
  let (fails, pf, xn, world) := decision
  { reply := ⟨some (if fails then pf.failnum else 0),
      (if taken then [.lock] else []) ++ (if pf.onetime then [.unlock] else [])⟩
    pf := { pf with
      lock := if pf.onetime then none else pf.lock
      failedOnce := pf.failedOnce || (fails && pf.onetime) }
    randdXn := xn
    world := world
    failinfo := if fails then some pf.failinfo else none }

/-- `fiu_fail` once it has found the point. -/
def PfInfo.fail (caller : Caller) (pf : PfInfo W) (xn : UInt32) (world : W) : PfCall W :=
  if pf.onetime ∧ pf.lock.isSome then
    -- the mutex is held, and not given back while this call waits
    { reply := ⟨none, []⟩, pf := pf, randdXn := xn, world := world, failinfo := none }
  else if pf.onetime ∧ pf.failedOnce then
    { reply := ⟨some 0, [.lock, .unlock]⟩, pf := pf, randdXn := xn, world := world,
      failinfo := none }
  else PfInfo.finish pf.onetime ((pf.locked caller).decide P l caller xn world)

/-- The point at `id`, unless it was freed. -/
def Fiu.pfAt (s : Fiu W) (t : Wtable ℕ) (id : ℕ) : Option (PfInfo W) :=
  if some id ∈ t.allDestroyed then none else s.pfs[id]?

/-- The state after `fiu_fail` on the point at `id`. -/
def Fiu.afterFail (s : Fiu W) (t : Wtable ℕ) (caller : Caller) (id : ℕ) (call : PfCall W) : Fiu W where
  enabledFails := some t
  pfs := s.pfs.set id call.pf
  randdXn := call.randdXn
  lastFailinfo := match call.failinfo with
    | some failinfo => Function.update s.lastFailinfo caller.thread failinfo
    | none => s.lastFailinfo
  world := call.world

/-- `fiu_fail`. -/
def fiuFail (s : Fiu W) (caller : Caller) (name : CString) : Option (FailReply × Fiu W) :=
  if caller.recCount + 1 > 1 then some (⟨some 0, []⟩, s)
  else
    match s.enabledFails with
    | none => some (⟨some 0, []⟩, s)
    | some t => do
      let (found, t) ← wtableGet P t name
      match found with
      | none => some (⟨some 0, []⟩, { s with enabledFails := some t })
      | some id =>
        let pf ← s.pfAt t id
        let call := pf.fail P l caller s.randdXn s.world
        some (call.reply, s.afterFail t caller id call)

/-- `fiu_failinfo`. -/
def fiuFailinfo (s : Fiu W) (thread : ℕ) : Addr := s.lastFailinfo thread

/-! ## Enabling and disabling

Each of the enabling functions creates a point and inserts it; those for the stack have checks of
their own before that.

`pf_create` succeeds here; what becomes of a call in which it does not is in `FiuAlloc`. -/

/-- `pf_create`, with the method filled in; `malloc` and `strdup` succeed. -/
def pfCreate (name : CString) (failnum : ℤ) (failinfo : Addr) (flags : UInt32)
    (method : Method W) : PfInfo W where
  name := name
  failnum := failnum
  failinfo := failinfo
  flags := flags
  lock := none
  failedOnce := false
  method := method

/-- `insert_pf`: the table is used without a check that `fiu_init` was called. -/
def insertPf (s : Fiu W) (pf : PfInfo W) : Option (ℤ × Fiu W) := do
  let t ← s.enabledFails
  let (success, t) ← wtableSet P .ok t pf.name (some s.pfs.length)
  some (if success then 0 else -1, { s with enabledFails := some t, pfs := s.pfs ++ [pf] })

/-- `fiu_enable`. -/
def fiuEnable (s : Fiu W) (name : CString) (failnum : ℤ) (failinfo : Addr) (flags : UInt32) :
    Option (ℤ × Fiu W) :=
  insertPf P s (pfCreate name failnum failinfo flags .always)

/-- `fiu_enable_random`. -/
def fiuEnableRandom (s : Fiu W) (name : CString) (failnum : ℤ) (failinfo : Addr) (flags : UInt32)
    (probability : ℚ) : Option (ℤ × Fiu W) :=
  insertPf P s (pfCreate name failnum failinfo flags (.prob probability))

/-- `fiu_enable_external`. -/
def fiuEnableExternal (s : Fiu W) (name : CString) (failnum : ℤ) (failinfo : Addr) (flags : UInt32)
    (externalCb : ExternalCb W) : Option (ℤ × Fiu W) :=
  insertPf P s (pfCreate name failnum failinfo flags (.external externalCb))

/-- `fiu_enable_stack`. -/
def fiuEnableStack (s : Fiu W) (name : CString) (failnum : ℤ) (failinfo : Addr) (flags : UInt32)
    (func : Addr) (funcPosInStack : ℤ) : Option (ℤ × Fiu W) :=
  if funcPosInStack ≠ -1 then some (-1, s)
  else if l.backtraceWorks = false then some (-1, s)
  else if l.getFuncEnd func = 0 ∧ l.getFuncStart func = 0 then some (-1, s)
  else insertPf P s (pfCreate name failnum failinfo flags
    (.stack ⟨func, l.getFuncEnd func, funcPosInStack⟩))

/-- `fiu_enable_stack_by_name`. -/
def fiuEnableStackByName (s : Fiu W) (name : CString) (failnum : ℤ) (failinfo : Addr)
    (flags : UInt32) (funcName : String) (funcPosInStack : ℤ) : Option (ℤ × Fiu W) :=
  if l.backtraceWorks = false then some (-1, s)
  else if l.getFuncAddr funcName = 0 then some (-1, s)
  else fiuEnableStack P l s name failnum failinfo flags (l.getFuncAddr funcName)
    funcPosInStack

/-- `fiu_disable`. -/
def fiuDisable (s : Fiu W) (name : CString) : Option (ℤ × Fiu W) := do
  let t ← s.enabledFails
  let (success, t) ← wtableDel P .ok t name
  some (if success then 0 else -1, { s with enabledFails := some t })

/-- The globals before `fiu_init`. -/
def fiuStart (world : W) : Fiu W where
  enabledFails := none
  pfs := []
  randdXn := 0xA673F42D
  lastFailinfo := fun _ => 0
  world := world

/-- `fiu_init`, `pthread_atfork` succeeding: `seed` comes from the environment or the clock, and
    `garbage` is in the cache of the table. -/
def fiuInit (s : Fiu W) (garbage : ℕ) (seed : UInt32) : ℤ × Fiu W :=
  if s.enabledFails.isSome then (0, s)
  else (0, { s with enabledFails := some (wtableCreate garbage), randdXn := seed })

/-! ## Calls

The calls as one type, so that a run is a list of them. -/

/-- A call of the library. -/
inductive FiuCall (W : Type) where
  | fail (caller : Caller) (name : CString)
  | enable (name : CString) (failnum : ℤ) (failinfo : Addr) (flags : UInt32)
  | enableRandom (name : CString) (failnum : ℤ) (failinfo : Addr) (flags : UInt32)
      (probability : ℚ)
  | enableExternal (name : CString) (failnum : ℤ) (failinfo : Addr) (flags : UInt32)
      (externalCb : ExternalCb W)
  | enableStack (name : CString) (failnum : ℤ) (failinfo : Addr) (flags : UInt32) (func : Addr)
      (funcPosInStack : ℤ)
  | enableStackByName (name : CString) (failnum : ℤ) (failinfo : Addr) (flags : UInt32)
      (funcName : String) (funcPosInStack : ℤ)
  | disable (name : CString)

/-- What a call returns. -/
inductive FiuReply where
  | fail (reply : FailReply)
  | int (r : ℤ)
  deriving DecidableEq

/-- One call of the library. -/
def fiuStep (s : Fiu W) : FiuCall W → Option (FiuReply × Fiu W)
  | .fail caller name => (fiuFail P l s caller name).map fun r => (.fail r.1, r.2)
  | .enable name failnum failinfo flags =>
    (fiuEnable P s name failnum failinfo flags).map fun r => (.int r.1, r.2)
  | .enableRandom name failnum failinfo flags probability =>
    (fiuEnableRandom P s name failnum failinfo flags probability).map fun r => (.int r.1, r.2)
  | .enableExternal name failnum failinfo flags externalCb =>
    (fiuEnableExternal P s name failnum failinfo flags externalCb).map fun r => (.int r.1, r.2)
  | .enableStack name failnum failinfo flags func funcPosInStack =>
    (fiuEnableStack P l s name failnum failinfo flags func funcPosInStack).map
      fun r => (.int r.1, r.2)
  | .enableStackByName name failnum failinfo flags funcName funcPosInStack =>
    (fiuEnableStackByName P l s name failnum failinfo flags funcName funcPosInStack).map
      fun r => (.int r.1, r.2)
  | .disable name => (fiuDisable P s name).map fun r => (.int r.1, r.2)

end Libfiu
