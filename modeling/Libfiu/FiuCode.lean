/-
  The functions of fiu.c, backtrace.c and fiu-rc.c, call by call.

  1. **Calls** — everything that a function does and that another thread, or the function that it
     calls, could see is a call (`FiuOp`): reading or changing `rec_count`, taking or giving back
     `enabled_fails_lock`, a function of libc, of wtable.c, or an external callback, and reading or
     writing memory that other threads write, too.

  2. **Left open** — what a call answers is a word, 0 being NULL and false.  Only `rec_count` is
     known (`FiuTls`); what libc and the table answer, and what is read from memory, is left open.
     So what the functions only pass on (names, failure numbers, pointers) is left out, but not what
     they decide by.

  3. **Functions** — under the names of the source.  What follows a label (`exit`, `exit_fail`,
     `reopen`) is a function of its own.  Tracing is off.

  A function is a tree (`Calls.Code`): at each call it branches over all answers, and it ends with
  what it returns. Every such tree is finite, since a loop of the source is a recursion over its
  bound here; what can still be without an end is a run of several functions, and `FiuReentry` is
  about these. What is checked against the source is the order of the calls on each path, which is
  all that the results about `rec_count` and the lock depend on.
-/
import Libfiu.Lib.Calls
import Libfiu.RcLine

namespace Libfiu

namespace Reentry

open Calls

/-! ## Calls

What a function can do to its surroundings is a call, memory included. `ends` are the calls after
which nothing more is known: the thread is gone, or what comes is undefined. -/

/-- The functions of libc that are called; `strings` are those that take a command apart. -/
inductive LibcFn where
  | malloc
  | free
  | strdup
  | strlen
  | strings
  | getenv
  | atoi
  | gettimeofday
  | pthreadMutexInit
  | pthreadMutexLock
  | pthreadMutexUnlock
  | pthreadKeyCreate
  | pthreadSetspecific
  | pthreadAtfork
  | pthreadCreate
  | atexit
  | backtrace
  | dladdr
  | dladdr1
  | dlsym
  | getpid
  | snprintf
  | fprintf
  | perror
  | mkfifo
  | unlink
  | «open»
  | read
  | write
  | close
  deriving DecidableEq

/-- The functions of wtable.c.  They call libc, too, and use neither `rec_count` nor
    `enabled_fails_lock`. -/
inductive WtableFn where
  | create
  | get
  | set
  | del
  deriving DecidableEq

/-- What is read from memory, or written. -/
inductive Var where
  | initialized
  | enabledFails
  | randdXn
  | randdXnManual
  | works
  /-- `pf->flags & FIU_ONETIME`. -/
  | onetime
  | failedOnce
  | failnum
  | method
  | probability
  | externalCb
  | funcStart
  | funcEnd
  | funcPosInStack
  /-- The fields that `pf_create` fills. -/
  | pfInfo
  | npipePath
  | npipeBasename
  /-- What libc left for its caller: a `Dl_info`, an `ElfW(Sym)`, the buffer of a backtrace, the byte
      that was read, `errno`. -/
  | dliSaddr
  | elfInfo
  | stSize
  | btBuffer
  | readByte
  | errno
  deriving DecidableEq

/-- A call. -/
inductive FiuOp where
  | recInc
  | recDec
  | recCount
  | efRlock
  | efWlock
  | efUnlock
  | libc (fn : LibcFn)
  | wtable (fn : WtableFn)
  | externalCb
  | load (v : Var)
  | store (v : Var)
  /-- `p > x` on doubles, given as words. -/
  | greater (p x : ℤ)
  /-- The thread is over. -/
  | threadOver
  /-- `atoi`, `strtoul` or `strtod` reads a number through NULL, which is undefined. -/
  | nullRead
  /-- The turns of the loop of `rc_fifo_thread` that are looked at are over.  The loop itself has no
      end. -/
  | turnsOver
  deriving DecidableEq

/-- What comes after such a call is not in the source, or undefined: it does not answer. -/
def FiuOp.ends : FiuOp → Bool
  | .threadOver | .nullRead | .turnsOver => true
  | _ => false

/-- A thread: its `rec_count`, and whether it holds `enabled_fails_lock`, for reading or writing. -/
structure FiuTls where
  recCount : ℤ
  holds : Bool
  deriving DecidableEq

/-- What a call does to the thread. -/
def FiuOp.after (op : FiuOp) (t : FiuTls) : FiuTls :=
  match op with
  | .recInc => { t with recCount := t.recCount + 1 }
  | .recDec => { t with recCount := t.recCount - 1 }
  | .efRlock | .efWlock => { t with holds := true }
  | .efUnlock => { t with holds := false }
  | _ => t

/-- A function of the library. -/
abbrev FiuCode (α : Type) : Type := Code FiuOp ℤ FiuTls α

/-- A call of libc. -/
def libc (fn : LibcFn) : FiuCode ℤ := Code.ask (.libc fn)

/-- Reading memory. -/
def load (v : Var) : FiuCode ℤ := Code.ask (.load v)

/-- Writing to memory. -/
def store (v : Var) : FiuCode ℤ := Code.ask (.store v)

/-! ## backtrace.c

The functions call libc and nothing of the library. Each loop has a bound, the number of addresses. -/

/-- `get_backtrace`. -/
def getBacktrace : FiuCode ℤ := libc .backtrace

/-- `get_func_start`. -/
def getFuncStart : FiuCode ℤ := do
  let r ← libc .dladdr
  if r = 0 then pure 0 else load .dliSaddr

/-- `get_func_end`, for the function at `func`. -/
def getFuncEnd (func : ℤ) : FiuCode ℤ := do
  let r ← libc .dladdr1
  if r = 0 then pure 0
  else
    let elfInfo ← load .elfInfo
    if elfInfo = 0 then pure 0
    else
      let saddr ← load .dliSaddr
      if saddr = 0 then pure 0
      else
        let size ← load .stSize
        pure (func + size)

/-- `get_func_addr`. -/
def getFuncAddr : FiuCode ℤ := libc .dlsym

/-- `works = r; return works`. -/
def setWorks (r : ℤ) : FiuCode ℤ := do
  let _ ← store .works
  pure r

/-- The loop of `backtrace_works`, over `nptrs` addresses. -/
def backtraceWorksLoop (start funcEnd : ℤ) : ℕ → FiuCode ℤ
  | 0 => setWorks 0
  | nptrs + 1 => do
    let pc ← load .btBuffer
    if funcEnd ≠ 0 then
      if pc ≥ start ∧ pc ≤ funcEnd then setWorks 1 else backtraceWorksLoop start funcEnd nptrs
    else
      let pcStart ← getFuncStart
      if pcStart = start then setWorks 1 else backtraceWorksLoop start funcEnd nptrs

/-- `backtrace_works`, called by the function at `caller`. -/
def backtraceWorks (caller : ℤ) : FiuCode ℤ := do
  let works ← load .works
  if works ≥ 0 then pure works
  else
    let nptrs ← getBacktrace
    if nptrs ≤ 0 then setWorks 0
    else
      let start ← getFuncStart
      let funcEnd ← getFuncEnd caller
      if start = 0 ∧ funcEnd = 0 then setWorks 0
      else backtraceWorksLoop start funcEnd nptrs.toNat

/-! ## fiu.c

Every way out of a function is there, with the order of `rec_count` and the lock on it. What a label
of the source leads to is a definition of its own.

A path of a function is one sequence of answers. Answers that the real functions never give are
paths too, so nothing is lost by leaving them open. -/

/-- `exit` of `pf_create`. -/
def pfCreateExit (pf : ℤ) : FiuCode ℤ := do
  let _ ← Code.ask .recDec
  pure pf

/-- `pf_create`. -/
def pfCreate : FiuCode ℤ := do
  let _ ← Code.ask .recInc
  let pf ← libc .malloc
  if pf = 0 then pfCreateExit pf
  else
    let name ← libc .strdup
    if name = 0 then
      let _ ← libc .free
      pfCreateExit 0
    else
      let _ ← libc .strlen
      let _ ← store .pfInfo
      let _ ← libc .pthreadMutexInit
      let _ ← store .failedOnce
      pfCreateExit pf

/-- `pc_in_func`. -/
def pcInFunc : FiuCode Bool := do
  let pc ← load .btBuffer
  let funcEnd ← load .funcEnd
  let funcStart ← load .funcStart
  if funcEnd ≠ 0 then pure (pc ≥ funcStart ∧ pc ≤ funcEnd)
  else
    let start ← getFuncStart
    pure (funcStart = start)

/-- The loop of `should_stack_fail`, over `n` addresses from the one at `i` on. -/
def shouldStackFailLoop : ℕ → ℤ → FiuCode ℤ
  | 0, _ => pure 0
  | n + 1, i => do
    let inFunc ← pcInFunc
    let pos ← load .funcPosInStack
    if inFunc = true ∧ (pos = -1 ∨ i = pos) then pure 1 else shouldStackFailLoop n (i + 1)

/-- `should_stack_fail`. -/
def shouldStackFail : FiuCode ℤ := do
  let nptrs ← getBacktrace
  shouldStackFailLoop nptrs.toNat 0

/-- `prng_seed`. -/
def prngSeed : FiuCode ℤ := do
  let manual ← load .randdXnManual
  if manual ≠ 0 then pure 0
  else
    let _ ← libc .gettimeofday
    store .randdXn

/-- `fiu_set_prng_seed`. -/
def fiuSetPrngSeed : FiuCode ℤ := do
  let _ ← store .randdXn
  store .randdXnManual

/-- `randd`. -/
def randd : FiuCode ℤ := do
  let _ ← load .randdXn
  let _ ← store .randdXn
  load .randdXn

/-- The way out of `fiu_init`. -/
def fiuInitExit (r : ℤ) : FiuCode ℤ := do
  let _ ← Code.ask .efUnlock
  let _ ← Code.ask .recDec
  pure r

/-- The seed that is in the environment. -/
def seedFromEnv (seed : ℤ) : FiuCode ℤ :=
  if seed ≠ 0 then do
    let _ ← libc .atoi
    fiuSetPrngSeed
  else pure 0

/-- `fiu_init`. -/
def fiuInit : FiuCode ℤ := do
  let _ ← Code.ask .recInc
  let _ ← Code.ask .efWlock
  let initialized ← load .initialized
  if initialized ≠ 0 then fiuInitExit 0
  else
    let _ ← libc .pthreadKeyCreate
    let _ ← Code.ask (.wtable .create)
    let _ ← store .enabledFails
    let r ← libc .pthreadAtfork
    if r ≠ 0 then fiuInitExit (-1)
    else
      let seed ← libc .getenv
      let _ ← seedFromEnv seed
      let _ ← prngSeed
      let _ ← store .initialized
      fiuInitExit 0

/-- The way out of `fiu_fail`. -/
def fiuFailReturn (r : ℤ) : FiuCode ℤ := do
  let _ ← Code.ask .efUnlock
  let _ ← Code.ask .recDec
  pure r

/-- `exit_fail` of `fiu_fail`. -/
def exitFail : FiuCode ℤ := do
  let _ ← libc .pthreadSetspecific
  let failnum ← load .failnum
  let onetime ← load .onetime
  if onetime ≠ 0 then
    let _ ← store .failedOnce
    let _ ← libc .pthreadMutexUnlock
    fiuFailReturn failnum
  else fiuFailReturn failnum

/-- Behind the `switch` of `fiu_fail`. -/
def notFailing : FiuCode ℤ := do
  let onetime ← load .onetime
  if onetime ≠ 0 then
    let _ ← libc .pthreadMutexUnlock
    fiuFailReturn 0
  else fiuFailReturn 0

/-- The `switch` of `fiu_fail`. -/
def fiuFailSwitch : FiuCode ℤ := do
  let method ← load .method
  if method = 1 then exitFail
  else if method = 2 then
    let probability ← load .probability
    let x ← randd
    let greater ← Code.ask (.greater probability x)
    if greater ≠ 0 then exitFail else notFailing
  else if method = 3 then
    let r ← Code.ask .externalCb
    if r ≠ 0 then exitFail else notFailing
  else if method = 4 then
    let r ← shouldStackFail
    if r ≠ 0 then exitFail else notFailing
  else notFailing

/-- `fiu_fail`, once it has found a point. -/
def fiuFailFound : FiuCode ℤ := do
  let onetime ← load .onetime
  if onetime ≠ 0 then
    let _ ← libc .pthreadMutexLock
    let failedOnce ← load .failedOnce
    if failedOnce ≠ 0 then
      let _ ← libc .pthreadMutexUnlock
      fiuFailReturn 0
    else fiuFailSwitch
  else fiuFailSwitch

/-- `fiu_fail` from `ef_rlock` on. -/
def fiuFailLocked : FiuCode ℤ := do
  let _ ← Code.ask .efRlock
  let table ← load .enabledFails
  if table = 0 then fiuFailReturn 0
  else
    let pf ← Code.ask (.wtable .get)
    if pf = 0 then fiuFailReturn 0 else fiuFailFound

/-- `fiu_fail`. -/
def fiuFail : FiuCode ℤ := do
  let _ ← Code.ask .recInc
  let count ← Code.ask .recCount
  if count > 1 then
    let _ ← Code.ask .recDec
    pure 0
  else fiuFailLocked

/-- `insert_pf`. -/
def insertPf : FiuCode ℤ := do
  let _ ← Code.ask .recInc
  let _ ← Code.ask .efWlock
  let success ← Code.ask (.wtable .set)
  let _ ← Code.ask .efUnlock
  let _ ← Code.ask .recDec
  pure (if success ≠ 0 then 0 else -1)

/-- `fiu_enable`. -/
def fiuEnable : FiuCode ℤ := do
  let pf ← pfCreate
  if pf = 0 then pure (-1) else insertPf

/-- `fiu_enable_random`. -/
def fiuEnableRandom : FiuCode ℤ := do
  let pf ← pfCreate
  if pf = 0 then pure (-1)
  else
    let _ ← store .probability
    insertPf

/-- `fiu_enable_external`. -/
def fiuEnableExternal : FiuCode ℤ := do
  let pf ← pfCreate
  if pf = 0 then pure (-1)
  else
    let _ ← store .externalCb
    insertPf

/-- `fiu_enable_stack`, once `func` is known to have a start or an end. -/
def enableStackPf (func : ℤ) : FiuCode ℤ := do
  let pf ← pfCreate
  if pf = 0 then pure (-1)
  else
    let _ ← store .funcStart
    let _ ← getFuncEnd func
    let _ ← store .funcEnd
    let _ ← store .funcPosInStack
    insertPf

/-- `fiu_enable_stack`, which is at the address `self`. -/
def fiuEnableStack (self func funcPosInStack : ℤ) : FiuCode ℤ :=
  if funcPosInStack ≠ -1 then pure (-1)
  else do
    let works ← backtraceWorks self
    if works = 0 then pure (-1)
    else
      let funcEnd ← getFuncEnd func
      if funcEnd = 0 then
        let start ← getFuncStart
        if start = 0 then pure (-1) else enableStackPf func
      else enableStackPf func

/-- `fiu_enable_stack_by_name`; `self` and `stack` are the addresses of the two functions. -/
def fiuEnableStackByName (self stack funcPosInStack : ℤ) : FiuCode ℤ := do
  let works ← backtraceWorks self
  if works = 0 then pure (-1)
  else
    let fp ← getFuncAddr
    if fp = 0 then pure (-1) else fiuEnableStack stack fp funcPosInStack

/-- `fiu_disable`. -/
def fiuDisable : FiuCode ℤ := do
  let _ ← Code.ask .recInc
  let _ ← Code.ask .efWlock
  let success ← Code.ask (.wtable .del)
  let _ ← Code.ask .efUnlock
  let _ ← Code.ask .recDec
  pure (if success ≠ 0 then 0 else -1)

/-! ## fiu-rc.c

The remote control: taking a line apart, the call that it makes, and the thread that reads the pipe.
Its loop has no end in the source; here it has as many turns as one likes. -/

/-- `EEXIST`. -/
def eexist : ℤ := 17

/-- `EPIPE`. -/
def epipe : ℤ := 32

/-- The loop of `read_line`, for at most `n` more bytes: what it returns, and the array. -/
def readLineLoop : ℕ → List UInt8 → FiuCode (ℤ × List UInt8)
  | 0, _ => Code.stuck
  | n + 1, buf => do
    let r ← libc .read
    if r < 0 then pure (-1, buf)
    else if r = 0 then readLineReturn (readLineStep buf .eof)
    else
      let c ← load .readByte
      match readLineStep buf (.byte (UInt8.ofNat c.toNat)) with
      | .more buf => readLineLoop n buf
      | .done len array => pure (len, array)
where
  /-- Behind the loop. -/
  readLineReturn : LineStep → FiuCode (ℤ × List UInt8)
    | .more _ => Code.stuck
    | .done len array => pure (len, array)

/-- `read_line`. -/
def readLine : FiuCode (ℤ × List UInt8) := readLineLoop maxLine []

/-- The call that a command makes, the functions being at the addresses `byName` and `stack`. -/
def rcCall (byName stack : ℤ) : RcCall → FiuCode ℤ
  | .disable _ => fiuDisable
  | .enable _ _ _ _ => fiuEnable
  | .enableRandom _ _ _ _ _ => fiuEnableRandom
  | .enableStackByName _ _ _ _ _ funcPosInStack => fiuEnableStackByName byName stack funcPosInStack

/-- Where `fiu_rc_string` is called from, and what it needs of its surroundings: `strtod`, and the
    addresses of `fiu_enable_stack_by_name` and `fiu_enable_stack`. -/
structure RcEnv where
  strtod : List UInt8 → ℚ
  byName : ℤ
  stack : ℤ

/-- `fiu_rc_string`. -/
def fiuRcString (env : RcEnv) (cmd : CString) : FiuCode ℤ := do
  let _ ← libc .strings
  match Libfiu.fiuRcString env.strtod cmd with
  | .reject _ => pure (-1)
  | .nullNumber => Code.ask .nullRead
  | .control _ call => rcCall env.byName env.stack call

/-- The reply of `rc_do_command`. -/
def rcReplyTo (len : ℤ) : FiuCode ℤ := do
  let _ ← libc .snprintf
  let written ← libc .write
  if written ≤ 0 then pure written else pure len

/-- `rc_do_command`. -/
def rcDoCommand (env : RcEnv) : FiuCode ℤ := do
  let line ← readLine
  if line.1 ≤ 0 then pure line.1
  else
    let r ← fiuRcString env (CString.ofArray line.2)
    if r < 0 then
      let _ ← libc .fprintf
      rcReplyTo line.1
    else rcReplyTo line.1

/-- `reopen` of `rc_fifo_thread`; `serve` is the loop behind it. -/
def rcFifoReopen (serve : ℕ → FiuCode ℤ) (errcount : ℕ) : FiuCode ℤ :=
  if errcount > 10 then do
    let _ ← libc .fprintf
    pure 0
  else do
    let fdr ← libc .open
    if fdr < 0 then pure 0
    else
      let fdw ← libc .open
      if fdw < 0 then
        let _ ← libc .close
        pure 0
      else serve errcount

/-- The loop of `rc_fifo_thread`, for up to `n` commands. -/
def rcFifoLoop (env : RcEnv) : ℕ → ℕ → FiuCode ℤ
  | 0, _ => Code.ask .turnsOver
  | n + 1, errcount => do
    let r ← rcDoCommand env
    if r > 0 then rcFifoLoop env n errcount
    else
      let errno ← load .errno
      if r < 0 ∧ errno ≠ epipe then
        let _ ← libc .perror
        let _ ← libc .close
        let _ ← libc .close
        rcFifoReopen (rcFifoLoop env n) (errcount + 1)
      else
        let _ ← libc .close
        let _ ← libc .close
        rcFifoReopen (rcFifoLoop env n) errcount

/-- `rc_fifo_thread`, for up to `n` commands; it raises `rec_count` for good, and when it returns the
    thread is over. -/
def rcFifoThread (env : RcEnv) (n : ℕ) : FiuCode ℤ := do
  let _ ← Code.ask .recInc
  let _ ← rcFifoReopen (rcFifoLoop env n) 0
  Code.ask .threadOver

/-- The ways out of `_fiu_rc_fifo`. -/
def fiuRcFifoExit (r : ℤ) : FiuCode ℤ := do
  let _ ← Code.ask .recDec
  pure r

/-- `_fiu_rc_fifo`, once both pipes are there. -/
def startRcFifoThread : FiuCode ℤ := do
  let r ← libc .pthreadCreate
  if r ≠ 0 then
    let _ ← libc .unlink
    let _ ← libc .unlink
    fiuRcFifoExit (-1)
  else
    let _ ← libc .atexit
    fiuRcFifoExit 0

/-- The second `mkfifo` of `_fiu_rc_fifo`, and what follows. -/
def mkfifoOut : FiuCode ℤ := do
  let r ← libc .mkfifo
  let errno ← load .errno
  if r ≠ 0 ∧ errno ≠ eexist then
    let _ ← libc .unlink
    fiuRcFifoExit (-1)
  else startRcFifoThread

/-- `_fiu_rc_fifo`. -/
def _fiuRcFifo : FiuCode ℤ := do
  let _ ← Code.ask .recInc
  let _ ← libc .strlen
  let _ ← libc .malloc
  let _ ← store .npipePath
  let _ ← libc .malloc
  let _ ← store .npipePath
  let _ ← libc .getpid
  let _ ← libc .snprintf
  let _ ← libc .getpid
  let _ ← libc .snprintf
  let r ← libc .mkfifo
  let errno ← load .errno
  if r ≠ 0 ∧ errno ≠ eexist then fiuRcFifoExit (-1) else mkfifoOut

/-- `fiu_rc_fifo`. -/
def fiuRcFifo : FiuCode ℤ := do
  let r ← _fiuRcFifo
  if r < 0 then pure r
  else
    let _ ← libc .strdup
    let _ ← store .npipeBasename
    let _ ← libc .pthreadAtfork
    pure r

end Reentry

end Libfiu
