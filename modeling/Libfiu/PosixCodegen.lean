/-
  The wrappers of the preload library: preload/posix/generate, the macros of codegen.h, and
  modules/posix.custom.c.

  1. **The generator** — `ParsedFunction` has the fields of the class `Function`; `loadInfo` reads one
     directive, `generateTo` chooses the macros that it writes for a function.  A `Function` is one
     whose wrapper C accepts: the script does not look whether two parameters have one name.

  2. **The macros** — `Macro.run` is what each macro's code does, in a C function whose variables
     are `Locals`: it falls through to what is written below it, goes to the label `exit`, or
     returns.  `assemble` puts the macros of a function together.

  3. **The wrappers** that are written by hand, out of the same macros where the source uses them.

  The wrappers run as programs that make foreign calls (`Calls.Code`): of `fiu_fail`, of the original
  function, of `dlsym`, and of whatever those may call.  Values of C are integers, pointers
  included, 0 being `NULL`.

  What a macro expands to is read off codegen.h line by line: the order in which the counter is
  raised, the original is looked up, the point of failure is asked and `errno` is set is that of the
  source. What posix.custom.c has besides macros (reading the mode of `open`, the table of streams)
  has constructors of `Macro` of its own, so that a wrapper is a list in any case.

  Two things are parameters: what C knows of types and constants (`Source`), and what the foreign
  functions answer.
-/
import Libfiu.Lib.Calls

namespace Libfiu

namespace Posix

open Calls

/-! ## The thread, and what it calls

A wrapper runs in one thread, and the variables of that thread are all it shares with other
wrappers. What it calls may call wrappers in turn, so a call is where others come in. -/

/-- The variables of a thread.  The `static` ones are named by the file and by the wrapped function. -/
structure Tls where
  /-- `_fiu_called` -/
  fiuCalled : ℤ
  /-- `_fiu_orig_NAME` -/
  orig : String × String → ℤ
  /-- `_fiu_in_init_NAME` -/
  inInit : String × String → ℤ
  errno : ℤ
  /-- What `fiu_failinfo()` returns. -/
  failinfo : ℤ

/-- The foreign calls: what a wrapper calls that may call wrappers in turn.  The `hash` calls are the
    locked sections of `set_ferror`, `get_ferror` and `clear_ferror`, and of the routine that creates
    the table; `pthreadOnce` says whether this thread is to run that routine. -/
inductive Ext where
  | fiuFail (name : String)
  | random
  | libcSymbol (symbol : String)
  | orig (name : String) (args : List ℤ)
  | pthreadOnce
  | hashCreate
  | hashSet (stream : ℤ)
  | hashGet (stream : ℤ)
  | hashDel (stream : ℤ)
  deriving DecidableEq

/-- The code of the wrappers. -/
abbrev Code (α : Type) : Type := Calls.Code Ext ℤ Tls α

/-! ## What the C compiler knows

Constants, types and `#ifdef` belong to the platform and not to the library; they are parameters,
with what C says of them. -/

/-- An integer type of C. -/
structure IntType where
  signed : Bool
  width : ℕ

/-- A value converted to an integer type. -/
def IntType.wrap (ty : IntType) (x : ℤ) : ℤ :=
  if ty.signed then Int.bmod x (2 ^ ty.width) else x % 2 ^ ty.width

/-- `int`. -/
def IntType.int : IntType := ⟨true, 32⟩

/-- `size_t`. -/
def IntType.sizeT : IntType := ⟨false, 64⟩

/-- `random() % CNT`: `random` returns a `long`. -/
def IntType.randomMod (ty : IntType) (random cnt : ℤ) : ℤ :=
  if ty.signed = false ∧ 64 ≤ ty.width then random % 2 ^ 64 % cnt else Int.tmod random cnt

/-- A source file, with what the headers define: which names are there for `#ifdef`, what an
    expression of constants is worth, how a pointer is converted, and which integer types the names
    of types mean. -/
structure Source where
  file : String
  defined : String → Bool
  value : String → ℤ
  cast : String → ℤ → ℤ
  intType : String → IntType

variable (src : Source)

/-- The variables of a function: their values and their types, the arguments behind the last named
    parameter, and the array `valid_errnos`. -/
structure Locals where
  vars : String → ℤ
  types : String → String
  va : List ℤ
  validErrnos : List ℤ

/-- A function that begins: its parameters, by type and name, have the values of the arguments; every
    other name is that of a global variable or a constant. -/
def Locals.enter (params : List (String × String)) (args : List ℤ) : Locals where
  vars name := (((params.map Prod.snd).zip args).lookup name).getD (src.value name)
  types name := ((params.map Prod.swap).lookup name).getD "int "
  va := args.drop params.length
  validErrnos := []

/-- A variable is assigned to. -/
def Locals.set (l : Locals) (name : String) (value : ℤ) : Locals :=
  { l with vars := Function.update l.vars name value }

/-! ## The macros of codegen.h

Each macro is a piece of a function: it has the variables of the function, and it tells where the
control goes when it is over. -/

/-- `rec_inc()` -/
def recInc : Code Unit := Code.modify fun t => { t with fiuCalled := t.fiuCalled + 1 }

/-- `rec_dec()` -/
def recDec : Code Unit := Code.modify fun t => { t with fiuCalled := t.fiuCalled - 1 }

/-- `_fiu_orig_NAME` -/
def getOrig (name : String) : Code ℤ := do return (← Code.get).orig (src.file, name)

/-- `_fiu_orig_NAME = …` -/
def setOrig (name : String) (addr : ℤ) : Code Unit :=
  Code.modify fun t => { t with orig := Function.update t.orig (src.file, name) addr }

/-- `_fiu_in_init_NAME` plus `n` -/
def addInInit (name : String) (n : ℤ) : Code Unit := Code.modify fun t =>
  { t with inInit := Function.update t.inInit (src.file, name) (t.inInit (src.file, name) + n) }

/-- `_fiu_init_NAME`, which `mkwrap_init` defines. -/
def fiuInit (name : String) : Code Unit := do
  recInc
  addInInit src name 1
  let addr ← Code.ask (.libcSymbol name)
  setOrig src name addr
  addInInit src name (-1)
  recDec

/-- `if (_fiu_orig_NAME == NULL) _fiu_init_NAME();` -/
def initIfNull (name : String) : Code Unit := do
  if (← getOrig src name) = 0 then fiuInit src name

/-- `(*_fiu_orig_NAME) PARAMSN` -/
def callOrig (name : String) (args : List ℤ) : Code ℤ := do
  if (← getOrig src name) = 0 then Code.stuck else Code.ask (.orig name args)

/-- `errno = value` -/
def setErrno (value : ℤ) : Code Unit := Code.modify fun t => { t with errno := value }

/-- Where the code of a macro leads: to the code below it, to the label `exit`, or out of the
    function. -/
inductive Flow where
  | next (l : Locals)
  | exit (r : ℤ)
  | ret (r : ℤ)

/-- `mkwrap_body_called` -/
def bodyCalled (name : String) (paramsn : List String) (onErr : String) (l : Locals) : Code Flow := do
  if (← Code.get).fiuCalled ≠ 0 then
    if (← getOrig src name) = 0 then
      if (← Code.get).inInit (src.file, name) ≠ 0 then
        return .ret (src.value onErr)
      else
        fiuInit src name
        return .ret (← callOrig src name (paramsn.map l.vars))
    else
      return .ret (← callOrig src name (paramsn.map l.vars))
  else
    recInc
    return .next l

/-- The bodies that make a function fail: `fail` is what they do if the point of failure fires, with
    the result in `r`. -/
def bodyFail (fiuName : String) (fail : Code ℤ) (l : Locals) : Code Flow := do
  if (← Code.ask (.fiuFail fiuName)) ≠ 0 then
    return .exit (← fail)
  else
    return .next l

/-- `mkwrap_body_failinfo` -/
def bodyFailinfo (fiuName rtype : String) : Locals → Code Flow :=
  bodyFail fiuName do return src.cast rtype (← Code.get).failinfo

/-- `mkwrap_body_hardcoded` -/
def bodyHardcoded (fiuName failRet : String) : Locals → Code Flow :=
  bodyFail fiuName do return src.value failRet

/-- `errno = valid_errnos[random() % sizeof(valid_errnos) / sizeof(int)]`: the array has at least one
    element. -/
def randomErrno (l : Locals) : Code Unit := do
  let r ← Code.ask .random
  match l.validErrnos[(r % 2 ^ 64).toNat % (4 * l.validErrnos.length) / 4]? with
  | some e => setErrno e
  | none => Code.stuck

/-- How a failing wrapper sets `errno`: from failinfo, or else from the array. -/
def failErrno (l : Locals) : Code Unit := do
  let finfo := (← Code.get).failinfo
  if finfo = 0 then randomErrno l else setErrno (IntType.int.wrap finfo)

/-- `mkwrap_body_errno` -/
def bodyErrno (fiuName failRet : String) (l : Locals) : Code Flow :=
  bodyFail fiuName (do
    failErrno l
    return src.value failRet) l

/-- The table of the streams with injected errors is created when it is used for the first time:
    `_fiu_init_ferror_hash_table`. -/
def ferrorTable : Code Unit := do
  if (← Code.ask .pthreadOnce) ≠ 0 then
    recInc
    let _ ← Code.ask .hashCreate
    recDec

/-- `set_ferror` -/
def setFerror (stream : ℤ) : Code Unit := do
  ferrorTable
  let _ ← Code.ask (.hashSet stream)

/-- `get_ferror` -/
def getFerror (stream : ℤ) : Code Bool := do
  ferrorTable
  return (← Code.ask (.hashGet stream)) ≠ 0

/-- `clear_ferror` -/
def clearFerror (stream : ℤ) : Code Unit := do
  ferrorTable
  let _ ← Code.ask (.hashDel stream)

/-- `mkwrap_body_errno_ferror` -/
def bodyErrnoFerror (fiuName failRet stream : String) (l : Locals) : Code Flow :=
  bodyFail fiuName (do
    failErrno l
    setFerror (l.vars stream)
    return src.value failRet) l

/-- The value of `CNT - random() % CNT`: dividing by 0 is undefined. -/
def reduceCount (ty : IntType) (random cnt : ℤ) : Option ℤ :=
  if cnt = 0 then none else some (ty.wrap (cnt - ty.randomMod random cnt))

/-- `CNT -= random() % CNT;` in the code of a function. -/
def reduceVar (cnt : String) (l : Locals) : Code Flow := do
  let r ← Code.ask .random
  match reduceCount (src.intType (l.types cnt)) r (l.vars cnt) with
  | some n => return .next (l.set cnt n)
  | none => Code.stuck

/-- `mkwrap_body_reduce` -/
def bodyReduce (fiuName cnt : String) (l : Locals) : Code Flow := do
  if (← Code.ask (.fiuFail fiuName)) ≠ 0 then reduceVar src cnt l else return .next l

/-- `mkwrap_bottom` down to its label `exit` -/
def bottom (name : String) (paramsn : List String) (l : Locals) : Code Flow := do
  initIfNull src name
  return .exit (← callOrig src name (paramsn.map l.vars))

/-- The array `valid_errnos`: of each pair the second name, if the first one is defined. -/
def declareErrnos (names : List (String × String)) (l : Locals) : Code Flow :=
  return .next { l with
    validErrnos := (names.filter fun e => src.defined e.1).map fun e => src.value e.2 }

/-! ## The generator

The fields of a function, how they are filled in from the lines below its declaration, and the
macros that come of them. -/

/-- What the generator writes for a function: `top` stands for `mkwrap_top`, the last four only for
    code of posix.custom.c. -/
inductive Macro where
  | top (name : String) (paramsn : List String) (onErr : String)
  | bodyReduce (fiuName cnt : String)
  | validErrnos (names : List (String × String))
  | bodyErrno (fiuName failRet : String)
  | bodyErrnoFerror (fiuName failRet stream : String)
  | bodyHardcoded (fiuName failRet : String)
  | bodyFailinfo (fiuName rtype : String)
  | bottom (name : String) (paramsn : List String)
  | vaMode
  | clearFerror (stream : String)
  | ferrorBottom

/-- A function to be wrapped, as the script reads it. -/
structure ParsedFunction where
  retType : String
  name : String
  params : List (String × String)
  fiuName : String
  onError : Option String
  useErrno : Bool
  validErrnos : List String
  ferror : Option String
  reduce : Option String
  variants : List String
  deriving DecidableEq

/-- A new function, from its definition and the base name of the context. -/
def ParsedFunction.init (retType name : String) (params : List (String × String))
    (fiuNameBase : String) : ParsedFunction where
  retType := retType
  name := name
  params := params
  fiuName := fiuNameBase ++ "/" ++ name
  onError := none
  useErrno := false
  validErrnos := []
  ferror := none
  reduce := none
  variants := []

/-- The names of the parameters. -/
def ParsedFunction.paramsn (f : ParsedFunction) : List String := f.params.map Prod.snd

/-- A function whose wrapper C accepts: its parameters have different names. -/
structure Function extends ParsedFunction where
  distinct : (params.map Prod.snd).Nodup

/-- The codes of the characters that are white space. -/
def spaceCodes : List ℕ :=
  [0x09, 0x0a, 0x0b, 0x0c, 0x0d, 0x1c, 0x1d, 0x1e, 0x1f, 0x20, 0x85, 0xa0, 0x1680, 0x2000, 0x2001,
    0x2002, 0x2003, 0x2004, 0x2005, 0x2006, 0x2007, 0x2008, 0x2009, 0x200a, 0x2028, 0x2029, 0x202f,
    0x205f, 0x3000]

/-- `str.isspace`, and `\s`. -/
def isSpace (c : Char) : Bool := c.toNat ∈ spaceCodes

/-- `v.split()` -/
def splitBlanks (v : String) : List String :=
  (v.splitToList isSpace).filter (· ≠ "")

/-- `load_info`, for a line `k: v`. -/
def ParsedFunction.loadInfo (f : ParsedFunction) (k v : String) : Except String ParsedFunction :=
  if k = "fiu name" then .ok { f with fiuName := v }
  else if k = "on error" then .ok { f with onError := some v }
  else if k = "valid errnos" then .ok { f with useErrno := true, validErrnos := splitBlanks v }
  else if k = "ferror" then .ok { f with ferror := some v }
  else if k = "reduce" then .ok { f with reduce := some v }
  else if k = "variants" then .ok { f with variants := splitBlanks v }
  else .error ("Unknown information: " ++ k)

/-- `write_valid_errnos` -/
def writeValidErrnos (names : List String) : Macro := .validErrnos (names.map fun e => (e, e))

/-- The part of `generate_to` that chooses how the function fails. -/
def ParsedFunction.failBody (f : ParsedFunction) : Except String (List Macro) :=
  if f.useErrno then
    match f.onError with
    | none => .error (f.name ++ " uses errno but has no on_error")
    | some v =>
      match f.ferror with
      | some s => .ok [writeValidErrnos f.validErrnos, .bodyErrnoFerror f.fiuName v s]
      | none => .ok [writeValidErrnos f.validErrnos, .bodyErrno f.fiuName v]
  else
    match f.onError with
    | some v => .ok [.bodyHardcoded f.fiuName v]
    | none => .ok [.bodyFailinfo f.fiuName f.retType]

/-- The part that is there if a parameter is to be reduced: `if self.reduce:`, for which the empty
    name is like none. -/
def ParsedFunction.reduceBody (f : ParsedFunction) : List Macro :=
  match f.reduce.filter (· ≠ "") with
  | some p => [.bodyReduce (f.fiuName ++ "/reduce") p]
  | none => []

/-- `generate_to`, without the comment. -/
def ParsedFunction.generateTo (f : ParsedFunction) : Except String (List Macro) := do
  let body ← f.failBody
  return .top f.name f.paramsn (f.onError.getD "None") ::
    (f.reduceBody ++ body ++ [.bottom f.name f.paramsn])

/-- What the generator writes: `mkwrap_top`, what reduces and what fails, and `mkwrap_bottom`. -/
theorem generateTo_ok {f : ParsedFunction} {code : List Macro} (h : f.generateTo = .ok code) :
    ∃ body, f.failBody = .ok body ∧ code = .top f.name f.paramsn (f.onError.getD "None") ::
      (f.reduceBody ++ (body ++ [.bottom f.name f.paramsn])) := by
  unfold ParsedFunction.generateTo at h
  cases hbody : f.failBody with
  | error e =>
    rw [hbody] at h
    cases h
  | ok body =>
    rw [hbody] at h
    cases h
    exact ⟨body, rfl, by rw [List.append_assoc]⟩

/-- The types that `apply_variant` replaces in the parameters. -/
def variantType (ty : String) : String :=
  if ty = "off_t " then "off64_t "
  else if ty = "fpos_t *" then "fpos64_t *"
  else if ty = "const fpos_t *" then "const fpos64_t *"
  else ty

/-- `apply_variant`: the point of failure keeps its name. -/
def ParsedFunction.applyVariant (f : ParsedFunction) (v : String) : Except String ParsedFunction :=
  if v ≠ "off64_t" then .error ("Unknown function variant: " ++ v)
  else .ok { f with
    name := f.name ++ "64"
    params := f.params.map fun p => (variantType p.1, p.2)
    retType := f.retType.replace "off_t" "off64_t" }

/-- `get_all_variants` -/
def ParsedFunction.getAllVariants (f : ParsedFunction) : Except String (List ParsedFunction) := do
  return f :: (← f.variants.mapM f.applyVariant)

/-- An entry of a module: the definition of a function, under the base name of the context, and the
    lines with its directives. -/
structure Entry where
  retType : String
  name : String
  params : List (String × String)
  fiuNameBase : String
  infos : List (String × String)

/-- What `parse_module` makes of an entry. -/
def Entry.load (e : Entry) : Except String (List ParsedFunction) := do
  let f ← e.infos.foldlM (fun f info => f.loadInfo info.1 info.2)
    (ParsedFunction.init e.retType e.name e.params e.fiuNameBase)
  f.getAllVariants

/-! ## The wrappers

The functions of posix.custom.c in the order of their macros, down to what is different in each of
them. -/

/-- `mode`, of `open`: the argument behind the named ones, when there is one to be expected. -/
def vaMode (l : Locals) : Code Flow :=
  if Int.land (l.vars "flags") (src.value "O_CREAT") ≠ 0 then
    match l.va.head? with
    | some mode => return .next (l.set "mode" mode)
    | none => Code.stuck
  else return .next (l.set "mode" 0)

/-- The end of `ferror`, which has more to it than `mkwrap_bottom`. -/
def ferrorBottom (l : Locals) : Code Flow := do
  initIfNull src "ferror"
  let r ← callOrig src "ferror" [l.vars "stream"]
  if r = 0 then
    if (← getFerror (l.vars "stream")) then return .exit 1 else return .exit r
  else return .exit r

/-- What the code of a macro does. -/
def Macro.run : Macro → Locals → Code Flow
  | top name paramsn onErr => bodyCalled src name paramsn onErr
  | bodyReduce fiuName cnt => Posix.bodyReduce src fiuName cnt
  | validErrnos names => declareErrnos src names
  | bodyErrno fiuName failRet => Posix.bodyErrno src fiuName failRet
  | bodyErrnoFerror fiuName failRet stream => Posix.bodyErrnoFerror src fiuName failRet stream
  | bodyHardcoded fiuName failRet => Posix.bodyHardcoded src fiuName failRet
  | bodyFailinfo fiuName rtype => Posix.bodyFailinfo src fiuName rtype
  | bottom name paramsn => Posix.bottom src name paramsn
  | vaMode => Posix.vaMode src
  | clearFerror stream => fun l => do
    Posix.clearFerror (l.vars stream)
    return .next l
  | ferrorBottom => Posix.ferrorBottom src

/-- What follows a macro: the rest of the function, or `exit: rec_dec(); return r;`, or nothing. -/
def Flow.follow (rest : Locals → Code ℤ) : Flow → Code ℤ
  | .next l => rest l
  | .exit r => do
    recDec
    return r
  | .ret r => return r

/-- The code of a function, one macro after another. -/
def assemble : List Macro → Locals → Code ℤ
  | [], _ => Code.stuck
  | m :: ms, l => do (← m.run src l).follow (assemble ms)

/-- The functions of posix.custom.c with a variable number of arguments: their name, the original
    that they call, their named parameters, and how they fail. -/
structure Variadic where
  name : String
  nvname : String
  params : List (String × String)
  onErr : String
  validErrnos : List String
  fiuName : String
  stream : Option String

/-- The variables that hold its arguments. -/
def Variadic.allParams (v : Variadic) : List (String × String) :=
  v.params ++ [("va_list ", "arguments")]

/-- The code of such a function: `mkwrap_variadic_def_and_body_called`, a body, and
    `mkwrap_variadic_bottom`.  The arguments behind the named ones go on as `arguments`. -/
def Variadic.macros (v : Variadic) : List Macro :=
  let paramsn := v.params.map Prod.snd ++ ["arguments"]
  [.top v.nvname paramsn v.onErr, writeValidErrnos v.validErrnos,
    match v.stream with
    | some s => .bodyErrnoFerror v.fiuName v.onErr s
    | none => .bodyErrno v.fiuName v.onErr,
    .bottom v.nvname paramsn]

/-- The errnos of the functions that print. -/
def formatErrnos : List String :=
  ["EAGAIN", "EBADF", "EFBIG", "EINTR", "EIO", "ENOMEM", "ENOSPC", "ENXIO", "EPIPE", "EILSEQ",
    "EOVERFLOW"]

/-- The errnos of the functions that scan. -/
def scanErrnos : List String :=
  ["EAGAIN", "EBADF", "EINTR", "EIO", "ENOMEM", "ENXIO", "EOVERFLOW", "EILSEQ"]

def streamParam : String × String := ("FILE *restrict ", "stream")

def formatParam : String × String := ("const char *restrict ", "format")

def fprintf : Variadic :=
  ⟨"fprintf", "vfprintf", [streamParam, formatParam], "-1", formatErrnos,
    "posix/stdio/sp/fprintf", some "stream"⟩

def printf : Variadic :=
  ⟨"printf", "vprintf", [formatParam], "-1", formatErrnos, "posix/stdio/sp/printf", some "stdout"⟩

def dprintf : Variadic :=
  ⟨"dprintf", "vdprintf", [("int ", "fildes"), formatParam], "-1", formatErrnos,
    "posix/stdio/sp/dprintf", none⟩

def fscanf : Variadic :=
  ⟨"fscanf", "vfscanf", [streamParam, formatParam], "EOF", scanErrnos ++ ["EINVAL"],
    "posix/stdio/sp/fscanf", some "stream"⟩

def scanf : Variadic :=
  ⟨"scanf", "vscanf", [formatParam], "EOF", scanErrnos, "posix/stdio/sp/scanf", some "stdin"⟩

/-- The array in `open`, whose first element stands under `#ifdef EACCESS`. -/
def openErrnos : Macro :=
  .validErrnos (("EACCESS", "EACCES") :: ["EFAULT", "EFBIG", "EOVERFLOW", "ELOOP", "EMFILE",
    "ENAMETOOLONG", "ENFILE", "ENOENT", "ENOMEM", "ENOSPC", "ENOTDIR", "EROFS"].map fun e => (e, e))

/-- `open` -/
def openMacros : List Macro :=
  [.vaMode, .top "open" ["pathname", "flags", "mode"] "-1", openErrnos,
    .bodyErrno "posix/io/oc/open" "-1", .bottom "open" ["pathname", "flags", "mode"]]

/-- `open64`: the first part is that of `open`. -/
def open64Macros : List Macro :=
  [.vaMode, .top "open" ["pathname", "flags", "mode"] "-1", openErrnos,
    .bodyErrno "posix/io/oc/open" "-1", .bottom "open64" ["pathname", "flags", "mode"]]

/-- `ferror` -/
def ferrorMacros : List Macro :=
  [.top "ferror" ["stream"] "1", .bodyHardcoded "posix/stdio/error/ferror" "1", .ferrorBottom]

/-- `fclose` -/
def fcloseMacros : List Macro :=
  [.top "fclose" ["stream"] "EOF",
    writeValidErrnos ["EAGAIN", "EBADF", "EFBIG", "EFBIG", "EINTR", "EIO", "ENOMEM", "ENOSPC", "EPIPE",
      "ENXIO"],
    .bodyErrno "posix/stdio/oc/fclose" "EOF", .clearFerror "stream", .bottom "fclose" ["stream"]]

/-- `clearerr` -/
def clearerr (stream : ℤ) : Code ℤ := do
  recInc
  initIfNull src "clearerr"
  let _ ← callOrig src "clearerr" [stream]
  clearFerror stream
  recDec
  return 0

/-- The wrappers of the library: the one that the generator writes for a function, and those written
    by hand. -/
inductive Wrapper where
  | generated (f : Function) (code : List Macro) (h : f.generateTo = .ok code)
  | variadic (v : Variadic)
  | open
  | open64
  | ferror
  | fclose
  | clearerr

def openParams : List (String × String) := [("const char *", "pathname"), ("int ", "flags")]

def fileParams : List (String × String) := [("FILE *", "stream")]

/-- A call of a wrapper. -/
def Wrapper.run : Wrapper → List ℤ → Code ℤ
  | generated f code _, args => assemble src code (.enter src f.params args)
  | variadic v, args => assemble src v.macros (.enter src v.allParams args)
  | .open, args => assemble src openMacros (.enter src openParams args)
  | open64, args => assemble src open64Macros (.enter src openParams args)
  | ferror, args => assemble src ferrorMacros (.enter src fileParams args)
  | fclose, args => assemble src fcloseMacros (.enter src fileParams args)
  | clearerr, args => Posix.clearerr src ((Locals.enter src fileParams args).vars "stream")

/-! ## Two functions

One that fails with an errno and records its stream, and one whose directives do not go together. -/

/-- A thread that has called no wrapper yet. -/
def Tls.start : Tls := ⟨0, fun _ => 0, fun _ => 0, 0, 0⟩

/-- `fgetc`, from posix.stdio.mod -/
def fgetc : Function where
  retType := "int "
  name := "fgetc"
  params := [("FILE *", "stream")]
  distinct := by decide
  fiuName := "posix/stdio/gp/fgetc"
  onError := some "EOF"
  useErrno := true
  validErrnos := ["EAGAIN", "EBADF", "EINTR", "EIO", "ENOMEM", "ENXIO", "EOVERFLOW"]
  ferror := some "stream"
  reduce := none
  variants := []

/-- `ungetc`, from posix.stdio.mod -/
def ungetc : Function where
  retType := "int "
  name := "ungetc"
  params := [("int ", "c"), ("FILE *", "stream")]
  distinct := by decide
  fiuName := "posix/stdio/gp/ungetc"
  onError := some "EOF"
  useErrno := false
  validErrnos := []
  ferror := some "stream"
  reduce := none
  variants := []

/-- What the generator writes for `fgetc`. -/
def fgetcWrapper : Wrapper := .generated fgetc _ rfl

example : Entry.load ⟨"int ", "ungetc", [("int ", "c"), ("FILE *", "stream")],
    "posix/stdio/gp", [("on error", "EOF"), ("ferror", "stream")]⟩ = .ok [ungetc.toParsedFunction] := by
  rfl

/-- A platform that defines the names, with the value -1 for everything. -/
def someSource (file : String) : Source :=
  ⟨file, fun _ => true, fun _ => -1, fun _ x => x, fun _ => .int⟩

end Posix

end Libfiu
