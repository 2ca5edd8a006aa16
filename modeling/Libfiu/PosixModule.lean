/-
  The modules of the preload library, as text: `parse_module` of preload/posix/generate.

  1. **Expressions** — `funcDefRe` and `paramsInfoRe` are the two regular expressions of the script.

  2. **Program** — the text is split into lines, a line that ends in a backslash goes on in the next one
     (`logicalLines`), and `ParseState.step` is the body of the loop on such a line: the function it is
     in, the base of the names, and the directives so far.  What Python raises is an error.

  3. **What is outside** — a text is what `open` gives: its characters are decoded, and its lines end in
     `'\n'`.  They are ASCII: `\w` is an ASCII letter, a digit or `_` here, and any Unicode letter in
     Python.

  What Python would raise is an error of the model in the same place, with its message: a line about
  a function where there is none, a declaration that the expressions do not match, a directive that
  is not known. An error ends the reading, and nothing is written for the module.
-/
import Libfiu.PosixCodegen
import Libfiu.Lib.Regex

namespace Libfiu

namespace Posix

/-! ## Characters

Python's strings are lists of characters here; `strip` takes white space off at both ends. -/

/-- `\w`. -/
def isWord (c : Char) : Bool := c.isAlphanum || c == '_'

/-- `s.strip()`, of the characters `p`. -/
def stripOf (p : Char → Bool) (s : List Char) : List Char := (s.dropWhile p).rdropWhile p

/-- `s.strip()` -/
def strip : List Char → List Char := stripOf isSpace

/-- `s.split(':', 1)`, both parts stripped. -/
def splitColon (s : List Char) : List Char × List Char :=
  (strip (s.takeWhile (· ≠ ':')), strip ((s.dropWhile (· ≠ ':')).drop 1))

/-! ## The regular expressions

Both are built up from their parts, in the order of the text of the script, and run by the matcher
of `Lib/Regex`. -/

/-- The names of the groups. -/
inductive Group where
  | retType
  | name
  | params
  | type
  deriving DecidableEq

/-- An expression of the script. -/
abbrev Re : Type := Regex Group Char

/-- One character. -/
def lit (c : Char) : Re := .char (· == c)

/-- `.` -/
def dot : Re := .char (· != '\n')

/-- `[\w\*]` -/
def isWordStar (c : Char) : Bool := isWord c || c == '*'

/-- `[\w\*]+\s+\**` -/
def pieceRe : Re :=
  .seq (.plus (.char isWordStar)) (.seq (.plus (.char isSpace)) (.star (lit '*')))

/-- `(?:[\w\*]+\s+\**)+` -/
def typeRe : Re := .plus pieceRe

/-- `(?P<name>\w+)` -/
def nameRe : Re := .group .name (.plus (.char isWord))

/-- `func_def_re` -/
def funcDefRe : Re :=
  .seq (.plus (.group .retType typeRe)) <| .seq nameRe <| .seq (.star dot) <| .seq (lit '(') <|
    .seq (.group .params (.star dot)) <| .seq (lit ')') <| .seq (.star dot) (lit ';')

/-- What `params_info_re` repeats. -/
def paramRe : Re :=
  .seq (.plus (.group .type typeRe)) <| .seq nameRe <| .seq (.opt (lit ',')) (.star (.char isSpace))

/-- `params_info_re` -/
def paramsInfoRe : Re := .lazyPlus paramRe

/-- What `findall` gives of a match: the type and the name. -/
def paramInfo (c : Regex.Captures Group Char) : List Char × List Char :=
  ((c.get? .type).getD [], (c.get? .name).getD [])

/-- `load_from_definition`: the return type, the name and the parameters, if the definition matches. -/
def loadFromDefinition (definition : List Char) :
    Option (List Char × List Char × List (List Char × List Char)) := do
  let (m, _) ← funcDefRe.first definition
  let name ← m.get? .name
  let retType ← m.get? .retType
  let params ← m.get? .params
  some (retType, name, (paramsInfoRe.findAll params).map paramInfo)

/-- The parameters, as strings. -/
def paramStrings (params : List (List Char × List Char)) : List (String × String) :=
  params.map fun p => (String.ofList p.1, String.ofList p.2)

/-- `Function(definition, ctx)`. -/
def ParsedFunction.ofDefinition (definition : List Char) (fiuNameBase : String) :
    Except String ParsedFunction :=
  match loadFromDefinition definition with
  | none => .error "'NoneType' object has no attribute 'group'"
  | some (retType, name, params) =>
    .ok (.init (String.ofList retType) (String.ofList name) (paramStrings params) fiuNameBase)

/-! ## Directives

What a module is turned into, before anything is written. -/

/-- The directives of a module. -/
inductive Directive where
  | function (f : ParsedFunction)
  | includeFile (path : List Char)
  | verbatim (line : List Char)
  | emptyLine
  | comment (body : List Char)

/-- What `apply_variant` gives: the function between preprocessor lines. -/
def ParsedFunction.guardedVariant (f : ParsedFunction) (v : String) : Except String (List Directive) := do
  let g ← f.applyVariant v
  return [.verbatim "#ifdef __GLIBC__".toList,
    .verbatim "#if LIBFIU_CAN_DEFINE_64BIT_FUNCTIONS".toList,
    .function g,
    .verbatim "#endif  // LIBFIU_CAN_DEFINE_64BIT_FUNCTIONS".toList,
    .verbatim "#endif  // __GLIBC__".toList]

/-- `get_all_variants` -/
def ParsedFunction.variantDirectives (f : ParsedFunction) : Except String (List Directive) := do
  let variants ← f.variants.mapM f.guardedVariant
  return .function f :: variants.flatten

/-- `load_info`, for a whole line. -/
def ParsedFunction.loadInfoLine (f : ParsedFunction) (info : List Char) :
    Except String ParsedFunction :=
  if ':' ∈ info then
    f.loadInfo (String.ofList (splitColon info).1) (String.ofList (splitColon info).2)
  else .ok f

/-! ## The loop

A line that is not indented ends the function before it; an indented one belongs to the function
above, or is an error if there is none. -/

/-- `directives`, `ctx.fiu_name_base` and `current_func`. -/
structure ParseState where
  directives : List Directive
  fiuNameBase : String
  currentFunc : Option ParsedFunction

/-- Before the first line. -/
def ParseState.start : ParseState := ⟨[], "UNKNOWN", none⟩

/-- The current function is done. -/
def ParseState.flush (s : ParseState) : Except String ParseState :=
  match s.currentFunc with
  | none => .ok s
  | some f => do
    let ds ← f.variantDirectives
    return { s with directives := s.directives ++ ds, currentFunc := none }

/-- A line of the module that is not about a function: a directive `k: v`. -/
def ParseState.directive (s : ParseState) (line : List Char) : Except String ParseState :=
  let (k, v) := splitColon line
  if k = "fiu name base".toList then
    .ok { s with fiuNameBase := String.ofList (stripOf (· == '/') (strip v)) }
  else if k = "include".toList then .ok { s with directives := s.directives ++ [.includeFile v] }
  else if k = "v".toList then .ok { s with directives := s.directives ++ [.verbatim v] }
  else .error ("Unknown directive" ++ String.ofList line)

/-- The body of the loop of `parse_module`, on a line that is complete. -/
def ParseState.step (s : ParseState) (l : List Char) : Except String ParseState :=
  if strip l = [] then .ok { s with directives := s.directives ++ [.emptyLine] }
  else if (strip l).head? = some '#' then
    .ok { s with directives := s.directives ++ [.comment (strip ((strip l).drop 1))] }
  else if l.head? ≠ some ' ' ∧ l.head? ≠ some '\t' then do
    let s ← s.flush
    if ':' ∈ strip l then s.directive (strip l)
    else
      let f ← ParsedFunction.ofDefinition (strip l) s.fiuNameBase
      return { s with currentFunc := some f }
  else
    match s.currentFunc with
    | none => .error "'NoneType' object has no attribute 'load_info'"
    | some f => do
      let f ← f.loadInfoLine (strip l)
      return { s with currentFunc := some f }

/-! ## Reading

The lines of the text, and lines that go on in the next one. -/

/-- What the calls of `readline` give, up to the end of the file. -/
def readlines : List Char → List (List Char)
  | [] => []
  | c :: text =>
    if c = '\n' then [c] :: readlines text
    else
      match readlines text with
      | [] => [[c]]
      | l :: ls => (c :: l) :: ls

/-- `l.endswith("\\\n")`, and `l[:-2]` -/
def continued (l : List Char) : Option (List Char) :=
  if ['\\', '\n'] <:+ l then some (l.take (l.length - 2)) else none

/-- The lines that the loop gets, `unfinished` being in front of the next one. -/
def logicalLines : Option (List Char) → List (List Char) → List (List Char)
  | none, [] => []
  | some l, [] => [l]
  | unfinished, nl :: lines =>
    let l := unfinished.getD [] ++ nl
    match continued l with
    | some l' => logicalLines (some l') lines
    | none => l :: logicalLines none lines

/-- The rest of `parse_module`, from when these lines are left. -/
def parseLines (s : ParseState) (lines : List (List Char)) : Except String (List Directive) := do
  let s ← lines.foldlM ParseState.step s
  let s ← s.flush
  return s.directives

/-- `parse_module` -/
def parseModule (text : List Char) : Except String (List Directive) :=
  parseLines ParseState.start (logicalLines none (readlines text))

/-- The functions of a module. -/
def Directive.function? : Directive → Option ParsedFunction
  | .function f => some f
  | _ => none

/- libc.str.mod, abridged. -/
example : ((parseModule ("include: <errno.h>\nfiu name base: libc/str/\n\n# comment\nv: #ifndef strndup\n" ++
    "char *strndup(const char *s, \\\n\t\tsize_t n);\n\ton error: NULL\nv: #endif\n").toList).toOption.map
      fun ds => (ds.filterMap Directive.function?).map fun f => (f.retType, f.params, f.fiuName))
      = some [("char *", [("const char *", "s"), ("size_t ", "n")], "libc/str/strndup")] := by
  decide +kernel

end Posix

end Libfiu
