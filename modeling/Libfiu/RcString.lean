/-
  `fiu_rc_string` of libfiu/fiu-rc.c: a command of the remote control.

  1. **Parsing** — the command word and the word of the parameters are copied into arrays of
     `MAX_LINE` characters and taken apart there.  `rcParams` is the loop over the suboptions, with
     the defaults that all four commands share (`RcParams`).

  2. **Outcome** — a command is rejected, or it makes one call of the control functions
     (`RcCall`), or a number without a value is handed to libc as NULL, which is undefined.

  3. **Meaning** — `RcCall.run` is that call, on the library; `strdup` and `strlen` of NULL are
     undefined too.

  `strtod` is left open.

  Which string is NULL depends on the command: a name that is missing is NULL in all four of them,
  the name of the function in one. What a control function does with NULL is part of the meaning and
  not of the parsing, so the parser is the same for calls that are defined and for those that are
  not.
-/
import Libfiu.Libc
import Libfiu.FiuSpec

namespace Libfiu

open Text

/-! ## Data

The types of fiu-rc.c, and the tokens in the order of its array. -/

/-- `MAX_LINE`. -/
def maxLine : ℕ := 512

/-- The call of a control function.  A pointer to a string may be NULL. -/
inductive RcCall where
  | disable (name : Option CString)
  | enable (name : Option CString) (failnum : ℤ) (failinfo : Addr) (flags : UInt32)
  | enableRandom (name : Option CString) (failnum : ℤ) (failinfo : Addr) (flags : UInt32)
      (probability : ℚ)
  | enableStackByName (name : Option CString) (failnum : ℤ) (failinfo : Addr) (flags : UInt32)
      (funcName : Option CString) (funcPosInStack : ℤ)
  deriving DecidableEq

/-- The name that is handed over. -/
def RcCall.name : RcCall → Option CString
  | .disable name => name
  | .enable name _ _ _ => name
  | .enableRandom name _ _ _ _ => name
  | .enableStackByName name _ _ _ _ _ => name

/-- What `fiu_rc_string` does. -/
inductive RcOutcome where
  /-- It sets `*error` and returns -1. -/
  | reject (error : String)
  /-- It hands NULL to `atoi`, `strtoul` or `strtod`. -/
  | nullNumber
  /-- It sets `*error`, in case that the call fails, and returns what the call returns. -/
  | control (error : String) (call : RcCall)
  deriving DecidableEq

/-- The tokens that are accepted as parameters. -/
inductive RcToken where
  | name
  | failnum
  | failinfo
  | probability
  | funcName
  | posInStack
  | onetime
  deriving DecidableEq

/-- `token`. -/
def rcTokens : List (RcToken × List UInt8) :=
  [(.name, bytes "name"), (.failnum, bytes "failnum"), (.failinfo, bytes "failinfo"),
    (.probability, bytes "probability"), (.funcName, bytes "func_name"),
    (.posInStack, bytes "pos_in_stack"), (.onetime, bytes "onetime")]

/-- The variables that the parameters are parsed into. -/
structure RcParams where
  fpName : Option (List UInt8) := none
  failnum : ℤ := 1
  failinfo : Addr := 0
  flags : UInt32 := 0
  probability : ℚ := -1
  funcName : Option (List UInt8) := none
  funcPosInStack : ℤ := -1
  deriving DecidableEq

/-! ## Parsing

The two words are copied into arrays, and the second one is taken apart by `getsubopt`, with a
`switch` for each token. -/

variable (strtod : List UInt8 → ℚ)

/-- The `switch` in the loop; NULL is not a number. -/
def RcParams.take (p : RcParams) (token : Option RcToken) (value : Option (List UInt8)) :
    Except RcOutcome RcParams :=
  match token, value with
  | some .name, value => .ok { p with fpName := value }
  | some .failnum, some value => .ok { p with failnum := atoi value }
  | some .failinfo, some value => .ok { p with failinfo := strtoul value }
  | some .probability, some value => .ok { p with probability := strtod value }
  | some .funcName, value => .ok { p with funcName := value }
  | some .posInStack, some value => .ok { p with funcPosInStack := atoi value }
  | some .onetime, _ => .ok { p with flags := p.flags ||| fiuOnetime }
  | some .failnum, none | some .failinfo, none | some .probability, none
  | some .posInStack, none => .error .nullNumber
  | none, _ => .error (.reject "Unknown parameter")

/-- The loop over the suboptions. -/
def rcParams (opts : List UInt8) (p : RcParams) : Except RcOutcome RcParams :=
  if _h : opts = [] then .ok p
  else
    let r := getsubopt rcTokens opts
    match p.take strtod r.1 r.2.1 with
    | .error o => .error o
    | .ok p => rcParams r.2.2 p
termination_by opts.length
decreasing_by exact cut_lt _h

/-- The dispatch on the command word. -/
def RcParams.execute (p : RcParams) (command : List UInt8) : RcOutcome :=
  let fpName := p.fpName.map CString.ofArray
  if command = bytes "disable" then .control "Error in disable" (.disable fpName)
  else if command = bytes "enable" then
    .control "Error in enable" (.enable fpName p.failnum p.failinfo p.flags)
  else if command = bytes "enable_random" then
    .control "Error in enable_random"
      (.enableRandom fpName p.failnum p.failinfo p.flags p.probability)
  else if command = bytes "enable_stack_by_name" then
    .control "Error in enable_stack_by_name"
      (.enableStackByName fpName p.failnum p.failinfo p.flags (p.funcName.map CString.ofArray)
        p.funcPosInStack)
  else .reject "Unknown command"

/-- `" \t"`. -/
def blanks : List UInt8 := [32, 9]

/-- `fiu_rc_string`. -/
def fiuRcString (cmd : CString) : RcOutcome :=
  let mCmd := strncpy cmd.bytes (maxLine - 1)
  match strtokR mCmd blanks with
  | none => .reject "Cannot get command"
  | some (tok, state) =>
    let command := strncpy tok (maxLine - 1)
    match strtokR state blanks with
    | none => .reject "Cannot get parameters"
    | some (tok, _) =>
      let parameters := strncpy tok (maxLine - 1)
      match rcParams strtod parameters {} with
      | .error o => o
      | .ok p => p.execute command

/-! ## What a command does

Parsing gives a call, and the call is made on the library. A pointer may be NULL, and what reads it
is undefined then. -/

variable {W : Type} (P : Platform) (l : Linker)

/-- The name of a function, as the linker takes it. -/
def CString.symbol (s : CString) : String := String.ofList (s.bytes.map fun b => Char.ofNat b.toNat)

/-- `fiu_enable_stack_by_name` on strings that may be NULL: the checks come first. -/
def rcEnableStackByName (s : Fiu W) (name : Option CString) (failnum : ℤ) (failinfo : Addr)
    (flags : UInt32) (funcName : Option CString) (funcPosInStack : ℤ) : Option (ℤ × Fiu W) :=
  if l.backtraceWorks = false then some (-1, s)
  else do
    let fp := l.getFuncAddr (← funcName).symbol
    if fp = 0 then some (-1, s)
    else if funcPosInStack ≠ -1 then some (-1, s)
    else if l.getFuncEnd fp = 0 ∧ l.getFuncStart fp = 0 then some (-1, s)
    else fiuEnableStack P l s (← name) failnum failinfo flags fp funcPosInStack

/-- With both strings given it is the function of the library. -/
theorem rcEnableStackByName_some (s : Fiu W) (name : CString) (failnum : ℤ) (failinfo : Addr)
    (flags : UInt32) (funcName : CString) (funcPosInStack : ℤ) :
    rcEnableStackByName P l s (some name) failnum failinfo flags (some funcName) funcPosInStack =
      fiuEnableStackByName P l s name failnum failinfo flags funcName.symbol funcPosInStack := by
  unfold rcEnableStackByName fiuEnableStackByName
  simp only [Option.bind_eq_bind, Option.bind_some]
  by_cases hworks : l.backtraceWorks = false
  · rw [if_pos hworks, if_pos hworks]
  · rw [if_neg hworks, if_neg hworks]
    -- `fiu_enable_stack` makes the remaining checks again
    unfold fiuEnableStack
    simp only [if_neg hworks]
    split_ifs <;> rfl

/-- The call, and what it returns: with NULL for a string that is read it is undefined.
    `fiu_enable_random` takes a `float`. -/
def RcCall.run (call : RcCall) (s : Fiu W) : Option (ℤ × Fiu W) :=
  match call with
  | .disable name => do fiuDisable P s (← name)
  | .enable name failnum failinfo flags => do fiuEnable P s (← name) failnum failinfo flags
  | .enableRandom name failnum failinfo flags probability => do
    fiuEnableRandom P s (← name) failnum failinfo flags (P.single.round probability)
  | .enableStackByName name failnum failinfo flags funcName funcPosInStack =>
    rcEnableStackByName P l s name failnum failinfo flags funcName funcPosInStack

/-- What `fiu_rc_string` returns, the text in `*error`, and what it did to the library. -/
def RcOutcome.run (o : RcOutcome) (s : Fiu W) : Option (ℤ × String × Fiu W) :=
  match o with
  | .reject error => some (-1, error, s)
  | .nullNumber => none
  | .control error call => (call.run P l s).map fun r => (r.1, error, r.2)

/-! ## The loop

`getsubopt` walks through one string and leaves the rest; the same is a fold over the pieces between
commas, which is what the proofs use. -/

variable {strtod}

/-- The `switch` on one suboption. -/
def RcParams.step (strtod : List UInt8 → ℚ) (p : RcParams) (subopt : List UInt8) :
    Except RcOutcome RcParams :=
  p.take strtod (findToken rcTokens (suboptName subopt)) (suboptValue subopt)

/-- The value that goes with an unknown parameter is not looked at. -/
theorem RcParams.take_getsubopt (p : RcParams) (opts : List UInt8) :
    p.take strtod (getsubopt rcTokens opts).1 (getsubopt rcTokens opts).2.1 =
      p.step strtod (cut comma opts).1 := by
  show p.take strtod (findToken rcTokens (suboptName (cut comma opts).1))
    (if (findToken rcTokens (suboptName (cut comma opts).1)).isSome then
      suboptValue (cut comma opts).1 else some (cut comma opts).1) = _
  unfold RcParams.step
  cases findToken rcTokens (suboptName (cut comma opts).1) with
  | none => rfl
  | some t => rfl

/-- **The loop takes one piece after another.** By induction on the length of the text, as the
    pieces are cut off its front. -/
theorem rcParams_eq_foldlM : ∀ (n : ℕ) (opts : List UInt8), opts.length ≤ n → ∀ p : RcParams,
    rcParams strtod opts p = (fields comma opts).foldlM (RcParams.step strtod) p := by
  intro n
  induction n with
  | zero =>
    intro opts hlen p
    have hnil : opts = [] := List.length_eq_zero_iff.mp (by omega)
    subst hnil
    rw [rcParams, dif_pos rfl]
    rfl
  | succ n ih =>
    intro opts hlen p
    by_cases hopts : opts = []
    · subst hopts
      rw [rcParams, dif_pos rfl]
      rfl
    · have hlt : (cut comma opts).2.length < opts.length := cut_lt hopts
      rw [rcParams, dif_neg hopts, fields_eq_cut hopts, List.foldlM_cons]
      have hstep : p.take strtod (getsubopt rcTokens opts).1 (getsubopt rcTokens opts).2.1 =
          p.step strtod (cut comma opts).1 := p.take_getsubopt opts
      simp only [hstep]
      cases p.step strtod (cut comma opts).1 with
      | error o => rfl
      | ok q => exact ih (cut comma opts).2 (by omega) q

/-- The loop, by its steps. -/
theorem rcParams_eq (opts : List UInt8) (p : RcParams) :
    rcParams strtod opts p = (fields comma opts).foldlM (RcParams.step strtod) p :=
  rcParams_eq_foldlM opts.length opts le_rfl p

end Libfiu
