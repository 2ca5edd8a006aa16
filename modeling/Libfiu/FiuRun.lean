/-
  fiu-run: from its command line into the process that it starts.

  1. **The script** — `getopts` takes the arguments apart, `RunVars.option` is the body of the loop over
     the options, and `fiuRun` what the program is started with.  A command is put into `FIU_ENABLE`
     behind a newline and the tabs that stand in the script.

  2. **What the options mean** — `commands`: that of a `-c` where it stands, and that of a deprecated `-e`
     where the next `-e` stands, or at the end.

  3. **The way** (`fiu_run_commands`) — `fiu_run_init` in the new process finds just these commands, and
     the tabs do not matter to `fiu_rc_string`, for which they only have to fit into its buffer.

  The words of the command line are what the shell script gets, and everything behind it is text:
  the script writes lines into a variable, C cuts the variable into lines, and the parser of the
  remote control takes the lines apart. Each of these steps has its own lemma, from the text that
  one of them leaves to what the next one makes of it.
-/
import Libfiu.RcRoutes

namespace Libfiu

open Text

/-! ## The options

`getopts` sees words, not options: several letters may stand in one, and an argument may stand in
the same word or in the next one. -/

/-- `'\t'`. -/
def tab : UInt8 := 9

/-- `'-'`. -/
def dash : UInt8 := 45

/-- An option, with its `OPTARG`. -/
inductive RunOpt where
  | c (optarg : List UInt8)
  | f (optarg : List UInt8)
  | l (optarg : List UInt8)
  | x
  | n
  | e (optarg : List UInt8)
  | p (optarg : List UInt8)
  | u (optarg : List UInt8)
  | i (optarg : List UInt8)
  deriving DecidableEq

/-- The letters that an argument belongs to. -/
def argOptions : List (UInt8 × (List UInt8 → RunOpt)) :=
  [(99, .c), (102, .f), (108, .l), (101, .e), (112, .p), (117, .u), (105, .i)]

/-- The letters that stand alone; `h` and all others show the help. -/
def flagOptions : List (UInt8 × RunOpt) := [(120, .x), (110, .n)]

/-- A word behind its `-`, in front of the other arguments: its options, and what is left of the
    arguments; none where the help is shown. -/
def cluster : List UInt8 → List (List UInt8) → Option (List RunOpt × List (List UInt8))
  | [], args => some ([], args)
  | b :: word, args =>
    match argOptions.lookup b, args with
    | some o, arg :: rest => if word = [] then some ([o arg], rest) else some ([o word], arg :: rest)
    | some o, [] => if word = [] then none else some ([o word], [])
    | none, args => do
      let o ← flagOptions.lookup b
      let (opts, rest) ← cluster word args
      some (o :: opts, rest)

/-- No word is read twice, which is what the recursion of `getopts` needs. -/
theorem cluster_length {word : List UInt8} {args : List (List UInt8)} :
    ∀ {opts : List RunOpt} {rest : List (List UInt8)}, cluster word args = some (opts, rest) →
      rest.length ≤ args.length := by
  induction word with
  | nil =>
    intro opts rest h
    cases h
    exact le_refl _
  | cons b word ih =>
    intro opts rest h
    unfold cluster at h
    split at h
    · split at h
      · cases h
        exact Nat.le_succ _
      · cases h
        exact le_refl _
    · split at h
      · cases h
      · cases h
        exact le_refl _
    · obtain ⟨o, -, h⟩ := Option.bind_eq_some_iff.mp h
      obtain ⟨⟨opts', rest'⟩, hrest, h⟩ := Option.bind_eq_some_iff.mp h
      cases h
      exact ih hrest

/-- The loop of `getopts`: the options, and the arguments that are left for the program. -/
def getopts (args : List (List UInt8)) : Option (List RunOpt × List (List UInt8)) :=
  match args with
  | [] => some ([], [])
  | word :: args =>
    if word = [dash, dash] then some ([], args)
    else if word.head? = some dash ∧ word ≠ [dash] then
      match _h : cluster word.tail args with
      | none => none
      | some (opts, args') => (getopts args').map fun more => (opts ++ more.1, more.2)
    else some ([], word :: args)
termination_by args.length
decreasing_by
  have := cluster_length _h
  simp only [List.length_cons]
  omega

/-! ## The script

The variables of the script, and the body of its loop. What it does not do for the library (`-h`,
the signals, the temporary directory) is not there. -/

/-- `[ "$s" -ge 0 ]`: what is no integer of 64 bits is an error, which is like no. -/
def geZero (s : List UInt8) : Bool :=
  let s := (s.dropWhile isspace).rdropWhile (· ∈ blanks)
  let digits := if s.head? = some dash ∨ s.head? = some 43 then s.tail else s
  digits ≠ [] ∧ digits.all isDigit = true ∧
    (if s.head? = some dash then digitsValue digits = 0 else digitsValue digits < 2 ^ 63)

/-- `DEP_NAME` and the others. -/
structure Deprecated where
  name : List UInt8
  prob : List UInt8
  failnum : List UInt8
  failinfo : List UInt8

/-- `opts_reset` -/
def Deprecated.reset : Deprecated := ⟨[], bytes "-1", bytes "1", bytes "0"⟩

/-- `PARAMS` -/
def Deprecated.params (d : Deprecated) : List UInt8 :=
  bytes "name=" ++ d.name ++ bytes ",failnum=" ++ d.failnum ++ bytes ",failinfo=" ++ d.failinfo

/-- `C` -/
def Deprecated.command (d : Deprecated) : List UInt8 :=
  if geZero d.prob then bytes "enable_random " ++ d.params ++ bytes ",probability=" ++ d.prob
  else bytes "enable " ++ d.params

/-- The variables of the script. -/
structure RunVars where
  fifoPrefix : List UInt8
  plibpath : List UInt8
  enable : List UInt8
  usePosixPreload : Bool
  dryRun : Bool
  dep : Deprecated

/-- A command in `ENABLE`, behind so many tabs. -/
def RunVars.append (v : RunVars) (tabs : ℕ) (cmd : List UInt8) : RunVars :=
  { v with enable := v.enable ++ newline :: (List.replicate tabs tab ++ cmd) }

/-- `add_deprecated_enable` -/
def RunVars.addDeprecatedEnable (v : RunVars) : RunVars :=
  if v.dep.name = [] then v else v.append 2 v.dep.command

/-- The body of the loop. -/
def RunVars.option (v : RunVars) : RunOpt → RunVars
  | .c optarg => v.append 3 optarg
  | .f optarg => { v with fifoPrefix := optarg }
  | .l optarg => { v with plibpath := optarg }
  | .x => { v with usePosixPreload := true }
  | .n => { v with dryRun := true }
  | .e optarg => { v.addDeprecatedEnable with dep := { Deprecated.reset with name := optarg } }
  | .p optarg => { v with dep := { v.dep with prob := optarg } }
  | .u optarg => { v with dep := { v.dep with failnum := optarg } }
  | .i optarg => { v with dep := { v.dep with failinfo := optarg } }

/-- What the program is started with, or what is shown instead. -/
structure RunStart where
  fiuEnable : List UInt8
  fiuCtrlFifo : List UInt8
  ldPreload : List UInt8
  dryRun : Bool
  program : List (List UInt8)

/-- `LD_PRELOAD` -/
def RunVars.ldPreload (v : RunVars) : List UInt8 :=
  v.plibpath ++ bytes "/fiu_run_preload.so " ++
    if v.usePosixPreload then bytes " " ++ v.plibpath ++ bytes "/fiu_posix_preload.so" else []

/-- fiu-run, with `PLIBPATH` and `TMPDIR`; none where the help is shown. -/
def fiuRun (plibpath : List UInt8) (tmpdir : Option (List UInt8)) (args : List (List UInt8)) :
    Option RunStart :=
  if args = [] then none
  else do
    let tmp := (tmpdir.filter (· ≠ [])).getD (bytes "/tmp")
    let (opts, program) ← getopts args
    let v := (opts.foldl RunVars.option
      ⟨tmp ++ bytes "/fiu-ctrl", plibpath, [], false, false, .reset⟩).addDeprecatedEnable
    some ⟨v.enable, v.fifoPrefix, v.ldPreload, v.dryRun, program⟩

/-! ## What the options mean

This is the specification, on options and not on text: a list of commands. -/

/-- The command of an entry of deprecated options. -/
def Deprecated.commands (d : Deprecated) : List (List UInt8) :=
  if d.name = [] then [] else [d.command]

/-- **The commands of the options**, the entry `d` having begun. -/
def commands : Deprecated → List RunOpt → List (List UInt8)
  | d, [] => d.commands
  | d, .c optarg :: opts => optarg :: commands d opts
  | d, .e optarg :: opts => d.commands ++ commands { Deprecated.reset with name := optarg } opts
  | d, .p optarg :: opts => commands { d with prob := optarg } opts
  | d, .u optarg :: opts => commands { d with failnum := optarg } opts
  | d, .i optarg :: opts => commands { d with failinfo := optarg } opts
  | d, _ :: opts => commands d opts

/-- The words of an option. -/
def RunOpt.words : RunOpt → List (List UInt8)
  | .c optarg => [[dash, 99], optarg]
  | .f optarg => [[dash, 102], optarg]
  | .l optarg => [[dash, 108], optarg]
  | .x => [[dash, 120]]
  | .n => [[dash, 110]]
  | .e optarg => [[dash, 101], optarg]
  | .p optarg => [[dash, 112], optarg]
  | .u optarg => [[dash, 117], optarg]
  | .i optarg => [[dash, 105], optarg]

/-! ## The command line

An option that is written as a word, or as two, is read back as that option. -/

/-- A word with options. -/
theorem getopts_cluster {b : UInt8} {word : List UInt8} {args args' : List (List UInt8)}
    {opts : List RunOpt} (hb : b ≠ dash) (h : cluster (b :: word) args = some (opts, args')) :
    getopts ((dash :: b :: word) :: args)
      = (getopts args').map fun more => (opts ++ more.1, more.2) := by
  have hdashes : dash :: b :: word ≠ [dash, dash] := fun he => hb (List.cons.inj (List.cons.inj he).2).1
  rw [getopts, if_neg hdashes, if_pos ⟨rfl, by simp⟩]
  split
  · rename_i hnone
    rw [List.tail_cons, h] at hnone
    cases hnone
  · rename_i hsome
    rw [List.tail_cons, h] at hsome
    cases hsome
    rfl

/-- An option with its argument. -/
theorem getopts_arg {b : UInt8} {o : List UInt8 → RunOpt} (h : argOptions.lookup b = some o)
    (optarg : List UInt8) (args : List (List UInt8)) : getopts ([dash, b] :: optarg :: args)
      = (getopts args).map fun more => (o optarg :: more.1, more.2) := by
  have hb : b ≠ dash := by
    rintro rfl
    cases h
  have hcluster : cluster [b] (optarg :: args) = some ([o optarg], args) := by
    unfold cluster
    rw [h]
    rfl
  exact getopts_cluster hb hcluster

/-- An option that stands alone. -/
theorem getopts_flag {b : UInt8} {o : RunOpt} (harg : argOptions.lookup b = none)
    (h : flagOptions.lookup b = some o) (args : List (List UInt8)) :
    getopts ([dash, b] :: args) = (getopts args).map fun more => (o :: more.1, more.2) := by
  have hb : b ≠ dash := by
    rintro rfl
    cases h
  have hcluster : cluster [b] args = some ([o], args) := by
    unfold cluster
    rw [harg, h]
    rfl
  exact getopts_cluster hb hcluster

/-- One option, and then the others. -/
theorem getopts_words (o : RunOpt) (args : List (List UInt8)) :
    getopts (o.words ++ args) = (getopts args).map fun more => (o :: more.1, more.2) := by
  cases o with
  | c optarg => exact getopts_arg rfl optarg args
  | f optarg => exact getopts_arg rfl optarg args
  | l optarg => exact getopts_arg rfl optarg args
  | x => exact getopts_flag rfl rfl args
  | n => exact getopts_flag rfl rfl args
  | e optarg => exact getopts_arg rfl optarg args
  | p optarg => exact getopts_arg rfl optarg args
  | u optarg => exact getopts_arg rfl optarg args
  | i optarg => exact getopts_arg rfl optarg args

/-- **The options are found**, up to the name of the program. -/
theorem getopts_line (opts : List RunOpt) {word : List UInt8} (hword : word.head? ≠ some dash)
    (args : List (List UInt8)) :
    getopts (opts.flatMap RunOpt.words ++ word :: args) = some (opts, word :: args) := by
  induction opts with
  | nil =>
    have hdashes : word ≠ [dash, dash] := by
      rintro rfl
      exact hword rfl
    show getopts (word :: args) = _
    rw [getopts, if_neg hdashes, if_neg fun h => hword h.1]
  | cons o opts ih =>
    rw [List.flatMap_cons, List.append_assoc, getopts_words, ih]
    rfl

/-! ## FIU_ENABLE

The variable grows at its end. The commands in it can be found again, since a newline stands in
front of each, and none has one inside. -/

/-- The text has the commands, each behind a newline and at most three tabs. -/
inductive Indented : List (List UInt8) → List UInt8 → Prop
  | nil : Indented [] []
  | cons {tabs : ℕ} {cmd : List UInt8} {cmds : List (List UInt8)} {text : List UInt8}
      (htabs : tabs ≤ 3) (h : Indented cmds text) :
      Indented (cmd :: cmds) (newline :: (List.replicate tabs tab ++ cmd) ++ text)

/-- More commands behind those that are there. -/
theorem Indented.append {cmds cmds' : List (List UInt8)} {text text' : List UInt8}
    (h : Indented cmds text) (h' : Indented cmds' text') :
    Indented (cmds ++ cmds') (text ++ text') := by
  induction h with
  | nil => exact h'
  | cons htabs _ ih =>
    rw [List.append_assoc]
    exact .cons htabs ih

/-- The deprecated entry is added. -/
theorem addDeprecatedEnable_indented (v : RunVars) :
    ∃ text, Indented v.dep.commands text ∧ v.addDeprecatedEnable.enable = v.enable ++ text := by
  unfold RunVars.addDeprecatedEnable Deprecated.commands
  by_cases hname : v.dep.name = []
  · rw [if_pos hname, if_pos hname]
    exact ⟨[], .nil, (List.append_nil _).symm⟩
  · rw [if_neg hname, if_neg hname]
    have hone : Indented [v.dep.command]
        (newline :: (List.replicate 2 tab ++ v.dep.command) ++ []) := .cons (by decide) .nil
    rw [List.append_nil] at hone
    exact ⟨_, hone, rfl⟩

/-- **The loop puts the commands of the options behind what is there.** By induction on the options,
    from any variables of the script. -/
theorem options_indented (opts : List RunOpt) : ∀ v : RunVars,
    ∃ text, Indented (commands v.dep opts) text ∧
      (opts.foldl RunVars.option v).addDeprecatedEnable.enable = v.enable ++ text := by
  induction opts with
  | nil => exact addDeprecatedEnable_indented
  | cons o opts ih =>
    intro v
    cases o with
    | c optarg =>
      obtain ⟨text, htext, henable⟩ := ih (v.append 3 optarg)
      refine ⟨_, .cons (le_refl 3) htext, ?_⟩
      rw [List.foldl_cons]
      refine henable.trans ?_
      exact List.append_assoc ..
    | e optarg =>
      obtain ⟨text, htext, henable⟩ := addDeprecatedEnable_indented v
      obtain ⟨text', htext', henable'⟩ := ih (v.option (.e optarg))
      refine ⟨text ++ text', htext.append htext', ?_⟩
      rw [List.foldl_cons]
      refine henable'.trans ?_
      show v.addDeprecatedEnable.enable ++ text' = _
      rw [henable, List.append_assoc]
    | f optarg => exact ih (v.option (.f optarg))
    | l optarg => exact ih (v.option (.l optarg))
    | x => exact ih (v.option .x)
    | n => exact ih (v.option .n)
    | p optarg => exact ih (v.option (.p optarg))
    | u optarg => exact ih (v.option (.u optarg))
    | i optarg => exact ih (v.option (.i optarg))

/-! ## The commands in the process

`fiu_run_init` cuts the variable at its newlines; the tabs are left in the tokens, and go away in
`fiu_rc_string`, for which they count against the size of its buffer. -/

/-- What stands in front of the token is skipped. -/
theorem strtokR_skip {delim : List UInt8} {d : UInt8} (hd : d ∈ delim) (s : List UInt8) :
    strtokR (d :: s) delim = strtokR s delim := by
  unfold strtokR
  rw [List.dropWhile_cons_of_pos (by simpa using hd)]

/-- Tabs in front of a command do not matter, if there is room for them. -/
theorem fiuRcString_tabs (strtod : List UInt8 → ℚ) {tabs : ℕ} {cmd cmd' : CString}
    (hcmd : cmd'.bytes = List.replicate tabs tab ++ cmd.bytes)
    (hroom : tabs + cmd.strlen ≤ maxLine - 1) : fiuRcString strtod cmd' = fiuRcString strtod cmd := by
  have hskip : ∀ n : ℕ, strtokR (List.replicate n tab ++ cmd.bytes) blanks = strtokR cmd.bytes blanks := by
    intro n
    induction n with
    | zero => rfl
    | succ n ih =>
      rw [List.replicate_succ, List.cons_append, strtokR_skip (by decide), ih]
  have hlen : cmd.bytes.length = cmd.strlen := rfl
  have hcopy' : strncpy cmd'.bytes (maxLine - 1) = List.replicate tabs tab ++ cmd.bytes := by
    rw [strncpy, hcmd, List.take_of_length_le]
    rw [List.length_append, List.length_replicate]
    omega
  have hcopy : strncpy cmd.bytes (maxLine - 1) = cmd.bytes :=
    List.take_of_length_le (by omega)
  have htok : strtokR (strncpy cmd'.bytes (maxLine - 1)) blanks
      = strtokR (strncpy cmd.bytes (maxLine - 1)) blanks := by
    rw [hcopy', hcopy, hskip]
  unfold fiuRcString
  dsimp only
  rw [htok]

variable {σ : Type} {rcString : RcString σ}

/-- The loop depends on the tokens alone. -/
theorem runInitLoop_congr {copy copy' : List UInt8}
    (h : strtokR copy [newline] = strtokR copy' [newline]) (s : σ) :
    runInitLoop rcString copy s = runInitLoop rcString copy' s := by
  rcases htok : strtokR copy' [newline] with _ | ⟨tok, state⟩
  · rw [runInitLoop_none (h.trans htok), runInitLoop_none htok]
  · rw [runInitLoop_some (h.trans htok), runInitLoop_some htok]

/-- A newline in front does not matter. -/
theorem runInitLoop_skip (copy : List UInt8) (s : σ) :
    runInitLoop rcString (newline :: copy) s = runInitLoop rcString copy s :=
  runInitLoop_congr (strtokR_skip (List.mem_singleton_self newline) copy) s

/-- The last command need not have one behind it. -/
theorem runInitLoop_last {l : Line} (hne : l.bytes ≠ []) (s : σ) :
    runInitLoop rcString l.bytes s = runInitLoop rcString (l.bytes ++ [newline]) s := by
  have hline : ∀ b ∈ l.bytes, b ∉ [newline] := fun b hb h => l.noNewline (List.mem_singleton.mp h ▸ hb)
  refine runInitLoop_congr ?_ s
  rw [strtokR_word hline hne, strtokR_append_cons hline hne (List.mem_singleton_self newline)]

/-- A line behind tabs. -/
def Line.indent (tabs : ℕ) (l : Line) : Line where
  bytes := List.replicate tabs tab ++ l.bytes
  noNul := fun hmem => (List.mem_append.mp hmem).elim
    (fun ht => absurd (List.eq_of_mem_replicate ht) (by decide)) l.noNul
  noNewline := fun hmem => (List.mem_append.mp hmem).elim
    (fun ht => absurd (List.eq_of_mem_replicate ht) (by decide)) l.noNewline

/-- A line behind tabs is not empty. -/
theorem Line.indent_ne_nil (tabs : ℕ) (l : Line) (hl : 1 ≤ l.strlen) : (l.indent tabs).bytes ≠ [] :=
  List.append_ne_nil_of_right_ne_nil _ (List.ne_nil_of_length_pos hl)

/-- The library takes a line behind tabs like the line. -/
theorem fiuRcRun_indent {W : Type} (P : Platform) (l : Linker) (strtod : List UInt8 → ℚ) {tabs : ℕ}
    (htabs : tabs ≤ 3) {line : Line} (hline : line.strlen ≤ 508) (s : Fiu W) :
    fiuRcRun P l strtod (line.indent tabs).toCString s = fiuRcRun P l strtod line.toCString s := by
  have hroom : tabs + line.strlen ≤ maxLine - 1 := by
    have hmax : maxLine - 1 = 511 := rfl
    omega
  have hsame : fiuRcString strtod (line.indent tabs).toCString = fiuRcString strtod line.toCString :=
    fiuRcString_tabs strtod rfl hroom
  unfold fiuRcRun
  rw [hsame]

/-- **The commands are done one after another**, without their tabs. The induction is on how the
    text was put together, so that there is a command at its front. -/
theorem runInitLoop_indented {W : Type} (P : Platform) (l : Linker) (strtod : List UInt8 → ℚ)
    {cmds : List (List UInt8)} {text : List UInt8} (h : Indented cmds text) :
    ∀ {ls : List Line} {s s' : Fiu W} {rs : List ℤ}, cmds = ls.map (fun line => line.bytes) →
      (∀ line ∈ ls, 1 ≤ line.strlen ∧ line.strlen ≤ 508) →
      rcRun (fiuRcRun P l strtod) (ls.map Line.toCString) s = some (rs, s') → (∀ r ∈ rs, r = 0) →
      ∃ calls, runInitLoop (fiuRcRun P l strtod) text s = some ⟨calls, "", s'⟩ := by
  induction h with
  | nil =>
    intro ls s s' rs hls _ hrun _
    obtain rfl := List.map_eq_nil_iff.mp hls.symm
    cases hrun
    refine ⟨[], ?_⟩
    rw [runInitLoop]
    rfl
  | @cons tabs cmd cmds text htabs hrest ih =>
    intro ls s s' rs hls hfits hrun hzero
    rcases ls with _ | ⟨line, ls⟩
    · cases hls
    obtain ⟨hcmd, hmore⟩ := List.cons.inj hls
    subst hcmd
    -- the first command
    rw [List.map_cons, rcRun_cons] at hrun
    obtain ⟨⟨r, error, s₁⟩, hr, hrun⟩ := Option.bind_eq_some_iff.mp hrun
    obtain ⟨⟨rs₁, s₂⟩, hrun₁, he⟩ := Option.map_eq_some_iff.mp hrun
    cases he
    obtain rfl : r = 0 := hzero r (List.mem_cons_self ..)
    obtain ⟨calls, hcalls⟩ := ih hmore (fun k hk => hfits k (List.mem_cons_of_mem _ hk)) hrun₁
      fun k hk => hzero k (List.mem_cons_of_mem _ hk)
    have hline := hfits line (List.mem_cons_self ..)
    have hne := Line.indent_ne_nil tabs line hline.1
    have hcall : fiuRcRun P l strtod (line.indent tabs).toCString s = some (0, error, s₁) :=
      (fiuRcRun_indent P l strtod htabs hline.2 s).trans hr
    refine ⟨(line.indent tabs).toCString :: calls, ?_⟩
    show runInitLoop _ (newline :: ((line.indent tabs).bytes ++ text)) s = _
    rw [runInitLoop_skip]
    -- with or without a newline behind it
    cases hrest with
    | nil =>
      rw [List.append_nil, runInitLoop_last hne, runInitLoop_cons hne hcall, hcalls]
      rfl
    | @cons tabs' cmd' cmds' text' htabs' hrest' =>
      rw [List.cons_append, runInitLoop_cons hne hcall, ← runInitLoop_skip]
      rw [List.cons_append] at hcalls
      rw [hcalls]
      rfl

/-! ## From the command line into the process

All three together: the options are found, the script puts their commands into the variable, and the
process takes them out. -/

/-- The text can be the value of an environment variable. -/
theorem Indented.noNul {cmds : List (List UInt8)} {text : List UInt8} (h : Indented cmds text)
    (hcmds : ∀ cmd ∈ cmds, (0 : UInt8) ∉ cmd) : (0 : UInt8) ∉ text := by
  have hchars : newline ≠ 0 ∧ tab ≠ 0 := by decide
  induction h with
  | nil => exact List.not_mem_nil
  | cons _ _ ih =>
    intro hmem
    rcases List.mem_append.mp hmem with hmem | hmem
    · rcases List.mem_cons.mp hmem with hmem | hmem
      · exact hchars.1 hmem.symm
      · rcases List.mem_append.mp hmem with hmem | hmem
        · exact hchars.2 (List.eq_of_mem_replicate hmem).symm
        · exact hcmds _ (List.mem_cons_self ..) hmem
    · exact ih (fun cmd hcmd => hcmds cmd (List.mem_cons_of_mem _ hcmd)) hmem

/-- **fiu-run does what its options say.** `word` is the program to be run, whose name does not
    begin with a dash (`hword`), with any arguments. `ls` are the commands of the options, the
    deprecated ones put together (`hls`); each has 1 to 508 characters (`hfits`), which leaves room
    for the tabs that the script puts in front of it, and run one after another they are all
    accepted (`hrun`, `haccepted`).

    Then the script starts that program with its arguments, and `fiu_run_init`, which runs in it
    with the `FIU_ENABLE` that the script has set, prints no error and leaves the library in the
    state behind the commands. -/
theorem fiu_run_commands {W : Type} (P : Platform) (l : Linker) (strtod : List UInt8 → ℚ)
    (plibpath : List UInt8) (tmpdir : Option (List UInt8)) (opts : List RunOpt) {word : List UInt8}
    (hword : word.head? ≠ some dash) (args : List (List UInt8)) {ls : List Line}
    (hls : commands .reset opts = ls.map fun line => line.bytes)
    (hfits : ∀ line ∈ ls, 1 ≤ line.strlen ∧ line.strlen ≤ 508) {s s' : Fiu W} {rs : List ℤ}
    (hrun : rcRun (fiuRcRun P l strtod) (ls.map Line.toCString) s = some (rs, s'))
    (haccepted : ∀ r ∈ rs, r = 0) :
    ∃ start, fiuRun plibpath tmpdir (opts.flatMap RunOpt.words ++ word :: args) = some start ∧
      start.program = word :: args ∧ ∃ env : CString, env.bytes = start.fiuEnable ∧
        ∃ t, fiuRunInit (fiuRcRun P l strtod) (some env) true s = some t ∧ t.stderr = "" ∧
          t.state = s' := by
  let v : RunVars := ⟨((tmpdir.filter (· ≠ [])).getD (bytes "/tmp")) ++ bytes "/fiu-ctrl", plibpath, [],
    false, false, .reset⟩
  obtain ⟨text, htext, henable⟩ := options_indented opts v
  have hstart : fiuRun plibpath tmpdir (opts.flatMap RunOpt.words ++ word :: args)
      = let v := (opts.foldl RunVars.option v).addDeprecatedEnable
        some ⟨v.enable, v.fifoPrefix, v.ldPreload, v.dryRun, word :: args⟩ := by
    unfold fiuRun
    rw [if_neg (by simp), getopts_line opts hword args]
    rfl
  refine ⟨_, hstart, rfl, ?_⟩
  -- the commands have no NUL
  have hnul : (0 : UInt8) ∉ text := by
    refine htext.noNul fun cmd hcmd => ?_
    have hcmd' : cmd ∈ commands .reset opts := hcmd
    rw [hls] at hcmd'
    obtain ⟨line, -, rfl⟩ := List.mem_map.mp hcmd'
    exact line.noNul
  refine ⟨⟨text, hnul⟩, henable.symm, ?_⟩
  obtain ⟨calls, hloop⟩ := runInitLoop_indented P l strtod htext hls hfits hrun haccepted
  show ∃ t, (if text = [] then _ else runInitLoop (fiuRcRun P l strtod) text s) = some t ∧ _
  by_cases hempty : text = []
  · rw [if_pos hempty]
    rw [hempty, runInitLoop_none rfl] at hloop
    cases hloop
    exact ⟨_, rfl, rfl, rfl⟩
  · rw [if_neg hempty]
    exact ⟨_, hloop, rfl, rfl⟩

/-- `fiu-run -c 'enable name=a' -e b -p 50 -x ls`, with a deprecated option. -/
theorem fiu_run_commands_two : ∃ start s', fiuRun (bytes "/usr/lib/fiu") none
      ([.c (bytes "enable name=a"), .e (bytes "b"), .p (bytes "50"), .x].flatMap RunOpt.words
        ++ [bytes "ls"]) = some start ∧
    start.program = [bytes "ls"] ∧ ∃ env : CString, env.bytes = start.fiuEnable ∧
      ∃ t, fiuRunInit (fiuRcRun Platform.ieee noSymbols fun _ => 0) (some env) true
        (initialized () 0 0) = some t ∧ t.stderr = "" ∧ t.state = s' := by
  let ls : List Line := [⟨CString.ofArray (bytes "enable name=a"), by decide +kernel⟩,
    ⟨CString.ofArray (bytes "enable_random name=b,failnum=1,failinfo=0,probability=50"),
      by decide +kernel⟩]
  have hrun : (rcRun (fiuRcRun Platform.ieee noSymbols fun _ => 0) (ls.map Line.toCString)
      (initialized () 0 0)).map Prod.fst = some [0, 0] := by
    decide +kernel
  obtain ⟨⟨rs, s'⟩, hrun, hrs⟩ := Option.map_eq_some_iff.mp hrun
  have hls : commands .reset [.c (bytes "enable name=a"), .e (bytes "b"), .p (bytes "50"), .x]
      = ls.map fun line => line.bytes := by
    decide +kernel
  have hfits : ∀ line ∈ ls, 1 ≤ line.strlen ∧ line.strlen ≤ 508 := by
    intro line hline
    rcases List.mem_cons.mp hline with rfl | hline
    · exact ⟨by decide +kernel, by decide +kernel⟩
    · rw [List.mem_singleton.mp hline]
      exact ⟨by decide +kernel, by decide +kernel⟩
  have hzero : ∀ r ∈ rs, r = 0 := by
    intro r hr
    rw [show rs = [0, 0] from hrs] at hr
    simpa using hr
  have hword : (bytes "ls").head? ≠ some dash := by decide +kernel
  obtain ⟨start, h⟩ := fiu_run_commands Platform.ieee noSymbols (fun _ => 0) (bytes "/usr/lib/fiu") none
    _ hword [] hls hfits hrun hzero
  exact ⟨start, s', h⟩

end Libfiu
