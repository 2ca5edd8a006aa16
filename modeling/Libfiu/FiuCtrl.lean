/-
  The commands that bindings/python/fiu_ctrl.in.py sends, and that they come back out of
  `fiu_rc_string`.

  1. **Encoder** — the methods of `_ControlBase` make a command word and a list of parameters
     (`RawCmd`): what is left at its default, or is 0, is left out.  A Python string is the list of
     its bytes here, as they are written to the pipe.

  2. **Decoder** — one parameter changes the variables of `fiu_rc_string` by its own field only
     (`CtrlParam.effect`).  So the order of the parameters does not matter, and what was left out
     keeps the default that it had in the first place.

  That a decoder undoes an encoder is shown in three steps: one parameter, all parameters in any
  order, and the line around them. What the encoder leaves out is what the decoder has for a
  default, for each of the methods. The bound of 511 is on the bytes of the line, as the arrays of
  the decoder are.
-/
import Libfiu.RcFaithful

namespace Libfiu

open Text

/-! ## The encoder

The class of fiu_ctrl.py and its methods: they build a command and its arguments, and a line of
both. -/

/-- A name that can be sent: not empty, and without a character that has a meaning in a line. -/
structure Word where
  bytes : List UInt8
  ne : bytes ≠ []
  clean : ∀ b ∈ bytes, b ∉ [0, 9, 10, 32, 44]

/-- `Flags`. -/
inductive Flag where
  | onetime

/-- The text of a flag. -/
def Flag.text : Flag → List UInt8
  | .onetime => bytes "onetime"

/-- The arguments of `run_raw_cmd`. -/
structure RawCmd where
  cmd : List UInt8
  args : List (List UInt8)

/-- `"%s %s" % (cmd, ",".join(args))`: the line that is sent, without the newline. -/
def RawCmd.line (raw : RawCmd) : List UInt8 := raw.cmd ++ 32 :: join comma raw.args

/-- `_basic_args`. -/
def basicArgs (name : List UInt8) (failnum : ℤ) (failinfo : Option ℤ) (flags : List Flag) :
    List (List UInt8) :=
  [bytes "name=" ++ name] ++
    (if failnum ≠ 0 then [bytes "failnum=" ++ decimalInt failnum] else []) ++
    (match failinfo with
      | some i => if i ≠ 0 then [bytes "failinfo=" ++ decimalInt i] else []
      | none => []) ++
    flags.map Flag.text

/-- A call of a method of `_ControlBase`. -/
inductive CtrlCall where
  | enable (name : Word) (failnum : ℤ) (failinfo : Option ℤ) (flags : List Flag)
  | enableStackByName (name funcName : Word) (failnum : ℤ) (failinfo : Option ℤ)
      (flags : List Flag) (posInStack : ℤ)
  | disable (name : Word)

/-- The methods `enable`, `enable_stack_by_name` and `disable`. -/
def CtrlCall.rawCmd : CtrlCall → RawCmd
  | .enable name failnum failinfo flags =>
    ⟨bytes "enable", basicArgs name.bytes failnum failinfo flags⟩
  | .enableStackByName name funcName failnum failinfo flags posInStack =>
    ⟨bytes "enable_stack_by_name",
      basicArgs name.bytes failnum failinfo flags ++ [bytes "func_name=" ++ funcName.bytes] ++
        if posInStack ≥ 0 then [bytes "pos_in_stack=" ++ decimalInt posInStack] else []⟩
  | .disable name => ⟨bytes "disable", [bytes "name=" ++ name.bytes]⟩

/-! ## What is meant

The specification: for each method, the call of the library that it is there for. -/

/-- The name as a C string. -/
def Word.toCString (w : Word) : CString := ⟨w.bytes, fun h => w.clean 0 h (by decide)⟩

/-- `FIU_ONETIME` when the list is not empty. -/
def flagBits : List Flag → UInt32
  | [] => 0
  | _ :: _ => fiuOnetime

/-- The call of the control functions that a method stands for. -/
def CtrlCall.meant : CtrlCall → RcCall
  | .enable name failnum failinfo flags =>
    .enable (some name.toCString) failnum (failinfo.getD 0).toNat (flagBits flags)
  | .enableStackByName name funcName failnum failinfo flags posInStack =>
    .enableStackByName (some name.toCString) failnum (failinfo.getD 0).toNat (flagBits flags)
      (some funcName.toCString) posInStack
  | .disable name => .disable (some name.toCString)

/-- The number can be told from a default, and fits its C type. -/
def FailnumOk (failnum : ℤ) : Prop := failnum ≠ 0 ∧ -2 ^ 31 ≤ failnum ∧ failnum < 2 ^ 31

/-- The same for a pointer; it may also be absent. -/
def FailinfoOk (failinfo : Option ℤ) : Prop := ∀ i ∈ failinfo, 1 ≤ i ∧ i < 2 ^ 64

/-- The arguments are in their ranges. -/
def CtrlCall.Ok : CtrlCall → Prop
  | .enable _ failnum failinfo _ => FailnumOk failnum ∧ FailinfoOk failinfo
  | .enableStackByName _ _ failnum failinfo _ posInStack =>
    FailnumOk failnum ∧ FailinfoOk failinfo ∧ posInStack = -1
  | .disable _ => True

/-! ## One parameter

The parser goes over the parameters one by one, so each of them is read back on its own. -/

/-- A parameter that is sent. -/
inductive CtrlParam where
  | name (name : Word)
  | failnum (failnum : ℤ)
  | failinfo (failinfo : ℤ)
  | onetime
  | funcName (funcName : Word)

/-- How it is written. -/
def CtrlParam.text : CtrlParam → List UInt8
  | .name w => bytes "name=" ++ w.bytes
  | .failnum k => bytes "failnum=" ++ decimalInt k
  | .failinfo i => bytes "failinfo=" ++ decimalInt i
  | .onetime => bytes "onetime"
  | .funcName w => bytes "func_name=" ++ w.bytes

/-- What it changes. -/
def CtrlParam.effect (p : RcParams) : CtrlParam → RcParams
  | .name w => { p with fpName := some w.bytes }
  | .failnum k => { p with failnum := k }
  | .failinfo i => { p with failinfo := i.toNat }
  | .onetime => { p with flags := p.flags ||| fiuOnetime }
  | .funcName w => { p with funcName := some w.bytes }

/-- The number of the parameter is in its range. -/
def CtrlParam.Ok : CtrlParam → Prop
  | .failnum k => FailnumOk k
  | .failinfo i => FailinfoOk (some i)
  | _ => True

variable {strtod : List UInt8 → ℚ}

/-- **A parameter that is sent is taken as it was meant.** -/
theorem CtrlParam.step_text {c : CtrlParam} (hc : c.Ok) (p : RcParams) :
    p.step strtod c.text = .ok (c.effect p) := by
  have hkey : ∀ (key value : List UInt8), equals ∉ key → p.step strtod (key ++ equals :: value) =
      p.take strtod (findToken rcTokens key) (some value) := by
    intro key value h
    rw [RcParams.step, suboptName_append h, suboptValue_append h]
  cases c with
  | name w => exact hkey (bytes "name") w.bytes (by decide)
  | funcName w => exact hkey (bytes "func_name") w.bytes (by decide)
  | onetime =>
    show p.take strtod (findToken rcTokens (suboptName (bytes "onetime"))) _ = _
    rw [show findToken rcTokens (suboptName (bytes "onetime")) = some .onetime from by decide]
    rfl
  | failnum k =>
    have hrange : -2 ^ 31 ≤ k ∧ k < 2 ^ 31 := hc.2
    have hread := hkey (bytes "failnum") (decimalInt k) (by decide)
    rw [show findToken rcTokens (bytes "failnum") = some .failnum from by decide] at hread
    refine hread.trans ?_
    show Except.ok { p with failnum := atoi (decimalInt k) } = _
    rw [atoi_decimalInt hrange]
    rfl
  | failinfo i =>
    have hrange : 1 ≤ i ∧ i < 2 ^ 64 := hc i rfl
    have hread := hkey (bytes "failinfo") (decimalInt i) (by decide)
    rw [show findToken rcTokens (bytes "failinfo") = some .failinfo from by decide] at hread
    refine hread.trans ?_
    show Except.ok { p with failinfo := strtoul (decimalInt i) } = _
    have hdecimal : decimalInt i = decimal i.toNat := by
      rw [decimalInt, if_neg (by omega)]
      congr 1
      omega
    rw [hdecimal, strtoul_decimal (by omega)]
    rfl

/-- A parameter is not empty, and no separator is in it. -/
theorem CtrlParam.text_clean (c : CtrlParam) : c.text ≠ [] ∧ ∀ b ∈ c.text, b ∉ [0, 9, 10, 32, 44] := by
  have happend : ∀ {key value : List UInt8}, (∀ b ∈ key, b ∉ [0, 9, 10, 32, 44]) →
      (∀ b ∈ value, b ∉ [0, 9, 10, 32, 44]) → ∀ b ∈ key ++ value, b ∉ [0, 9, 10, 32, 44] := by
    intro key value hkey hvalue b hb
    rcases List.mem_append.mp hb with h | h
    · exact hkey b h
    · exact hvalue b h
  have hne : ∀ {key value : List UInt8}, key ≠ [] → key ++ value ≠ [] :=
    fun h => List.append_ne_nil_of_left_ne_nil h _
  cases c with
  | name w => exact ⟨hne (by decide), happend (by decide +kernel) w.clean⟩
  | funcName w => exact ⟨hne (by decide), happend (by decide +kernel) w.clean⟩
  | onetime => exact ⟨by decide, by decide +kernel⟩
  | failnum k => exact ⟨hne (by decide), happend (by decide +kernel) fun b hb => decimalInt_clean hb⟩
  | failinfo i => exact ⟨hne (by decide), happend (by decide +kernel) fun b hb => decimalInt_clean hb⟩

/-! ## All parameters, in any order

Python may give the parameters in any order, and each changes a field of its own; so the order does
not matter, and a flag that comes more than once is as good as one. -/

/-- The parameters that a method sends. -/
def basicParams (name : Word) (failnum : ℤ) (failinfo : Option ℤ) (flags : List Flag) :
    List CtrlParam :=
  [.name name, .failnum failnum] ++ (failinfo.map CtrlParam.failinfo).toList ++
    flags.map fun _ => .onetime

/-- The parameters of a call. -/
def CtrlCall.params : CtrlCall → List CtrlParam
  | .enable name failnum failinfo flags => basicParams name failnum failinfo flags
  | .enableStackByName name funcName failnum failinfo flags _ =>
    basicParams name failnum failinfo flags ++ [.funcName funcName]
  | .disable name => [.name name]

/-- The parameters of a method, as text. -/
theorem basicArgs_eq {name : Word} {failnum : ℤ} {failinfo : Option ℤ} {flags : List Flag}
    (hnum : FailnumOk failnum) (hinfo : FailinfoOk failinfo) :
    basicArgs name.bytes failnum failinfo flags =
      (basicParams name failnum failinfo flags).map CtrlParam.text := by
  have hflags : flags.map Flag.text = (flags.map fun _ => CtrlParam.onetime).map CtrlParam.text := by
    rw [List.map_map]
    exact List.map_congr_left fun f _ => by cases f; rfl
  unfold basicArgs basicParams
  rw [if_pos hnum.1, hflags]
  cases failinfo with
  | none => simp [CtrlParam.text]
  | some i =>
    have hi : i ≠ 0 := by
      have := (hinfo i rfl).1
      omega
    simp [CtrlParam.text, hi]

/-- What is sent are the parameters, all of them in their ranges. -/
theorem CtrlCall.args_eq {c : CtrlCall} (hc : c.Ok) :
    c.rawCmd.args = c.params.map CtrlParam.text ∧ ∀ q ∈ c.params, q.Ok := by
  have hbasic : ∀ {name : Word} {failnum : ℤ} {failinfo : Option ℤ} {flags : List Flag},
      FailnumOk failnum → FailinfoOk failinfo →
      ∀ q ∈ basicParams name failnum failinfo flags, q.Ok := by
    intro name failnum failinfo flags hnum hinfo q hq
    simp only [basicParams, List.cons_append, List.nil_append, List.mem_cons, List.mem_append,
      Option.mem_toList, Option.map_eq_some_iff, List.mem_map] at hq
    rcases hq with rfl | rfl | ⟨i, hi, rfl⟩ | ⟨f, -, rfl⟩
    · trivial
    · exact hnum
    · rintro j ⟨⟩
      exact hinfo i hi
    · trivial
  cases c with
  | enable name failnum failinfo flags => exact ⟨basicArgs_eq hc.1 hc.2, hbasic hc.1 hc.2⟩
  | enableStackByName name funcName failnum failinfo flags posInStack =>
    obtain ⟨hnum, hinfo, rfl⟩ := hc
    constructor
    · show basicArgs _ _ _ _ ++ _ ++ _ = _
      rw [basicArgs_eq hnum hinfo, if_neg (by decide), List.append_nil]
      simp [CtrlCall.params, CtrlParam.text]
    · intro q hq
      rcases List.mem_append.mp hq with h | h
      · exact hbasic hnum hinfo q h
      · rw [List.mem_singleton.mp h]
        trivial
  | disable name =>
    refine ⟨rfl, fun q hq => ?_⟩
    rw [List.mem_singleton.mp hq]
    trivial

/-- Of each kind there is one parameter, whatever its number of copies. -/
theorem CtrlCall.params_subset (c : CtrlCall) : ∃ name failnum failinfo funcName,
    ∀ q ∈ c.params, q ∈ [.name name, .failnum failnum, .failinfo failinfo, .onetime, .funcName funcName] := by
  have hbasic : ∀ {name funcName : Word} {failnum : ℤ} {failinfo : Option ℤ} {flags : List Flag},
      ∀ q ∈ basicParams name failnum failinfo flags,
        q ∈ [.name name, .failnum failnum, .failinfo (failinfo.getD 0), .onetime, .funcName funcName] := by
    intro name funcName failnum failinfo flags q hq
    simp only [basicParams, List.cons_append, List.nil_append, List.mem_cons, List.mem_append,
      Option.mem_toList, Option.map_eq_some_iff, List.mem_map] at hq
    rcases hq with rfl | rfl | ⟨i, hi, rfl⟩ | ⟨f, -, rfl⟩
    · simp
    · simp
    · simp [hi]
    · simp
  cases c with
  | enable name failnum failinfo flags =>
    exact ⟨name, failnum, failinfo.getD 0, name, hbasic⟩
  | enableStackByName name funcName failnum failinfo flags posInStack =>
    refine ⟨name, failnum, failinfo.getD 0, funcName, fun q hq => ?_⟩
    rcases List.mem_append.mp hq with h | h
    · exact hbasic q h
    · rw [List.mem_singleton.mp h]
      simp
  | disable name =>
    refine ⟨name, 0, 0, name, fun q hq => ?_⟩
    rw [List.mem_singleton.mp hq]
    simp

/-- **The order does not matter**: different parameters change different fields. -/
theorem CtrlCall.effect_comm (c : CtrlCall) {q r : CtrlParam} (hq : q ∈ c.params) (hr : r ∈ c.params)
    (p : RcParams) : r.effect (q.effect p) = q.effect (r.effect p) := by
  obtain ⟨name, failnum, failinfo, funcName, hsub⟩ := c.params_subset
  have hq' := hsub q hq
  have hr' := hsub r hr
  simp only [List.mem_cons, List.not_mem_nil, or_false] at hq' hr'
  rcases hq' with rfl | rfl | rfl | rfl | rfl <;> rcases hr' with rfl | rfl | rfl | rfl | rfl <;> rfl

/-- The loop over the parameters, in any order. By induction on the parameters, for any values taken
    before; the effects of two of them can be exchanged. -/
theorem CtrlCall.foldlM_args {c : CtrlCall} (hc : c.Ok) {args : List (List UInt8)}
    (hperm : args.Perm c.rawCmd.args) :
    args.foldlM (RcParams.step strtod) {} = .ok (c.params.foldl CtrlParam.effect {}) := by
  obtain ⟨hargs, hok⟩ := c.args_eq hc
  rw [hargs] at hperm
  obtain ⟨params, htexts, hparams⟩ := List.perm_comp_forall₂ hperm
    (List.forall₂_map_left_iff.mpr (List.forall₂_same.mpr fun q _ => rfl) :
      List.Forall₂ (fun w q => w = CtrlParam.text q) (c.params.map CtrlParam.text) c.params)
  obtain rfl : args = params.map CtrlParam.text :=
    List.forall₂_eq_eq_eq.le _ _ (List.forall₂_map_right_iff.mpr htexts)
  have hsteps : ∀ (ps : List CtrlParam) (p : RcParams), (∀ q ∈ ps, q.Ok) →
      (ps.map CtrlParam.text).foldlM (RcParams.step strtod) p = .ok (ps.foldl CtrlParam.effect p) := by
    intro ps
    induction ps with
    | nil => exact fun p _ => rfl
    | cons q ps ih =>
      intro p hps
      rw [List.map_cons, List.foldlM_cons, CtrlParam.step_text (hps q (List.mem_cons_self ..))]
      exact ih _ fun r hr => hps r (List.mem_cons_of_mem q hr)
  rw [hsteps params {} fun q hq => hok q (hparams.mem_iff.mp hq),
    hparams.symm.foldl_eq' fun q hq r hr p => c.effect_comm hq hr p]

/-- Any number of flags is as good as one. -/
theorem foldl_flags (flags : List Flag) (p : RcParams) :
    (flags.map fun _ => CtrlParam.onetime).foldl CtrlParam.effect p =
      { p with flags := p.flags ||| flagBits flags } := by
  induction flags generalizing p with
  | nil =>
    show p = { p with flags := p.flags ||| 0 }
    rw [UInt32.or_zero]
  | cons f flags ih =>
    rw [List.map_cons, List.foldl_cons, ih]
    show { p with flags := p.flags ||| fiuOnetime ||| flagBits flags } =
      { p with flags := p.flags ||| fiuOnetime }
    cases flags with
    | nil => rw [flagBits, UInt32.or_zero]
    | cons f' flags => rw [flagBits, UInt32.or_assoc, UInt32.or_self]

/-- The basic parameters, taken into the defaults. -/
theorem foldl_basicParams (name : Word) (failnum : ℤ) (failinfo : Option ℤ) (flags : List Flag) :
    (basicParams name failnum failinfo flags).foldl CtrlParam.effect {} =
      { fpName := some name.bytes, failnum := failnum, failinfo := (failinfo.getD 0).toNat,
        flags := flagBits flags } := by
  have hzero : (0 : UInt32) ||| flagBits flags = flagBits flags := UInt32.zero_or
  unfold basicParams
  rw [List.foldl_append, List.foldl_append, foldl_flags]
  cases failinfo with
  | none =>
    show ({ fpName := some name.bytes, failnum := failnum, flags := 0 ||| flagBits flags } :
      RcParams) = _
    rw [hzero]
    rfl
  | some i =>
    show ({ fpName := some name.bytes, failnum := failnum, failinfo := i.toNat,
            flags := 0 ||| flagBits flags } : RcParams) = _
    rw [hzero]
    rfl

/-- A name has no NUL, and is read to its end. -/
theorem Word.ofArray_bytes (w : Word) : CString.ofArray w.bytes = w.toCString :=
  CString.ext_bytes (CString.ofArray_bytes w.toCString.noNul)

/-- What was sent is dispatched as it was meant. -/
theorem CtrlCall.execute_params {c : CtrlCall} (hc : c.Ok) :
    ∃ error, (c.params.foldl CtrlParam.effect {}).execute c.rawCmd.cmd = .control error c.meant := by
  cases c with
  | enable name failnum failinfo flags =>
    refine ⟨"Error in enable", ?_⟩
    show ((basicParams name failnum failinfo flags).foldl CtrlParam.effect {}).execute
      (bytes "enable") = _
    rw [foldl_basicParams]
    show RcOutcome.control _ (.enable (some (CString.ofArray name.bytes)) _ _ _) = _
    rw [name.ofArray_bytes]
    rfl
  | enableStackByName name funcName failnum failinfo flags posInStack =>
    refine ⟨"Error in enable_stack_by_name", ?_⟩
    obtain ⟨-, -, rfl⟩ := hc
    show ((basicParams name failnum failinfo flags ++ [CtrlParam.funcName funcName]).foldl
      CtrlParam.effect {}).execute (bytes "enable_stack_by_name") = _
    rw [List.foldl_append, foldl_basicParams]
    show RcOutcome.control _ (.enableStackByName (some (CString.ofArray name.bytes)) _ _ _
      (some (CString.ofArray funcName.bytes)) _) = _
    rw [name.ofArray_bytes, funcName.ofArray_bytes]
    rfl
  | disable name =>
    refine ⟨"Error in disable", ?_⟩
    show RcOutcome.control _ (.disable (some (CString.ofArray name.bytes))) = _
    rw [name.ofArray_bytes]
    rfl

/-! ## The line

What is sent is one line with two words. The command is the first of them, and has no separator in
it. -/

/-- The two words of a line, and its parameters. -/
theorem RawCmd.line_words (raw : RawCmd) (hcmd : raw.cmd ≠ [] ∧ ∀ b ∈ raw.cmd, b ∉ blanks)
    (hne : raw.args ≠ []) (hargs : ∀ w ∈ raw.args, w ≠ [] ∧ ∀ b ∈ w, b ∉ [0, 9, 10, 32, 44]) :
    commandWord raw.line = some raw.cmd ∧ paramWord raw.line = some (join comma raw.args) ∧
      fields comma (join comma raw.args) = raw.args := by
  have hclean : ∀ b ∈ join comma raw.args, b ∉ blanks := by
    intro b hb hblank
    rcases mem_join hb with rfl | ⟨w, hw, hbw⟩
    · exact absurd hblank (by decide)
    · have hmem : b ∈ ([0, 9, 10, 32, 44] : List UInt8) := by
        simp only [blanks, List.mem_cons, List.not_mem_nil, or_false] at hblank
        rcases hblank with rfl | rfl <;> decide
      exact (hargs w hw).2 b hbw hmem
  have hjoin : join comma raw.args ≠ [] := by
    obtain ⟨w, ws, hws⟩ := List.exists_cons_of_ne_nil hne
    have hw : w ≠ [] := (hargs w (by rw [hws]; exact List.mem_cons_self ..)).1
    rw [hws]
    cases ws with
    | nil => exact hw
    | cons v ws => exact List.append_ne_nil_of_left_ne_nil hw _
  have hfirst : strtokR raw.line blanks = some (raw.cmd, join comma raw.args) :=
    strtokR_append_cons hcmd.2 hcmd.1 (by decide) _
  refine ⟨?_, ?_, ?_⟩
  · rw [commandWord, hfirst]
    rfl
  · rw [paramWord, hfirst]
    show (strtokR (join comma raw.args) blanks).map Prod.fst = _
    rw [strtokR_word hclean hjoin]
    rfl
  · apply fields_join
    · exact fun w hw h => (hargs w hw).2 comma h (by decide)
    · exact fun w hw => (hargs w (List.mem_of_getLast? hw)).1

/-- **What fiu_ctrl sends is what the library does**, whatever the order of the parameters.

    `hc`: the arguments are in their ranges. `hperm` and `hcmd`: the command is the line of the call
    with its parameters in any order, since Python's order of them is not relied on. `hlen`: the
    line has at most 511 bytes. Then `fiu_rc_string` makes the call that was meant, with its values
    read back, and returns what that call returns; nothing else changes the library. -/
theorem fiu_rc_string_fiu_ctrl {W : Type} (P : Platform) (l : Linker) (strtod : List UInt8 → ℚ)
    {c : CtrlCall} (hc : c.Ok) {args : List (List UInt8)} (hperm : args.Perm c.rawCmd.args)
    {cmd : CString} (hcmd : cmd.bytes = RawCmd.line ⟨c.rawCmd.cmd, args⟩) (hlen : cmd.strlen ≤ 511) :
    ∃ error, fiuRcString strtod cmd = .control error c.meant ∧
      ∀ s : Fiu W, (fiuRcString strtod cmd).run P l s =
        (c.meant.run P l s).map fun r => (r.1, error, r.2) := by
  obtain ⟨hargs, hok⟩ := c.args_eq hc
  have hwords : c.rawCmd.cmd ≠ [] ∧ ∀ b ∈ c.rawCmd.cmd, b ∉ blanks := by
    have hcommands : ∀ w ∈ rcCommands, w ≠ [] ∧ ∀ b ∈ w, b ∉ blanks := by decide +kernel
    apply hcommands
    cases c <;> simp [CtrlCall.rawCmd, rcCommands]
  have hne : args ≠ [] := by
    rintro rfl
    have hnil : c.rawCmd.args = [] := hperm.nil_eq.symm
    rw [hargs, List.map_eq_nil_iff] at hnil
    cases c <;> cases hnil
  have hclean : ∀ w ∈ args, w ≠ [] ∧ ∀ b ∈ w, b ∉ [0, 9, 10, 32, 44] := by
    intro w hw
    rw [hperm.mem_iff, hargs] at hw
    obtain ⟨q, -, rfl⟩ := List.mem_map.mp hw
    exact q.text_clean
  obtain ⟨hcommand, hparam, hfields⟩ := RawCmd.line_words ⟨c.rawCmd.cmd, args⟩ hwords hne hclean
  have hwhole : cmd.bytes.take (maxLine - 1) = cmd.bytes := List.take_of_length_le hlen
  obtain ⟨error, hexec⟩ := c.execute_params hc
  have hread : fiuRcString strtod cmd = .control error c.meant := by
    rw [fiuRcString_eq, hwhole, hcmd, hcommand, hparam]
    dsimp only
    rw [hfields, c.foldlM_args hc hperm]
    exact hexec
  refine ⟨error, hread, fun s => ?_⟩
  rw [hread]
  rfl

/-- A call with all parameters, sent in the reverse order. -/
theorem fiu_rc_string_fiu_ctrl_reversed : ∃ error,
    fiuRcString (fun _ => 0)
        (CString.ofArray (bytes "enable onetime,failinfo=28,failnum=-3,name=posix/io/rw/*")) =
      .control error (.enable (some ⟨bytes "posix/io/rw/*", by decide +kernel⟩) (-3) 28 1) := by
  have hclean : ∀ b ∈ bytes "posix/io/rw/*", b ∉ [0, 9, 10, 32, 44] := by decide +kernel
  have hrange : (CtrlCall.enable ⟨bytes "posix/io/rw/*", by decide, hclean⟩ (-3) (some 28)
      [.onetime]).Ok := by
    refine ⟨⟨by decide, by decide, by decide⟩, ?_⟩
    rintro i ⟨⟩
    exact ⟨by decide, by decide⟩
  have hperm : [bytes "onetime", bytes "failinfo=28", bytes "failnum=-3", bytes "name=posix/io/rw/*"].Perm
      (basicArgs (bytes "posix/io/rw/*") (-3) (some 28) [.onetime]) := by
    decide +kernel
  have hline : (CString.ofArray (bytes "enable onetime,failinfo=28,failnum=-3,name=posix/io/rw/*")).bytes =
      RawCmd.line ⟨bytes "enable", [bytes "onetime", bytes "failinfo=28", bytes "failnum=-3",
        bytes "name=posix/io/rw/*"]⟩ := by
    decide +kernel
  obtain ⟨error, hread, -⟩ := fiu_rc_string_fiu_ctrl (W := Unit) Platform.ieee
    ⟨fun _ => 0, fun _ => 0, fun _ => 0, false⟩ (fun _ => 0) hrange hperm hline (by decide +kernel)
  exact ⟨error, hread⟩

end Libfiu
