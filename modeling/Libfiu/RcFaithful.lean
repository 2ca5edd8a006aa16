/-
  When `fiu_rc_string` does what the command says.

  A command is to be rejected, or to be carried out with the whole name that is written in it
  (`RcOutcome.Faithful`).  The parser does so exactly for the commands that are `WellWritten`:

  * a number that is given without its value is handed to libc as NULL, unless an unknown parameter
    stands in front of it;
  * a command without a name, or with `name` and no value, hands NULL to the control function;
  * of a command with more than 511 characters only the first 511 are read; when they can be
    carried out, the name they hold may be only the beginning of the one that was written.

  The specification does not know of arrays. It takes the two words of the whole text, and looks for
  the last `name` in the second one; so to compare the two means to find out what a cut after 511
  characters does to a name. Cutting it off makes another name, and cutting in front of it makes
  none.
-/
import Libfiu.RcString

namespace Libfiu

open Text

/-! ## The command as it is written

The specification reads the whole text, without the arrays: two words, the parameters in the second
one, and the last name among these. -/

/-- The first word of a text. -/
def commandWord (text : List UInt8) : Option (List UInt8) := (strtokR text blanks).map Prod.fst

/-- The second word of a text. -/
def paramWord (text : List UInt8) : Option (List UInt8) := do
  let (_, state) ← strtokR text blanks
  (strtokR state blanks).map Prod.fst

/-- The parameters in a text. -/
def subopts (text : List UInt8) : List (List UInt8) := fields comma ((paramWord text).getD [])

/-- The token of a parameter. -/
def rcToken (w : List UInt8) : Option RcToken := findToken rcTokens (suboptName w)

/-- One more parameter: is it the name? -/
def pickName (name : Option (List UInt8)) (w : List UInt8) : Option (List UInt8) :=
  if rcToken w = some .name then suboptValue w else name

/-- The value of the last `name` among the parameters. -/
def lastName (ws : List (List UInt8)) : Option (List UInt8) := ws.foldl pickName none

/-- The command is rejected, or one control call is made, with the whole name that is written in
    the command. -/
def RcOutcome.Faithful (cmd : CString) : RcOutcome → Prop
  | .reject _ => True
  | .nullNumber => False
  | .control _ call => ∃ name, call.name = some name ∧ lastName (subopts cmd.bytes) = some name.bytes

/-! ## The condition

It can be decided by looking at the text: no number is without its value, and the name, if one is
needed, is there and ends before the arrays do. -/

/-- The parameter is a number. -/
def RcToken.isNumber : RcToken → Bool
  | .failnum | .failinfo | .probability | .posInStack => true
  | _ => false

/-- All numbers in front of the first unknown parameter have a value. -/
def NumbersGiven : List (List UInt8) → Prop
  | [] => True
  | w :: ws => ∀ t ∈ rcToken w, (t.isNumber = true → suboptValue w ≠ none) ∧ NumbersGiven ws

/-- There is no unknown parameter. -/
def AllKnown (ws : List (List UInt8)) : Prop := ∀ w ∈ ws, rcToken w ≠ none

/-- The commands. -/
def rcCommands : List (List UInt8) :=
  [bytes "disable", bytes "enable", bytes "enable_random", bytes "enable_stack_by_name"]

/-- The text is rejected: it has no two words, an unknown command or an unknown parameter. -/
def Rejected (text : List UInt8) : Prop :=
  paramWord text = none ∨ (∀ c ∈ commandWord text, c ∉ rcCommands) ∨ ¬ AllKnown (subopts text)

/-- In the first 511 characters the numbers have their values; and they are rejected, or they hold
    a name, the one of the whole command. -/
def WellWritten (cmd : CString) : Prop :=
  let text := cmd.bytes.take (maxLine - 1)
  NumbersGiven (subopts text) ∧
    (Rejected text ∨
      lastName (subopts text) ≠ none ∧ lastName (subopts text) = lastName (subopts cmd.bytes))

/-! ## The words

`fiu_rc_string` copies both words into arrays of 512 characters, which cuts off what is longer. -/

variable {strtod : List UInt8 → ℚ}

/-- A token is made of characters of the text. -/
theorem strtokR_subset {s delim tok state : List UInt8} (h : strtokR s delim = some (tok, state)) :
    tok.Sublist s ∧ state.Sublist s := by
  dsimp only [strtokR] at h
  split at h
  · cases h
  · cases h
    have hdrop := List.dropWhile_sublist (l := s) (fun b => decide (b ∈ delim))
    constructor
    · exact (List.takeWhile_sublist _).trans hdrop
    · exact ((List.drop_sublist 1 _).trans (List.dropWhile_sublist _)).trans hdrop

/-- The second word is a part of the text. -/
theorem paramWord_sublist {text w : List UInt8} (h : paramWord text = some w) : w.Sublist text := by
  unfold paramWord at h
  cases hr : strtokR text blanks with
  | none =>
    rw [hr] at h
    cases h
  | some r =>
    obtain ⟨tok, state⟩ := r
    rw [hr] at h
    obtain ⟨⟨w', state'⟩, hw, rfl⟩ := Option.map_eq_some_iff.mp h
    exact (strtokR_subset hw).1.trans (strtokR_subset hr).2

/-- What is read of a command: the arrays hold the words as they are in its first 511 characters. -/
theorem fiuRcString_eq (cmd : CString) :
    fiuRcString strtod cmd =
      match commandWord (cmd.bytes.take (maxLine - 1)), paramWord (cmd.bytes.take (maxLine - 1)) with
      | none, _ => .reject "Cannot get command"
      | some _, none => .reject "Cannot get parameters"
      | some command, some parameters =>
        match (fields comma parameters).foldlM (RcParams.step strtod) {} with
        | .error o => o
        | .ok p => p.execute command := by
  have hlen : (cmd.bytes.take (maxLine - 1)).length ≤ maxLine - 1 := by
    rw [List.length_take]
    exact Nat.min_le_left ..
  have hfit : ∀ {w : List UInt8}, w.Sublist (cmd.bytes.take (maxLine - 1)) →
      strncpy w (maxLine - 1) = w := by
    intro w hw
    exact List.take_of_length_le (hw.length_le.trans hlen)
  dsimp only [fiuRcString, commandWord, paramWord]
  rw [show strncpy cmd.bytes (maxLine - 1) = cmd.bytes.take (maxLine - 1) from rfl]
  cases hr : strtokR (cmd.bytes.take (maxLine - 1)) blanks with
  | none => rfl
  | some r =>
    obtain ⟨tok, state⟩ := r
    cases hr' : strtokR state blanks with
    | none => simp [hr']
    | some r' =>
      obtain ⟨tok', state'⟩ := r'
      have htok := hfit (strtokR_subset hr).1
      have htok' := hfit ((strtokR_subset hr').1.trans (strtokR_subset hr).2)
      cases hfold : (fields comma tok').foldlM (RcParams.step strtod) {} with
      | error o =>
        simp only [Option.bind_eq_bind, Option.bind_some, Option.map_some, hr', htok', rcParams_eq,
          hfold]
      | ok p =>
        simp only [Option.bind_eq_bind, Option.bind_some, Option.map_some, hr', htok, htok',
          rcParams_eq, hfold]

/-! ## The parameters

The loop stops at the first parameter that it does not know, and what comes behind is not read. -/

/-- **One parameter**: unknown, a number without its value, or taken. -/
theorem RcParams.step_spec (strtod : List UInt8 → ℚ) (p : RcParams) (w : List UInt8) :
    match rcToken w with
    | none => p.step strtod w = .error (.reject "Unknown parameter")
    | some t =>
      (t.isNumber = true ∧ suboptValue w = none ∧ p.step strtod w = .error .nullNumber) ∨
      ((t.isNumber = true → suboptValue w ≠ none) ∧
        ∃ q, p.step strtod w = .ok q ∧ q.fpName = pickName p.fpName w) := by
  unfold RcParams.step pickName
  rw [show findToken rcTokens (suboptName w) = rcToken w from rfl]
  cases ht : rcToken w with
  | none => rfl
  | some t =>
    cases hv : suboptValue w with
    | none => cases t <;> simp [RcParams.take, RcToken.isNumber]
    | some v => cases t <;> simp [RcParams.take]

/-- **All parameters.**  The induction is on the parameters that are left, for any values taken. -/
theorem foldlM_step_spec (strtod : List UInt8 → ℚ) : ∀ (ws : List (List UInt8)) (p : RcParams),
    (¬ NumbersGiven ws ∧ ws.foldlM (RcParams.step strtod) p = .error .nullNumber) ∨
    (NumbersGiven ws ∧ ¬ AllKnown ws ∧
      ws.foldlM (RcParams.step strtod) p = .error (.reject "Unknown parameter")) ∨
    (NumbersGiven ws ∧ AllKnown ws ∧
      ∃ q, ws.foldlM (RcParams.step strtod) p = .ok q ∧ q.fpName = ws.foldl pickName p.fpName) := by
  intro ws
  induction ws with
  | nil =>
    intro p
    refine Or.inr (Or.inr ⟨trivial, ?_, p, rfl, rfl⟩)
    exact fun w hw => absurd hw List.not_mem_nil
  | cons w ws ih =>
    intro p
    have hstep := p.step_spec strtod w
    rw [List.foldlM_cons]
    cases ht : rcToken w with
    | none =>
      rw [ht] at hstep
      have hgiven : NumbersGiven (w :: ws) := by
        intro t h
        rw [ht] at h
        cases h
      have hunknown : ¬ AllKnown (w :: ws) := fun h => h w (List.mem_cons_self ..) ht
      exact Or.inr (Or.inl ⟨hgiven, hunknown, by rw [hstep]; rfl⟩)
    | some t =>
      rw [ht] at hstep
      have hgiven : NumbersGiven (w :: ws) ↔
          (t.isNumber = true → suboptValue w ≠ none) ∧ NumbersGiven ws := by
        show (∀ t ∈ rcToken w, _) ↔ _
        rw [ht]
        exact ⟨fun h => h t rfl, fun h t' ht' => by cases ht'; exact h⟩
      have hknown : AllKnown (w :: ws) ↔ AllKnown ws := by
        unfold AllKnown
        rw [List.forall_mem_cons, ht]
        exact and_iff_right (Option.some_ne_none t)
      rw [hgiven, hknown]
      rcases hstep with ⟨hnumber, hnone, hstep⟩ | ⟨hvalue, q, hstep, hname⟩
      · -- a number without a value
        refine Or.inl ⟨fun h => h.1 hnumber hnone, ?_⟩
        rw [hstep]
        rfl
      · -- taken: the rest decides
        have hbind : (p.step strtod w >>= fun q => ws.foldlM (RcParams.step strtod) q) =
            ws.foldlM (RcParams.step strtod) q := by
          rw [hstep]
          rfl
        rw [hbind, and_iff_right hvalue, List.foldl_cons, ← hname]
        exact ih q

/-! ## The command

After the loop one call is made, with what the variables hold then. -/

/-- The dispatch: the name is handed on to the one call that is made. -/
theorem RcParams.execute_spec (p : RcParams) (command : List UInt8) :
    (command ∉ rcCommands ∧ p.execute command = .reject "Unknown command") ∨
    (command ∈ rcCommands ∧ ∃ error call, p.execute command = .control error call ∧
      call.name = p.fpName.map CString.ofArray) := by
  unfold RcParams.execute
  by_cases h1 : command = bytes "disable"
  · rw [if_pos h1]
    exact Or.inr ⟨by simp [rcCommands, h1], _, _, rfl, rfl⟩
  by_cases h2 : command = bytes "enable"
  · rw [if_neg h1, if_pos h2]
    exact Or.inr ⟨by simp [rcCommands, h2], _, _, rfl, rfl⟩
  by_cases h3 : command = bytes "enable_random"
  · rw [if_neg h1, if_neg h2, if_pos h3]
    exact Or.inr ⟨by simp [rcCommands, h3], _, _, rfl, rfl⟩
  by_cases h4 : command = bytes "enable_stack_by_name"
  · rw [if_neg h1, if_neg h2, if_neg h3, if_pos h4]
    exact Or.inr ⟨by simp [rcCommands, h4], _, _, rfl, rfl⟩
  · rw [if_neg h1, if_neg h2, if_neg h3, if_neg h4]
    exact Or.inl ⟨by simp [rcCommands, h1, h2, h3, h4], rfl⟩

/-- The value of a parameter is a part of the text. By induction on the pieces, for any name taken
    before. -/
theorem mem_of_mem_lastName {text name : List UInt8} {b : UInt8}
    (h : lastName (subopts text) = some name) (hb : b ∈ name) : b ∈ text := by
  have hvalue : ∀ {w v : List UInt8}, suboptValue w = some v → b ∈ v → b ∈ w := by
    intro w v hv hbv
    unfold suboptValue at hv
    split at hv
    · cases hv
      exact ((List.drop_sublist 1 _).trans (List.dropWhile_sublist _)).subset hbv
    · cases hv
  have hfold : ∀ (ws : List (List UInt8)) (start : Option (List UInt8)),
      ws.foldl pickName start = some name → start = some name ∨ ∃ w ∈ ws, suboptValue w = some name := by
    intro ws
    induction ws with
    | nil => exact fun start hs => Or.inl hs
    | cons w ws ih =>
      intro start hs
      rcases ih _ hs with hpick | ⟨u, hu, hv⟩
      · unfold pickName at hpick
        split at hpick
        · exact Or.inr ⟨w, List.mem_cons_self .., hpick⟩
        · exact Or.inl hpick
      · exact Or.inr ⟨u, List.mem_cons_of_mem w hu, hv⟩
  rcases hfold _ _ h with h | ⟨w, hw, hv⟩
  · cases h
  · cases hp : paramWord text with
    | none =>
      rw [subopts, hp] at hw
      exact absurd hw List.not_mem_nil
    | some params =>
      rw [subopts, hp] at hw
      exact (paramWord_sublist hp).subset (mem_of_mem_fields hw (hvalue hv hb))

/-- **Exactly the well-written commands are read faithfully**, over all command strings, with
    whatever `strtod` gives.

    Faithful is a command that is rejected, or makes one control call with the whole name that is
    written in it last; one that hands NULL to libc is not. `WellWritten` can be read off the text:
    in its first 511 characters every number has its value, and they are rejected, or they hold the
    name of the whole command. -/
theorem fiu_rc_string_faithful_iff (strtod : List UInt8 → ℚ) (cmd : CString) :
    (fiuRcString strtod cmd).Faithful cmd ↔ WellWritten cmd := by
  rw [fiuRcString_eq]
  dsimp only [WellWritten, Rejected]
  have hsubopts : subopts (cmd.bytes.take (maxLine - 1)) =
      fields comma ((paramWord (cmd.bytes.take (maxLine - 1))).getD []) := rfl
  cases hparam : paramWord (cmd.bytes.take (maxLine - 1)) with
  | none =>
    have hgiven : NumbersGiven (subopts (cmd.bytes.take (maxLine - 1))) := by
      rw [hsubopts, hparam]
      trivial
    apply iff_of_true
    · cases commandWord (cmd.bytes.take (maxLine - 1)) <;> trivial
    · exact ⟨hgiven, Or.inl (Or.inl rfl)⟩
  | some params =>
    rw [hparam] at hsubopts
    have hcommand : ∃ command, commandWord (cmd.bytes.take (maxLine - 1)) = some command := by
      unfold paramWord at hparam
      unfold commandWord
      cases hr : strtokR (cmd.bytes.take (maxLine - 1)) blanks with
      | none =>
        -- no parameters, or not even a command
        rw [hr] at hparam
        cases hparam
      | some r => exact ⟨r.1, rfl⟩
    obtain ⟨command, hcommand⟩ := hcommand
    rw [hcommand]
    show RcOutcome.Faithful cmd (match (fields comma params).foldlM (RcParams.step strtod) {} with
      | .error o => o
      | .ok p => p.execute command) ↔ _
    rw [hsubopts, Option.getD_some]
    rcases foldlM_step_spec strtod (fields comma params) {} with
      ⟨hgiven, hfold⟩ | ⟨hgiven, hknown, hfold⟩ | ⟨hgiven, hknown, q, hfold, hname⟩
    · -- a number without a value
      rw [hfold]
      exact iff_of_false id fun h => hgiven h.1
    · -- an unknown parameter
      rw [hfold]
      exact iff_of_true trivial ⟨hgiven, Or.inl (Or.inr (Or.inr hknown))⟩
    · rw [hfold]
      show (q.execute command).Faithful cmd ↔ _
      rcases q.execute_spec command with ⟨hunknown, hexec⟩ | ⟨hmem, error, call, hexec, hcall⟩
      · rw [hexec]
        -- an unknown command
        apply iff_of_true trivial
        refine ⟨hgiven, Or.inl (Or.inr (Or.inl ?_))⟩
        rintro c ⟨⟩
        exact hunknown
      · -- the call is made
        rw [hexec]
        show (∃ name, call.name = some name ∧ lastName (subopts cmd.bytes) = some name.bytes) ↔ _
        have hrejected : ¬ (some params = none ∨ (∀ c ∈ some command, c ∉ rcCommands) ∨
            ¬ AllKnown (fields comma params)) := by
          rintro (h | h | h)
          · cases h
          · exact h command rfl hmem
          · exact h hknown
        rw [and_iff_right hgiven, or_iff_right hrejected, hcall, hname]
        show (∃ name, (lastName (fields comma params)).map CString.ofArray = some name ∧ _) ↔ _
        cases hlast : lastName (fields comma params) with
        | none => simp
        | some n =>
          have hnul : (0 : UInt8) ∉ n := by
            intro h0
            have hmem : (0 : UInt8) ∈ cmd.bytes.take (maxLine - 1) :=
              mem_of_mem_lastName (by rw [hsubopts]; exact hlast) h0
            exact cmd.noNul (List.mem_of_mem_take hmem)
          constructor
          · rintro ⟨name, hn, hwritten⟩
            obtain rfl : CString.ofArray n = name := Option.some.inj hn
            rw [CString.ofArray_bytes hnul] at hwritten
            exact ⟨Option.some_ne_none n, hwritten.symm⟩
          · rintro ⟨-, hwritten⟩
            refine ⟨CString.ofArray n, rfl, ?_⟩
            rw [CString.ofArray_bytes hnul]
            exact hwritten.symm

/-- `enable failnum` hands NULL to `atoi`, `enable failnum=1` hands NULL to `fiu_enable`, and a name of
    600 characters is cut off. -/
theorem fiu_rc_string_unfaithful :
    ¬ (fiuRcString (fun _ => 0) (CString.ofArray (bytes "enable failnum"))).Faithful
        (CString.ofArray (bytes "enable failnum")) ∧
    ¬ (fiuRcString (fun _ => 0) (CString.ofArray (bytes "enable failnum=1"))).Faithful
        (CString.ofArray (bytes "enable failnum=1")) ∧
    ¬ (fiuRcString (fun _ => 0) (CString.ofArray (bytes "disable name=" ++ List.replicate 600 97))).Faithful
        (CString.ofArray (bytes "disable name=" ++ List.replicate 600 97)) := by
  refine ⟨?_, ?_, ?_⟩
  · have hnull : fiuRcString (fun _ => 0) (CString.ofArray (bytes "enable failnum")) = .nullNumber := by
      decide +kernel
    rw [hnull]
    exact id
  · have hnone : fiuRcString (fun _ => 0) (CString.ofArray (bytes "enable failnum=1")) =
        .control "Error in enable" (.enable none 1 0 0) := by
      decide +kernel
    rw [hnone]
    rintro ⟨name, hname, -⟩
    cases hname
  · have hcut : fiuRcString (fun _ => 0)
        (CString.ofArray (bytes "disable name=" ++ List.replicate 600 97)) =
        .control "Error in disable" (.disable (some (CString.ofArray (List.replicate 498 97)))) := by
      decide +kernel
    have hwritten : lastName (subopts (CString.ofArray (bytes "disable name=" ++
        List.replicate 600 97)).bytes) = some (List.replicate 600 97) := by
      decide +kernel
    rw [hcut]
    rintro ⟨name, hname, hlast⟩
    obtain rfl : CString.ofArray (List.replicate 498 97) = name := Option.some.inj hname
    have hlen : (List.replicate 600 (97 : UInt8)).length =
        (CString.ofArray (List.replicate 498 97)).bytes.length := by
      rw [Option.some.inj (hwritten.symm.trans hlast)]
    rw [CString.ofArray_bytes fun h => absurd (List.eq_of_mem_replicate h) (by decide),
      List.length_replicate, List.length_replicate] at hlen
    omega

end Libfiu
