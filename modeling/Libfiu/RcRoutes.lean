/-
  The two ways for commands into a process: the environment and the control pipe.

  `fiuRunInit` is what preload/run/run.c does with `FIU_ENABLE`, after `fiu_init`: it cuts the value at
  the newlines with `strtok_r` and stops at the first command that is not accepted.  `strtok_r` skips
  empty tokens, and has no limit to their length; so the two ways agree where `read_line` frames the
  lines, on commands that are accepted (`routes_agree`).

  Neither of the two ways is the specification of the other: an empty line ends the one and is
  skipped by the other, and of a line that is too long both read the beginning only, but the rest of
  it is a command for one of them. On the lines that both take as they are, they come to the same
  calls in the same order, which is all that the state of the library can depend on.
-/
import Libfiu.RcLine

namespace Libfiu

open Text

variable {σ : Type} (rcString : RcString σ)

/-! ## `fiu_run_init`

It takes the variable apart at its newlines and executes one token after another, until one is
refused. -/

/-- What `fiu_run_init` did: the calls of `fiu_rc_string`, what it wrote to `stderr`, and the state. -/
structure RunInit (σ : Type) where
  calls : List CString
  stderr : String
  state : σ

/-- A command in front of others. -/
def RunInit.cons (cmd : CString) (t : RunInit σ) : RunInit σ := { t with calls := cmd :: t.calls }

/-- What is left is shorter. -/
theorem strtokR_lt {s delim tok state : List UInt8} (h : strtokR s delim = some (tok, state)) :
    state.length < s.length := by
  dsimp only [strtokR] at h
  split at h
  · cases h
  · rename_i hne
    cases h
    have hdrop := (List.dropWhile_sublist (l := s) (fun b => decide (b ∈ delim))).length_le
    have hrest := (List.dropWhile_sublist (l := s.dropWhile (fun b => decide (b ∈ delim)))
      (fun b => decide (b ∉ delim))).length_le
    have hpos := List.length_pos_of_ne_nil hne
    rw [List.length_drop]
    omega

/-- The loop over the tokens. -/
def runInitLoop (copy : List UInt8) (s : σ) : Option (RunInit σ) :=
  match _h : strtokR copy [newline] with
  | none => some ⟨[], "", s⟩
  | some (tok, state) =>
    match rcString (CString.ofArray tok) s with
    | none => none
    | some (r, error, s) =>
      if r ≠ 0 then
        some ⟨[CString.ofArray tok],
          "fiu_run_preload: Error applying FIU_ENABLE commands: " ++ error ++ "\n", s⟩
      else (runInitLoop state s).map (RunInit.cons (CString.ofArray tok))
termination_by copy.length
decreasing_by exact strtokR_lt _h

/-- `fiu_run_init`, from the reading of `FIU_ENABLE` on; `strdup` tells whether the copy was made. -/
def fiuRunInit (fiuEnableEnv : Option CString) (strdup : Bool) (s : σ) : Option (RunInit σ) :=
  match fiuEnableEnv with
  | none => some ⟨[], "", s⟩
  | some env =>
    if env.bytes = [] then some ⟨[], "", s⟩
    else if strdup then runInitLoop rcString env.bytes s
    else some ⟨[], "fiu_run_preload: Error in strdup()", s⟩

/-- The value that `EnvironmentControl` builds, one `run_raw_cmd` after another. -/
def environmentControl (ls : List Line) : List UInt8 :=
  ls.foldl (fun env l => env ++ (l.bytes ++ [newline])) []

/-- The value has a line for each command. -/
theorem environmentControl_eq (ls : List Line) : environmentControl ls = lineStream ls := by
  have hfold : ∀ (ls : List Line) (env : List UInt8),
      ls.foldl (fun env l => env ++ (l.bytes ++ [newline])) env = env ++ lineStream ls := by
    intro ls
    induction ls with
    | nil => exact fun env => (List.append_nil env).symm
    | cons l ls ih =>
      intro env
      rw [List.foldl_cons, ih, lineStream_cons]
      simp
  exact hfold ls []

/-! ## The loop on lines

The tokens of a text of lines are the lines, as none of them is empty. -/

variable {rcString}

/-- No token. -/
theorem runInitLoop_none {copy : List UInt8} (h : strtokR copy [newline] = none) (s : σ) :
    runInitLoop rcString copy s = some ⟨[], "", s⟩ := by
  rw [runInitLoop]
  split
  · rfl
  · rename_i hsome
    rw [h] at hsome
    cases hsome

/-- One token: the loop goes on if it is accepted. -/
theorem runInitLoop_some {copy tok state : List UInt8} (h : strtokR copy [newline] = some (tok, state))
    (s : σ) : runInitLoop rcString copy s = (rcString (CString.ofArray tok) s).bind fun a =>
      if a.1 ≠ 0 then some ⟨[CString.ofArray tok],
        "fiu_run_preload: Error applying FIU_ENABLE commands: " ++ a.2.1 ++ "\n", a.2.2⟩
      else (runInitLoop rcString state a.2.2).map (RunInit.cons (CString.ofArray tok)) := by
  rw [runInitLoop]
  split
  · rename_i hnone
    rw [h] at hnone
    cases hnone
  · rename_i hsome
    rw [h] at hsome
    cases hsome
    rcases rcString (CString.ofArray tok) s with _ | a
    · rfl
    · rfl

/-- One line that is accepted. -/
theorem runInitLoop_cons {l : Line} (hne : l.bytes ≠ []) {fd : List UInt8} {s s₁ : σ} {error : String}
    (hr : rcString l.toCString s = some (0, error, s₁)) :
    runInitLoop rcString (l.bytes ++ newline :: fd) s =
      (runInitLoop rcString fd s₁).map (RunInit.cons l.toCString) := by
  have htok : strtokR (l.bytes ++ newline :: fd) [newline] = some (l.bytes, fd) := by
    apply strtokR_append_cons _ hne (List.mem_singleton_self newline)
    exact fun b hb h => l.noNewline (List.mem_singleton.mp h ▸ hb)
  have htext : CString.ofArray l.bytes = l.toCString := CString.ext_bytes (CString.ofArray_bytes l.noNul)
  rw [runInitLoop_some htok, htext, hr, Option.bind_some, if_neg (not_not.mpr rfl)]

/-- **The loop takes the lines as they are.** By induction on the lines, from any state. -/
theorem runInitLoop_lines : ∀ (ls : List Line) {s s' : σ} {rs : List ℤ}, (∀ l ∈ ls, l.bytes ≠ []) →
    rcRun rcString (ls.map Line.toCString) s = some (rs, s') → (∀ r ∈ rs, r = 0) →
    runInitLoop rcString (lineStream ls) s = some ⟨ls.map Line.toCString, "", s'⟩ := by
  intro ls
  induction ls with
  | nil =>
    intro s s' rs _ hrun _
    cases hrun
    rw [runInitLoop]
    rfl
  | cons l ls ih =>
    intro s s' rs hne hrun hzero
    rw [List.map_cons, rcRun_cons] at hrun
    obtain ⟨⟨r, error, s₁⟩, hr, hrest⟩ := Option.bind_eq_some_iff.mp hrun
    obtain ⟨⟨rs₁, s₂⟩, hrun₁, he⟩ := Option.map_eq_some_iff.mp hrest
    cases he
    obtain rfl : r = 0 := hzero r (List.mem_cons_self ..)
    have hloop := ih (fun k hk => hne k (List.mem_cons_of_mem l hk)) hrun₁
      fun k hk => hzero k (List.mem_cons_of_mem _ hk)
    rw [lineStream_cons, runInitLoop_cons (hne l (List.mem_cons_self ..)) hr, hloop]
    rfl

/-! ## The two ways

Both give the same texts to `fiu_rc_string` in the same order; from there on they are the same. -/

/-- **The environment and the pipe make the same calls**, and leave the same points enabled.

    The lines have 1 to 511 characters each (`hfits`), and run one after another they are all
    accepted (`hrun`, `haccepted`). `env` is what `EnvironmentControl` joins of them. Then both
    `fiu_run_init`, on `FIU_ENABLE`, and the control thread, on the stream of the lines, come to
    their end; each hands exactly these lines to `fiu_rc_string`, in order; and both end in the
    state `s'` of that run. -/
theorem routes_agree {W : Type} (P : Platform) (l : Linker) (strtod : List UInt8 → ℚ) (ls : List Line)
    (hfits : ∀ line ∈ ls, line.Fits) {s s' : Fiu W} {rs : List ℤ}
    (hrun : rcRun (fiuRcRun P l strtod) (ls.map Line.toCString) s = some (rs, s'))
    (haccepted : ∀ r ∈ rs, r = 0) {env : CString} (henv : env.bytes = environmentControl ls) :
    ∃ t u, fiuRunInit (fiuRcRun P l strtod) (some env) true s = some t ∧
      rcSession (fiuRcRun P l strtod) (lineStream ls) s = some u ∧
      t.calls = ls.map Line.toCString ∧ u.calls = t.calls ∧ u.state = t.state ∧ t.state = s' := by
  have hne : ∀ line ∈ ls, line.bytes ≠ [] := by
    intro line hline hnil
    have hpos : 1 ≤ line.bytes.length := (hfits line hline).1
    rw [hnil] at hpos
    exact absurd hpos (by decide)
  rw [environmentControl_eq] at henv
  have hinit : fiuRunInit (fiuRcRun P l strtod) (some env) true s =
      some ⟨ls.map Line.toCString, "", s'⟩ := by
    show (if env.bytes = [] then _ else runInitLoop (fiuRcRun P l strtod) env.bytes s) = _
    rw [henv]
    by_cases hempty : lineStream ls = []
    · -- no lines, no commands
      cases ls with
      | nil =>
        cases hrun
        exact if_pos rfl
      | cons line ls =>
        rw [lineStream_cons] at hempty
        exact absurd hempty (by simp)
    · rw [if_neg hempty]
      exact runInitLoop_lines ls hne hrun haccepted
  have hframed : Framed (fiuRcRun P l strtod) ls s := by
    rw [framed_iff]
    refine ⟨hfits, ?_⟩
    rw [hrun]
    exact Option.some_ne_none _
  obtain ⟨rs', s'', hrun', hsession⟩ := hframed
  rw [hrun] at hrun'
  cases hrun'
  exact ⟨_, _, hinit, hsession, rfl, rfl, rfl, rfl⟩

/-- A point is enabled and disabled again. -/
theorem routes_agree_two : ∃ t u,
    fiuRunInit (fiuRcRun Platform.ieee noSymbols fun _ => 0)
        (some (CString.ofArray (bytes "enable name=a\ndisable name=a\n"))) true (initialized () 0 0) = some t ∧
      rcSession (fiuRcRun Platform.ieee noSymbols fun _ => 0) (bytes "enable name=a\ndisable name=a\n")
        (initialized () 0 0) = some u ∧ u.calls = t.calls ∧ u.state = t.state := by
  have hrun : (rcRun (fiuRcRun Platform.ieee noSymbols fun _ => 0)
      [CString.ofArray (bytes "enable name=a"), CString.ofArray (bytes "disable name=a")]
      (initialized () 0 0)).map Prod.fst = some [0, 0] := by
    decide +kernel
  obtain ⟨⟨rs, s'⟩, hrun, hrs⟩ := Option.map_eq_some_iff.mp hrun
  have hfits : ∀ line ∈ ([⟨CString.ofArray (bytes "enable name=a"), by decide +kernel⟩,
      ⟨CString.ofArray (bytes "disable name=a"), by decide +kernel⟩] : List Line), line.Fits := by
    intro line hline
    rcases List.mem_cons.mp hline with rfl | hline
    · exact ⟨by decide +kernel, by decide +kernel⟩
    · rw [List.mem_singleton.mp hline]
      exact ⟨by decide +kernel, by decide +kernel⟩
  have hzero : ∀ r ∈ rs, r = 0 := by
    intro r hr
    rw [show rs = [0, 0] from hrs] at hr
    simpa using hr
  have henv : (CString.ofArray (bytes "enable name=a\ndisable name=a\n")).bytes =
      environmentControl [⟨CString.ofArray (bytes "enable name=a"), by decide +kernel⟩,
        ⟨CString.ofArray (bytes "disable name=a"), by decide +kernel⟩] := by
    decide +kernel
  obtain ⟨t, u, ht, hu, -, hcalls, hstate, -⟩ := routes_agree Platform.ieee noSymbols (fun _ => 0) _
    hfits hrun hzero henv
  exact ⟨t, u, ht, hu, hcalls, hstate⟩

end Libfiu
