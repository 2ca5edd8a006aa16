/-
  What can be asked of the library between two points in time: a call of one of its functions, a
  command of the remote control, or a new seed for its generator.

  A command of the remote control that makes a call makes one that a program could make as well
  (`RcCall.run_eq`).  So whatever was asked, the library is valid afterwards (`requestStep_valid`), and
  a fact that all calls keep holds after every run of requests.

  **Which calls are undefined** (`fiuStep_isSome_iff`): in a valid library, those that enable or disable
  the empty name, unless they are refused before they look at it.

  The remote control cannot do more than a program can: `rc_process_cmd` reads a line and makes a
  call of one of the functions of fiu.c with what it found, or refuses the line. What it can do in
  addition is to make that call with NULL for a string; where the function reads it, the program is
  at an end, and where it does not come to that, the call is refused as any other
  (`RcCall.run_null`).
-/
import Libfiu.FiuLocks
import Libfiu.RcString

namespace Libfiu

variable {W : Type} {P : Platform} {l : Linker}

/-! ## The requests

What the outside can ask for between two calls: a call by the program, a line of the remote control,
a new seed. -/

/-- A request. -/
inductive Request (W : Type) where
  | call (call : FiuCall W)
  /-- `fiu_rc_string`. -/
  | command (cmd : CString)
  /-- `fiu_set_prng_seed`. -/
  | seed (seed : UInt32)

/-- What a request returns. -/
inductive RequestReply where
  | call (reply : FiuReply)
  | command (r : ℤ) (error : String)
  | seed
  deriving DecidableEq

/-- `fiu_set_prng_seed`. -/
def fiuSetPrngSeed (s : Fiu W) (seed : UInt32) : Fiu W := { s with randdXn := seed }

/-- One request. -/
def requestStep (P : Platform) (l : Linker) (strtod : List UInt8 → ℚ) (s : Fiu W) :
    Request W → Option (RequestReply × Fiu W)
  | .call call => (fiuStep P l s call).map fun r => (.call r.1, r.2)
  | .command cmd => ((fiuRcString strtod cmd).run P l s).map fun r => (.command r.1 r.2.1, r.2.2)
  | .seed seed => some (.seed, fiuSetPrngSeed s seed)

/-! ## The empty name

`is_wildcard` reads `s[len - 1]`. For the empty name that is in front of the string, and so a call
is undefined exactly when it comes to look at an empty name.

The calls of `fiu_fail` are not among them, since a lookup looks at no last character of the name
that it is given. -/

/-- `is_wildcard` of the empty name reads the character in front of it. -/
theorem isWildcard_empty {name : CString} (hname : name.bytes = []) :
    isWildcard name name.strlen = none := by
  rw [isWildcard, if_pos]
  rw [CString.strlen, hname, List.length_nil]

/-- A point with the empty name cannot be inserted. -/
theorem insertPf_empty {pf : PfInfo W} (hname : pf.name.bytes = []) (s : Fiu W) :
    insertPf P s pf = none := by
  unfold insertPf wtableSet
  rw [isWildcard_empty hname]
  cases s.enabledFails <;> rfl

/-- A point with the empty name cannot be disabled. -/
theorem fiuDisable_empty {name : CString} (hname : name.bytes = []) (s : Fiu W) :
    fiuDisable P s name = none := by
  unfold fiuDisable wtableDel
  rw [isWildcard_empty hname]
  cases s.enabledFails <;> rfl

/-- The call looks at its name. -/
def FiuCall.takesName (l : Linker) (call : FiuCall W) : Bool :=
  match call with
  | .fail _ _ => false
  | call => !call.refused l

/-- **The calls that are defined**: those with a name, and those that do not look at it. -/
theorem fiuStep_isSome_iff {s : Fiu W} {L : Ledger ℕ} (hs : s.Valid P L) (call : FiuCall W) :
    (fiuStep P l s call).isSome ↔ call.name.bytes ≠ [] ∨ call.takesName l = false := by
  by_cases hname : call.name.bytes ≠ []
  · obtain ⟨r, s', L', hstep, -⟩ := fiuStep_valid (l := l) hs call hname
    rw [hstep]
    exact iff_of_true rfl (Or.inl hname)
  · rw [not_not] at hname
    by_cases henables : call.enables = true
    · obtain ⟨pf, hpf, -, hstep⟩ := fiuStep_enabling (P := P) (l := l) henables
      have htakes : call.takesName l = !call.refused l := by
        cases call with
        | fail caller name => cases henables
        | _ => rfl
      rw [hstep, htakes]
      by_cases hr : call.refused l = true
      · rw [if_pos hr, hr]
        exact iff_of_true rfl (Or.inr rfl)
      · rw [if_neg hr, insertPf_empty (hpf ▸ hname)]
        rw [Bool.not_eq_true] at hr
        simp [hr, hname]
    · cases call with
      | fail caller name =>
        obtain ⟨r, s', hf, -⟩ := fiuFail_valid (l := l) hs caller name
        rw [fiuStep, hf]
        exact iff_of_true rfl (Or.inr rfl)
      | disable name =>
        have hempty : name.bytes = [] := hname
        rw [fiuStep, fiuDisable_empty hempty]
        simp [FiuCall.takesName, FiuCall.refused, FiuCall.name, hempty]
      | _ => exact absurd rfl henables

/-- A call that is defined keeps the library valid. -/
theorem fiuStep_some_valid {s s' : Fiu W} {L : Ledger ℕ} (hs : s.Valid P L) {call : FiuCall W}
    {r : FiuReply} (hstep : fiuStep P l s call = some (r, s')) : ∃ L', s'.Valid P L' := by
  by_cases hname : call.name.bytes ≠ []
  · obtain ⟨r', t, L', hstep', hv⟩ := fiuStep_valid (l := l) hs call hname
    rw [hstep] at hstep'
    cases hstep'
    exact ⟨L', hv⟩
  · rw [not_not] at hname
    by_cases henables : call.enables = true
    · obtain ⟨pf, hpf, -, heq⟩ := fiuStep_enabling (P := P) (l := l) henables
      rw [heq, insertPf_empty (hpf ▸ hname)] at hstep
      split at hstep
      · cases hstep
        exact ⟨L, hs⟩
      · cases hstep
    · cases call with
      | fail caller name =>
        obtain ⟨r', t, hf, hv⟩ := fiuFail_valid (l := l) hs caller name
        rw [fiuStep, hf] at hstep
        cases hstep
        exact ⟨L, hv⟩
      | disable name =>
        have hempty : name.bytes = [] := hname
        rw [fiuStep, fiuDisable_empty hempty] at hstep
        cases hstep
      | _ => exact absurd rfl henables

/-! ## Commands

A line of the remote control that is accepted makes one call, with the strings that were read from
it. -/

/-- The call of a command, when no string is NULL.  `fiu_enable_random` takes a `float`. -/
def RcCall.toCall (P : Platform) : RcCall → Option (FiuCall W)
  | .disable name => name.map .disable
  | .enable name failnum failinfo flags => name.map fun n => .enable n failnum failinfo flags
  | .enableRandom name failnum failinfo flags probability =>
    name.map fun n => .enableRandom n failnum failinfo flags (P.single.round probability)
  | .enableStackByName name failnum failinfo flags funcName funcPosInStack => do
    some (.enableStackByName (← name) failnum failinfo flags (← funcName).symbol funcPosInStack)

/-- **A command makes a call** that a program could make as well. -/
theorem RcCall.run_eq {call : RcCall} {c : FiuCall W} (h : call.toCall P = some c) (s : Fiu W) :
    (call.run P l s).map (fun r => (FiuReply.int r.1, r.2)) = fiuStep P l s c := by
  cases call with
  | disable name =>
    obtain ⟨n, rfl, rfl⟩ := Option.map_eq_some_iff.mp h
    rfl
  | enable name failnum failinfo flags =>
    obtain ⟨n, rfl, rfl⟩ := Option.map_eq_some_iff.mp h
    rfl
  | enableRandom name failnum failinfo flags probability =>
    obtain ⟨n, rfl, rfl⟩ := Option.map_eq_some_iff.mp h
    rfl
  | enableStackByName name failnum failinfo flags funcName funcPosInStack =>
    obtain ⟨n, rfl, h⟩ := Option.bind_eq_some_iff.mp h
    obtain ⟨f, rfl, h⟩ := Option.bind_eq_some_iff.mp h
    cases h
    rw [RcCall.run, rcEnableStackByName_some]
    rfl

/-- With NULL for a string, a command is undefined in every state, or refused in every state. -/
theorem RcCall.run_null {call : RcCall} (h : call.toCall (W := W) P = none) :
    (∀ s : Fiu W, call.run P l s = none) ∨ ∀ s : Fiu W, call.run P l s = some (-1, s) := by
  cases call with
  | disable name =>
    obtain rfl := Option.map_eq_none_iff.mp h
    exact Or.inl fun _ => rfl
  | enable name failnum failinfo flags =>
    obtain rfl := Option.map_eq_none_iff.mp h
    exact Or.inl fun _ => rfl
  | enableRandom name failnum failinfo flags probability =>
    obtain rfl := Option.map_eq_none_iff.mp h
    exact Or.inl fun _ => rfl
  | enableStackByName name failnum failinfo flags funcName funcPosInStack =>
    unfold RcCall.run rcEnableStackByName
    dsimp only
    split
    · exact Or.inr fun _ => rfl
    cases funcName with
    | none => exact Or.inl fun _ => rfl
    | some f =>
      cases name with
      | some n => cases h
      | none =>
        -- the checks of the function come before the first look at the name
        simp only [Option.bind_eq_bind, Option.bind_some, Option.bind_none]
        split
        · exact Or.inr fun _ => rfl
        split
        · exact Or.inr fun _ => rfl
        split
        · exact Or.inr fun _ => rfl
        · exact Or.inl fun _ => rfl

/-- The call that a command makes. -/
def RcOutcome.toCall (P : Platform) : RcOutcome → Option (FiuCall W)
  | .control _ call => call.toCall P
  | _ => none

/-- The call that a request makes. -/
def Request.toCall (P : Platform) (strtod : List UInt8 → ℚ) : Request W → Option (FiuCall W)
  | .call c => some c
  | .command cmd => (fiuRcString strtod cmd).toCall P
  | .seed _ => none

/-! ## What a request can do

Three cases, and all results about runs of requests go by them: it is a call, it is refused, or it
sets the number of the generator.

The cases are about all states at once: whether a request makes a call, and which one, can be seen
from the request alone. -/

variable {strtod : List UInt8 → ℚ}

/-- **A request that makes a call** does what the call does. -/
theorem requestStep_of_call {q : Request W} {c : FiuCall W} (h : q.toCall P strtod = some c)
    (s : Fiu W) : (requestStep P l strtod s q).map Prod.snd = (fiuStep P l s c).map Prod.snd := by
  cases q with
  | seed seed => cases h
  | call call =>
    cases h
    rw [requestStep, Option.map_map]
    rfl
  | command cmd =>
    have ho : (fiuRcString strtod cmd).toCall P = some c := h
    rw [requestStep]
    cases hout : fiuRcString strtod cmd with
    | reject e =>
      rw [hout] at ho
      cases ho
    | nullNumber =>
      rw [hout] at ho
      cases ho
    | control e call =>
      rw [hout] at ho
      rw [← RcCall.run_eq (l := l) ho s, RcOutcome.run, Option.map_map, Option.map_map,
        Option.map_map]
      rfl

/-- The same where the call is known to be defined: a request of the program answers with it. -/
theorem requestStep_some_of_call {q : Request W} {c : FiuCall W} (hc : q.toCall P strtod = some c)
    {s s' : Fiu W} {r : FiuReply} (h : fiuStep P l s c = some (r, s')) :
    ∃ r', requestStep P l strtod s q = some (r', s') ∧ (q = .call c → r' = .call r) := by
  have hmap := requestStep_of_call (l := l) hc s
  rw [h] at hmap
  obtain ⟨⟨r', t⟩, hstep, ht⟩ := Option.map_eq_some_iff.mp hmap
  obtain rfl : t = s' := ht
  refine ⟨r', hstep, ?_⟩
  rintro rfl
  rw [requestStep, h, Option.map_some] at hstep
  exact (congrArg Prod.fst (Option.some.inj hstep)).symm

/-- A command is not a call of `fiu_fail`. -/
theorem Request.command_not_fail (cmd : CString) (caller : Caller) (name : CString) :
    (Request.command cmd).toCall P strtod ≠ some (FiuCall.fail (W := W) caller name) := by
  intro h
  have ho : (fiuRcString strtod cmd).toCall P = some (FiuCall.fail (W := W) caller name) := h
  cases hout : fiuRcString strtod cmd with
  | reject e =>
    rw [hout] at ho
    cases ho
  | nullNumber =>
    rw [hout] at ho
    cases ho
  | control e call =>
    rw [hout] at ho
    cases call with
    | disable name =>
      obtain ⟨n, -, ho⟩ := Option.map_eq_some_iff.mp ho
      cases ho
    | enable name failnum failinfo flags =>
      obtain ⟨n, -, ho⟩ := Option.map_eq_some_iff.mp ho
      cases ho
    | enableRandom name failnum failinfo flags probability =>
      obtain ⟨n, -, ho⟩ := Option.map_eq_some_iff.mp ho
      cases ho
    | enableStackByName name failnum failinfo flags funcName funcPosInStack =>
      obtain ⟨n, -, ho⟩ := Option.bind_eq_some_iff.mp ho
      obtain ⟨f, -, ho⟩ := Option.bind_eq_some_iff.mp ho
      cases ho

/-- **A request that makes no call** is undefined in every state, or it is refused with one answer in
    every state, or it sets the number in the generator. -/
theorem requestStep_no_call {q : Request W} (h : q.toCall P strtod = none) :
    (∀ s, requestStep P l strtod s q = none) ∨ (∃ r, ∀ s, requestStep P l strtod s q = some (r, s)) ∨
      ∃ seed, q = .seed seed := by
  cases q with
  | call call => cases h
  | seed seed => exact Or.inr (Or.inr ⟨seed, rfl⟩)
  | command cmd =>
    have ho : (fiuRcString strtod cmd).toCall (W := W) P = none := h
    cases hout : fiuRcString strtod cmd with
    | reject e =>
      refine Or.inr (Or.inl ⟨.command (-1) e, fun s => ?_⟩)
      rw [requestStep, hout]
      rfl
    | nullNumber =>
      refine Or.inl fun s => ?_
      rw [requestStep, hout]
      rfl
    | control e call =>
      rw [hout] at ho
      rcases RcCall.run_null (l := l) ho with hnone | hrefused
      · refine Or.inl fun s => ?_
        rw [requestStep, hout, RcOutcome.run, hnone]
        rfl
      · refine Or.inr (Or.inl ⟨.command (-1) e, fun s => ?_⟩)
        rw [requestStep, hout, RcOutcome.run, hrefused]
        rfl

/-- **A request** is a call, or it changes nothing but the number in the generator. -/
theorem requestStep_cases {s s' : Fiu W} {q : Request W} {r : RequestReply}
    (h : requestStep P l strtod s q = some (r, s')) :
    (∃ c r', fiuStep P l s c = some (r', s')) ∨ ∃ xn, s' = { s with randdXn := xn } := by
  cases hc : q.toCall P strtod with
  | none =>
    rcases requestStep_no_call (l := l) hc with hnone | ⟨r', hsame⟩ | ⟨seed, rfl⟩
    · rw [hnone] at h
      cases h
    · rw [hsame] at h
      cases h
      exact Or.inr ⟨s.randdXn, rfl⟩
    · cases h
      exact Or.inr ⟨seed, rfl⟩
  | some c =>
    have hmap := requestStep_of_call (l := l) hc s
    rw [h] at hmap
    obtain ⟨⟨r', t⟩, hstep, rfl⟩ := Option.map_eq_some_iff.mp hmap.symm
    exact Or.inl ⟨c, r', hstep⟩

/-- **Every request keeps the library valid.** -/
theorem requestStep_valid {s s' : Fiu W} {q : Request W} {r : RequestReply}
    (h : requestStep P l strtod s q = some (r, s')) (hs : ∃ L, s.Valid P L) : ∃ L, s'.Valid P L := by
  obtain ⟨L, hs⟩ := hs
  rcases requestStep_cases h with ⟨c, r', hstep⟩ | ⟨xn, rfl⟩
  · exact fiuStep_some_valid hs hstep
  · exact ⟨L, hs.table, hs.balanced, hs.named, hs.nonempty⟩

/-- What every request keeps, every run of requests keeps. By induction on the requests. -/
theorem request_run_keeps {J : Fiu W → Prop}
    (hkeep : ∀ {s s' : Fiu W} {q : Request W} {r : RequestReply},
      requestStep P l strtod s q = some (r, s') → J s → J s') :
    ∀ {qs : List (Request W)} {s s' : Fiu W} {rs : List RequestReply},
      Machine.run (requestStep P l strtod) s qs = some (rs, s') → J s → J s' := by
  intro qs
  induction qs with
  | nil =>
    intro s s' rs hrun hs
    cases hrun
    exact hs
  | cons q qs ih =>
    intro s s' rs hrun hs
    obtain ⟨r, t, rs', hstep, hrest, -⟩ := Machine.run_cons_eq_some hrun
    exact ih hrest (hkeep hstep hs)

/-- The library after `fiu_init` and any run of requests is valid. -/
theorem request_run_valid {world : W} {garbage : ℕ} {seed : UInt32} {qs : List (Request W)}
    {rs : List RequestReply} {s : Fiu W}
    (hrun : Machine.run (requestStep P l strtod) (initialized world garbage seed) qs = some (rs, s)) :
    ∃ L, s.Valid P L :=
  request_run_keeps requestStep_valid hrun ⟨_, fiuInit_valid world garbage seed⟩

end Libfiu
