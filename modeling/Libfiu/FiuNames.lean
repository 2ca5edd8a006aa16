/-
  Names of every length: which characters of a name are read.

  `is_wildcard` reads the character at `len - 1`, and `ws_matches_s` compares with `ws_len - 1`.  Nobody
  tests a length before 1 is subtracted from it.

  1. **What is defined in the model is inside of the strings** (`wsMatchesSChecked_eq`): `strlast`
     written with its reads one by one, and `ws_matches_s` with a test before the subtraction, give
     what they give in the table's model.
  2. **The entries** (`entry_lengths`): in every reachable table an entry has its own length, and that
     is not 0.
  3. **The names** (`names_of_every_length_iff`): a call, of a program or of the remote control, is inside
     of its strings exactly when its name is not empty or it is refused before it looks at the name.

  The functions with their reads checked are written from the source once more, read by read, and
  are compared with those of `Wtable`, which test what they need in front. So where a result of this
  development says that a call is defined, the call has read no character outside of its strings.
-/
import Libfiu.FiuRequest

namespace Libfiu

open Text

variable {W : Type} {P : Platform} {l : Linker}

/-! ## Reads

The functions on strings once more, with every read checked: a read behind the terminator, or in
front of the string, is undefined. -/

/-- The loop of `strlast` from `pos` on, one read after another. -/
def strlastFrom (s₁ s₂ : CString) : ℕ → ℕ → Option ℕ
  | 0, _ => none
  | left + 1, pos => do
    let c₁ ← s₁.charAt pos
    if c₁ = 0 then some (pos % 2 ^ 32)
    else do
      let c₂ ← s₂.charAt pos
      if c₂ = 0 ∨ c₁ ≠ c₂ then some (pos % 2 ^ 32) else strlastFrom s₁ s₂ left (pos + 1)

/-- `strlast`, defined only when all its reads are inside of the strings. -/
def strlastChecked (s₁ s₂ : CString) : Option ℕ := strlastFrom s₁ s₂ (s₁.strlen + 1) 0

/-- `ws_matches_s`, defined only when all its reads are inside of the strings and `ws_len - 1` does
    not wrap. -/
def wsMatchesSChecked (ws : CString) (wsLen : ℕ) (s : CString) (sLen : ℕ) (exact : Bool) :
    Option Bool := do
  let exactMatch ← if exact then some true else (isWildcard ws wsLen).map (! ·)
  if exactMatch then
    if wsLen ≠ sLen then some false else some (decide (ws = s))
  else if wsLen = 0 then none
  else (strlastChecked ws s).map fun n => decide (n ≥ wsLen - 1)

/-- The characters of a string can be read. -/
theorem CString.charAt_of_lt {s : CString} {i : ℕ} (h : i < s.bytes.length) :
    s.charAt i = some s.bytes[i] ∧ s.bytes[i] ≠ 0 := by
  constructor
  · rw [charAt, List.getElem?_append_left h, List.getElem?_eq_getElem h]
  · intro h0
    exact s.noNul (h0 ▸ List.getElem_mem h)

/-- The terminator can be read too. -/
theorem CString.charAt_length (s : CString) : s.charAt s.bytes.length = some 0 := by
  rw [charAt, List.getElem?_append_right le_rfl, Nat.sub_self]
  rfl

/-- The loop stays inside of the strings.  The induction is on the characters of the first one that
    are left; the position is not past the end of either. -/
theorem strlastFrom_eq {s₁ s₂ : CString} : ∀ (left pos : ℕ), pos + left = s₁.bytes.length + 1 →
    0 < left → pos ≤ s₂.bytes.length →
    strlastFrom s₁ s₂ left pos =
      some ((pos + commonPrefix (s₁.bytes.drop pos) (s₂.bytes.drop pos)) % 2 ^ 32) := by
  intro left
  induction left with
  | zero => exact fun pos _ h => absurd h (lt_irrefl 0)
  | succ left ih =>
    intro pos hleft _ hpos
    rw [strlastFrom]
    rcases Nat.lt_or_ge pos s₁.bytes.length with hlt₁ | hge₁
    · obtain ⟨hc₁, hne₁⟩ := CString.charAt_of_lt hlt₁
      simp only [hc₁, Option.bind_eq_bind, Option.bind_some, if_neg hne₁]
      rcases Nat.lt_or_ge pos s₂.bytes.length with hlt₂ | hge₂
      · obtain ⟨hc₂, hne₂⟩ := CString.charAt_of_lt hlt₂
        simp only [hc₂, Option.bind_some]
        rw [List.drop_eq_getElem_cons hlt₁, List.drop_eq_getElem_cons hlt₂, commonPrefix]
        by_cases hc : s₁.bytes[pos] = s₂.bytes[pos]
        · rw [if_neg (by simp [hne₂, hc]), if_pos hc, ih (pos + 1) (by omega) (by omega) hlt₂]
          congr 2
          omega
        · rw [if_pos (Or.inr hc), if_neg hc, Nat.add_zero]
      · -- the end of the second string
        obtain rfl : pos = s₂.bytes.length := le_antisymm hpos hge₂
        simp only [CString.charAt_length, Option.bind_some, true_or, if_true]
        rw [List.drop_length]
        cases s₁.bytes.drop s₂.bytes.length <;> rfl
    · -- the end of the first string
      obtain rfl : pos = s₁.bytes.length := by omega
      simp only [CString.charAt_length, Option.bind_eq_bind, Option.bind_some, if_true]
      rw [List.drop_length]
      cases s₂.bytes.drop s₁.bytes.length <;> rfl

/-- **`strlast` stays inside of its strings**, whatever they are. -/
theorem strlastChecked_eq (s₁ s₂ : CString) :
    strlastChecked s₁ s₂ = some (strlast s₁.bytes s₂.bytes) := by
  rw [strlastChecked, CString.strlen, strlastFrom_eq _ 0 (Nat.zero_add _) (Nat.succ_pos _)
    (Nat.zero_le _), Nat.zero_add, List.drop_zero, List.drop_zero, strlast_eq]

/-- **Where `ws_matches_s` is defined, it is inside of its strings and nothing wraps.** -/
theorem wsMatchesSChecked_eq (ws : CString) (wsLen : ℕ) (s : CString) (sLen : ℕ) (exact : Bool) :
    wsMatchesSChecked ws wsLen s sLen exact = wsMatchesS ws wsLen s sLen exact := by
  unfold wsMatchesSChecked wsMatchesS
  rw [strlastChecked_eq]
  cases exact with
  | true => rfl
  | false =>
    rcases Nat.eq_zero_or_pos wsLen with rfl | hpos
    · rfl
    · rw [if_neg hpos.ne']
      rfl

/-! ## The entries

The length that an entry has is the one of its own key, so `ws_matches_s` never counts beyond it. -/

/-- **Every entry has its own length, which is not 0.** -/
theorem entry_lengths {s : Fiu W} {L : Ledger ℕ} (hs : s.Valid P L) {t : Wtable ℕ}
    {ws : List (Option (Wentry ℕ))} {e : Wentry ℕ} (ht : s.enabledFails = some t)
    (hws : t.slots = some ws) (he : some e ∈ ws) :
    e.keyLen = e.key.strlen ∧ 1 ≤ e.keyLen ∧
      ∀ name exact, (wsMatchesSChecked e.key e.keyLen name name.strlen exact).isSome := by
  obtain ⟨t', ht', hfol⟩ := hs.table
  rw [ht] at ht'
  cases ht'
  obtain ⟨ws', hw, -⟩ := hfol.holds.uncached.array
  rw [hw.slots_eq] at hws
  cases hws
  have hgood := hw.good e he
  refine ⟨hgood.keyLen_eq, ?_, fun name exact => ?_⟩
  · rw [hgood.keyLen_eq, hgood.wild.strlen_eq]
    exact Nat.succ_pos _
  · rw [wsMatchesSChecked_eq, Wentry.wsMatchesS_eq hgood]
    rfl

/-! ## Exactly the names that are read inside of their strings

A condition on each request alone, since what is read is the name that comes with it and the
entries, which are as they should be after any run. -/

/-- **Names of every length.** After any run of requests, by calls, commands and new seeds:

    * every entry of the table has its own length, which is not 0, and is matched with any name
      inside of the strings, exact or as a wildcard (`wsMatchesSChecked` is `none` at a read outside
      of them);
    * a request that makes a call is inside of its strings if and only if the name that it hands
      over is not empty, or the call does not look at it. -/
theorem names_of_every_length_iff (P : Platform) (l : Linker) (strtod : List UInt8 → ℚ) (world : W)
    (garbage : ℕ) (seed : UInt32) {qs : List (Request W)} {rs : List RequestReply} {s : Fiu W}
    (hrun : Machine.run (requestStep P l strtod) (initialized world garbage seed) qs = some (rs, s)) :
    (∀ t ws e, s.enabledFails = some t → t.slots = some ws → some e ∈ ws →
      e.keyLen = e.key.strlen ∧ 1 ≤ e.keyLen ∧
        ∀ name exact, (wsMatchesSChecked e.key e.keyLen name name.strlen exact).isSome) ∧
    ∀ (q : Request W) (call : FiuCall W), q.toCall P strtod = some call →
      ((requestStep P l strtod s q).isSome ↔
        call.name.bytes ≠ [] ∨ call.takesName l = false) := by
  obtain ⟨L, hs⟩ := request_run_valid hrun
  refine ⟨fun t ws e ht hws he => entry_lengths hs ht hws he, fun q call hcall => ?_⟩
  have hsome := congrArg Option.isSome (requestStep_of_call (l := l) hcall s)
  rw [Option.isSome_map, Option.isSome_map] at hsome
  rw [hsome, fiuStep_isSome_iff hs]

/-- The empty name. -/
def keyEmpty : CString := CString.ofArray []

/-- `fiu_disable` of the empty name, and the command that hands it over, read in front of the
    string. -/
theorem empty_name_outside :
    isWildcard keyEmpty keyEmpty.strlen = none ∧
    requestStep Platform.ieee noSymbols (fun _ => 0) (initialized () 0 0)
      (.call (.disable keyEmpty)) = none ∧
    fiuRcString (fun _ => 0) (CString.ofArray (bytes "disable name=")) =
      .control "Error in disable" (.disable (some keyEmpty)) ∧
    requestStep Platform.ieee noSymbols (fun _ => 0) (initialized () 0 0)
      (.command (CString.ofArray (bytes "disable name="))) = none := by
  have hcommand : fiuRcString (fun _ => 0) (CString.ofArray (bytes "disable name=")) =
      .control "Error in disable" (.disable (some keyEmpty)) := by decide +kernel
  refine ⟨by decide, ?_, hcommand, ?_⟩
  · rw [requestStep, fiuStep, fiuDisable_empty (by decide)]
    rfl
  · rw [requestStep, hcommand, RcOutcome.run, RcCall.run]
    simp only [Option.bind_eq_bind, Option.bind_some]
    rw [fiuDisable_empty (by decide)]
    rfl

/-- A name of one character is read inside of its string. -/
theorem names_of_every_length_one :
    (requestStep Platform.ieee noSymbols (fun _ => 0) (initialized () 0 0)
      (.call (.disable keyJ))).isSome = true :=
  ((names_of_every_length_iff Platform.ieee noSymbols (fun _ => 0) () 0 0
    (Machine.run_nil _ _)).2 (.call (.disable keyJ)) _ rfl).mpr (Or.inl (by decide))

end Libfiu
