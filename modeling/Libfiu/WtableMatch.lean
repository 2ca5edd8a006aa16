/-
  The wildcard table against what it is for: a map some of whose keys stand for many names.

  A key that ends in `*` COVERS the names that start with the text before its `*`.  A lookup should
  give the value of the name itself, else of some key that covers it (`tableReply`).

  The code decides with `strlast`, which counts the leading characters that agree in an
  `unsigned int`.  So a key is accepted when it covers the name AND they agree on fewer than 2^32
  characters (`accepts_iff`), and the table is right exactly where that makes no difference:

  * `Counted` — the condition, on the map before a lookup and on its key;
  * `wtable_run_is_map_iff` — a run is right if and only if all its lookups are `Counted`;
  * `wtable_run_long_key` — a run that is not.

  What is left open by the specification is left open by the documentation, too: of several
  wildcards that cover a name any one may be found. That it is always one of them, and that an exact
  name goes before all of them, is what a caller can rely on.
-/
import Libfiu.WtableCache

namespace Libfiu

variable {V : Type} {P : Platform}

/-! ## What covers what

`strlast` counts equal characters in 32 bits, so a key and a name that agree on 2^32 of them or more
may be taken for strangers. Up to that length its result is the length of the common prefix. -/

namespace CString

/-- The text before the last character. -/
def stem (p : CString) : List UInt8 := p.bytes.dropLast

/-- `p` ends in `*`, and `key` starts with the text before it. -/
def Covers (p key : CString) : Prop := p.isWild ∧ p.stem <+: key.bytes

/-- A wildcard is its stem and a star. -/
theorem isWild.bytes_eq {p : CString} (hp : p.isWild) : p.bytes = p.stem ++ [star] :=
  (List.dropLast_append_getLast? star hp).symm

/-- A wildcard is one longer than its stem. -/
theorem isWild.strlen_eq {p : CString} (hp : p.isWild) : p.strlen = p.stem.length + 1 := by
  rw [strlen, hp.bytes_eq, List.length_append, List.length_singleton]

end CString

/-- How many leading characters of the strings are equal. -/
def commonPrefix : List UInt8 → List UInt8 → ℕ
  | c₁ :: s₁, c₂ :: s₂ => if c₁ = c₂ then commonPrefix s₁ s₂ + 1 else 0
  | _, _ => 0

/-- What `strlast` gives is the length of the common prefix, modulo 2^32. -/
theorem strlast_eq : ∀ s₁ s₂ : List UInt8, strlast s₁ s₂ = commonPrefix s₁ s₂ % 2 ^ 32
  | [], _ => by simp [strlast, commonPrefix]
  | _ :: _, [] => rfl
  | c₁ :: s₁, c₂ :: s₂ => by
    by_cases hc : c₁ = c₂
    · rw [strlast, if_pos hc, commonPrefix, if_pos hc, strlast_eq s₁ s₂, Nat.mod_add_mod]
    · rw [strlast, if_neg hc, commonPrefix, if_neg hc, Nat.zero_mod]

/-- The common prefix is no longer than either of the strings. -/
theorem commonPrefix_le : ∀ s₁ s₂ : List UInt8, commonPrefix s₁ s₂ ≤ s₁.length
  | [], _ => by simp [commonPrefix]
  | _ :: _, [] => Nat.zero_le _
  | c₁ :: s₁, c₂ :: s₂ => by
    have ih := commonPrefix_le s₁ s₂
    rw [commonPrefix, List.length_cons]
    split <;> omega

/-- Two strings agree on all of `l` when the second one starts with it too. -/
theorem length_le_commonPrefix : ∀ (l r s : List UInt8),
    l.length ≤ commonPrefix (l ++ r) s ↔ l <+: s
  | [], r, s => by simp
  | c :: l, r, [] => by simp [commonPrefix]
  | c :: l, r, c' :: s => by
    rw [List.cons_append, commonPrefix, List.cons_prefix_cons, List.length_cons]
    by_cases hc : c = c'
    · rw [if_pos hc, Nat.add_le_add_iff_right, length_le_commonPrefix l r s]
      simp [hc]
    · simp [hc]

/-- **What the walk accepts**: the keys that cover the name and agree with it on fewer than 2^32
    characters. -/
theorem accepts_iff {e : Wentry V} (he : e.Good) (key : CString) :
    e.accepts key false = true ↔
      e.key.Covers key ∧ commonPrefix e.key.bytes key.bytes < 2 ^ 32 := by
  have hlen : e.key.bytes.length = e.key.stem.length + 1 := he.wild.strlen_eq
  have hle := commonPrefix_le e.key.bytes key.bytes
  have hcov : e.key.stem.length ≤ commonPrefix e.key.bytes key.bytes ↔ e.key.stem <+: key.bytes := by
    rw [he.wild.bytes_eq, length_le_commonPrefix]
  rw [Wentry.accepts, if_neg Bool.false_ne_true, decide_eq_true_iff, strlast_eq,
    he.wild.strlen_eq, Nat.add_sub_cancel, CString.Covers, and_iff_right he.wild, ← hcov]
  constructor
  · intro h
    have := Nat.mod_le (commonPrefix e.key.bytes key.bytes) (2 ^ 32)
    refine ⟨by omega, ?_⟩
    -- past 2^32 the remainder is too small
    by_contra hbig
    have := Nat.mod_le (commonPrefix e.key.bytes key.bytes - 2 ^ 32) (2 ^ 32)
    rw [Nat.mod_eq_sub_mod (by omega)] at h
    omega
  · rintro ⟨h, hlt⟩
    rwa [Nat.mod_eq_of_lt hlt]

/-! ## The replies of a map with wildcards

The specification of a lookup: the value of the key itself, or that of some key that covers the
name, or NULL when there is neither. It leaves open which one of several wildcards it is, as the
order of the slots decides that.

So two tables with the same map, and different histories, may both be right and reply differently.
-/

/-- What a table with the keys and values of `M` should reply. -/
def tableReply (M : CString → Option V) : Call V → Reply V → Prop
  | .set _ _, r => r = .bool true
  | .del key, r => r = .bool (M key).isSome
  | .get key, r =>
    if ¬ key.isWild ∧ M key ≠ none then r = .ptr (M key)
    else (∃ p v, p.Covers key ∧ M p = some v ∧ r = .ptr (some v)) ∨
      ((∀ p, p.Covers key → M p = none) ∧ r = .ptr none)

/-- A lookup that the counter of `strlast` does not spoil: of a final key, or of a name that no key
    covers, or that some key covers which it agrees with on fewer than 2^32 characters. -/
def Counted (M : CString → Option V) : Call V → Prop
  | .get key => (¬ key.isWild ∧ M key ≠ none) ∨ (∀ p, p.Covers key → M p = none) ∨
      ∃ p, p.Covers key ∧ M p ≠ none ∧ commonPrefix p.bytes key.bytes < 2 ^ 32
  | _ => True

/-- The walk that finds something found a key that covers the name. -/
theorem wildcardFor_some {ws : List (Option (Wentry V))} {M : CString → Option V}
    (hM : WsHolds ws M) (hgood : ∀ e, some e ∈ ws → e.Good) {key : CString} {v : V}
    (h : wildcardFor ws key = some v) :
    ∃ p, p.Covers key ∧ M p = some v ∧ commonPrefix p.bytes key.bytes < 2 ^ 32 := by
  obtain ⟨⟨pos, e⟩, hfirst, hv⟩ := Option.bind_eq_some_iff.mp h
  obtain ⟨i, -, hi, hacc⟩ := firstFrom_some ws 0 hfirst
  have hmem := List.mem_of_getElem? hi
  obtain ⟨hcov, hlt⟩ := (accepts_iff (hgood e hmem) key).mp hacc
  exact ⟨e.key, hcov, by rw [hM.value_eq hmem, hv], hlt⟩

/-- The walk that finds nothing accepts no entry: none of them has the value NULL. -/
theorem not_accepts_of_wildcardFor {ws : List (Option (Wentry V))}
    (hgood : ∀ e, some e ∈ ws → e.Good) {key : CString} (h : wildcardFor ws key = none)
    {e : Wentry V} (he : some e ∈ ws) : e.accepts key false = false := by
  refine firstFrom_none ws 0 ?_ e he
  by_contra hne
  obtain ⟨⟨pos, e'⟩, hfirst⟩ := Option.ne_none_iff_exists'.mp hne
  obtain ⟨i, -, hi, -⟩ := firstFrom_some ws 0 hfirst
  rw [wildcardFor, hfirst] at h
  exact (hgood e' (List.mem_of_getElem? hi)).value_ne h

/-- The walk that finds nothing passed no key that it would accept. -/
theorem wildcardFor_none {ws : List (Option (Wentry V))} {M : CString → Option V}
    (hM : WsHolds ws M) (hgood : ∀ e, some e ∈ ws → e.Good) {key : CString}
    (h : wildcardFor ws key = none) {p : CString} (hcov : p.Covers key) (hp : M p ≠ none) :
    2 ^ 32 ≤ commonPrefix p.bytes key.bytes := by
  obtain ⟨e, he, rfl, -⟩ := (hM p (M p)).mpr ⟨hcov.1, hp, rfl⟩
  have hrej := not_accepts_of_wildcardFor hgood h he
  by_contra hlt
  rw [(accepts_iff (hgood e he) key).mpr ⟨hcov, by omega⟩] at hrej
  cases hrej

/-- **Exactly when the reply is right.** -/
theorem slotReply_iff {ws : List (Option (Wentry V))} {M : CString → Option V}
    (hM : WsHolds ws M) (hgood : ∀ e, some e ∈ ws → e.Good) (call : Call V) :
    tableReply M call (slotReply M ws call) ↔ Counted M call := by
  cases call with
  | set key value => exact iff_of_true rfl trivial
  | del key => exact iff_of_true rfl trivial
  | get key =>
    show (if ¬ key.isWild ∧ M key ≠ none then _ else _) ↔ _
    by_cases hfin : ¬ key.isWild ∧ M key ≠ none
    · -- the key itself
      have hMkey : finalsOf M key = M key := if_neg hfin.1
      have hsome : (M key).isSome = true := Option.isSome_iff_ne_none.mpr hfin.2
      rw [if_pos hfin]
      refine iff_of_true ?_ (Or.inl hfin)
      rw [slotReply, hMkey, if_pos hsome]
    · have hMkey : (finalsOf M key).isSome = false := by
        unfold finalsOf
        split
        · rfl
        · rename_i hwild
          by_contra hne
          exact hfin ⟨hwild, Option.isSome_iff_ne_none.mp (eq_true_of_ne_false hne)⟩
      rw [if_neg hfin, slotReply, hMkey, if_neg Bool.false_ne_true]
      cases hwalk : wildcardFor ws key with
      | some v =>
        obtain ⟨p, hcov, hp, hlt⟩ := wildcardFor_some hM hgood hwalk
        exact iff_of_true (Or.inl ⟨p, v, hcov, hp, rfl⟩)
          (Or.inr (Or.inr ⟨p, hcov, by rw [hp]; exact Option.some_ne_none v, hlt⟩))
      | none =>
        constructor
        · rintro (⟨p, v, -, -, hr⟩ | ⟨hno, -⟩)
          · cases hr
          · exact Or.inr (Or.inl hno)
        · rintro (h | hno | ⟨p, hcov, hp, hlt⟩)
          · exact absurd h hfin
          · exact Or.inr ⟨hno, rfl⟩
          · exact absurd (wildcardFor_none hM hgood hwalk hcov hp) (by omega)

/-! ## Runs

A reply is right or wrong on its own, and a wrong one leaves the table as it is. Hence the run is
right exactly when each of its lookups is `Counted`. -/

/-- Runs from any table that holds `M`. -/
theorem wtable_run_replies {t : Wtable V} {M : CString → Option V} (ht : t.Holds P M)
    (calls : List (Call V)) (hkeys : ∀ call ∈ calls, call.key.bytes ≠ []) :
    ∃ rs t', Machine.run (wtableStep P) t calls = some (rs, t') ∧
      (Machine.Follows mapNext tableReply M calls rs ↔
        Machine.Throughout mapNext Counted M calls) := by
  obtain ⟨rs, t', hrun, hiff, -⟩ := Machine.run_follows_iff (R := Wtable.Holds P)
    (fun t M call ht hkey => by
      obtain ⟨ws, hw, hM⟩ := ht.uncached.array
      obtain ⟨t', hstep, -, ht', -⟩ := wtableStep_spec ht hw call hkey
      exact ⟨_, t', hstep, slotReply_iff hM hw.good call, ht'⟩)
    calls t M ht (Machine.throughout_of_forall (p := fun call => call.key.bytes ≠ []) hkeys M)
  exact ⟨rs, t', hrun, hiff⟩

/-- `n` times `"a"`. -/
def longName (n : ℕ) : CString := ⟨List.replicate n 97, fun h => by cases List.eq_of_mem_replicate h⟩

/-- `n` times `"a"`, and `"*"`. -/
def longWildcard (n : ℕ) : CString :=
  ⟨List.replicate n 97 ++ [star], fun h => by
    rcases List.mem_append.mp h with h | h
    · cases List.eq_of_mem_replicate h
    · cases List.mem_singleton.mp h⟩

/-- A wildcard is set, and the name that it covers is looked up. -/
def longCalls (n : ℕ) : List (Call ℕ) := [.set (longWildcard n) 1, .get (longName n)]

/-- The long key is a wildcard. -/
theorem longWildcard_isWild (n : ℕ) : (longWildcard n).isWild := List.getLast?_concat

/-- The long name has no star. -/
theorem longName_not_isWild (n : ℕ) : ¬ (longName n).isWild := by
  intro h
  have := List.eq_of_mem_replicate (List.mem_of_getLast? h)
  cases this

/-- The long key covers the long name. -/
theorem longWildcard_covers (n : ℕ) : (longWildcard n).Covers (longName n) := by
  refine ⟨longWildcard_isWild n, ?_⟩
  rw [CString.stem, longWildcard, List.dropLast_concat]
  exact List.prefix_refl _

/-- From 2^32 characters on the lookup is spoilt. -/
theorem longCalls_not_counted {n : ℕ} (hn : 2 ^ 32 ≤ n) :
    ¬ Machine.Throughout mapNext Counted (fun _ => none) (longCalls n) := by
  rintro ⟨-, hget, -⟩
  have hne : longName n ≠ longWildcard n := fun h => longName_not_isWild n (h ▸ longWildcard_isWild n)
  have hother : ∀ p, p ≠ longWildcard n →
      mapNext (fun _ => none) (Call.set (longWildcard n) (1 : ℕ)) p = none := by
    intro p hp
    rw [mapNext, Function.update_of_ne hp]
  rcases hget with ⟨-, hM⟩ | hno | ⟨p, -, hM, hlt⟩
  · exact hM (hother _ hne)
  · have := hno _ (longWildcard_covers n)
    rw [mapNext, Function.update_self] at this
    cases this
  · have hp : p = longWildcard n := by
      by_contra hp
      exact hM (hother p hp)
    have hlen : n ≤ commonPrefix (longWildcard n).bytes (longName n).bytes := by
      have := (length_le_commonPrefix (List.replicate n 97) [star] (longName n).bytes).mpr
        (List.prefix_refl _)
      rwa [List.length_replicate] at this
    rw [hp] at hlt
    omega

end Libfiu
