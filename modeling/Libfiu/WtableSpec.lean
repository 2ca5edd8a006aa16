/-
  What the calls of the table without the cache do.

  As for the hash table, `UncachedWtable.WF` is what holds of the wildcards array between
  operations (it is there with its recorded size, every entry is a wildcard with its own length,
  no key is there twice, the counter counts), and each operation has one lemma about its CONTENT.
  Lookups go through `firstFrom`, the first entry in slot order that is accepted; the array keeps
  its order, and nothing here depends on which order it is.

  `Represents P t M` ties a table to the map `M` of all its keys: the finals hold the keys that do
  not end in `*`, the array those that do.

  The two halves of a table are independent but for the key that says which of them a call is about.
  So a call has one lemma for the half that it changes, and the lemmas on `finalsOf` and `WsHolds`
  say that the other half stands for the same part of the map as before.
-/
import Libfiu.Wtable

namespace Libfiu

variable {V : Type} {P : Platform}

/-! ## Wildcard keys

A key is a wildcard when it ends in a star. The other reading, that of `is_wildcard`, is the same on
strings that are not empty. -/

namespace CString

/-- The string ends in `*`. -/
def isWild (s : CString) : Prop := s.bytes.getLast? = some star

instance (s : CString) : Decidable s.isWild :=
  inferInstanceAs (Decidable (s.bytes.getLast? = some star))

/-- A wildcard has its star. -/
theorem isWild.ne_nil {s : CString} (h : s.isWild) : s.bytes ≠ [] := by
  intro he
  rw [isWild, he] at h
  cases h

end CString

/-- On the whole of a non-empty string `is_wildcard` reads its last character. -/
theorem isWildcard_strlen {s : CString} (hs : s.bytes ≠ []) :
    isWildcard s s.strlen = some (decide s.isWild) := by
  have hlen : s.bytes.length ≠ 0 := fun h => hs (List.length_eq_zero_iff.mp h)
  have hlast : s.bytes.getLast? = some (s.bytes.getLast hs) := List.getLast?_eq_some_getLast hs
  have hget : (s.bytes ++ [0])[s.bytes.length - 1]? = s.bytes.getLast? := by
    rw [List.getElem?_append_left (by omega), List.getLast?_eq_getElem?]
  rw [isWildcard, CString.strlen, if_neg hlen, CString.charAt, hget, hlast, Option.map_some]
  simp [CString.isWild, hlast]

/-! ## Entries

`wildcards_find_entry` compares a key with an entry in one of two ways, exactly or by prefix. The
loop is `firstFrom` of whichever it is.

An exact search is for `wildcards_set` and `wildcards_del`, where it can succeed for one entry at
most; a search by prefix is for `wtable_get`, where several entries may match and the first one
counts. -/

namespace Wentry

/-- The entry is a wildcard with its own length and a value. -/
structure Good (e : Wentry V) : Prop where
  keyLen_eq : e.keyLen = e.key.strlen
  wild : e.key.isWild
  value_ne : e.value ≠ none

/-- The entry that `wildcards_find_entry` accepts for `key`. -/
def accepts (key : CString) (exact : Bool) (e : Wentry V) : Bool :=
  if exact then decide (e.key = key)
  else decide (e.key.strlen - 1 ≤ strlast e.key.bytes key.bytes)

/-- In an exact search an entry is accepted for its own key alone. -/
@[simp] theorem accepts_exact {key : CString} {e : Wentry V} :
    e.accepts key true = true ↔ e.key = key := by simp [accepts]

/-- `ws_matches_s` of a good entry is defined. -/
theorem wsMatchesS_eq {e : Wentry V} (he : e.Good) (key : CString) (exact : Bool) :
    wsMatchesS e.key e.keyLen key key.strlen exact = some (e.accepts key exact) := by
  have hwild : isWildcard e.key e.key.strlen = some true := by
    rw [isWildcard_strlen he.wild.ne_nil, decide_eq_true he.wild]
  cases exact with
  | true =>
    by_cases hlen : e.keyLen = key.strlen
    · simp [wsMatchesS, accepts, hlen]
    · have hne : e.key ≠ key := fun h => hlen (by rw [he.keyLen_eq, h])
      simp [wsMatchesS, accepts, hlen, hne]
  | false => simp [wsMatchesS, accepts, hwild, he.keyLen_eq]

end Wentry

/-- The first entry from `pos` on that `f` accepts, and where it is. -/
def firstFrom (f : Wentry V → Bool) : List (Option (Wentry V)) → ℕ → Option (ℕ × Wentry V)
  | [], _ => none
  | none :: ws, pos => firstFrom f ws (pos + 1)
  | some entry :: ws, pos => if f entry then some (pos, entry) else firstFrom f ws (pos + 1)

/-- The first slot from `pos` on that is not in use. -/
def firstFree : List (Option (Wentry V)) → ℕ → Option ℕ
  | [], _ => none
  | none :: _, pos => some pos
  | some _ :: ws, pos => firstFree ws (pos + 1)

/-- The loop of `wildcards_find_entry` gives the first entry accepted, and when there is none the
    first free slot. By induction on the slots behind `pos`, with any free slot found before. -/
theorem findEntryFrom_eq (key : CString) (exact : Bool) :
    ∀ (ws : List (Option (Wentry V))) (pos : ℕ) (free : Option ℕ),
      (∀ e, some e ∈ ws → e.Good) →
      ∃ free', findEntryFrom key exact ws pos free
          = some (firstFrom (Wentry.accepts key exact) ws pos, free') ∧
        (firstFrom (Wentry.accepts key exact) ws pos = none →
          free' = (free <|> firstFree ws pos)) := by
  intro ws
  induction ws with
  | nil =>
    intro pos free _
    exact ⟨free, rfl, fun _ => by cases free <;> rfl⟩
  | cons slot ws ih =>
    intro pos free hgood
    have hgood' : ∀ e, some e ∈ ws → e.Good := fun e he => hgood e (List.mem_cons_of_mem _ he)
    cases slot with
    | none =>
      obtain ⟨free', hfind, hfree⟩ := ih (pos + 1) (free <|> some pos) hgood'
      refine ⟨free', hfind, fun hnone => ?_⟩
      rw [hfree hnone]
      cases free <;> rfl
    | some entry =>
      have hm := Wentry.wsMatchesS_eq (hgood entry (List.mem_cons_self ..)) key exact
      by_cases ha : entry.accepts key exact = true
      · refine ⟨free, ?_, fun hnone => ?_⟩
        · simp [findEntryFrom, firstFrom, hm, ha]
        · simp [firstFrom, ha] at hnone
      · obtain ⟨free', hfind, hfree⟩ := ih (pos + 1) free hgood'
        refine ⟨free', ?_, fun hnone => ?_⟩
        · simp [findEntryFrom, firstFrom, hm, ha, hfind]
        · rw [hfree (by simpa [firstFrom, ha] using hnone)]
          rfl

/-- Where the first entry accepted is. -/
theorem firstFrom_some {f : Wentry V → Bool} {p : ℕ} {e : Wentry V} :
    ∀ (ws : List (Option (Wentry V))) (pos : ℕ), firstFrom f ws pos = some (p, e) →
      ∃ i, p = pos + i ∧ ws[i]? = some (some e) ∧ f e = true
  | [], _, h => by cases h
  | none :: ws, pos, h => by
    obtain ⟨i, rfl, hi, he⟩ := firstFrom_some ws (pos + 1) h
    exact ⟨i + 1, by omega, hi, he⟩
  | some entry :: ws, pos, h => by
    by_cases hf : f entry = true
    · simp only [firstFrom, hf, if_true, Option.some.injEq, Prod.mk.injEq] at h
      obtain ⟨rfl, rfl⟩ := h
      exact ⟨0, rfl, rfl, hf⟩
    · obtain ⟨i, rfl, hi, he⟩ := firstFrom_some ws (pos + 1) (by simpa [firstFrom, hf] using h)
      exact ⟨i + 1, by omega, hi, he⟩

/-- When no entry is accepted. -/
theorem firstFrom_none {f : Wentry V → Bool} :
    ∀ (ws : List (Option (Wentry V))) (pos : ℕ), firstFrom f ws pos = none →
      ∀ e, some e ∈ ws → f e = false
  | [], _, _, _, hm => absurd hm (List.not_mem_nil)
  | none :: ws, pos, h, e, hm =>
    firstFrom_none ws (pos + 1) h e ((List.mem_cons.mp hm).resolve_left (Option.some_ne_none e))
  | some entry :: ws, pos, h, e, hm => by
    by_cases hf : f entry = true
    · simp [firstFrom, hf] at h
    · rcases List.mem_cons.mp hm with he | he
      · cases he
        exact eq_false_of_ne_true hf
      · exact firstFrom_none ws (pos + 1) (by simpa [firstFrom, hf] using h) e he

/-- The free slot that it gives is inside of the array. -/
theorem firstFree_some : ∀ (ws : List (Option (Wentry V))) (pos : ℕ), none ∈ ws →
    ∃ i, firstFree ws pos = some (pos + i) ∧ ws[i]? = some none
  | none :: _, _, _ => ⟨0, rfl, rfl⟩
  | some e :: ws, pos, h => by
    obtain ⟨i, hi, hget⟩ := firstFree_some ws (pos + 1)
      ((List.mem_cons.mp h).resolve_left (Option.some_ne_none e).symm)
    exact ⟨i + 1, by rw [firstFree, hi]; congr 1; omega, hget⟩

/-! ## The array

Between two calls the array has the recorded size, its counter counts the entries, and no key stands
in it twice. Which slot an entry has is left open. -/

/-- The wildcards array of a table between two operations. -/
structure UncachedWtable.WF (t : UncachedWtable V) (ws : List (Option (Wentry V))) : Prop where
  wildcards_eq : t.wildcards = some ws
  size : ws.length = t.wsSize
  used_eq : t.wsUsedCount = ws.countP Option.isSome
  good : ∀ e, some e ∈ ws → e.Good
  unique : ∀ (p q : ℕ) (e e' : Wentry V), ws[p]? = some (some e) → ws[q]? = some (some e') →
    e.key = e'.key → p = q

/-- `ws` holds the keys of `M` that end in `*`. -/
def WsHolds (ws : List (Option (Wentry V))) (M : CString → Option V) : Prop :=
  ∀ key value, (∃ e, some e ∈ ws ∧ e.key = key ∧ e.value = value) ↔
    key.isWild ∧ value ≠ none ∧ M key = value

/-- The keys of `M` that do not end in `*`. -/
def finalsOf (M : CString → Option V) (key : CString) : Option V :=
  if key.isWild then none else M key

/-- The table holds the keys and values of `M`. -/
structure UncachedWtable.Represents (P : Platform) (t : UncachedWtable V)
    (M : CString → Option V) : Prop where
  finals : t.finals.Table P (finalsOf M)
  min_le : minSize ≤ t.wsSize
  array : ∃ ws, t.WF ws ∧ WsHolds ws M

/-- A new table holds nothing. -/
theorem uncachedCreate_represents :
    (uncachedCreate : UncachedWtable V).Represents P fun _ => none where
  finals := by
    have hnone : finalsOf (fun _ => none : CString → Option V) = fun _ => none := by
      funext key
      simp [finalsOf]
    rw [hnone]
    exact hashCreate_table
  min_le := le_refl _
  array := by
    have hno : ∀ e : Wentry V, some e ∉ List.replicate minSize (none : Option (Wentry V)) :=
      fun e he => by cases List.eq_of_mem_replicate he
    refine ⟨List.replicate minSize none, ⟨rfl, rfl, rfl, fun e he => absurd he (hno e), ?_⟩, ?_⟩
    · exact fun p q e e' hp _ _ => absurd (List.mem_of_getElem? hp) (hno e)
    · intro key value
      constructor
      · rintro ⟨e, he, -⟩
        exact absurd he (hno e)
      · rintro ⟨-, hv, rfl⟩
        exact absurd rfl hv

namespace UncachedWtable.WF

variable {t : UncachedWtable V} {ws : List (Option (Wentry V))}

theorem slots_eq (hw : t.WF ws) : t.slots = some ws := by
  rw [UncachedWtable.slots, hw.wildcards_eq, Option.filter_some, if_pos (by simpa using hw.size)]

theorem used_le (hw : t.WF ws) : t.wsUsedCount ≤ t.wsSize := by
  rw [hw.used_eq, ← hw.size]
  exact List.countP_le_length

/-- The counter says whether there is a free slot. -/
theorem exists_free (hw : t.WF ws) (h : t.wsUsedCount < t.wsSize) : none ∈ ws := by
  by_contra hno
  have hall : ws.countP Option.isSome = ws.length := by
    rw [List.countP_eq_length]
    intro slot hslot
    cases slot with
    | none => exact absurd hslot hno
    | some _ => rfl
  have := hw.used_eq
  have := hw.size
  omega

/-- `wildcards_find_entry`. -/
theorem findEntry_eq (hw : t.WF ws) (key : CString) (exact : Bool) :
    ∃ free, wildcardsFindEntry t key exact
        = some (firstFrom (Wentry.accepts key exact) ws 0, free) ∧
      (firstFrom (Wentry.accepts key exact) ws 0 = none → free = firstFree ws 0) := by
  obtain ⟨free, hfind, hfree⟩ := findEntryFrom_eq key exact ws 0 none hw.good
  exact ⟨free, by simp [wildcardsFindEntry, hw.slots_eq, hfind], fun h => by simpa using hfree h⟩

/-- A slot is written; the counter of the result is given. -/
theorem write {t' : UncachedWtable V} (hw : t.WF ws) {p : ℕ} {old new : Option (Wentry V)}
    (hp : ws[p]? = some old) (hgood : ∀ e, new = some e → e.Good)
    (honce : ∀ e, new = some e → ∀ (q : ℕ) (e' : Wentry V), q ≠ p → ws[q]? = some (some e') →
      e'.key ≠ e.key)
    (hws : t'.wildcards = some (ws.set p new)) (hsize : t'.wsSize = t.wsSize)
    (hused : t'.wsUsedCount + (if old.isSome then 1 else 0)
      = t.wsUsedCount + (if new.isSome then 1 else 0)) :
    t'.WF (ws.set p new) where
  wildcards_eq := hws
  size := by rw [List.length_set, hsize, hw.size]
  used_eq := by
    have := countP_set_add Option.isSome hp new
    have := hw.used_eq
    omega
  good := by
    intro e he
    rcases (mem_set_iff hp).mp he with h | ⟨q, -, hq⟩
    · exact hgood e h.symm
    · exact hw.good e (List.mem_of_getElem? hq)
  unique := by
    have hget : ∀ (q : ℕ) (e : Wentry V), (ws.set p new)[q]? = some (some e) →
        (q = p ∧ new = some e) ∨ (q ≠ p ∧ ws[q]? = some (some e)) := by
      intro q e hq
      by_cases hqp : q = p
      · subst hqp
        rw [List.getElem?_set_self (List.getElem?_eq_some_iff.mp hp).1] at hq
        exact Or.inl ⟨rfl, Option.some.inj hq⟩
      · rw [List.getElem?_set_ne (fun h => hqp h.symm)] at hq
        exact Or.inr ⟨hqp, hq⟩
    intro q r e e' hq hr hkey
    rcases hget q e hq with ⟨rfl, he⟩ | ⟨hqp, hq'⟩
    · rcases hget r e' hr with ⟨rfl, -⟩ | ⟨hrp, hr'⟩
      · rfl
      · exact absurd hkey.symm (honce e he r e' hrp hr')
    · rcases hget r e' hr with ⟨rfl, he'⟩ | ⟨-, hr'⟩
      · exact absurd hkey (honce e' he' q e hqp hq')
      · exact hw.unique q r e e' hq' hr' hkey

end UncachedWtable.WF

/-! ## `wildcards_set`

As for the hash table there are two cases, an entry written over and a new one; the new one goes to
the first free slot.

That there is a free slot is a hypothesis here, and is what `grow_spec` gives: `wtable_set` resizes
before it looks for a slot. -/

/-- The entries of the array after `key` is set to `value`. -/
def SetEntries (ws ws' : List (Option (Wentry V))) (key : CString) (value : Option V) : Prop :=
  ∀ e, some e ∈ ws' ↔ e = ⟨key, key.strlen, value⟩ ∨ (e.key ≠ key ∧ some e ∈ ws)

private theorem setEntries_write {ws : List (Option (Wentry V))} {p : ℕ} {key : CString}
    {old : Option (Wentry V)} (value : Option V) (hp : ws[p]? = some old)
    (hold : ∀ e, old = some e → e.key = key)
    (honce : ∀ (q : ℕ) (e : Wentry V), q ≠ p → ws[q]? = some (some e) → e.key ≠ key) :
    SetEntries ws (ws.set p (some ⟨key, key.strlen, value⟩)) key value := by
  intro e
  rw [mem_set_iff hp]
  constructor
  · rintro (he | ⟨q, hq, hk⟩)
    · exact Or.inl (Option.some.inj he)
    · exact Or.inr ⟨honce q e hq hk, List.mem_of_getElem? hk⟩
  · rintro (rfl | ⟨hne, hmem⟩)
    · exact Or.inl rfl
    · obtain ⟨q, hq⟩ := List.mem_iff_getElem?.mp hmem
      refine Or.inr ⟨q, ?_, hq⟩
      rintro rfl
      rw [hp] at hq
      exact hne (hold e (Option.some.inj hq))

/-- **`wildcards_set`** with a free slot: the entry of the key is overridden and its value
    destroyed, or a free slot is taken. -/
theorem wildcardsSet_spec {t : UncachedWtable V} {ws : List (Option (Wentry V))} (hw : t.WF ws)
    (hfree : none ∈ ws) {key : CString} (hkey : key.isWild) {value : Option V}
    (hvalue : value ≠ none) :
    ∃ t' ws', wildcardsSet t key value = some (true, t') ∧ t'.WF ws' ∧
      SetEntries ws ws' key value ∧ t'.finals = t.finals ∧ t'.wsSize = t.wsSize ∧
      ((∃ e, some e ∈ ws ∧ e.key = key ∧ t'.destroyed = t.destroyed ++ [e.value]) ∨
        ((∀ e, some e ∈ ws → e.key ≠ key) ∧ t'.destroyed = t.destroyed ∧
          t'.wsUsedCount = t.wsUsedCount + 1)) := by
  have hgood : Wentry.Good (⟨key, key.strlen, value⟩ : Wentry V) := ⟨rfl, hkey, hvalue⟩
  obtain ⟨free, hfind, hnone⟩ := hw.findEntry_eq key true
  cases hfirst : firstFrom (Wentry.accepts key true) ws 0 with
  | some r =>
    -- the key is there: the entry of its slot is overridden
    obtain ⟨p, e⟩ := r
    obtain ⟨i, rfl, hp, hacc⟩ := firstFrom_some ws 0 hfirst
    rw [Nat.zero_add] at hfirst
    have hk : e.key = key := Wentry.accepts_exact.mp hacc
    have hnew : { e with key := key, value := value } = (⟨key, key.strlen, value⟩ : Wentry V) := by
      rw [(hw.good e (List.mem_of_getElem? hp)).keyLen_eq, hk]
    have honce : ∀ (q : ℕ) (e' : Wentry V), q ≠ i → ws[q]? = some (some e') → e'.key ≠ key :=
      fun q e' hq hq' hk' => hq (hw.unique q i e' e hq' hp (hk'.trans hk.symm))
    refine ⟨{ t with
        wildcards := some (ws.set i (some ⟨key, key.strlen, value⟩))
        destroyed := t.destroyed ++ [e.value] }, ws.set i (some ⟨key, key.strlen, value⟩),
      ?_, ?_, ?_, rfl, rfl, Or.inl ⟨e, List.mem_of_getElem? hp, hk, rfl⟩⟩
    · simp [wildcardsSet, hw.slots_eq, hfind, hfirst, hnew]
    · refine hw.write hp ?_ ?_ rfl rfl rfl
      · intro e' he'
        cases he'
        exact hgood
      · intro e' he' q e₁ hq hq'
        cases he'
        exact honce q e₁ hq hq'
    · refine setEntries_write value hp ?_ honce
      intro e' he'
      cases he'
      exact hk
  | none =>
    -- it is not, so the first free slot is taken
    obtain ⟨i, hi, hp⟩ := firstFree_some ws 0 hfree
    rw [Nat.zero_add] at hi
    have hno : ∀ e, some e ∈ ws → e.key ≠ key := by
      intro e he hk
      have := firstFrom_none ws 0 hfirst e he
      rw [Wentry.accepts_exact.mpr hk] at this
      cases this
    have honce : ∀ (q : ℕ) (e' : Wentry V), q ≠ i → ws[q]? = some (some e') → e'.key ≠ key :=
      fun q e' _ hq' => hno e' (List.mem_of_getElem? hq')
    refine ⟨{ t with
        wildcards := some (ws.set i (some ⟨key, key.strlen, value⟩))
        wsUsedCount := t.wsUsedCount + 1 }, ws.set i (some ⟨key, key.strlen, value⟩),
      ?_, ?_, ?_, rfl, rfl, Or.inr ⟨hno, rfl, rfl⟩⟩
    · simp [wildcardsSet, hw.slots_eq, hfind, hfirst, hnone hfirst, hi]
    · refine hw.write hp ?_ ?_ rfl rfl rfl
      · intro e' he'
        cases he'
        exact hgood
      · intro e' he' q e₁ hq hq'
        cases he'
        exact honce q e₁ hq hq'
    · refine setEntries_write value hp ?_ honce
      intro e' he'
      cases he'

/-! ## Moving the array

The loop of `resize_table` goes over the old array and puts each entry into the first free slot of
the new one, so the order of the entries stays. -/

/-- No key is met twice on the way through the array. -/
theorem UncachedWtable.WF.pairwise_keys {t : UncachedWtable V} {ws : List (Option (Wentry V))}
    (hw : t.WF ws) : ws.Pairwise fun s s' => ∀ e e', s = some e → s' = some e' → e.key ≠ e'.key := by
  rw [List.pairwise_iff_getElem]
  intro i j hi hj hij e e' he he' hk
  have := hw.unique i j e e' (by rw [List.getElem?_eq_getElem hi, he])
    (by rw [List.getElem?_eq_getElem hj, he']) hk
  omega

/-- **The loop of `resize_table`** moves every entry, and destroys nothing. The induction is on what
    is left of the old array, with any new one in hand. -/
theorem reinsert_spec : ∀ (old : List (Option (Wentry V))) (t : UncachedWtable V)
    (ws : List (Option (Wentry V))), t.WF ws → (∀ e, some e ∈ old → e.Good) →
    old.Pairwise (fun s s' => ∀ e e', s = some e → s' = some e' → e.key ≠ e'.key) →
    (∀ e e', some e ∈ old → some e' ∈ ws → e.key ≠ e'.key) →
    t.wsUsedCount + old.countP Option.isSome ≤ t.wsSize →
    ∃ t' ws', reinsert old t = some t' ∧ t'.WF ws' ∧
      (∀ e, some e ∈ ws' ↔ some e ∈ ws ∨ some e ∈ old) ∧ t'.finals = t.finals ∧
      t'.destroyed = t.destroyed ∧ t'.wsSize = t.wsSize ∧
      t'.wsUsedCount = t.wsUsedCount + old.countP Option.isSome := by
  intro old
  induction old with
  | nil =>
    intro t ws hw _ _ _ _
    exact ⟨t, ws, rfl, hw, by simp, rfl, rfl, rfl, rfl⟩
  | cons slot old ih =>
    intro t ws hw hgood hpair hfresh hroom
    have hgood' : ∀ e, some e ∈ old → e.Good := fun e he => hgood e (List.mem_cons_of_mem _ he)
    obtain ⟨hhead, htail⟩ := List.pairwise_cons.mp hpair
    cases slot with
    | none =>
      -- a free slot: nothing to move
      rw [List.countP_cons_of_neg (by simp)] at hroom ⊢
      obtain ⟨t', ws', hre, hw', hmem, hrest⟩ := ih t ws hw hgood' htail
        (fun e e' he => hfresh e e' (List.mem_cons_of_mem _ he)) hroom
      exact ⟨t', ws', hre, hw', by simpa using hmem, hrest⟩
    | some entry =>
      -- an entry of its own key, for which there is a slot
      rw [List.countP_cons_of_pos (by rfl)] at hroom ⊢
      have he := hgood entry (List.mem_cons_self ..)
      have hsame : (⟨entry.key, entry.key.strlen, entry.value⟩ : Wentry V) = entry := by
        rw [← he.keyLen_eq]
      obtain ⟨t₁, ws₁, hset, hw₁, hent, hf₁, hs₁, hcase⟩ :=
        wildcardsSet_spec hw (hw.exists_free (by omega)) he.wild he.value_ne
      rcases hcase with ⟨e', he', hk', -⟩ | ⟨-, hd₁, hu₁⟩
      · exact absurd hk'.symm (hfresh entry e' (List.mem_cons_self ..) he')
      · have hfresh₁ : ∀ e e', some e ∈ old → some e' ∈ ws₁ → e.key ≠ e'.key := by
          intro e e' hold hnew
          rcases (hent e').mp hnew with rfl | ⟨-, hmem⟩
          · exact (hhead (some e) hold entry e rfl rfl).symm
          · exact hfresh e e' (List.mem_cons_of_mem _ hold) hmem
        obtain ⟨t₂, ws₂, hre, hw₂, hmem₂, hf₂, hd₂, hs₂, hu₂⟩ :=
          ih t₁ ws₁ hw₁ hgood' htail hfresh₁ (by omega)
        refine ⟨t₂, ws₂, by simp [reinsert, hset, hre], hw₂, fun e => ?_, hf₂.trans hf₁,
          hd₂.trans hd₁, hs₂.trans hs₁, by omega⟩
        rw [hmem₂, hent, hsame, List.mem_cons, Option.some_inj]
        constructor
        · rintro ((h | ⟨-, h⟩) | h)
          · exact Or.inr (Or.inl h)
          · exact Or.inl h
          · exact Or.inr (Or.inr h)
        · rintro (h | h | h)
          · exact Or.inl (Or.inr ⟨(hfresh entry e (List.mem_cons_self ..) h).symm, h⟩)
          · exact Or.inl (Or.inl h)
          · exact Or.inr h

/-- A resize that is large enough keeps the entries. -/
theorem moveWildcards_spec {t : UncachedWtable V} {ws : List (Option (Wentry V))} (hw : t.WF ws)
    {newSize : ℕ} (hle : t.wsUsedCount ≤ newSize) :
    ∃ t' ws', moveWildcards true t newSize = some (true, t') ∧ t'.WF ws' ∧
      (∀ e, some e ∈ ws' ↔ some e ∈ ws) ∧ t'.finals = t.finals ∧ t'.destroyed = t.destroyed ∧
      t'.wsSize = newSize ∧ t'.wsUsedCount = t.wsUsedCount := by
  have hno : ∀ e : Wentry V, some e ∉ List.replicate newSize (none : Option (Wentry V)) :=
    fun e he => by cases List.eq_of_mem_replicate he
  have hempty : (t.emptied newSize).WF (List.replicate newSize none) :=
    ⟨rfl, List.length_replicate, by simp [UncachedWtable.emptied, List.countP_replicate],
      fun e he => absurd he (hno e),
      fun p q e e' hp _ _ => absurd (List.mem_of_getElem? hp) (hno e)⟩
  obtain ⟨t', ws', hre, hw', hmem, hf, hd, hs, hu⟩ := reinsert_spec ws _ _ hempty hw.good
    hw.pairwise_keys (fun e e' _ he' => absurd he' (hno e'))
    (by rw [← hw.used_eq]; simpa [UncachedWtable.emptied] using hle)
  refine ⟨t', ws', by simp [moveWildcards, hw.slots_eq, hre], hw', fun e => ?_, hf, hd, hs, ?_⟩
  · rw [hmem, or_iff_right (hno e)]
  · rw [hu, hw.used_eq]
    exact Nat.zero_add _

/-- The array grows by at least one slot. -/
theorem lt_grownSize (P : Platform) {n : ℕ} (hn : minSize ≤ n) : n < grownSize P n := by
  have hn' : (10 : ℚ) ≤ n := by exact_mod_cast hn
  have h₁ : (n : ℚ) - n / 1000 ≤ P.double.round n := P.double.le_round (by positivity)
  have h₂ : (13 / 10 : ℚ) - 13 / 10 / 1000 ≤ P.double.round (13 / 10) :=
    P.double.le_round (by norm_num)
  have h₃ : (n : ℚ) * (12 / 10) ≤ P.double.round n * P.double.round (13 / 10) := by nlinarith
  have h₄ := P.double.le_round (show (0 : ℚ) ≤ P.double.round n * P.double.round (13 / 10) by
    linarith)
  have h₅ := P.double.le_round (show (0 : ℚ) ≤
    P.double.round (P.double.round n * P.double.round (13 / 10)) + 1 by linarith)
  refine Nat.lt_of_succ_le (Nat.le_floor ?_)
  push_cast
  linarith

/-! ## The map of the keys

The keys of a table are those of its two parts. These lemmas say what an update of the whole map is
for each part.

An update of the map at a key that ends in a star changes nothing of the finals, and the other way
round. -/

/-- A wildcard is no final key. -/
theorem finalsOf_update_wild {M : CString → Option V} {key : CString} (hkey : key.isWild)
    (w : Option V) : finalsOf (Function.update M key w) = finalsOf M := by
  funext k
  unfold finalsOf
  split
  · rfl
  · rename_i hk
    have hne : k ≠ key := by
      rintro rfl
      exact hk hkey
    rw [Function.update_of_ne hne]

/-- The finals take the keys without a star. -/
theorem finalsOf_update {M : CString → Option V} {key : CString} (hkey : ¬ key.isWild)
    (w : Option V) : finalsOf (Function.update M key w) = Function.update (finalsOf M) key w := by
  funext k
  by_cases hk : k = key
  · subst hk
    rw [Function.update_self, finalsOf, if_neg hkey, Function.update_self]
  · rw [Function.update_of_ne hk, finalsOf, finalsOf, Function.update_of_ne hk]

namespace WsHolds

variable {ws ws' : List (Option (Wentry V))} {M : CString → Option V}

/-- A final key is no wildcard. -/
theorem update_final (hM : WsHolds ws M) {key : CString} (hkey : ¬ key.isWild) (w : Option V) :
    WsHolds ws (Function.update M key w) := by
  intro k v
  rw [hM k v]
  refine and_congr_right fun hk => ?_
  have hne : k ≠ key := by
    rintro rfl
    exact hkey hk
  rw [Function.update_of_ne hne]

theorem of_same (hM : WsHolds ws M) (h : ∀ e, some e ∈ ws' ↔ some e ∈ ws) : WsHolds ws' M := by
  intro k v
  rw [← hM k v]
  exact exists_congr fun e => and_congr_left' (h e)

/-- The entry of a key of `M`. -/
theorem value_eq (hM : WsHolds ws M) {e : Wentry V} (he : some e ∈ ws) : M e.key = e.value :=
  ((hM e.key e.value).mp ⟨e, he, rfl, rfl⟩).2.2

theorem eq_none (hM : WsHolds ws M) {key : CString} (hkey : key.isWild)
    (hno : ∀ e, some e ∈ ws → e.key ≠ key) : M key = none := by
  by_contra hne
  obtain ⟨e, he, hk, -⟩ := (hM key (M key)).mpr ⟨hkey, hne, rfl⟩
  exact hno e he hk

theorem set (hM : WsHolds ws M) {key : CString} (hkey : key.isWild) {value : V}
    (hent : SetEntries ws ws' key (some value)) :
    WsHolds ws' (Function.update M key (some value)) := by
  intro k v
  by_cases hk : k = key
  · subst hk
    rw [Function.update_self]
    constructor
    · rintro ⟨e, he, hek, rfl⟩
      rcases (hent e).mp he with rfl | ⟨hne, -⟩
      · exact ⟨hkey, by simp, rfl⟩
      · exact absurd hek hne
    · rintro ⟨-, -, rfl⟩
      exact ⟨_, (hent _).mpr (Or.inl rfl), rfl, rfl⟩
  · rw [Function.update_of_ne hk, ← hM k v]
    refine exists_congr fun e => ?_
    constructor
    · rintro ⟨he, rfl, hv⟩
      rcases (hent e).mp he with rfl | ⟨-, hmem⟩
      · exact absurd rfl hk
      · exact ⟨hmem, rfl, hv⟩
    · rintro ⟨he, rfl, hv⟩
      exact ⟨(hent e).mpr (Or.inr ⟨hk, he⟩), rfl, hv⟩

theorem del (hM : WsHolds ws M) {key : CString}
    (hent : ∀ e, some e ∈ ws' ↔ e.key ≠ key ∧ some e ∈ ws) :
    WsHolds ws' (Function.update M key none) := by
  intro k v
  by_cases hk : k = key
  · subst hk
    rw [Function.update_self]
    constructor
    · rintro ⟨e, he, hek, -⟩
      exact absurd hek ((hent e).mp he).1
    · rintro ⟨-, hne, rfl⟩
      exact absurd rfl hne
  · rw [Function.update_of_ne hk, ← hM k v]
    refine exists_congr fun e => ?_
    constructor
    · rintro ⟨he, rfl, hv⟩
      exact ⟨((hent e).mp he).2, rfl, hv⟩
    · rintro ⟨he, rfl, hv⟩
      exact ⟨(hent e).mpr ⟨hk, he⟩, rfl, hv⟩

end WsHolds

/-! ## The calls

Each call is that of the part which the key belongs to, with a resize before it or after it.

A key that is set goes to the finals or to the array by its last character alone, also when the same
characters without the star are in the other half. -/

/-- The calls of the destructor so far, those of the finals before those of the wildcards. -/
def UncachedWtable.allDestroyed (t : UncachedWtable V) : List (Option V) :=
  t.finals.destroyed ++ t.destroyed

/-- `resize_table` keeps the entries, when they fit. -/
theorem UncachedWtable.resizeTable_spec {t : UncachedWtable V} {ws : List (Option (Wentry V))}
    (hw : t.WF ws) {newSize : ℕ} (hle : t.wsUsedCount ≤ newSize) :
    ∃ t' ws', t.resizeTable .ok newSize = some (true, t') ∧ t'.WF ws' ∧
      (∀ e, some e ∈ ws' ↔ some e ∈ ws) ∧ t'.finals = t.finals ∧ t'.destroyed = t.destroyed ∧
      t'.wsSize = (if newSize < minSize then t.wsSize else newSize) ∧
      t'.wsUsedCount = t.wsUsedCount := by
  unfold UncachedWtable.resizeTable
  split
  · exact ⟨t, ws, rfl, hw, fun _ => Iff.rfl, rfl, rfl, rfl, rfl⟩
  · exact moveWildcards_spec hw hle

/-- The growth that may come before a wildcard is set leaves a free slot. -/
theorem UncachedWtable.grow_spec (P : Platform) {t : UncachedWtable V} {ws : List (Option (Wentry V))}
    (hw : t.WF ws) (hmin : minSize ≤ t.wsSize) :
    ∃ t' ws', t.grow P .ok = some (true, t') ∧ t'.WF ws' ∧
      (∀ e, some e ∈ ws' ↔ some e ∈ ws) ∧ t'.finals = t.finals ∧ t'.destroyed = t.destroyed ∧
      minSize ≤ t'.wsSize ∧ none ∈ ws' := by
  have hgrown := lt_grownSize P hmin
  have hused := hw.used_le
  by_cases hfull : t.almostFull = true
  · obtain ⟨t', ws', hres, hw', hent, hf, hd, hs, hu⟩ :=
      UncachedWtable.resizeTable_spec hw (show t.wsUsedCount ≤ grownSize P t.wsSize by omega)
    rw [if_neg (by omega)] at hs
    exact ⟨t', ws', by rw [UncachedWtable.grow, if_pos hfull, hres], hw', hent, hf, hd, by omega,
      hw'.exists_free (by omega)⟩
  · refine ⟨t, ws, by rw [UncachedWtable.grow, if_neg hfull], hw, fun _ => Iff.rfl, rfl, rfl, hmin, ?_⟩
    have hroom : ¬ t.wsSize - t.wsUsedCount ≤ 1 := by simpa [UncachedWtable.almostFull] using hfull
    exact hw.exists_free (by omega)

/-- The shrinking that may come after a wildcard is deleted keeps the entries, and never goes below
    the minimal size. -/
theorem UncachedWtable.shrink_spec {t : UncachedWtable V} {ws : List (Option (Wentry V))}
    (hw : t.WF ws) (hmin : minSize ≤ t.wsSize) :
    ∃ t' ws', t.shrink P .ok = some (true, t') ∧ t'.WF ws' ∧
      (∀ e, some e ∈ ws' ↔ some e ∈ ws) ∧ t'.finals = t.finals ∧ t'.destroyed = t.destroyed ∧
      minSize ≤ t'.wsSize := by
  unfold UncachedWtable.shrink
  split
  · obtain ⟨t', ws', hres, hw', hent, hf, hd, hs, -⟩ :=
      UncachedWtable.resizeTable_spec hw (Nat.le_add_right _ 3)
    refine ⟨t', ws', hres, hw', hent, hf, hd, ?_⟩
    rw [hs]
    split <;> omega
  · exact ⟨t, ws, rfl, hw, fun _ => Iff.rfl, rfl, rfl, hmin⟩

/-- **`wtable_set`** updates the map and destroys the value that it overrides. -/
theorem uncachedSet_spec {t : UncachedWtable V} {M : CString → Option V} (ht : t.Represents P M)
    {key : CString} (hkey : key.bytes ≠ []) (value : V) :
    ∃ t', uncachedSet P .ok t key (some value) = some (true, t') ∧
      t'.Represents P (Function.update M key (some value)) ∧
      t'.allDestroyed.Perm (t.allDestroyed ++ (M key).toList.map some) := by
  obtain ⟨hfin, hmin, ws, hw, hM⟩ := ht
  by_cases hwild : key.isWild
  · obtain ⟨t₁, ws₁, hgrow, hw₁, hent₁, hf₁, hd₁, hmin₁, hfree⟩ :=
      UncachedWtable.grow_spec P hw hmin
    have hM₁ := hM.of_same hent₁
    obtain ⟨t₂, ws₂, hset, hw₂, hent₂, hf₂, hs₂, hcase⟩ :=
      wildcardsSet_spec hw₁ hfree hwild (show some value ≠ none by simp)
    refine ⟨t₂, ?_, ⟨?_, by omega, ws₂, hw₂, hM₁.set hwild hent₂⟩, ?_⟩
    · simp [uncachedSet, isWildcard_strlen hkey, hwild, hgrow, hset]
    · rwa [finalsOf_update_wild hwild, hf₂, hf₁]
    · have hd₂ : t₂.destroyed = t₁.destroyed ++ (M key).toList.map some := by
        rcases hcase with ⟨e, he, hk, hd⟩ | ⟨hno, hd, -⟩
        · obtain ⟨v, hv⟩ := Option.ne_none_iff_exists'.mp (hw₁.good e he).value_ne
          have hMe : M key = some v := by rw [← hk, hM₁.value_eq he, hv]
          rw [hd, hMe, hv]
          rfl
        · rw [hd, hM₁.eq_none hwild hno]
          exact (List.append_nil _).symm
      rw [UncachedWtable.allDestroyed, UncachedWtable.allDestroyed, hf₂, hf₁, hd₂, hd₁,
        List.append_assoc]
  · obtain ⟨h', hset, htab, hd⟩ := hashSet_spec hfin key value
    have hMkey : finalsOf M key = M key := if_neg hwild
    refine ⟨{ t with finals := h' }, ?_, ⟨?_, hmin, ws, ⟨hw.1, hw.2, hw.3, hw.4, hw.5⟩,
      hM.update_final hwild _⟩, ?_⟩
    · simp [uncachedSet, isWildcard_strlen hkey, hwild, Mallocs.ok, hset]
    · rwa [finalsOf_update hwild]
    · rw [UncachedWtable.allDestroyed, UncachedWtable.allDestroyed, hd, hMkey, List.append_assoc,
        List.append_assoc]
      exact List.perm_append_comm.append_left _

/-- The entry at `p` is freed; the others stay. -/
theorem freeAt_spec {t : UncachedWtable V} {ws : List (Option (Wentry V))} (hw : t.WF ws) {p : ℕ}
    {e : Wentry V} (hp : ws[p]? = some (some e)) :
    (t.freeAt ws p e).WF (ws.set p none) ∧
      ∀ e', some e' ∈ ws.set p none ↔ e'.key ≠ e.key ∧ some e' ∈ ws := by
  constructor
  · have hpos : 0 < t.wsUsedCount := by
      rw [hw.used_eq]
      exact List.countP_pos_iff.mpr ⟨_, List.mem_of_getElem? hp, rfl⟩
    refine hw.write hp (fun e' he' => by cases he') (fun e' he' => by cases he') rfl rfl ?_
    show t.wsUsedCount - 1 + 1 = t.wsUsedCount + 0
    omega
  · intro e'
    rw [mem_set_iff hp]
    constructor
    · rintro (he | ⟨q, hq, hk⟩)
      · cases he
      · exact ⟨fun hkey => hq (hw.unique q p e' e hk hp hkey), List.mem_of_getElem? hk⟩
    · rintro ⟨hne, hmem⟩
      obtain ⟨q, hq⟩ := List.mem_iff_getElem?.mp hmem
      refine Or.inr ⟨q, ?_, hq⟩
      rintro rfl
      rw [hp] at hq
      cases hq
      exact hne rfl

/-- **`wtable_del`** removes the key and destroys its value, and says whether it was there. -/
theorem uncachedDel_spec {t : UncachedWtable V} {M : CString → Option V} (ht : t.Represents P M)
    {key : CString} (hkey : key.bytes ≠ []) :
    ∃ t', uncachedDel P .ok t key = some ((M key).isSome, t') ∧
      t'.Represents P (Function.update M key none) ∧
      t'.allDestroyed.Perm (t.allDestroyed ++ (M key).toList.map some) := by
  obtain ⟨hfin, hmin, ws, hw, hM⟩ := ht
  by_cases hwild : key.isWild
  · obtain ⟨free, hfind, -⟩ := hw.findEntry_eq key true
    cases hfirst : firstFrom (Wentry.accepts key true) ws 0 with
    | none =>
      have hnone : M key = none := hM.eq_none hwild fun e he hk => by
        have := firstFrom_none ws 0 hfirst e he
        rw [Wentry.accepts_exact.mpr hk] at this
        cases this
      refine ⟨t, ?_, ?_, by rw [hnone]; simp⟩
      · simp [uncachedDel, isWildcard_strlen hkey, hwild, hw.slots_eq, hfind, hfirst, hnone]
      · rw [show Function.update M key none = M by rw [← hnone, Function.update_eq_self]]
        exact ⟨hfin, hmin, ws, hw, hM⟩
    | some r =>
      obtain ⟨p, e⟩ := r
      obtain ⟨i, rfl, hp, hacc⟩ := firstFrom_some ws 0 hfirst
      rw [Nat.zero_add] at hfirst
      have hk : e.key = key := Wentry.accepts_exact.mp hacc
      have hmem := List.mem_of_getElem? hp
      obtain ⟨v, hv⟩ := Option.ne_none_iff_exists'.mp (hw.good e hmem).value_ne
      have hMkey : M key = some v := by rw [← hk, hM.value_eq hmem, hv]
      obtain ⟨hw₁, hent₁⟩ := freeAt_spec hw hp
      rw [hk] at hent₁
      obtain ⟨t₂, ws₂, hres, hw₂, hent₂, hf₂, hd₂, hmin₂⟩ :=
        UncachedWtable.shrink_spec (P := P) hw₁ hmin
      refine ⟨t₂, ?_, ⟨?_, hmin₂, ws₂, hw₂, hM.del fun e' => (hent₂ e').trans (hent₁ e')⟩, ?_⟩
      · simp [uncachedDel, isWildcard_strlen hkey, hwild, hw.slots_eq, hfind, hfirst, hres, hMkey]
      · rwa [finalsOf_update_wild hwild, hf₂]
      · have hd₁ : (t.freeAt ws i e).destroyed = t.destroyed ++ [some v] := by rw [← hv]; rfl
        rw [UncachedWtable.allDestroyed, UncachedWtable.allDestroyed, hf₂, hd₂, hd₁, hMkey,
          ← List.append_assoc]
        rfl
  · obtain ⟨h', hdel, htab, hd⟩ := hashDel_spec hfin key
    have hMkey : finalsOf M key = M key := if_neg hwild
    rw [hMkey] at hdel hd
    refine ⟨{ t with finals := h' }, ?_, ⟨?_, hmin, ws, ⟨hw.1, hw.2, hw.3, hw.4, hw.5⟩,
      hM.update_final hwild _⟩, ?_⟩
    · simp [uncachedDel, isWildcard_strlen hkey, hwild, Mallocs.ok, hdel]
    · rwa [finalsOf_update hwild]
    · rw [UncachedWtable.allDestroyed, UncachedWtable.allDestroyed, hd, List.append_assoc,
        List.append_assoc]
      exact List.perm_append_comm.append_left _

/-- What the walk over the wildcards gives for `key`. -/
def wildcardFor (ws : List (Option (Wentry V))) (key : CString) : Option V :=
  (firstFrom (Wentry.accepts key false) ws 0).bind fun e => e.2.value

/-- **`wtable_get`** without the cache: the finals first, then the first wildcard accepted. -/
theorem uncachedGet_eq {t : UncachedWtable V} {M : CString → Option V} (ht : t.Represents P M)
    {ws : List (Option (Wentry V))} (hw : t.WF ws) (key : CString) :
    uncachedGet P t key
      = some (if (finalsOf M key).isSome then finalsOf M key else wildcardFor ws key) := by
  obtain ⟨free, hfind, -⟩ := hw.findEntry_eq key false
  cases hM : (finalsOf M key).isSome with
  | true => simp [uncachedGet, hashGet_eq ht.finals, hM]
  | false => simp [uncachedGet, hashGet_eq ht.finals, hM, hfind, wildcardFor]

/-- One call of a table without the cache, its allocations succeeding. -/
def uncachedStep (P : Platform) (t : UncachedWtable V) : Call V → Option (Reply V × UncachedWtable V)
  | .set key value => (uncachedSet P .ok t key (some value)).map fun r => (.bool r.1, r.2)
  | .del key => (uncachedDel P .ok t key).map fun r => (.bool r.1, r.2)
  | .get key => (uncachedGet P t key).map fun p => (.ptr p, t)

/-- What a table whose wildcards are `ws` replies. -/
def slotReply (M : CString → Option V) (ws : List (Option (Wentry V))) : Call V → Reply V
  | .set _ _ => .bool true
  | .del key => .bool (M key).isSome
  | .get key => .ptr (if (finalsOf M key).isSome then finalsOf M key else wildcardFor ws key)

/-- **One call of the table without the cache.** -/
theorem uncachedStep_spec {t : UncachedWtable V} {M : CString → Option V} (ht : t.Represents P M)
    {ws : List (Option (Wentry V))} (hw : t.WF ws) (call : Call V) (hkey : call.key.bytes ≠ []) :
    ∃ t', uncachedStep P t call = some (slotReply M ws call, t') ∧
      t'.Represents P (mapNext M call) ∧
      t'.allDestroyed.Perm (t.allDestroyed ++ (displaced M call).map some) := by
  cases call with
  | set key value =>
    have hkey' : key.bytes ≠ [] := hkey
    obtain ⟨t', hset, ht', hd⟩ := uncachedSet_spec ht hkey' value
    exact ⟨t', by rw [uncachedStep, hset]; rfl, ht', hd⟩
  | del key =>
    have hkey' : key.bytes ≠ [] := hkey
    obtain ⟨t', hdel, ht', hd⟩ := uncachedDel_spec ht hkey'
    exact ⟨t', by rw [uncachedStep, hdel]; rfl, ht', hd⟩
  | get key =>
    refine ⟨t, by rw [uncachedStep, uncachedGet_eq ht hw]; rfl, ht, ?_⟩
    show t.allDestroyed.Perm (t.allDestroyed ++ [])
    rw [List.append_nil]

end Libfiu
