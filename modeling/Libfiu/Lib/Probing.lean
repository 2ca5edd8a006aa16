/-
  Open addressing with linear probing, over any kind of slot.

  A table is a list of slots.  A slot may hold a key, and a slot may be FREE, which means that it
  was never used: a slot whose key was removed is neither.  The slot of `k` is searched from its
  home position on, wrapping around at the end, and the walk stops at the first slot that holds
  `k` or is free.  Which slots those are is a `Scheme`.

  The walk finds the right slot because of one invariant, `Valid`:

  * `chained` — every key that is held lies on a chain: no slot between its home and it is free
    (so free slots may be used up and removed slots must not become free again);
  * `unique`  — no key is held twice.

  `find_of_key` and `find_of_absent` read the search off it, and `Valid.set` keeps it: whatever
  is written must not be free, and a key that is written must be new and at the end of its chain.

  A program counts the slots that it has tested, and its counter has a last value.  `findCounted` is
  the search with such a counter, undefined where the counter would pass that value; it is the
  search as long as the search ends soon enough (`findCounted_eq`).

  A scheme says of a slot whether it is free and which key it holds, and of a key where its home is.
  Nothing is said of values, of sizes or of resizing: these belong to the program, which has to show
  that its writes are those of `Valid.set`.
-/
import Mathlib

namespace Probing

variable {α κ : Type*}

/-- Walk the slots from `pos`, at most `fuel` of them and wrapping around, to the first one that
    `stop`s. -/
def probe (stop : α → Bool) (slots : List α) : ℕ → ℕ → Option ℕ
  | 0, _ => none
  | fuel + 1, pos =>
    match slots[pos]? with
    | none => none
    | some s => if stop s then some pos else probe stop slots fuel ((pos + 1) % slots.length)

/-- The walk stops where it should: `d` slots on, when none before that stops. -/
theorem probe_eq {stop : α → Bool} {slots : List α} {s : α} :
    ∀ (d fuel pos : ℕ), d < fuel → pos < slots.length →
      slots[(pos + d) % slots.length]? = some s → stop s = true →
      (∀ j < d, ∀ s', slots[(pos + j) % slots.length]? = some s' → stop s' = false) →
      probe stop slots fuel pos = some ((pos + d) % slots.length) := by
  intro d
  induction d with
  | zero =>
    intro fuel pos hd hpos hs hstop _
    obtain ⟨fuel, rfl⟩ := Nat.exists_eq_succ_of_ne_zero (by omega : fuel ≠ 0)
    rw [Nat.add_zero, Nat.mod_eq_of_lt hpos] at hs ⊢
    simp [probe, hs, hstop]
  | succ d ih =>
    intro fuel pos hd hpos hs hstop hpass
    obtain ⟨fuel, rfl⟩ := Nat.exists_eq_succ_of_ne_zero (by omega : fuel ≠ 0)
    have hshift : ∀ j, ((pos + 1) % slots.length + j) % slots.length
        = (pos + (j + 1)) % slots.length := by
      intro j
      rw [Nat.mod_add_mod]
      congr 1
      omega
    have hhere : slots[pos]? = some slots[pos] := List.getElem?_eq_getElem hpos
    have hno : stop slots[pos] = false := by
      refine hpass 0 (by omega) _ ?_
      rw [Nat.add_zero, Nat.mod_eq_of_lt hpos, hhere]
    have hrest := ih fuel ((pos + 1) % slots.length) (by omega) (Nat.mod_lt _ (by omega))
      (by rw [hshift]; exact hs) hstop
      (fun j hj s' h => hpass (j + 1) (by omega) s' (by rw [← hshift]; exact h))
    rw [hshift] at hrest
    simp [probe, hhere, hno, hrest]

/-- Wherever the walk stops, it was told to. -/
theorem stop_of_probe {stop : α → Bool} {slots : List α} {p : ℕ} :
    ∀ (fuel pos : ℕ), probe stop slots fuel pos = some p →
      ∃ s, slots[p]? = some s ∧ stop s = true := by
  intro fuel
  induction fuel with
  | zero => intro pos h; cases h
  | succ fuel ih =>
    intro pos h
    cases hs : slots[pos]? with
    | none => simp [probe, hs] at h
    | some s =>
      by_cases hstop : stop s = true
      · simp only [probe, hs, hstop, if_true, Option.some.injEq] at h
        exact ⟨s, h ▸ hs, hstop⟩
      · simp only [probe, hs, hstop] at h
        exact ih _ (by simpa using h)

/-- A walk that ends somewhere also ends there when it may go on for longer. -/
theorem probe_of_le {stop : α → Bool} {slots : List α} {p : ℕ} :
    ∀ {fuel fuel' pos : ℕ}, fuel ≤ fuel' → probe stop slots fuel pos = some p →
      probe stop slots fuel' pos = some p := by
  intro fuel
  induction fuel with
  | zero => intro fuel' pos _ h; cases h
  | succ fuel ih =>
    intro fuel' pos hle h
    obtain ⟨fuel', rfl⟩ := Nat.exists_eq_succ_of_ne_zero (by omega : fuel' ≠ 0)
    cases hs : slots[pos]? with
    | none => simp [probe, hs] at h
    | some s =>
      by_cases hstop : stop s = true
      · simpa [probe, hs, hstop] using h
      · simp only [probe, hs, hstop, Bool.false_eq_true, if_false] at h ⊢
        exact ih (by omega) h

/-- The walk ends if and only if one of the slots that it may test stops it. By induction on the
    slots that are left to be tested. -/
theorem probe_ne_none_iff {stop : α → Bool} {slots : List α} :
    ∀ (fuel pos : ℕ), pos < slots.length → (probe stop slots fuel pos ≠ none ↔
      ∃ d < fuel, ∃ s, slots[(pos + d) % slots.length]? = some s ∧ stop s = true) := by
  intro fuel
  induction fuel with
  | zero => exact fun pos _ => iff_of_false (fun h => h rfl) fun ⟨d, hd, _⟩ => absurd hd (by omega)
  | succ fuel ih =>
    intro pos hpos
    have hhere : slots[pos]? = some slots[pos] := List.getElem?_eq_getElem hpos
    have hzero : (pos + 0) % slots.length = pos := by rw [Nat.add_zero, Nat.mod_eq_of_lt hpos]
    have hshift : ∀ d, ((pos + 1) % slots.length + d) % slots.length
        = (pos + (d + 1)) % slots.length := by
      intro d
      rw [Nat.mod_add_mod]
      congr 1
      omega
    by_cases hstop : stop slots[pos] = true
    · refine iff_of_true (by simp [probe, hhere, hstop]) ⟨0, by omega, slots[pos], ?_, hstop⟩
      rw [hzero, hhere]
    · have hgo : probe stop slots (fuel + 1) pos
          = probe stop slots fuel ((pos + 1) % slots.length) := by
        simp [probe, hhere, hstop]
      rw [hgo, ih _ (Nat.mod_lt _ (by omega))]
      constructor
      · rintro ⟨d, hd, s, hs, hs'⟩
        exact ⟨d + 1, by omega, s, by rw [← hshift]; exact hs, hs'⟩
      · rintro ⟨d, hd, s, hs, hs'⟩
        cases d with
        | zero =>
          rw [hzero, hhere] at hs
          cases hs
          exact absurd hs' hstop
        | succ d => exact ⟨d, by omega, s, by rw [hshift]; exact hs, hs'⟩

/-- How many slots the walk looks at. -/
def probeReads (stop : α → Bool) (slots : List α) : ℕ → ℕ → ℕ
  | 0, _ => 0
  | fuel + 1, pos =>
    match slots[pos]? with
    | none => 0
    | some s => if stop s then 1 else 1 + probeReads stop slots fuel ((pos + 1) % slots.length)

/-! ## A counter with a last value

The counter is no part of the walk, but it can end it. -/

/-- The walk as a loop whose counter `i` stays below `bound`: `left` slots are left to test.  The
    inner `none` is the end of a complete walk; the outer one is the increment of the counter
    past its last value, which is not defined. -/
def probeCounted (bound : ℕ) (stop : α → Bool) (slots : List α) : ℕ → ℕ → ℕ → Option (Option ℕ)
  | 0, _, _ => some none
  | left + 1, i, pos =>
    match slots[pos]? with
    | none => none
    | some s =>
      if stop s then some (some pos)
      else if i + 1 < bound then probeCounted bound stop slots left (i + 1) ((pos + 1) % slots.length)
      else none

/-- **The walk with a counter** is the walk, where the counter is large enough for all slots that
    are left; otherwise it must end before the counter does. By induction on the slots that are
    left, with any counter. -/
theorem probeCounted_eq {bound : ℕ} {stop : α → Bool} {slots : List α} :
    ∀ (left i pos : ℕ), i < bound → pos < slots.length →
      probeCounted bound stop slots left i pos =
        if left < bound - i then some (probe stop slots left pos)
        else (probe stop slots (bound - i) pos).map some := by
  intro left
  induction left with
  | zero => intro i pos hi _; rw [if_pos (by omega)]; rfl
  | succ left ih =>
    intro i pos hi hpos
    have hhere : slots[pos]? = some slots[pos] := List.getElem?_eq_getElem hpos
    obtain ⟨more, hmore⟩ : ∃ more, bound - i = more + 1 := ⟨bound - i - 1, by omega⟩
    by_cases hstop : stop slots[pos] = true
    · simp [probeCounted, hmore, probe, hhere, hstop]
    · by_cases hnext : i + 1 < bound
      · have hrest := ih (i + 1) ((pos + 1) % slots.length) hnext (Nat.mod_lt _ (by omega))
        rw [show bound - (i + 1) = more from by omega] at hrest
        simp [probeCounted, hmore, probe, hhere, hstop, hnext, hrest]
      · -- the last value of the counter: one slot was left to test
        obtain rfl : more = 0 := by omega
        simp [probeCounted, hmore, probe, hhere, hstop, hnext]

/-! ## Schemes, and the invariant that makes the walk right

Only three things of a slot matter, and a scheme names them. So the same lemmas hold of tables with
different slots and different kinds of removal. -/

/-- What the slots of a table say: which are free, which key they hold, and where the search for
    a key begins. -/
structure Scheme (α κ : Type*) where
  /-- The slot was never used. -/
  free : α → Bool
  /-- The key that the slot holds. -/
  key : α → Option κ
  /-- Where the search for a key begins, up to the size of the table. -/
  home : κ → ℕ
  /-- A free slot holds nothing. -/
  key_of_free : ∀ s, free s = true → key s = none

namespace Scheme

variable (S : Scheme α κ)

/-- No slot from the home of `k` up to `p` is free. -/
def PathTo (slots : List α) (k : κ) (p : ℕ) : Prop :=
  ∃ d < slots.length, (S.home k + d) % slots.length = p ∧
    ∀ j < d, ∀ s, slots[(S.home k + j) % slots.length]? = some s → S.free s = false

/-- The invariant of a table (module comment). -/
structure Valid (slots : List α) : Prop where
  chained : ∀ (p : ℕ) (s : α) (k : κ), slots[p]? = some s → S.key s = some k → S.PathTo slots k p
  unique : ∀ (p q : ℕ) (s t : α) (k : κ), slots[p]? = some s → slots[q]? = some t →
    S.key s = some k → S.key t = some k → p = q

variable {S} {slots : List α} {k : κ} {p : ℕ} {s : α}

/-- From any home a free slot is reached, if there is one. -/
theorem exists_path_to_free (h : ∃ s ∈ slots, S.free s = true) (k : κ) :
    ∃ p s, S.PathTo slots k p ∧ slots[p]? = some s ∧ S.free s = true := by
  obtain ⟨s₀, hmem, hf₀⟩ := h
  obtain ⟨i, hi, rfl⟩ := List.mem_iff_getElem.mp hmem
  have hex : ∃ d, d < slots.length ∧
      ∃ s, slots[(S.home k + d) % slots.length]? = some s ∧ S.free s = true := by
    refine ⟨(i + (slots.length - S.home k % slots.length)) % slots.length,
      Nat.mod_lt _ (by omega), slots[i], ?_, hf₀⟩
    have hlt : S.home k % slots.length < slots.length := Nat.mod_lt _ (by omega)
    have hi' : (S.home k + (i + (slots.length - S.home k % slots.length)) % slots.length)
        % slots.length = i := by
      rw [Nat.add_mod_mod, Nat.add_mod, ← Nat.add_mod, ← Nat.mod_add_mod,
        show S.home k % slots.length + (i + (slots.length - S.home k % slots.length))
          = i + slots.length from by omega, Nat.add_mod_right, Nat.mod_eq_of_lt hi]
    rw [hi', List.getElem?_eq_getElem hi]
  -- the first free slot from the home is reached through slots that are not free
  obtain ⟨hd, s, hs, hf⟩ := Nat.find_spec hex
  refine ⟨_, s, ⟨Nat.find hex, hd, rfl, ?_⟩, hs, hf⟩
  intro j hj t ht
  cases hft : S.free t with
  | false => rfl
  | true => exact absurd ⟨by omega, t, ht, hft⟩ (Nat.find_min hex hj)

/-! ## Writing a slot

The two ways to break a chain are to free a slot in the middle and to put a key off its chain. -/

/-- Writing a slot that is not free breaks no path. -/
theorem PathTo.set {q : ℕ} (h : S.PathTo slots k q) (hs : S.free s = false) :
    S.PathTo (slots.set p s) k q := by
  obtain ⟨d, hd, hq, hfree⟩ := h
  refine ⟨d, by rwa [List.length_set], by rwa [List.length_set], ?_⟩
  intro j hj t ht
  rw [List.length_set, List.getElem?_set] at ht
  split at ht
  · split at ht
    · cases ht
      exact hs
    · cases ht
  · exact hfree j hj t ht

/-- **Writing a slot keeps the invariant**: what is written is not free, and a key that is
    written is at the end of its chain and nowhere else. -/
theorem Valid.set (hv : S.Valid slots) (hs : S.free s = false)
    (hpath : ∀ k, S.key s = some k → S.PathTo slots k p)
    (hnew : ∀ k, S.key s = some k → ∀ q t, q ≠ p → slots[q]? = some t → S.key t ≠ some k) :
    S.Valid (slots.set p s) := by
  have hget : ∀ q t, (slots.set p s)[q]? = some t → (q = p ∧ t = s) ∨ (q ≠ p ∧ slots[q]? = some t) := by
    intro q t ht
    rw [List.getElem?_set] at ht
    split at ht
    · rename_i hpq
      split at ht
      · cases ht
        exact Or.inl ⟨hpq.symm, rfl⟩
      · cases ht
    · rename_i hpq
      exact Or.inr ⟨fun he => hpq he.symm, ht⟩
  constructor
  · intro q t k' ht hk'
    rcases hget q t ht with ⟨rfl, rfl⟩ | ⟨-, ht'⟩
    · exact (hpath k' hk').set hs
    · exact (hv.chained q t k' ht' hk').set hs
  · intro q r t u k' ht hu hkt hku
    rcases hget q t ht with ⟨rfl, rfl⟩ | ⟨hq, ht'⟩
    · rcases hget r u hu with ⟨rfl, -⟩ | ⟨hr, hu'⟩
      · rfl
      · exact absurd hku (hnew k' hkt r u hr hu')
    · rcases hget r u hu with ⟨rfl, rfl⟩ | ⟨-, hu'⟩
      · exact absurd hkt (hnew k' hku q t hq ht')
      · exact hv.unique q r t u k' ht' hu' hkt hku

/-- A table of free slots. -/
theorem valid_of_free (h : ∀ s ∈ slots, S.free s = true) : S.Valid slots := by
  have hnone : ∀ p s, slots[p]? = some s → S.key s = none :=
    fun p s hs => S.key_of_free s (h s (List.mem_of_getElem? hs))
  constructor
  · intro p s k hs hk
    rw [hnone p s hs] at hk
    cases hk
  · intro p q s t k hs _ hk _
    rw [hnone p s hs] at hk
    cases hk

/-! ## The search

It stops at the key or at a free slot, whichever comes first; the invariant says that the key, if it
is there, comes first. -/

section Search

variable [DecidableEq κ]

variable (S) in
/-- The search for `k` stops at a free slot and at a slot that holds `k`. -/
def stopsAt (k : κ) (s : α) : Bool := S.free s || decide (S.key s = some k)

variable (S) in
/-- The slot at which the search for `k` ends, if it does not run through the whole table. -/
def find (slots : List α) (k : κ) : Option ℕ :=
  probe (S.stopsAt k) slots slots.length (S.home k % slots.length)

variable (S) in
/-- How many slots the search for `k` looks at. -/
def findReads (slots : List α) (k : κ) : ℕ :=
  probeReads (S.stopsAt k) slots slots.length (S.home k % slots.length)

/-- The search ends at the end of a path that has no slot with `k` before it. -/
theorem find_of_path (hpath : S.PathTo slots k p) (hs : slots[p]? = some s)
    (hstop : S.stopsAt k s = true)
    (hno : ∀ q t, q ≠ p → slots[q]? = some t → S.key t ≠ some k) :
    S.find slots k = some p := by
  obtain ⟨d, hd, rfl, hfree⟩ := hpath
  have hn : 0 < slots.length := by omega
  have hmod : ∀ j, (S.home k % slots.length + j) % slots.length
      = (S.home k + j) % slots.length := fun j => Nat.mod_add_mod _ _ _
  have hpass : ∀ j < d, ∀ t, slots[(S.home k % slots.length + j) % slots.length]? = some t →
      S.stopsAt k t = false := by
    intro j hj t ht
    rw [hmod] at ht
    -- two distances below the length that end in one slot are equal
    have hne : (S.home k + j) % slots.length ≠ (S.home k + d) % slots.length := by
      intro he
      have := (Nat.ModEq.add_left_cancel' (S.home k) he).eq_of_lt_of_lt (by omega) hd
      omega
    simp [stopsAt, hfree j hj t ht, hno _ t hne ht]
  rw [find, probe_eq d slots.length (S.home k % slots.length) hd (Nat.mod_lt _ hn)
    (by rw [hmod]; exact hs) hstop hpass, hmod]

/-- **A key that is held is found where it is.** -/
theorem find_of_key (hv : S.Valid slots) (hs : slots[p]? = some s) (hk : S.key s = some k) :
    S.find slots k = some p := by
  refine find_of_path (hv.chained p s k hs hk) hs (by simp [stopsAt, hk]) ?_
  intro q t hq ht htk
  exact hq (hv.unique q p t s k ht hs htk hk)

/-- **A key that is not held is searched up to a free slot**, and its chain may end there. -/
theorem find_of_absent (hroom : ∃ s ∈ slots, S.free s = true)
    (hno : ∀ s ∈ slots, S.key s ≠ some k) :
    ∃ p s, S.find slots k = some p ∧ slots[p]? = some s ∧ S.free s = true ∧
      S.PathTo slots k p := by
  obtain ⟨p, s, hpath, hs, hf⟩ := exists_path_to_free hroom k
  refine ⟨p, s, find_of_path hpath hs (by simp [stopsAt, hf]) ?_, hs, hf, hpath⟩
  exact fun q t _ ht => hno t (List.mem_of_getElem? ht)

/-- With a free slot the search never runs through the whole table. -/
theorem find_ne_none (hv : S.Valid slots) (hroom : ∃ s ∈ slots, S.free s = true) (k : κ) :
    S.find slots k ≠ none := by
  by_cases h : ∃ s ∈ slots, S.key s = some k
  · obtain ⟨s, hmem, hk⟩ := h
    obtain ⟨p, hp⟩ := List.mem_iff_getElem?.mp hmem
    rw [find_of_key hv hp hk]
    exact Option.some_ne_none p
  · obtain ⟨p, s, hfind, -⟩ := find_of_absent (k := k) hroom
      (fun s hs hk => h ⟨s, hs, hk⟩)
    rw [hfind]
    exact Option.some_ne_none p

/-- Where the search ends, the slot is free or holds the key. -/
theorem stop_of_find (h : S.find slots k = some p) :
    ∃ s, slots[p]? = some s ∧ S.stopsAt k s = true :=
  stop_of_probe _ _ h

/-! ## The search with a counter

As the search ends by itself, the counter matters only where it is smaller than the way. -/

variable (S) in
/-- The search for `k` with a counter below `bound`: undefined where it would pass it. -/
def findCounted (bound : ℕ) (slots : List α) (k : κ) : Option (Option ℕ) :=
  probeCounted bound (S.stopsAt k) slots slots.length 0 (S.home k % slots.length)

variable (S) in
/-- One of the first `bound` slots from the home of `k` is free or holds `k`. -/
def Near (bound : ℕ) (slots : List α) (k : κ) : Prop :=
  ∃ d < bound, ∃ s ∈ slots[(S.home k + d) % slots.length]?, S.stopsAt k s = true

instance (bound : ℕ) (slots : List α) (k : κ) : Decidable (S.Near bound slots k) :=
  have (d : ℕ) : Decidable (∃ s ∈ slots[(S.home k + d) % slots.length]?, S.stopsAt k s = true) :=
    decidable_of_iff ((slots[(S.home k + d) % slots.length]?).any (S.stopsAt k) = true)
      (by simp [Option.any_eq_true])
  inferInstanceAs (Decidable (∃ d < bound, _))

/-- A search that ends at all does so near the home, if the table is not larger than the counter. -/
theorem near_of_length_le {bound : ℕ} (hlen : slots.length ≤ bound) (hend : S.find slots k ≠ none) :
    S.Near bound slots k := by
  have hpos : 0 < slots.length := by
    by_contra hno
    obtain rfl : slots = [] := List.length_eq_zero_iff.mp (by omega)
    exact hend rfl
  obtain ⟨d, hd, s, hs, hstop⟩ := (probe_ne_none_iff _ _ (Nat.mod_lt _ hpos)).mp hend
  rw [Nat.mod_add_mod] at hs
  exact ⟨d, by omega, s, hs, hstop⟩

/-- **The search with a counter** is the search that ends near the home, and undefined otherwise. -/
theorem findCounted_eq {bound : ℕ} (hbound : 0 < bound) (hend : S.find slots k ≠ none) :
    S.findCounted bound slots k =
      if S.Near bound slots k then some (S.find slots k) else none := by
  have hpos : 0 < slots.length := by
    by_contra hno
    obtain rfl : slots = [] := List.length_eq_zero_iff.mp (by omega)
    exact hend rfl
  have hhome : S.home k % slots.length < slots.length := Nat.mod_lt _ hpos
  have hnear : S.Near bound slots k ↔
      probe (S.stopsAt k) slots bound (S.home k % slots.length) ≠ none := by
    rw [probe_ne_none_iff _ _ hhome]
    simp only [Nat.mod_add_mod]
    rfl
  rw [findCounted, probeCounted_eq _ _ _ hbound hhome, Nat.sub_zero]
  split
  · rename_i hlt
    rw [if_pos (near_of_length_le hlt.le hend), find]
  · rename_i hge
    by_cases hn : S.Near bound slots k
    · obtain ⟨p, hp⟩ := Option.ne_none_iff_exists'.mp (hnear.mp hn)
      rw [if_pos hn, find, hp, probe_of_le (by omega) hp]
      rfl
    · rw [if_neg hn, not_not.mp (mt hnear.mpr hn)]
      rfl

/-- **The search with a counter ends at a slot** exactly when the key is near its home. -/
theorem findCounted_eq_some_iff {bound : ℕ} (hbound : 0 < bound) :
    (∃ p, S.findCounted bound slots k = some (some p)) ↔ S.Near bound slots k := by
  by_cases hend : S.find slots k = none
  · refine iff_of_false ?_ ?_
    · rintro ⟨p, hp⟩
      rcases Nat.eq_zero_or_pos slots.length with hzero | hpos
      · rw [findCounted, hzero] at hp
        cases hp
      · rw [findCounted, probeCounted_eq _ _ _ hbound (Nat.mod_lt _ hpos), Nat.sub_zero] at hp
        split at hp
        · rw [find] at hend
          rw [hend] at hp
          cases hp
        · -- a search that ends before the counter does ends in the whole table
          obtain ⟨q, hq, -⟩ := Option.map_eq_some_iff.mp hp
          rw [find, probe_of_le (by omega) hq] at hend
          cases hend
    · rintro ⟨d, -, s, hs, hstop⟩
      have hpos : 0 < slots.length := by
        obtain ⟨hlt, -⟩ := List.getElem?_eq_some_iff.mp hs
        omega
      rw [find, ← not_ne_iff, probe_ne_none_iff _ _ (Nat.mod_lt _ hpos)] at hend
      refine hend ⟨d % slots.length, Nat.mod_lt _ hpos, s, ?_, hstop⟩
      rwa [Nat.mod_add_mod, Nat.add_mod_mod]
  · rw [findCounted_eq hbound hend]
    split
    · rename_i hn
      obtain ⟨p, hp⟩ := Option.ne_none_iff_exists'.mp hend
      exact iff_of_true ⟨p, by rw [hp]⟩ hn
    · rename_i hno
      refine iff_of_false ?_ hno
      rintro ⟨p, hp⟩
      cases hp

/-- **Keys that all start at one home.**  A key that is not held is searched behind all slots that
    hold one, so it is not near its home when there are `bound` of these. -/
theorem not_near_of_colliding {bound : ℕ} (hv : S.Valid slots) (hhome : ∀ k', S.home k' = S.home k)
    (hno : ∀ s ∈ slots, S.key s ≠ some k)
    (hmany : bound ≤ slots.countP fun s => (S.key s).isSome) : ¬ S.Near bound slots k := by
  rintro ⟨d₀, hd₀, s, hs, hstop⟩
  have hpos : 0 < slots.length := by
    obtain ⟨hlt, -⟩ := List.getElem?_eq_some_iff.mp hs
    omega
  have hfree : S.free s = true := by
    have hnot := hno s (List.mem_of_getElem? hs)
    simpa [stopsAt, hnot] using hstop
  -- the slots in the order in which they are tested, up to the free one and from it on
  obtain ⟨d, hd, hdlen, hsd⟩ : ∃ d ≤ d₀, d < slots.length ∧
      slots[(S.home k + d) % slots.length]? = some s :=
    ⟨d₀ % slots.length, Nat.mod_le _ _, Nat.mod_lt _ hpos, by rw [Nat.add_mod_mod]; exact hs⟩
  have hrot : ∀ j < slots.length,
      (slots.rotate (S.home k))[j]? = slots[(S.home k + j) % slots.length]? := by
    intro j hj
    rw [List.getElem?_rotate hj, Nat.add_comm]
  have hbehind : ((slots.rotate (S.home k)).drop d).countP (fun s => (S.key s).isSome) = 0 := by
    rw [List.countP_eq_zero]
    intro t ht hkey
    obtain ⟨k', hk'⟩ := Option.isSome_iff_exists.mp hkey
    obtain ⟨j, hj⟩ := List.mem_iff_getElem?.mp ht
    rw [List.getElem?_drop] at hj
    have hjlen : d + j < slots.length := by
      obtain ⟨hlt, -⟩ := List.getElem?_eq_some_iff.mp hj
      simpa using hlt
    rw [hrot _ hjlen] at hj
    obtain ⟨e, he, hej, hpath⟩ := hv.chained _ t k' hj hk'
    rw [hhome k'] at hej hpath
    obtain rfl : e = d + j :=
      (Nat.ModEq.add_left_cancel' (S.home k) hej).eq_of_lt_of_lt he hjlen
    rcases Nat.eq_zero_or_pos j with rfl | hjpos
    · -- the free slot itself holds nothing
      rw [Nat.add_zero, hsd] at hj
      cases hj
      rw [S.key_of_free s hfree] at hk'
      cases hk'
    · have := hpath d (by omega) s hsd
      rw [hfree] at this
      cases this
  have hcount : slots.countP (fun s => (S.key s).isSome) ≤ d := by
    rw [← (List.rotate_perm slots (S.home k)).countP_eq,
      ← List.take_append_drop d (slots.rotate (S.home k)), List.countP_append, hbehind, Nat.add_zero]
    exact le_trans List.countP_le_length (by simp)
  omega

end Search

end Scheme

end Probing
