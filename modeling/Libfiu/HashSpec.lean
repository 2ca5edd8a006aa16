/-
  The hash table of hash.c is a finite map.

  `Hash.WF P h entries` is what holds of a table between operations: the array is there and has
  `table_size` slots, the counters count, and the slots form a valid probing table.  Every
  operation has one lemma that says what it returns and how the CONTENT (which keys are in use,
  with which value) changes; callers use these and never open the operation.

  A table also always has ROOM, a slot never used, when an operation begins.  It is what keeps the
  three probing loops from running through the whole table, and `auto_resize_table` restores it:
  with no such slot the usable ratio is zero and the table is rebuilt with twice as many slots as
  entries.

  The proofs go by content and not by place. `Holds entries M` is that a key has the value `v` in
  the map exactly if some slot has both; the probing library says where a walk ends, and with that
  each operation is a change of one slot (`WF.write`), or a rehash that changes none of the content.
  So a proof about an operation has two halves: the array is still well formed, and its content is
  the new map.
-/
import Libfiu.Hash
import Libfiu.MapSpec
import Libfiu.Lib.Machine

namespace Libfiu

open Probing

variable {V : Type} {P : Platform}

namespace Entry

@[simp] theorem key?_eq_some {s : Entry V} {key : CString} :
    s.key? = some key ↔ ∃ value, s = inUse key value := by
  cases s <;> simp [key?]

@[simp] theorem isNever_iff {s : Entry V} : s.isNever = true ↔ s = never := by
  cases s <;> simp [isNever]

/-- Every slot is of one of the three kinds. -/
theorem countP_kinds (entries : List (Entry V)) :
    entries.countP isNever + entries.countP isInUse + entries.countP isRemoved
      = entries.length := by
  induction entries with
  | nil => rfl
  | cons s entries ih =>
    cases s <;> simp only [List.countP_cons, List.length_cons, isNever, isInUse, isRemoved] <;>
      simp <;> omega

end Entry

/-- What a slot of a list with one slot written holds. -/
theorem mem_set_iff {α : Type} {l : List α} {p : ℕ} {old new x : α} (h : l[p]? = some old) :
    x ∈ l.set p new ↔ x = new ∨ ∃ q, q ≠ p ∧ l[q]? = some x := by
  have hp : p < l.length := (List.getElem?_eq_some_iff.mp h).1
  rw [List.mem_iff_getElem?]
  constructor
  · rintro ⟨q, hq⟩
    rw [List.getElem?_set] at hq
    split at hq
    · exact Or.inl (Option.some.inj hq).symm
    · rename_i hne
      exact Or.inr ⟨q, fun he => hne he.symm, hq⟩
  · rintro (rfl | ⟨q, hne, hq⟩)
    · exact ⟨p, List.getElem?_set_self hp⟩
    · exact ⟨q, by rwa [List.getElem?_set_ne (fun he => hne he.symm)]⟩

/-- Counting after one slot is written. -/
theorem countP_set_add {α : Type} {l : List α} {p : ℕ} {old : α} (f : α → Bool)
    (h : l[p]? = some old) (new : α) :
    (l.set p new).countP f + (if f old then 1 else 0) = l.countP f + (if f new then 1 else 0) := by
  obtain ⟨hp, rfl⟩ := List.getElem?_eq_some_iff.mp h
  rw [List.countP_set hp]
  have hpos : (if f l[p] then 1 else 0) ≤ l.countP f := by
    split
    · exact List.countP_pos_iff.mpr ⟨l[p], List.getElem_mem hp, ‹_›⟩
    · exact Nat.zero_le _
  omega

/-! ## The invariant

The counters count what they are named after, the array has the recorded size, and every key that is
in use can be reached from its home slot without meeting a slot never used. Nothing is said of how
many slots are free; that is what a table has between two calls (`Hash.Table`). -/

/-- A hash table between two operations (module comment). -/
structure Hash.WF (P : Platform) (h : Hash V) (entries : List (Entry V)) : Prop where
  entries_eq : h.entries = some entries
  size : entries.length = h.tableSize
  min_le : minSize ≤ h.tableSize
  nentries_eq : h.nentries = entries.countP Entry.isInUse
  nremoved_eq : h.nremoved = entries.countP Entry.isRemoved
  valid : (Entry.scheme P).Valid entries

/-- `entries` holds exactly the map `M`. -/
def Holds (entries : List (Entry V)) (M : CString → Option V) : Prop :=
  ∀ key value, Entry.inUse key value ∈ entries ↔ value ≠ none ∧ M key = value

/-- A table that holds `M` and has room. -/
def Hash.Table (P : Platform) (h : Hash V) (M : CString → Option V) : Prop :=
  ∃ entries, h.WF P entries ∧ Holds entries M ∧ Entry.never ∈ entries

namespace Hash.WF

variable {h : Hash V} {entries : List (Entry V)}

theorem slots_eq (hw : h.WF P entries) : h.slots = some entries := by
  rw [Hash.slots, hw.entries_eq, Option.filter_some, if_pos (by simpa using hw.size)]

/-- A key is in use at one place only. -/
theorem inUse_unique (hw : h.WF P entries) {p q : ℕ} {key : CString} {value value' : Option V}
    (hp : entries[p]? = some (.inUse key value)) (hq : entries[q]? = some (.inUse key value')) :
    p = q :=
  hw.valid.unique p q _ _ key hp hq rfl rfl

/-- Writing a slot, with the counters of the result. -/
theorem write {h' : Hash V} (hw : h.WF P entries) {p : ℕ} {old new : Entry V}
    (hp : entries[p]? = some old) (hnew : new.isNever = false)
    (hpath : ∀ key, new.key? = some key → (Entry.scheme P).PathTo entries key p)
    (honce : ∀ key, new.key? = some key →
      ∀ q t, q ≠ p → entries[q]? = some t → t.key? ≠ some key)
    (hentries : h'.entries = some (entries.set p new)) (hsize : h'.tableSize = h.tableSize)
    (hn : h'.nentries + (if old.isInUse then 1 else 0)
      = h.nentries + (if new.isInUse then 1 else 0))
    (hr : h'.nremoved + (if old.isRemoved then 1 else 0)
      = h.nremoved + (if new.isRemoved then 1 else 0)) :
    h'.WF P (entries.set p new) where
  entries_eq := hentries
  size := by rw [List.length_set, hsize, hw.size]
  min_le := by rw [hsize]; exact hw.min_le
  nentries_eq := by
    have := countP_set_add Entry.isInUse hp new
    have := hw.nentries_eq
    omega
  nremoved_eq := by
    have := countP_set_add Entry.isRemoved hp new
    have := hw.nremoved_eq
    omega
  valid := hw.valid.set hnew hpath honce

end Hash.WF

/-- The table of `hash_create` holds nothing, in ten slots that were never used. -/
theorem hashCreate_table : (hashCreate : Hash V).Table P fun _ => none := by
  refine ⟨List.replicate minSize .never, ⟨rfl, rfl, le_refl _, rfl, rfl, ?_⟩, ?_,
    List.mem_cons_self ..⟩
  · refine Scheme.valid_of_free fun s hs => ?_
    rw [List.eq_of_mem_replicate hs]
    rfl
  · intro key value
    constructor
    · intro hm
      cases List.eq_of_mem_replicate hm
    · rintro ⟨hv, rfl⟩
      exact absurd rfl hv

/-! ## Lookups

A walk ends at the key, or, as there is room, at a slot never used. So the exit after a complete
probe is not taken between two calls. -/

/-- The walk for a key in use ends at it. -/
theorem findSlot_present {entries : List (Entry V)} {key : CString} {value : Option V} {p : ℕ}
    (hv : (Entry.scheme P).Valid entries) (hp : entries[p]? = some (.inUse key value)) :
    findSlot P entries key = some p :=
  Scheme.find_of_key hv hp rfl

/-- The walk for another key ends at a slot never used. -/
theorem findSlot_absent {entries : List (Entry V)} {key : CString}
    (hroom : Entry.never ∈ entries) (hno : ∀ value, Entry.inUse key value ∉ entries) :
    ∃ p, findSlot P entries key = some p ∧ entries[p]? = some .never ∧
      (Entry.scheme P).PathTo entries key p := by
  obtain ⟨p, s, hfind, hs, hfree, hpath⟩ := Scheme.find_of_absent (S := Entry.scheme P) (k := key)
    ⟨_, hroom, rfl⟩ (fun s hs hk => by
      obtain ⟨value, rfl⟩ := Entry.key?_eq_some.mp hk
      exact hno value hs)
  exact ⟨p, hfind, by rw [hs, Entry.isNever_iff.mp hfree], hpath⟩

/-- With room the walk never makes a complete probe. -/
theorem findSlot_ne_none {h : Hash V} {M : CString → Option V} {entries : List (Entry V)}
    (ht : h.Table P M) (hs : h.slots = some entries) (key : CString) :
    findSlot P entries key ≠ none := by
  obtain ⟨entries', hw, -, hroom⟩ := ht
  cases hw.slots_eq.symm.trans hs
  exact Scheme.find_ne_none hw.valid ⟨_, hroom, rfl⟩ key

/-- **`hash_get` reads the map.** -/
theorem hashGet_eq {h : Hash V} {M : CString → Option V} (ht : h.Table P M) (key : CString) :
    hashGet P h key = some (M key) := by
  obtain ⟨entries, hw, hM, hroom⟩ := ht
  cases hk : M key with
  | none =>
    have hno : ∀ value, Entry.inUse key value ∉ entries := by
      intro value hmem
      obtain ⟨hne, he⟩ := (hM key value).mp hmem
      exact hne (he.symm.trans hk)
    obtain ⟨p, hfind, hp, -⟩ := findSlot_absent (P := P) hroom hno
    simp [hashGet, hw.slots_eq, hfind, hp]
  | some v =>
    have hmem : Entry.inUse key (some v) ∈ entries := (hM key (some v)).mpr ⟨by simp, hk⟩
    obtain ⟨p, hp⟩ := List.mem_iff_getElem?.mp hmem
    simp [hashGet, hw.slots_eq, findSlot_present hw.valid hp, hp]

/-! ## `_hash_set`

Two cases: the key is in use, and its slot is written over; or it is not, and the slot never used at
which the walk ends takes it. A removed slot is passed and not used again. -/

/-- The content of the array after `key` is set to `value`. -/
def SetContent (entries entries' : List (Entry V)) (key : CString) (value : Option V) : Prop :=
  ∀ k v, Entry.inUse k v ∈ entries' ↔
    (k = key ∧ v = value) ∨ (k ≠ key ∧ Entry.inUse k v ∈ entries)

private theorem setContent_write {entries : List (Entry V)} {p : ℕ} {old : Entry V} {key : CString}
    (value : Option V) (hp : entries[p]? = some old)
    (hold : ∀ k v, old = .inUse k v → k = key)
    (honce : ∀ q v, q ≠ p → entries[q]? ≠ some (.inUse key v)) :
    SetContent entries (entries.set p (.inUse key value)) key value := by
  intro k v
  rw [mem_set_iff hp]
  constructor
  · rintro (he | ⟨q, hq, hk⟩)
    · cases he
      exact Or.inl ⟨rfl, rfl⟩
    · refine Or.inr ⟨?_, List.mem_of_getElem? hk⟩
      rintro rfl
      exact honce q v hq hk
  · rintro (⟨rfl, rfl⟩ | ⟨hne, hmem⟩)
    · exact Or.inl rfl
    · obtain ⟨q, hq⟩ := List.mem_iff_getElem?.mp hmem
      refine Or.inr ⟨q, ?_, hq⟩
      rintro rfl
      rw [hp] at hq
      exact hne (hold k v (Option.some.inj hq))

/-- `_hash_set` of a key in use overrides its value, which is destroyed. -/
theorem hashSetInternal_present {h : Hash V} {entries : List (Entry V)} {key : CString}
    {old : Option V} (hw : h.WF P entries) (hmem : Entry.inUse key old ∈ entries)
    (value : Option V) :
    ∃ h' entries', hashSetInternal P h key value = some (true, h') ∧ h'.WF P entries' ∧
      SetContent entries entries' key value ∧ h'.destroyed = h.destroyed ++ [old] ∧
      h'.tableSize = h.tableSize ∧ h'.nentries = h.nentries ∧ h'.nremoved = h.nremoved := by
  obtain ⟨p, hp⟩ := List.mem_iff_getElem?.mp hmem
  refine ⟨{ h with
      entries := some (entries.set p (.inUse key value))
      destroyed := h.destroyed ++ [old] }, entries.set p (.inUse key value),
    ?_, ?_, ?_, rfl, rfl, rfl, rfl⟩
  · simp [hashSetInternal, hw.slots_eq, findSlot_present hw.valid hp, hp]
  · refine hw.write hp rfl ?_ ?_ rfl rfl rfl rfl
    · intro k hk
      exact hw.valid.chained p _ k hp hk
    · intro k hk q t hq ht hkt
      exact hq (hw.valid.unique q p t _ k ht hp hkt hk)
  · refine setContent_write value hp ?_ ?_
    · intro k v he
      cases he
      rfl
    · exact fun q v hq hk => hq (hw.inUse_unique hk hp)

/-- `_hash_set` of a new key takes a slot never used. -/
theorem hashSetInternal_absent {h : Hash V} {entries : List (Entry V)} {key : CString}
    (hw : h.WF P entries) (hroom : Entry.never ∈ entries)
    (hno : ∀ v, Entry.inUse key v ∉ entries) (value : Option V) :
    ∃ h' entries', hashSetInternal P h key value = some (true, h') ∧ h'.WF P entries' ∧
      SetContent entries entries' key value ∧ h'.destroyed = h.destroyed ∧
      h'.tableSize = h.tableSize ∧ h'.nentries = h.nentries + 1 ∧ h'.nremoved = h.nremoved ∧
      entries'.countP Entry.isNever + 1 = entries.countP Entry.isNever := by
  obtain ⟨p, hfind, hp, hpath⟩ := findSlot_absent (P := P) hroom hno
  have honce : ∀ (q : ℕ) (v : Option V), entries[q]? ≠ some (.inUse key v) :=
    fun q v hq => hno v (List.mem_of_getElem? hq)
  refine ⟨{ h with
      entries := some (entries.set p (.inUse key value))
      nentries := h.nentries + 1 }, entries.set p (.inUse key value),
    ?_, ?_, ?_, rfl, rfl, rfl, rfl, ?_⟩
  · simp [hashSetInternal, hw.slots_eq, hfind, hp]
  · refine hw.write hp rfl ?_ ?_ rfl rfl rfl rfl
    · intro k hk
      cases hk
      exact hpath
    · intro k hk q t _ ht hkt
      cases hk
      obtain ⟨v, rfl⟩ := Entry.key?_eq_some.mp hkt
      exact honce q v ht
  · refine setContent_write value hp ?_ (fun q v _ => honce q v)
    intro k v he
    cases he
  · have := countP_set_add Entry.isNever hp (.inUse key value)
    simpa [Entry.isNever] using this

/-! ## Rehashing

The loop of `resize_table` puts the entries into an empty array one after another. The induction is
on the rest of the old array, and what carries it is that the keys in it are new to the new one and
that there are more slots never used than entries to come. -/

/-- No key of a valid table is met twice on the way through its array. -/
theorem Hash.WF.pairwise_keys {h : Hash V} {entries : List (Entry V)} (hw : h.WF P entries) :
    entries.Pairwise fun s t => ∀ key, s.key? = some key → t.key? ≠ some key := by
  rw [List.pairwise_iff_getElem]
  intro i j hi hj hij key hs ht
  have := hw.valid.unique i j _ _ key (List.getElem?_eq_getElem hi) (List.getElem?_eq_getElem hj)
    hs ht
  omega

/-- **The rehash loop** moves every entry of `old`, and every `_hash_set` in it succeeds: the keys
    are new, and there are more slots never used than entries. The induction is on what is left of
    `old`, with any array in hand: its free slots outnumber the entries that are left. -/
theorem rehash_spec : ∀ (old : List (Entry V)) (h : Hash V) (entries : List (Entry V)),
    h.WF P entries →
    old.Pairwise (fun s t => ∀ key, s.key? = some key → t.key? ≠ some key) →
    (∀ key v v', Entry.inUse key v ∈ old → Entry.inUse key v' ∉ entries) →
    old.countP Entry.isInUse < entries.countP Entry.isNever →
    ∃ h' entries', rehash P old h = some (true, h') ∧ h'.WF P entries' ∧
      (∀ key v, Entry.inUse key v ∈ entries' ↔
        Entry.inUse key v ∈ entries ∨ Entry.inUse key v ∈ old) ∧
      h'.destroyed = h.destroyed ∧ h'.tableSize = h.tableSize ∧
      h'.nentries = h.nentries + old.countP Entry.isInUse ∧ h'.nremoved = h.nremoved ∧
      entries'.countP Entry.isNever + old.countP Entry.isInUse
        = entries.countP Entry.isNever := by
  intro old
  induction old with
  | nil =>
    intro h entries hw _ _ _
    exact ⟨h, entries, rfl, hw, by simp, rfl, rfl, rfl, rfl, rfl⟩
  | cons s old ih =>
    intro h entries hw hpair hfresh hroom
    obtain ⟨hhead, htail⟩ := List.pairwise_cons.mp hpair
    cases s with
    | inUse key value =>
      -- its key is new to the array, and there is a slot for it
      have hno : ∀ v, Entry.inUse key v ∉ entries :=
        fun v => hfresh key value v (List.mem_cons_self ..)
      rw [List.countP_cons_of_pos (by rfl)] at hroom
      have hnever : Entry.never ∈ entries := by
        obtain ⟨t, ht, hn⟩ := List.countP_pos_iff.mp (by omega : 0 < entries.countP Entry.isNever)
        rwa [← Entry.isNever_iff.mp hn]
      obtain ⟨h₁, entries₁, hset, hw₁, hcont₁, hd₁, hs₁, hn₁, hr₁, hc₁⟩ :=
        hashSetInternal_absent hw hnever hno value
      have hfresh₁ : ∀ k v v', Entry.inUse k v ∈ old → Entry.inUse k v' ∉ entries₁ := by
        intro k v v' hk hk'
        rcases (hcont₁ k v').mp hk' with ⟨rfl, -⟩ | ⟨-, hmem⟩
        · exact hhead _ hk k rfl rfl
        · exact hfresh k v v' (List.mem_cons_of_mem _ hk) hmem
      obtain ⟨h₂, entries₂, hre, hw₂, hcont₂, hd₂, hs₂, hn₂, hr₂, hc₂⟩ :=
        ih h₁ entries₁ hw₁ htail hfresh₁ (by omega)
      refine ⟨h₂, entries₂, ?_, hw₂, ?_, hd₂.trans hd₁, hs₂.trans hs₁, ?_, hr₂.trans hr₁, ?_⟩
      · simp [rehash, hset, hre]
      · intro k v
        rw [hcont₂, hcont₁, List.mem_cons]
        constructor
        · rintro ((⟨rfl, rfl⟩ | ⟨-, hmem⟩) | hmem)
          · exact Or.inr (Or.inl rfl)
          · exact Or.inl hmem
          · exact Or.inr (Or.inr hmem)
        · rintro (hmem | he | hmem)
          · refine Or.inl (Or.inr ⟨?_, hmem⟩)
            rintro rfl
            exact hno v hmem
          · cases he
            exact Or.inl (Or.inl ⟨rfl, rfl⟩)
          · exact Or.inr hmem
      · rw [List.countP_cons_of_pos (by rfl)]
        omega
      · rw [List.countP_cons_of_pos (by rfl)]
        omega
    | never | removed =>
      -- nothing to move
      rw [List.countP_cons_of_neg (by simp [Entry.isInUse])] at hroom ⊢
      obtain ⟨h₂, entries₂, hre, hw₂, hcont₂, hrest⟩ := ih h entries hw htail
        (fun k v v' hk => hfresh k v v' (List.mem_cons_of_mem _ hk)) hroom
      exact ⟨h₂, entries₂, hre, hw₂, by simpa using hcont₂, hrest⟩

/-- The array that `resize_table` starts with. -/
theorem emptied_wf (h : Hash V) {newSize : ℕ} (hmin : minSize ≤ newSize) :
    (h.emptied newSize).WF P (List.replicate newSize .never) where
  entries_eq := rfl
  size := List.length_replicate
  min_le := hmin
  nentries_eq := by simp [Hash.emptied, List.countP_replicate, Entry.isInUse]
  nremoved_eq := by simp [Hash.emptied, List.countP_replicate, Entry.isRemoved]
  valid := Scheme.valid_of_free fun s hs => by
    rw [List.eq_of_mem_replicate hs]
    rfl

/-- The rehash loop of a resize, into a table with more slots than there are entries. -/
theorem rehash_emptied {h : Hash V} {entries : List (Entry V)} (hw : h.WF P entries) {newSize : ℕ}
    (hmin : minSize ≤ newSize) (hlt : h.nentries < newSize) :
    ∃ h' entries', rehash P entries (h.emptied newSize) = some (true, h') ∧ h'.WF P entries' ∧
      (∀ key v, Entry.inUse key v ∈ entries' ↔ Entry.inUse key v ∈ entries) ∧
      Entry.never ∈ entries' ∧ h'.destroyed = h.destroyed ∧ h'.tableSize = newSize ∧
      h'.nentries = h.nentries ∧ h'.nremoved = 0 := by
  have hne : ∀ key v, Entry.inUse key v ∉ List.replicate newSize (Entry.never : Entry V) :=
    fun key v hm => by cases List.eq_of_mem_replicate hm
  have hroom : entries.countP Entry.isInUse
      < (List.replicate newSize (Entry.never : Entry V)).countP Entry.isNever := by
    simpa [List.countP_replicate, Entry.isNever, ← hw.nentries_eq] using hlt
  obtain ⟨h', entries', hre, hw', hcont, hd, hs, hn, hr, hc⟩ :=
    rehash_spec entries (h.emptied newSize) _ (emptied_wf h hmin) hw.pairwise_keys
      (fun key _ v' _ => hne key v') hroom
  refine ⟨h', entries', hre, hw', fun key v => ?_, ?_, hd, hs, ?_, hr⟩
  · rw [hcont, or_iff_right (hne key v)]
  · obtain ⟨t, ht, hn⟩ := List.countP_pos_iff.mp (by omega : 0 < entries'.countP Entry.isNever)
    rwa [← Entry.isNever_iff.mp hn]
  · rw [hn, hw.nentries_eq]
    exact Nat.zero_add _

/-- `resize_table` keeps the content and leaves room. -/
theorem resizeTable_spec {h : Hash V} {entries : List (Entry V)} (hw : h.WF P entries)
    {newSize : ℕ} (hlt : h.nentries < max minSize newSize) :
    ∃ h' entries', resizeTable P true h newSize = some (true, h') ∧ h'.WF P entries' ∧
      (∀ key v, Entry.inUse key v ∈ entries' ↔ Entry.inUse key v ∈ entries) ∧
      Entry.never ∈ entries' ∧ h'.destroyed = h.destroyed ∧
      h'.tableSize = max minSize newSize ∧ h'.nentries = h.nentries ∧ h'.nremoved = 0 := by
  have hsize : (if newSize < minSize then minSize else newSize) = max minSize newSize := by
    split <;> omega
  obtain ⟨h', entries', hre, hrest⟩ := rehash_emptied hw (le_max_left minSize newSize) hlt
  refine ⟨h', entries', ?_, hrest⟩
  simp [resizeTable, hsize, hw.slots_eq, hre]

/-! ## `auto_resize_table`

Whatever the ratios are rounded to, a table without a slot never used is below the first threshold,
for its ratio is zero. So after `auto_resize_table` there is room again.

The other thresholds matter to the load and to the cost (`HashResize`, `HashAmortised`), and not to
the map. -/

/-- A ratio with numerator zero is zero, however it is rounded. -/
theorem floatRatio_zero (P : Platform) (size : ℕ) : floatRatio P 0 size = 0 := by
  simp [floatRatio]

/-- Twice the entries, and at least the minimum, is more than the entries. -/
theorem nentries_lt_double (n : ℕ) : n < max minSize (n * 2) := by
  unfold minSize
  omega

/-- A table without a slot never used is rebuilt. -/
theorem usable_lt_of_no_room {h : Hash V} {entries : List (Entry V)} (hw : h.WF P entries)
    (hno : Entry.never ∉ entries) :
    floatRatio P (h.tableSize - h.nentries - h.nremoved) h.tableSize
      < P.double.round (3 / 10) := by
  have hnever : entries.countP Entry.isNever = 0 := by
    rw [List.countP_eq_zero]
    intro s hs hn
    exact hno (Entry.isNever_iff.mp hn ▸ hs)
  have hkinds := Entry.countP_kinds entries
  have hzero : h.tableSize - h.nentries - h.nremoved = 0 := by
    have := hw.size
    have := hw.nentries_eq
    have := hw.nremoved_eq
    omega
  rw [hzero, floatRatio_zero]
  exact P.double.round_pos (by norm_num)

/-- **`auto_resize_table` keeps the content and restores room.** -/
theorem autoResizeTable_spec {h : Hash V} {entries : List (Entry V)} (hw : h.WF P entries) :
    ∃ h' entries', autoResizeTable P true h = some (true, h') ∧ h'.WF P entries' ∧
      (∀ key v, Entry.inUse key v ∈ entries' ↔ Entry.inUse key v ∈ entries) ∧
      Entry.never ∈ entries' ∧ h'.destroyed = h.destroyed := by
  obtain ⟨h', entries', hres, hw', hcont, hroom, hd, -⟩ :=
    resizeTable_spec hw (nentries_lt_double h.nentries)
  unfold autoResizeTable
  split
  · exact ⟨h', entries', hres, hw', hcont, hroom, hd⟩
  · rename_i husable
    split
    · exact ⟨h', entries', hres, hw', hcont, hroom, hd⟩
    · refine ⟨h, entries, rfl, hw, fun _ _ => Iff.rfl, ?_, rfl⟩
      exact Classical.byContradiction fun hno => husable (usable_lt_of_no_room hw hno)

/-! ## `hash_set` and `hash_del`

The two calls that write: one slot is written, and the table may be rebuilt. A removal keeps the
slot as removed, so the walks that pass it stay as long as they were. -/

/-- **`hash_set` updates the map** and destroys the value it overrides. -/
theorem hashSet_spec {h : Hash V} {M : CString → Option V} (ht : h.Table P M) (key : CString)
    (value : V) :
    ∃ h', hashSet P true h key (some value) = some (true, h') ∧
      h'.Table P (Function.update M key (some value)) ∧
      h'.destroyed = h.destroyed ++ (M key).toList.map some := by
  obtain ⟨entries, hw, hM, hroom⟩ := ht
  have hset : ∃ h₁ entries₁, hashSetInternal P h key (some value) = some (true, h₁) ∧
      h₁.WF P entries₁ ∧ SetContent entries entries₁ key (some value) ∧
      h₁.destroyed = h.destroyed ++ (M key).toList.map some := by
    cases hk : M key with
    | none =>
      have hno : ∀ v, Entry.inUse key v ∉ entries := by
        intro v hmem
        obtain ⟨hne, he⟩ := (hM key v).mp hmem
        exact hne (he.symm.trans hk)
      obtain ⟨h₁, entries₁, hs, hw₁, hc, hd, -⟩ :=
        hashSetInternal_absent hw hroom hno (some value)
      exact ⟨h₁, entries₁, hs, hw₁, hc, by simpa using hd⟩
    | some old =>
      obtain ⟨h₁, entries₁, hs, hw₁, hc, hd, -⟩ :=
        hashSetInternal_present hw ((hM key (some old)).mpr ⟨by simp, hk⟩) (some value)
      exact ⟨h₁, entries₁, hs, hw₁, hc, by simpa using hd⟩
  obtain ⟨h₁, entries₁, hs, hw₁, hc₁, hd₁⟩ := hset
  obtain ⟨h₂, entries₂, hauto, hw₂, hc₂, hroom₂, hd₂⟩ := autoResizeTable_spec hw₁
  refine ⟨h₂, ?_, ⟨entries₂, hw₂, ?_, hroom₂⟩, hd₂.trans hd₁⟩
  · simp [hashSet, hs, hauto]
  · intro k v
    rw [hc₂, hc₁]
    by_cases hk : k = key
    · subst hk
      rw [Function.update_self]
      constructor
      · rintro (⟨-, rfl⟩ | ⟨hne, -⟩)
        · exact ⟨by simp, rfl⟩
        · exact absurd rfl hne
      · exact fun hv => Or.inl ⟨rfl, hv.2.symm⟩
    · rw [Function.update_of_ne hk, hM]
      exact ⟨fun hv => hv.elim (fun he => absurd he.1 hk) (fun he => he.2),
        fun hv => Or.inr ⟨hk, hv⟩⟩

/-- The slot of a key in use is removed; the rest of the content stays. -/
theorem removeAt_spec {h : Hash V} {entries : List (Entry V)} {p : ℕ} {key : CString}
    {value : Option V} (hw : h.WF P entries) (hp : entries[p]? = some (.inUse key value)) :
    (h.removeAt entries p value).WF P (entries.set p .removed) ∧
      ∀ k v, Entry.inUse k v ∈ entries.set p .removed ↔ k ≠ key ∧ Entry.inUse k v ∈ entries := by
  constructor
  · have hpos : 0 < h.nentries := by
      rw [hw.nentries_eq]
      exact List.countP_pos_iff.mpr ⟨_, List.mem_of_getElem? hp, rfl⟩
    refine hw.write hp rfl (fun k hk => by cases hk) (fun k hk => by cases hk) rfl rfl ?_ rfl
    show h.nentries - 1 + 1 = h.nentries + 0
    omega
  · intro k v
    rw [mem_set_iff hp]
    constructor
    · rintro (he | ⟨q, hq, hk⟩)
      · cases he
      · refine ⟨?_, List.mem_of_getElem? hk⟩
        rintro rfl
        exact hq (hw.inUse_unique hk hp)
    · rintro ⟨hne, hmem⟩
      obtain ⟨q, hq⟩ := List.mem_iff_getElem?.mp hmem
      refine Or.inr ⟨q, ?_, hq⟩
      rintro rfl
      rw [hp] at hq
      cases hq
      exact hne rfl

/-- **`hash_del` removes the key** and destroys its value, and says whether it was there. -/
theorem hashDel_spec {h : Hash V} {M : CString → Option V} (ht : h.Table P M) (key : CString) :
    ∃ h', hashDel P true h key = some ((M key).isSome, h') ∧
      h'.Table P (Function.update M key none) ∧
      h'.destroyed = h.destroyed ++ (M key).toList.map some := by
  obtain ⟨entries, hw, hM, hroom⟩ := ht
  cases hk : M key with
  | none =>
    have hno : ∀ v, Entry.inUse key v ∉ entries := by
      intro v hmem
      obtain ⟨hne, he⟩ := (hM key v).mp hmem
      exact hne (he.symm.trans hk)
    obtain ⟨p, hfind, hp, -⟩ := findSlot_absent (P := P) hroom hno
    refine ⟨h, ?_, ⟨entries, hw, ?_, hroom⟩, by simp⟩
    · simp [hashDel, hw.slots_eq, hfind, hp]
    · rwa [show Function.update M key none = M by rw [← hk, Function.update_eq_self]]
  | some old =>
    have hmem : Entry.inUse key (some old) ∈ entries := (hM key _).mpr ⟨by simp, hk⟩
    obtain ⟨p, hp⟩ := List.mem_iff_getElem?.mp hmem
    obtain ⟨hw₁, hc₁⟩ := removeAt_spec hw hp
    obtain ⟨h₂, entries₂, hauto, hw₂, hc₂, hroom₂, hd₂⟩ := autoResizeTable_spec hw₁
    refine ⟨h₂, ?_, ⟨entries₂, hw₂, ?_, hroom₂⟩, hd₂⟩
    · simp [hashDel, hw.slots_eq, findSlot_present hw.valid hp, hp, hauto]
    · intro k v
      rw [hc₂, hc₁, hM]
      by_cases hkey : k = key
      · subst hkey
        rw [Function.update_self]
        exact ⟨fun hv => absurd rfl hv.1, fun hv => absurd hv.2.symm hv.1⟩
      · rw [Function.update_of_ne hkey]
        exact ⟨fun hv => hv.2, fun hv => ⟨hkey, hv⟩⟩

/-! ## Calls

The calls as one step of a machine, against `MapSpec`.

The step lemma is all that the runs need: `Lib/Machine` makes a statement about every run of it, and
the table of wtable.c goes by the lemmas on the single operations, for its finals. -/

/-- One call of a hash table, its allocation succeeding. -/
def hashStep (P : Platform) (h : Hash V) : Call V → Option (Reply V × Hash V)
  | .set key value => (hashSet P true h key (some value)).map fun r => (.bool r.1, r.2)
  | .del key => (hashDel P true h key).map fun r => (.bool r.1, r.2)
  | .get key => (hashGet P h key).map fun p => (.ptr p, h)

/-- **One call** keeps the table and answers as the map does. -/
theorem hashStep_spec {h : Hash V} {M : CString → Option V} (ht : h.Table P M) (call : Call V) :
    ∃ r h', hashStep P h call = some (r, h') ∧ mapReply M call r ∧
      h'.Table P (mapNext M call) := by
  cases call with
  | set key value =>
    obtain ⟨h', hs, ht', -⟩ := hashSet_spec ht key value
    exact ⟨.bool true, h', by simp [hashStep, hs], rfl, ht'⟩
  | del key =>
    obtain ⟨h', hs, ht', -⟩ := hashDel_spec ht key
    exact ⟨.bool (M key).isSome, h', by simp [hashStep, hs], rfl, ht'⟩
  | get key =>
    exact ⟨.ptr (M key), h, by simp [hashStep, hashGet_eq ht], rfl, ht⟩

end Libfiu
