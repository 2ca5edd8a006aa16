/-
  What the resizes of hash.c cost over a whole run.

  One call of `hash_set` or `hash_del` may rebuild the whole table.  `auto_resize_table` always
  rebuilds to twice the entries, far from both of its thresholds, so the next rebuild is as many
  calls away as the table is large.

  Two counts are kept apart, because a hash function decides about one of them only:

  * `resizeMoves` — the slots of the old array that the loop of `resize_table` reads, the slots of
    the new one that it clears, and the calls of `_hash_set` that it makes.  These are a constant
    for each call of the run, whatever the hash function.
  * `resizeWork`  — the same with every slot that `_hash_set` looks at in place of its calls.  Keys
    that all have one home make each walk longer than the one before, so this is a constant for
    each call only as long as the walks are short (`ShortWalks`).

  The argument is a potential: how far the counters are, from the middle, on the way to either
  threshold.  A call adds to it at most a constant (`potential_before`), a rebuild takes all of it
  and costs no more (`resize_paid`).  Rounded ratios decide as well as exact ones, since a threshold
  of 30% is rounded far less than the 20% that are between it and the middle (`lt_of_floatRatio_lt`).

  That the thresholds are compared in single precision matters here, as they could in principle be
  reached early. All that is needed of the rounding is that it moves a ratio by less than a
  thousandth of itself, which is what `Rounding` says of any of them.
-/
import Libfiu.HashResize

namespace Libfiu

variable {V : Type} {P : Platform}

/-! ## What a resize touches

The costs are functions of a call and of the tables before and after it, so that a run can sum them
up. -/

/-- What `resize_table` moves in a call from `h` to `h'`: the slots of the old array are read, those
    of the new one are cleared, and each entry is put in again.  Without memory it does nothing. -/
def resizeMoves (P : Platform) (h : Hash V) (call : Bool × Call (Option V)) (h' : Hash V) : ℕ :=
  if h.resizes P call.2 = true ∧ call.1 = true then h.tableSize + h'.tableSize + h'.nentries else 0

/-- The walks of `_hash_set` in the resize of a call, if it has one. -/
def Hash.resizeWalks (P : Platform) (h : Hash V) (call : Call (Option V)) :
    List (List (Entry V) × CString) :=
  (h.beforeResize P call).elim [] (resizeProbes P)

/-- The slots that `resize_table` touches in a call from `h` to `h'`: it reads those of the old array
    and clears those of the new one, and `_hash_set` looks at every slot of its walks, the last of
    which it fills. -/
def resizeWork (P : Platform) (h : Hash V) (call : Bool × Call (Option V)) (h' : Hash V) : ℕ :=
  if h.resizes P call.2 = true ∧ call.1 = true then
    h.tableSize + h'.tableSize +
      ((h.resizeWalks P call.2).map fun w => (Entry.scheme P).findReads w.1 w.2).sum
  else 0

/-- No walk in the resize of the call looks at more than `k` slots. -/
def ShortWalks (P : Platform) (k : ℕ) (h : Hash V) (call : Bool × Call (Option V)) : Prop :=
  ∀ w ∈ h.resizeWalks P call.2, (Entry.scheme P).findReads w.1 w.2 ≤ k

/-- The potential: zero while half of the slots are usable and half of them in use. -/
def Hash.potential (h : Hash V) : ℕ :=
  11 * ((h.tableSize - 2 * (h.tableSize - h.nentries - h.nremoved)) +
    if minSize < h.tableSize then h.tableSize - 2 * h.nentries else 0)

/-! ## A rounded ratio

The thresholds are compared after rounding. A single-precision ratio is off by less than one part in
a thousand, which is all that the potential needs. -/

/-- A ratio that is below 30% after rounding is below 30.2%. -/
theorem lt_of_floatRatio_lt {n size : ℕ} (hsize : 0 < size)
    (h : floatRatio P n size < P.double.round (3 / 10)) : 1000 * n < 302 * size := by
  have hpos : (0 : ℚ) < size := by exact_mod_cast hsize
  have hn := P.single.le_round (x := (n : ℚ)) (Nat.cast_nonneg n)
  have hs := P.single.round_le hpos.le
  have hs0 := P.single.round_pos hpos
  have hthree := P.double.round_le (x := 3 / 10) (by norm_num)
  -- the quotient, before it is rounded
  obtain ⟨q, hq⟩ : ∃ q, q = P.single.round n / P.single.round size := ⟨_, rfl⟩
  have hmul : q * P.single.round size = P.single.round n := by
    rw [hq, div_mul_cancel₀ _ hs0.ne']
  have hq0 : 0 ≤ q := by
    rw [hq]
    exact div_nonneg (P.single.round_nonneg (Nat.cast_nonneg n)) hs0.le
  have hround := P.single.le_round hq0
  rw [floatRatio, ← hq] at h
  have hqlt : q < 301 / 1000 := by linarith
  have hle : q * P.single.round size ≤ 301 / 1000 * (size + size / 1000) :=
    mul_le_mul hqlt.le hs hs0.le (by norm_num)
  have hlt : (1000 : ℚ) * n < 302 * size := by linarith
  exact_mod_cast hlt

/-- A table that is rebuilt is clearly past one of the two thresholds. -/
theorem needsResize_lt {size nentries nremoved : ℕ} (hsize : 0 < size)
    (h : needsResize P size nentries nremoved = true) :
    1000 * (size - nentries - nremoved) < 302 * size ∨
      minSize < size ∧ 1000 * nentries < 302 * size := by
  rw [needsResize, decide_eq_true_eq] at h
  rcases h with h | ⟨hmin, h⟩
  · exact Or.inl (lt_of_floatRatio_lt hsize h)
  · exact Or.inr ⟨hmin, lt_of_floatRatio_lt hsize h⟩

/-! ## One call

Before the resize a call changes each counter by at most one, and the potential by at most 22. A
resize then finds a potential that pays for all that it moves. -/

/-- What a call does to the counters: it adds an entry, or it turns one into a removed one. -/
theorem countsAfter_moves {h : Hash V} {entries : List (Entry V)} (hw : h.WF P entries)
    {call : Call (Option V)} {n r : ℕ} (hcounts : h.countsAfter call = some (n, r)) :
    h.nentries ≤ n ∧ n + r ≤ h.nentries + h.nremoved + 1 ∨
      h.nentries ≤ n + 1 ∧ n + r ≤ h.nentries + h.nremoved := by
  cases call with
  | get key => cases hcounts
  | set key value =>
    left
    rw [Hash.countsAfter] at hcounts
    split at hcounts
    · cases hcounts
      omega
    · cases hcounts
      omega
  | del key =>
    right
    rw [Hash.countsAfter] at hcounts
    split at hcounts
    · rename_i hkey
      -- the key is there, so there is an entry to take away
      obtain ⟨value, hmem⟩ := hw.hasKey_iff.mp hkey
      have hone : 0 < entries.countP Entry.isInUse := List.countP_pos_iff.mpr ⟨_, hmem, rfl⟩
      have hn := hw.nentries_eq
      cases hcounts
      omega
    · cases hcounts

/-- Before `auto_resize_table`, a call has added a constant to the potential. -/
theorem potential_before {h h₁ : Hash V} {entries : List (Entry V)} (hw : h.WF P entries)
    {call : Call (Option V)} (hsize : h₁.tableSize = h.tableSize)
    (hcounts : h.countsAfter call = some (h₁.nentries, h₁.nremoved)) :
    h₁.potential ≤ h.potential + 22 := by
  have hmoves := countsAfter_moves hw hcounts
  unfold Hash.potential
  rw [hsize]
  split
  · omega
  · omega

/-- The table after a rebuild. -/
theorem resize_counts {h : Hash V} {entries : List (Entry V)} (hw : h.WF P entries)
    (hneeds : needsResize P h.tableSize h.nentries h.nremoved = true) :
    ∃ h' entries', autoResizeTable P true h = some (true, h') ∧
      (h'.WF P entries' ∧ Entry.never ∈ entries') ∧
      (h'.tableSize = max minSize (h.nentries * 2) ∧ h'.nremoved = 0) ∧
      h'.nentries = h.nentries := by
  obtain ⟨h', entries', hres, hw', -, hroom, -, hsize, hn, hr⟩ :=
    resizeTable_spec hw (nentries_lt_double h.nentries)
  exact ⟨h', entries', by rw [autoResizeTable_eq, if_pos hneeds, hres], ⟨hw', hroom⟩,
    ⟨hsize, hr⟩, hn⟩

/-- **A rebuild is paid for**, and leaves no potential. -/
theorem resize_paid {h : Hash V} {entries : List (Entry V)} (hw : h.WF P entries)
    (hneeds : needsResize P h.tableSize h.nentries h.nremoved = true) :
    ∃ h' entries', autoResizeTable P true h = some (true, h') ∧ h'.WF P entries' ∧
      Entry.never ∈ entries' ∧
      h.tableSize + h'.tableSize + h'.nentries + h'.potential ≤ h.potential := by
  obtain ⟨h', entries', hauto, ⟨hw', hroom⟩, ⟨hsize, hr⟩, hn⟩ := resize_counts hw hneeds
  have hmin := hw.min_le
  have hcounts := hw.counts_le
  have hpast := needsResize_lt (Nat.lt_of_lt_of_le (by decide) hmin) hneeds
  refine ⟨h', entries', hauto, hw', hroom, ?_⟩
  have hzero : h'.potential = 0 := by
    unfold Hash.potential
    rw [hsize, hn, hr]
    unfold minSize at *
    split
    · omega
    · omega
  rw [hzero, hsize, hn]
  unfold Hash.potential
  unfold minSize at *
  split
  · omega
  · omega

/-- A table that is ready, or one that a `malloc` without memory has left without an array. -/
def Hash.ReadyOrNull (P : Platform) (h : Hash V) : Prop := h.Ready P ∨ h.entries = none

/-- Without an array every call is undefined. -/
theorem hashMallocStep_null {h : Hash V} (hnull : h.entries = none) (call : Bool × Call (Option V)) :
    hashMallocStep P h call = none := by
  have hslots : h.slots = none := by rw [Hash.slots, hnull, Option.filter_none]
  rcases call with ⟨malloc, key | key | key⟩
  all_goals simp [hashMallocStep, hashSet, hashSetInternal, hashDel, hashGet, hslots]

/-- **One call** pays for its resize and for the potential that it leaves. -/
theorem call_paid {h h' : Hash V} {call : Bool × Call (Option V)} {r : Reply V}
    (hr : h.ReadyOrNull P) (hstep : hashMallocStep P h call = some (r, h')) :
    h'.ReadyOrNull P ∧ resizeMoves P h call h' + h'.potential ≤ h.potential + 22 := by
  obtain ⟨malloc, call⟩ := call
  rcases hr with ⟨entries, hw, hroom⟩ | hnull
  · have hspec := hashMallocStep_spec hw hroom call
    rcases hbefore : h.beforeResize P call with _ | h₁
    · -- nothing is written
      rw [hbefore] at hspec
      obtain ⟨hcounts, r', hs⟩ := hspec
      rw [hs malloc] at hstep
      cases hstep
      have hno : h.resizes P call = false := by
        rw [Hash.resizes, hcounts]
        rfl
      refine ⟨Or.inl ⟨entries, hw, hroom⟩, ?_⟩
      rw [resizeMoves, if_neg (by simp [hno])]
      omega
    · rw [hbefore] at hspec
      obtain ⟨entries₁, hw₁, hsize, hcounts, hs⟩ := hspec
      have hmoved := potential_before hw hsize hcounts
      have hresizes : h.resizes P call =
          needsResize P h₁.tableSize h₁.nentries h₁.nremoved := by
        rw [Hash.resizes, hcounts, hsize]
        rfl
      rw [hs malloc] at hstep
      by_cases hneeds : needsResize P h₁.tableSize h₁.nentries h₁.nremoved = true
      · rw [hneeds] at hresizes
        cases malloc with
        | true =>
          obtain ⟨h₂, entries₂, hauto, hw₂, hroom₂, hpaid⟩ := resize_paid hw₁ hneeds
          rw [hauto] at hstep
          obtain rfl : h₂ = h' := congrArg Prod.snd (Option.some.inj hstep)
          refine ⟨Or.inl ⟨entries₂, hw₂, hroom₂⟩, ?_⟩
          rw [resizeMoves, if_pos ⟨hresizes, rfl⟩]
          omega
        | false =>
          -- the array is lost, and the counters stay
          rw [autoResizeTable_fail hneeds] at hstep
          have hend : { h₁ with entries := none } = h' := congrArg Prod.snd (Option.some.inj hstep)
          have hsame : h'.potential = h₁.potential := by rw [← hend]; rfl
          refine ⟨Or.inr (by rw [← hend]), ?_⟩
          rw [resizeMoves, if_neg (by simp)]
          omega
      · rw [autoResizeTable_eq, if_neg hneeds] at hstep
        obtain rfl : h₁ = h' := congrArg Prod.snd (Option.some.inj hstep)
        have hkept : Entry.never ∈ entries₁ := by
          by_contra hno
          refine hneeds ?_
          rw [needsResize, decide_eq_true_eq]
          exact Or.inl (usable_lt_of_no_room hw₁ hno)
        refine ⟨Or.inl ⟨entries₁, hw₁, hkept⟩, ?_⟩
        rw [resizeMoves, if_neg (by simp [hresizes, hneeds])]
        omega
  · rw [hashMallocStep_null hnull] at hstep
    cases hstep

/-! ## The walks

The second count differs from the first by the walks of `_hash_set`, one for each entry; where none
is longer than `k`, it is at most `k` times the first. -/

/-- The rehash loop walks once for each entry. -/
theorem rehashProbes_length : ∀ (old : List (Entry V)) (h : Hash V),
    (rehashProbes P old h).length ≤ old.countP Entry.isInUse := by
  intro old
  induction old with
  | nil => exact fun h => Nat.zero_le _
  | cons s old ih =>
    intro h
    cases s with
    | never | removed =>
      rw [List.countP_cons_of_neg (by simp [Entry.isInUse])]
      exact ih h
    | inUse key value =>
      rw [List.countP_cons_of_pos (by rfl), rehashProbes, List.length_cons]
      refine Nat.succ_le_succ ?_
      cases hashSetInternal P h key value with
      | none => exact Nat.zero_le _
      | some r => exact ih r.2

/-- A resize of a well-formed table walks at most once for each entry. -/
theorem resizeProbes_length {h : Hash V} {entries : List (Entry V)} (hw : h.WF P entries) :
    (resizeProbes P h).length ≤ h.nentries := by
  rw [resizeProbes, hw.entries_eq, Option.getD_some, hw.nentries_eq]
  split
  · exact rehashProbes_length entries _
  · exact Nat.zero_le _

/-- Short walks cost their number of entries. -/
theorem sum_reads_le {k : ℕ} {walks : List (List (Entry V) × CString)}
    (h : ∀ w ∈ walks, (Entry.scheme P).findReads w.1 w.2 ≤ k) :
    (walks.map fun w => (Entry.scheme P).findReads w.1 w.2).sum ≤ k * walks.length := by
  have hsum := List.sum_le_card_nsmul (walks.map fun w => (Entry.scheme P).findReads w.1 w.2) k
    fun x hx => by
      obtain ⟨w, hw, rfl⟩ := List.mem_map.mp hx
      exact h w hw
  rwa [List.length_map, smul_eq_mul, Nat.mul_comm] at hsum

/-- **With short walks a resize touches few slots** for each one that it moves. -/
theorem resizeWork_le {k : ℕ} (hk : 1 ≤ k) {h h' : Hash V} {call : Bool × Call (Option V)}
    {r : Reply V} (hr : h.ReadyOrNull P) (hshort : ShortWalks P k h call)
    (hstep : hashMallocStep P h call = some (r, h')) :
    resizeWork P h call h' ≤ k * resizeMoves P h call h' := by
  obtain ⟨malloc, call⟩ := call
  rw [resizeWork, resizeMoves]
  by_cases hboth : h.resizes P call = true ∧ malloc = true
  · obtain ⟨hresizes, rfl⟩ := hboth
    rw [if_pos ⟨hresizes, rfl⟩, if_pos ⟨hresizes, rfl⟩]
    rcases hr with hready | hnull
    · rcases hready.call call with ⟨-, hno, -⟩ | ⟨h₁, entries₁, hbefore, hw₁, hneeds, hs⟩
      · rw [hno] at hresizes
        cases hresizes
      · -- the walks are at most as many as the entries, and those are the ones of the new table
        have hwalks : h.resizeWalks P call = resizeProbes P h₁ := by
          rw [Hash.resizeWalks, hbefore]
          rfl
        have hlen := resizeProbes_length hw₁
        obtain ⟨h₂, entries₂, hauto, -, -, hn⟩ := resize_counts hw₁ (hneeds.symm.trans hresizes)
        rw [hs true, hauto] at hstep
        obtain rfl : h₂ = h' := congrArg Prod.snd (Option.some.inj hstep)
        have hsum := sum_reads_le hshort
        rw [hwalks] at hsum
        rw [hwalks, hn]
        calc h.tableSize + h₂.tableSize + _
            ≤ k * (h.tableSize + h₂.tableSize) + k * h₁.nentries :=
              Nat.add_le_add (Nat.le_mul_of_pos_left _ hk)
                (hsum.trans (Nat.mul_le_mul_left k hlen))
          _ = k * (h.tableSize + h₂.tableSize + h₁.nentries) := (Nat.mul_add ..).symm
    · rw [hashMallocStep_null hnull] at hstep
      cases hstep
  · rw [if_neg hboth]
    exact Nat.zero_le _

/-! ## Every run

The sum over a run is that of its potential, which is zero at `hash_create`. -/

/-- **Resizes cost a constant for each call**, in every run of calls, whatever keys they have and
    whichever allocations succeed.

    First count: all resizes together read, clear and put in again at most 22 slots and entries for
    each call of the run, for every hash function.  Second count: where the walks of `_hash_set` look
    at no more than `k` slots, all of these included, they touch at most `22 * k` slots for each call. -/
theorem hash_resizes_amortised (P : Platform) (calls : List (Bool × Call (Option V))) :
    Machine.cost (hashMallocStep P) (resizeMoves P) hashCreate calls ≤ 22 * calls.length ∧
      ∀ k, 1 ≤ k → Machine.Guarded (hashMallocStep P) (ShortWalks P k) hashCreate calls →
        Machine.cost (hashMallocStep P) (resizeWork P) hashCreate calls ≤ 22 * k * calls.length := by
  have hmoves : Machine.cost (hashMallocStep P) (resizeMoves P) hashCreate calls
      ≤ 22 * calls.length := by
    calc Machine.cost (hashMallocStep P) (resizeMoves P) hashCreate calls
        ≤ (hashCreate : Hash V).potential + 22 * calls.length :=
          Machine.cost_le (J := Hash.ReadyOrNull P) call_paid calls hashCreate
            (Or.inl hashCreate_ready)
      _ = 22 * calls.length := Nat.zero_add _
  refine ⟨hmoves, fun k hk hshort => ?_⟩
  calc Machine.cost (hashMallocStep P) (resizeWork P) hashCreate calls
      ≤ k * Machine.cost (hashMallocStep P) (resizeMoves P) hashCreate calls :=
        Machine.cost_le_mul (J := Hash.ReadyOrNull P)
          (fun hr hs h => ⟨(call_paid hr h).1, resizeWork_le hk hr hs h⟩) calls hashCreate
          (Or.inl hashCreate_ready) hshort
    _ ≤ k * (22 * calls.length) := Nat.mul_le_mul_left k hmoves
    _ = 22 * k * calls.length := by ring

instance (P : Platform) (k : ℕ) (h : Hash V) (call : Bool × Call (Option V)) :
    Decidable (ShortWalks P k h call) :=
  inferInstanceAs (Decidable (∀ w ∈ _, _))

/-- Eight keys are set.  The eighth one resizes, from ten slots to sixteen, and the longest of the
    eight walks of that resize looks at four slots. -/
def eightSets : List (Bool × Call (Option ℕ)) :=
  (List.range 8).map fun n => (true, .set (letters n) (some n))

theorem hash_resizes_amortised_eight :
    Machine.cost (hashMallocStep Platform.ieee) (resizeWork Platform.ieee) hashCreate eightSets
      ≤ 22 * 4 * eightSets.length :=
  (hash_resizes_amortised Platform.ieee eightSets).2 4 (by decide) (by decide +kernel)

end Libfiu
