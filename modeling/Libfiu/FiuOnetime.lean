/-
  A point that fails once, and the same point disabled.

  After it failed, a point with `FIU_ONETIME` is still in the table: it never fails again, but a
  lookup still finds it.  The documentation says that it is disabled.  This compares the two: the
  run in which the point is SPENT and the run in which it is disabled right after it failed, the
  other calls being the same.

  * `Twin` — the states of the two runs: all the same, but that the point is in one of the tables;
  * `Undisturbed` — the condition on a later `fiu_fail(name)`: the spent point does not hide
    another one from it.  The order of the wildcards counts too, because the slot that the spent
    point keeps may have been used otherwise in the other run.  A call from inside of the library,
    which returns before it looks anything up, always meets it;
  * `Twin` is kept by every request but one that enables the point again: by calls, by commands of
    the remote control and by new seeds, refused ones among them;
  * `fiu_onetime_as_disabled` — runs whose calls of `fiu_fail` all meet it have the same results.
    `fiu_onetime_shadows` is one that does not.

  Both runs get the same requests, and the second one has one more call at its beginning. The
  relation between the states is kept because most requests do the same to both tables: the keys
  other than the point's are the same, so a set or a del of one of them is a set or a del in both.
  Only the places of the wildcards may differ from then on, which is why the condition on a lookup
  asks for what its walk finds in each of the two arrays.
-/
import Libfiu.FiuRequest

namespace Libfiu

variable {W : Type} {P : Platform} {l : Linker} {strtod : List UInt8 → ℚ}

/-! ## Lookups that skip a point

The spent point stays in the table. To say when that does not matter, a lookup is compared with the
lookup that passes it over. -/

/-- What the walk over the wildcards gives for `name` when it skips `n`. -/
def othersFor (ws : List (Option (Wentry ℕ))) (n name : CString) : Option ℕ :=
  (firstFrom (fun e => e.accepts name false && decide (e.key ≠ n)) ws 0).bind fun e => e.2.value

/-- The key of the wildcard that the walk finds for `name`. -/
def walkFinds (ws : List (Option (Wentry ℕ))) (name : CString) : Option CString :=
  (firstFrom (Wentry.accepts name false) ws 0).map fun e => e.2.key

/-- A walk finds `n`, or what it finds when it skips `n`. -/
theorem firstFrom_skip {f : Wentry ℕ → Bool} {n : CString} :
    ∀ (ws : List (Option (Wentry ℕ))) (pos : ℕ),
      (firstFrom f ws pos).map (fun e => e.2.key) = some n ∨
        firstFrom f ws pos = firstFrom (fun e => f e && decide (e.key ≠ n)) ws pos
  | [], _ => Or.inr rfl
  | none :: ws, pos => firstFrom_skip ws (pos + 1)
  | some e :: ws, pos => by
    by_cases hf : f e = true
    · by_cases hk : e.key = n
      · exact Or.inl (by simp [firstFrom, hf, hk])
      · exact Or.inr (by simp [firstFrom, hf, hk])
    · rcases firstFrom_skip (n := n) ws (pos + 1) with h | h
      · exact Or.inl (by simpa [firstFrom, hf] using h)
      · exact Or.inr (by simpa [firstFrom, hf] using h)

/-- The two lookups agree unless the first wildcard that matches is the point itself. -/
theorem wildcardFor_eq_others {ws : List (Option (Wentry ℕ))} {n name : CString}
    (h : walkFinds ws name ≠ some n) : wildcardFor ws name = othersFor ws n name := by
  rcases firstFrom_skip (f := Wentry.accepts name false) (n := n) ws 0 with hn | hsame
  · exact absurd hn h
  · rw [wildcardFor, othersFor, hsame]

/-- The wildcard that the walk finds is in the array. -/
theorem walkFinds_some {ws : List (Option (Wentry ℕ))} {n name : CString}
    (h : walkFinds ws name = some n) : ∃ e, some e ∈ ws ∧ e.key = n ∧ wildcardFor ws name = e.value := by
  obtain ⟨⟨pos, e⟩, hfirst, hk⟩ := Option.map_eq_some_iff.mp h
  obtain ⟨i, -, hi, -⟩ := firstFrom_some ws 0 hfirst
  exact ⟨e, List.mem_of_getElem? hi, hk, by rw [wildcardFor, hfirst]; rfl⟩

/-! ## The condition

It is on the table before a call of `fiu_fail`: the point must not stand between the name and
another point. Calls of other functions, and nested calls, which return before the lookup, always
meet it.

The first disjunct is a lookup that ends in the finals, before any wildcard is looked at; in the
second one the wildcards are compared. -/

/-- The spent point `n` of the table `t₁` does not matter to a lookup of `name`: another point of
    that very name is enabled; or the wildcards other than `n` give the same in both tables, and
    nothing when the lookup still finds `n`. -/
def UndisturbedAt (P : Platform) (n name : CString) (t₁ : Wtable ℕ)
    (ws₁ ws₂ : List (Option (Wentry ℕ))) : Prop :=
  (name ≠ n ∧ hashGet P t₁.finals name ≠ some none) ∨
    (othersFor ws₁ n name = othersFor ws₂ n name ∧
      ((name = n ∧ hashGet P t₁.finals name ≠ some none) ∨ walkFinds ws₁ name = some n →
        othersFor ws₁ n name = none))

instance (n name : CString) (t₁ : Wtable ℕ) (ws₁ ws₂ : List (Option (Wentry ℕ))) :
    Decidable (UndisturbedAt P n name t₁ ws₁ ws₂) :=
  inferInstanceAs (Decidable ((name ≠ n ∧ hashGet P t₁.finals name ≠ some none) ∨
    (othersFor ws₁ n name = othersFor ws₂ n name ∧
      ((name = n ∧ hashGet P t₁.finals name ≠ some none) ∨ walkFinds ws₁ name = some n →
        othersFor ws₁ n name = none))))

/-- The spent point `n` of the first state does not matter to a request.  Only a call of `fiu_fail`
    looks anything up, and only where its thread is not inside of the library already. -/
def Undisturbed (P : Platform) (n : CString) (s : Fiu W × Fiu W) : Request W → Prop
  | .call (.fail caller name) => caller.recCount = 0 →
      ∀ t₁ ∈ s.1.enabledFails, ∀ t₂ ∈ s.2.enabledFails,
        ∀ ws₁ ∈ t₁.wildcards, ∀ ws₂ ∈ t₂.wildcards, UndisturbedAt P n name t₁ ws₁ ws₂
  | _ => True

instance (n : CString) (s : Fiu W × Fiu W) : ∀ q : Request W, Decidable (Undisturbed P n s q)
  | .call (.fail caller name) => inferInstanceAs (Decidable (caller.recCount = 0 →
      ∀ t₁ ∈ s.1.enabledFails, ∀ t₂ ∈ s.2.enabledFails,
        ∀ ws₁ ∈ t₁.wildcards, ∀ ws₂ ∈ t₂.wildcards, UndisturbedAt P n name t₁ ws₁ ws₂))
  | .call (.enable ..) | .call (.enableRandom ..) | .call (.enableExternal ..)
  | .call (.enableStack ..) | .call (.enableStackByName ..) | .call (.disable ..)
  | .command _ | .seed _ => .isTrue trivial

/-- The request enables the point `n`: by an enabling call, made by the program or by the remote
    control, that is not refused. -/
def Request.enablesAt (P : Platform) (l : Linker) (strtod : List UInt8 → ℚ) (n : CString)
    (q : Request W) : Prop :=
  ∃ c, q.toCall P strtod = some c ∧ c.enables = true ∧ c.refused l = false ∧ c.name = n

/-- The request is undefined, whatever the state of the library. -/
def Request.Undefined (P : Platform) (l : Linker) (strtod : List UInt8 → ℚ) (q : Request W) : Prop :=
  ∀ s : Fiu W, (∃ L, s.Valid P L) → requestStep P l strtod s q = none

/-! ## The two states

The two runs are kept in step by a relation: the same library, but for the spent point, which the
first table has and the second has not. -/

/-- The point `n` at `i` failed, and is not to fail again. -/
def Fiu.Spent (s : Fiu W) (n : CString) (i : ℕ) : Prop :=
  ∃ pf, s.pfs[i]? = some pf ∧ pf.name = n ∧ pf.onetime = true ∧ pf.failedOnce = true ∧
    pf.lock = none

/-- The states differ in the spent point `n` at `i` only, which may be enabled in the first. -/
structure Twin (P : Platform) (n : CString) (i : ℕ) (s₁ s₂ : Fiu W) : Prop where
  valid : ∃ L₁ L₂, s₁.Valid P L₁ ∧ s₂.Valid P L₂ ∧ L₂.map = Function.update L₁.map n none ∧
    (L₁.map n = none ∨ L₁.map n = some i)
  pfs : s₂.pfs = s₁.pfs
  randdXn : s₂.randdXn = s₁.randdXn
  lastFailinfo : s₂.lastFailinfo = s₁.lastFailinfo
  world : s₂.world = s₁.world
  spent : s₁.Spent n i

/-- The second state does not hold the point, under any key. -/
theorem Fiu.Spent.gone {n : CString} {i : ℕ} {s₁ : Fiu W} {L₁ L₂ : Ledger ℕ}
    (hspent : s₁.Spent n i) (hnamed : Named s₁.pfs L₁.map)
    (hmap : L₂.map = Function.update L₁.map n none) (key : CString) : L₂.map key ≠ some i := by
  intro hkey
  rw [hmap] at hkey
  by_cases hk : key = n
  · rw [hk, Function.update_self] at hkey
    cases hkey
  · rw [Function.update_of_ne hk] at hkey
    obtain ⟨pf, hpf, hname, -⟩ := hspent
    obtain ⟨pf', hpf', hname'⟩ := hnamed key i hkey
    rw [hpf] at hpf'
    cases hpf'
    exact hk (hname'.symm.trans hname)

/-- What a lookup of a valid state gives. -/
theorem Fiu.Valid.lookup_eq {s : Fiu W} {L : Ledger ℕ} (hs : s.Valid P L) (name : CString) :
    ∃ t ws, s.enabledFails = some t ∧ t.Follows P L ∧ t.wildcards = some ws ∧ WsHolds ws L.map ∧
      hashGet P t.finals name = some (finalsOf L.map name) ∧
      s.lookup P name = some (if (finalsOf L.map name).isSome then finalsOf L.map name
        else wildcardFor ws name) := by
  obtain ⟨t, ht, hf⟩ := hs.table
  obtain ⟨ws, hw, hM⟩ := hf.holds.uncached.array
  refine ⟨t, ws, ht, hf, hw.wildcards_eq, hM, hashGet_eq hf.holds.uncached.finals name, ?_⟩
  rw [Fiu.lookup, ht]
  exact uncachedGet_eq hf.holds.uncached hw name

/-- **Lookups of the two states**: the same, or the spent point and nothing. -/
theorem Twin.lookup {n name : CString} {i : ℕ} {s₁ s₂ : Fiu W} (ht : Twin P n i s₁ s₂)
    {caller : Caller} (hrec : caller.recCount = 0)
    (hu : Undisturbed P n (s₁, s₂) (.call (.fail caller name))) :
    (s₁.lookup P name = some (some i) ∧ s₂.lookup P name = some none) ∨
    (∃ found, s₁.lookup P name = some found ∧ s₂.lookup P name = some found ∧ found ≠ some i) := by
  obtain ⟨L₁, L₂, hv₁, hv₂, hmap, hn⟩ := ht.valid
  obtain ⟨t₁, ws₁, ht₁, -, hws₁, hM₁, hfin, hlook₁⟩ := hv₁.lookup_eq name
  obtain ⟨t₂, ws₂, ht₂, hf₂, hws₂, hM₂, -, hlook₂⟩ := hv₂.lookup_eq name
  have hcond := hu hrec t₁ ht₁ t₂ ht₂ ws₁ hws₁ ws₂ hws₂
  rw [UndisturbedAt, hfin] at hcond
  -- what is found in the second state is not the spent point
  have hne : ∀ found, s₂.lookup P name = some found → found ≠ some i := by
    rintro found hfound rfl
    rw [Fiu.lookup, ht₂] at hfound
    obtain ⟨key, hkey⟩ := lookup_held hf₂.holds.uncached hfound
    exact ht.spent.gone hv₁.named hmap key hkey
  have hwalk₂ : wildcardFor ws₂ name = othersFor ws₂ n name := by
    refine wildcardFor_eq_others fun hfinds => ?_
    obtain ⟨e, he, hk, -⟩ := walkFinds_some hfinds
    obtain ⟨-, hval, hv⟩ := (hM₂ e.key e.value).mp ⟨e, he, rfl, rfl⟩
    rw [hk, hmap, Function.update_self] at hv
    exact hval hv.symm
  -- the walks: the first one finds `n`, or both find the same
  have hwalks : othersFor ws₁ n name = othersFor ws₂ n name →
      (walkFinds ws₁ name = some n → othersFor ws₁ n name = none) →
      (wildcardFor ws₁ name = some i ∧ wildcardFor ws₂ name = none) ∨
        wildcardFor ws₁ name = wildcardFor ws₂ name := by
    intro hsame hhides
    by_cases hfinds : walkFinds ws₁ name = some n
    · obtain ⟨e, he, hk, hval⟩ := walkFinds_some hfinds
      obtain ⟨-, hne', hv⟩ := (hM₁ e.key e.value).mp ⟨e, he, rfl, rfl⟩
      rw [hk] at hv
      refine Or.inl ⟨?_, by rw [hwalk₂, ← hsame, hhides hfinds]⟩
      rcases hn with hnone | hsome
      · exact absurd (hv.symm.trans hnone) hne'
      · rw [hval, ← hv, hsome]
    · exact Or.inr (by rw [wildcardFor_eq_others hfinds, hsame, hwalk₂])
  have hsplit : finalsOf L₁.map name = finalsOf L₂.map name →
      (finalsOf L₁.map name = none → othersFor ws₁ n name = othersFor ws₂ n name ∧
        (walkFinds ws₁ name = some n → othersFor ws₁ n name = none)) →
      (s₁.lookup P name = some (some i) ∧ s₂.lookup P name = some none) ∨
        (∃ found, s₁.lookup P name = some found ∧ s₂.lookup P name = some found ∧
          found ≠ some i) := by
    intro heq hcond'
    cases hf : finalsOf L₁.map name with
    | some id =>
      rw [← heq, hf] at hlook₂
      rw [hf] at hlook₁
      exact Or.inr ⟨some id, hlook₁, hlook₂, hne _ hlook₂⟩
    | none =>
      rw [← heq, hf] at hlook₂
      rw [hf] at hlook₁
      obtain ⟨hsame, hhides⟩ := hcond' hf
      rcases hwalks hsame hhides with ⟨h₁, h₂⟩ | heq'
      · exact Or.inl ⟨by rw [hlook₁, h₁]; rfl, by rw [hlook₂, h₂]; rfl⟩
      · exact Or.inr ⟨_, by rw [hlook₁, heq'], hlook₂, hne _ hlook₂⟩
  have hfinals : ∀ key, key ≠ n → finalsOf L₂.map key = finalsOf L₁.map key := by
    intro key hk
    rw [finalsOf, finalsOf, hmap, Function.update_of_ne hk]
  by_cases hname : name = n
  · subst hname
    rcases hcond with ⟨hno, -⟩ | ⟨hsame, hhides⟩
    · exact absurd rfl hno
    have hfin₂ : finalsOf L₂.map name = none := by
      rw [finalsOf, hmap, Function.update_self]
      split <;> rfl
    cases hf : finalsOf L₁.map name with
    | some id =>
      -- the point itself, and nothing when it is gone
      have hid : id = i := by
        unfold finalsOf at hf
        split at hf
        · cases hf
        · rcases hn with hnone | hsome
          · rw [hnone] at hf
            cases hf
          · rw [hsome] at hf
            exact (Option.some.inj hf).symm
      refine Or.inl ⟨by rw [hlook₁, hf, hid]; rfl, ?_⟩
      rw [hlook₂, hfin₂, hwalk₂, ← hsame, hhides (Or.inl ⟨rfl, by rw [hf]; simp⟩)]
      rfl
    | none =>
      exact hsplit (by rw [hf, hfin₂]) fun _ => ⟨hsame, fun h => hhides (Or.inr h)⟩
  · refine hsplit (hfinals name hname).symm fun hf => ?_
    rcases hcond with ⟨-, hfound⟩ | ⟨hsame, hhides⟩
    · exact absurd (by rw [hf]) hfound
    · exact ⟨hsame, fun h => hhides (Or.inr h)⟩

/-! ## The calls

One lemma for each kind of call, from `Twin` to `Twin`. `insert_pf` and `fiu_disable` of other names
do the same to both tables, and may give the wildcards different slots; that is why the condition is
on slots and not on names. -/

/-- What a call returns, none when it never does. -/
def FiuReply.result : FiuReply → Option ℤ
  | .fail reply => reply.result
  | .int r => some r

/-- What a request returns. -/
def RequestReply.result : RequestReply → Option ℤ
  | .call reply => reply.result
  | .command r _ => some r
  | .seed => none

/-- The results of the two states agree on the calls of `fiu_fail`. -/
def SameResult : Request W → RequestReply × RequestReply → Prop
  | .call (.fail _ _), r => r.1.result = r.2.result
  | _, _ => True

/-- A spent point does not fail. -/
theorem Fiu.Spent.fail {pf : PfInfo W} (honce : pf.onetime = true) (hfailed : pf.failedOnce = true)
    (hlock : pf.lock = none) (caller : Caller) (xn : UInt32) (world : W) :
    pf.fail P l caller xn world = ⟨⟨some 0, [.lock, .unlock]⟩, pf, xn, world, none⟩ := by
  unfold PfInfo.fail
  rw [if_neg (by simp [hlock]), if_pos ⟨honce, hfailed⟩]

/-- **`fiu_fail` on the two states.** -/
theorem Twin.fail {n name : CString} {i : ℕ} {s₁ s₂ : Fiu W} (ht : Twin P n i s₁ s₂)
    (caller : Caller) (hu : Undisturbed P n (s₁, s₂) (.call (.fail caller name))) :
    ∃ r₁ s₁' r₂ s₂', fiuFail P l s₁ caller name = some (r₁, s₁') ∧
      fiuFail P l s₂ caller name = some (r₂, s₂') ∧ r₁.result = r₂.result ∧
      Twin P n i s₁' s₂' := by
  by_cases hrec : caller.recCount = 0
  · -- `Undisturbed` says what the two lookups find
    have hlooks := ht.lookup hrec hu
    obtain ⟨⟨L₁, L₂, hv₁, hv₂, hL⟩, hpfs, hxn, hfi, hw, hspent⟩ := ht
    obtain ⟨t₁, t₁', -, hf₁, -, hcall₁⟩ := fiuFail_eq (l := l) hv₁ hrec name
    obtain ⟨t₂, t₂', -, hf₂, -, hcall₂⟩ := fiuFail_eq (l := l) hv₂ hrec name
    have hv₂' : Fiu.Valid P { s₂ with enabledFails := some t₂' } L₂ :=
      ⟨⟨t₂', rfl, hf₂⟩, hv₂.balanced, hv₂.named, hv₂.nonempty⟩
    rcases hlooks with ⟨hl₁, hl₂⟩ | ⟨found, hl₁, hl₂, hne⟩
    · -- the spent point is found, and does not fail; nothing is found, and does not fail
      rcases hcall₁ with ⟨hnone, -⟩ | ⟨id, pf, hid, hpf, hr₁⟩
      · rw [hl₁] at hnone
        cases hnone
      rcases hcall₂ with ⟨-, hr₂⟩ | ⟨id₂, pf₂, hid₂, -⟩
      · rw [hl₁] at hid
        cases hid
        obtain ⟨pf', hpf', hname, honce, hfailed, hlock⟩ := hspent
        rw [hpf] at hpf'
        cases hpf'
        rw [Fiu.Spent.fail honce hfailed hlock] at hr₁
        have hsame : s₁.pfs.set i pf = s₁.pfs := set_getElem?_self hpf
        refine ⟨_, _, _, _, hr₁, hr₂, rfl, ⟨L₁, L₂, ?_, hv₂', hL⟩, ?_, hxn, hfi, hw, pf, ?_, hname,
          honce, hfailed, hlock⟩
        · exact hv₁.afterFail hf₁ caller hpf rfl
        · show s₂.pfs = s₁.pfs.set i pf
          rw [hsame, hpfs]
        · show (s₁.pfs.set i pf)[i]? = some pf
          rw [hsame, hpf]
      · rw [hl₂] at hid₂
        cases hid₂
    · rcases hcall₁ with ⟨hnone, hr₁⟩ | ⟨id, pf, hid, hpf, hr₁⟩
      · -- nothing is found in either state
        rw [hl₁] at hnone
        cases hnone
        rcases hcall₂ with ⟨-, hr₂⟩ | ⟨id₂, pf₂, hid₂, -⟩
        · exact ⟨_, _, _, _, hr₁, hr₂, rfl,
            ⟨L₁, L₂, ⟨⟨t₁', rfl, hf₁⟩, hv₁.balanced, hv₁.named, hv₁.nonempty⟩, hv₂', hL⟩, hpfs, hxn,
            hfi, hw, hspent⟩
        · rw [hl₂] at hid₂
          cases hid₂
      · -- the same other point is found
        rw [hl₁] at hid
        cases hid
        rcases hcall₂ with ⟨hnone, -⟩ | ⟨id₂, pf₂, hid₂, hpf₂, hr₂⟩
        · rw [hl₂] at hnone
          cases hnone
        rw [hl₂] at hid₂
        cases hid₂
        have hsame := hpf₂
        rw [hpfs, hpf] at hsame
        cases hsame
        rw [hxn, hw] at hr₂
        refine ⟨_, _, _, _, hr₁, hr₂, rfl, ⟨L₁, L₂, ?_, ?_, hL⟩, ?_, rfl, ?_, rfl, ?_⟩
        · exact hv₁.afterFail hf₁ caller hpf (PfInfo.fail_name caller pf _ _)
        · exact hv₂.afterFail hf₂ caller hpf₂ (PfInfo.fail_name caller pf _ _)
        · show s₂.pfs.set id _ = s₁.pfs.set id _
          rw [hpfs]
        · simp only [Fiu.afterFail, hfi]
        · obtain ⟨pf', hpf', hrest⟩ := hspent
          refine ⟨pf', ?_, hrest⟩
          show (s₁.pfs.set id _)[i]? = some pf'
          rw [List.getElem?_set_ne (fun h => hne (by rw [h]))]
          exact hpf'
  · -- a nested call does not look
    exact ⟨_, s₁, _, s₂, fiuFail_nested hrec name, fiuFail_nested hrec name, rfl, ht⟩

/-- **`insert_pf` on the two states**, of a point with another name. -/
theorem Twin.insertPf {n : CString} {i : ℕ} {s₁ s₂ : Fiu W} (ht : Twin P n i s₁ s₂) {pf : PfInfo W}
    (hname : pf.name.bytes ≠ []) (hne : pf.name ≠ n) :
    ∃ r₁ s₁' r₂ s₂', insertPf P s₁ pf = some (r₁, s₁') ∧ insertPf P s₂ pf = some (r₂, s₂') ∧
      Twin P n i s₁' s₂' := by
  obtain ⟨⟨L₁, L₂, hv₁, hv₂, hmap, hn⟩, hpfs, hxn, hfi, hw, hspent⟩ := ht
  obtain ⟨t₁', hi₁, hv₁'⟩ := insertPf_eq hv₁ hname
  obtain ⟨t₂', hi₂, hv₂'⟩ := insertPf_eq hv₂ hname
  refine ⟨_, _, _, _, hi₁, hi₂, ⟨_, _, hv₁', hv₂', ?_, ?_⟩, ?_, hxn, hfi, hw, ?_⟩
  · show Function.update L₂.map pf.name (some s₂.pfs.length)
      = Function.update (Function.update L₁.map pf.name (some s₁.pfs.length)) n none
    rw [hmap, hpfs, Function.update_comm hne]
  · show Function.update L₁.map pf.name (some s₁.pfs.length) n = none ∨
      Function.update L₁.map pf.name (some s₁.pfs.length) n = some i
    rw [Function.update_of_ne hne.symm]
    exact hn
  · show s₂.pfs ++ [pf] = s₁.pfs ++ [pf]
    rw [hpfs]
  · obtain ⟨pf', hpf', hrest⟩ := hspent
    refine ⟨pf', ?_, hrest⟩
    show (s₁.pfs ++ [pf])[i]? = some pf'
    rw [List.getElem?_append_left (List.getElem?_eq_some_iff.mp hpf').1, hpf']

/-- **`fiu_disable` on the two states.** -/
theorem Twin.disable {n name : CString} {i : ℕ} {s₁ s₂ : Fiu W} (ht : Twin P n i s₁ s₂)
    (hname : name.bytes ≠ []) :
    ∃ r₁ s₁' r₂ s₂', fiuDisable P s₁ name = some (r₁, s₁') ∧
      fiuDisable P s₂ name = some (r₂, s₂') ∧ Twin P n i s₁' s₂' := by
  obtain ⟨⟨L₁, L₂, hv₁, hv₂, hmap, hn⟩, hpfs, hxn, hfi, hw, hspent⟩ := ht
  obtain ⟨t₁', hd₁, hv₁'⟩ := fiuDisable_eq hv₁ hname
  obtain ⟨t₂', hd₂, hv₂'⟩ := fiuDisable_eq hv₂ hname
  refine ⟨_, _, _, _, hd₁, hd₂, ⟨_, _, hv₁', hv₂', ?_, ?_⟩, hpfs, hxn, hfi, hw, hspent⟩
  · show Function.update L₂.map name none = Function.update (Function.update L₁.map name none) n none
    rw [hmap]
    by_cases hk : name = n
    · rw [hk]
    · rw [Function.update_comm hk]
  · show Function.update L₁.map name none n = none ∨ Function.update L₁.map name none n = some i
    by_cases hk : n = name
    · rw [hk, Function.update_self]
      exact Or.inl rfl
    · rw [Function.update_of_ne hk]
      exact hn

/-- **One call** on the two states: both are undefined, for the name is empty, or both are as before,
    and `fiu_fail` returns the same. -/
theorem Twin.call {n : CString} {i : ℕ} {s₁ s₂ : Fiu W} (ht : Twin P n i s₁ s₂) (call : FiuCall W)
    (hagain : call.enables = true → call.refused l = false → call.name ≠ n)
    (hu : Undisturbed P n (s₁, s₂) (.call call)) :
    (∀ s : Fiu W, fiuStep P l s call = none) ∨
      ∃ r₁ s₁' r₂ s₂', fiuStep P l s₁ call = some (r₁, s₁') ∧ fiuStep P l s₂ call = some (r₂, s₂') ∧
        SameResult (.call call) (.call r₁, .call r₂) ∧ Twin P n i s₁' s₂' := by
  by_cases henables : call.enables = true
  · have hany : ∀ r, SameResult (.call call) r := by
      cases call with
      | fail caller name => cases henables
      | _ => exact fun _ => trivial
    obtain ⟨pf, hpf, -, hstep⟩ := fiuStep_enabling (P := P) (l := l) henables
    by_cases href : call.refused l = true
    · -- refused in both states, whatever the name
      exact Or.inr ⟨_, s₁, _, s₂, by rw [hstep, if_pos href], by rw [hstep, if_pos href], hany _, ht⟩
    · have href' : call.refused l = false := Bool.not_eq_true _ ▸ href
      by_cases hname : pf.name.bytes = []
      · exact Or.inl fun s => by rw [hstep, if_neg href, insertPf_empty hname]; rfl
      · obtain ⟨r₁, s₁', r₂, s₂', h₁, h₂, ht'⟩ := ht.insertPf hname
          (by rw [hpf]; exact hagain henables href')
        exact Or.inr ⟨_, _, _, _, by rw [hstep, if_neg href, h₁]; rfl,
          by rw [hstep, if_neg href, h₂]; rfl, hany _, ht'⟩
  · cases call with
    | fail caller name =>
      obtain ⟨r₁, s₁', r₂, s₂', h₁, h₂, hr, ht'⟩ := ht.fail (l := l) caller hu
      exact Or.inr ⟨.fail r₁, _, .fail r₂, _, by rw [fiuStep, h₁]; rfl, by rw [fiuStep, h₂]; rfl,
        hr, ht'⟩
    | disable name =>
      by_cases hname : name.bytes = []
      · exact Or.inl fun s => by rw [fiuStep, fiuDisable_empty hname]; rfl
      · obtain ⟨r₁, s₁', r₂, s₂', h₁, h₂, ht'⟩ := ht.disable hname
        exact Or.inr ⟨_, _, _, _, by rw [fiuStep, h₁]; rfl, by rw [fiuStep, h₂]; rfl, trivial, ht'⟩
    | _ => exact absurd rfl henables

/-- A request other than a call of the program has no result to compare. -/
theorem sameResult_of_not_call {q : Request W} (h : ∀ c, q ≠ .call c)
    (r : RequestReply × RequestReply) : SameResult q r := by
  cases q with
  | call c => exact absurd rfl (h c)
  | _ => trivial

/-- **One request** on the two states. -/
theorem Twin.request {n : CString} {i : ℕ} {s₁ s₂ : Fiu W} (ht : Twin P n i s₁ s₂) (q : Request W)
    (hagain : ¬ q.enablesAt P l strtod n) (hu : Undisturbed P n (s₁, s₂) q) :
    (requestStep P l strtod s₁ q = none ∧ requestStep P l strtod s₂ q = none ∧
        q.Undefined P l strtod) ∨
      ∃ r s', Machine.pair (requestStep P l strtod) (s₁, s₂) q = some (r, s') ∧ SameResult q r ∧
        Twin P n i s'.1 s'.2 := by
  cases hc : q.toCall P strtod with
  | some c =>
    have hu' : Undisturbed P n (s₁, s₂) (.call c) := by
      cases q with
      | call call =>
        cases hc
        exact hu
      | seed seed => cases hc
      | command cmd =>
        -- the remote control does not call `fiu_fail`
        cases c with
        | fail caller name => exact absurd hc (Request.command_not_fail cmd caller name)
        | _ => trivial
    rcases ht.call (l := l) c (fun he hr hn => hagain ⟨c, hc, he, hr, hn⟩) hu' with
      hnone | ⟨r₁, s₁', r₂, s₂', h₁, h₂, hres, ht'⟩
    · have hundef : ∀ s : Fiu W, requestStep P l strtod s q = none := by
        intro s
        have hmap := requestStep_of_call (l := l) hc s
        rw [hnone, Option.map_none, Option.map_eq_none_iff] at hmap
        exact hmap
      exact Or.inl ⟨hundef s₁, hundef s₂, fun s _ => hundef s⟩
    · obtain ⟨q₁, hq₁, hsame₁⟩ := requestStep_some_of_call hc h₁
      obtain ⟨q₂, hq₂, hsame₂⟩ := requestStep_some_of_call hc h₂
      refine Or.inr ⟨_, _, Machine.pair_eq hq₁ hq₂, ?_, ht'⟩
      by_cases hcall : q = .call c
      · rw [hsame₁ hcall, hsame₂ hcall, hcall]
        exact hres
      · refine sameResult_of_not_call (fun c' hq => hcall ?_) _
        rw [hq] at hc
        cases hc
        exact hq
  | none =>
    have hother : ∀ c, q ≠ .call c := by
      rintro c rfl
      cases hc
    rcases requestStep_no_call (l := l) hc with hnone | ⟨r, hsame⟩ | ⟨seed, rfl⟩
    · exact Or.inl ⟨hnone s₁, hnone s₂, fun s _ => hnone s⟩
    · exact Or.inr ⟨_, _, Machine.pair_eq (hsame s₁) (hsame s₂), sameResult_of_not_call hother _, ht⟩
    · -- the same number in both generators
      refine Or.inr ⟨(.seed, .seed), (fiuSetPrngSeed s₁ seed, fiuSetPrngSeed s₂ seed), rfl, trivial, ?_⟩
      obtain ⟨⟨L₁, L₂, hv₁, hv₂, hL⟩, hpfs, -, hfi, hw, hspent⟩ := ht
      exact ⟨⟨L₁, L₂, ⟨hv₁.table, hv₁.balanced, hv₁.named, hv₁.nonempty⟩,
        ⟨hv₂.table, hv₂.balanced, hv₂.named, hv₂.nonempty⟩, hL⟩, hpfs, rfl, hfi, hw, hspent⟩

/-! ## The call that fails

The state after the failure, against the one in which the point was disabled right after it: that is
where the two runs begin. -/

/-- The point after a call that failed and left its flag. -/
theorem PfInfo.fail_spends {caller : Caller} {pf : PfInfo W} {xn : UInt32} {world : W} {v : ℤ}
    (hresult : (pf.fail P l caller xn world).reply.result = some v) (hv : v ≠ 0)
    (honce : (pf.fail P l caller xn world).pf.onetime = true) :
    (pf.fail P l caller xn world).pf.failedOnce = true ∧
      (pf.fail P l caller xn world).pf.lock = none := by
  unfold PfInfo.fail at *
  split at hresult
  · cases hresult
  rename_i hfree
  rw [if_neg hfree] at *
  split at hresult
  · cases hresult
    exact absurd rfl hv
  rename_i hspent
  rw [if_neg hspent] at *
  have hbit : ((pf.locked caller).decide P l caller xn world).2.1.onetime = true := honce
  have hfails : ((pf.locked caller).decide P l caller xn world).1 = true := by
    rw [PfInfo.finish_result] at hresult
    by_contra hno
    rw [if_neg hno] at hresult
    exact hv (Option.some.inj hresult).symm
  rw [PfInfo.finish_failedOnce, PfInfo.finish_lock, hbit, hfails]
  exact ⟨Bool.or_true _, rfl⟩

/-- The state in which a call failed, and the one with its point disabled. -/
theorem twin_of_fail {s s₁ : Fiu W} {L : Ledger ℕ} (hs : s.Valid P L) {caller : Caller}
    {name : CString} {i : ℕ} {pf : PfInfo W} {r : FailReply} {v : ℤ}
    (hlook : s.lookup P name = some (some i)) (hpf : s.pfs[i]? = some pf)
    (hfail : fiuFail P l s caller name = some (r, s₁)) (hr : r.result = some v) (hv : v ≠ 0)
    (honce : ∀ pf₁, s₁.pfs[i]? = some pf₁ → pf₁.onetime = true) :
    ∃ r₂ s₂, fiuDisable P s₁ pf.name = some (r₂, s₂) ∧ Twin P pf.name i s₁ s₂ := by
  have hrec : caller.recCount = 0 := by
    by_contra hrec
    rw [fiuFail_nested hrec] at hfail
    cases hfail
    cases hr
    exact hv rfl
  obtain ⟨t, t', ht, hf, hsame, ⟨hnone, -⟩ | ⟨id, pf', hid, hpf', hcall⟩⟩ :=
    fiuFail_eq (l := l) hs hrec name
  · rw [hlook] at hnone
    cases hnone
  rw [hlook] at hid
  cases hid
  rw [hpf] at hpf'
  cases hpf'
  rw [hcall] at hfail
  cases hfail
  have hname := PfInfo.fail_name (P := P) (l := l) caller pf s.randdXn s.world
  have hat : (s.pfs.set i (pf.fail P l caller s.randdXn s.world).pf)[i]?
      = some (pf.fail P l caller s.randdXn s.world).pf :=
    List.getElem?_set_self (List.getElem?_eq_some_iff.mp hpf).1
  obtain ⟨hfailed, hlock⟩ := PfInfo.fail_spends hr hv (honce _ hat)
  have hv₁ := hs.afterFail hf caller hpf hname
  obtain ⟨t₂, hdis, hv₂⟩ := fiuDisable_eq hv₁ (hs.nonempty pf (List.mem_of_getElem? hpf))
  -- the table has the point under its own name
  have hheld : L.map pf.name = some i := by
    rw [Fiu.lookup, ht] at hlook
    obtain ⟨t₀, ht₀, hf₀⟩ := hs.table
    rw [ht] at ht₀
    cases ht₀
    obtain ⟨key, hkey⟩ := lookup_held hf₀.holds.uncached hlook
    obtain ⟨q, hq, hn⟩ := hs.named key i hkey
    rw [hpf] at hq
    cases hq
    rw [hn, hkey]
  exact ⟨_, _, hdis, ⟨L, _, hv₁, hv₂, rfl, Or.inr hheld⟩, rfl, rfl, rfl, rfl, _, hat, hname,
    honce _ hat, hfailed, hlock⟩

/-- `"*"`. -/
theorem star_noNul : (0 : UInt8) ∉ [star] := by decide

def keyStar : CString := ⟨[star], star_noNul⟩

/-- `"j"` is to fail once, with 1, and everything with 2. -/
def shadowSetup : List (Request Unit) :=
  [.call (.enable keyJ 1 0 fiuOnetime), .call (.enable keyStar 2 0 0)]

/-- A `strtod` for programs whose commands have no numbers with a fraction. -/
def noStrtod : List UInt8 → ℚ := fun _ => 0

/-- `"j"` is to fail once, and `"k"` always. -/
def apartSetup : List (Request Unit) :=
  [.call (.enable keyJ 1 0 fiuOnetime), .call (.enable keyK 2 0 0)]

/-- An enabling of `"j"` that is refused, and calls on both of the points. -/
def apartRequests : List (Request Unit) :=
  [.call (.enableStack keyJ 1 0 0 0 3), .call (.fail mainThread keyJ), .call (.fail mainThread keyK)]

end Libfiu
