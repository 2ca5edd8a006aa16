/-
  What the calls of the library do to its table and to the points that were created.

  `Fiu.Valid P s L` is what holds between two calls: `fiu_init` was called, the table follows the
  ledger `L` of the enables and disables so far, the values of the table are points that were
  created, each under its own name, and no point was put into the table twice.  So a lookup never
  finds a point that was freed (`fiuFail_eq`).

  Every enabling call that is not refused is `insert_pf` of a new point (`fiuStep_enabling`).

  The name of a point is the key that it is stored under, and `Named` says so: without it a lookup
  by name and the deletion by `pf->name` would speak of different points. An index that was handed
  out once is not handed out again, which is why a ledger of values without repetition is the right
  specification of the table.
-/
import Libfiu.Fiu

namespace Libfiu

variable {W : Type} {P : Platform} {l : Linker}

/-! ## The points

What a call of `fiu_fail` can change in the point that it found. -/

/-- What the decision changes in a point: at most what a callback may change. -/
theorem PfInfo.decide_spec (caller : Caller) (pf : PfInfo W) (xn : UInt32) (world : W) :
    (pf.decide P l caller xn world).2.1.name = pf.name ∧
    (pf.decide P l caller xn world).2.1.lock = pf.lock ∧
    (pf.decide P l caller xn world).2.1.failedOnce = pf.failedOnce ∧
    (pf.decide P l caller xn world).2.1.method = pf.method ∧
    (pf.decide P l caller xn world).2.1.flags
      = (match pf.method with
        | .external externalCb =>
          (externalCb world pf.name pf.failnum pf.failinfo pf.flags).1.flags
        | _ => pf.flags) := by
  obtain ⟨name, failnum, failinfo, flags, lock, failedOnce, method⟩ := pf
  cases method <;> exact ⟨rfl, rfl, rfl, rfl, rfl⟩

/-- A list with the value that is there put there. -/
theorem set_getElem?_self {α : Type} {l : List α} {n : ℕ} {x : α} (h : l[n]? = some x) :
    l.set n x = l := by
  obtain ⟨hn, rfl⟩ := List.getElem?_eq_some_iff.mp h
  exact List.set_getElem_self hn

section finish

variable (taken : Bool) (decision : Bool × PfInfo W × UInt32 × W)

/-- The result is the failnum that the callback left, or 0. -/
theorem PfInfo.finish_result : (PfInfo.finish taken decision).reply.result
    = some (if decision.1 then decision.2.1.failnum else 0) := rfl

/-- The lock is given back when the flags say so AFTER the callback. -/
theorem PfInfo.finish_lock : (PfInfo.finish taken decision).pf.lock
    = if decision.2.1.onetime then none else decision.2.1.lock := rfl

/-- A failure is noted when the flags say so after the callback. -/
theorem PfInfo.finish_failedOnce : (PfInfo.finish taken decision).pf.failedOnce
    = (decision.2.1.failedOnce || (decision.1 && decision.2.1.onetime)) := rfl

end finish

/-- No call of `fiu_fail` changes the name of a point. -/
theorem PfInfo.fail_name (caller : Caller) (pf : PfInfo W) (xn : UInt32) (world : W) :
    (pf.fail P l caller xn world).pf.name = pf.name := by
  unfold PfInfo.fail
  split
  · rfl
  split
  · rfl
  · exact (PfInfo.decide_spec (P := P) (l := l) caller (pf.locked caller) xn world).1

/-! ## The state

Between two calls the table is valid and holds the points under the names that they were created
with. A point that no name leads to any more was freed. -/

/-- The points that the map holds were created under their names. -/
def Named (pfs : List (PfInfo W)) (M : CString → Option ℕ) : Prop :=
  ∀ key id, M key = some id → ∃ pf, pfs[id]? = some pf ∧ pf.name = key

/-- The library between two calls, after `fiu_init`. -/
structure Fiu.Valid (P : Platform) (s : Fiu W) (L : Ledger ℕ) : Prop where
  table : ∃ t, s.enabledFails = some t ∧ t.Follows P L
  balanced : ∃ given, L.Balanced given ∧ ∀ id ∈ given, id < s.pfs.length
  named : Named s.pfs L.map
  nonempty : ∀ pf ∈ s.pfs, pf.name.bytes ≠ []

/-- `fiu_init` leaves a valid library with an empty table. -/
theorem fiuInit_valid (world : W) (garbage : ℕ) (seed : UInt32) :
    (fiuInit (fiuStart world) garbage seed).2.Valid P Ledger.empty where
  table := ⟨_, rfl, wtableCreate_follows garbage⟩
  balanced := ⟨[], Ledger.balanced_empty, fun _ h => absurd h List.not_mem_nil⟩
  named := fun _ _ h => by cases h
  nonempty := fun _ h => absurd h List.not_mem_nil

/-- What a lookup of the table would give without its cache. -/
def Fiu.lookup (P : Platform) (s : Fiu W) (name : CString) : Option (Option ℕ) := do
  let t ← s.enabledFails
  uncachedGet P t.toUncachedWtable name

/-- A lookup that finds a point finds one that the map holds. -/
theorem lookup_held {t : UncachedWtable ℕ} {M : CString → Option ℕ} (ht : t.Represents P M)
    {name : CString} {id : ℕ} (h : uncachedGet P t name = some (some id)) :
    ∃ key, M key = some id := by
  obtain ⟨ws, hw, hM⟩ := ht.array
  rw [uncachedGet_eq ht hw, Option.some.injEq] at h
  exact slotReply_get_held hM hw.good (congrArg Reply.ptr h)

/-- A point is replaced by one of the same name. -/
theorem Named.set {pfs : List (PfInfo W)} {M : CString → Option ℕ} (h : Named pfs M) {i : ℕ}
    {pf pf' : PfInfo W} (hi : pfs[i]? = some pf) (hname : pf'.name = pf.name) :
    Named (pfs.set i pf') M := by
  intro key id hid
  obtain ⟨q, hq, hn⟩ := h key id hid
  by_cases he : i = id
  · subst he
    rw [hi] at hq
    cases hq
    exact ⟨pf', List.getElem?_set_self (List.getElem?_eq_some_iff.mp hi).1, hname.trans hn⟩
  · exact ⟨q, by rw [List.getElem?_set_ne he, hq], hn⟩

/-! ## `fiu_fail`

The lookup, and then `PfInfo.fail` on the point that was found. The table keeps its keys and values:
a lookup writes to the cache at most. -/

/-- **`fiu_fail`** does what `PfInfo.fail` does with the point that the lookup finds, and nothing
    when there is none.  The point is not freed. -/
theorem fiuFail_eq {s : Fiu W} {L : Ledger ℕ} (hs : s.Valid P L) {caller : Caller}
    (hrec : caller.recCount = 0) (name : CString) :
    ∃ t t', s.enabledFails = some t ∧ t'.Follows P L ∧
      t'.toUncachedWtable = t.toUncachedWtable ∧
      ((s.lookup P name = some none ∧
        fiuFail P l s caller name = some (⟨some 0, []⟩, { s with enabledFails := some t' })) ∨
      ∃ id pf, s.lookup P name = some (some id) ∧ s.pfs[id]? = some pf ∧
        fiuFail P l s caller name
          = some ((pf.fail P l caller s.randdXn s.world).reply,
              s.afterFail t' caller id (pf.fail P l caller s.randdXn s.world))) := by
  obtain ⟨⟨t, ht, hfol⟩, ⟨given, hL, -⟩, hnamed, -⟩ := hs
  obtain ⟨found, c, hget, hget', hholds⟩ := wtableGet_eq hfol.holds name
  have hfol' : ({ t with wcache := c } : Wtable ℕ).Follows P L := ⟨hholds, hfol.destroyed⟩
  have hlook : s.lookup P name = some found := by rw [Fiu.lookup, ht]; exact hget'
  refine ⟨t, { t with wcache := c }, ht, hfol', rfl, ?_⟩
  cases found with
  | none => exact Or.inl ⟨hlook, by simp [fiuFail, hrec, ht, hget]⟩
  | some id =>
    obtain ⟨key, hkey⟩ := lookup_held hfol.holds.uncached hget'
    obtain ⟨pf, hpf, -⟩ := hnamed key id hkey
    have hat : s.pfAt { t with wcache := c } id = some pf := by
      rw [Fiu.pfAt, if_neg (not_destroyed_of_held hfol' hL hkey), hpf]
    exact Or.inr ⟨id, pf, hlook, hpf, by simp [fiuFail, hrec, ht, hget, hat]⟩

/-- A nested call does nothing. -/
theorem fiuFail_nested {s : Fiu W} {caller : Caller} (hrec : caller.recCount ≠ 0) (name : CString) :
    fiuFail P l s caller name = some (⟨some 0, []⟩, s) := by
  rw [fiuFail, if_pos (by omega)]

/-- A point that changes without changing its name leaves the library valid. -/
theorem Fiu.Valid.afterFail {s : Fiu W} {L : Ledger ℕ} (hs : s.Valid P L) {t' : Wtable ℕ}
    (ht' : t'.Follows P L) (caller : Caller) {id : ℕ} {pf : PfInfo W} (hpf : s.pfs[id]? = some pf)
    {call : PfCall W} (hname : call.pf.name = pf.name) :
    (s.afterFail t' caller id call).Valid P L where
  table := ⟨t', rfl, ht'⟩
  balanced := by
    obtain ⟨given, hL, hlt⟩ := hs.balanced
    exact ⟨given, hL, fun v hv => by
      show v < (s.pfs.set id call.pf).length
      rw [List.length_set]
      exact hlt v hv⟩
  named := hs.named.set hpf hname
  nonempty := by
    intro q hq
    rcases List.mem_or_eq_of_mem_set hq with h | rfl
    · exact hs.nonempty q h
    · rw [hname]
      exact hs.nonempty pf (List.mem_of_getElem? hpf)

/-- `fiu_fail` keeps the library valid, and is never undefined. -/
theorem fiuFail_valid {s : Fiu W} {L : Ledger ℕ} (hs : s.Valid P L) (caller : Caller)
    (name : CString) :
    ∃ r s', fiuFail P l s caller name = some (r, s') ∧ s'.Valid P L := by
  by_cases hrec : caller.recCount = 0
  · obtain ⟨t, t', -, ht', -, ⟨-, hf⟩ | ⟨id, pf, -, hpf, hf⟩⟩ :=
      fiuFail_eq (l := l) hs hrec name
    · exact ⟨_, _, hf, ⟨t', rfl, ht'⟩, hs.balanced, hs.named, hs.nonempty⟩
    · exact ⟨_, _, hf, hs.afterFail ht' caller hpf (PfInfo.fail_name caller pf _ _)⟩
  · exact ⟨_, s, fiuFail_nested hrec name, hs⟩

/-! ## Enabling and disabling

Two updates of the table, read through its map. -/

/-- **`insert_pf`** of a new point. -/
theorem insertPf_eq {s : Fiu W} {L : Ledger ℕ} (hs : s.Valid P L) {pf : PfInfo W}
    (hname : pf.name.bytes ≠ []) :
    ∃ t', insertPf P s pf = some (0, { s with enabledFails := some t', pfs := s.pfs ++ [pf] }) ∧
      Fiu.Valid P { s with enabledFails := some t', pfs := s.pfs ++ [pf] }
        (L.next (.set pf.name s.pfs.length)) := by
  obtain ⟨⟨t, ht, hfol⟩, ⟨given, hL, hlt⟩, hnamed, hnonempty⟩ := hs
  have hkey : (Call.set pf.name s.pfs.length : Call ℕ).key.bytes ≠ [] := hname
  obtain ⟨ws, hw, -⟩ := hfol.holds.uncached.array
  obtain ⟨t₁, hstep, -⟩ := wtableStep_spec hfol.holds hw (.set pf.name s.pfs.length) hkey
  obtain ⟨r, t', hstep', hfol'⟩ := wtableStep_ledger hfol (.set pf.name s.pfs.length) hkey
  rw [hstep, Option.some.injEq, Prod.mk.injEq] at hstep'
  obtain ⟨-, rfl⟩ := hstep'
  obtain ⟨⟨ok, t₂⟩, hset, he⟩ := Option.map_eq_some_iff.mp hstep
  cases he
  refine ⟨t₂, by simp [insertPf, ht, hset], ⟨t₂, rfl, hfol'⟩, ?_, ?_, ?_⟩
  · refine ⟨given ++ [s.pfs.length], Ledger.balanced_next hL _ ?_, ?_⟩
    · intro v hv hgiven
      rw [givenValues, givenValues, List.mem_singleton] at hv
      have := hlt v hgiven
      omega
    · intro v hv
      show v < (s.pfs ++ [pf]).length
      rw [List.length_append, List.length_singleton]
      rcases List.mem_append.mp hv with h | h
      · have := hlt v h
        omega
      · rw [List.mem_singleton.mp h]
        omega
  · intro key id hid
    have hid' : Function.update L.map pf.name (some s.pfs.length) key = some id := hid
    by_cases hk : key = pf.name
    · subst hk
      rw [Function.update_self] at hid'
      cases hid'
      exact ⟨pf, by simp, rfl⟩
    · rw [Function.update_of_ne hk] at hid'
      obtain ⟨q, hq, hn⟩ := hnamed key id hid'
      exact ⟨q, by rw [List.getElem?_append_left (List.getElem?_eq_some_iff.mp hq).1, hq], hn⟩
  · intro q hq
    rcases List.mem_append.mp hq with h | h
    · exact hnonempty q h
    · rw [List.mem_singleton.mp h]
      exact hname

/-- **`fiu_disable`** tells whether the point was enabled. -/
theorem fiuDisable_eq {s : Fiu W} {L : Ledger ℕ} (hs : s.Valid P L) {name : CString}
    (hname : name.bytes ≠ []) :
    ∃ t', fiuDisable P s name
        = some (if (L.map name).isSome then 0 else -1, { s with enabledFails := some t' }) ∧
      Fiu.Valid P { s with enabledFails := some t' } (L.next (.del name)) := by
  obtain ⟨⟨t, ht, hfol⟩, ⟨given, hL, hlt⟩, hnamed, hnonempty⟩ := hs
  have hkey : (Call.del name : Call ℕ).key.bytes ≠ [] := hname
  obtain ⟨ws, hw, -⟩ := hfol.holds.uncached.array
  obtain ⟨t₁, hstep, -⟩ := wtableStep_spec hfol.holds hw (.del name) hkey
  obtain ⟨r, t', hstep', hfol'⟩ := wtableStep_ledger hfol (.del name) hkey
  rw [hstep, Option.some.injEq, Prod.mk.injEq] at hstep'
  obtain ⟨-, rfl⟩ := hstep'
  obtain ⟨⟨ok, t₂⟩, hdel, he⟩ := Option.map_eq_some_iff.mp hstep
  obtain rfl : t₂ = t₁ := (Prod.mk.inj he).2
  obtain rfl : ok = (L.map name).isSome := Reply.bool.inj (Prod.mk.inj he).1
  refine ⟨t₂, by simp [fiuDisable, ht, hdel], ⟨t₂, rfl, hfol'⟩, ?_, ?_, hnonempty⟩
  · exact ⟨given ++ [], Ledger.balanced_next hL (.del name) (fun v hv => absurd hv List.not_mem_nil),
      by rw [List.append_nil]; exact hlt⟩
  · intro key id hid
    have hid' : Function.update L.map name none key = some id := hid
    by_cases hk : key = name
    · subst hk
      rw [Function.update_self] at hid'
      cases hid'
    · rw [Function.update_of_ne hk] at hid'
      exact hnamed key id hid'

/-! ## Calls

What the results about calls ask of one: its name, and whether it enables. -/

/-- The name of a call. -/
def FiuCall.name : FiuCall W → CString
  | .fail _ name => name
  | .enable name _ _ _ => name
  | .enableRandom name _ _ _ _ => name
  | .enableExternal name _ _ _ _ => name
  | .enableStack name _ _ _ _ _ => name
  | .enableStackByName name _ _ _ _ _ => name
  | .disable name => name

/-- The call is one of the `fiu_enable` functions. -/
def FiuCall.enables : FiuCall W → Bool
  | .fail _ _ => false
  | .disable _ => false
  | _ => true

/-! ## Calls that are refused

Two of the enabling functions look at their arguments before they create a point. All others do not,
so an enabling call is either refused without a trace or an `insert_pf`. -/

/-- `fiu_enable_stack` returns before it creates a point. -/
def stackRefused (l : Linker) (func : Addr) (funcPosInStack : ℤ) : Bool :=
  funcPosInStack ≠ -1 ∨ l.backtraceWorks = false ∨ (l.getFuncEnd func = 0 ∧ l.getFuncStart func = 0)

/-- The call returns before it looks at the name. -/
def FiuCall.refused (l : Linker) : FiuCall W → Bool
  | .enableStack _ _ _ _ func funcPosInStack => stackRefused l func funcPosInStack
  | .enableStackByName _ _ _ _ funcName funcPosInStack =>
    l.backtraceWorks = false ∨ l.getFuncAddr funcName = 0 ∨
      stackRefused l (l.getFuncAddr funcName) funcPosInStack
  | _ => false

/-- **`fiu_enable_stack`** is refused, or it is `insert_pf`. -/
theorem fiuEnableStack_eq (s : Fiu W) (name : CString) (failnum : ℤ) (failinfo : Addr) (flags : UInt32)
    (func : Addr) (funcPosInStack : ℤ) :
    fiuEnableStack P l s name failnum failinfo flags func funcPosInStack =
      if stackRefused l func funcPosInStack then some (-1, s)
      else insertPf P s (pfCreate name failnum failinfo flags
        (.stack ⟨func, l.getFuncEnd func, funcPosInStack⟩)) := by
  unfold fiuEnableStack stackRefused
  simp only [decide_eq_true_eq]
  split_ifs <;> tauto

/-- **`fiu_enable_stack_by_name`** is refused, or it is `insert_pf`. -/
theorem fiuEnableStackByName_eq (s : Fiu W) (name : CString) (failnum : ℤ) (failinfo : Addr)
    (flags : UInt32) (funcName : String) (funcPosInStack : ℤ) :
    fiuEnableStackByName P l s name failnum failinfo flags funcName funcPosInStack =
      if FiuCall.refused (W := W) l
        (.enableStackByName name failnum failinfo flags funcName funcPosInStack) then some (-1, s)
      else insertPf P s (pfCreate name failnum failinfo flags
        (.stack ⟨l.getFuncAddr funcName, l.getFuncEnd (l.getFuncAddr funcName), funcPosInStack⟩)) := by
  unfold fiuEnableStackByName FiuCall.refused
  rw [fiuEnableStack_eq]
  simp only [decide_eq_true_eq]
  split_ifs <;> tauto

/-- The failinfo of an enabling call. -/
def FiuCall.failinfo : FiuCall W → Option Addr
  | .enable _ _ failinfo _ => some failinfo
  | .enableRandom _ _ failinfo _ _ => some failinfo
  | .enableExternal _ _ failinfo _ _ => some failinfo
  | .enableStack _ _ failinfo _ _ _ => some failinfo
  | .enableStackByName _ _ failinfo _ _ _ => some failinfo
  | _ => none

/-- Enabling calls are those with a failinfo. -/
theorem FiuCall.failinfo_isSome (call : FiuCall W) : call.failinfo.isSome = call.enables := by
  cases call <;> rfl

/-- **An enabling call** is refused, or it is `insert_pf` of a new point of its name. -/
theorem fiuStep_enabling {call : FiuCall W} (h : call.enables = true) :
    ∃ pf : PfInfo W, pf.name = call.name ∧ call.failinfo = some pf.failinfo ∧ ∀ s, fiuStep P l s call =
      if call.refused l then some (.int (-1), s)
      else (insertPf P s pf).map fun r => (.int r.1, r.2) := by
  cases call with
  | fail caller name => cases h
  | disable name => cases h
  | enable name failnum failinfo flags => exact ⟨_, rfl, rfl, fun _ => rfl⟩
  | enableRandom name failnum failinfo flags probability => exact ⟨_, rfl, rfl, fun _ => rfl⟩
  | enableExternal name failnum failinfo flags externalCb => exact ⟨_, rfl, rfl, fun _ => rfl⟩
  | enableStack name failnum failinfo flags func funcPosInStack =>
    refine ⟨pfCreate name failnum failinfo flags (.stack ⟨func, l.getFuncEnd func, funcPosInStack⟩),
      rfl, rfl, fun s => ?_⟩
    rw [fiuStep, fiuEnableStack_eq]
    by_cases hr : stackRefused l func funcPosInStack = true
    · rw [if_pos hr, FiuCall.refused, if_pos hr]
      rfl
    · rw [if_neg hr, FiuCall.refused, if_neg hr]
  | enableStackByName name failnum failinfo flags funcName funcPosInStack =>
    refine ⟨pfCreate name failnum failinfo flags (.stack
      ⟨l.getFuncAddr funcName, l.getFuncEnd (l.getFuncAddr funcName), funcPosInStack⟩),
      rfl, rfl, fun s => ?_⟩
    rw [fiuStep, fiuEnableStackByName_eq]
    by_cases hr : FiuCall.refused (W := W) l
      (.enableStackByName name failnum failinfo flags funcName funcPosInStack) = true
    · rw [if_pos hr, if_pos hr]
      rfl
    · rw [if_neg hr, if_neg hr]

/-! ## Every call

A call with a name is defined and keeps the library valid. -/

/-- Every call with a name keeps the library valid, and is never undefined. -/
theorem fiuStep_valid {s : Fiu W} {L : Ledger ℕ} (hs : s.Valid P L) (call : FiuCall W)
    (hname : call.name.bytes ≠ []) :
    ∃ r s' L', fiuStep P l s call = some (r, s') ∧ s'.Valid P L' := by
  by_cases henables : call.enables = true
  · obtain ⟨pf, hn, -, hstep⟩ := fiuStep_enabling (P := P) (l := l) henables
    by_cases hr : call.refused l = true
    · exact ⟨_, s, L, by rw [hstep, if_pos hr], hs⟩
    · obtain ⟨t', hi, hv⟩ := insertPf_eq hs (show pf.name.bytes ≠ [] by rw [hn]; exact hname)
      exact ⟨.int 0, _, _, by rw [hstep, if_neg hr, hi]; rfl, hv⟩
  · cases call with
    | fail caller name =>
      obtain ⟨r, s', hf, hv⟩ := fiuFail_valid (l := l) hs caller name
      exact ⟨.fail r, s', L, by rw [fiuStep, hf]; rfl, hv⟩
    | disable name =>
      have hname' : name.bytes ≠ [] := hname
      obtain ⟨t', hd, hv⟩ := fiuDisable_eq hs hname'
      exact ⟨_, _, _, by rw [fiuStep, hd]; rfl, hv⟩
    | _ => exact absurd rfl henables

end Libfiu
