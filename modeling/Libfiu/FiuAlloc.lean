/-
  The control functions of libfiu/fiu.c when an allocation fails.

  1. **Program** — the functions of `Fiu` once more, with the outcomes of all allocations that a call
     may make (`FiuMallocs`): `pf_create` makes two and returns NULL when one of them fails, and the
     callers return -1 then (`createAndInsert`); `wtable_set` copies the key and may resize an array.
     A copy of the key that fails is not checked: `strlen` reads through NULL.

  2. **The condition** — `TableAllocates`: wtable.c gets the memory that it asks for.  It is a condition
     on the state before the call, for whether an array is resized depends on it.  Without it an array
     is left NULL (`wtable_call_atomic_iff`, `hash_call_atomic_iff`).

  3. **Correctness** — `fiuStepAlloc_eq`: under that condition a call is what it is in `Fiu`, or it is
     refused without effect because `pf_create` had no memory.  When everything is there, the two are the
     same functions (`fiuStepAlloc_ok`).

  The two parts of an enabling call fail in different ways, and that is why they are kept apart.
  When `pf_create` has no memory, nothing was touched yet and the caller returns -1; a program can
  go on from there. When wtable.c has none, an array is NULL from then on, and the next call that
  comes to it reads through NULL.
-/
import Libfiu.FiuRequest
import Libfiu.WtableAlloc
import Libfiu.HashResize

namespace Libfiu

variable {W : Type} {P : Platform} {l : Linker}

/-! ## The functions

They differ from those of `Fiu` where something is allocated, and in nothing else. -/

/-- The outcomes of the allocations that one call may make. -/
structure FiuMallocs where
  /-- `malloc` of the `struct pf_info`, in `pf_create`. -/
  pf : Bool
  /-- `strdup` of its name, in `pf_create`. -/
  name : Bool
  /-- `strdup` of the key, in `wtable_set` or `hash_set`. -/
  key : Bool
  /-- The arrays of the table. -/
  table : Mallocs
  deriving DecidableEq

/-- All allocations succeed. -/
def FiuMallocs.ok : FiuMallocs := ⟨true, true, true, .ok⟩

/-- `pf_create`, with the method filled in: NULL when one of its allocations fails. -/
def pfCreateAlloc (malloc : FiuMallocs) (name : CString) (failnum : ℤ) (failinfo : Addr)
    (flags : UInt32) (method : Method W) : Option (PfInfo W) :=
  if malloc.pf then
    if malloc.name then some (pfCreate name failnum failinfo flags method) else none
  else none

/-- `wtable_set`.  When `strdup` fails, `strlen` of NULL is undefined; the array of wildcards is resized
    before that. -/
def wtableSetAlloc (P : Platform) (malloc : FiuMallocs) (t : Wtable ℕ) (key : CString)
    (value : Option ℕ) : Option (Bool × Wtable ℕ) :=
  if malloc.key then wtableSet P malloc.table t key value
  else do
    if ← isWildcard key key.strlen then
      let (ok, t) ← t.grow P malloc.table
      if ok then none else some (false, t)
    else none

/-- `insert_pf`. -/
def insertPfAlloc (P : Platform) (malloc : FiuMallocs) (s : Fiu W) (pf : PfInfo W) :
    Option (ℤ × Fiu W) := do
  let t ← s.enabledFails
  let (success, t) ← wtableSetAlloc P malloc t pf.name (some s.pfs.length)
  some (if success then 0 else -1, { s with enabledFails := some t, pfs := s.pfs ++ [pf] })

/-- What the enabling functions do with what `pf_create` returned. -/
def createAndInsert (P : Platform) (malloc : FiuMallocs) (s : Fiu W) (pf : Option (PfInfo W)) :
    Option (ℤ × Fiu W) :=
  match pf with
  | none => some (-1, s)
  | some pf => insertPfAlloc P malloc s pf

/-- `fiu_enable`. -/
def fiuEnableAlloc (P : Platform) (malloc : FiuMallocs) (s : Fiu W) (name : CString) (failnum : ℤ)
    (failinfo : Addr) (flags : UInt32) : Option (ℤ × Fiu W) :=
  createAndInsert P malloc s (pfCreateAlloc malloc name failnum failinfo flags .always)

/-- `fiu_enable_random`. -/
def fiuEnableRandomAlloc (P : Platform) (malloc : FiuMallocs) (s : Fiu W) (name : CString)
    (failnum : ℤ) (failinfo : Addr) (flags : UInt32) (probability : ℚ) : Option (ℤ × Fiu W) :=
  createAndInsert P malloc s (pfCreateAlloc malloc name failnum failinfo flags (.prob probability))

/-- `fiu_enable_external`. -/
def fiuEnableExternalAlloc (P : Platform) (malloc : FiuMallocs) (s : Fiu W) (name : CString)
    (failnum : ℤ) (failinfo : Addr) (flags : UInt32) (externalCb : ExternalCb W) :
    Option (ℤ × Fiu W) :=
  createAndInsert P malloc s (pfCreateAlloc malloc name failnum failinfo flags (.external externalCb))

/-- `fiu_enable_stack`. -/
def fiuEnableStackAlloc (P : Platform) (l : Linker) (malloc : FiuMallocs) (s : Fiu W)
    (name : CString) (failnum : ℤ) (failinfo : Addr) (flags : UInt32) (func : Addr)
    (funcPosInStack : ℤ) : Option (ℤ × Fiu W) :=
  if funcPosInStack ≠ -1 then some (-1, s)
  else if l.backtraceWorks = false then some (-1, s)
  else if l.getFuncEnd func = 0 ∧ l.getFuncStart func = 0 then some (-1, s)
  else createAndInsert P malloc s (pfCreateAlloc malloc name failnum failinfo flags
    (.stack ⟨func, l.getFuncEnd func, funcPosInStack⟩))

/-- `fiu_enable_stack_by_name`. -/
def fiuEnableStackByNameAlloc (P : Platform) (l : Linker) (malloc : FiuMallocs) (s : Fiu W)
    (name : CString) (failnum : ℤ) (failinfo : Addr) (flags : UInt32) (funcName : String)
    (funcPosInStack : ℤ) : Option (ℤ × Fiu W) :=
  if l.backtraceWorks = false then some (-1, s)
  else if l.getFuncAddr funcName = 0 then some (-1, s)
  else fiuEnableStackAlloc P l malloc s name failnum failinfo flags (l.getFuncAddr funcName)
    funcPosInStack

/-- `fiu_disable`. -/
def fiuDisableAlloc (P : Platform) (malloc : FiuMallocs) (s : Fiu W) (name : CString) :
    Option (ℤ × Fiu W) := do
  let t ← s.enabledFails
  let (success, t) ← wtableDel P malloc.table t name
  some (if success then 0 else -1, { s with enabledFails := some t })

/-- One call, with the outcomes of its allocations. -/
def fiuStepAlloc (P : Platform) (l : Linker) (s : Fiu W) :
    FiuMallocs × FiuCall W → Option (FiuReply × Fiu W)
  | (_, .fail caller name) => fiuStep P l s (.fail caller name)
  | (malloc, .enable name failnum failinfo flags) =>
    (fiuEnableAlloc P malloc s name failnum failinfo flags).map fun r => (.int r.1, r.2)
  | (malloc, .enableRandom name failnum failinfo flags probability) =>
    (fiuEnableRandomAlloc P malloc s name failnum failinfo flags probability).map
      fun r => (.int r.1, r.2)
  | (malloc, .enableExternal name failnum failinfo flags externalCb) =>
    (fiuEnableExternalAlloc P malloc s name failnum failinfo flags externalCb).map
      fun r => (.int r.1, r.2)
  | (malloc, .enableStack name failnum failinfo flags func funcPosInStack) =>
    (fiuEnableStackAlloc P l malloc s name failnum failinfo flags func funcPosInStack).map
      fun r => (.int r.1, r.2)
  | (malloc, .enableStackByName name failnum failinfo flags funcName funcPosInStack) =>
    (fiuEnableStackByNameAlloc P l malloc s name failnum failinfo flags funcName funcPosInStack).map
      fun r => (.int r.1, r.2)
  | (malloc, .disable name) => (fiuDisableAlloc P malloc s name).map fun r => (.int r.1, r.2)

/-! ## The conditions

Which allocations a call makes is known before it: `pf_create` always makes two, and wtable.c copies
the key and may resize one of its arrays. -/

/-- `pf_create` gets its memory. -/
def FiuMallocs.creates (malloc : FiuMallocs) : Bool := malloc.pf && malloc.name

/-- The call comes to `pf_create`, which returns NULL. -/
def FiuCall.lacksMemory (l : Linker) (call : FiuMallocs × FiuCall W) : Bool :=
  call.2.enables && !call.2.refused l && !call.1.creates

/-- The call of wtable.c that a call of the library comes to. -/
def FiuCall.tableCall (l : Linker) (s : Fiu W) (call : FiuMallocs × FiuCall W) : Option (Call ℕ) :=
  match call.2 with
  | .fail _ _ => none
  | .disable name => some (.del name)
  | c => if c.refused l || !call.1.creates then none else some (.set c.name s.pfs.length)

/-- The same call of the finals, whose values may be NULL. -/
def finalsCall : Call ℕ → Call (Option ℕ)
  | .set key value => .set key (some value)
  | .del key => .del key
  | .get key => .get key

/-- wtable.c gets the memory for one of its calls: for a resize, if there is one. -/
def WtableAllocates (P : Platform) (t : Wtable ℕ) (call : Mallocs × Call ℕ) : Prop :=
  if call.2.key.isWild then
    t.toUncachedWtable.resizes P call.2 = true → call.1.wildcards = true ∧ call.1.cache = true
  else HashAllocates P t.finals (call.1.finals, finalsCall call.2)

instance (t : Wtable ℕ) (call : Mallocs × Call ℕ) : Decidable (WtableAllocates P t call) :=
  inferInstanceAs (Decidable (if call.2.key.isWild then
    t.toUncachedWtable.resizes P call.2 = true → call.1.wildcards = true ∧ call.1.cache = true
    else HashAllocates P t.finals (call.1.finals, finalsCall call.2)))

/-- **wtable.c gets the memory that it asks for** in a call of the library: for a copy of the key of a
    point that is enabled, and for a resize. -/
def TableAllocates (P : Platform) (l : Linker) (s : Fiu W) (call : FiuMallocs × FiuCall W) : Prop :=
  ∀ c ∈ FiuCall.tableCall l s call,
    (call.2.enables = true → call.1.key = true) ∧
      ∀ t ∈ s.enabledFails, WtableAllocates P t (call.1.table, c)

instance (s : Fiu W) (call : FiuMallocs × FiuCall W) : Decidable (TableAllocates P l s call) :=
  inferInstanceAs (Decidable (∀ c ∈ FiuCall.tableCall l s call,
    (call.2.enables = true → call.1.key = true) ∧
      ∀ t ∈ s.enabledFails, WtableAllocates P t (call.1.table, c)))

/-! ## The table with memory

A call of wtable.c that gets its memory is one of a run in which all allocations succeed.

The outcomes of allocations that a call does not make are free in the condition, as they are in the
program. -/

/-- **A call of the table that gets its memory** is the call of the runs in which every allocation
    succeeds. -/
theorem mallocStep_allocates {t : Wtable ℕ} {M : CString → Option ℕ} (ht : t.Holds P M)
    {malloc : Mallocs} {call : Call ℕ} (hkey : call.key.bytes ≠ [])
    (h : WtableAllocates P t (malloc, call)) :
    mallocStep P t (malloc, call) = wtableStep P t call := by
  by_cases hwild : call.key.isWild
  · rw [WtableAllocates, if_pos hwild] at h
    exact mallocStep_eq t malloc call hkey (by rw [Allocates, if_pos hwild]; exact h)
  · rw [WtableAllocates, if_neg hwild] at h
    obtain ⟨entries, hw, -, hroom⟩ := ht.uncached.finals
    have hready : t.finals.Ready P := ⟨entries, hw, hroom⟩
    have hfinals := hready.allocates h
    cases call with
    | get key => rfl
    | set key value =>
      have hkey' : key.bytes ≠ [] := hkey
      have hset : hashSet P malloc.finals t.finals key (some value)
          = hashSet P true t.finals key (some value) :=
        Option.map_injective (fun a b h => by
          cases a
          cases b
          cases h
          rfl) hfinals
      simp [mallocStep, wtableStep, wtableSet, isWildcard_strlen hkey', show ¬ key.isWild from hwild,
        hset, Mallocs.ok]
    | del key =>
      have hkey' : key.bytes ≠ [] := hkey
      have hdel : hashDel P malloc.finals t.finals key = hashDel P true t.finals key :=
        Option.map_injective (fun a b h => by
          cases a
          cases b
          cases h
          rfl) hfinals
      simp [mallocStep, wtableStep, wtableDel, isWildcard_strlen hkey', show ¬ key.isWild from hwild,
        hdel, Mallocs.ok]

/-- `insert_pf` with memory. -/
theorem insertPfAlloc_eq {s : Fiu W} {L : Ledger ℕ} (hs : s.Valid P L) {malloc : FiuMallocs}
    {pf : PfInfo W} (hkey : malloc.key = true)
    (htable : ∀ t ∈ s.enabledFails, WtableAllocates P t (malloc.table, .set pf.name s.pfs.length)) :
    insertPfAlloc P malloc s pf = insertPf P s pf := by
  obtain ⟨t, ht, hf⟩ := hs.table
  by_cases hname : pf.name.bytes = []
  · rw [insertPf_empty hname]
    simp [insertPfAlloc, wtableSetAlloc, hkey, wtableSet, isWildcard_empty hname, ht]
  · have hkeyed : (Call.set pf.name s.pfs.length).key.bytes ≠ [] := hname
    have hstep := mallocStep_allocates hf.holds hkeyed (htable t ht)
    have hset : wtableSet P malloc.table t pf.name (some s.pfs.length)
        = wtableSet P .ok t pf.name (some s.pfs.length) :=
      Option.map_injective (fun a b h => by
        cases a
        cases b
        cases h
        rfl) hstep
    simp [insertPfAlloc, insertPf, wtableSetAlloc, hkey, ht, hset]

/-- `fiu_disable` with memory. -/
theorem fiuDisableAlloc_eq {s : Fiu W} {L : Ledger ℕ} (hs : s.Valid P L) {malloc : FiuMallocs}
    {name : CString} (htable : ∀ t ∈ s.enabledFails, WtableAllocates P t (malloc.table, .del name)) :
    fiuDisableAlloc P malloc s name = fiuDisable P s name := by
  obtain ⟨t, ht, hf⟩ := hs.table
  by_cases hname : name.bytes = []
  · rw [fiuDisable_empty hname]
    simp [fiuDisableAlloc, wtableDel, isWildcard_empty hname, ht]
  · have hkeyed : (Call.del name : Call ℕ).key.bytes ≠ [] := hname
    have hstep := mallocStep_allocates hf.holds hkeyed (htable t ht)
    have hdel : wtableDel P malloc.table t name = wtableDel P .ok t name :=
      Option.map_injective (fun a b h => by
        cases a
        cases b
        cases h
        rfl) hstep
    simp [fiuDisableAlloc, fiuDisable, ht, hdel]

/-! ## The calls

So what is left of a failing allocation is `pf_create`: the call returns -1, and nothing has
changed. -/

/-- What comes of `pf_create` and its callers. -/
theorem createAndInsert_eq (malloc : FiuMallocs) (s : Fiu W) (name : CString) (failnum : ℤ)
    (failinfo : Addr) (flags : UInt32) (method : Method W) :
    createAndInsert P malloc s (pfCreateAlloc malloc name failnum failinfo flags method) =
      if malloc.creates then
        insertPfAlloc P malloc s (pfCreate name failnum failinfo flags method)
      else some (-1, s) := by
  unfold pfCreateAlloc FiuMallocs.creates
  cases malloc.pf <;> cases malloc.name <;> rfl

/-- **`fiu_enable_stack`** is refused, or it comes to `pf_create`. -/
theorem fiuEnableStackAlloc_eq (malloc : FiuMallocs) (s : Fiu W) (name : CString) (failnum : ℤ)
    (failinfo : Addr) (flags : UInt32) (func : Addr) (funcPosInStack : ℤ) :
    fiuEnableStackAlloc P l malloc s name failnum failinfo flags func funcPosInStack =
      if stackRefused l func funcPosInStack then some (-1, s)
      else createAndInsert P malloc s (pfCreateAlloc malloc name failnum failinfo flags
        (.stack ⟨func, l.getFuncEnd func, funcPosInStack⟩)) := by
  unfold fiuEnableStackAlloc stackRefused
  simp only [decide_eq_true_eq]
  split_ifs <;> tauto

/-- **`fiu_enable_stack_by_name`** is refused, or it comes to `pf_create`. -/
theorem fiuEnableStackByNameAlloc_eq (malloc : FiuMallocs) (s : Fiu W) (name : CString) (failnum : ℤ)
    (failinfo : Addr) (flags : UInt32) (funcName : String) (funcPosInStack : ℤ) :
    fiuEnableStackByNameAlloc P l malloc s name failnum failinfo flags funcName funcPosInStack =
      if FiuCall.refused (W := W) l
        (.enableStackByName name failnum failinfo flags funcName funcPosInStack) then some (-1, s)
      else createAndInsert P malloc s (pfCreateAlloc malloc name failnum failinfo flags
        (.stack ⟨l.getFuncAddr funcName, l.getFuncEnd (l.getFuncAddr funcName), funcPosInStack⟩)) := by
  unfold fiuEnableStackByNameAlloc FiuCall.refused
  rw [fiuEnableStackAlloc_eq]
  simp only [decide_eq_true_eq]
  split_ifs <;> tauto

/-- **An enabling call** is refused, or `pf_create` has no memory, or it is `insert_pf` of the point
    that it makes when every allocation succeeds. -/
theorem fiuStepAlloc_enabling {call : FiuCall W} (h : call.enables = true) :
    ∃ pf : PfInfo W, pf.name = call.name ∧ call.failinfo = some pf.failinfo ∧
      (∀ s, fiuStep P l s call = if call.refused l then some (.int (-1), s)
        else (insertPf P s pf).map fun r => (.int r.1, r.2)) ∧
      ∀ malloc s, fiuStepAlloc P l s (malloc, call) = if call.refused l then some (.int (-1), s)
        else if malloc.creates then (insertPfAlloc P malloc s pf).map fun r => (.int r.1, r.2)
        else some (.int (-1), s) := by
  have hmap : ∀ (malloc : FiuMallocs) (s : Fiu W) (pf : PfInfo W),
      ((if malloc.creates then insertPfAlloc P malloc s pf else some (-1, s)).map
        fun r => (FiuReply.int r.1, r.2)) =
      if malloc.creates then (insertPfAlloc P malloc s pf).map fun r => (.int r.1, r.2)
        else some (.int (-1), s) := by
    intro malloc s pf
    cases malloc.creates <;> rfl
  cases call with
  | fail caller name => cases h
  | disable name => cases h
  | enable name failnum failinfo flags =>
    refine ⟨pfCreate name failnum failinfo flags .always, rfl, rfl, fun _ => rfl, fun malloc s => ?_⟩
    rw [fiuStepAlloc, fiuEnableAlloc, createAndInsert_eq, hmap]
    rfl
  | enableRandom name failnum failinfo flags probability =>
    refine ⟨pfCreate name failnum failinfo flags (.prob probability), rfl, rfl, fun _ => rfl,
      fun malloc s => ?_⟩
    rw [fiuStepAlloc, fiuEnableRandomAlloc, createAndInsert_eq, hmap]
    rfl
  | enableExternal name failnum failinfo flags externalCb =>
    refine ⟨pfCreate name failnum failinfo flags (.external externalCb), rfl, rfl, fun _ => rfl,
      fun malloc s => ?_⟩
    rw [fiuStepAlloc, fiuEnableExternalAlloc, createAndInsert_eq, hmap]
    rfl
  | enableStack name failnum failinfo flags func funcPosInStack =>
    refine ⟨pfCreate name failnum failinfo flags (.stack ⟨func, l.getFuncEnd func, funcPosInStack⟩),
      rfl, rfl, fun s => ?_, fun malloc s => ?_⟩
    · rw [fiuStep, fiuEnableStack_eq, FiuCall.refused]
      cases stackRefused l func funcPosInStack <;> rfl
    · rw [fiuStepAlloc, fiuEnableStackAlloc_eq, createAndInsert_eq, FiuCall.refused]
      cases stackRefused l func funcPosInStack
      · exact hmap _ _ _
      · rfl
  | enableStackByName name failnum failinfo flags funcName funcPosInStack =>
    refine ⟨pfCreate name failnum failinfo flags (.stack
      ⟨l.getFuncAddr funcName, l.getFuncEnd (l.getFuncAddr funcName), funcPosInStack⟩),
      rfl, rfl, fun s => ?_, fun malloc s => ?_⟩
    · rw [fiuStep, fiuEnableStackByName_eq]
      cases FiuCall.refused (W := W) l
        (.enableStackByName name failnum failinfo flags funcName funcPosInStack) <;> rfl
    · rw [fiuStepAlloc, fiuEnableStackByNameAlloc_eq, createAndInsert_eq]
      cases FiuCall.refused (W := W) l
        (.enableStackByName name failnum failinfo flags funcName funcPosInStack)
      · exact hmap _ _ _
      · rfl

/-- **With memory for the table** a call is what it is when every allocation succeeds, or it is an
    enabling call for which `pf_create` has no memory, and has no effect. -/
theorem fiuStepAlloc_eq {s : Fiu W} {L : Ledger ℕ} (hs : s.Valid P L) {call : FiuMallocs × FiuCall W}
    (h : TableAllocates P l s call) :
    fiuStepAlloc P l s call =
      if FiuCall.lacksMemory l call then some (.int (-1), s) else fiuStep P l s call.2 := by
  obtain ⟨malloc, call⟩ := call
  by_cases henables : call.enables = true
  · obtain ⟨pf, hpf, -, hstep, halloc⟩ := fiuStepAlloc_enabling (P := P) (l := l) henables
    rw [halloc, hstep, FiuCall.lacksMemory, henables]
    by_cases hrefused : call.refused l = true
    · simp [hrefused]
    · rw [Bool.not_eq_true] at hrefused
      by_cases hcreates : malloc.creates = true
      · -- it comes to `wtable_set`
        have htable : FiuCall.tableCall l s (malloc, call) = some (.set pf.name s.pfs.length) := by
          unfold FiuCall.tableCall
          cases call with
          | fail caller name => cases henables
          | disable name => cases henables
          | _ => simp only [hrefused, hcreates, hpf]; rfl
        obtain ⟨hkey, hmemory⟩ := h _ htable
        simp [hrefused, hcreates, insertPfAlloc_eq hs (hkey henables) hmemory]
      · rw [Bool.not_eq_true] at hcreates
        simp [hrefused, hcreates]
  · have hno : FiuCall.lacksMemory l (malloc, call) = false := by
      rw [Bool.not_eq_true] at henables
      rw [FiuCall.lacksMemory, henables]
      rfl
    rw [hno, if_neg Bool.false_ne_true]
    cases call with
    | fail caller name => rfl
    | disable name =>
      obtain ⟨-, hmemory⟩ := h _ rfl
      rw [fiuStepAlloc, fiuDisableAlloc_eq hs hmemory]
      rfl
    | _ => exact absurd rfl henables

/-- **When every allocation succeeds**, the calls are those of `Fiu`, in any state. -/
theorem fiuStepAlloc_ok (s : Fiu W) (call : FiuCall W) :
    fiuStepAlloc P l s (.ok, call) = fiuStep P l s call := by
  by_cases henables : call.enables = true
  · obtain ⟨pf, -, -, hstep, halloc⟩ := fiuStepAlloc_enabling (P := P) (l := l) henables
    rw [halloc, hstep]
    rfl
  · cases call with
    | fail caller name => rfl
    | disable name => rfl
    | _ => exact absurd rfl henables

end Libfiu
