/-
  The Python bindings: fiu.py over fiu_ll.c over fiu.c, and the references that fiu.py keeps.

  The C table stores the pointer of a Python object for each point, the failinfo or the callback, and
  does not count it as a reference.  fiu.py keeps one in `_fi_table`, under the name of the point.

  1. **Program** — `PyFiu` has both tables.  `enable` and its three siblings are `PyFiu.enableWith`: the
     object goes into `_fi_table` first, then the arguments are parsed and the C function is called, and
     when that does not return 0 the entry is deleted.  Nothing is undone when an argument is refused.
     The C function may return -1 because it is refused, or because `pf_create` has no memory: each call
     comes with the outcomes of its allocations.

  2. **Specification** — `PyFiu.Referenced`: what a point in the C table points to is what `_fi_table` has
     under the name of the point.

  3. **Correctness** — `references_kept_iff`: as long as wtable.c gets its memory, the tables agree after
     each call of a sequence exactly when no call that fails names a point that is enabled, up to a call
     that is refused for an argument and passes the object that the point has already.  The old entry
     stays in force in the C table, and `_fi_table` does not have its object any more.

  Python's own allocations succeed, no object changes while a call looks at it, and a key of
  `_fi_table` is one that a dictionary can have; a name that cannot be one raises before anything is
  done. Names that are equal as keys are equal as C strings only if they are `str`; that is what
  `parseS` sees to, and why a number as a name can put an entry into `_fi_table` but no point into
  the C table.
-/
import Libfiu.FiuAlloc

namespace Libfiu

variable {W : Type} {P : Platform} {l : Linker}

/-! ## Objects

As much of Python as the module needs: objects with an address, and when two of them are one key of
a dictionary. -/

/-- What the formats of `PyArg_ParseTuple` see of an object. -/
inductive PyValue where
  /-- A `str` that has a UTF-8 form. -/
  | str (value : String)
  | int (value : ℤ)
  | float (value : ℚ)
  /-- A `float` that is not a finite number, greater than all the others or not. -/
  | notFinite (greater : Bool)
  /-- An object that no format but `O` takes.  Objects that are equal have the same number; there is
      none when it cannot be the key of a dictionary. -/
  | other (hash : Option ℕ)
  deriving DecidableEq

/-- A Python object: its address, its value, and whether it can be called. -/
structure PyObject where
  id : Addr
  value : PyValue
  callable : Bool
  deriving DecidableEq

/-- A key of a dictionary.  Numbers are equal whatever their type is. -/
inductive PyKey where
  | str (value : String)
  | num (value : ℚ)
  | notFinite (greater : Bool)
  | other (hash : ℕ)
  deriving DecidableEq

/-- The key that an object is. -/
def PyObject.key (o : PyObject) : Option PyKey :=
  match o.value with
  | .str value => some (.str value)
  | .int value => some (.num value)
  | .float value => some (.num value)
  | .notFinite greater => some (.notFinite greater)
  | .other hash => hash.map .other

/-- The UTF-8 form of a string. -/
def utf8 (s : String) : List UInt8 := s.toByteArray.data.toList

theorem utf8_injective : Function.Injective utf8 := by
  intro s t h
  have hdata : s.toByteArray.data = t.toByteArray.data := Array.toList_inj.mp h
  exact String.toByteArray_inj.mp (ByteArray.ext hdata)

/-! ## `PyArg_ParseTuple`

Each format accepts some objects and gives the C value of them; none is a `TypeError`. -/

/-- The format `s`: a `str` without a NUL. -/
def parseS (o : PyObject) : Option CString :=
  match o.value with
  | .str value => if h : (0 : UInt8) ∉ utf8 value then some ⟨utf8 value, h⟩ else none
  | _ => none

/-- The format `i`: an integer that is an `int`. -/
def parseI (o : PyObject) : Option ℤ :=
  match o.value with
  | .int value => if -2 ^ 31 ≤ value ∧ value < 2 ^ 31 then some value else none
  | _ => none

/-- The format `I`: an integer, without a check for overflow. -/
def parseU (o : PyObject) : Option UInt32 :=
  match o.value with
  | .int value => some (UInt32.ofNat (value % 2 ^ 32).toNat)
  | _ => none

/-- The format `d`: a number that is a `double`.  A number that is not finite is compared with numbers
    between 0 and 1 only, like 2 or -1. -/
def parseD (P : Platform) (o : PyObject) : Option ℚ :=
  match o.value with
  | .float value => some value
  | .notFinite greater => some (if greater then 2 else -1)
  | .int value => if value.natAbs < 2 ^ 1024 - 2 ^ 970 then some (P.double.round value) else none
  | _ => none

/-! ## fiu_ll.c

The five wrappers in C: they parse their arguments and make one call of the library. -/

/-- `external_callback`: the object behind `failinfo` is called with the name, the number and the
    flags; `pyCall` is what that does, 0 when it raises. -/
def externalCallback (pyCall : W → Addr → CString → ℤ → UInt32 → ℤ × W) : ExternalCb W :=
  fun world name failnum failinfo flags =>
    let (rv, world) := pyCall world failinfo name failnum flags
    (⟨rv, failnum, failinfo, flags⟩, world)

/-- `enable`: the call, none when an argument is refused. -/
def llEnable (name failnum failinfo flags : PyObject) : Option (FiuCall W) := do
  some (.enable (← parseS name) (← parseI failnum) failinfo.id (← parseU flags))

/-- `enable_random`. -/
def llEnableRandom (P : Platform) (name failnum failinfo flags probability : PyObject) :
    Option (FiuCall W) := do
  some (.enableRandom (← parseS name) (← parseI failnum) failinfo.id (← parseU flags)
    (P.single.round (← parseD P probability)))

/-- `enable_external`: the callback takes the place of the failinfo. -/
def llEnableExternal (pyCall : W → Addr → CString → ℤ → UInt32 → ℤ × W)
    (name failnum flags cb : PyObject) : Option (FiuCall W) := do
  let name ← parseS name
  let failnum ← parseI failnum
  let flags ← parseU flags
  if cb.callable then some (.enableExternal name failnum cb.id flags (externalCallback pyCall))
  else none

/-- `enable_stack_by_name`. -/
def llEnableStackByName (name failnum failinfo flags funcName posInStack : PyObject) :
    Option (FiuCall W) := do
  some (.enableStackByName (← parseS name) (← parseI failnum) failinfo.id (← parseU flags)
    (← parseS funcName).symbol (← parseI posInStack))

/-- `disable`. -/
def llDisable (name : PyObject) : Option (FiuCall W) := (parseS name).map .disable

/-! ## fiu.py

The module changes `_fi_table` before it makes the call, and takes that back when it fails.

An exception of `PyArg_ParseTuple` leaves the function in the middle, and the new entry where it is.
-/

/-- The module and the library. -/
structure PyFiu (W : Type) where
  fiTable : PyKey → Option PyObject
  fiu : Fiu W

/-- How a function of fiu.py ends. -/
inductive PyReply where
  | returned
  /-- `RuntimeError`, with what the C function returned. -/
  | runtimeError (r : ℤ)
  /-- The exception for an argument that is refused. -/
  | refused
  deriving DecidableEq

/-- `if r != 0`. -/
def FiuReply.nonzero : FiuReply → Bool
  | .int r => r ≠ 0
  | .fail _ => false

/-- `raise RuntimeError(r)`. -/
def FiuReply.raise : FiuReply → PyReply
  | .int r => .runtimeError r
  | .fail _ => .returned

/-- `enable` and its siblings: `value` is put under the name before `call` is made. -/
def PyFiu.enableWith (P : Platform) (l : Linker) (malloc : FiuMallocs) (s : PyFiu W)
    (name value : PyObject) (call : Option (FiuCall W)) : Option (PyReply × PyFiu W) :=
  match name.key, call with
  | none, _ => some (.refused, s)
  | some key, none => some (.refused, { s with fiTable := Function.update s.fiTable key (some value) })
  | some key, some call => do
    let (r, fiu) ← fiuStepAlloc P l s.fiu (malloc, call)
    if r.nonzero then some (r.raise, ⟨Function.update s.fiTable key none, fiu⟩)
    else some (.returned, ⟨Function.update s.fiTable key (some value), fiu⟩)

/-- `enable`. -/
def PyFiu.enable (P : Platform) (l : Linker) (malloc : FiuMallocs) (s : PyFiu W)
    (name failnum failinfo flags : PyObject) : Option (PyReply × PyFiu W) :=
  s.enableWith P l malloc name failinfo (llEnable name failnum failinfo flags)

/-- `enable_random`. -/
def PyFiu.enableRandom (P : Platform) (l : Linker) (malloc : FiuMallocs) (s : PyFiu W)
    (name probability failnum failinfo flags : PyObject) : Option (PyReply × PyFiu W) :=
  s.enableWith P l malloc name failinfo (llEnableRandom P name failnum failinfo flags probability)

/-- `enable_external`. -/
def PyFiu.enableExternal (P : Platform) (l : Linker)
    (pyCall : W → Addr → CString → ℤ → UInt32 → ℤ × W) (malloc : FiuMallocs) (s : PyFiu W)
    (name cb failnum flags : PyObject) : Option (PyReply × PyFiu W) :=
  s.enableWith P l malloc name cb (llEnableExternal pyCall name failnum flags cb)

/-- `enable_stack_by_name`. -/
def PyFiu.enableStackByName (P : Platform) (l : Linker) (malloc : FiuMallocs) (s : PyFiu W)
    (name funcName failnum failinfo flags posInStack : PyObject) : Option (PyReply × PyFiu W) :=
  s.enableWith P l malloc name failinfo
    (llEnableStackByName name failnum failinfo flags funcName posInStack)

/-- `disable`: the entry is deleted first, if there is one. -/
def PyFiu.disable (P : Platform) (l : Linker) (malloc : FiuMallocs) (s : PyFiu W) (name : PyObject) :
    Option (PyReply × PyFiu W) :=
  match name.key, llDisable name with
  | none, _ => some (.refused, s)
  | some key, none => some (.refused, { s with fiTable := Function.update s.fiTable key none })
  | some key, some call => do
    let (r, fiu) ← fiuStepAlloc P l s.fiu (malloc, call)
    let s : PyFiu W := ⟨Function.update s.fiTable key none, fiu⟩
    if r.nonzero then some (r.raise, s) else some (.returned, s)

/-- A call of one of the five functions; an argument that is not given has its default. -/
inductive PyCall where
  | enable (name failnum failinfo flags : PyObject)
  | enableRandom (name probability failnum failinfo flags : PyObject)
  | enableExternal (name cb failnum flags : PyObject)
  | enableStackByName (name funcName failnum failinfo flags posInStack : PyObject)
  | disable (name : PyObject)

/-- One call, with the outcomes of the allocations in the C function. -/
def pyStep (P : Platform) (l : Linker) (pyCall : W → Addr → CString → ℤ → UInt32 → ℤ × W)
    (s : PyFiu W) : FiuMallocs × PyCall → Option (PyReply × PyFiu W)
  | (malloc, .enable name failnum failinfo flags) => s.enable P l malloc name failnum failinfo flags
  | (malloc, .enableRandom name probability failnum failinfo flags) =>
    s.enableRandom P l malloc name probability failnum failinfo flags
  | (malloc, .enableExternal name cb failnum flags) =>
    s.enableExternal P l pyCall malloc name cb failnum flags
  | (malloc, .enableStackByName name funcName failnum failinfo flags posInStack) =>
    s.enableStackByName P l malloc name funcName failnum failinfo flags posInStack
  | (malloc, .disable name) => s.disable P l malloc name

/-- After `import fiu`, which calls `fiu_init`. -/
def imported (world : W) (garbage : ℕ) (seed : UInt32) : PyFiu W where
  fiTable := fun _ => none
  fiu := initialized world garbage seed

/-! ## The references

A point holds an address, and `_fi_table` holds objects. `Refers` is that the one is the address of
the other, under the name of the point. -/

/-- The point is in the table. -/
def Fiu.Enabled (s : Fiu W) (pf : PfInfo W) : Prop :=
  ∃ t id, s.enabledFails = some t ∧ some id ∈ t.slotValues ∧ s.pfAt t id = some pf

/-- `_fi_table` has, under the name of the point, the object that the point points to. -/
def PyFiu.Refers (s : PyFiu W) (pf : PfInfo W) : Prop :=
  ∃ name o, utf8 name = pf.name.bytes ∧ s.fiTable (.str name) = some o ∧ o.id = pf.failinfo

/-- Every point in the C table has its object in `_fi_table`. -/
def PyFiu.Referenced (s : PyFiu W) : Prop := ∀ pf, s.fiu.Enabled pf → s.Refers pf

/-- The name that is passed. -/
def PyCall.name : PyCall → PyObject
  | .enable name _ _ _ => name
  | .enableRandom name _ _ _ _ => name
  | .enableExternal name _ _ _ => name
  | .enableStackByName name _ _ _ _ _ => name
  | .disable name => name

/-- What is put into `_fi_table`. -/
def PyCall.object : PyCall → Option PyObject
  | .enable _ _ failinfo _ => some failinfo
  | .enableRandom _ _ _ failinfo _ => some failinfo
  | .enableExternal _ cb _ _ => some cb
  | .enableStackByName _ _ _ failinfo _ _ => some failinfo
  | .disable _ => none

/-- The call of the C function, none when an argument is refused. -/
def PyCall.toCall (P : Platform) (pyCall : W → Addr → CString → ℤ → UInt32 → ℤ × W) :
    PyCall → Option (FiuCall W)
  | .enable name failnum failinfo flags => llEnable name failnum failinfo flags
  | .enableRandom name probability failnum failinfo flags =>
    llEnableRandom P name failnum failinfo flags probability
  | .enableExternal name cb failnum flags => llEnableExternal pyCall name failnum flags cb
  | .enableStackByName name funcName failnum failinfo flags posInStack =>
    llEnableStackByName name failnum failinfo flags funcName posInStack
  | .disable name => llDisable name

/-- wtable.c gets the memory that it asks for in this call. -/
def PyCall.HasMemory (P : Platform) (l : Linker)
    (pyCall : W → Addr → CString → ℤ → UInt32 → ℤ × W) (s : PyFiu W) (call : FiuMallocs × PyCall) :
    Prop :=
  ∀ c ∈ call.2.toCall P pyCall, TableAllocates P l s.fiu (call.1, c)

instance (pyCall : W → Addr → CString → ℤ → UInt32 → ℤ × W) (s : PyFiu W)
    (call : FiuMallocs × PyCall) : Decidable (PyCall.HasMemory P l pyCall s call) :=
  inferInstanceAs (Decidable (∀ c ∈ call.2.toCall P pyCall, TableAllocates P l s.fiu (call.1, c)))

/-- The call returns -1 before it comes to wtable.c: it is refused, or `pf_create` has no memory. -/
def FiuCall.rejected (l : Linker) (call : FiuMallocs × FiuCall W) : Bool :=
  call.2.refused l || !call.1.creates

/-- The condition on a call: it is defined, and when it puts an object under the name of a point that is
    enabled, then it does not return before it comes to wtable.c, or it is refused for an argument and the
    object is the same. -/
structure PyCall.Keeps (P : Platform) (l : Linker)
    (pyCall : W → Addr → CString → ℤ → UInt32 → ℤ × W) (s : PyFiu W) (call : FiuMallocs × PyCall) :
    Prop where
  defined : ∀ c, call.2.toCall P pyCall = some c →
    c.name.bytes ≠ [] ∨ c.takesName l = false ∨ FiuCall.lacksMemory l (call.1, c) = true
  accepted : ∀ o, call.2.object = some o → ∀ pf, s.fiu.Enabled pf →
    parseS call.2.name = some pf.name →
      match call.2.toCall P pyCall with
      | some c => FiuCall.rejected l (call.1, c) = false
      | none => o.id = pf.failinfo

/-! ## The C table

What the table has after a call, by the map that it stands for. -/

/-- The points in the table are those that the ledger holds. -/
theorem enabled_iff {s : Fiu W} {L : Ledger ℕ} (hs : s.Valid P L) {pf : PfInfo W} :
    s.Enabled pf ↔ ∃ id, L.map pf.name = some id ∧ s.pfs[id]? = some pf := by
  obtain ⟨⟨t, ht, hfol⟩, ⟨given, hL, -⟩, hnamed, -⟩ := hs
  constructor
  · rintro ⟨t', id, ht', hid, hpf⟩
    rw [ht, Option.some.injEq] at ht'
    subst ht'
    obtain ⟨key, hkey⟩ := slotValues_held hfol.holds hid
    obtain ⟨q, hq, rfl⟩ := hnamed key id hkey
    rw [Fiu.pfAt, if_neg (not_destroyed_of_held hfol hL hkey), hq] at hpf
    cases hpf
    exact ⟨id, hkey, hq⟩
  · rintro ⟨id, hid, hpf⟩
    have hslot : some id ∈ t.slotValues := by
      obtain ⟨⟨⟨entries, hw, hM, -⟩, -, ws, hws, hWs⟩, -⟩ := hfol.holds
      rw [Wtable.slotValues, hw.entries_eq, hws.wildcards_eq, List.mem_append]
      exact Or.inl ((mem_live_iff hM hws hWs).mpr ⟨id, rfl, pf.name, hid⟩)
    refine ⟨t, id, ht, hslot, ?_⟩
    rw [Fiu.pfAt, if_neg (not_destroyed_of_held hfol hL hid), hpf]

/-- After `insert_pf` the table has the new point, and the old ones of other names. -/
theorem enabled_insertPf {s s' : Fiu W} {L : Ledger ℕ} (hs : s.Valid P L) {pf : PfInfo W} {r : ℤ}
    (hname : pf.name.bytes ≠ []) (h : insertPf P s pf = some (r, s')) :
    r = 0 ∧ ∀ q, s'.Enabled q → q = pf ∨ (q.name ≠ pf.name ∧ s.Enabled q) := by
  obtain ⟨t', hins, hv⟩ := insertPf_eq hs hname
  rw [h] at hins
  cases hins
  refine ⟨rfl, fun q hq => ?_⟩
  obtain ⟨id, hid, hpf⟩ := (enabled_iff hv).mp hq
  have hid' : Function.update L.map pf.name (some s.pfs.length) q.name = some id := hid
  by_cases hn : q.name = pf.name
  · rw [hn, Function.update_self] at hid'
    cases hid'
    rw [List.getElem?_concat_length] at hpf
    cases hpf
    exact Or.inl rfl
  · rw [Function.update_of_ne hn] at hid'
    obtain ⟨q', hq', -⟩ := hs.named q.name id hid'
    rw [List.getElem?_append_left (List.getElem?_eq_some_iff.mp hq').1] at hpf
    exact Or.inr ⟨hn, (enabled_iff hs).mpr ⟨id, hid', hpf⟩⟩

/-- After `fiu_disable` the table has the points of other names. -/
theorem enabled_fiuDisable {s s' : Fiu W} {L : Ledger ℕ} (hs : s.Valid P L) {name : CString} {r : ℤ}
    (hname : name.bytes ≠ []) (h : fiuDisable P s name = some (r, s')) {q : PfInfo W}
    (hq : s'.Enabled q) : q.name ≠ name ∧ s.Enabled q := by
  obtain ⟨t', hdel, hv⟩ := fiuDisable_eq hs hname
  rw [h] at hdel
  cases hdel
  obtain ⟨id, hid, hpf⟩ := (enabled_iff hv).mp hq
  have hid' : Function.update L.map name none q.name = some id := hid
  by_cases hn : q.name = name
  · rw [hn, Function.update_self] at hid'
    cases hid'
  · rw [Function.update_of_ne hn] at hid'
    exact ⟨hn, (enabled_iff hs).mpr ⟨id, hid', hpf⟩⟩

/-! ## `_fi_table`

A dictionary is changed under one key, and a name is the key of no other name. -/

theorem parseS_eq_some {o : PyObject} {name : CString} :
    parseS o = some name ↔ ∃ value, o.key = some (.str value) ∧ utf8 value = name.bytes := by
  obtain ⟨id, value, callable⟩ := o
  cases value with
  | str value =>
    simp only [parseS, PyObject.key, Option.some.injEq, PyKey.str.injEq, exists_eq_left']
    constructor
    · intro h
      split at h
      · cases h
        rfl
      · cases h
    · intro h
      have hnul : (0 : UInt8) ∉ utf8 value := h ▸ name.noNul
      rw [dif_pos hnul, Option.some.injEq]
      exact CString.ext_bytes h
  | int value => simp [parseS, PyObject.key]
  | float value => simp [parseS, PyObject.key]
  | notFinite greater => simp [parseS, PyObject.key]
  | other hash => cases hash <;> simp [parseS, PyObject.key]

/-- What a change of `_fi_table` under one name does to the references of the points. -/
theorem refers_update {s : PyFiu W} {name : PyObject} {key : PyKey} (hkey : name.key = some key)
    (x : Option PyObject) (fiu : Fiu W) (pf : PfInfo W) :
    PyFiu.Refers ⟨Function.update s.fiTable key x, fiu⟩ pf ↔
      if parseS name = some pf.name then ∃ o, x = some o ∧ o.id = pf.failinfo else s.Refers pf := by
  by_cases hname : parseS name = some pf.name
  · rw [if_pos hname]
    obtain ⟨value, hvalue, hutf⟩ := parseS_eq_some.mp hname
    obtain rfl : key = .str value := Option.some.inj (hkey.symm.trans hvalue)
    constructor
    · rintro ⟨value', o, hutf', ho, hid⟩
      obtain rfl : value' = value := utf8_injective (hutf'.trans hutf.symm)
      have hx : Function.update s.fiTable (.str value') x (.str value') = some o := ho
      rw [Function.update_self] at hx
      exact ⟨o, hx, hid⟩
    · rintro ⟨o, rfl, hid⟩
      exact ⟨value, o, hutf, Function.update_self .., hid⟩
  · rw [if_neg hname]
    have hother : ∀ value, utf8 value = pf.name.bytes →
        Function.update s.fiTable key x (.str value) = s.fiTable (.str value) := by
      intro value hutf
      apply Function.update_of_ne
      rintro rfl
      exact hname (parseS_eq_some.mpr ⟨value, hkey, hutf⟩)
    constructor
    · rintro ⟨value, o, hutf, ho, hid⟩
      exact ⟨value, o, hutf, (hother value hutf).symm.trans ho, hid⟩
    · rintro ⟨value, o, hutf, ho, hid⟩
      exact ⟨value, o, hutf, (hother value hutf).trans ho, hid⟩

/-- **A step changes both tables under one name only.**  So the points that it can do harm to are those
    of that name. -/
theorem referenced_update {s : PyFiu W} (hs : s.Referenced) {name : PyObject} {key : PyKey}
    (hkey : name.key = some key) (x : Option PyObject) (fiu : Fiu W)
    (hfiu : ∀ pf, fiu.Enabled pf → parseS name = some pf.name ∨ s.fiu.Enabled pf) :
    PyFiu.Referenced ⟨Function.update s.fiTable key x, fiu⟩ ↔
      ∀ pf, fiu.Enabled pf → parseS name = some pf.name → ∃ o, x = some o ∧ o.id = pf.failinfo := by
  constructor
  · intro h pf hpf hname
    have hrefers := (refers_update hkey x fiu pf).mp (h pf hpf)
    rwa [if_pos hname] at hrefers
  · intro h pf hpf
    rw [refers_update hkey]
    by_cases hname : parseS name = some pf.name
    · rw [if_pos hname]
      exact h pf hpf hname
    · rw [if_neg hname]
      exact hs pf ((hfiu pf hpf).resolve_left hname)

/-! ## One call

A call can harm the points of its own name only. Of those there is at most one, which a successful
call replaces and one that fails leaves where it is.

That is why the condition says nothing of a call whose name is enabled nowhere, whatever becomes of
it. -/

section step

variable {pyCall : W → Addr → CString → ℤ → UInt32 → ℤ × W}

/-- The C function gets the name and the object of the call. -/
theorem toCall_eq_some {call : PyCall} {c : FiuCall W} (h : call.toCall P pyCall = some c) :
    parseS call.name = some c.name ∧ c.failinfo = call.object.map PyObject.id := by
  cases call with
  | enable name failnum failinfo flags =>
    simp only [PyCall.toCall, llEnable, Option.bind_eq_bind, Option.bind_eq_some_iff,
      Option.some.injEq] at h
    obtain ⟨n, hn, f, -, g, -, rfl⟩ := h
    exact ⟨hn, rfl⟩
  | enableRandom name probability failnum failinfo flags =>
    simp only [PyCall.toCall, llEnableRandom, Option.bind_eq_bind, Option.bind_eq_some_iff,
      Option.some.injEq] at h
    obtain ⟨n, hn, f, -, g, -, p, -, rfl⟩ := h
    exact ⟨hn, rfl⟩
  | enableExternal name cb failnum flags =>
    simp only [PyCall.toCall, llEnableExternal, Option.bind_eq_bind, Option.bind_eq_some_iff] at h
    obtain ⟨n, hn, f, -, g, -, h⟩ := h
    split at h
    · cases h
      exact ⟨hn, rfl⟩
    · cases h
  | enableStackByName name funcName failnum failinfo flags posInStack =>
    simp only [PyCall.toCall, llEnableStackByName, Option.bind_eq_bind, Option.bind_eq_some_iff,
      Option.some.injEq] at h
    obtain ⟨n, hn, f, -, g, -, a, -, i, -, rfl⟩ := h
    exact ⟨hn, rfl⟩
  | disable name =>
    obtain ⟨n, hn, rfl⟩ := Option.map_eq_some_iff.mp h
    exact ⟨hn, rfl⟩

/-- An enabling call, as `enableWith`. -/
theorem pyStep_enabling {call : PyCall} {o : PyObject} (ho : call.object = some o)
    (malloc : FiuMallocs) (s : PyFiu W) :
    pyStep P l pyCall s (malloc, call) =
      s.enableWith P l malloc call.name o (call.toCall P pyCall) := by
  cases call <;> cases ho <;> rfl

/-- A name that is not refused is a key. -/
theorem key_of_parseS {o : PyObject} {name : CString} (h : parseS o = some name) :
    ∃ key, o.key = some key := by
  obtain ⟨value, hvalue, -⟩ := parseS_eq_some.mp h
  exact ⟨_, hvalue⟩

/-- A call that is refused for an argument. -/
theorem enableWith_refused_iff {s : PyFiu W} (hs : s.Referenced) (malloc : FiuMallocs)
    (name o : PyObject) :
    (∀ pf, s.fiu.Enabled pf → parseS name = some pf.name → o.id = pf.failinfo) ↔
      ∃ r s', s.enableWith P l malloc name o none = some (r, s') ∧ s'.Referenced := by
  cases hkey : name.key with
  | none =>
    have hnone : parseS name = none := by
      rw [Option.eq_none_iff_forall_ne_some]
      intro n hn
      obtain ⟨key, hk⟩ := key_of_parseS hn
      rw [hkey] at hk
      cases hk
    refine iff_of_true ?_ ⟨.refused, s, by simp only [PyFiu.enableWith, hkey], hs⟩
    intro pf _ hname
    rw [hnone] at hname
    cases hname
  | some key =>
    have hstep : s.enableWith P l malloc name o none =
        some (.refused, ⟨Function.update s.fiTable key (some o), s.fiu⟩) := by
      simp only [PyFiu.enableWith, hkey]
    have hiff := referenced_update hs hkey (some o) s.fiu fun _ => Or.inr
    simp only [Option.some.injEq, exists_eq_left'] at hiff
    rw [← hiff, hstep]
    constructor
    · exact fun h => ⟨_, _, rfl, h⟩
    · rintro ⟨r, s', he, h⟩
      cases he
      exact h

/-- **An enabling call with the arguments that it takes** keeps the references unless it returns -1 before
    it comes to wtable.c and its name is enabled. -/
theorem enableWith_iff {s : PyFiu W} {L : Ledger ℕ} (hv : s.fiu.Valid P L) (hs : s.Referenced)
    {malloc : FiuMallocs} {name o : PyObject} {c : FiuCall W} (hname : parseS name = some c.name)
    (hinfo : c.failinfo = some o.id) (hmem : TableAllocates P l s.fiu (malloc, c)) :
    ((c.name.bytes ≠ [] ∨ c.takesName l = false ∨ FiuCall.lacksMemory l (malloc, c) = true) ∧
        ∀ pf, s.fiu.Enabled pf → parseS name = some pf.name →
          FiuCall.rejected l (malloc, c) = false) ↔
      ∃ r s', s.enableWith P l malloc name o (some c) = some (r, s') ∧ s'.Referenced := by
  obtain ⟨key, hkey⟩ := key_of_parseS hname
  have henables : c.enables = true := by rw [← c.failinfo_isSome, hinfo]; rfl
  obtain ⟨new, hnew, hnewinfo, hstep⟩ := fiuStep_enabling (P := P) (l := l) henables
  have hid : new.failinfo = o.id := Option.some.inj (hnewinfo.symm.trans hinfo)
  have hdefined := fiuStep_isSome_iff (l := l) hv c
  have hrun := fiuStepAlloc_eq (l := l) hv hmem
  have hlacks : FiuCall.lacksMemory l (malloc, c) = (!c.refused l && !malloc.creates) := by
    rw [FiuCall.lacksMemory, henables]
    rfl
  have hwith : s.enableWith P l malloc name o (some c) =
      (fiuStepAlloc P l s.fiu (malloc, c)).bind fun r =>
        if r.1.nonzero then some (r.1.raise, ⟨Function.update s.fiTable key none, r.2⟩)
        else some (.returned, ⟨Function.update s.fiTable key (some o), r.2⟩) := by
    simp only [PyFiu.enableWith, hkey]
    rfl
  by_cases hrejected : FiuCall.rejected l (malloc, c) = true
  · -- the old point of the name stays, and the entry is deleted
    have hnone := referenced_update hs hkey none s.fiu fun _ => Or.inr
    have hminus : fiuStepAlloc P l s.fiu (malloc, c) = some (.int (-1), s.fiu) := by
      rw [hrun, hlacks, hstep]
      rw [FiuCall.rejected] at hrejected
      cases hr : c.refused l with
      | true => rfl
      | false =>
        rw [hr, Bool.false_or] at hrejected
        rw [hrejected]
        rfl
    have hsome : c.name.bytes ≠ [] ∨ c.takesName l = false ∨
        FiuCall.lacksMemory l (malloc, c) = true := by
      cases hr : c.refused l with
      | true =>
        have htakes : c.takesName l = false := by
          cases c with
          | fail caller name => rfl
          | _ => simp only [FiuCall.takesName, hr]; rfl
        exact Or.inr (Or.inl htakes)
      | false =>
        refine Or.inr (Or.inr ?_)
        rw [FiuCall.rejected, hr, Bool.false_or] at hrejected
        rw [hlacks, hr, hrejected]
        rfl
    have hend : s.enableWith P l malloc name o (some c) =
        some (.runtimeError (-1), ⟨Function.update s.fiTable key none, s.fiu⟩) := by
      rw [hwith, hminus]
      rfl
    rw [hend, hrejected]
    constructor
    · rintro ⟨-, hkeep⟩
      refine ⟨_, _, rfl, hnone.mpr fun pf hpf hn => ?_⟩
      cases hkeep pf hpf hn
    · rintro ⟨r, s', he, h⟩
      cases he
      refine ⟨hsome, fun pf hpf hn => ?_⟩
      obtain ⟨o', ho', -⟩ := hnone.mp h pf hpf hn
      cases ho'
  · -- the call comes to `insert_pf`
    rw [Bool.not_eq_true] at hrejected
    obtain ⟨hrefused, hcreates⟩ : c.refused l = false ∧ malloc.creates = true := by
      simpa [FiuCall.rejected] using hrejected
    rw [hlacks, hrefused, hcreates] at hrun ⊢
    have hins : fiuStep P l s.fiu c = (insertPf P s.fiu new).map fun r => (.int r.1, r.2) := by
      rw [hstep, hrefused, if_neg Bool.false_ne_true]
    have hor : (c.name.bytes ≠ [] ∨ c.takesName l = false ∨ (!false && !true) = true) ↔
        (fiuStep P l s.fiu c).isSome := by
      rw [hdefined]
      simp
    rw [hor]
    by_cases hempty : c.name.bytes ≠ []
    · -- the new point is enabled, and its object is stored for the name
      have hnonempty : new.name.bytes ≠ [] := by rwa [hnew]
      obtain ⟨t', hrun', -⟩ := insertPf_eq hv hnonempty
      obtain ⟨-, henabled⟩ := enabled_insertPf hv hnonempty hrun'
      rw [hrun, if_neg (by decide), hins, hrun'] at hwith
      refine iff_of_true ⟨by rw [hins, hrun']; rfl, fun _ _ _ => hrejected⟩ ⟨_, _, hwith, ?_⟩
      refine (referenced_update hs hkey (some o) _ fun pf hpf => ?_).mpr fun pf hpf hn => ?_
      · rcases henabled pf hpf with rfl | ⟨-, h⟩
        · exact Or.inl (hnew ▸ hname)
        · exact Or.inr h
      · refine ⟨o, rfl, ?_⟩
        rcases henabled pf hpf with rfl | ⟨h, -⟩
        · exact hid.symm
        · rw [hname, Option.some.injEq] at hn
          exact absurd (hn.symm.trans hnew.symm) h
    · -- the empty name: the call is undefined
      have hundef : fiuStep P l s.fiu c = none := by
        rw [hins, insertPf_empty (hnew ▸ not_not.mp hempty)]
        rfl
      rw [hwith, hrun, if_neg (by decide), hundef]
      refine iff_of_false (fun h => Bool.false_ne_true h.1) ?_
      rintro ⟨r, s', he, -⟩
      cases he

/-- **`disable`** keeps the references. -/
theorem disable_iff {s : PyFiu W} {L : Ledger ℕ} (hv : s.fiu.Valid P L) (hs : s.Referenced)
    {malloc : FiuMallocs} {name : PyObject}
    (hmem : ∀ c, llDisable name = some c → TableAllocates P l s.fiu (malloc, c)) :
    (∀ n, parseS name = some n → n.bytes ≠ []) ↔
      ∃ r s', s.disable P l malloc name = some (r, s') ∧ s'.Referenced := by
  cases hparse : parseS name with
  | none =>
    refine iff_of_true (fun n hn => by cases hn) ?_
    cases hkey : name.key with
    | none => exact ⟨_, s, by rw [PyFiu.disable, hkey], hs⟩
    | some key =>
      have hstep : s.disable P l malloc name =
          some (.refused, ⟨Function.update s.fiTable key none, s.fiu⟩) := by
        rw [PyFiu.disable, hkey, llDisable, hparse]
        rfl
      refine ⟨_, _, hstep, (referenced_update hs hkey none _ fun _ => Or.inr).mpr fun pf _ hn => ?_⟩
      rw [hparse] at hn
      cases hn
  | some n =>
    obtain ⟨key, hkey⟩ := key_of_parseS hparse
    have hcall : llDisable name = some (.disable n : FiuCall W) := by
      rw [llDisable, hparse]
      rfl
    have hrun : fiuStepAlloc P l s.fiu (malloc, .disable n) =
        (fiuDisable P s.fiu n).map fun r => (.int r.1, r.2) :=
      fiuStepAlloc_eq hv (hmem _ hcall)
    have hstep : s.disable P l malloc name = (fiuDisable P s.fiu n).bind fun r =>
        if (FiuReply.int r.1).nonzero then
          some ((FiuReply.int r.1).raise, ⟨Function.update s.fiTable key none, r.2⟩)
        else some (.returned, ⟨Function.update s.fiTable key none, r.2⟩) := by
      rw [PyFiu.disable, hkey, hcall]
      show ((fiuStepAlloc P l s.fiu (malloc, .disable n)).bind fun r => _) = _
      rw [hrun, Option.bind_map]
      rfl
    by_cases hempty : n.bytes ≠ []
    · obtain ⟨t', hdel, -⟩ := fiuDisable_eq hv hempty
      have hrefs : PyFiu.Referenced ⟨Function.update s.fiTable key none,
          { s.fiu with enabledFails := some t' }⟩ := by
        refine (referenced_update hs hkey none _ fun pf hpf => ?_).mpr fun pf hpf hn => ?_
        · exact Or.inr (enabled_fiuDisable hv hempty hdel hpf).2
        · rw [hparse, Option.some.injEq] at hn
          exact absurd hn.symm (enabled_fiuDisable hv hempty hdel hpf).1
      refine iff_of_true (fun m hm => by cases hm; exact hempty) ?_
      rw [hstep, hdel, Option.bind_some]
      split
      · exact ⟨_, _, rfl, hrefs⟩
      · exact ⟨_, _, rfl, hrefs⟩
    · rw [hstep, fiuDisable_empty (not_not.mp hempty)]
      refine iff_of_false (fun h => hempty (h n rfl)) ?_
      rintro ⟨r, s', he, -⟩
      cases he

/-- **One call keeps the references exactly under the condition.** -/
theorem pyStep_iff {s : PyFiu W} (hv : ∃ L, s.fiu.Valid P L) (hs : s.Referenced)
    {call : FiuMallocs × PyCall} (hmem : PyCall.HasMemory P l pyCall s call) :
    PyCall.Keeps P l pyCall s call ↔
      ∃ r s', pyStep P l pyCall s call = some (r, s') ∧ s'.Referenced := by
  obtain ⟨L, hv⟩ := hv
  obtain ⟨malloc, call⟩ := call
  cases hobject : call.object with
  | none =>
    cases call with
    | disable name =>
      refine Iff.trans ?_ (disable_iff hv hs hmem)
      constructor
      · intro hkeeps n hn
        have hcall : PyCall.toCall P pyCall (.disable name) = some (.disable n) := by
          rw [PyCall.toCall, llDisable, hn]
          rfl
        rcases hkeeps.defined _ hcall with h | h | h
        · exact h
        · cases h
        · cases h
      · intro hn
        refine ⟨fun c hc => ?_, fun o ho => by cases ho⟩
        obtain ⟨n, hparse, rfl⟩ := Option.map_eq_some_iff.mp hc
        exact Or.inl (hn n hparse)
    | _ => cases hobject
  | some o =>
    rw [pyStep_enabling hobject]
    cases hcall : call.toCall P pyCall with
    | none =>
      rw [← enableWith_refused_iff hs]
      constructor
      · intro hkeeps pf hpf hn
        have hsame := hkeeps.accepted o hobject pf hpf hn
        rwa [hcall] at hsame
      · intro h
        constructor
        · intro c hc
          rw [hcall] at hc
          cases hc
        · intro o' ho' pf hpf hn
          obtain rfl : o = o' := Option.some.inj (hobject.symm.trans ho')
          rw [hcall]
          exact h pf hpf hn
    | some c =>
      obtain ⟨hname, hinfo⟩ := toCall_eq_some hcall
      rw [hobject] at hinfo
      rw [← enableWith_iff hv hs hname hinfo (hmem c hcall)]
      constructor
      · intro hkeeps
        refine ⟨hkeeps.defined c hcall, fun pf hpf hn => ?_⟩
        have haccepted := hkeeps.accepted o hobject pf hpf hn
        rwa [hcall] at haccepted
      · rintro ⟨hdefined, haccepted⟩
        constructor
        · intro c' hc'
          obtain rfl : c = c' := Option.some.inj (hcall.symm.trans hc')
          exact hdefined
        · intro o' _ pf hpf hn
          rw [hcall]
          exact haccepted pf hpf hn

/-- What a call does to the library: nothing, or what the C function does. -/
theorem pyStep_fiu {s s' : PyFiu W} {malloc : FiuMallocs} {call : PyCall} {r : PyReply}
    (h : pyStep P l pyCall s (malloc, call) = some (r, s')) :
    s'.fiu = s.fiu ∨ ∃ c r, call.toCall P pyCall = some c ∧
      fiuStepAlloc P l s.fiu (malloc, c) = some (r, s'.fiu) := by
  cases hobject : call.object with
  | none =>
    cases call with
    | disable name =>
      simp only [pyStep, PyFiu.disable] at h
      split at h
      · cases h
        exact Or.inl rfl
      · cases h
        exact Or.inl rfl
      · rename_i hcall
        obtain ⟨⟨r', fiu⟩, hstep, he⟩ := Option.bind_eq_some_iff.mp h
        dsimp only at he
        split at he <;> cases he <;> exact Or.inr ⟨_, _, hcall, hstep⟩
    | _ => cases hobject
  | some o =>
    rw [pyStep_enabling hobject] at h
    unfold PyFiu.enableWith at h
    split at h
    · cases h
      exact Or.inl rfl
    · cases h
      exact Or.inl rfl
    · rename_i hcall
      obtain ⟨⟨r', fiu⟩, hstep, he⟩ := Option.bind_eq_some_iff.mp h
      dsimp only at he
      split at he <;> cases he <;> exact Or.inr ⟨_, _, hcall, hstep⟩

/-- The library is valid after each call for which wtable.c had memory. -/
theorem pyStep_valid {s s' : PyFiu W} {call : FiuMallocs × PyCall} {r : PyReply}
    (hv : ∃ L, s.fiu.Valid P L) (hmem : PyCall.HasMemory P l pyCall s call)
    (h : pyStep P l pyCall s call = some (r, s')) : ∃ L, s'.fiu.Valid P L := by
  obtain ⟨L, hv⟩ := hv
  rcases pyStep_fiu h with heq | ⟨c, r', hcall, hstep⟩
  · exact ⟨L, heq ▸ hv⟩
  · rw [fiuStepAlloc_eq hv (hmem c hcall)] at hstep
    split at hstep
    · have hsame : s.fiu = s'.fiu := congrArg Prod.snd (Option.some.inj hstep)
      exact ⟨L, hsame ▸ hv⟩
    · exact fiuStep_some_valid hv hstep

end step

/-! ## Runs

The condition is on each call and on the tables that it finds. -/

/-- **When the references are kept.**  The calls come with the outcomes of the allocations that they
    make.  As long as wtable.c gets the memory that it asks for (`hmem`; without it the table is left with
    a NULL array), `_fi_table` has the object of every point that is enabled after each call of the
    sequence, if and only if each call of the sequence meets the condition `PyCall.Keeps`. -/
theorem references_kept_iff (P : Platform) (l : Linker)
    (pyCall : W → Addr → CString → ℤ → UInt32 → ℤ × W) (world : W) (garbage : ℕ) (seed : UInt32)
    (calls : List (FiuMallocs × PyCall))
    (hmem : Machine.Guarded (pyStep P l pyCall) (PyCall.HasMemory P l pyCall)
      (imported world garbage seed) calls) :
    (∀ n ≤ calls.length, ∃ rs s,
      Machine.run (pyStep P l pyCall) (imported world garbage seed) (calls.take n) = some (rs, s) ∧
        s.Referenced) ↔
      Machine.Guarded (pyStep P l pyCall) (PyCall.Keeps P l pyCall)
        (imported world garbage seed) calls := by
  have hvalid := fiuInit_valid (P := P) world garbage seed
  have hstart : PyFiu.Referenced (imported world garbage seed) := by
    intro pf hpf
    obtain ⟨id, hid, -⟩ := (enabled_iff hvalid).mp hpf
    cases hid
  exact Machine.run_prefixes_iff (fun hv hmem h => pyStep_valid hv hmem h)
    (fun s call hv hs hmem => pyStep_iff hv hs hmem)
    calls _ ⟨_, hvalid⟩ hstart hmem

/-- An integer. -/
def pyInt (id : Addr) (value : ℤ) : PyObject := ⟨id, .int value, false⟩

/-- A string. -/
def pyStr (id : Addr) (value : String) : PyObject := ⟨id, .str value, false⟩

/-- A list. -/
def pyList (id : Addr) : PyObject := ⟨id, .other none, false⟩

/-- A point is enabled with a list as its failinfo, and then again, with another one, for a function
    that does not exist. -/
def reenabled : List (FiuMallocs × PyCall) :=
  [(.ok, .enable (pyStr 1 "p") (pyInt 2 1) (pyList 3) (pyInt 4 0)),
    (.ok, .enableStackByName (pyStr 1 "p") (pyStr 5 "f") (pyInt 2 1) (pyList 6) (pyInt 4 0)
      (pyInt 7 (-1)))]

/-- **The reference is lost**: the point stays enabled with its list, and `_fi_table` has nothing for it. -/
theorem reenabled_loses_reference :
    ¬ ∀ n ≤ reenabled.length, ∃ rs s,
      Machine.run (pyStep Platform.ieee noSymbols fun w _ _ _ _ => (0, w)) (imported () 0 0)
        (reenabled.take n) = some (rs, s) ∧ s.Referenced := by
  intro h
  obtain ⟨rs, s, hrun, href⟩ := h 2 le_rfl
  have hend : ((Machine.run (pyStep Platform.ieee noSymbols fun w _ _ _ _ => (0, w)) (imported () 0 0)
      (reenabled.take 2)).map fun r => (r.2.fiTable (.str "p"), r.2.fiu.enabledFails.map fun t =>
        (decide (some 0 ∈ t.slotValues), (r.2.fiu.pfAt t 0).map fun pf => pf.name.bytes))) =
      some (none, some (true, some [112])) := by decide +kernel
  rw [hrun, Option.map_some, Option.some.injEq, Prod.mk.injEq] at hend
  obtain ⟨htable, hfiu⟩ := hend
  obtain ⟨t, ht, he⟩ := Option.map_eq_some_iff.mp hfiu
  rw [Prod.mk.injEq, decide_eq_true_eq] at he
  obtain ⟨pf, hpf, hname⟩ := Option.map_eq_some_iff.mp he.2
  obtain ⟨name, o, hutf, ho, -⟩ := href pf ⟨t, 0, ht, he.1, hpf⟩
  have hp : utf8 "p" = [112] := by decide +kernel
  obtain rfl : name = "p" := utf8_injective (by rw [hutf, hname, hp])
  rw [htable] at ho
  cases ho

/-- `malloc` fails in `pf_create`. -/
def noPf : FiuMallocs := ⟨false, true, true, .ok⟩

/-- A point is not enabled, for want of memory, then it is, and then it is disabled. -/
def withoutMemory : List (FiuMallocs × PyCall) :=
  [(noPf, .enable (pyStr 1 "p") (pyInt 2 1) (pyList 3) (pyInt 4 0)),
    (.ok, .enable (pyStr 1 "p") (pyInt 2 1) (pyList 3) (pyInt 4 0)),
    (.ok, .disable (pyStr 1 "p"))]

theorem references_kept_iff_withoutMemory :
    (∀ n ≤ withoutMemory.length, ∃ rs s,
      Machine.run (pyStep Platform.ieee noSymbols fun w _ _ _ _ => (0, w)) (imported () 0 0)
        (withoutMemory.take n) = some (rs, s) ∧ s.Referenced) ↔
      Machine.Guarded (pyStep Platform.ieee noSymbols fun w _ _ _ _ => (0, w))
        (PyCall.Keeps Platform.ieee noSymbols fun w _ _ _ _ => (0, w)) (imported () 0 0)
        withoutMemory :=
  references_kept_iff Platform.ieee noSymbols (fun w _ _ _ _ => (0, w)) () 0 0 withoutMemory
    (by decide +kernel)

end Libfiu
