/-
  The two methods of `pc_in_func` of fiu.c.

  A point that depends on the stack fails when a frame of the backtrace is inside of a function.  Where
  `get_func_end` is available, `pc_in_func` asks whether the address of the frame is in a range that
  starts at the function and ends with its `st_size`; elsewhere it asks for the function that the
  address is in.

  A program is a `Layout` of functions that do not overlap, and `dladdr` gives the function whose range
  holds an address.  Then the second method is always right (`pcInFunc_start`), and the first one takes
  one address too many, the one behind the function: `stack_methods_agree_iff` says for which
  backtraces that makes a difference, in every layout and for every function.

  Nothing is assumed of the functions but that they do not overlap and that no function is at
  address 0; they may be adjacent or empty, and there may be gaps between them. The address that is
  given to `fiu_enable_stack` may be one in the middle of a function; then the range of the first
  method begins there, and the theorem says so.
-/
import Libfiu.FiuRequest

namespace Libfiu

variable {W : Type} {P : Platform}

/-! ## The layout of a program

Functions are ranges of addresses that do not overlap, and `dladdr` finds the one that an address is
in. Neighbours may be adjacent, and that is what the difference is about. -/

/-- A function in the symbol table: `st_value` and `st_size`. -/
structure Symbol where
  value : ℕ
  size : ℕ
  deriving DecidableEq

/-- The address is in the range of the function. -/
def Symbol.Has (f : Symbol) (pc : ℕ) : Prop := f.value ≤ pc ∧ pc < f.value + f.size

instance (f : Symbol) (pc : ℕ) : Decidable (f.Has pc) :=
  inferInstanceAs (Decidable (_ ∧ _))

/-- The functions of a program.  No address is in two of them; they may be adjacent, and empty. -/
structure Layout where
  functions : List Symbol
  /-- The functions do not overlap. -/
  apart : ∀ f ∈ functions, ∀ g ∈ functions, ∀ pc, f.Has pc → g.Has pc → f = g
  /-- NULL is not a function. -/
  nonNull : ∀ f ∈ functions, f.value ≠ 0

namespace Layout

variable (y : Layout)

/-- `dladdr`: the function that the address is in. -/
def dladdr (pc : ℕ) : Option Symbol := y.functions.find? fun f => decide (f.Has pc)

/-- `get_func_start`. -/
def getFuncStart (pc : ℕ) : ℕ := (y.dladdr pc).elim 0 Symbol.value

/-- `get_func_end`: the size is added to the address that was asked for. -/
def getFuncEnd (func : ℕ) : ℕ :=
  (y.dladdr func).elim 0 fun f => if f.value = 0 then 0 else func + f.size

/-- A platform that has `get_func_end` or not.  Its other parts are those of `l`. -/
def linker (l : Linker) (hasFuncEnd : Bool) : Linker :=
  { l with
    getFuncStart := y.getFuncStart
    getFuncEnd := if hasFuncEnd then y.getFuncEnd else fun _ => 0 }

/-- The address `pc` lies inside of the code of the function that starts at `func`. -/
def InCode (func pc : ℕ) : Prop := ∃ f ∈ y.functions, f.value = func ∧ f.Has pc

instance (func pc : ℕ) : Decidable (y.InCode func pc) :=
  inferInstanceAs (Decidable (∃ f ∈ y.functions, _ ∧ _))

/-- What `dladdr` finds is the function that the address is in, if there is one. -/
theorem dladdr_eq_some {pc : ℕ} {f : Symbol} :
    y.dladdr pc = some f ↔ f ∈ y.functions ∧ f.Has pc := by
  unfold dladdr
  have hfound : ∀ {g : Symbol}, y.functions.find? (fun f => decide (f.Has pc)) = some g →
      g ∈ y.functions ∧ g.Has pc := by
    intro g h
    have hpc := List.find?_some h
    exact ⟨List.mem_of_find?_eq_some h, of_decide_eq_true hpc⟩
  constructor
  · exact hfound
  · rintro ⟨hf, hpc⟩
    cases hfind : y.functions.find? fun f => decide (f.Has pc) with
    | none =>
      have hno := List.find?_eq_none.mp hfind f hf
      exact absurd (decide_eq_true hpc) hno
    | some g =>
      obtain ⟨hg, hgpc⟩ := hfound hfind
      rw [y.apart g hg f hf pc hgpc hpc]

/-- **The start of the function that an address is in**: that is `func` exactly for the addresses in its
    code. -/
theorem getFuncStart_eq_iff {func : ℕ} (hfunc : func ≠ 0) (pc : ℕ) :
    y.getFuncStart pc = func ↔ y.InCode func pc := by
  unfold getFuncStart
  cases hfind : y.dladdr pc with
  | none =>
    refine iff_of_false (fun h => hfunc h.symm) ?_
    rintro ⟨f, hf, -, hpc⟩
    rw [(y.dladdr_eq_some).mpr ⟨hf, hpc⟩] at hfind
    cases hfind
  | some g =>
    obtain ⟨hg, hgpc⟩ := y.dladdr_eq_some.mp hfind
    constructor
    · intro h
      exact ⟨g, hg, h, hgpc⟩
    · rintro ⟨f, hf, hstart, hpc⟩
      obtain rfl := y.apart f hf g hg pc hpc hgpc
      exact hstart

end Layout

/-! ## What `fiu_enable_stack` stores

The range is stored when the point is enabled, from the address that was given, which need not be
the start of its function. -/

/-- The `struct stack` of a point that `fiu_enable_stack` enables. -/
def stackOf (l : Linker) (func : Addr) : Stack := ⟨func, l.getFuncEnd func, -1⟩

/-- **A function that is accepted**: the point is created, with the range of the function. -/
theorem fiuEnableStack_accepted {l : Linker} {s s₁ : Fiu W} {name : CString} {failnum : ℤ}
    {failinfo : Addr} {flags : UInt32} {func : Addr} {funcPosInStack : ℤ}
    (h : fiuEnableStack P l s name failnum failinfo flags func funcPosInStack = some (0, s₁)) :
    (l.getFuncEnd func ≠ 0 ∨ l.getFuncStart func ≠ 0) ∧
      s₁.pfs[s.pfs.length]? = some (pfCreate name failnum failinfo flags (.stack (stackOf l func))) := by
  rw [fiuEnableStack_eq] at h
  split at h
  · cases h
  · rename_i hrefused
    have hpos : funcPosInStack = -1 := by
      by_contra hne
      exact hrefused (by simp [stackRefused, hne])
    subst hpos
    have hknown : ¬ (l.getFuncEnd func = 0 ∧ l.getFuncStart func = 0) := by
      intro hnull
      exact hrefused (by simp [stackRefused, hnull])
    obtain ⟨tab, -, h⟩ := Option.bind_eq_some_iff.mp h
    obtain ⟨⟨ok, tab'⟩, -, h⟩ := Option.bind_eq_some_iff.mp h
    obtain ⟨-, rfl⟩ := Prod.mk.inj (Option.some.inj h)
    exact ⟨not_and_or.mp hknown, List.getElem?_concat_length⟩

/-- Such a point fails when `pc_in_func` accepts one of the first 100 frames. -/
theorem shouldStackFail_stackOf (l : Linker) (func : Addr) (backtrace : List Addr) :
    shouldStackFail l (stackOf l func) backtrace =
      (backtrace.take 100).any (pcInFunc l (stackOf l func)) := by
  have hany : ∀ (pcs : List Addr) (n : ℕ), (pcs.zipIdx n).any (fun pc =>
      pcInFunc l (stackOf l func) pc.1 &&
        ((stackOf l func).funcPosInStack = -1 || (pc.2 : ℤ) = (stackOf l func).funcPosInStack)) =
      pcs.any (pcInFunc l (stackOf l func)) := by
    intro pcs
    induction pcs with
    | nil => exact fun n => rfl
    | cons pc pcs ih =>
      intro n
      rw [List.zipIdx_cons, List.any_cons, List.any_cons, ih]
      simp [stackOf]
  exact hany _ 0

/-! ## The two methods

With `get_func_end` two comparisons decide, without it the start of the function that the frame is
in. -/

/-- **Without `get_func_end`** `pc_in_func` accepts exactly the addresses in the code of the function. -/
theorem pcInFunc_start (y : Layout) (l : Linker) {func : ℕ} (hfunc : func ≠ 0) (pc : ℕ) :
    pcInFunc (y.linker l false) (stackOf (y.linker l false) func) pc = true ↔ y.InCode func pc := by
  have hstart := y.getFuncStart_eq_iff hfunc pc
  show (if (0 : ℕ) ≠ 0 then _ else decide (func = y.getFuncStart pc)) = true ↔ _
  rw [if_neg (by simp), decide_eq_true_eq, eq_comm, hstart]

/-- **With `get_func_end`** it accepts those from the start of the function to its end, and the end
    is not in it. -/
theorem pcInFunc_range (y : Layout) (l : Linker) {func : ℕ} {f : Symbol}
    (hf : y.dladdr func = some f) (pc : ℕ) :
    pcInFunc (y.linker l true) (stackOf (y.linker l true) func) pc = true ↔
      func ≤ pc ∧ pc ≤ func + f.size := by
  obtain ⟨hmem, hstart, hlt⟩ := y.dladdr_eq_some.mp hf
  have hnonNull := y.nonNull f hmem
  have hend : y.getFuncEnd func = func + f.size := by
    rw [Layout.getFuncEnd, hf, Option.elim_some, if_neg hnonNull]
  show (if y.getFuncEnd func ≠ 0 then decide (func ≤ pc ∧ pc ≤ y.getFuncEnd func) else _) = true ↔ _
  rw [hend, if_pos (by omega), decide_eq_true_eq]

/-- The code of a function is within the range that is tested. -/
theorem Layout.InCode.range {y : Layout} {func pc : ℕ} {f : Symbol} (hf : y.dladdr func = some f)
    (h : y.InCode func pc) : func ≤ pc ∧ pc ≤ func + f.size := by
  obtain ⟨g, hg, rfl, hpc⟩ := h
  obtain ⟨hmem, hhas⟩ := y.dladdr_eq_some.mp hf
  have hghas : g.Has g.value := ⟨le_rfl, by obtain ⟨h₁, h₂⟩ := hpc; omega⟩
  obtain rfl := y.apart g hg f hmem g.value hghas hhas
  exact ⟨hpc.1, hpc.2.le⟩

/-- **Exactly when the two methods agree.** Take any layout of functions that do not overlap, an
    address that `fiu_enable_stack` accepts (`henable`), on a platform with or without
    `get_func_end`, and any backtrace, of which `get_backtrace` gives up to 100 frames.

    The first conjunct is the point that is created. By the second, both methods say that a frame is
    inside of the function's code exactly when one is, if and only if one is, or no frame is from
    the start of the function to its end, the first address behind it included. -/
theorem stack_methods_agree_iff (y : Layout) (l : Linker) (hasFuncEnd : Bool) {s s₁ : Fiu W}
    {name : CString} {failnum : ℤ} {failinfo : Addr} {flags : UInt32} {func : ℕ}
    {funcPosInStack : ℤ}
    (henable : fiuEnableStack P (y.linker l hasFuncEnd) s name failnum failinfo flags func
      funcPosInStack = some (0, s₁)) :
    s₁.pfs[s.pfs.length]? = some (pfCreate name failnum failinfo flags
      (.stack (stackOf (y.linker l hasFuncEnd) func))) ∧
    ∀ backtrace : List ℕ,
      (∀ hasFuncEnd, shouldStackFail (y.linker l hasFuncEnd) (stackOf (y.linker l hasFuncEnd) func)
        backtrace = decide (∃ pc ∈ backtrace.take 100, y.InCode func pc)) ↔
      (∃ pc ∈ backtrace.take 100, y.InCode func pc) ∨
        ∀ f ∈ y.functions, f.Has func → ∀ pc ∈ backtrace.take 100,
          ¬ (func ≤ pc ∧ pc ≤ func + f.size) := by
  obtain ⟨haccepted, hpf⟩ := fiuEnableStack_accepted henable
  refine ⟨hpf, fun backtrace => ?_⟩
  -- the function that the address is in
  obtain ⟨f, hf⟩ : ∃ f, y.dladdr func = some f := by
    cases hfind : y.dladdr func with
    | some f => exact ⟨f, rfl⟩
    | none =>
      have hstart : y.getFuncStart func = 0 := by rw [Layout.getFuncStart, hfind, Option.elim_none]
      have hend : y.getFuncEnd func = 0 := by rw [Layout.getFuncEnd, hfind, Option.elim_none]
      rcases haccepted with h | h
      · cases hasFuncEnd with
        | true => exact absurd hend h
        | false => exact absurd rfl h
      · exact absurd hstart h
  obtain ⟨hmem, hhas⟩ := y.dladdr_eq_some.mp hf
  have hfunc : func ≠ 0 := by
    have hnonNull := y.nonNull f hmem
    have hle := hhas.1
    omega
  have hstart : shouldStackFail (y.linker l false) (stackOf (y.linker l false) func) backtrace =
      decide (∃ pc ∈ backtrace.take 100, y.InCode func pc) := by
    rw [shouldStackFail_stackOf, Bool.eq_iff_iff, List.any_eq_true, decide_eq_true_eq]
    simp only [pcInFunc_start y l hfunc]
  have hrange : shouldStackFail (y.linker l true) (stackOf (y.linker l true) func) backtrace = true ↔
      ∃ pc ∈ backtrace.take 100, func ≤ pc ∧ pc ≤ func + f.size := by
    rw [shouldStackFail_stackOf, List.any_eq_true]
    simp only [pcInFunc_range y l hf]
  have hboth : (∀ hasFuncEnd, shouldStackFail (y.linker l hasFuncEnd)
      (stackOf (y.linker l hasFuncEnd) func) backtrace =
        decide (∃ pc ∈ backtrace.take 100, y.InCode func pc)) ↔
      ((∃ pc ∈ backtrace.take 100, func ≤ pc ∧ pc ≤ func + f.size) ↔
        ∃ pc ∈ backtrace.take 100, y.InCode func pc) := by
    rw [Bool.forall_bool, and_iff_right hstart, Bool.eq_iff_iff, hrange, decide_eq_true_eq]
  have hthe : (∀ g ∈ y.functions, g.Has func → ∀ pc ∈ backtrace.take 100,
      ¬ (func ≤ pc ∧ pc ≤ func + g.size)) ↔
      ¬ ∃ pc ∈ backtrace.take 100, func ≤ pc ∧ pc ≤ func + f.size := by
    constructor
    · rintro h ⟨pc, hpc, hin⟩
      exact h f hmem hhas pc hpc hin
    · intro h g hg hghas pc hpc hin
      obtain rfl := y.apart g hg f hmem func hghas hhas
      exact h ⟨pc, hpc, hin⟩
  have hsub : (∃ pc ∈ backtrace.take 100, y.InCode func pc) →
      ∃ pc ∈ backtrace.take 100, func ≤ pc ∧ pc ≤ func + f.size := by
    rintro ⟨pc, hpc, hin⟩
    exact ⟨pc, hpc, hin.range hf⟩
  rw [hboth, hthe]
  constructor
  · intro h
    rcases Classical.em (∃ pc ∈ backtrace.take 100, y.InCode func pc) with hin | hout
    · exact Or.inl hin
    · exact Or.inr (mt h.mp hout)
  · rintro (hin | hout)
    · exact ⟨fun _ => hin, hsub⟩
    · exact ⟨fun h => absurd h hout, hsub⟩

/-- Two adjacent functions. -/
def twoFunctions : Layout where
  functions := [⟨16, 16⟩, ⟨32, 8⟩]
  apart := by
    intro f hf g hg pc hpc hpc'
    have hf' : f = ⟨16, 16⟩ ∨ f = ⟨32, 8⟩ := by simpa using hf
    have hg' : g = ⟨16, 16⟩ ∨ g = ⟨32, 8⟩ := by simpa using hg
    obtain ⟨h₁, h₂⟩ := hpc
    obtain ⟨h₃, h₄⟩ := hpc'
    rcases hf' with rfl | rfl <;> rcases hg' with rfl | rfl <;> first | rfl | (dsimp only at *; omega)
  nonNull := by decide

/-- A linker for which backtraces work. -/
def backtraces : Linker := { noSymbols with backtraceWorks := true }

/-- A frame at the first address of the second function is taken for one of the first function by
    one method, and not by the other. -/
theorem stack_methods_disagree :
    shouldStackFail (twoFunctions.linker backtraces true)
      (stackOf (twoFunctions.linker backtraces true) 16) [32] = true ∧
    shouldStackFail (twoFunctions.linker backtraces false)
      (stackOf (twoFunctions.linker backtraces false) 16) [32] = false ∧
    ¬ twoFunctions.InCode 16 32 := by
  decide +kernel

/-- For a frame inside of the first function they agree. -/
theorem stack_methods_agree_inside : ∃ s₁ : Fiu Unit,
    fiuEnableStack Platform.ieee (twoFunctions.linker backtraces true) (initialized () 0 0) keyJ 1 0 0
      16 (-1) = some (0, s₁) ∧
    ∀ hasFuncEnd, shouldStackFail (twoFunctions.linker backtraces hasFuncEnd)
      (stackOf (twoFunctions.linker backtraces hasFuncEnd) 16) [20] = true := by
  have hcalc : (fiuEnableStack Platform.ieee (twoFunctions.linker backtraces true)
      (initialized () 0 0) keyJ 1 0 0 16 (-1)).map Prod.fst = some 0 := by decide +kernel
  obtain ⟨⟨r, s₁⟩, henable, rfl⟩ := Option.map_eq_some_iff.mp hcalc
  have hin : ∃ pc ∈ [20].take 100, twoFunctions.InCode 16 pc := by decide +kernel
  refine ⟨s₁, henable, fun hasFuncEnd => ?_⟩
  rw [((stack_methods_agree_iff twoFunctions backtraces true henable).2 [20]).mpr (Or.inl hin)
    hasFuncEnd]
  exact decide_eq_true hin

end Libfiu
