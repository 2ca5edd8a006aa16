/-
  The reduction of counts: `mkwrap_body_reduce`.

  When its point of failure fires, the macro does `CNT -= random() % CNT`.  `CNT` is a `size_t` in some
  functions and an `int` in others.

  1. **The functions** — `ReducesCount` says of any function that its `reduce` directive names one of
     its parameters, and that the type of this one is `size_t` or `int`, as in posix.io.mod.
  2. **The arithmetic** — for a value of its type the remainder is that of the integers
     (`randomMod_eq`), so a positive count becomes some count from 1 to itself, and every such one
     when it is at most 2^31 (`reduceCount_pos`, `reduceCount_all`).  A count of 0 is divided by, and
     a negative one, which only an `int` can be, goes further down (`reduceCount_neg`).
  3. **Exactly when the reduction is right** (`body_reduce_iff`), for every function, its arguments,
     and all that `random` may return.

  A count that is a `size_t` is never negative, and one that is an `int` may be, though no caller
  should hand over such a one; what the macro makes of it is part of what the code does, and is
  said. `random` gives 31 bits, so from a count above 2^31 not every smaller one can come out.
-/
import Libfiu.PosixDirectives

namespace Libfiu

namespace Posix

open Calls

/-! ## The functions with a `reduce` directive

Two of them are written out, one for each type; the theorems are about all functions with such a
directive. -/

/-- A function of posix.io.mod under `fiu name base: posix/io/rw/`. -/
def rwFunction (name : String) (params : List (String × String))
    (distinct : (params.map Prod.snd).Nodup) (validErrnos : List String) (reduce : String)
    (variants : List String) : Function :=
  { ParsedFunction.init "ssize_t " name params "posix/io/rw" with
    distinct := distinct
    onError := some "-1"
    useErrno := true
    validErrnos := validErrnos
    reduce := some reduce
    variants := variants }

def readErrnos : List String := ["EBADFD", "EFAULT", "EINTR", "EINVAL", "EIO", "EISDIR"]

def read : Function := rwFunction "read"
  [("int ", "fd"), ("void *", "buf"), ("size_t ", "count")] (by decide) readErrnos "count" []

def readv : Function := rwFunction "readv"
  [("int ", "fd"), ("const struct iovec *", "iov"), ("int ", "iovcnt")] (by decide) readErrnos
  "iovcnt" []

/-- The parameter `p`, of type `ty`, is a count that is to be reduced. -/
structure Function.ReducesCount (f : Function) (ty p : String) : Prop where
  reduce_eq : f.reduce = some p
  param : (ty, p) ∈ f.params
  isCount : ty = "size_t " ∨ ty = "int "

/-! ## The arithmetic

`random() % CNT` is computed in the type that C converts both to: in `unsigned long` for a `size_t`,
and in `long` for an `int`. -/

/-- A value of the type. -/
def IntType.Has (ty : IntType) (x : ℤ) : Prop := ty.wrap x = x

/-- The values of a `size_t`. -/
theorem IntType.sizeT_has_iff (x : ℤ) : IntType.sizeT.Has x ↔ 0 ≤ x ∧ x < 2 ^ 64 := by
  show x % 2 ^ 64 = x ↔ _
  omega

/-- The values of an `int`. -/
theorem IntType.int_has_iff (x : ℤ) : IntType.int.Has x ↔ -2 ^ 31 ≤ x ∧ x < 2 ^ 31 := by
  show Int.bmod x (2 ^ 32) = x ↔ _
  rw [Int.bmod_def]
  split <;> omega

variable {ty : IntType} {r c n : ℤ}

/-- **The remainder** of what `random` returns is that of the integers. -/
theorem randomMod_eq (hty : ty = .sizeT ∨ ty = .int) (hr : 0 ≤ r ∧ r < 2 ^ 31) :
    ty.randomMod r c = r % c := by
  rcases hty with rfl | rfl
  · show r % 2 ^ 64 % c = r % c
    rw [Int.emod_eq_of_lt hr.1 (by omega)]
  · exact Int.tmod_eq_emod_of_nonneg hr.1

/-- What lies between 0 and a value of the type is one too. -/
theorem IntType.Has.between (hty : ty = .sizeT ∨ ty = .int) (hc : ty.Has c) (hn : 0 ≤ n ∧ n ≤ c) :
    ty.Has n := by
  rcases hty with rfl | rfl
  · rw [IntType.sizeT_has_iff] at hc ⊢
    omega
  · rw [IntType.int_has_iff] at hc ⊢
    omega

/-- A count of 0 is divided by. -/
theorem reduceCount_zero : reduceCount ty r 0 = none := rfl

/-- **A positive count** becomes a count from 1 to itself. -/
theorem reduceCount_pos (hty : ty = .sizeT ∨ ty = .int) (hr : 0 ≤ r ∧ r < 2 ^ 31) (hc : ty.Has c)
    (hpos : 0 < c) : reduceCount ty r c = some (c - r % c) ∧ 1 ≤ c - r % c ∧ c - r % c ≤ c := by
  have hlow := Int.emod_nonneg r hpos.ne'
  have hhigh := Int.emod_lt_of_pos r hpos
  have hhas : ty.wrap (c - r % c) = c - r % c := hc.between hty (by omega)
  rw [reduceCount, if_neg hpos.ne', randomMod_eq hty hr, hhas]
  exact ⟨rfl, by omega, by omega⟩

/-- **Every such count** comes from some value of `random`, when the count is at most 2^31. -/
theorem reduceCount_all (hty : ty = .sizeT ∨ ty = .int) (hc : ty.Has c) (hpos : 0 < c)
    (hmax : c ≤ 2 ^ 31) (hn : 1 ≤ n ∧ n ≤ c) :
    ∃ r, 0 ≤ r ∧ r < 2 ^ 31 ∧ reduceCount ty r c = some n := by
  refine ⟨c - n, by omega, by omega, ?_⟩
  rw [(reduceCount_pos hty (by omega) hc hpos).1, Int.emod_eq_of_lt (by omega) (by omega),
    sub_sub_cancel]

/-- **A negative count** stays as it is only when it divides what `random` returned. -/
theorem reduceCount_neg (hty : ty = .sizeT ∨ ty = .int) (hr : 0 ≤ r ∧ r < 2 ^ 31) (hc : ty.Has c)
    (hneg : c < 0) : reduceCount ty r c = some c ↔ c ∣ r := by
  obtain rfl : ty = .int := by
    rcases hty with rfl | rfl
    · rw [IntType.sizeT_has_iff] at hc
      omega
    · rfl
  have hrange := (IntType.int_has_iff c).mp hc
  have hlow := Int.emod_nonneg r hneg.ne
  have hhigh : r % c < -c := by
    have h := Int.emod_lt_of_pos r (Int.neg_pos_of_neg hneg)
    rwa [Int.emod_neg] at h
  rw [reduceCount, if_neg hneg.ne, randomMod_eq (Or.inr rfl) hr, Option.some.injEq,
    Int.dvd_iff_emod_eq_zero]
  constructor
  · intro h
    have hwrap : Int.bmod (c - r % c) (2 ^ 32) = c := h
    have hmod := Int.bmod_emod (x := c - r % c) (m := 2 ^ 32)
    rw [hwrap] at hmod
    omega
  · intro h
    rw [h, sub_zero]
    exact hc

/-! ## The macro

The count is a parameter of the function, with the type that its declaration gives it. -/

variable {ω : Type}

/-- What `random` answers when the point of failure of the reduction fired. -/
def Function.askRandom (f : Function) (env : Env ω) (t : Tls) (w : ω) : ℤ × Tls × ω :=
  env.call .random (f.askReduce env t w).2.1 (f.askReduce env t w).2.2

/-- The type of a parameter. -/
theorem enter_types {src : Source} {f : Function} {args : List ℤ} {ty p : String}
    (hp : (ty, p) ∈ f.params) : (Locals.enter src f.params args).types p = ty := by
  have hlookup : ∀ params : List (String × String), (params.map Prod.snd).Nodup → (ty, p) ∈ params →
      (params.map Prod.swap).lookup p = some ty := by
    intro params
    induction params with
    | nil => exact fun _ h => absurd h List.not_mem_nil
    | cons q params ih =>
      intro hnodup hmem
      obtain ⟨hq, hnodup⟩ := List.nodup_cons.mp hnodup
      rw [List.map_cons, Prod.swap, List.lookup_cons]
      rcases List.mem_cons.mp hmem with rfl | hmem
      · simp
      · have hne : p ≠ q.2 := by
          rintro rfl
          exact hq (List.mem_map.mpr ⟨_, hmem, rfl⟩)
        rw [beq_eq_false_iff_ne.mpr hne]
        exact ih hnodup hmem
  show ((f.params.map Prod.swap).lookup p).getD "int " = ty
  rw [hlookup f.params f.distinct hp]
  rfl

/-- **The code of `mkwrap_body_reduce`**, when its point of failure fires. -/
theorem bodyReduce_play {env : Env ω} {src : Source} {f : Function} {p : String} {l : Locals} {t : Tls}
    {w : ω} (hfires : (f.askReduce env t w).1 ≠ 0) :
    ((bodyReduce src (f.fiuName ++ "/reduce") p l t).play env.ext w).2 =
      (reduceCount (src.intType (l.types p)) (f.askRandom env t w).1 (l.vars p)).map fun n =>
        (.next (l.set p n), (f.askRandom env t w).2) := by
  show ((((if (f.askReduce env t w).1 ≠ 0 then reduceVar src p l else
    return .next l : Code Flow) (f.askReduce env t w).2.1)).play env.ext (f.askReduce env t w).2.2).2 = _
  rw [if_pos hfires]
  unfold reduceVar
  simp only [Code.bind_apply, Code.ask_apply, Run.bind_call, Run.bind_done, Run.play_call]
  show ((_ : Run Ext ℤ Tls Flow).play env.ext (f.askRandom env t w).2.2).2 = _
  have hr : (env.ext .random (f.askReduce env t w).2.1 (f.askReduce env t w).2.2).1 =
      (f.askRandom env t w).1 := rfl
  rw [hr]
  cases reduceCount (src.intType (l.types p)) (f.askRandom env t w).1 (l.vars p) with
  | none => rfl
  | some n => rfl

/-- What is said of the reduction: a positive count becomes some count from 1 to itself, and any other
    stays as it is. -/
def Reduced (p : String) (l : Locals) (outcome : Option (Flow × Tls × ω)) : Prop :=
  ∃ n t w, outcome = some (.next (l.set p n), t, w) ∧
    if 0 < l.vars p then 1 ≤ n ∧ n ≤ l.vars p else n = l.vars p

/-- What is said of a count that was reduced. -/
theorem reduced_iff {p : String} {l : Locals} {result : Option ℤ} {tw : Tls × ω} :
    Reduced p l (result.map fun n => (.next (l.set p n), tw)) ↔
      ∃ n, result = some n ∧ if 0 < l.vars p then 1 ≤ n ∧ n ≤ l.vars p else n = l.vars p := by
  constructor
  · rintro ⟨n, t, w, h, hn⟩
    obtain ⟨m, hm, he⟩ := Option.map_eq_some_iff.mp h
    have hset : (l.set p m).vars p = (l.set p n).vars p :=
      congrArg (fun l : Locals => l.vars p) (Flow.next.inj (congrArg Prod.fst he))
    have hmn : m = n := by
      simpa [Locals.set] using hset
    exact ⟨n, hmn ▸ hm, hn⟩
  · rintro ⟨n, rfl, hn⟩
    exact ⟨n, tw.1, tw.2, rfl, hn⟩

/-- **Exactly when the reduction is right.** The function has a `reduce` directive for a parameter
    that is a `size_t` or an `int` (`hf`), and these types are those of the platform (`hsize`,
    `hint`). The count is any value of its type (`hvalue`), the point of failure of the reduction
    fires (`hfires`), and `random` returns any number from 0 to 2^31 - 1 (`hrandom`).

    The count is reduced as is said if and only if it is positive, or it is negative and divides
    that number. And a positive count of at most 2^31 becomes any count from 1 to itself for some
    number, so every smaller count can come out. -/
theorem body_reduce_iff (env : Env ω) (src : Source) (hsize : src.intType "size_t " = .sizeT)
    (hint : src.intType "int " = .int) {f : Function} {ty p : String} (hf : f.ReducesCount ty p)
    (args : List ℤ) (count : ℤ) (hcount : f.named src args p = count)
    (hvalue : (src.intType ty).Has count) {t : Tls} {w : ω}
    (hfires : (f.askReduce env t w).1 ≠ 0)
    (hrandom : 0 ≤ (f.askRandom env t w).1 ∧ (f.askRandom env t w).1 < 2 ^ 31) :
    (Reduced p (.enter src f.params args)
      ((bodyReduce src (f.fiuName ++ "/reduce") p (.enter src f.params args) t).play env.ext w).2 ↔
        0 < count ∨ (count < 0 ∧ count ∣ (f.askRandom env t w).1)) ∧
    (0 < count → count ≤ 2 ^ 31 → ∀ n, 1 ≤ n → n ≤ count →
      ∃ r, 0 ≤ r ∧ r < 2 ^ 31 ∧ reduceCount (src.intType ty) r count = some n) := by
  have hty : src.intType ty = .sizeT ∨ src.intType ty = .int := by
    rcases hf.isCount with rfl | rfl
    · exact Or.inl hsize
    · exact Or.inr hint
  have hvars : (Locals.enter src f.params args).vars p = count := hcount
  refine ⟨?_, fun hpos hmax n hlow hhigh => reduceCount_all hty hvalue hpos hmax ⟨hlow, hhigh⟩⟩
  have hrun : ((bodyReduce src (f.fiuName ++ "/reduce") p (.enter src f.params args) t).play
      env.ext w).2 = _ := bodyReduce_play hfires
  rw [hrun, reduced_iff, enter_types hf.param, hvars]
  rcases lt_trichotomy count 0 with hneg | rfl | hpos
  · -- a negative count
    have hiff := reduceCount_neg hty hrandom hvalue hneg
    rw [or_iff_right hneg.not_gt, and_iff_right hneg, ← hiff]
    constructor
    · rintro ⟨n, hn, hsame⟩
      rw [if_neg hneg.not_gt] at hsame
      rw [hn, hsame]
    · intro h
      exact ⟨count, h, by rw [if_neg hneg.not_gt]⟩
  · -- it is divided by
    refine iff_of_false ?_ (by omega)
    rintro ⟨n, hn, -⟩
    rw [reduceCount_zero] at hn
    cases hn
  · obtain ⟨heq, hlow, hhigh⟩ := reduceCount_pos hty hrandom hvalue hpos
    refine iff_of_true ⟨_, heq, ?_⟩ (Or.inl hpos)
    rw [if_pos hpos]
    exact ⟨hlow, hhigh⟩

/-- A platform with a `size_t` and an `int`. -/
def ioSource : Source :=
  { someSource "posix.io.c" with intType := fun ty => if ty = "size_t " then .sizeT else .int }

/-- A variable, where the code goes on. -/
def Flow.var (name : String) : Flow → Option ℤ
  | .next l => some (l.vars name)
  | _ => none

/-- `read` with a count of 0 divides by it; and `readv` with a count of -2 reads -3 buffers. -/
theorem body_reduce_wrong :
    ((bodyReduce ioSource "posix/io/rw/read/reduce" "count"
      (.enter ioSource read.params [0, 4096, 0]) Tls.start).play Env.failing.ext ()).2.isNone = true ∧
    ((bodyReduce ioSource "posix/io/rw/readv/reduce" "iovcnt"
      (.enter ioSource readv.params [0, 4096, -2]) Tls.start).play Env.failing.ext ()).2.bind
        (fun r => r.1.var "iovcnt") = some (-3) := by
  decide +kernel

/-- A count of 10 is reduced. -/
theorem body_reduce_ten : Reduced "count" (.enter ioSource read.params [0, 4096, 10])
    ((bodyReduce ioSource (read.fiuName ++ "/reduce") "count"
      (.enter ioSource read.params [0, 4096, 10]) Tls.start).play Env.failing.ext ()).2 := by
  have hcount : read.ReducesCount "size_t " "count" := ⟨rfl, by decide, Or.inl rfl⟩
  have hiff := (body_reduce_iff Env.failing ioSource rfl rfl hcount [0, 4096, 10] 10
    (t := Tls.start) (w := ()) rfl ((IntType.sizeT_has_iff 10).mpr (by decide)) (by decide)
    (by decide)).1
  exact hiff.mpr (Or.inl (by decide))

end Posix

end Libfiu
