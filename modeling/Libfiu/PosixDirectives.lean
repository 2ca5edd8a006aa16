/-
  What the directives of a function mean, and what its wrapper does.

  `AsDirected` is what they mean, for one call of a wrapper that is not nested: what was called, in
  order, and how the call ended.  The wrapper that the generator writes does that exactly when the
  function `Meets` a condition (`generated_as_directed_iff`), which it may fail in three ways:

  * `ferror` is given without `valid errnos`: the generator reads it, but writes a body that does not
    use it.  `ungetc` is such a function;
  * failinfo is set, and `errno` cannot become failinfo: without `valid errnos` it is not touched, and
    a failinfo that does not fit into an `int` is cut off;
  * `reduce` fires on a count of 0, by which it then divides.

  The specification looks at a call from outside: the trace of what was called, the result and
  `errno`. The wrapper is run piece by piece (`Running the pieces`), each with what it adds to the
  trace; and the two are compared at the end, in the four cases of the reduction and of the failure.

  Which of the three ways of failing a function can have is seen from its directives, and when it
  does, from the values of one call; so the condition is one on both.
-/
import Libfiu.PosixCodegen

namespace Libfiu

namespace Posix

open Calls

/-- The surroundings of a wrapper: the foreign calls, which may change the variables of the thread,
    and the table of streams, which does not.  The functions that are wrapped exist: `dlsym` finds
    them. -/
structure Env (ω : Type) where
  call : Ext → Tls → ω → ℤ × Tls × ω
  table : Ext → ω → ℤ × ω
  resolves : ∀ symbol t w, (call (.libcSymbol symbol) t w).1 ≠ 0

/-- Is it a call into the table of streams? -/
def Ext.isTable : Ext → Bool
  | .pthreadOnce | .hashCreate | .hashSet _ | .hashGet _ | .hashDel _ => true
  | _ => false

/-- The foreign calls of a wrapper. -/
def Env.ext {ω : Type} (env : Env ω) (e : Ext) (t : Tls) (w : ω) : ℤ × Tls × ω :=
  if e.isTable then ((env.table e w).1, t, (env.table e w).2) else env.call e t w

/-- Is it a call of an original function? -/
def Ext.isOrig : Ext → Bool
  | .orig .. => true
  | _ => false

/-- What is called in a call of a wrapper, in order: with the answers, and with the variables of the
    thread after it. -/
abbrev Trace : Type := List (Ext × ℤ × Tls)

/-- The calls of original functions. -/
def Trace.origs (calls : Trace) : Trace := calls.filter fun c => c.1.isOrig

variable {ω : Type} (src : Source) (f : Function) (onErr : String) (args : List ℤ)

/-! ## What the directives mean

The specification of a generated wrapper, by what is called and what is returned: the point of
failure is asked, and then the call fails as directed or is a call of the original with its
arguments. -/

/-- The errnos that are declared, on this platform. -/
def Function.declared : List ℤ := (f.validErrnos.filter src.defined).map src.value

/-- What a name in a directive stands for, in a call with these arguments. -/
def Function.named (name : String) : ℤ := (Locals.enter src f.params args).vars name

/-- Only the parameter to be reduced may have changed. -/
def Function.SameArgs (args' : List ℤ) : Prop :=
  args'.length = args.length ∧
    ∀ (i : ℕ) (name : String), f.paramsn[i]? = some name → f.reduce ≠ some name → args'[i]? = args[i]?

/-- The point of failure fired, with this failinfo, and this is a failure as directed. -/
structure Injected (finfo : ℤ) (calls : Trace) (r errno : ℤ) : Prop where
  origs : calls.origs = []
  result : r = src.value onErr
  fromFailinfo : finfo ≠ 0 → errno = finfo
  fromErrnos : finfo = 0 → f.useErrno = true → errno ∈ f.declared src
  recorded : ∀ s, f.ferror = some s → ∃ stream a t, (Ext.hashSet stream, a, t) ∈ calls ∧
    (f.reduce ≠ some s → stream = f.named src args s)

/-- The point of failure did not fire, and this is a call of the original. -/
def Passed (calls : Trace) (r : ℤ) : Prop :=
  ∃ args' t, calls.origs = [(.orig f.name args', r, t)] ∧ f.SameArgs args args'

/-- **What the directives mean**: the call ends, its point of failure was asked, and then it is one or
    the other. -/
def AsDirected (outcome : Trace × Option (ℤ × Tls × ω)) : Prop :=
  ∃ r t w, outcome.2 = some (r, t, w) ∧
    ∃ status t₁, (Ext.fiuFail f.fiuName, status, t₁) ∈ outcome.1 ∧
      if status ≠ 0 then Injected src f onErr args t₁.failinfo outcome.1 r t.errno
      else Passed f args outcome.1 r

/-! ## The condition

What the directives demand and C cannot do: to reduce a count of 0, to choose an errno from an empty
array, to store a failinfo that is no `int`, and to record a stream where nothing is written for it.
-/

/-- What the `reduce` directive comes to: the variables with which the point of failure is reached,
    unless a count of 0 is to be reduced. -/
def Function.reduceStep (env : Env ω) (l : Locals) (t : Tls) (w : ω) : Option (Locals × Tls × ω) :=
  match f.reduce.filter (· ≠ "") with
  | none => some (l, t, w)
  | some p =>
    let a := env.call (.fiuFail (f.fiuName ++ "/reduce")) t w
    if a.1 = 0 then some (l, a.2)
    else
      let r := env.call .random a.2.1 a.2.2
      (reduceCount (src.intType (l.types p)) r.1 (l.vars p)).map fun n => (l.set p n, r.2)

/-- The condition on a failure, in a thread with these variables. -/
def Function.CanFail (t : Tls) : Prop :=
  (f.ferror ≠ none → f.useErrno = true) ∧
  (t.failinfo ≠ 0 → if f.useErrno then IntType.int.wrap t.failinfo = t.failinfo
    else t.errno = t.failinfo)

/-- The condition on a call: no count of 0 is reduced, and if the point of failure fires, the failure
    can be as directed. -/
def Function.Meets (env : Env ω) (t : Tls) (w : ω) : Prop :=
  ∃ s ∈ f.reduceStep src env (.enter src f.params args) { t with fiuCalled := t.fiuCalled + 1 } w,
    (env.call (.fiuFail f.fiuName) s.2.1 s.2.2).1 ≠ 0 →
      f.CanFail (env.call (.fiuFail f.fiuName) s.2.1 s.2.2).2.1

/-! ## Running the pieces

One lemma for each piece of code, from any thread and world: it ends, and this is what it called. -/

variable {src} {f} {onErr} {args} {env : Env ω}

/-- Calls of nothing that the directives speak about. -/
def Trace.Quiet (fiuName : String) (calls : Trace) : Prop :=
  ∀ c ∈ calls, c.1.isOrig = false ∧ c.1 ≠ .fiuFail fiuName

/-- One after the other. -/
theorem Trace.Quiet.append {fiuName : String} {calls calls' : Trace} (h : calls.Quiet fiuName)
    (h' : calls'.Quiet fiuName) : Trace.Quiet fiuName (calls ++ calls') :=
  fun c hc => (List.mem_append.mp hc).elim (h c) (h' c)

/-- Quiet calls are no calls of originals. -/
theorem Trace.Quiet.origs {fiuName : String} {calls : Trace} (h : calls.Quiet fiuName) :
    calls.origs = [] :=
  List.filter_eq_nil_iff.mpr fun c hc => by
    rw [(h c hc).1]
    exact Bool.false_ne_true

/-- Only these foreign functions are called. -/
def Trace.Among (es : List Ext) (calls : Trace) : Prop := ∀ c ∈ calls, c.1 ∈ es

theorem Trace.among_nil {es : List Ext} : Trace.Among es [] := fun _ hc => absurd hc List.not_mem_nil

theorem Trace.among_one {es : List Ext} {e : Ext} (he : e ∈ es) (a : ℤ) (t : Tls) :
    Trace.Among es [(e, a, t)] := by
  intro c hc
  rw [List.mem_singleton.mp hc]
  exact he

/-- One after the other. -/
theorem Trace.Among.append {es : List Ext} {calls calls' : Trace} (h : calls.Among es)
    (h' : calls'.Among es) : Trace.Among es (calls ++ calls') :=
  fun c hc => (List.mem_append.mp hc).elim (h c) (h' c)

/-- And none of them is one that the directives speak about. -/
theorem Trace.Among.quiet {es : List Ext} {fiuName : String} {calls : Trace} (h : calls.Among es)
    (hes : ∀ e ∈ es, e.isOrig = false ∧ e ≠ .fiuFail fiuName) : calls.Quiet fiuName :=
  fun c hc => hes c.1 (h c hc)

/-- The calls of originals, one part after the other. -/
theorem Trace.origs_append (calls calls' : Trace) :
    Trace.origs (calls ++ calls') = calls.origs ++ calls'.origs := List.filter_append ..

/-- The code ends, and `Q` holds of the calls, the result, and the thread and the world then. -/
abbrev Ends {α : Type} (env : Env ω) (m : Code α) (t : Tls) (w : ω)
    (Q : Trace → α → Tls → ω → Prop) : Prop := Run.Ends env.ext (m t) w Q

variable {α β : Type} {n : String} {t : Tls} {w : ω}

/-- One piece of code after another. -/
theorem Ends.bind {m : Code α} {g : α → Code β} {Q : Trace → α → Tls → ω → Prop}
    {Q' : Trace → β → Tls → ω → Prop} (hm : Ends env m t w Q)
    (hg : ∀ c a t' w', Q c a t' w' → Ends env (g a) t' w' fun c' b t'' w'' => Q' (c ++ c') b t'' w'') :
    Ends env (m >>= g) t w Q' := Run.Ends.bind hm hg

theorem quiet_nil : Trace.Quiet n [] := fun _ hc => absurd hc List.not_mem_nil

theorem quiet_one {e : Ext} {a : ℤ} {t : Tls} (horig : e.isOrig = false) (hfail : e ≠ .fiuFail n) :
    Trace.Quiet n [(e, a, t)] := by
  intro c hc
  rw [List.mem_singleton.mp hc]
  exact ⟨horig, hfail⟩

/-- A call into the table of streams. -/
theorem ends_table {e : Ext} (he : e.isTable = true) :
    Ends env (Code.ask e) t w fun c _ t' _ => (∃ a, c = [(e, a, t)]) ∧ t' = t := by
  refine Run.ends_ask ?_
  unfold Env.ext
  rw [if_pos he]
  exact ⟨⟨_, rfl⟩, rfl⟩

/-- Once up and once down again. -/
theorem Tls.inc_dec (t : Tls) : { t with fiuCalled := t.fiuCalled + 1 - 1 } = t := by
  rw [Int.add_sub_cancel]

/-- The table is created, or it is there: the thread is as before. -/
theorem ends_ferrorTable : Ends env ferrorTable t w fun c _ t' _ =>
    c.Among [.pthreadOnce, .hashCreate] ∧ t' = t := by
  refine (ends_table (e := .pthreadOnce) rfl).bind ?_
  rintro c first t' w' ⟨⟨a, rfl⟩, rfl⟩
  have honce : Trace.Among [.pthreadOnce, .hashCreate] [(Ext.pthreadOnce, a, t')] :=
    Trace.among_one (List.mem_cons_self ..) a t'
  by_cases hfirst : first ≠ 0
  · rw [if_pos hfirst]
    -- with the counter raised
    show Ends env (do let _ ← Code.ask .hashCreate; recDec) { t' with fiuCalled := t'.fiuCalled + 1 }
      w' _
    refine (ends_table (e := .hashCreate) rfl).bind ?_
    rintro c u t'' w'' ⟨⟨b, rfl⟩, rfl⟩
    refine Run.ends_done ⟨?_, t'.inc_dec⟩
    rw [List.append_nil]
    exact honce.append (Trace.among_one (List.mem_cons_of_mem _ (List.mem_cons_self ..)) b _)
  · rw [if_neg hfirst]
    refine Run.ends_done ⟨?_, rfl⟩
    rw [List.append_nil]
    exact honce

/-- `set_ferror` -/
theorem ends_setFerror (stream : ℤ) : Ends env (setFerror stream) t w fun c _ t' _ =>
    c.Quiet n ∧ t' = t ∧ ∃ a t₁, (Ext.hashSet stream, a, t₁) ∈ c := by
  refine ends_ferrorTable.bind ?_
  rintro c _ t' w' ⟨hc, rfl⟩
  have hquiet : c.Quiet n := hc.quiet (by simp [Ext.isOrig])
  refine (ends_table (e := .hashSet stream) rfl).bind ?_
  rintro c' u t'' w'' ⟨⟨a, rfl⟩, rfl⟩
  refine Run.ends_done ⟨?_, rfl, a, t'', ?_⟩
  · rw [List.append_nil]
    exact hquiet.append (quiet_one rfl (by simp))
  · rw [List.append_nil]
    exact List.mem_append_right c (List.mem_singleton.mpr rfl)

/-- `_fiu_init_NAME`: `dlsym` finds the function. -/
theorem ends_fiuInit (name : String) : Ends env (fiuInit src name) t w fun c _ t' _ =>
    c.Among [.libcSymbol name] ∧ t'.orig (src.file, name) ≠ 0 := by
  let key := (src.file, name)
  let t₁ : Tls := { t with
    fiuCalled := t.fiuCalled + 1
    inInit := Function.update t.inInit key (t.inInit key + 1) }
  show Ends env (do
    let addr ← Code.ask (.libcSymbol name)
    setOrig src name addr
    addInInit src name (-1)
    recDec) t₁ w _
  have hask : Ends env (Code.ask (.libcSymbol name)) t₁ w fun c addr _ _ =>
      Trace.Among [.libcSymbol name] c ∧ addr ≠ 0 :=
    Run.ends_ask ⟨Trace.among_one (List.mem_singleton.mpr rfl) _ _, env.resolves name t₁ w⟩
  refine hask.bind ?_
  rintro c addr t₂ w' ⟨hc, haddr⟩
  refine Run.ends_done ⟨?_, ?_⟩
  · rw [List.append_nil]
    exact hc
  · show Function.update t₂.orig key addr key ≠ 0
    rw [Function.update_self]
    exact haddr

/-- `_fiu_orig_NAME` is resolved if need be. -/
theorem ends_initIfNull (name : String) : Ends env (initIfNull src name) t w fun c _ t' _ =>
    c.Among [.libcSymbol name] ∧ t'.orig (src.file, name) ≠ 0 := by
  have hif : initIfNull src name t =
      if t.orig (src.file, name) = 0 then fiuInit src name t else .done () t :=
    Code.ite_apply _ _ _ _
  show Run.Ends env.ext (initIfNull src name t) w _
  rw [hif]
  by_cases hnull : t.orig (src.file, name) = 0
  · rw [if_pos hnull]
    exact ends_fiuInit name
  · rw [if_neg hnull]
    exact Run.ends_done ⟨Trace.among_nil, hnull⟩

/-- The original is called. -/
theorem ends_callOrig {name : String} (hname : t.orig (src.file, name) ≠ 0) (args : List ℤ) :
    Ends env (callOrig src name args) t w fun c r _ _ => ∃ t₁, c = [(.orig name args, r, t₁)] := by
  have hif : callOrig src name args t =
      if t.orig (src.file, name) = 0 then .stuck else .call (.orig name args) t .done :=
    Code.ite_apply _ _ _ _
  show Run.Ends env.ext (callOrig src name args t) w _
  rw [hif, if_neg hname]
  exact Run.ends_ask ⟨_, rfl⟩

/-- The index into the array is one. -/
theorem index_lt (x : ℤ) {k : ℕ} (hk : 0 < k) : (x % 2 ^ 64).toNat % (4 * k) / 4 < k := by
  have h : (x % 2 ^ 64).toNat % (4 * k) < 4 * k := Nat.mod_lt _ (by omega)
  omega

/-- `errno` is set: from failinfo as far as it fits into an `int`, or from the array. -/
theorem ends_failErrno {l : Locals} (hl : l.validErrnos ≠ []) :
    Ends env (failErrno l) t w fun c _ t' _ => c.Quiet n ∧
      (t.failinfo ≠ 0 → t'.errno = IntType.int.wrap t.failinfo) ∧
      (t.failinfo = 0 → t'.errno ∈ l.validErrnos) := by
  have hif : failErrno l t =
      if t.failinfo = 0 then randomErrno l t else setErrno (IntType.int.wrap t.failinfo) t :=
    Code.ite_apply _ _ _ _
  show Run.Ends env.ext (failErrno l t) w _
  rw [hif]
  by_cases hinfo : t.failinfo = 0
  · rw [if_pos hinfo]
    have hask : Ends env (Code.ask .random) t w fun c _ _ _ => Trace.Quiet n c :=
      Run.ends_ask (quiet_one rfl (by simp))
    refine hask.bind ?_
    rintro c r t' w' hc
    have hindex := index_lt r (List.length_pos_of_ne_nil hl)
    rw [List.getElem?_eq_getElem hindex]
    refine Run.ends_done ⟨?_, fun h => absurd hinfo h, fun _ => List.getElem_mem hindex⟩
    rw [List.append_nil]
    exact hc
  · rw [if_neg hinfo]
    exact Run.ends_done ⟨quiet_nil, fun _ => rfl, fun h => absurd h hinfo⟩

/-! ## The failure, and the original

The two ways out of a wrapper. On the one the original is not called, on the other it is called
once. -/

/-- A body that makes the function fail, and what follows it. -/
theorem ends_bodyFail {fail : Code ℤ} {l : Locals} {rest : Locals → Code ℤ}
    {Q : Trace → ℤ → Tls → ω → Prop} {a : ℤ × Tls × ω} (ha : a = env.call (.fiuFail n) t w)
    (hfail : a.1 ≠ 0 → Ends env fail a.2.1 a.2.2 fun c r t' w' =>
      Q ((.fiuFail n, a.1, a.2.1) :: c) r { t' with fiuCalled := t'.fiuCalled - 1 } w')
    (hnext : a.1 = 0 → Ends env (rest l) a.2.1 a.2.2 fun c r t' w' =>
      Q ((.fiuFail n, a.1, a.2.1) :: c) r t' w') :
    Ends env (do (← bodyFail n fail l).follow rest) t w Q := by
  subst ha
  refine Run.ends_call ?_
  show Run.Ends env.ext
    (((if (env.call (.fiuFail n) t w).1 ≠ 0 then do return .exit (← fail) else return .next l :
      Code Flow) (env.call (.fiuFail n) t w).2.1).bind fun flow => flow.follow rest)
    (env.call (.fiuFail n) t w).2.2 _
  by_cases hfires : (env.call (.fiuFail n) t w).1 ≠ 0
  · rw [if_pos hfires]
    have hexit : Run.Ends env.ext ((do return .exit (← fail) : Code Flow)
        (env.call (.fiuFail n) t w).2.1) (env.call (.fiuFail n) t w).2.2 fun c flow t' w' =>
          ∃ r, flow = .exit r ∧ Q ((.fiuFail n, (env.call (.fiuFail n) t w).1,
            (env.call (.fiuFail n) t w).2.1) :: c) r { t' with fiuCalled := t'.fiuCalled - 1 } w' := by
      refine (hfail hfires).bind ?_
      intro c r t' w' hQ
      refine Run.ends_done ⟨r, rfl, ?_⟩
      rwa [List.append_nil]
    refine hexit.bind ?_
    rintro c flow t' w' ⟨r, rfl, hQ⟩
    refine Run.ends_done ?_
    rwa [List.append_nil]
  · rw [if_neg hfires]
    exact hnext (not_not.mp hfires)

/-- `mkwrap_bottom` -/
theorem ends_bottom {name : String} {paramsn : List String} {l : Locals} :
    Ends env (assemble src [.bottom name paramsn] l) t w fun c r _ _ =>
      ∃ q t₁, c = q ++ [(.orig name (paramsn.map l.vars), r, t₁)] ∧
        Trace.Among [.libcSymbol name] q := by
  have hbottom : Ends env (bottom src name paramsn l) t w fun c flow _ _ =>
      ∃ q r t₁, c = q ++ [(.orig name (paramsn.map l.vars), r, t₁)] ∧
        Trace.Among [.libcSymbol name] q ∧ flow = .exit r := by
    refine (ends_initIfNull name).bind ?_
    rintro q _ t' w' ⟨hq, hname⟩
    refine (ends_callOrig hname _).bind ?_
    rintro c r t'' w'' ⟨t₁, rfl⟩
    refine Run.ends_done ⟨q, r, t₁, ?_, hq, rfl⟩
    rw [List.append_nil]
  refine hbottom.bind ?_
  rintro c flow t' w' ⟨q, r, t₁, rfl, hq, rfl⟩
  refine Run.ends_done ⟨q, t₁, ?_, hq⟩
  rw [List.append_nil]

/-- What a failure comes to, in a thread that was left like `t₁` when the point of failure fired. -/
structure Failure (src : Source) (f : Function) (onErr : String) (l : Locals) (t₁ : Tls) (c : Trace)
    (r : ℤ) (t' : Tls) : Prop where
  quiet : c.Quiet f.fiuName
  result : r = src.value onErr
  fromFailinfo : f.useErrno = true → t₁.failinfo ≠ 0 → t'.errno = IntType.int.wrap t₁.failinfo
  fromErrnos : f.useErrno = true → t₁.failinfo = 0 → t'.errno ∈ f.declared src
  recorded : f.useErrno = true → ∀ s, f.ferror = some s → ∃ b t₂, (Ext.hashSet (l.vars s), b, t₂) ∈ c
  hardcoded : f.useErrno = false → c = [] ∧ t'.errno = t₁.errno

/-- The variables behind `static const int valid_errnos[]`. -/
def Locals.declare (l : Locals) (src : Source) (f : Function) : Locals :=
  { l with validErrnos := f.declared src }

/-- The array is declared, and the function goes on. -/
theorem assemble_writeValidErrnos (ms : List Macro) (l : Locals) (t : Tls) :
    assemble src (writeValidErrnos f.validErrnos :: ms) l t =
      assemble src ms (l.declare src f) t := by
  have hdeclared : ((f.validErrnos.map fun e => (e, e)).filter fun e => src.defined e.1).map
      (fun e => src.value e.2) = f.declared src := by
    rw [List.filter_map, List.map_map]
    rfl
  show assemble src ms { l with validErrnos := _ } t = _
  rw [hdeclared]
  rfl

/-- At least one errno is declared. -/
theorem declared_ne_nil (hdef : ∃ e ∈ f.validErrnos, src.defined e = true) :
    f.declared src ≠ [] := by
  obtain ⟨e, he, hdefined⟩ := hdef
  exact List.ne_nil_of_mem (List.mem_map_of_mem (List.mem_filter.mpr ⟨he, hdefined⟩))

/-- The body of a function that sets `errno`. -/
theorem ends_errno_body {l : Locals} (huse : f.useErrno = true) (hl : f.declared src ≠ [])
    (hf : f.ferror = none) (w : ω) (t : Tls) : Ends env (do
      failErrno (l.declare src f)
      return src.value onErr) t w fun c r t' _ => Failure src f onErr l t c r t' := by
  refine (ends_failErrno (n := f.fiuName) (l := l.declare src f) hl).bind ?_
  rintro c _ t' w' ⟨hc, hinfo, hdecl⟩
  refine Run.ends_done ⟨?_, rfl, fun _ => hinfo, fun _ => hdecl, ?_, ?_⟩
  · rw [List.append_nil]
    exact hc
  · intro _ s hs
    rw [hf] at hs
    cases hs
  · intro hfalse
    rw [huse] at hfalse
    cases hfalse

/-- The body of a function that sets `errno` and records the stream. -/
theorem ends_errno_ferror_body {l : Locals} {s : String} (huse : f.useErrno = true)
    (hl : f.declared src ≠ []) (hf : f.ferror = some s) (w : ω) (t : Tls) : Ends env (do
      failErrno (l.declare src f)
      setFerror (l.vars s)
      return src.value onErr) t w fun c r t' _ => Failure src f onErr l t c r t' := by
  refine (ends_failErrno (n := f.fiuName) (l := l.declare src f) hl).bind ?_
  rintro c _ t' w' ⟨hc, hinfo, hdecl⟩
  refine (ends_setFerror (n := f.fiuName) (l.vars s)).bind ?_
  rintro c' _ t'' w'' ⟨hc', rfl, hset⟩
  refine Run.ends_done ⟨?_, rfl, fun _ => hinfo, fun _ => hdecl, ?_, ?_⟩
  · rw [List.append_nil]
    exact hc.append hc'
  · intro _ s' hs'
    rw [hf] at hs'
    cases hs'
    obtain ⟨b, t₂, hmem⟩ := hset
    refine ⟨b, t₂, ?_⟩
    rw [List.append_nil]
    exact List.mem_append_right c hmem
  · intro hfalse
    rw [huse] at hfalse
    cases hfalse

/-- The body of a function that does not set `errno`, whether or not it has a `ferror`. -/
theorem ends_hardcoded_body {l : Locals} (huse : f.useErrno = false) (w : ω) (t : Tls) :
    Ends env (do return src.value onErr) t w fun c r t' _ => Failure src f onErr l t c r t' := by
  have hne : ∀ {p : Prop}, f.useErrno = true → p := fun h => by
    rw [huse] at h
    cases h
  exact Run.ends_done ⟨quiet_nil, rfl, fun h => hne h, fun h => hne h, fun h => hne h,
    fun _ => ⟨rfl, rfl⟩⟩

/-- What follows the `reduce` directive: the point of failure is asked, and then the function fails
    or calls the original. -/
def Decided (src : Source) (f : Function) (onErr : String) (l : Locals) (a : ℤ × Tls × ω) (c : Trace)
    (r : ℤ) (t' : Tls) : Prop :=
  ∃ c' : Trace, c = (.fiuFail f.fiuName, a.1, a.2.1) :: c' ∧
    (a.1 ≠ 0 → Failure src f onErr l a.2.1 c' r t') ∧
    (a.1 = 0 → ∃ q t₁, c' = q ++ [(.orig f.name (f.paramsn.map l.vars), r, t₁)] ∧
      Trace.Quiet f.fiuName q)

/-- The code behind the `reduce` directive does what follows it. -/
theorem ends_decided {fail : Code ℤ} {l l' : Locals} (hl : l'.vars = l.vars)
    (hfail : ∀ w t, Ends env fail t w fun c r t' _ => Failure src f onErr l t c r t') :
    Ends env (do (← bodyFail f.fiuName fail l').follow (assemble src [.bottom f.name f.paramsn])) t w
      fun c r t' _ => Decided src f onErr l (env.call (.fiuFail f.fiuName) t w) c r t' := by
  refine ends_bodyFail rfl (fun hfires => ?_) fun hnot => ?_
  · refine (hfail _ _).mono ?_
    intro c r t' w' h
    refine ⟨c, rfl, fun _ => ?_, fun h0 => absurd h0 hfires⟩
    exact ⟨h.quiet, h.result, h.fromFailinfo, h.fromErrnos, h.recorded, h.hardcoded⟩
  · refine ends_bottom.mono ?_
    rintro c r t' w' ⟨q, t₁, rfl, hq⟩
    have hquiet : Trace.Quiet f.fiuName q := Trace.Among.quiet hq (by simp [Ext.isOrig])
    refine ⟨_, rfl, fun h => absurd hnot h, fun _ => ⟨q, t₁, ?_, hquiet⟩⟩
    rw [hl]

/-- The body that the generator chooses. -/
theorem ends_body {body : List Macro} {l : Locals} (hbody : f.failBody = .ok body)
    (hon : f.onError = some onErr)
    (hdef : f.useErrno = true → ∃ e ∈ f.validErrnos, src.defined e = true) :
    Ends env (assemble src (body ++ [.bottom f.name f.paramsn]) l) t w fun c r t' _ =>
      Decided src f onErr l (env.call (.fiuFail f.fiuName) t w) c r t' := by
  unfold ParsedFunction.failBody at hbody
  rw [hon] at hbody
  by_cases huse : f.useErrno = true
  · have hl := declared_ne_nil (hdef huse)
    rw [if_pos huse] at hbody
    cases hferror : f.ferror with
    | some s =>
      rw [hferror] at hbody
      cases hbody
      show Run.Ends env.ext (assemble src (writeValidErrnos f.validErrnos :: _) l t) w _
      rw [assemble_writeValidErrnos]
      exact ends_decided rfl fun w t => ends_errno_ferror_body huse hl hferror w t
    | none =>
      rw [hferror] at hbody
      cases hbody
      show Run.Ends env.ext (assemble src (writeValidErrnos f.validErrnos :: _) l t) w _
      rw [assemble_writeValidErrnos]
      exact ends_decided rfl fun w t => ends_errno_body huse hl hferror w t
  · rw [if_neg huse] at hbody
    cases hbody
    exact ends_decided rfl fun w t => ends_hardcoded_body (Bool.eq_false_of_not_eq_true huse) w t

/-! ## The `reduce` directive

It comes first and has a point of failure of its own. Behind it one parameter may have changed, and
the rest of the wrapper takes it as if it had been given. -/

/-- What the `reduce` directive calls. -/
def Trace.Reducing (fiuName : String) (calls : Trace) : Prop :=
  calls.Quiet fiuName ∧ ∀ c ∈ calls, c.1.isTable = false

theorem reducing_nil : Trace.Reducing n [] := ⟨quiet_nil, fun _ hc => absurd hc List.not_mem_nil⟩

/-- The name of the other point of failure is longer. -/
theorem reduce_name (name : String) : Ext.fiuFail (name ++ "/reduce") ≠ .fiuFail name := by
  intro h
  have hlen := congrArg String.length (Ext.fiuFail.inj h)
  rw [String.length_append] at hlen
  have : "/reduce".length = 7 := by decide
  omega

theorem reducing_cons {e : Ext} {a : ℤ} {t : Tls} {calls : Trace} (horig : e.isOrig = false)
    (hfail : e ≠ .fiuFail n) (htable : e.isTable = false) (h : calls.Reducing n) :
    Trace.Reducing n ((e, a, t) :: calls) :=
  ⟨List.forall_mem_cons.mpr ⟨⟨horig, hfail⟩, h.1⟩, List.forall_mem_cons.mpr ⟨htable, h.2⟩⟩

/-- The answer to the point of failure of the `reduce` directive. -/
def Function.askReduce (f : Function) (env : Env ω) (t : Tls) (w : ω) : ℤ × Tls × ω :=
  env.call (.fiuFail (f.fiuName ++ "/reduce")) t w

/-- `CNT -= random() % CNT;`, and what follows it. -/
theorem reduceVar_bind {β : Type} (p : String) (l : Locals) (t : Tls) (g : Flow → Code β) :
    (reduceVar src p l t).bind g = .call .random t fun r s =>
      (reduceCount (src.intType (l.types p)) r (l.vars p)).elim .stuck
        fun n => g (.next (l.set p n)) s := by
  unfold reduceVar
  show Run.call _ _ _ = _
  congr
  funext r s
  dsimp only
  rw [Run.bind_done]
  cases reduceCount (src.intType (l.types p)) r (l.vars p) with
  | none => rfl
  | some n => rfl

/-- The code of `mkwrap_body_reduce`, and what follows it. -/
theorem ends_bodyReduce {p : String} {ms : List Macro} {l l' : Locals} {t₁ : Tls} {w₁ : ω}
    {Q : Trace → ℤ → Tls → ω → Prop} (hp : f.reduce.filter (· ≠ "") = some p)
    (hstep : f.reduceStep src env l t w = some (l', t₁, w₁))
    (hrest : Ends env (assemble src ms l') t₁ w₁ fun c r t' w' =>
      ∀ q, Trace.Reducing f.fiuName q → Q (q ++ c) r t' w') :
    Ends env (assemble src (.bodyReduce (f.fiuName ++ "/reduce") p :: ms) l) t w Q := by
  unfold Function.reduceStep at hstep
  rw [hp] at hstep
  dsimp only at hstep
  refine Run.ends_call ?_
  show Run.Ends env.ext (((if (f.askReduce env t w).1 ≠ 0 then reduceVar src p l else
    return .next l : Code Flow) (f.askReduce env t w).2.1).bind fun flow =>
      flow.follow (assemble src ms)) (f.askReduce env t w).2.2 fun c a t' w' =>
        Q ((.fiuFail (f.fiuName ++ "/reduce"), (f.askReduce env t w).1,
          (f.askReduce env t w).2.1) :: c) a t' w'
  have hask : f.askReduce env t w = env.call (.fiuFail (f.fiuName ++ "/reduce")) t w := rfl
  rw [← hask] at hstep
  have hone : ∀ q, Trace.Reducing f.fiuName q → Trace.Reducing f.fiuName
      ((.fiuFail (f.fiuName ++ "/reduce"), (f.askReduce env t w).1, (f.askReduce env t w).2.1) :: q) :=
    fun q hq => reducing_cons rfl (reduce_name f.fiuName) rfl hq
  by_cases hfires : (f.askReduce env t w).1 = 0
  · rw [if_pos hfires] at hstep
    rw [if_neg (not_not.mpr hfires)]
    have heq := Option.some.inj hstep
    obtain rfl : l = l' := congrArg Prod.fst heq
    obtain rfl : (f.askReduce env t w).2.1 = t₁ := congrArg (fun s => s.2.1) heq
    obtain rfl : (f.askReduce env t w).2.2 = w₁ := congrArg (fun s => s.2.2) heq
    exact hrest.mono fun c r t' w' h => h _ (hone [] reducing_nil)
  · rw [if_neg hfires] at hstep
    rw [if_pos hfires]
    let r := env.call .random (f.askReduce env t w).2.1 (f.askReduce env t w).2.2
    obtain ⟨k, hk, heq⟩ := Option.map_eq_some_iff.mp hstep
    obtain rfl : l.set p k = l' := congrArg Prod.fst heq
    obtain rfl : r.2.1 = t₁ := congrArg (fun s => s.2.1) heq
    obtain rfl : r.2.2 = w₁ := congrArg (fun s => s.2.2) heq
    rw [reduceVar_bind]
    refine Run.ends_call ?_
    have hk' : reduceCount (src.intType (l.types p))
      (env.ext .random (f.askReduce env t w).2.1 (f.askReduce env t w).2.2).1 (l.vars p) = some k := hk
    rw [hk']
    exact hrest.mono fun c r t' w' h => h _ (hone _ (reducing_cons rfl (by simp) rfl reducing_nil))

/-- The code of `mkwrap_body_reduce`, on a count of 0. -/
theorem bodyReduce_stuck {p : String} {ms : List Macro} {l : Locals}
    (hp : f.reduce.filter (· ≠ "") = some p) (hstep : f.reduceStep src env l t w = none) :
    ((assemble src (.bodyReduce (f.fiuName ++ "/reduce") p :: ms) l t).play env.ext w).2 = none := by
  unfold Function.reduceStep at hstep
  rw [hp] at hstep
  dsimp only at hstep
  have hask : f.askReduce env t w = env.call (.fiuFail (f.fiuName ++ "/reduce")) t w := rfl
  rw [← hask] at hstep
  show ((((if (f.askReduce env t w).1 ≠ 0 then reduceVar src p l else
    return .next l : Code Flow) (f.askReduce env t w).2.1).bind fun flow =>
      flow.follow (assemble src ms)).play env.ext (f.askReduce env t w).2.2).2 = none
  by_cases hfires : (f.askReduce env t w).1 = 0
  · rw [if_pos hfires] at hstep
    cases hstep
  · rw [if_neg hfires] at hstep
    rw [if_pos hfires]
    have hnone := Option.map_eq_none_iff.mp hstep
    have hnone' : reduceCount (src.intType (l.types p))
      (env.ext .random (f.askReduce env t w).2.1 (f.askReduce env t w).2.2).1 (l.vars p) = none := hnone
    rw [reduceVar_bind, Run.play_call, hnone']
    rfl

/-- The part that the `reduce` directive adds, and what follows it. -/
theorem ends_reduceBody {ms : List Macro} {l l' : Locals} {t₁ : Tls} {w₁ : ω}
    {Q : Trace → ℤ → Tls → ω → Prop} (hstep : f.reduceStep src env l t w = some (l', t₁, w₁))
    (hrest : Ends env (assemble src ms l') t₁ w₁ fun c r t' w' =>
      ∀ q, Trace.Reducing f.fiuName q → Q (q ++ c) r t' w') :
    Ends env (assemble src (f.reduceBody ++ ms) l) t w Q := by
  unfold ParsedFunction.reduceBody
  cases hreduce : f.reduce.filter (· ≠ "") with
  | none =>
    unfold Function.reduceStep at hstep
    rw [hreduce] at hstep
    cases hstep
    exact hrest.mono fun c r t' w' h => h [] reducing_nil
  | some p => exact ends_bodyReduce hreduce hstep hrest

/-- The part that the directive adds, on a count of 0. -/
theorem reduceBody_stuck {ms : List Macro} {l : Locals} (hstep : f.reduceStep src env l t w = none) :
    ((assemble src (f.reduceBody ++ ms) l t).play env.ext w).2 = none := by
  unfold ParsedFunction.reduceBody
  cases hreduce : f.reduce.filter (· ≠ "") with
  | none =>
    unfold Function.reduceStep at hstep
    rw [hreduce] at hstep
    cases hstep
  | some p => exact bodyReduce_stuck hreduce hstep

/-- Behind the `reduce` directive only the parameter that it names may have changed. -/
theorem reduceStep_vars {l l' : Locals} {t₁ : Tls} {w₁ : ω}
    (hstep : f.reduceStep src env l t w = some (l', t₁, w₁)) {name : String}
    (hname : f.reduce ≠ some name) : l'.vars name = l.vars name := by
  unfold Function.reduceStep at hstep
  cases hreduce : f.reduce.filter (· ≠ "") with
  | none =>
    rw [hreduce] at hstep
    cases hstep
    rfl
  | some p =>
    have hp : f.reduce = some p := (Option.filter_eq_some_iff.mp hreduce).1
    have hne : name ≠ p := by
      rintro rfl
      exact hname hp
    rw [hreduce] at hstep
    dsimp only at hstep
    split at hstep
    · obtain rfl : l = l' := congrArg Prod.fst (Option.some.inj hstep)
      rfl
    · obtain ⟨k, -, heq⟩ := Option.map_eq_some_iff.mp hstep
      obtain rfl : l.set p k = l' := congrArg Prod.fst heq
      exact Function.update_of_ne hne k l.vars

/-- A name in a list of different names, and the value at its place. -/
theorem lookup_zip : ∀ {names : List String} {values : List ℤ} {i : ℕ} {name : String},
    names.Nodup → names.length = values.length → names[i]? = some name →
      (names.zip values).lookup name = values[i]?
  | [], _, i, name, _, _, h => by cases h
  | m :: names, [], _, _, _, hlen, _ => by cases hlen
  | m :: names, v :: values, i, name, hnodup, hlen, h => by
    obtain ⟨hm, hnodup⟩ := List.nodup_cons.mp hnodup
    cases i with
    | zero =>
      obtain rfl : m = name := Option.some.inj h
      simp
    | succ i =>
      have hmem : name ∈ names := List.mem_of_getElem? h
      have hne : name ≠ m := by
        rintro rfl
        exact hm hmem
      rw [List.zip_cons_cons, List.lookup_cons, beq_eq_false_iff_ne.mpr hne]
      exact lookup_zip hnodup (Nat.succ.inj hlen) h

/-- The parameters have the values of the arguments. -/
theorem named_param (hargs : args.length = f.params.length) {i : ℕ} {name : String}
    (h : f.paramsn[i]? = some name) : args[i]? = some (f.named src args name) := by
  have hlen : f.paramsn.length = args.length := by
    rw [hargs]
    exact List.length_map _
  have hi : i < args.length := by
    rw [← hlen]
    exact (List.getElem?_eq_some_iff.mp h).1
  have hlookup : (f.paramsn.zip args).lookup name = args[i]? := lookup_zip f.distinct hlen h
  show _ = some (((f.paramsn.zip args).lookup name).getD (src.value name))
  rw [hlookup, List.getElem?_eq_getElem hi]
  rfl

/-- The variables that hold the parameters, when nothing was assigned to them. -/
theorem params_map (hargs : args.length = f.params.length) :
    f.paramsn.map (Locals.enter src f.params args).vars = args := by
  refine List.ext_getElem? fun i => ?_
  rw [List.getElem?_map]
  cases hi : f.paramsn[i]? with
  | none =>
    have hlen : f.paramsn.length = args.length := by
      rw [hargs]
      exact List.length_map _
    rw [Option.map_none, eq_comm, List.getElem?_eq_none_iff, ← hlen]
    exact List.getElem?_eq_none_iff.mp hi
  | some name =>
    have hnamed : args[i]? = some (f.named src args name) := named_param hargs hi
    rw [hnamed]
    rfl

/-- Only the parameter to be reduced may have changed. -/
theorem sameArgs (hargs : args.length = f.params.length) {l : Locals}
    (hl : ∀ name, f.reduce ≠ some name → l.vars name = f.named src args name) :
    f.SameArgs args (f.paramsn.map l.vars) := by
  refine ⟨?_, fun i name hi hname => ?_⟩
  · rw [List.length_map, hargs]
    exact List.length_map _
  · rw [List.getElem?_map, hi, named_param hargs hi, Option.map_some, hl name hname]

/-! ## What the wrapper does

Put together: the wrapper ends unless a count of 0 is reduced, and then it is as directed unless the
failure cannot be. -/

/-- `mkwrap_top`, in a call that is not nested. -/
theorem assemble_top_zero (ht : t.fiuCalled = 0) (name : String) (paramsn : List String)
    (onErr : String) (ms : List Macro) (l : Locals) :
    assemble src (.top name paramsn onErr :: ms) l t =
      assemble src ms l { t with fiuCalled := t.fiuCalled + 1 } := by
  have hcalled : bodyCalled src name paramsn onErr l t =
      .done (.next l) { t with fiuCalled := t.fiuCalled + 1 } := by
    have hif : bodyCalled src name paramsn onErr l t =
        (if t.fiuCalled ≠ 0 then _ else (do recInc; return .next l : Code Flow)) t := rfl
    rw [hif, if_neg (not_not.mpr ht)]
    rfl
  show (bodyCalled src name paramsn onErr l t).bind _ = _
  rw [hcalled]
  rfl

/-- The point of failure is asked once. -/
theorem mem_fiuFail {q c : Trace} {a : ℤ} {t₁ : Tls} (hq : q.Quiet n)
    (hc : ∀ e ∈ c, e.1 ≠ .fiuFail n) {status : ℤ} {t₂ : Tls} :
    (Ext.fiuFail n, status, t₂) ∈ q ++ (Ext.fiuFail n, a, t₁) :: c ↔ status = a ∧ t₂ = t₁ := by
  constructor
  · intro hmem
    rcases List.mem_append.mp hmem with hmem | hmem
    · exact absurd rfl (hq _ hmem).2
    · rcases List.mem_cons.mp hmem with heq | hmem
      · cases heq
        exact ⟨rfl, rfl⟩
      · exact absurd rfl (hc _ hmem)
  · rintro ⟨rfl, rfl⟩
    exact List.mem_append_right q (List.mem_cons_self ..)

/-- **A failure** is as directed exactly if it can be. -/
theorem injected_iff {l : Locals}
    (hl : ∀ name, f.reduce ≠ some name → l.vars name = f.named src args name) {a : ℤ}
    {t₁ t' : Tls} {q c : Trace} {r : ℤ} (hq : q.Reducing f.fiuName)
    (hc : Failure src f onErr l t₁ c r t') :
    Injected src f onErr args t₁.failinfo (q ++ (.fiuFail f.fiuName, a, t₁) :: c) r t'.errno ↔
      f.CanFail t₁ := by
  constructor
  · intro h
    refine ⟨fun hferror => ?_, fun hinfo => ?_⟩
    · -- without errnos nothing is recorded
      by_contra huse
      obtain ⟨s, hs⟩ := Option.ne_none_iff_exists'.mp hferror
      obtain ⟨stream, b, t₂, hmem, -⟩ := h.recorded s hs
      rw [(hc.hardcoded (Bool.eq_false_of_not_eq_true huse)).1] at hmem
      rcases List.mem_append.mp hmem with hmem | hmem
      · exact absurd (hq.2 _ hmem) (by simp [Ext.isTable])
      · exact absurd (List.mem_singleton.mp hmem) (by simp)
    · have herrno := h.fromFailinfo hinfo
      by_cases huse : f.useErrno = true
      · rw [if_pos huse]
        exact (hc.fromFailinfo huse hinfo).symm.trans herrno
      · rw [if_neg huse, ← herrno]
        exact (hc.hardcoded (Bool.eq_false_of_not_eq_true huse)).2.symm
  · rintro ⟨hferror, hinfo⟩
    refine ⟨?_, hc.result, fun hne => ?_, fun h0 huse => hc.fromErrnos huse h0, fun s hs => ?_⟩
    · have hone : Trace.origs [(.fiuFail f.fiuName, a, t₁)] = [] := rfl
      have hsplit : (Ext.fiuFail f.fiuName, a, t₁) :: c = [(.fiuFail f.fiuName, a, t₁)] ++ c := rfl
      rw [hsplit, Trace.origs_append, Trace.origs_append, hq.1.origs, hone, hc.quiet.origs]
      rfl
    · have h := hinfo hne
      by_cases huse : f.useErrno = true
      · rw [if_pos huse] at h
        rw [hc.fromFailinfo huse hne, h]
      · rw [if_neg huse] at h
        rw [(hc.hardcoded (Bool.eq_false_of_not_eq_true huse)).2, h]
    · have huse : f.useErrno = true := hferror (by rw [hs]; exact Option.some_ne_none s)
      obtain ⟨b, t₂, hmem⟩ := hc.recorded huse s hs
      refine ⟨l.vars s, b, t₂, ?_, hl s⟩
      exact List.mem_append_right q (List.mem_cons_of_mem _ hmem)

/-- A call that ends is as directed exactly if the failure can be, in case there is one. -/
theorem decided_asDirected_iff (hargs : args.length = f.params.length) {l : Locals}
    (hl : ∀ name, f.reduce ≠ some name → l.vars name = f.named src args name) {a : ℤ × Tls × ω}
    {q c : Trace} {r : ℤ} {t' : Tls} {w' : ω} (hq : q.Reducing f.fiuName)
    (hc : Decided src f onErr l a c r t') :
    AsDirected src f onErr args (q ++ c, some (r, t', w')) ↔ (a.1 ≠ 0 → f.CanFail a.2.1) := by
  obtain ⟨c, rfl, hfail, hpass⟩ := hc
  have honly : ∀ e ∈ c, e.1 ≠ .fiuFail f.fiuName := by
    intro e he
    by_cases hfires : a.1 = 0
    · obtain ⟨q', t₁, rfl, hq'⟩ := hpass hfires
      rcases List.mem_append.mp he with he | he
      · exact (hq' e he).2
      · rw [List.mem_singleton.mp he]
        simp
    · exact ((hfail hfires).quiet e he).2
  have hiff : AsDirected src f onErr args
      (q ++ (.fiuFail f.fiuName, a.1, a.2.1) :: c, some (r, t', w')) ↔
      if a.1 ≠ 0 then Injected src f onErr args a.2.1.failinfo
        (q ++ (.fiuFail f.fiuName, a.1, a.2.1) :: c) r t'.errno
      else Passed f args (q ++ (.fiuFail f.fiuName, a.1, a.2.1) :: c) r := by
    constructor
    · rintro ⟨r', t'', w'', hout, status, t₁, hmem, h⟩
      cases hout
      obtain ⟨rfl, rfl⟩ := (mem_fiuFail hq.1 honly).mp hmem
      exact h
    · exact fun h => ⟨r, t', w', rfl, a.1, a.2.1, (mem_fiuFail hq.1 honly).mpr ⟨rfl, rfl⟩, h⟩
  rw [hiff]
  by_cases hfires : a.1 = 0
  · -- the original was called
    rw [if_neg (not_not.mpr hfires)]
    refine iff_of_true ?_ fun h => absurd hfires h
    obtain ⟨q', t₁, rfl, hq'⟩ := hpass hfires
    have hone : Trace.origs [(.fiuFail f.fiuName, a.1, a.2.1)] = [] := rfl
    have hsplit : (Ext.fiuFail f.fiuName, a.1, a.2.1) ::
        (q' ++ [(.orig f.name (f.paramsn.map l.vars), r, t₁)]) = [(.fiuFail f.fiuName, a.1, a.2.1)] ++
        (q' ++ [(.orig f.name (f.paramsn.map l.vars), r, t₁)]) := rfl
    refine ⟨f.paramsn.map l.vars, t₁, ?_, sameArgs hargs hl⟩
    rw [hsplit, Trace.origs_append, Trace.origs_append, Trace.origs_append, hq.1.origs, hone,
      hq'.origs]
    rfl
  · rw [if_pos hfires, injected_iff hl hq (hfail hfires)]
    exact ⟨fun h _ => h, fun h => h hfires⟩

/-- **What the generated wrapper does.** `f` is any function of a module from which the generator
    makes code (`hgen`) and which says what a failure returns (`hon`); if it has valid errnos, at
    least one of them is defined on the platform (`hdef`), as C has no empty arrays. The call has as
    many arguments as the function has parameters, and it is not nested (`ht`).

    Such a call is as directed (`AsDirected`: it ends, its point was asked, and it was failed as the
    directives say or was one call of the original) exactly if no count of 0 is to be reduced and,
    should the point of failure fire, the failure can be as directed (`Meets`). -/
theorem generated_as_directed_iff (env : Env ω) (src : Source) (f : Function) {code : List Macro}
    (hgen : f.generateTo = .ok code) {onErr : String} (hon : f.onError = some onErr)
    (hdef : f.useErrno = true → ∃ e ∈ f.validErrnos, src.defined e = true) {args : List ℤ}
    (hargs : args.length = f.params.length) {t : Tls} (ht : t.fiuCalled = 0) (w : ω) :
    AsDirected src f onErr args
      (((Wrapper.generated f code hgen).run src args t).play env.ext w) ↔
    f.Meets src args env t w := by
  obtain ⟨body, hbody, rfl⟩ := generateTo_ok hgen
  have hrun : (Wrapper.generated f _ hgen).run src args t =
      assemble src (f.reduceBody ++ (body ++ [.bottom f.name f.paramsn]))
        (.enter src f.params args) { t with fiuCalled := t.fiuCalled + 1 } :=
    assemble_top_zero ht _ _ _ _ _
  rw [hrun, Function.Meets]
  cases hstep : f.reduceStep src env (.enter src f.params args)
    { t with fiuCalled := t.fiuCalled + 1 } w with
  | none =>
    -- the wrapper divides by 0
    refine iff_of_false ?_ ?_
    · rintro ⟨r, t', w', hout, -⟩
      rw [reduceBody_stuck hstep] at hout
      cases hout
    · rintro ⟨s, hs, -⟩
      cases hs
  | some s =>
    obtain ⟨l, t₁, w₁⟩ := s
    have hends : Ends env (assemble src (f.reduceBody ++ (body ++ [.bottom f.name f.paramsn]))
        (.enter src f.params args)) { t with fiuCalled := t.fiuCalled + 1 } w fun c r t' w' =>
          AsDirected src f onErr args (c, some (r, t', w')) ↔
            ((env.call (.fiuFail f.fiuName) t₁ w₁).1 ≠ 0 →
              f.CanFail (env.call (.fiuFail f.fiuName) t₁ w₁).2.1) := by
      refine ends_reduceBody hstep ((ends_body hbody hon hdef).mono ?_)
      intro c r t' w' h q hq
      exact decided_asDirected_iff hargs (fun name hname => reduceStep_vars hstep hname) hq h
    obtain ⟨c, r, t', w', hplay, hiff⟩ := hends
    rw [hplay, hiff]
    constructor
    · exact fun h => ⟨(l, t₁, w₁), rfl, h⟩
    · rintro ⟨s, hs, h⟩
      cases hs
      exact h

/-- Surroundings in which every point of failure fires, and nothing else happens. -/
def Env.failing : Env Unit where
  call
    | .fiuFail _, t, w => (1, t, w)
    | .random, t, w => (7, t, w)
    | _, t, w => (1000, t, w)
  table _ w := (0, w)
  resolves _ _ _ := show (1000 : ℤ) ≠ 0 by decide

/-- A call of `fgetc` whose point of failure fires: it does what the directives say if and only if they
    can be met there. -/
theorem generated_as_directed_fgetc : AsDirected (someSource "posix.stdio.c") fgetc "EOF" [4096]
      (((Wrapper.generated fgetc _ rfl).run (someSource "posix.stdio.c") [4096] Tls.start).play
        Env.failing.ext ()) ↔
    fgetc.Meets (someSource "posix.stdio.c") [4096] Env.failing Tls.start () :=
  generated_as_directed_iff Env.failing (someSource "posix.stdio.c") fgetc rfl rfl
    (fun _ => ⟨"EAGAIN", List.mem_cons_self .., rfl⟩) rfl rfl ()

/-- `ungetc` has a `ferror` without `valid errnos`: when it fails, the stream is not recorded. -/
theorem ungetc_not_as_directed : ∃ (code : List Macro) (hgen : ungetc.generateTo = .ok code),
    ungetc.onError = some "EOF" ∧ Tls.start.fiuCalled = 0 ∧
    ¬ AsDirected (someSource "posix.stdio.c") ungetc "EOF" [65, 4096]
      (((Wrapper.generated ungetc code hgen).run (someSource "posix.stdio.c") [65, 4096]
        Tls.start).play Env.failing.ext ()) := by
  refine ⟨_, rfl, rfl, rfl, ?_⟩
  rintro ⟨r, t, w, -, status, t₁, hmem, h⟩
  -- all that was called
  obtain ⟨rfl, -⟩ : status = 1 ∧ t₁ = _ := by
    have honly := List.mem_singleton.mp hmem
    cases honly
    exact ⟨rfl, rfl⟩
  obtain ⟨stream, a, t₂, hset, -⟩ := h.recorded "stream" rfl
  have honly := List.mem_singleton.mp hset
  cases honly

end Posix

end Libfiu
