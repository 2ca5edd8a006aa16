/-
  Are the wrappers that are written by hand transparent?

  When no failure is injected, a wrapper should come to one call of its original, with what the caller
  handed over, and the table of streams with injected errors should be updated in the same way whether
  or not the call is nested.  `Transparent` says that of one call, by its EFFECTS: the calls of
  originals and the updates of the table, in order.

  A wrapper has two ways to its original, `mkwrap_body_called` for a nested call (`ends_nested`) and
  `mkwrap_bottom` for any other (`ends_bottom_effects`), and they were written with different arguments:

  * `open64` names `open` in the first one;
  * `fclose` clears the entry of its stream on the second one only;
  * `open` and `open64` read the mode for `O_CREAT` alone, and libc for `O_TMPFILE` too;
  * a nested call that comes while its own original is being resolved returns an error.

  `handwritten_transparent_iff` is that nothing else goes wrong.

  A nested call is one that comes from inside of another wrapper, that is from libc or from code
  that libc calls, and not from the program. For such a call nothing should be injected, and nothing
  else should be different either; the four ways in which something is are found by comparing the
  two ways to the original, macro by macro.
-/
import Libfiu.PosixDirectives

namespace Libfiu

namespace Posix

open Calls

variable {ω : Type} {env : Env ω} {src : Source} {t : Tls} {w : ω}

/-! ## Effects

What can be seen from outside of a call: the originals that were called, with their arguments, and
what was done to the table. -/

/-- A call of an original, or an update of the table of streams. -/
def Ext.isEffect : Ext → Bool
  | .orig .. | .hashSet _ | .hashDel _ => true
  | _ => false

/-- The effects of the calls, in order. -/
def Trace.effects (calls : Trace) : List Ext := (calls.map Prod.fst).filter Ext.isEffect

/-- One part after the other. -/
theorem Trace.effects_append (c c' : Trace) :
    Trace.effects (c ++ c') = c.effects ++ c'.effects := by
  rw [effects, List.map_append, List.filter_append]
  rfl

/-- Calls of functions that have none. -/
theorem Trace.Among.effects {es : List Ext} {calls : Trace} (h : calls.Among es)
    (hes : ∀ e ∈ es, e.isEffect = false) : calls.effects = [] := by
  refine List.filter_eq_nil_iff.mpr fun e he => ?_
  obtain ⟨c, hc, rfl⟩ := List.mem_map.mp he
  rw [hes c.1 (h c hc)]
  exact Bool.false_ne_true

/-- `dlsym` has no effects. -/
theorem effects_of_libcSymbol {name : String} {c : Trace} (hc : c.Among [.libcSymbol name]) :
    c.effects = [] := hc.effects (by simp [Ext.isEffect])

/-- The effects are these updates of the table, and then the call of the original `name`, which gives
    the result. -/
def Comes (updates : List Ext) (name : String) (args : List ℤ) (c : Trace) (r : ℤ) : Prop :=
  c.effects = updates ++ [.orig name args] ∧ ∃ t₁, (Ext.orig name args, r, t₁) ∈ c

/-- More updates in front. -/
theorem Comes.append {us us' : List Ext} {name : String} {args : List ℤ} {c c' : Trace} {r : ℤ}
    (hc : c.effects = us) (h : Comes us' name args c' r) : Comes (us ++ us') name args (c ++ c') r := by
  obtain ⟨heff, t₁, hmem⟩ := h
  refine ⟨?_, t₁, List.mem_append_right c hmem⟩
  rw [Trace.effects_append, hc, heff, List.append_assoc]

/-- The original is called. -/
theorem callOrig_effects {name : String} (hname : t.orig (src.file, name) ≠ 0) (args : List ℤ) :
    Ends env (callOrig src name args) t w fun c r _ _ => Comes [] name args c r := by
  refine (ends_callOrig hname args).mono ?_
  rintro c r t' w' ⟨t₁, rfl⟩
  exact ⟨rfl, t₁, List.mem_singleton.mpr rfl⟩

/-- `clear_ferror` -/
theorem clearFerror_effects (stream : ℤ) : Ends env (clearFerror stream) t w fun c _ _ _ =>
    c.effects = [.hashDel stream] := by
  have htable : Ends env ferrorTable t w fun c _ _ _ => c.effects = [] := by
    refine ends_ferrorTable.mono ?_
    rintro c _ t' w' ⟨hc, -⟩
    exact hc.effects (by simp [Ext.isEffect])
  refine htable.bind ?_
  rintro c _ t' w' hc
  refine (ends_table (e := .hashDel stream) rfl).bind ?_
  rintro c' u t'' w'' ⟨⟨a, rfl⟩, rfl⟩
  refine Run.ends_done ?_
  rw [List.append_nil, Trace.effects_append, hc]
  rfl

/-! ## The two ways to the original

A call that is not nested asks its point of failure and goes on; a nested one goes to the original
from `mkwrap_body_called`, with the macros below left out. Where the two differ is in those macros. -/

/-- `mkwrap_bottom` -/
theorem ends_bottom_effects {name : String} {paramsn : List String} {l : Locals} :
    Ends env (assemble src [.bottom name paramsn] l) t w fun c r _ _ =>
      Comes [] name (paramsn.map l.vars) c r := by
  refine ends_bottom.mono ?_
  rintro c r t' w' ⟨q, t₁, rfl, hq⟩
  have horig : Comes [] name (paramsn.map l.vars) [(.orig name (paramsn.map l.vars), r, t₁)] r :=
    ⟨rfl, t₁, List.mem_singleton.mpr rfl⟩
  exact horig.append (effects_of_libcSymbol hq)

/-- The wrapper is entered while it resolves its own original. -/
def Resolving (src : Source) (name : String) (t : Tls) : Prop :=
  t.fiuCalled ≠ 0 ∧ t.orig (src.file, name) = 0 ∧ t.inInit (src.file, name) ≠ 0

/-- `mkwrap_body_called`, in a nested call: the original is called at once. -/
theorem ends_nested {name onErr : String} {paramsn : List String} {ms : List Macro} {l : Locals}
    (ht : t.fiuCalled ≠ 0) (hres : ¬ Resolving src name t) :
    Ends env (assemble src (.top name paramsn onErr :: ms) l) t w fun c r _ _ =>
      Comes [] name (paramsn.map l.vars) c r := by
  have hcall : ∀ {t : Tls} {w : ω}, t.orig (src.file, name) ≠ 0 →
      Ends env (do return Flow.ret (← callOrig src name (paramsn.map l.vars))) t w fun c flow _ _ =>
        ∃ r, Comes [] name (paramsn.map l.vars) c r ∧ flow = .ret r := by
    intro t w hname
    refine (callOrig_effects hname _).bind ?_
    rintro c r t' w' hc
    refine Run.ends_done ⟨r, ?_, rfl⟩
    rw [List.append_nil]
    exact hc
  have hcalled : Ends env (bodyCalled src name paramsn onErr l) t w fun c flow _ _ =>
      ∃ r, Comes [] name (paramsn.map l.vars) c r ∧ flow = .ret r := by
    have hif : bodyCalled src name paramsn onErr l t =
        (if t.fiuCalled ≠ 0 then _ else (do recInc; return .next l : Code Flow)) t := rfl
    show Run.Ends env.ext (bodyCalled src name paramsn onErr l t) w _
    rw [hif, if_pos ht]
    show Run.Ends env.ext ((if t.orig (src.file, name) = 0 then _ else
      (do return .ret (← callOrig src name (paramsn.map l.vars))) : Code Flow) t) w _
    by_cases hnull : t.orig (src.file, name) = 0
    · rw [if_pos hnull]
      show Run.Ends env.ext ((if t.inInit (src.file, name) ≠ 0 then
        return .ret (src.value onErr) else _ : Code Flow) t) w _
      rw [if_neg fun hin => hres ⟨ht, hnull, hin⟩]
      refine (ends_fiuInit name).bind ?_
      rintro c _ t' w' ⟨hc, hname⟩
      refine (hcall hname).mono ?_
      rintro c' flow t'' w'' ⟨r, hr, hflow⟩
      exact ⟨r, hr.append (effects_of_libcSymbol hc), hflow⟩
    · rw [if_neg hnull]
      exact hcall hnull
  refine hcalled.bind ?_
  rintro c flow t' w' ⟨r, hc, rfl⟩
  refine Run.ends_done ?_
  rw [List.append_nil]
  exact hc

/-- And while its own original is being resolved: an error is returned, and nothing was called. -/
theorem ends_resolving {name onErr : String} {paramsn : List String} {ms : List Macro} {l : Locals}
    (hres : Resolving src name t) :
    Ends env (assemble src (.top name paramsn onErr :: ms) l) t w fun c _ _ _ => c = [] := by
  obtain ⟨ht, hnull, hin⟩ := hres
  have hcalled : Ends env (bodyCalled src name paramsn onErr l) t w fun c flow _ _ =>
      c = [] ∧ flow = .ret (src.value onErr) := by
    have hif : bodyCalled src name paramsn onErr l t =
        (if t.fiuCalled ≠ 0 then _ else (do recInc; return .next l : Code Flow)) t := rfl
    show Run.Ends env.ext (bodyCalled src name paramsn onErr l t) w _
    rw [hif, if_pos ht]
    show Run.Ends env.ext ((if t.orig (src.file, name) = 0 then _ else
      (do return .ret (← callOrig src name (paramsn.map l.vars))) : Code Flow) t) w _
    rw [if_pos hnull]
    show Run.Ends env.ext ((if t.inInit (src.file, name) ≠ 0 then
      return .ret (src.value onErr) else _ : Code Flow) t) w _
    rw [if_pos hin]
    exact Run.ends_done ⟨rfl, rfl⟩
  refine hcalled.bind ?_
  rintro c flow t' w' ⟨rfl, rfl⟩
  exact Run.ends_done rfl

/-- A point of failure that does not fire. -/
theorem ends_pass {fiuName name : String} {us : List Ext} {args : List ℤ} {fail : Code ℤ} {l : Locals}
    {rest : Locals → Code ℤ} (hpass : ∀ t w, (env.call (.fiuFail fiuName) t w).1 = 0)
    (hrest : ∀ t w, Ends env (rest l) t w fun c r _ _ => Comes us name args c r) :
    Ends env (do (← bodyFail fiuName fail l).follow rest) t w fun c r _ _ =>
      Comes us name args c r := by
  refine ends_bodyFail rfl (fun h => absurd (hpass t w) h) fun _ => ?_
  refine (hrest _ _).mono ?_
  rintro c r t' w' hc
  exact hc.append (c := [_]) rfl

/-- `clear_ferror` in the code of a function. -/
theorem ends_clearFerror {stream name : String} {args : List ℤ} {ms : List Macro} {l : Locals}
    (hrest : ∀ t w, Ends env (assemble src ms l) t w fun c r _ _ => Comes [] name args c r) :
    Ends env (assemble src (.clearFerror stream :: ms) l) t w fun c r _ _ =>
      Comes [.hashDel (l.vars stream)] name args c r := by
  have hclear : Ends env (do clearFerror (l.vars stream); return Flow.next l) t w fun c flow _ _ =>
      c.effects = [.hashDel (l.vars stream)] ∧ flow = .next l := by
    refine (clearFerror_effects (l.vars stream)).bind ?_
    rintro c _ t' w' hc
    refine Run.ends_done ⟨?_, rfl⟩
    rw [List.append_nil]
    exact hc
  refine hclear.bind ?_
  rintro c flow t' w' ⟨hc, rfl⟩
  refine (hrest t' w').mono ?_
  rintro c' r t'' w'' hc'
  exact hc'.append hc

/-! ## The wrappers

What each of them should do, and what it does. `open` reads its mode before it knows whether it is
nested. -/

/-- The functions with a variable number of arguments. -/
def variadics : List Variadic := [fprintf, printf, dprintf, fscanf, scanf]

/-- The wrappers of posix.custom.c that can fail and have an original to call, other than `ferror`. -/
inductive Handwritten where
  | open
  | open64
  | fclose
  | variadic (v : Variadic) (h : v ∈ variadics)

namespace Handwritten

def wrapper : Handwritten → Wrapper
  | .open => .open
  | .open64 => .open64
  | .fclose => .fclose
  | .variadic v _ => .variadic v

/-- The function of the same name, or its v-variant. -/
def original : Handwritten → String
  | .open => "open"
  | .open64 => "open64"
  | .fclose => "fclose"
  | .variadic v _ => v.nvname

def fiuName : Handwritten → String
  | .open => "posix/io/oc/open"
  | .open64 => "posix/io/oc/open"
  | .fclose => "posix/stdio/oc/fclose"
  | .variadic v _ => v.fiuName

/-- How the table of streams is to be updated: it forgets a stream that is closed. -/
def updates : Handwritten → List ℤ → List Ext
  | .fclose, stream :: _ => [.hashDel stream]
  | _, _ => []

end Handwritten

/-- The flags contain `O_CREAT` or `O_TMPFILE`. -/
def NeedsMode (src : Source) (flags : ℤ) : Prop :=
  Int.land flags (src.value "O_CREAT") ≠ 0 ∨
    (src.defined "O_TMPFILE" = true ∧ Int.land flags (src.value "O_TMPFILE") = src.value "O_TMPFILE")

instance (flags : ℤ) : Decidable (NeedsMode src flags) := inferInstanceAs (Decidable (_ ∨ _))

/-- The arguments that `open` of libc reads. -/
def openReads (src : Source) : List ℤ → List ℤ
  | pathname :: flags :: va =>
    if NeedsMode src flags then pathname :: flags :: va.take 1 else [pathname, flags]
  | args => args

namespace Handwritten

/-- The arguments that the original reads. -/
def reads (src : Source) : Handwritten → List ℤ → List ℤ
  | .open, args | .open64, args => openReads src args
  | _, args => args

/-- The arguments are those of a call: the mode is there when it is read, and `arguments` stands for
    those behind the named ones. -/
def Takes (src : Source) : Handwritten → List ℤ → Prop
  | .open, args | .open64, args =>
    ∃ pathname flags va, args = pathname :: flags :: va ∧ (NeedsMode src flags → va ≠ [])
  | .fclose, args => args.length = 1
  | .variadic v _, args => args.length = v.allParams.length

end Handwritten

/-- **The wrapper is transparent** in a call: it ends, and its effects are the updates of the table that
    are due and one call of the original, which reads the caller's arguments and gives the result. -/
def Transparent (src : Source) (h : Handwritten) (args : List ℤ)
    (outcome : Trace × Option (ℤ × Tls × ω)) : Prop :=
  ∃ r t w, outcome.2 = some (r, t, w) ∧
    ∃ args', h.reads src args' = h.reads src args ∧
      Comes (h.updates args) h.original args' outcome.1 r

/-- The mode is handed on: libc does not read it, or the flags contain `O_CREAT`, or it is 0. -/
def ModeKept (src : Source) : List ℤ → Prop
  | _ :: flags :: mode :: _ => NeedsMode src flags →
    Int.land flags (src.value "O_CREAT") ≠ 0 ∨ mode = 0
  | _ => True

/-- The condition on a call. -/
def Handwritten.TransparentWhen (src : Source) (t : Tls) : Handwritten → List ℤ → Prop
  | .open, args => ¬ Resolving src "open" t ∧ ModeKept src args
  | .open64, args => t.fiuCalled = 0 ∧ ModeKept src args
  | .fclose, _ => t.fiuCalled = 0
  | .variadic v _, _ => ¬ Resolving src v.nvname t

/-- A call with known effects. -/
theorem transparent_iff {h : Handwritten} {args args' : List ℤ} {us : List Ext} {name : String}
    {m : Code ℤ} (hends : Ends env m t w fun c r _ _ => Comes us name args' c r) :
    Transparent src h args ((m t).play env.ext w) ↔
      us = h.updates args ∧ name = h.original ∧ h.reads src args' = h.reads src args := by
  obtain ⟨c, r, t', w', hplay, hc⟩ := hends
  rw [hplay]
  constructor
  · rintro ⟨r', t'', w'', hout, args'', hreads, hc'⟩
    cases hout
    obtain ⟨hus, hlast⟩ := List.append_inj' (hc.1.symm.trans hc'.1) rfl
    obtain ⟨hname, rfl⟩ := Ext.orig.inj (List.singleton_inj.mp hlast)
    exact ⟨hus, hname, hreads⟩
  · rintro ⟨rfl, rfl, hreads⟩
    exact ⟨r, t', w', rfl, args', hreads, hc⟩

/-- A call that comes while its original is being resolved is not transparent. -/
theorem not_transparent_resolving {h : Handwritten} {args : List ℤ} {name onErr : String}
    {paramsn : List String} {ms : List Macro} {l : Locals} (hres : Resolving src name t) :
    ¬ Transparent src h args
      ((assemble src (.top name paramsn onErr :: ms) l t).play env.ext w) := by
  have hends : Ends env (assemble src (.top name paramsn onErr :: ms) l) t w fun c _ _ _ => c = [] :=
    ends_resolving hres
  obtain ⟨c, r, t', w', hplay, rfl⟩ := hends
  rw [hplay]
  rintro ⟨r, t, w, -, args', -, heff, -⟩
  exact absurd heff.symm (by simp [Trace.effects])

/-- **`mode`**: the one that was given for `O_CREAT`, and 0 else. -/
def openMode (src : Source) (flags : ℤ) (va : List ℤ) : ℤ :=
  if Int.land flags (src.value "O_CREAT") ≠ 0 then va.headD 0 else 0

/-- What libc reads of the arguments that are handed on. -/
theorem openReads_eq_iff {pathname flags : ℤ} {va : List ℤ} (hva : NeedsMode src flags → va ≠ []) :
    openReads src [pathname, flags, openMode src flags va] = openReads src (pathname :: flags :: va) ↔
      ModeKept src (pathname :: flags :: va) := by
  by_cases hneeds : NeedsMode src flags
  · cases va with
    | nil => exact absurd rfl (hva hneeds)
    | cons mode va =>
      simp only [openReads, if_pos hneeds, ModeKept, openMode, List.headD_cons, List.take_succ_cons,
        List.take_zero, List.cons.injEq, true_and, and_true]
      by_cases hcreat : Int.land flags (src.value "O_CREAT") ≠ 0
      · rw [if_pos hcreat]
        exact iff_of_true rfl fun _ => Or.inl hcreat
      · rw [if_neg hcreat]
        constructor
        · exact fun h _ => Or.inr h.symm
        · exact fun h => ((h hneeds).resolve_left hcreat).symm
  · simp only [openReads, if_neg hneeds, true_iff]
    cases va with
    | nil => trivial
    | cons mode va => exact fun h => absurd h hneeds

/-- The code in front of `mkwrap_body_called` in `open` and `open64`, and the arguments that the rest
    hands on. -/
theorem assemble_open {pathname flags : ℤ} {va : List ℤ} (hva : NeedsMode src flags → va ≠ [])
    (ms : List Macro) : ∃ l : Locals,
    ["pathname", "flags", "mode"].map l.vars = [pathname, flags, openMode src flags va] ∧
    assemble src (.vaMode :: ms) (.enter src openParams (pathname :: flags :: va)) t =
      assemble src ms l t := by
  let l₀ : Locals := .enter src openParams (pathname :: flags :: va)
  have hpathname : l₀.vars "pathname" = pathname := rfl
  have hflags : l₀.vars "flags" = flags := rfl
  refine ⟨l₀.set "mode" (openMode src flags va), ?_, ?_⟩
  · simp [Locals.set, hpathname, hflags]
  · have hrest : l₀.va = va := rfl
    have hmode : vaMode src l₀ t = .done (.next (l₀.set "mode" (openMode src flags va))) t := by
      unfold vaMode openMode
      rw [hflags, hrest]
      by_cases hcreat : Int.land flags (src.value "O_CREAT") ≠ 0
      · rw [if_pos hcreat, if_pos hcreat]
        cases va with
        | nil => exact absurd rfl (hva (Or.inl hcreat))
        | cons mode va => rfl
      · rw [if_neg hcreat, if_neg hcreat]
        rfl
    show (vaMode src l₀ t).bind _ = _
    rw [hmode]
    rfl

/-- A call of `open` or `open64` that is not nested. -/
theorem open_effects {bottomName fiuName onErr failRet : String} {paramsn : List String}
    {l : Locals} (ht : t.fiuCalled = 0) (hpass : ∀ t w, (env.call (.fiuFail fiuName) t w).1 = 0) :
    Ends env (assemble src [.top "open" paramsn onErr, openErrnos, .bodyErrno fiuName failRet,
      .bottom bottomName paramsn] l) t w fun c r _ _ =>
        Comes [] bottomName (paramsn.map l.vars) c r := by
  show Run.Ends env.ext (assemble src (.top "open" paramsn onErr :: [openErrnos,
    .bodyErrno fiuName failRet, .bottom bottomName paramsn]) l t) w _
  rw [assemble_top_zero ht]
  exact ends_pass hpass fun t w => ends_bottom_effects

/-- A call of `fclose` that is not nested. -/
theorem fclose_effects {stream : ℤ} (ht : t.fiuCalled = 0)
    (hpass : ∀ t w, (env.call (.fiuFail "posix/stdio/oc/fclose") t w).1 = 0) :
    Ends env (assemble src fcloseMacros (.enter src fileParams [stream])) t w fun c r _ _ =>
      Comes [.hashDel stream] "fclose" [stream] c r := by
  have hstream : (Locals.enter src fileParams [stream]).vars "stream" = stream := rfl
  show Run.Ends env.ext (assemble src (.top "fclose" ["stream"] "EOF" :: _) _ t) w _
  rw [assemble_top_zero ht]
  refine ends_pass hpass fun t w => ?_
  refine (ends_clearFerror fun t w => ends_bottom_effects).mono ?_
  rintro c r t' w' hc
  rw [← hstream]
  exact hc

/-- A call of one of the others that is not nested. -/
theorem variadic_effects {v : Variadic} {l : Locals} (ht : t.fiuCalled = 0)
    (hpass : ∀ t w, (env.call (.fiuFail v.fiuName) t w).1 = 0) :
    Ends env (assemble src v.macros l) t w fun c r _ _ =>
      Comes [] v.nvname ((v.params.map Prod.snd ++ ["arguments"]).map l.vars) c r := by
  show Run.Ends env.ext (assemble src (.top v.nvname _ v.onErr :: _) l t) w _
  rw [assemble_top_zero ht]
  cases hstream : v.stream with
  | none => exact ends_pass hpass fun t w => ends_bottom_effects
  | some s => exact ends_pass hpass fun t w => ends_bottom_effects

/-- The arguments of a function with a variable number of them are handed on. -/
theorem variadic_args (src : Source) {v : Variadic} (hv : v ∈ variadics) {args : List ℤ}
    (hargs : args.length = v.allParams.length) :
    (v.params.map Prod.snd ++ ["arguments"]).map (Locals.enter src v.allParams args).vars = args := by
  have hdistinct : (v.allParams.map Prod.snd).Nodup := by
    simp only [variadics, List.mem_cons, List.not_mem_nil, or_false] at hv
    rcases hv with rfl | rfl | rfl | rfl | rfl <;> decide
  have hnames : v.params.map Prod.snd ++ ["arguments"] = v.allParams.map Prod.snd := by
    rw [Variadic.allParams, List.map_append]
    rfl
  rw [hnames]
  exact params_map (f := ⟨.init "" "" v.allParams "", hdistinct⟩) hargs

/-! ## Exactly when they are transparent

One condition for each wrapper, on the arguments and on the variables of the thread. -/

/-- **Exactly when a wrapper is transparent**: for each of the wrappers that are written by hand and
    have an original, every call of it, nested or not, and every state of the thread.

    `hargs`: the arguments are of the right number. `hpass`: the point of failure does not fire.
    Transparent is a call that ends, and whose effects are the operations on the table that are due
    and then one call of the original, with what the original reads of the caller's arguments, and
    with its result. The condition is on the thread before the call and on the arguments
    (`TransparentWhen`), one case for each wrapper. -/
theorem handwritten_transparent_iff (env : Env ω) (src : Source) (h : Handwritten) (args : List ℤ)
    (hargs : h.Takes src args) (t : Tls) (w : ω)
    (hpass : ∀ t w, (env.call (.fiuFail h.fiuName) t w).1 = 0) :
    Transparent src h args ((h.wrapper.run src args t).play env.ext w) ↔
      h.TransparentWhen src t args := by
  cases h with
  | «open» =>
    obtain ⟨pathname, flags, va, rfl, hva⟩ := hargs
    obtain ⟨l, hl, hrun⟩ := assemble_open (t := t) hva openMacros.tail
    show Transparent src .open _ ((assemble src (.vaMode :: openMacros.tail) _ t).play env.ext w) ↔
      ¬ Resolving src "open" t ∧ ModeKept src (pathname :: flags :: va)
    rw [hrun]
    by_cases hres : Resolving src "open" t
    · exact iff_of_false (not_transparent_resolving hres) fun h => h.1 hres
    · have hends : Ends env (assemble src openMacros.tail l) t w fun c r _ _ =>
          Comes [] "open" [pathname, flags, openMode src flags va] c r := by
        rw [← hl]
        by_cases ht : t.fiuCalled = 0
        · exact open_effects ht hpass
        · exact ends_nested ht hres
      rw [transparent_iff hends, and_iff_right hres, ← openReads_eq_iff hva]
      exact ⟨fun h => h.2.2, fun h => ⟨rfl, rfl, h⟩⟩
  | open64 =>
    obtain ⟨pathname, flags, va, rfl, hva⟩ := hargs
    obtain ⟨l, hl, hrun⟩ := assemble_open (t := t) hva open64Macros.tail
    show Transparent src .open64 _ ((assemble src (.vaMode :: open64Macros.tail) _ t).play env.ext w) ↔
      t.fiuCalled = 0 ∧ ModeKept src (pathname :: flags :: va)
    rw [hrun]
    by_cases ht : t.fiuCalled = 0
    · have hends : Ends env (assemble src open64Macros.tail l) t w fun c r _ _ =>
          Comes [] "open64" [pathname, flags, openMode src flags va] c r := by
        rw [← hl]
        exact open_effects ht hpass
      rw [transparent_iff hends, and_iff_right ht, ← openReads_eq_iff hva]
      exact ⟨fun h => h.2.2, fun h => ⟨rfl, rfl, h⟩⟩
    · -- a nested call is one of `open`, or an error
      refine iff_of_false ?_ fun h => ht h.1
      by_cases hres : Resolving src "open" t
      · exact not_transparent_resolving hres
      · have hends : Ends env (assemble src open64Macros.tail l) t w fun c r _ _ =>
            Comes [] "open" (["pathname", "flags", "mode"].map l.vars) c r := ends_nested ht hres
        rw [transparent_iff hends]
        rintro ⟨-, hname, -⟩
        exact absurd hname (by decide)
  | fclose =>
    obtain ⟨stream, rfl⟩ := List.length_eq_one_iff.mp hargs
    show Transparent src .fclose _ ((assemble src fcloseMacros _ t).play env.ext w) ↔ t.fiuCalled = 0
    by_cases ht : t.fiuCalled = 0
    · rw [transparent_iff (fclose_effects ht hpass)]
      exact iff_of_true ⟨rfl, rfl, rfl⟩ ht
    · -- a nested call does not clear the entry of the stream
      refine iff_of_false ?_ ht
      by_cases hres : Resolving src "fclose" t
      · exact not_transparent_resolving hres
      · have hends : Ends env (assemble src fcloseMacros (.enter src fileParams [stream])) t w
            fun c r _ _ => Comes [] "fclose"
              (["stream"].map (Locals.enter src fileParams [stream]).vars) c r := ends_nested ht hres
        rw [transparent_iff hends]
        rintro ⟨hus, -⟩
        cases hus
  | variadic v hv =>
    have hall := variadic_args src hv hargs
    show Transparent src (.variadic v hv) _
      ((assemble src v.macros (.enter src v.allParams args) t).play env.ext w) ↔
        ¬ Resolving src v.nvname t
    by_cases hres : Resolving src v.nvname t
    · exact iff_of_false (not_transparent_resolving hres) fun h => h hres
    · have hends : Ends env (assemble src v.macros (.enter src v.allParams args)) t w fun c r _ _ =>
          Comes [] v.nvname ((v.params.map Prod.snd ++ ["arguments"]).map
            (Locals.enter src v.allParams args).vars) c r := by
        by_cases ht : t.fiuCalled = 0
        · exact variadic_effects ht hpass
        · exact ends_nested ht hres
      rw [hall] at hends
      rw [transparent_iff hends]
      exact iff_of_true ⟨rfl, rfl, rfl⟩ hres

/-- Flags as on Linux. -/
def linuxSource : Source := { someSource "posix.custom.c" with
  value := fun name => if name = "O_CREAT" then 64 else if name = "O_TMPFILE" then 4259840 else -1 }

theorem thousand_ne_zero : (1000 : ℤ) ≠ 0 := by decide

/-- Surroundings in which no point of failure fires. -/
def Env.passing : Env Unit where
  call
    | .fiuFail _, t, w => (0, t, w)
    | _, t, w => (1000, t, w)
  table _ w := (0, w)
  resolves _ _ _ := thousand_ne_zero

/-- A thread that is inside of another wrapper. -/
def Tls.nested : Tls := { Tls.start with fiuCalled := 1 }

/-- `open` with `O_TMPFILE` hands 0 on for the mode, a nested `open64` calls `open`, and a nested
    `fclose` keeps the entry of its stream. -/
theorem handwritten_not_transparent :
    ¬ Transparent linuxSource .open [4096, 4259842, 384]
      ((Wrapper.open.run linuxSource [4096, 4259842, 384] Tls.start).play Env.passing.ext ()) ∧
    ¬ Transparent linuxSource .open64 [4096, 0]
      ((Wrapper.open64.run linuxSource [4096, 0] Tls.nested).play Env.passing.ext ()) ∧
    ¬ Transparent linuxSource .fclose [4096]
      ((Wrapper.fclose.run linuxSource [4096] Tls.nested).play Env.passing.ext ()) := by
  refine ⟨?_, ?_, ?_⟩
  · have heff : Trace.effects ((Wrapper.open.run linuxSource [4096, 4259842, 384] Tls.start).play
        Env.passing.ext ()).1 = [.orig "open" [4096, 4259842, 0]] := by decide +kernel
    rintro ⟨r, t, w, -, args', hreads, hc, -⟩
    rw [heff] at hc
    cases hc
    exact absurd hreads (by decide +kernel)
  · have heff : Trace.effects ((Wrapper.open64.run linuxSource [4096, 0] Tls.nested).play
        Env.passing.ext ()).1 = [.orig "open" [4096, 0, 0]] := by decide +kernel
    rintro ⟨r, t, w, -, args', -, hc, -⟩
    rw [heff] at hc
    have hname : "open" = "open64" := (Ext.orig.inj (List.singleton_inj.mp hc)).1
    exact absurd hname (by decide)
  · have heff : Trace.effects ((Wrapper.fclose.run linuxSource [4096] Tls.nested).play
        Env.passing.ext ()).1 = [.orig "fclose" [4096]] := by decide +kernel
    rintro ⟨r, t, w, -, args', -, hc, -⟩
    rw [heff] at hc
    cases hc

/-- A nested call of `open` with `O_CREAT` is transparent. -/
theorem handwritten_transparent_creat : Transparent linuxSource .open [4096, 66, 420]
    ((Wrapper.open.run linuxSource [4096, 66, 420] Tls.nested).play Env.passing.ext ()) :=
  (handwritten_transparent_iff Env.passing linuxSource .open [4096, 66, 420]
    ⟨4096, 66, [420], rfl, fun _ => by decide⟩ Tls.nested () fun _ _ => rfl).mpr
      ⟨fun h => h.2.2 rfl, fun _ => Or.inl (by decide)⟩

end Posix

end Libfiu
