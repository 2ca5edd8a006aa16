/-
  What the code of the macros keeps, whatever is to be kept.

  What is proved of all wrappers is about the places where a wrapper makes a foreign call, and about its
  end.  Such facts differ in what they say of the variables of the thread, and they follow from the
  macros in the same way.

  1. **`MacroLogic`** — an invariant `I known n` of a call: the counter is at `n`, and if `known`, then
     the original is resolved.  The fields say what the primitive steps do to it, and `init` what
     resolving the original does.

  2. **The macros** — each macro keeps the invariant (`lasting_step`, `lasting_end`), and so does a
     function that consists of them (`lasting_top`).

  `MacroLogic` has no theorem of its own about wrappers. It is instantiated with the invariant at
  hand (`counterLogic` for the counter, `resolveLogic` for the originals), and what comes back is
  that this invariant holds at every foreign call of every function that the generator, or a hand,
  makes of these macros.
-/
import Libfiu.PosixCodegen

namespace Libfiu

namespace Posix

open Calls Code

/-! ## The logic

The results about the wrappers need different invariants, of the counter or of what was resolved;
what is common to them is how they go through the macros. So the invariant is a parameter, with the
calls that it has to survive. -/

/-- A call of `fiu_fail`, of `libc_symbol`, or of something else. -/
def Ext.plain : Ext → Bool
  | .fiuFail _ | .libcSymbol _ => false
  | _ => true

/-- What is to be provided for the calls of the wrapper `name` that are entered with the counter at
    `entry`.  Foreign calls are made with the counter at values that meet `N`, and if not `B`, then only
    those of the original and of `libc_symbol`.  The original may be resolved where `F` holds.  A failure
    may have been injected if `U`.  At the end `D` is to hold. -/
structure MacroLogic (src : Source) (name : String) (entry : ℤ) (N : ℤ → Prop) (U B : Prop)
    (G : Ext → Tls → Prop) (R : Ext → Tls → ℤ → Tls → Prop) (I : Bool → ℤ → Tls → Prop)
    (F D : Tls → Prop) : Prop where
  next : ∀ {n}, N n → N (n + 1)
  first : entry = 0 → N 1
  nested : entry ≠ 0 → N entry
  counted : ∀ {b n t}, I b n t → t.fiuCalled = n
  errno : ∀ {b n t v}, I b n t → I b n { t with errno := v }
  inc : ∀ {b n t}, I b n t → I b (n + 1) { t with fiuCalled := t.fiuCalled + 1 }
  dec : ∀ {b n t}, I b (n + 1) t → I b n { t with fiuCalled := t.fiuCalled - 1 }
  known : ∀ {b n t}, I b n t → (U ∨ t.orig (src.file, name) ≠ 0) → I true n t
  found : ∀ {n t}, I true n t → U ∨ t.orig (src.file, name) ≠ 0
  body : entry = 0 → B
  ask : ∀ {b n t e}, N n → e.plain = true → (B ∨ ∃ args, e = .orig name args) → I b n t →
    G e t ∧ ∀ r t', R e t r t' → I b n t'
  fiuFail : ∀ {t p}, entry = 0 → I false 1 t →
    G (.fiuFail p) t ∧ ∀ r t', R (.fiuFail p) t r t' → (U ∨ r = 0) ∧ I false 1 t'
  outermost : ∀ {n t}, entry = 0 → I false n t → F t
  idle : ∀ {n t}, I false n t → t.inInit (src.file, name) = 0 → F t
  init : ∀ {n t}, N n → I false n t → t.orig (src.file, name) = 0 → F t →
    (fiuInit src name t).Lasts U G R fun _ => I true n
  done : ∀ {t}, I true entry t → D t
  busy : ∀ {t}, I false entry t → t.inInit (src.file, name) ≠ 0 → D t

namespace MacroLogic

variable {src : Source} {name : String} {entry : ℤ} {N : ℤ → Prop} {U B : Prop}
  {G : Ext → Tls → Prop} {R : Ext → Tls → ℤ → Tls → Prop} {I : Bool → ℤ → Tls → Prop} {F D : Tls → Prop}
  (L : MacroLogic src name entry N U B G R I F D) {b : Bool} {n : ℤ}

include L

/-! ## The pieces

Each foreign call keeps the invariant by assumption; code that makes none changes what it is allowed
to change. -/

theorem lasting_setErrno (value : ℤ) : Lasting U G R (I b n) (setErrno value) fun _ => I b n :=
  Lasting.modify fun _ ht => L.errno ht

theorem lasting_recInc : Lasting U G R (I b n) recInc fun _ => I b (n + 1) :=
  Lasting.modify fun _ ht => L.inc ht

theorem lasting_recDec : Lasting U G R (I b (n + 1)) recDec fun _ => I b n :=
  Lasting.modify fun _ ht => L.dec ht

theorem lasting_ask (hn : N n) {e : Ext} (he : e.plain = true)
    (hB : B ∨ ∃ args, e = .orig name args) :
    Lasting U G R (I b n) (Code.ask e) fun _ => I b n :=
  Lasting.ask fun _ ht => L.ask hn he hB ht

omit L in
theorem lasting_getOrig :
    Lasting U G R (I b n) (getOrig src name) fun r t => r = t.orig (src.file, name) ∧ I b n t :=
  fun _ ht => ⟨rfl, ht⟩

/-- The original is resolved if need be. -/
theorem lasting_initIfNull (hn : N n) (hF : ∀ t, I false n t → F t) :
    Lasting U G R (I false n) (initIfNull src name) fun _ => I true n := by
  refine lasting_getOrig.bind fun r => Lasting.ite (fun hr => ?_) fun hr => ?_
  · rintro t ⟨horig, ht⟩
    exact L.init hn ht (horig ▸ hr) (hF t ht)
  · exact Lasting.pure fun t ht => L.known ht.2 (Or.inr (ht.1 ▸ hr))

/-- The original is called where it is known. -/
theorem lasting_callOrig (hn : N n) (args : List ℤ) :
    Lasting U G R (I true n) (callOrig src name args) fun _ => I true n := by
  refine lasting_getOrig.bind fun r => Lasting.ite (fun hr => ?_) fun _ => ?_
  · apply Lasting.stuck
    rintro t ⟨horig, ht⟩
    exact (L.found ht).resolve_right fun h => h (horig ▸ hr)
  · refine (L.lasting_ask hn rfl (Or.inr ⟨args, rfl⟩)).mono ?_ fun _ _ h => h
    exact fun _ ht => ht.2

theorem lasting_ferrorTable (hB : B) (hn : N n) :
    Lasting U G R (I b n) ferrorTable fun _ => I b n := by
  refine (L.lasting_ask hn rfl (Or.inl hB)).bind fun first => ?_
  refine Lasting.ite (fun _ => ?_) fun _ => Lasting.done
  refine L.lasting_recInc.bind fun _ => ?_
  exact (L.lasting_ask (L.next hn) rfl (Or.inl hB)).bind fun _ => L.lasting_recDec

theorem lasting_setFerror (hB : B) (hn : N n) (stream : ℤ) :
    Lasting U G R (I b n) (setFerror stream) fun _ => I b n :=
  (L.lasting_ferrorTable hB hn).bind fun _ =>
    (L.lasting_ask hn rfl (Or.inl hB)).bind fun _ => Lasting.done

theorem lasting_getFerror (hB : B) (hn : N n) (stream : ℤ) :
    Lasting U G R (I b n) (getFerror stream) fun _ => I b n :=
  (L.lasting_ferrorTable hB hn).bind fun _ =>
    (L.lasting_ask hn rfl (Or.inl hB)).bind fun _ => Lasting.done

theorem lasting_clearFerror (hB : B) (hn : N n) (stream : ℤ) :
    Lasting U G R (I b n) (clearFerror stream) fun _ => I b n :=
  (L.lasting_ferrorTable hB hn).bind fun _ =>
    (L.lasting_ask hn rfl (Or.inl hB)).bind fun _ => Lasting.done

/-- The array of errnos may be empty, so this is undefined for some functions. -/
theorem lasting_failErrno (hU : U) (hB : B) (hn : N n) (l : Locals) :
    Lasting U G R (I b n) (failErrno l) fun _ => I b n := by
  refine Lasting.get.bind fun t => ?_
  refine Lasting.ite (fun _ => ?_) fun _ => ?_
  · refine Lasting.bind (Lasting.mono (L.lasting_ask hn rfl (Or.inl hB)) (fun _ ht => ht.2)
      fun _ _ h => h) fun r => ?_
    split
    · exact L.lasting_setErrno _
    · exact Lasting.stuck fun _ _ => hU
  · exact (L.lasting_setErrno _).mono (fun _ ht => ht.2) fun _ _ h => h

end MacroLogic

/-! ## The macros

All macros between `mkwrap_top` and the end are alike in what they may do, and so are the ends. -/

/-- The macros between `mkwrap_top` and the end. -/
def Macro.IsStep : Macro → Prop
  | bodyReduce .. => True
  | validErrnos .. => True
  | bodyErrno .. => True
  | bodyErrnoFerror .. => True
  | bodyHardcoded .. => True
  | bodyFailinfo .. => True
  | clearFerror .. => True
  | _ => False

/-- The macros that end a wrapper of `name`. -/
def Macro.IsEnd (name : String) : Macro → Prop
  | bottom name' _ => name' = name
  | ferrorBottom => name = "ferror"
  | _ => False

/-- Steps, and an end. -/
def IsBody (name : String) : List Macro → Prop
  | [] => False
  | m :: ms => m.IsEnd name ∨ (m.IsStep ∧ IsBody name ms)

/-- More steps in front. -/
theorem isBody_append {name : String} {ms : List Macro} :
    ∀ {steps : List Macro}, (∀ m ∈ steps, m.IsStep) → IsBody name ms → IsBody name (steps ++ ms)
  | [], _, h => h
  | m :: _, hsteps, h =>
    Or.inr ⟨hsteps m (List.mem_cons_self ..),
      isBody_append (fun m' hm' => hsteps m' (List.mem_cons_of_mem m hm')) h⟩

/-- Where a step may lead: on, or to the exit with the original known or a failure injected. -/
def Flow.Steps (I : Bool → ℤ → Tls → Prop) : Flow → Tls → Prop
  | .next _ => I false 1
  | .exit _ => I true 1
  | .ret _ => fun _ => False

/-- Where an end leads. -/
def Flow.Ends (I : Bool → ℤ → Tls → Prop) : Flow → Tls → Prop
  | .exit _ => I true 1
  | _ => fun _ => False

/-- Where `mkwrap_body_called` leads: on, if the counter was at 0, and else out of the function. -/
def Flow.Enters (entry : ℤ) (I : Bool → ℤ → Tls → Prop) (D : Tls → Prop) : Flow → Tls → Prop
  | .next _ => fun t => entry = 0 ∧ I false 1 t
  | .exit _ => fun _ => False
  | .ret _ => D

namespace MacroLogic

variable {src : Source} {name : String} {entry : ℤ} {N : ℤ → Prop} {U B : Prop}
  {G : Ext → Tls → Prop} {R : Ext → Tls → ℤ → Tls → Prop} {I : Bool → ℤ → Tls → Prop} {F D : Tls → Prop}
  (L : MacroLogic src name entry N U B G R I F D)

include L

theorem lasting_fiuFail (hentry : entry = 0) (p : String) :
    Lasting U G R (I false 1) (Code.ask (.fiuFail p)) fun r t => (U ∨ r = 0) ∧ I false 1 t :=
  Lasting.ask fun _ ht => L.fiuFail hentry ht

/-- The bodies that make a function fail. -/
theorem lasting_bodyFail (hentry : entry = 0) {fiuName : String} {fail : Code ℤ} {l : Locals}
    (hfail : U → Lasting U G R (I false 1) fail fun _ => I false 1) :
    Lasting U G R (I false 1) (bodyFail fiuName fail l) (Flow.Steps I) := by
  refine (L.lasting_fiuFail hentry fiuName).bind fun fstatus => ?_
  refine Lasting.ite (fun hfails => Lasting.of_and fun h => ?_) fun _ => ?_
  · have hU : U := h.resolve_right hfails
    exact (hfail hU).bind fun _ => Lasting.pure fun _ ht => L.known ht (Or.inl hU)
  · exact Lasting.pure fun _ ht => ht.2

/-- Every macro between `mkwrap_top` and the end. -/
theorem lasting_step (hentry : entry = 0) {m : Macro} (hm : m.IsStep) (l : Locals) :
    Lasting U G R (I false 1) (m.run src l) (Flow.Steps I) := by
  have hB : B := L.body hentry
  have hn : N 1 := L.first hentry
  cases m with
  | bodyReduce fiuName cnt =>
    refine (L.lasting_fiuFail hentry _).bind fun fstatus => ?_
    refine Lasting.ite (fun hfails => Lasting.of_and fun h => ?_) fun _ => ?_
    · refine (L.lasting_ask hn rfl (Or.inl hB)).bind fun r => ?_
      split
      · exact Lasting.pure fun _ ht => ht
      · exact Lasting.stuck fun _ _ => h.resolve_right hfails
    · exact Lasting.pure fun _ ht => ht.2
  | validErrnos names => exact Lasting.pure fun _ ht => ht
  | bodyErrno fiuName failRet =>
    exact L.lasting_bodyFail hentry fun hU =>
      (L.lasting_failErrno hU hB hn l).bind fun _ => Lasting.done
  | bodyErrnoFerror fiuName failRet stream =>
    exact L.lasting_bodyFail hentry fun hU =>
      (L.lasting_failErrno hU hB hn l).bind fun _ =>
        (L.lasting_setFerror hB hn _).bind fun _ => Lasting.done
  | bodyHardcoded fiuName failRet => exact L.lasting_bodyFail hentry fun _ => Lasting.done
  | bodyFailinfo fiuName rtype =>
    refine L.lasting_bodyFail hentry fun _ => Lasting.get.bind fun _ => ?_
    exact Lasting.pure fun _ ht => ht.2
  | clearFerror stream =>
    exact (L.lasting_clearFerror hB hn _).bind fun _ => Lasting.pure fun _ ht => ht
  | _ => exact absurd hm id

/-- The end of a function: the original is called. -/
theorem lasting_end (hentry : entry = 0) {m : Macro} (hm : m.IsEnd name) (l : Locals) :
    Lasting U G R (I false 1) (m.run src l) (Flow.Ends I) := by
  have hB : B := L.body hentry
  have hn : N 1 := L.first hentry
  have hinit : Lasting U G R (I false 1) (initIfNull src name) fun _ => I true 1 :=
    L.lasting_initIfNull hn fun _ ht => L.outermost hentry ht
  cases m with
  | bottom name' paramsn =>
    obtain rfl : name' = name := hm
    exact hinit.bind fun _ =>
      (L.lasting_callOrig hn _).bind fun _ => Lasting.pure fun _ ht => ht
  | ferrorBottom =>
    obtain rfl : name = "ferror" := hm
    refine hinit.bind fun _ => (L.lasting_callOrig hn _).bind fun r => ?_
    refine Lasting.ite (fun _ => ?_) fun _ => Lasting.pure fun _ ht => ht
    refine (L.lasting_getFerror hB hn _).bind fun recorded => ?_
    exact Lasting.ite (fun _ => Lasting.pure fun _ ht => ht) fun _ => Lasting.pure fun _ ht => ht
  | _ => exact absurd hm id

/-! ## The functions

A function is `mkwrap_top`, steps and an end. Nested or not, it calls its original once or fails. -/

/-- Behind `mkwrap_top`, in a call that was entered with the counter at 0.  The induction is on the
    macros; a step that goes to the exit lowers the counter there. -/
theorem lasting_body (hentry : entry = 0) :
    ∀ {ms : List Macro}, IsBody name ms → ∀ l : Locals,
      Lasting U G R (I false 1) (assemble src ms l) fun _ => D
  | [], hms, _ => hms.elim
  | m :: ms, hms, l => by
    have hexit : ∀ r : ℤ, Lasting U G R (I true 1)
        (Flow.follow (fun l => assemble src ms l) (.exit r)) fun _ => D := by
      intro r
      have hdec : Lasting U G R (I true (0 + 1)) recDec fun _ => I true 0 := L.lasting_recDec
      rw [zero_add] at hdec
      exact hdec.bind fun _ => Lasting.pure fun _ ht => L.done (hentry ▸ ht)
    rcases hms with hend | ⟨hstep, hms⟩
    · refine (L.lasting_end hentry hend l).bind fun flow => ?_
      cases flow with
      | next l' => exact fun _ ht => ht.elim
      | exit r => exact hexit r
      | ret r => exact fun _ ht => ht.elim
    · refine (L.lasting_step hentry hstep l).bind fun flow => ?_
      cases flow with
      | next l' => exact lasting_body hentry hms l'
      | exit r => exact hexit r
      | ret r => exact fun _ ht => ht.elim

/-- The original, called from a function that was entered with the counter above 0. -/
theorem lasting_nested (hentry : entry ≠ 0) (args : List ℤ) :
    Lasting U G R (I true entry) (do return Flow.ret (← callOrig src name args))
      (Flow.Enters entry I D) :=
  (L.lasting_callOrig (L.nested hentry) args).bind fun _ => Lasting.pure fun _ ht => L.done ht

/-- The code of `mkwrap_body_called`. -/
theorem lasting_bodyCalled (paramsn : List String) (onErr : String) (l : Locals) :
    Lasting U G R (I false entry) (bodyCalled src name paramsn onErr l) (Flow.Enters entry I D) := by
  refine Lasting.get.bind fun t => Lasting.ite (fun hcalled => ?_) fun hcalled => ?_
  · -- nested: the original, resolved first if need be, or the value for an error on the way to it
    rintro _ ⟨rfl, hs⟩
    have hentry : entry ≠ 0 := fun h => hcalled ((L.counted hs).trans h)
    refine Lasting.bind lasting_getOrig (fun orig => ?_) t hs
    refine Lasting.ite (fun horig => ?_) fun horig => ?_
    · refine Lasting.get.bind fun t' => Lasting.ite (fun hbusy => ?_) fun hidle => ?_
      · apply Lasting.pure
        rintro _ ⟨rfl, -, ht⟩
        exact L.busy ht hbusy
      · have hresolve : Lasting U G R
            (fun s => t' = s ∧ orig = s.orig (src.file, name) ∧ I false entry s) (fiuInit src name)
            fun _ => I true entry := by
          rintro _ ⟨rfl, h, ht⟩
          exact L.init (L.nested hentry) ht (h ▸ horig) (L.idle ht (not_not.mp hidle))
        exact Lasting.bind hresolve fun _ => L.lasting_nested hentry _
    · refine (L.lasting_nested hentry _).mono (fun s hs => ?_) fun _ _ h => h
      exact L.known hs.2 (Or.inr (hs.1 ▸ horig))
  · rintro _ ⟨rfl, hs⟩
    have hentry : entry = 0 := (L.counted hs).symm.trans (not_not.mp hcalled)
    subst hentry
    have hinc : Lasting U G R (I false 0) recInc fun _ => I false (0 + 1) := L.lasting_recInc
    rw [zero_add] at hinc
    exact (hinc.bind fun _ => Lasting.pure fun _ ht => ⟨rfl, ht⟩) t hs

/-- **A function whose code begins with `mkwrap_top`.** -/
theorem lasting_top (paramsn : List String) (onErr : String) {ms : List Macro}
    (hms : entry = 0 → ∀ l : Locals, Lasting U G R (I false 1) (assemble src ms l) fun _ => D)
    (l : Locals) :
    Lasting U G R (I false entry) (assemble src (.top name paramsn onErr :: ms) l) fun _ => D := by
  refine (L.lasting_bodyCalled paramsn onErr l).bind fun flow => ?_
  cases flow with
  | next l' => exact Lasting.of_and fun hentry => hms hentry l'
  | exit r => exact fun _ ht => ht.elim
  | ret r => exact Lasting.done

end MacroLogic

/-! ## What the generator writes

Whatever the directives are, the macros are of that form. -/

/-- The part for `reduce` is a step. -/
theorem reduceBody_isStep (f : Function) : ∀ m ∈ f.reduceBody, m.IsStep := by
  unfold ParsedFunction.reduceBody
  split
  · exact List.forall_mem_singleton.mpr trivial
  · exact fun m hm => absurd hm List.not_mem_nil

/-- The body that fails is made of steps. -/
theorem failBody_isStep {f : Function} {body : List Macro} (h : f.failBody = .ok body) :
    ∀ m ∈ body, m.IsStep := by
  have hone : ∀ m : Macro, m.IsStep → ∀ m' ∈ [m], m'.IsStep :=
    fun m hm => List.forall_mem_singleton.mpr hm
  have htwo : ∀ m : Macro, m.IsStep → ∀ m' ∈ [writeValidErrnos f.validErrnos, m], m'.IsStep :=
    fun m hm => List.forall_mem_cons.mpr ⟨trivial, hone m hm⟩
  unfold ParsedFunction.failBody at h
  split at h
  · split at h
    · cases h
    · split at h
      · cases h
        exact htwo _ trivial
      · cases h
        exact htwo _ trivial
  · split at h
    · cases h
      exact hone _ trivial
    · cases h
      exact hone _ trivial

/-- **What the generator writes**: `mkwrap_top`, steps, and an end. -/
theorem generateTo_isBody {f : Function} {code : List Macro} (h : f.generateTo = .ok code) :
    ∃ ms, code = .top f.name f.paramsn (f.onError.getD "None") :: ms ∧ IsBody f.name ms := by
  obtain ⟨body, hbody, rfl⟩ := generateTo_ok h
  have hend : IsBody f.name [.bottom f.name f.paramsn] := Or.inl rfl
  exact ⟨_, rfl, isBody_append (reduceBody_isStep f) (isBody_append (failBody_isStep hbody) hend)⟩

end Posix

end Libfiu
