/-
  The points of failure of the preload library.

  The generator writes function_list, where each function stands with the names of its points of failure
  (`fiu_names`).  The wrapper of the function asks `fiu_fail` for just these names, first the one that
  reduces: `wrapper_asks_names`, for the wrappers written by hand as well, whose names are those in
  posix.custom.c.  What is called from a wrapper asks for none.

  A macro follows an agenda of names (`Code.Agenda`), whatever is answered, and `Left` is what of it is
  left for what is written below the macro.

  An agenda is a promise about order: a program that has the agenda `ns` asks for a prefix of `ns`,
  one name after another, and for all of them if it returns. A macro that asks for nothing leaves
  the agenda to the next one. In the end the agenda of a wrapper is the list of names which the
  generator prints for it.
-/
import Libfiu.PosixCodegen

namespace Libfiu

namespace Posix

open Calls Code

/-! ## Names

The names of a generated function are computed by the generator, those of a wrapper written by hand
stand in its macros. -/

/-- The name that is asked for. -/
def Ext.asked : Ext → Option String
  | .fiuFail name => some name
  | _ => none

/-- `fiu_names` -/
def Function.fiuNames (f : Function) : List String :=
  f.fiuName :: match f.reduce.filter (· ≠ "") with
    | some _ => [f.fiuName ++ "/reduce"]
    | none => []

/-- The points of failure of a wrapper, in the order in which it asks for them. -/
def Wrapper.names : Wrapper → List String
  | generated f _ _ => f.fiuNames.reverse
  | variadic v => [v.fiuName]
  | .open | open64 => ["posix/io/oc/open"]
  | ferror => ["posix/stdio/error/ferror"]
  | fclose => ["posix/stdio/oc/fclose"]
  | clearerr => []

/-! ## What asks for nothing

Resolving the original, calling it and setting errno have no point of failure of their own. -/

variable {src : Source} {name : String}

theorem silent_getOrig : Silent Ext.asked (getOrig src name) := Silent.get.bind fun _ => Silent.pure

theorem silent_fiuInit : Silent Ext.asked (fiuInit src name) :=
  Silent.modify.bind fun _ => Silent.modify.bind fun _ => (Silent.ask rfl).bind fun _ =>
    Silent.modify.bind fun _ => Silent.modify.bind fun _ => Silent.modify

theorem silent_initIfNull : Silent Ext.asked (initIfNull src name) :=
  silent_getOrig.bind fun _ => silent_fiuInit.ite Silent.pure

theorem silent_callOrig (args : List ℤ) : Silent Ext.asked (callOrig src name args) :=
  silent_getOrig.bind fun _ => Silent.stuck.ite (Silent.ask rfl)

theorem silent_randomErrno (l : Locals) : Silent Ext.asked (randomErrno l) := by
  refine (Silent.ask rfl).bind fun r => ?_
  split
  · exact Silent.modify
  · exact Silent.stuck

theorem silent_failErrno (l : Locals) : Silent Ext.asked (failErrno l) :=
  Silent.get.bind fun _ => (silent_randomErrno l).ite Silent.modify

theorem silent_ferrorTable : Silent Ext.asked ferrorTable :=
  (Silent.ask rfl).bind fun _ =>
    (Silent.modify.bind fun _ => (Silent.ask rfl).bind fun _ => Silent.modify).ite Silent.pure

theorem silent_setFerror (stream : ℤ) : Silent Ext.asked (setFerror stream) :=
  silent_ferrorTable.bind fun _ => (Silent.ask rfl).bind fun _ => Silent.pure

theorem silent_getFerror (stream : ℤ) : Silent Ext.asked (getFerror stream) :=
  silent_ferrorTable.bind fun _ => (Silent.ask rfl).bind fun _ => Silent.pure

theorem silent_clearFerror (stream : ℤ) : Silent Ext.asked (clearFerror stream) :=
  silent_ferrorTable.bind fun _ => (Silent.ask rfl).bind fun _ => Silent.pure

/-! ## The macros

A macro takes its name from the head of the agenda, or leaves it as it is. -/

/-- What is left of the agenda where a macro ends: all that is to be done below it, or nothing. -/
def Left (todo : List String) : Flow → List String → Prop
  | .next _, rest => rest = todo
  | _, rest => rest = []

/-- Nothing is left. -/
def Done (_ : ℤ) (rest : List String) : Prop := rest = []

/-- A macro, and what is written below it. -/
theorem agenda_follow {m : Code Flow} {below : Locals → Code ℤ} {todo todo' : List String}
    (hm : Agenda Ext.asked todo m (Left todo')) (hbelow : ∀ l, Agenda Ext.asked todo' (below l) Done) :
    Agenda Ext.asked todo (do (← m).follow below) Done := by
  refine hm.bind ?_
  intro flow rest hleft
  cases flow with
  | next l =>
    obtain rfl : rest = todo' := hleft
    exact hbelow l
  | exit r => exact Silent.modify.bind_agenda fun _ => Agenda.pure hleft
  | ret r => exact Agenda.pure hleft

/-- One macro, and those below it. -/
theorem agenda_assemble {m : Macro} {ms : List Macro} {todo todo' : List String}
    (hm : ∀ l, Agenda Ext.asked todo (m.run src l) (Left todo'))
    (hms : ∀ l, Agenda Ext.asked todo' (assemble src ms l) Done) (l : Locals) :
    Agenda Ext.asked todo (assemble src (m :: ms) l) Done := agenda_follow (hm l) hms

/-- The point of failure is asked. -/
theorem agenda_fiuFail {n : String} {todo : List String} :
    Agenda Ext.asked (n :: todo) (ask (.fiuFail n) : Code ℤ) fun _ rest => rest = todo :=
  Agenda.ask (show Ext.asked (.fiuFail n) = some n from rfl)

/-- A body that makes the function fail asks for its name, and nothing is left. -/
theorem agenda_bodyFail {n : String} {fail : Code ℤ} (hfail : Silent Ext.asked fail) (l : Locals) :
    Agenda Ext.asked [n] (bodyFail n fail l) (Left []) := by
  refine agenda_fiuFail.bind ?_
  rintro r rest rfl
  refine Agenda.ite ?_ (Agenda.pure rfl)
  exact hfail.bind_agenda fun _ => Agenda.pure rfl

theorem agenda_bodyErrno {n : String} {onErr : String} (l : Locals) :
    Agenda Ext.asked [n] (bodyErrno src n onErr l) (Left []) :=
  agenda_bodyFail ((silent_failErrno l).bind fun _ => Silent.pure) l

theorem agenda_bodyErrnoFerror {n : String} {onErr stream : String} (l : Locals) :
    Agenda Ext.asked [n] (bodyErrnoFerror src n onErr stream l) (Left []) :=
  agenda_bodyFail ((silent_failErrno l).bind fun _ =>
    (silent_setFerror (l.vars stream)).bind fun _ => Silent.pure) l

/-- The directive `reduce` asks for its name, and the function goes on. -/
theorem agenda_bodyReduce {n cnt : String} {todo : List String} (l : Locals) :
    Agenda Ext.asked (n :: todo) (bodyReduce src n cnt l) (Left todo) := by
  refine agenda_fiuFail.bind ?_
  rintro r rest rfl
  refine Agenda.ite ?_ (Agenda.pure rfl)
  refine (Silent.ask rfl).bind_agenda fun random => ?_
  split
  · exact Agenda.pure rfl
  · exact Agenda.stuck

/-- Below the last macro there is nothing. -/
theorem agenda_nil (l : Locals) : Agenda Ext.asked [] (assemble src [] l) Done := Agenda.stuck

theorem agenda_bottom {paramsn : List String} (l : Locals) :
    Agenda Ext.asked [] (assemble src [.bottom name paramsn] l) Done := by
  refine agenda_assemble (fun l => ?_) agenda_nil l
  exact silent_initIfNull.bind_agenda fun _ =>
    (silent_callOrig _).bind_agenda fun _ => Agenda.pure rfl

/-- `mkwrap_top`: a call that comes from a wrapper goes to the original. -/
theorem agenda_top {paramsn : List String} {onErr : String} {ms : List Macro} {todo : List String}
    (hms : ∀ l, Agenda Ext.asked todo (assemble src ms l) Done) (l : Locals) (t : Tls) :
    (assemble src (.top name paramsn onErr :: ms) l t).Agenda Ext.asked Done
      (if t.fiuCalled = 0 then todo else []) := by
  have horiginal : Agenda Ext.asked [] (do return Flow.ret (← callOrig src name (paramsn.map l.vars)))
      (Left todo) := (silent_callOrig _).bind_agenda fun _ => Agenda.pure rfl
  have hnested : Agenda Ext.asked [] (do
      if (← getOrig src name) = 0 then
        if (← Code.get).inInit (src.file, name) ≠ 0 then
          return Flow.ret (src.value onErr)
        else
          fiuInit src name
          return Flow.ret (← callOrig src name (paramsn.map l.vars))
      else
        return Flow.ret (← callOrig src name (paramsn.map l.vars))) (Left todo) := by
    refine silent_getOrig.bind_agenda fun _ => Agenda.ite ?_ horiginal
    refine Silent.get.bind_agenda fun _ => Agenda.ite (Agenda.pure rfl) ?_
    exact silent_fiuInit.bind_agenda fun _ => horiginal
  have hbody : (bodyCalled src name paramsn onErr l t).Agenda Ext.asked (Left todo)
      (if t.fiuCalled = 0 then todo else []) := by
    unfold bodyCalled
    show ((if t.fiuCalled ≠ 0 then _ else _ : Code Flow) t).Agenda _ _ _
    by_cases hcalled : t.fiuCalled = 0
    · rw [if_pos hcalled, if_neg (not_not.mpr hcalled)]
      rfl
    · rw [if_neg hcalled, if_pos hcalled]
      exact hnested t
  exact agenda_follow (m := fun _ => bodyCalled src name paramsn onErr l t) (fun _ => hbody) hms t

/-! ## The wrappers

All wrappers, each from its first macro to its last. -/

/-- The array is declared, and the function goes on. -/
theorem agenda_validErrnos {names : List (String × String)} {ms : List Macro} {todo : List String}
    (hms : ∀ l, Agenda Ext.asked todo (assemble src ms l) Done) (l : Locals) :
    Agenda Ext.asked todo (assemble src (.validErrnos names :: ms) l) Done := by
  have hdeclare : ∀ l, Agenda Ext.asked todo ((Macro.validErrnos names).run src l) (Left todo) :=
    fun _ _ => rfl
  exact agenda_assemble hdeclare hms l

/-- The body that the generator chooses. -/
theorem agenda_failBody {f : Function} {body : List Macro} (hbody : f.failBody = .ok body) (l : Locals) :
    Agenda Ext.asked [f.fiuName] (assemble src (body ++ [.bottom f.name f.paramsn]) l) Done := by
  unfold ParsedFunction.failBody at hbody
  by_cases huse : f.useErrno = true
  · rw [if_pos huse] at hbody
    cases hon : f.onError with
    | none =>
      rw [hon] at hbody
      cases hbody
    | some onErr =>
      rw [hon] at hbody
      cases hferror : f.ferror with
      | none =>
        rw [hferror] at hbody
        cases hbody
        exact agenda_validErrnos (agenda_assemble agenda_bodyErrno agenda_bottom) l
      | some stream =>
        rw [hferror] at hbody
        cases hbody
        exact agenda_validErrnos (agenda_assemble agenda_bodyErrnoFerror agenda_bottom) l
  · rw [if_neg huse] at hbody
    cases hon : f.onError with
    | none =>
      rw [hon] at hbody
      cases hbody
      exact agenda_assemble (agenda_bodyFail (Silent.get.bind fun _ => Silent.pure)) agenda_bottom l
    | some onErr =>
      rw [hon] at hbody
      cases hbody
      exact agenda_assemble (agenda_bodyFail Silent.pure) agenda_bottom l

/-- The code of a function. -/
theorem agenda_generated {f : Function} {code : List Macro} (h : f.generateTo = .ok code) (l : Locals)
    (t : Tls) : (assemble src code l t).Agenda Ext.asked Done
      (if t.fiuCalled = 0 then f.fiuNames.reverse else []) := by
  obtain ⟨body, hbody, rfl⟩ := generateTo_ok h
  refine agenda_top ?_ l t
  unfold Function.fiuNames ParsedFunction.reduceBody
  rcases f.reduce.filter (· ≠ "") with _ | p
  · exact agenda_failBody hbody
  · exact agenda_assemble agenda_bodyReduce (agenda_failBody hbody)

/-- `open` and `open64`: the mode is taken before the call is looked at. -/
theorem agenda_open {paramsn : List String} (l : Locals) (t : Tls) :
    (assemble src [.vaMode, .top "open" ["pathname", "flags", "mode"] "-1", openErrnos,
      .bodyErrno "posix/io/oc/open" "-1", .bottom name paramsn] l t).Agenda Ext.asked Done
        (if t.fiuCalled = 0 then ["posix/io/oc/open"] else []) := by
  have htop : ∀ l, (assemble src [.top "open" ["pathname", "flags", "mode"] "-1", openErrnos,
      .bodyErrno "posix/io/oc/open" "-1", .bottom name paramsn] l t).Agenda Ext.asked Done
        (if t.fiuCalled = 0 then ["posix/io/oc/open"] else []) := fun l =>
    agenda_top (agenda_validErrnos (agenda_assemble agenda_bodyErrno agenda_bottom)) l t
  show ((vaMode src l t).bind _).Agenda _ _ _
  have hmode : (∃ mode, vaMode src l t = .done (.next (l.set "mode" mode)) t) ∨
      vaMode src l t = .stuck := by
    unfold vaMode
    by_cases hflag : Int.land (l.vars "flags") (src.value "O_CREAT") ≠ 0
    · rw [if_pos hflag]
      rcases l.va.head? with _ | mode
      · exact Or.inr rfl
      · exact Or.inl ⟨mode, rfl⟩
    · rw [if_neg hflag]
      exact Or.inl ⟨0, rfl⟩
  rcases hmode with ⟨mode, hmode⟩ | hmode
  · rw [hmode]
    exact htop (l.set "mode" mode)
  · rw [hmode]
    trivial

theorem silent_clearerr (stream : ℤ) : Silent Ext.asked (clearerr src stream) :=
  Silent.modify.bind fun _ => silent_initIfNull.bind fun _ => (silent_callOrig _).bind fun _ =>
    (silent_clearFerror stream).bind fun _ => Silent.modify.bind fun _ => Silent.pure

/-- Every wrapper follows its names. -/
theorem agenda_wrapper (i : Wrapper) (args : List ℤ) (t : Tls) :
    (i.run src args t).Agenda Ext.asked Done (if t.fiuCalled = 0 then i.names else []) := by
  cases i with
  | generated f code h => exact agenda_generated h _ t
  | variadic v =>
    refine agenda_top (agenda_validErrnos ?_) _ t
    rcases v.stream with _ | stream
    · exact agenda_assemble agenda_bodyErrno agenda_bottom
    · exact agenda_assemble agenda_bodyErrnoFerror agenda_bottom
  | «open» => exact agenda_open _ t
  | open64 => exact agenda_open _ t
  | ferror =>
    refine agenda_top (agenda_assemble (agenda_bodyFail Silent.pure)
      (agenda_assemble (fun l => ?_) agenda_nil)) _ t
    refine silent_initIfNull.bind_agenda fun _ => (silent_callOrig _).bind_agenda fun _ => ?_
    refine Agenda.ite ?_ (Agenda.pure rfl)
    refine (silent_getFerror _).bind_agenda fun _ => Agenda.ite ?_ ?_
    · exact Agenda.pure rfl
    · exact Agenda.pure rfl
  | fclose =>
    refine agenda_top (agenda_validErrnos (agenda_assemble agenda_bodyErrno
      (agenda_assemble (fun l => ?_) agenda_bottom))) _ t
    exact (silent_clearFerror _).bind_agenda fun _ => Agenda.pure rfl
  | clearerr =>
    have hnone : (if t.fiuCalled = 0 then Wrapper.clearerr.names else []) = [] := by
      split
      · rfl
      · rfl
    rw [hnone]
    exact silent_clearerr _ [] t

/-- The names that were asked for. -/
def askedNames (calls : List (Ext × ℤ × Tls)) : List String := calls.filterMap fun c => c.1.asked

/-- **A wrapper asks for its points of failure**, each once and in their order, and for nothing
    else, whatever its foreign calls answer. The first conjunct is about calls that may end in
    undefined code, so they ask as far as they get; the second about calls that return. When it is
    called from a wrapper, it asks for nothing. -/
theorem wrapper_asks_names {ω : Type} (src : Source) (ext : Ext → Tls → ω → ℤ × Tls × ω)
    (i : Wrapper) (args : List ℤ) (t : Tls) (w : ω) :
    let played := (i.run src args t).play ext w
    askedNames played.1 <+: (if t.fiuCalled = 0 then i.names else []) ∧
      (played.2.isSome = true → askedNames played.1 = if t.fiuCalled = 0 then i.names else []) := by
  intro played
  obtain ⟨rest, htodo, hdone⟩ : ∃ rest,
      (if t.fiuCalled = 0 then i.names else []) = askedNames played.1 ++ rest ∧
        ∀ out ∈ played.2, Done out.1 rest := Run.Agenda.play w (agenda_wrapper i args t)
  refine ⟨⟨rest, htodo.symm⟩, fun hended => ?_⟩
  obtain ⟨out, hout⟩ := Option.isSome_iff_exists.mp hended
  have hrest : rest = [] := hdone out hout
  rw [htodo, hrest, List.append_nil]

end Posix

end Libfiu
