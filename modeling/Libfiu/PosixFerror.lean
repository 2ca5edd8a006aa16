/-
  Injected stream errors: what `ferror` says about a stream.

  A run is a list of calls of wrappers, none of them nested, in a world in which libc may reuse the
  addresses of closed streams.  The wrappers of `fclose` and `clearerr` take the stream out of the
  table; those of `pclose` and `freopen`, which the generator writes, do not.  So as long as no record
  is left behind by one of these two (`LeavesNoRecord`), `ferror` is right about every stream
  (`ferror_reports_recorded`); after that it may not be (`ferror_reports_stale`).

  A stream is an address, and an address is used again. That is the whole difficulty: a record which
  is left behind for an address says nothing false as long as no stream is there, and becomes false
  when the next one gets the address. So the condition is about the moment at which a stream is
  closed with a record, and not about the moment at which the error shows.
-/
import Libfiu.PosixDirectives
import Libfiu.PosixStreams

namespace Libfiu

namespace Posix

open Calls

/-! ## Runs

Calls of wrappers by the program, one after another, none of them nested; a call is about streams
that are open then. -/

/-- The type of a parameter that is a stream. -/
def isFile (ty : String) : Bool := ty ∈ ["FILE *", "FILE *restrict "]

/-- The streams that a call with these parameters is about, `extra` being the one that a directive
    names. -/
def namedStreams (src : Source) (params : List (String × String)) (extra : Option String)
    (args : List ℤ) : List ℤ :=
  ((params.filter fun p => isFile p.1).map Prod.snd ++ extra.toList).map
    (Locals.enter src params args).vars

/-- The streams that a call of a wrapper is about. -/
def Wrapper.streams (src : Source) : Wrapper → List ℤ → List ℤ
  | generated f _ _, args => namedStreams src f.params f.ferror args
  | variadic v, args => namedStreams src v.allParams v.stream args
  | ferror, args | fclose, args | clearerr, args => namedStreams src fileParams none args
  | _, _ => []

/-- The number of arguments is that of the parameters. -/
def Wrapper.Fits : Wrapper → List ℤ → Prop
  | generated f _ _, args => args.length = f.params.length
  | ferror, args | fclose, args | clearerr, args => args.length = 1
  | _, _ => True

instance : ∀ (w : Wrapper) (args : List ℤ), Decidable (w.Fits args)
  | .generated f _ _, args => inferInstanceAs (Decidable (args.length = f.params.length))
  | .ferror, args => inferInstanceAs (Decidable (args.length = 1))
  | .fclose, args => inferInstanceAs (Decidable (args.length = 1))
  | .clearerr, args => inferInstanceAs (Decidable (args.length = 1))
  | .variadic _, _ => .isTrue trivial
  | .open, _ => .isTrue trivial
  | .open64, _ => .isTrue trivial

/-- The wrappers of the library: a function that is written by hand is not generated as well, and a
    directive `reduce` goes with none of those about streams. -/
def Wrapper.InLibrary : Wrapper → Prop
  | generated f _ _ => lifecycle f.name ≠ .clears ∧
    (f.reduce.filter (· ≠ "") = none ∨ f.ferror = none ∧ lifecycle f.name = .other)
  | variadic v => v ∈ [fprintf, printf, dprintf, fscanf, scanf]
  | _ => True

/-- A call of a wrapper by the program, in some thread, and what is left open in it. -/
structure StreamCall where
  src : Source
  wrapper : Wrapper
  args : List ℤ
  tls : Tls
  answers : Answers

namespace StreamCall

/-- The call is not nested, and it is about open streams. -/
def Admissible (i : StreamCall) (w : World) : Prop :=
  i.tls.fiuCalled = 0 ∧ i.wrapper.Fits i.args ∧
    ∀ s ∈ i.wrapper.streams i.src i.args, s ∈ w.streams

instance (i : StreamCall) (w : World) : Decidable (i.Admissible w) :=
  inferInstanceAs (Decidable (i.tls.fiuCalled = 0 ∧ i.wrapper.Fits i.args ∧
    ∀ s ∈ i.wrapper.streams i.src i.args, s ∈ w.streams))

end StreamCall

variable (P : Platform)

/-- One call: what the wrapper returns. -/
def streamStep (w : World) (i : StreamCall) : Option (ℤ × World) :=
  if i.Admissible w then
    ((i.wrapper.run i.src i.args i.tls).exec (World.ext P i.answers) w).map fun r => (r.1, r.2.2)
  else none

/-- The stream is in the table. -/
def World.isRecorded (w : World) (stream : ℤ) : Bool :=
  (w.table.bind fun t => (hashGet P t (streamToKey stream)).join).isSome

/-- A generated wrapper, when it goes on to close or reopen a stream, does not find it in the table. -/
def Wrapper.LeavesNoRecord (w : World) (answers : Answers) (args : List ℤ) : Wrapper → Prop
  | generated f _ _ => lifecycle f.name = .reopens ∨ lifecycle f.name = .closes →
    answers.answer (.fiuFail f.fiuName) = 0 → w.isRecorded P (target f.name args) = false
  | _ => True

instance (w : World) (answers : Answers) (args : List ℤ) :
    ∀ x : Wrapper, Decidable (x.LeavesNoRecord P w answers args)
  | .generated f _ _ => inferInstanceAs (Decidable (lifecycle f.name = .reopens ∨
      lifecycle f.name = .closes → answers.answer (.fiuFail f.fiuName) = 0 →
        w.isRecorded P (target f.name args) = false))
  | .variadic _ => .isTrue trivial
  | .open => .isTrue trivial
  | .open64 => .isTrue trivial
  | .ferror => .isTrue trivial
  | .fclose => .isTrue trivial
  | .clearerr => .isTrue trivial

/-- **The condition**: allocations succeed, and no record is left behind. -/
def StreamCall.LeavesNoRecord (w : World) (i : StreamCall) : Prop :=
  i.answers.malloc = true ∧ i.wrapper.LeavesNoRecord P w i.answers i.args

instance (w : World) (i : StreamCall) : Decidable (i.LeavesNoRecord P w) :=
  inferInstanceAs (Decidable (i.answers.malloc = true ∧
    i.wrapper.LeavesNoRecord P w i.answers i.args))

/-! ## The wrappers

Each kind of wrapper against the world of `PosixStreams`: it does to streams what its original does
to them, and to the table what its macros say. -/

variable {P} {src : Source} {i : Answers} {S : Finset ℤ} {h : List Event} {M : CString → Option ℕ}

/-- A stream that has no record is not in the table. -/
theorem isRecorded_eq_false {w : World} (hw : In P S h M w) {s : ℤ} (hs : w.isRecorded P s = false) :
    M (streamToKey s) = none := by
  rcases hw.table with ⟨-, -, hM⟩ | ⟨-, t, htable, hM⟩
  · rw [hM]
  · unfold World.isRecorded at hs
    rw [htable, Option.bind_some, hashGet_eq hM] at hs
    exact Option.isSome_eq_false_iff.mp hs |> Option.isNone_iff_eq_none.mp

/-- A function that is set up to fail, and then calls an original that keeps the invariant. -/
theorem does_bottom {name : String} {paramsn : List String} {l : Locals} (ha : Agree S h M)
    (hclears : lifecycle name ≠ .clears)
    (hM : lifecycle name = .reopens ∨ lifecycle name = .closes →
      M (streamToKey (target name (paramsn.map l.vars))) = none) :
    Does P i (In P S h M) (assemble src [.bottom name paramsn] l) fun _ => World.Inv P := by
  have hbottom : Does P i (In P S h M) (bottom src name paramsn l) fun flow w =>
      (∃ r, flow = .exit r) ∧ w.Inv P := by
    refine (does_initIfNull name).bind fun _ => (does_callOrig name _).bind fun r => ?_
    refine Code.Correct.pure fun _ w' hw' => ⟨⟨r, rfl⟩, ?_⟩
    obtain ⟨-, w, hw, horig⟩ := hw'
    exact orig_inv hw ha horig hclears hM
  refine hbottom.bind fun flow => ?_
  intro t w hw r hr
  obtain ⟨⟨r', rfl⟩, hinv⟩ := hw
  cases hr
  exact hinv

/-- The array is declared, and the function goes on. -/
theorem does_declare {names : List (String × String)} {ms : List Macro} {l : Locals}
    {pre : World → Prop} {post : ℤ → World → Prop}
    (h : Does P i pre (assemble src ms { l with
      validErrnos := (names.filter fun e => src.defined e.1).map fun e => src.value e.2 }) post) :
    Does P i pre (assemble src (.validErrnos names :: ms) l) post := h

/-- The bodies that do nothing to streams. -/
theorem does_bodyErrno {pre post : World → Prop} {fiuName failRet : String} {ms : List Macro}
    {l : Locals} (hpre : ∀ w, pre w → post w)
    (hrest : i.answer (.fiuFail fiuName) = 0 → Does P i pre (assemble src ms l) fun _ => post) :
    Does P i pre (assemble src (.bodyErrno fiuName failRet :: ms) l) fun _ => post :=
  does_bodyFail
    (fun _ => (does_failErrno l).bind fun _ => Code.Correct.pure fun _ => hpre) hrest

theorem does_bodyHardcoded {pre post : World → Prop} {fiuName failRet : String} {ms : List Macro}
    {l : Locals} (hpre : ∀ w, pre w → post w)
    (hrest : i.answer (.fiuFail fiuName) = 0 → Does P i pre (assemble src ms l) fun _ => post) :
    Does P i pre (assemble src (.bodyHardcoded fiuName failRet :: ms) l) fun _ => post :=
  does_bodyFail (fun _ => Code.Correct.pure fun _ => hpre) hrest

theorem does_bodyFailinfo {pre post : World → Prop} {fiuName rtype : String} {ms : List Macro}
    {l : Locals} (hpre : ∀ w, pre w → post w)
    (hrest : i.answer (.fiuFail fiuName) = 0 → Does P i pre (assemble src ms l) fun _ => post) :
    Does P i pre (assemble src (.bodyFailinfo fiuName rtype :: ms) l) fun _ => post :=
  does_bodyFail (fun _ => does_get.bind fun _ => Code.Correct.pure fun _ => hpre) hrest

/-- The body that records a stream, which is open. -/
theorem does_bodyErrnoFerror (hmalloc : i.malloc = true) (ha : Agree S h M)
    {fiuName failRet s : String} {ms : List Macro} {l : Locals} (hs : l.vars s ∈ S)
    (hrest : i.answer (.fiuFail fiuName) = 0 →
      Does P i (In P S h M) (assemble src ms l) fun _ => World.Inv P) :
    Does P i (In P S h M) (assemble src (.bodyErrnoFerror fiuName failRet s :: ms) l)
      fun _ => World.Inv P := by
  refine does_bodyFail (fun _ => ?_) hrest
  refine (does_failErrno l).bind fun _ => (gives_setFerror hmalloc _).correct.bind fun _ => ?_
  exact Code.Correct.pure fun _ w hw => ⟨_, _, _, hw, ha.injected hs _⟩

/-- What the generator writes behind the `reduce` directive. -/
theorem does_body (hmalloc : i.malloc = true) (ha : Agree S h M) {f : Function} {body : List Macro}
    (hbody : f.failBody = .ok body) {l : Locals} (hs : ∀ s, f.ferror = some s → l.vars s ∈ S)
    (hclears : lifecycle f.name ≠ .clears)
    (hM : lifecycle f.name = .reopens ∨ lifecycle f.name = .closes →
      i.answer (.fiuFail f.fiuName) = 0 →
        M (streamToKey (target f.name (f.paramsn.map l.vars))) = none) :
    Does P i (In P S h M) (assemble src (body ++ [.bottom f.name f.paramsn]) l)
      fun _ => World.Inv P := by
  have hkeep : ∀ w, In P S h M w → w.Inv P := fun w hw => ⟨S, h, M, hw, ha⟩
  have hbottom : ∀ l' : Locals, l'.vars = l.vars → i.answer (.fiuFail f.fiuName) = 0 →
      Does P i (In P S h M) (assemble src [.bottom f.name f.paramsn] l') fun _ => World.Inv P := by
    intro l' hl' hpasses
    refine does_bottom ha hclears fun hlife => ?_
    rw [hl']
    exact hM hlife hpasses
  unfold ParsedFunction.failBody at hbody
  split at hbody
  · split at hbody
    · cases hbody
    · split at hbody
      · rename_i s hferror
        cases hbody
        exact does_declare (does_bodyErrnoFerror hmalloc ha (hs s hferror) (hbottom _ rfl))
      · cases hbody
        exact does_declare (does_bodyErrno hkeep (hbottom _ rfl))
  · split at hbody
    · cases hbody
      exact does_bodyHardcoded hkeep (hbottom l rfl)
    · cases hbody
      exact does_bodyFailinfo hkeep (hbottom l rfl)

/-- `mkwrap_top`, in a call that is not nested. -/
theorem does_top {pre : World → Prop} {post : ℤ → World → Prop} {name onErr : String}
    {paramsn : List String} {ms : List Macro} {l : Locals} (h : Does P i pre (assemble src ms l) post) :
    Code.Correct (World.ext P i) (fun t w => t.fiuCalled = 0 ∧ pre w)
      (assemble src (.top name paramsn onErr :: ms) l) fun a _ w => post a w := by
  rintro t w ⟨ht, hw⟩ r hr
  rw [assemble_top_zero ht] at hr
  exact h _ w hw r hr

/-- The part that the `reduce` directive adds. -/
theorem does_reduceBody {f : Function} {pre : World → Prop} {post : ℤ → World → Prop} {ms : List Macro}
    {l : Locals} (h : ∀ l' : Locals, (f.reduce.filter (· ≠ "") = none → l' = l) →
      Does P i pre (assemble src ms l') post) :
    Does P i pre (assemble src (f.reduceBody ++ ms) l) post := by
  unfold ParsedFunction.reduceBody
  cases hreduce : f.reduce.filter (· ≠ "") with
  | none => exact h l fun _ => rfl
  | some p =>
    have hnext : ∀ l', Does P i pre (assemble src ms l') post := fun l' => h l' fun hnone => by
      rw [hreduce] at hnone
      cases hnone
    have hbody : Does P i pre (bodyReduce src (f.fiuName ++ "/reduce") p l) fun flow w =>
        (∃ l', flow = .next l') ∧ pre w := by
      refine Does.bind (does_ask fun _ _ => rfl) fun status => ?_
      refine Code.Correct.ite (fun _ => ?_) fun _ => Code.Correct.pure fun _ _ hw => ⟨⟨l, rfl⟩, hw.1⟩
      refine Code.Correct.mono (P := fun _ => pre) ?_ (fun _ _ hw => hw.1) fun _ _ _ hw => hw
      refine does_random.bind fun r => ?_
      split
      · exact Code.Correct.pure fun _ _ hw => ⟨⟨_, rfl⟩, hw⟩
      · exact Code.Correct.stuck
    refine hbody.bind fun flow => ?_
    intro t w hw r hr
    obtain ⟨⟨l', rfl⟩, hpre⟩ := hw
    exact hnext l' t w hpre r hr

/-- The beginning of `open`. -/
theorem does_vaMode {pre : World → Prop} {post : ℤ → World → Prop} {ms : List Macro} {l : Locals}
    (h : ∀ l', Code.Correct (World.ext P i) (fun t w => t.fiuCalled = 0 ∧ pre w) (assemble src ms l')
      fun a _ w => post a w) :
    Code.Correct (World.ext P i) (fun t w => t.fiuCalled = 0 ∧ pre w)
      (assemble src (.vaMode :: ms) l) fun a _ w => post a w := by
  have hmode : Code.Correct (World.ext P i) (fun t w => t.fiuCalled = 0 ∧ pre w) (vaMode src l)
      fun flow t w => (∃ l', flow = .next l') ∧ t.fiuCalled = 0 ∧ pre w := by
    refine Code.Correct.ite (fun _ => ?_) fun _ => Code.Correct.pure fun _ _ hw => ⟨⟨_, rfl⟩, hw⟩
    split
    · exact Code.Correct.pure fun _ _ hw => ⟨⟨_, rfl⟩, hw⟩
    · exact Code.Correct.stuck
  refine Code.Correct.bind hmode fun flow => ?_
  intro t w hw r hr
  obtain ⟨⟨l', rfl⟩, hpre⟩ := hw
  exact h l' t w hpre r hr

/-- A function that only sets `errno`, or records an open stream, and calls an original that is nothing
    to streams. -/
theorem does_plain (ha : Agree S h M) {name fiuName failRet : String} {paramsn : List String}
    {names : List (String × String)} {l : Locals} (hother : lifecycle name = .other) :
    Does P i (In P S h M) (assemble src [.validErrnos names, .bodyErrno fiuName failRet,
      .bottom name paramsn] l) fun _ => World.Inv P := by
  refine does_declare (does_bodyErrno (fun w hw => ⟨S, h, M, hw, ha⟩) fun _ => ?_)
  refine does_bottom ha ?_ fun hlife => ?_
  · rw [hother]
    decide
  · rw [hother] at hlife
    simp at hlife

/-- A function that records its stream when it fails. -/
theorem does_recording (hmalloc : i.malloc = true) (ha : Agree S h M) {name fiuName failRet s : String}
    {paramsn : List String} {names : List (String × String)} {l : Locals}
    (hother : lifecycle name = .other) (hs : l.vars s ∈ S) :
    Does P i (In P S h M) (assemble src [.validErrnos names, .bodyErrnoFerror fiuName failRet s,
      .bottom name paramsn] l) fun _ => World.Inv P := by
  refine does_declare (does_bodyErrnoFerror hmalloc ha hs fun _ => ?_)
  refine does_bottom ha ?_ fun hlife => ?_
  · rw [hother]
    decide
  · rw [hother] at hlife
    simp at hlife

/-- The functions with a variable number of arguments. -/
theorem does_variadic (hmalloc : i.malloc = true) (ha : Agree S h M) {v : Variadic}
    (hv : v ∈ [fprintf, printf, dprintf, fscanf, scanf]) {l : Locals}
    (hs : ∀ s, v.stream = some s → l.vars s ∈ S) :
    Code.Correct (World.ext P i) (fun t w => t.fiuCalled = 0 ∧ In P S h M w) (assemble src v.macros l)
      fun _ _ w => w.Inv P := by
  have hall : ∀ v ∈ [fprintf, printf, dprintf, fscanf, scanf], lifecycle v.nvname = .other := by
    decide
  have hother := hall v hv
  unfold Variadic.macros
  cases hstream : v.stream with
  | some s => exact does_top (does_recording hmalloc ha hother (hs s hstream))
  | none => exact does_top (does_plain ha hother)

/-- The original is resolved if need be: `dlsym` finds it. -/
theorem gives_initIfNull {pre : World → Prop} {name : String}
    (hdlsym : i.answer (.libcSymbol name) ≠ 0) : Code.Returns (World.ext P i) (fun _ w => pre w)
      (initIfNull src name) fun _ t w => pre w ∧ t.orig (src.file, name) ≠ 0 := by
  intro t w hw
  have hif : initIfNull src name t =
      if t.orig (src.file, name) = 0 then fiuInit src name t else .done () t :=
    Code.ite_apply _ _ _ _
  show ∃ r, (initIfNull src name t).exec (World.ext P i) w = some r ∧ _
  rw [hif]
  by_cases hnull : t.orig (src.file, name) = 0
  · rw [if_pos hnull]
    refine ⟨((), _, w), rfl, hw, ?_⟩
    have hset : ∀ orig : String × String → ℤ,
        Function.update orig (src.file, name) (i.answer (.libcSymbol name)) (src.file, name) ≠ 0 := by
      intro orig
      rw [Function.update_self]
      exact hdlsym
    exact hset _
  · rw [if_neg hnull]
    exact ⟨((), t, w), rfl, hw, hnull⟩

/-- An original that is nothing to streams returns. -/
theorem gives_callOrig {pre : World → Prop} {name : String} (hother : lifecycle name = .other)
    (args : List ℤ) :
    Code.Returns (World.ext P i) (fun t w => pre w ∧ t.orig (src.file, name) ≠ 0)
      (callOrig src name args) fun r _ w => pre w ∧ r = i.answer (.orig name args) := by
  rintro t w ⟨hw, hname⟩
  have hif : callOrig src name args t =
      if t.orig (src.file, name) = 0 then .stuck else .call (.orig name args) t .done :=
    Code.ite_apply _ _ _ _
  show ∃ r, (callOrig src name args t).exec (World.ext P i) w = some r ∧ _
  have hcall : w.orig name args (i.answer (.orig name args)) = some w := by
    unfold World.orig
    rw [hother]
  have hext : World.ext P i (.orig name args) t w =
      some (i.answer (.orig name args), i.thread (.orig name args) t, w) := by
    show (w.orig name args _).map _ = _
    rw [hcall]
    rfl
  refine ⟨(i.answer (.orig name args), i.thread (.orig name args) t, w), ?_, hw, rfl⟩
  rw [hif, if_neg hname, Run.exec, hext]
  rfl

/-- The end of `ferror`: if the original has nothing to say, it says what is in the table. -/
theorem gives_ferrorBottom (hmalloc : i.malloc = true)
    (hdlsym : i.answer (.libcSymbol "ferror") ≠ 0) {l : Locals} :
    Gives P i (In P S h M) (ferrorBottom src l) fun flow w => ∃ r, flow = .exit r ∧ In P S h M w ∧
      (i.answer (.orig "ferror" [l.vars "stream"]) = 0 →
        (r ≠ 0 ↔ M (streamToKey (l.vars "stream")) ≠ none)) := by
  refine Code.Returns.bind (gives_initIfNull hdlsym) fun _ => ?_
  refine Code.Returns.bind (gives_callOrig (by decide) _) fun r => ?_
  refine Code.Returns.ite (fun hr => ?_) fun hr => ?_
  · refine Code.Returns.mono (P := fun _ => In P S h M) ?_ (fun _ _ hw => hw.1) fun _ _ _ hw => hw
    refine (gives_getFerror hmalloc _).bind fun recorded => ?_
    refine Code.Returns.ite (fun hrec => ?_) fun hrec => ?_
    · exact Code.Returns.pure fun _ w hw =>
        ⟨1, rfl, hw.1, fun _ => iff_of_true (by decide) (hw.2.mp hrec)⟩
    · refine Code.Returns.pure fun _ w hw => ⟨r, rfl, hw.1, fun _ => ?_⟩
      exact iff_of_false (not_not.mpr hr) fun h' => hrec (hw.2.mpr h')
  · refine Code.Returns.pure fun _ w hw => ⟨r, rfl, hw.1, fun h0 => ?_⟩
    exact absurd (hw.2.trans h0) hr

/-- The wrapper of `ferror` returns, when it is not nested and its point of failure does not fire, what
    its end says. -/
theorem gives_ferror (hmalloc : i.malloc = true) (hdlsym : i.answer (.libcSymbol "ferror") ≠ 0)
    (hpasses : i.answer (.fiuFail "posix/stdio/error/ferror") = 0) {l : Locals} :
    Code.Returns (World.ext P i) (fun t w => t.fiuCalled = 0 ∧ In P S h M w)
      (assemble src ferrorMacros l) fun r _ w => In P S h M w ∧
        (i.answer (.orig "ferror" [l.vars "stream"]) = 0 →
          (r ≠ 0 ↔ M (streamToKey (l.vars "stream")) ≠ none)) := by
  have hbody : Gives P i (In P S h M) (bodyHardcoded src "posix/stdio/error/ferror" "1" l)
      fun flow w => flow = .next l ∧ In P S h M w := by
    intro t w hw
    refine ⟨(.next l, i.thread (.fiuFail "posix/stdio/error/ferror") t, w), ?_, rfl, hw⟩
    let fail : Code ℤ := do return src.value "1"
    show ((if i.answer (.fiuFail "posix/stdio/error/ferror") ≠ 0 then do return .exit (← fail)
      else return .next l : Code Flow) _).exec _ w = _
    rw [if_neg (not_not.mpr hpasses)]
    rfl
  rintro t w ⟨ht, hw⟩
  rw [ferrorMacros, assemble_top_zero ht]
  have hrest : Gives P i (In P S h M)
      (assemble src [.bodyHardcoded "posix/stdio/error/ferror" "1", .ferrorBottom] l)
      fun r w => In P S h M w ∧ (i.answer (.orig "ferror" [l.vars "stream"]) = 0 →
        (r ≠ 0 ↔ M (streamToKey (l.vars "stream")) ≠ none)) := by
    have hend : Gives P i (In P S h M) (assemble src [.ferrorBottom] l) fun r w => In P S h M w ∧
        (i.answer (.orig "ferror" [l.vars "stream"]) = 0 →
          (r ≠ 0 ↔ M (streamToKey (l.vars "stream")) ≠ none)) := by
      refine (gives_ferrorBottom hmalloc hdlsym).bind fun flow => ?_
      rintro t w ⟨r, rfl, hw, hr⟩
      exact ⟨_, rfl, hw, hr⟩
    refine hbody.bind fun flow => ?_
    rintro t w ⟨rfl, hw⟩
    exact hend t w hw
  exact hrest _ w hw

/-- `ferror` does nothing to streams, on any path. -/
theorem does_ferror (hmalloc : i.malloc = true) (ha : Agree S h M) {l : Locals} :
    Does P i (In P S h M) (assemble src [.bodyHardcoded "posix/stdio/error/ferror" "1", .ferrorBottom] l)
      fun _ => World.Inv P := by
  have hkeep : ∀ w, In P S h M w → w.Inv P := fun w hw => ⟨S, h, M, hw, ha⟩
  have horig : Does P i (In P S h M) (callOrig src "ferror" [l.vars "stream"]) fun _ =>
      In P S h M := by
    have hcall : Does P i (In P S h M) (callOrig src "ferror" [l.vars "stream"]) _ :=
      does_callOrig "ferror" _
    refine Code.Correct.mono hcall (fun _ _ hw => hw) ?_
    rintro r t w' ⟨-, w, hw, hcall⟩
    rw [orig_other (by decide) hcall]
    exact hw
  have hbottom : Does P i (In P S h M) (ferrorBottom src l) fun flow w =>
      (∃ r, flow = .exit r) ∧ In P S h M w := by
    refine (does_initIfNull "ferror").bind fun _ => horig.bind fun r => ?_
    refine Code.Correct.ite (fun _ => ?_) fun _ => Code.Correct.pure fun _ w hw => ⟨⟨r, rfl⟩, hw⟩
    refine (gives_getFerror hmalloc _).correct.bind fun recorded => Code.Correct.ite (fun _ => ?_) ?_
    · exact Code.Correct.pure fun _ w hw => ⟨⟨1, rfl⟩, hw.1⟩
    · exact fun _ => Code.Correct.pure fun _ w hw => ⟨⟨r, rfl⟩, hw.1⟩
  refine does_bodyHardcoded hkeep fun _ => hbottom.bind fun flow => ?_
  rintro t w ⟨⟨r, rfl⟩, hw⟩ x hx
  cases hx
  exact hkeep w hw

/-- The end of `fclose` takes the stream out of the table, and closes it. -/
theorem does_fcloseEnd (hmalloc : i.malloc = true) (ha : Agree S h M) {l : Locals}
    (hs : l.vars "stream" ∈ S) :
    Does P i (In P S h M) (assemble src [.clearFerror "stream", .bottom "fclose" ["stream"]] l)
      fun _ => World.Inv P := by
  have hclear : Does P i (In P S h M) (do
      clearFerror (l.vars "stream")
      return Flow.next l) fun flow w => flow = .next l ∧
        In P S h (Function.update M (streamToKey (l.vars "stream")) none) w :=
    (gives_clearFerror hmalloc _).correct.bind fun _ => Code.Correct.pure fun _ w hw => ⟨rfl, hw⟩
  have hclose : Does P i (In P S h (Function.update M (streamToKey (l.vars "stream")) none))
      (bottom src "fclose" ["stream"] l) fun flow w => (∃ r, flow = .exit r) ∧ w.Inv P := by
    refine (does_initIfNull "fclose").bind fun _ => (does_callOrig "fclose" _).bind fun r => ?_
    refine Code.Correct.pure fun _ w' hw' => ⟨⟨r, rfl⟩, ?_⟩
    obtain ⟨-, w, hw, horig⟩ := hw'
    exact ⟨_, _, _, orig_closes hw (by decide) horig, ha.deleted hs⟩
  have hbottom : Does P i (In P S h (Function.update M (streamToKey (l.vars "stream")) none))
      (assemble src [.bottom "fclose" ["stream"]] l) fun _ => World.Inv P := by
    refine hclose.bind fun flow => ?_
    rintro t w ⟨⟨r, rfl⟩, hinv⟩ x hx
    cases hx
    exact hinv
  refine hclear.bind fun flow => ?_
  rintro t w ⟨rfl, hw⟩ r hr
  exact hbottom t w hw r hr

/-- `fclose` -/
theorem does_fclose (hmalloc : i.malloc = true) (ha : Agree S h M) {names : List (String × String)}
    {l : Locals} (hs : l.vars "stream" ∈ S) :
    Does P i (In P S h M) (assemble src [.validErrnos names,
      .bodyErrno "posix/stdio/oc/fclose" "EOF", .clearFerror "stream", .bottom "fclose" ["stream"]] l)
      fun _ => World.Inv P :=
  does_declare (does_bodyErrno (fun _ hw => ⟨S, h, M, hw, ha⟩) fun _ => does_fcloseEnd hmalloc ha hs)

/-- `clearerr` takes the stream out of the table. -/
theorem does_clearerr (hmalloc : i.malloc = true) (ha : Agree S h M) {stream : ℤ} (hs : stream ∈ S) :
    Does P i (In P S h M) (clearerr src stream) fun _ => World.Inv P := by
  refine does_modify.bind fun _ => (does_initIfNull "clearerr").bind fun _ => ?_
  have horig : Does P i (In P S h M) (callOrig src "clearerr" [stream]) fun _ =>
      In P S (h ++ [.cleared stream]) M := by
    have hcall : Does P i (In P S h M) (callOrig src "clearerr" [stream]) _ :=
      does_callOrig "clearerr" _
    refine Code.Correct.mono hcall (fun _ _ hw => hw) ?_
    rintro r t w' ⟨-, w, hw, hcall⟩
    exact orig_clears hw (by decide) hcall
  refine horig.bind fun _ => (gives_clearFerror hmalloc stream).correct.bind fun _ => ?_
  refine does_modify.bind fun _ => Code.Correct.pure fun _ w hw => ?_
  exact ⟨_, _, _, hw, ha.cleared hs⟩

/-- The variables of a function that gets one stream. -/
theorem enter_file (src : Source) (args : List ℤ) (hargs : args.length = 1) :
    (Locals.enter src fileParams args).vars "stream" = args.getD 0 0 := by
  obtain ⟨s, rfl⟩ := List.length_eq_one_iff.mp hargs
  rfl

/-- A stream that a directive names is one that the call is about. -/
theorem named_mem {params : List (String × String)} {extra : Option String} {args : List ℤ}
    {s : String} (hs : extra = some s) :
    (Locals.enter src params args).vars s ∈ namedStreams src params extra args := by
  rw [hs]
  exact List.mem_map_of_mem (List.mem_append_right _ (List.mem_singleton.mpr rfl))

/-- The stream that `fclose` and its like get. -/
theorem file_mem (args : List ℤ) :
    (Locals.enter src fileParams args).vars "stream" ∈ namedStreams src fileParams none args :=
  List.mem_map_of_mem (List.mem_append_left _ (by decide))

/-- A function that the generator writes. -/
theorem does_generated (hmalloc : i.malloc = true) (ha : Agree S h M) {f : Function}
    {code : List Macro} (hgen : f.generateTo = .ok code) {args : List ℤ}
    (hargs : args.length = f.params.length) (hlib : (Wrapper.generated f code hgen).InLibrary)
    (hs : ∀ s ∈ namedStreams src f.params f.ferror args, s ∈ S)
    (hM : lifecycle f.name = .reopens ∨ lifecycle f.name = .closes →
      i.answer (.fiuFail f.fiuName) = 0 → M (streamToKey (target f.name args)) = none) :
    Code.Correct (World.ext P i) (fun t w => t.fiuCalled = 0 ∧ In P S h M w)
      (assemble src code (.enter src f.params args)) fun _ _ w => w.Inv P := by
  obtain ⟨hclears, hreduce⟩ := hlib
  obtain ⟨body, hbody, rfl⟩ := generateTo_ok hgen
  refine does_top (does_reduceBody fun l' hl' => does_body hmalloc ha hbody ?_ hclears ?_)
  · intro s hferror
    rcases hreduce with hnone | ⟨hnone, -⟩
    · rw [hl' hnone]
      exact hs _ (named_mem hferror)
    · rw [hferror] at hnone
      cases hnone
  · intro hlife hpasses
    rcases hreduce with hnone | ⟨-, hother⟩
    · rw [hl' hnone, params_map hargs]
      exact hM hlife hpasses
    · rw [hother] at hlife
      simp at hlife

/-- **One call** keeps the invariant, if it leaves no record behind. -/
theorem streamStep_inv {w w' : World} {i : StreamCall} {r : ℤ} (hlib : i.wrapper.InLibrary)
    (hleaves : i.LeavesNoRecord P w) (hw : w.Inv P) (hstep : streamStep P w i = some (r, w')) :
    w'.Inv P := by
  obtain ⟨S, h, M, hIn, ha⟩ := hw
  obtain ⟨src, wrapper, args, tls, answers⟩ := i
  obtain ⟨hmalloc, hleaves⟩ := hleaves
  unfold streamStep at hstep
  split at hstep
  · rename_i hadm
    obtain ⟨hcalled, hfits, hstreams⟩ := hadm
    obtain ⟨x, hx, heq⟩ := Option.map_eq_some_iff.mp hstep
    cases heq
    rw [hIn.streams] at hstreams
    cases wrapper with
    | generated f code hgen =>
      refine does_generated hmalloc ha hgen hfits hlib hstreams ?_ tls w ⟨hcalled, hIn⟩ x hx
      exact fun hlife hpasses => isRecorded_eq_false hIn (hleaves hlife hpasses)
    | variadic v =>
      exact does_variadic hmalloc ha hlib (fun s hs => hstreams _ (named_mem hs)) tls w
        ⟨hcalled, hIn⟩ x hx
    | «open» =>
      exact does_vaMode (fun _ => does_top (does_plain ha (by decide))) tls w ⟨hcalled, hIn⟩ x hx
    | open64 =>
      exact does_vaMode (fun _ => does_top (does_plain ha (by decide))) tls w ⟨hcalled, hIn⟩ x hx
    | ferror => exact does_top (does_ferror hmalloc ha) tls w ⟨hcalled, hIn⟩ x hx
    | fclose =>
      exact does_top (does_fclose hmalloc ha (hstreams _ (file_mem args))) tls w ⟨hcalled, hIn⟩ x hx
    | clearerr => exact does_clearerr hmalloc ha (hstreams _ (file_mem args)) tls w hIn x hx
  · cases hstep

/-- Before the first call the table is empty, and nothing happened. -/
theorem start_inv {streams : Finset ℤ} (haddr : ∀ s ∈ streams, IsAddress s) :
    (World.start streams).Inv P := by
  refine ⟨streams, [], fun _ => none, ⟨rfl, rfl, Or.inl ⟨rfl, rfl, rfl⟩⟩, haddr, fun s _ => ?_⟩
  refine iff_of_false (fun hne => hne rfl) ?_
  rintro ⟨-, before, after, heq, -, -⟩
  exact absurd heq.symm (List.append_ne_nil_of_right_ne_nil before (List.cons_ne_nil _ _))

/-- **What `ferror` says.** The run is any list of calls of the wrappers of the library (`hlib`),
    from no record and with some streams open already, at addresses (`haddr`). Throughout, no record
    is left behind (`hleaves`): allocations succeed, and no generated wrapper goes on to close or
    reopen a stream that is in the table.

    Then a call of `ferror` comes that is not nested and is about an open stream (`hadm`). Its
    allocation and its `dlsym` succeed, it is not made to fail itself (`hpasses`), and libc knows of
    no error of the stream (`horig`). It returns, and what it says is whether an injected failure
    recorded the stream since it was opened, reopened or cleared. -/
theorem ferror_reports_recorded (P : Platform) {streams : Finset ℤ}
    (haddr : ∀ s ∈ streams, IsAddress s) (calls : List StreamCall)
    (hlib : ∀ i ∈ calls, i.wrapper.InLibrary) {results : List ℤ} {w : World}
    (hrun : Machine.run (streamStep P) (World.start streams) calls = some (results, w))
    (hleaves : Machine.Guarded (streamStep P) (fun w i => i.LeavesNoRecord P w)
      (World.start streams) calls)
    {i : StreamCall} (hi : i.wrapper = .ferror) (hadm : i.Admissible w)
    (hmalloc : i.answers.malloc = true) (hdlsym : i.answers.answer (.libcSymbol "ferror") ≠ 0)
    (hpasses : i.answers.answer (.fiuFail "posix/stdio/error/ferror") = 0)
    (horig : i.answers.answer (.orig "ferror" i.args) = 0) :
    ∃ r w', streamStep P w i = some (r, w') ∧
      (r ≠ 0 ↔ Recorded (i.args.getD 0 0) w.history) := by
  obtain ⟨S, h, M, hIn, ha⟩ : w.Inv P := Machine.run_preserves_guarded (J := World.Inv P)
    (fun hw hlib hleaves hstep => streamStep_inv hlib hleaves hw hstep) calls (start_inv haddr) hlib
    hleaves hrun
  obtain ⟨src, wrapper, args, tls, answers⟩ := i
  obtain rfl : wrapper = .ferror := hi
  obtain ⟨hcalled, hfits, hstreams⟩ := hadm
  have hargs : args = [args.getD 0 0] := by
    obtain ⟨s, rfl⟩ := List.length_eq_one_iff.mp hfits
    rfl
  have hvar := enter_file src args hfits
  have hopen := hstreams _ (file_mem args)
  rw [hIn.streams, hvar] at hopen
  obtain ⟨r, hr, -, hiff⟩ := gives_ferror hmalloc hdlsym hpasses tls w ⟨hcalled, hIn⟩
  refine ⟨r.1, r.2.2, ?_, ?_⟩
  · unfold streamStep
    rw [if_pos ⟨hcalled, hfits, hstreams⟩]
    show (Run.exec _ _ w).map _ = _
    rw [show Wrapper.run src .ferror args tls =
      assemble src ferrorMacros (.enter src fileParams args) tls from rfl, hr]
    rfl
  · rw [hvar] at hiff
    rw [hargs] at horig
    rw [hiff horig, ha.recorded _ (ha.address _ hopen), hIn.history]
    exact and_iff_right hopen

/-! ## Two runs

Both record a failure; in the one the stream is asked about, in the other it is closed by a wrapper
that does not know of the record. -/

/-- A function of posix.stdio.mod with `valid errnos` alone. -/
def plainFunction (name fiuName onErr : String) (params : List (String × String))
    (distinct : (params.map Prod.snd).Nodup) : Function where
  retType := ""
  name := name
  params := params
  distinct := distinct
  fiuName := fiuName
  onError := some onErr
  useErrno := true
  validErrnos := ["ENOMEM"]
  ferror := none
  reduce := none
  variants := []

def fopen : Function := plainFunction "fopen" "posix/stdio/oc/fopen" "NULL"
  [("const char *", "pathname"), ("const char *", "mode")] (by decide)

def popen : Function := plainFunction "popen" "posix/stdio/oc/popen" "NULL"
  [("const char *", "command"), ("const char *", "mode")] (by decide)

theorem stream_distinct : ([("FILE *", "stream")].map Prod.snd).Nodup := by decide

def pclose : Function := plainFunction "pclose" "posix/stdio/oc/pclose" "-1"
  [("FILE *", "stream")] stream_distinct

/-- A call in which the original returns `ret`, and in which points of failure fire or not. -/
def someCall (wrapper : Wrapper) (args : List ℤ) (ret fires : ℤ) : StreamCall where
  src := someSource "posix.c"
  wrapper := wrapper
  args := args
  tls := Tls.start
  answers := ⟨fun
    | .fiuFail _ => fires
    | .orig _ _ => ret
    | _ => 1000, fun _ t => t, true⟩

def recordedCalls : List StreamCall :=
  [someCall (.generated fopen _ rfl) [1, 2] 4096 0, someCall fgetcWrapper [4096] 0 1]

/-- `fopen`, a `fgetc` that fails, and `ferror`. -/
theorem ferror_reports_recorded_fgetc : ∃ results w,
    Machine.run (streamStep Platform.ieee) (World.start ∅) recordedCalls = some (results, w) ∧
    ∃ r w', streamStep Platform.ieee w (someCall .ferror [4096] 0 0) = some (r, w') ∧
      (r ≠ 0 ↔ Recorded 4096 w.history) := by
  have hadm : ((Machine.run (streamStep Platform.ieee) (World.start ∅) recordedCalls).map fun r =>
      decide ((someCall .ferror [4096] 0 0).Admissible r.2)) = some true := by
    decide +kernel
  obtain ⟨⟨results, w⟩, hrun, hadm⟩ := Option.map_eq_some_iff.mp hadm
  have hlib : ∀ i ∈ recordedCalls, i.wrapper.InLibrary := by
    intro i hi
    rcases List.mem_cons.mp hi with rfl | hi
    · exact ⟨by decide, Or.inl rfl⟩
    · obtain rfl := List.mem_singleton.mp hi
      exact ⟨by decide, Or.inl rfl⟩
  have hleaves : Machine.Guarded (streamStep Platform.ieee)
      (fun w i => i.LeavesNoRecord Platform.ieee w) (World.start ∅) recordedCalls := by
    decide +kernel
  exact ⟨results, w, hrun, ferror_reports_recorded Platform.ieee (by decide) recordedCalls hlib hrun
    hleaves (i := someCall .ferror [4096] 0 0) rfl (of_decide_eq_true hadm) rfl (by decide) rfl rfl⟩

/-- The stream of a `popen`, on which `fgetc` fails, is closed by `pclose`; the next `fopen` gets the
    same address. -/
def staleCalls : List StreamCall :=
  [someCall (.generated popen _ rfl) [1, 2] 4096 0, someCall fgetcWrapper [4096] 0 1,
    someCall (.generated pclose _ rfl) [4096] 0 0, someCall (.generated fopen _ rfl) [1, 2] 4096 0]

/-- `pclose` leaves the record of its stream behind, and `ferror` reports it for the next one. -/
theorem ferror_reports_stale : ∃ results w, (∀ i ∈ staleCalls, i.wrapper.InLibrary) ∧
    Machine.run (streamStep Platform.ieee) (World.start ∅) staleCalls = some (results, w) ∧
    (someCall .ferror [4096] 0 0).Admissible w ∧ ¬ Recorded 4096 w.history ∧
    ∃ w', streamStep Platform.ieee w (someCall .ferror [4096] 0 0) = some (1, w') := by
  have hall : ((Machine.run (streamStep Platform.ieee) (World.start ∅) staleCalls).bind fun r =>
      (streamStep Platform.ieee r.2 (someCall .ferror [4096] 0 0)).map fun x =>
        (r.2.history, decide ((someCall .ferror [4096] 0 0).Admissible r.2), x.1)) =
      some ([.opened 4096, .injected 4096] ++ [.opened 4096], true, 1) := by
    decide +kernel
  obtain ⟨⟨results, w⟩, hrun, hcall⟩ := Option.bind_eq_some_iff.mp hall
  obtain ⟨⟨r, w'⟩, hstep, heq⟩ := Option.map_eq_some_iff.mp hcall
  obtain ⟨hhistory, hadm, rfl⟩ : w.history = [.opened 4096, .injected 4096] ++ [.opened 4096] ∧
      decide ((someCall .ferror [4096] 0 0).Admissible w) = true ∧ r = 1 := by
    simpa using heq
  refine ⟨results, w, ?_, hrun, of_decide_eq_true hadm, ?_, w', hstep⟩
  · intro i hi
    simp only [staleCalls, List.mem_cons, List.not_mem_nil, or_false] at hi
    rcases hi with rfl | rfl | rfl | rfl
    · exact ⟨by decide, Or.inl rfl⟩
    · exact ⟨by decide, Or.inl rfl⟩
    · exact ⟨by decide, Or.inl rfl⟩
    · exact ⟨by decide, Or.inl rfl⟩
  · -- it was opened after the failure
    rw [hhistory, recorded_append (by simp)]
    exact fun h => h.2.1 rfl

end Posix

end Libfiu
