/-
  The recursion counter of the wrappers, `_fiu_called`.

  A wrapper that is entered with the counter at 0 raises it before it makes a foreign call, and then
  whatever is called back finds it above 0 and calls the original at once; on every path the counter
  is lowered again as often as it was raised.

  `Holds c` is the logic of one call that was entered with the counter at `c`: foreign calls are made
  at `c` or above, `fiu_fail` is called only if `c` is 0, and with the counter at 1 (`Guarantee`).
  `wrapper_holds` is that for every wrapper alone; `run_nested` makes it a fact about every tree of
  nested calls.

  The counter belongs to the thread and is shared by all wrappers, so a wrapper cannot know how it
  will find it; all that it can do is to leave it as it was. What a nested call sees is then decided
  by the outermost wrapper alone. Nested calls are nothing rare, since libc itself calls functions
  that are wrapped.
-/
import Libfiu.PosixMacros

namespace Libfiu

namespace Posix

open Calls

/-- What a call that was entered with the counter at `entry` guarantees when it makes a foreign call
    with the counter at `cur`. -/
def Guarantee (entry : ℤ) (op : Ext) (cur : ℤ) : Prop :=
  entry ≤ cur ∧ ∀ name, op = .fiuFail name → entry = 0 ∧ cur = 1

/-- The logic of a call that was entered with the counter at `c`. -/
def Holds {α : Type} (c : ℤ) (P : Tls → Prop) (m : Code α) (Q : α → Tls → Prop) : Prop :=
  Code.Triple (fun e t => Guarantee c e t.fiuCalled) (fun _ t _ t' => t'.fiuCalled = t.fiuCalled)
    P m Q

/-- The counter is at `n`. -/
def At (n : ℤ) (t : Tls) : Prop := t.fiuCalled = n

variable {c n : ℤ} {src : Source} {α β : Type}

/-! ## The pieces

`PosixMacros` does the work; what is to be provided is that the counter is where it should be at
each foreign call. -/

/-- The logic of `Lib/Calls`, with the counter as its state. -/
theorem holds_iff {m : Code α} {P : Tls → Prop} {Q : α → Tls → Prop} :
    Holds c P m Q ↔ Code.Lasting True (fun e t => Guarantee c e t.fiuCalled)
      (fun _ t _ t' => t'.fiuCalled = t.fiuCalled) P m Q := Code.triple_iff_lasting

/-- One after the other. -/
theorem Holds.bind {m : Code α} {f : α → Code β} {P : Tls → Prop} {Q : α → Tls → Prop}
    {Q' : β → Tls → Prop} (hm : Holds c P m Q) (hf : ∀ a, Holds c (Q a) (f a) Q') :
    Holds c P (m >>= f) Q' := Code.Triple.bind hm hf

theorem Holds.pure {a : α} {P : Tls → Prop} {Q : α → Tls → Prop} (h : ∀ t, P t → Q a t) :
    Holds c P (Pure.pure a) Q := Code.Triple.pure.pre h

theorem Holds.done {a : α} {P : Tls → Prop} : Holds c P (Pure.pure a) fun _ => P :=
  Holds.pure fun _ ht => ht

/-- Both branches hold. -/
theorem Holds.ite {p : Prop} [Decidable p] {m m' : Code α} {P : Tls → Prop} {Q : α → Tls → Prop}
    (hm : p → Holds c P m Q) (hm' : ¬ p → Holds c P m' Q) : Holds c P (if p then m else m') Q :=
  Code.Triple.ite hm hm'

theorem Holds.stuck {P : Tls → Prop} {Q : α → Tls → Prop} : Holds c P Code.stuck Q :=
  Code.Triple.stuck

/-- **The counter**, as an invariant of the macros.  Nothing is said of the originals, so the code may
    be undefined. -/
theorem counterLogic (c : ℤ) (src : Source) (name : String) :
    MacroLogic src name c (fun n => c ≤ n) True True (fun e t => Guarantee c e t.fiuCalled)
      (fun _ t _ t' => t'.fiuCalled = t.fiuCalled) (fun _ => At) (fun _ => True) (At c) where
  next hn := le_add_of_le_of_nonneg hn zero_le_one
  first hentry := hentry ▸ zero_le_one
  nested _ := le_refl c
  counted ht := ht
  errno ht := ht
  inc ht := congrArg (· + 1) ht
  dec ht := sub_eq_of_eq_add ht
  known ht _ := ht
  found _ := Or.inl trivial
  body _ := trivial
  ask hn he _ ht := by
    refine ⟨⟨ht.symm ▸ hn, fun name h => ?_⟩, fun r t' ht' => ht'.trans ht⟩
    rw [h] at he
    cases he
  fiuFail hentry ht := by
    refine ⟨⟨?_, fun _ _ => ⟨hentry, ht⟩⟩, fun r t' ht' => ⟨Or.inl trivial, ht'.trans ht⟩⟩
    rw [ht, hentry]
    exact zero_le_one
  outermost _ _ := trivial
  idle _ _ := trivial
  init {n t} hn ht _ _ := by
    refine ⟨⟨?_, fun _ h => by cases h⟩, fun addr t' ht' => ?_⟩
    · show c ≤ t.fiuCalled + 1
      rw [ht]
      exact le_add_of_le_of_nonneg hn zero_le_one
    · show t'.fiuCalled - 1 = n
      rw [ht', ← ht]
      exact add_sub_cancel_right t.fiuCalled 1
  done ht := ht
  busy ht _ := ht

theorem holds_recInc : Holds c (At n) recInc fun _ => At (n + 1) :=
  holds_iff.mpr ((counterLogic c (someSource "") "").lasting_recInc (b := true))

theorem holds_recDec : Holds c (At (n + 1)) recDec fun _ => At n :=
  holds_iff.mpr ((counterLogic c (someSource "") "").lasting_recDec (b := true))

theorem holds_initIfNull (hc : c ≤ n) (name : String) :
    Holds c (At n) (initIfNull src name) fun _ => At n :=
  holds_iff.mpr ((counterLogic c src name).lasting_initIfNull hc fun _ _ => trivial)

theorem holds_callOrig (hc : c ≤ n) (name : String) (args : List ℤ) :
    Holds c (At n) (callOrig src name args) fun _ => At n :=
  holds_iff.mpr ((counterLogic c src name).lasting_callOrig hc args)

theorem holds_clearFerror (hc : c ≤ n) (stream : ℤ) :
    Holds c (At n) (clearFerror stream) fun _ => At n :=
  holds_iff.mpr ((counterLogic c (someSource "") "").lasting_clearFerror (b := true) trivial hc stream)

/-! ## The macros

A macro behind `mkwrap_top` runs with the counter raised, and lowers it where the function ends. -/

/-- Where the code of a macro may leave the counter, in a call that was entered at `c`: above `c` as
    long as the function goes on. -/
def Flow.Counted (c : ℤ) : Flow → Tls → Prop
  | .next _ => At (c + 1)
  | .exit _ => At (c + 1)
  | .ret _ => At c

/-- The macros behind `mkwrap_top`. -/
def Macro.IsBody : Macro → Prop
  | top .. => False
  | _ => True

/-- The code of every macro behind `mkwrap_top`. -/
theorem macro_counted (m : Macro) (hm : m.IsBody) (l : Locals) :
    Holds 0 (At 1) (m.run src l) (Flow.Counted 0) := by
  have hlogic := counterLogic 0 src ""
  have hstep : ∀ flow t, Flow.Steps (fun _ => At) flow t → Flow.Counted 0 flow t := by
    intro flow t h
    cases flow with
    | next l' => exact h
    | exit r => exact h
    | ret r => exact h.elim
  have hend : ∀ flow t, Flow.Ends (fun _ => At) flow t → Flow.Counted 0 flow t := by
    intro flow t h
    cases flow with
    | next l' => exact h.elim
    | exit r => exact h
    | ret r => exact h.elim
  rw [holds_iff]
  cases m with
  | top => exact absurd hm id
  | bottom name paramsn =>
    have hm : (Macro.bottom name paramsn).IsEnd name := rfl
    exact ((counterLogic 0 src name).lasting_end rfl hm l).mono (fun _ h => h) hend
  | ferrorBottom =>
    have hm : Macro.ferrorBottom.IsEnd "ferror" := rfl
    exact ((counterLogic 0 src "ferror").lasting_end rfl hm l).mono (fun _ h => h) hend
  | vaMode =>
    refine Code.Lasting.ite (fun _ => ?_) fun _ => Code.Lasting.pure fun _ ht => ht
    split
    · exact Code.Lasting.pure fun _ ht => ht
    · exact Code.Lasting.stuck fun _ _ => trivial
  | _ =>
    refine Code.Lasting.mono (hlogic.lasting_step rfl ?_ l) (fun _ h => h) hstep
    trivial

/-- Behind `mkwrap_top` the counter is at 1, and a function that gets there was entered at 0. -/
theorem assemble_counted : ∀ (ms : List Macro), (∀ m ∈ ms, m.IsBody) → ∀ l : Locals,
    Holds 0 (At 1) (assemble src ms l) fun _ => At 0
  | [], _, _ => Holds.stuck
  | m :: ms, hms, l => by
    refine (macro_counted m (hms m (List.mem_cons_self ..)) l).bind fun flow => ?_
    cases flow with
    | next l' => exact assemble_counted ms (fun m' hm' => hms m' (List.mem_cons_of_mem m hm')) l'
    | exit r => exact (holds_recDec (n := 0)).bind fun _ => Holds.done
    | ret r => exact Holds.done

/-- A function whose code begins with `mkwrap_top`, from any value of the counter. -/
theorem assemble_top (name : String) (paramsn : List String) (onErr : String) {ms : List Macro}
    (hms : ∀ m ∈ ms, m.IsBody) (l : Locals) :
    Holds c (At c) (assemble src (.top name paramsn onErr :: ms) l) fun _ => At c := by
  refine holds_iff.mpr ((counterLogic c src name).lasting_top paramsn onErr (fun hentry l' => ?_) l)
  subst hentry
  exact holds_iff.mp (assemble_counted ms hms l')

/-- In `open` and `open64` some code stands before `mkwrap_body_called`. -/
theorem assemble_vaMode {ms : List Macro} (l : Locals)
    (hms : ∀ l, Holds c (At c) (assemble src ms l) fun _ => At c) :
    Holds c (At c) (assemble src (.vaMode :: ms) l) fun _ => At c := by
  have hmode : Holds c (At c) (vaMode src l) fun flow t => At c t ∧ ∃ l', flow = .next l' := by
    refine Holds.ite (fun _ => ?_) fun _ => Holds.pure fun _ ht => ⟨ht, _, rfl⟩
    split
    · exact Holds.pure fun _ ht => ⟨ht, _, rfl⟩
    · exact Holds.stuck
  refine Code.Triple.bind hmode fun flow => ?_
  rintro t ⟨ht, l', rfl⟩
  exact hms l' t ht

/-- The macros between are among them. -/
theorem Macro.IsStep.isBody {m : Macro} (h : m.IsStep) : m.IsBody := by
  cases m <;> trivial

/-- What the generator writes: `mkwrap_top`, and no other macro of its kind behind it. -/
theorem generateTo_eq {f : Function} {code : List Macro} (h : f.generateTo = .ok code) :
    ∃ ms, code = .top f.name f.paramsn (f.onError.getD "None") :: ms ∧ ∀ m ∈ ms, m.IsBody := by
  obtain ⟨body, hbody, rfl⟩ := generateTo_ok h
  refine ⟨_, rfl, fun m hm => ?_⟩
  rcases List.mem_append.mp hm with hm | hm
  · exact (reduceBody_isStep f m hm).isBody
  · rcases List.mem_append.mp hm with hm | hm
    · exact (failBody_isStep hbody m hm).isBody
    · rw [List.mem_singleton.mp hm]
      trivial

/-! ## The wrappers

One lemma for each form of a wrapper, and one for all of them. -/

/-- A function with a variable number of arguments. -/
theorem variadic_holds (v : Variadic) (l : Locals) :
    Holds c (At c) (assemble src v.macros l) fun _ => At c := by
  refine assemble_top v.nvname _ v.onErr (fun m hm => ?_) l
  simp only [List.mem_cons, List.not_mem_nil, or_false] at hm
  rcases hm with rfl | rfl | rfl
  · trivial
  · split
    · trivial
    · trivial
  · trivial

/-- `open` and `open64`. -/
theorem open_holds (name : String) (paramsn : List String) (onErr : String) {ms : List Macro}
    (hms : ∀ m ∈ ms, m.IsBody) (l : Locals) :
    Holds c (At c) (assemble src (.vaMode :: .top name paramsn onErr :: ms) l) fun _ => At c :=
  assemble_vaMode l fun l' => assemble_top name paramsn onErr hms l'

/-- `clearerr` raises the counter whatever it is. -/
theorem clearerr_holds (stream : ℤ) : Holds c (At c) (clearerr src stream) fun _ => At c := by
  have hc : c ≤ c + 1 := by omega
  refine holds_recInc.bind fun _ => ?_
  refine (holds_initIfNull hc "clearerr").bind fun _ => ?_
  refine (holds_callOrig hc "clearerr" _).bind fun _ => ?_
  refine (holds_clearFerror hc stream).bind fun _ => ?_
  exact holds_recDec.bind fun _ => Holds.done

/-- **Every wrapper alone** leaves the counter as it was, and calls `fiu_fail` only if it was 0. -/
theorem wrapper_holds (w : Wrapper) (args : List ℤ) :
    Holds c (At c) (w.run src args) fun _ => At c := by
  cases w with
  | generated f code h =>
    obtain ⟨ms, rfl, hms⟩ := generateTo_eq h
    exact assemble_top f.name f.paramsn _ hms _
  | variadic v => exact variadic_holds v _
  | «open» => exact open_holds _ _ _ (by simp [Macro.IsBody, openErrnos]) _
  | open64 => exact open_holds _ _ _ (by simp [Macro.IsBody, openErrnos]) _
  | ferror => exact assemble_top _ _ _ (by simp [Macro.IsBody]) _
  | fclose => exact assemble_top _ _ _ (by simp [Macro.IsBody, writeValidErrnos]) _
  | clearerr => exact clearerr_holds _

/-! ## Nested calls

Foreign code may call wrappers from anywhere, so a thread is a stack of them. The counter grows with
the stack, and a wrapper that decides was entered when it was 0. -/

/-- What foreign code does to the variables of the thread, apart from the wrappers that it calls. -/
structure Foreign where
  errno : ℤ
  failinfo : ℤ

/-- It changes the variables of the thread, but for the counter. -/
def Foreign.alter (d : Foreign) (t : Tls) : Tls := { t with errno := d.errno, failinfo := d.failinfo }

/-- A call of a wrapper: the file in which it is, the wrapper, and its arguments. -/
structure WrapperCall where
  src : Source
  wrapper : Wrapper
  args : List ℤ

/-- The code of the wrapper that is called. -/
def WrapperCall.code (w : WrapperCall) : Code ℤ := w.wrapper.run w.src w.args

/-- One step of a thread that calls wrappers, which call foreign code, which calls wrappers. -/
def threadStep : Stack Ext ℤ Tls ℤ → Act WrapperCall ℤ Foreign →
    Option (Seen Ext ℤ × Stack Ext ℤ Tls ℤ) :=
  Stack.step WrapperCall.code Foreign.alter

/-- Every wrapper of the stack keeps what it guarantees. -/
theorem wrappers_keep :
    Keeps Tls.fiuCalled Guarantee (Steady Tls.fiuCalled) (fun _ _ => True) WrapperCall.code :=
  fun w t => (wrapper_holds w.wrapper w.args t rfl).mono fun _ _ h => ⟨h, trivial⟩

/-- The wrapper waits for `fiu_fail`. -/
def deciding (f : Frame Ext ℤ Tls ℤ) : Bool :=
  match f.op with
  | .fiuFail _ => true
  | _ => false

/-- As the counter only grows towards the top of the stack, no wrapper above one that decides was
    entered with the counter at 0. By induction on the stack. -/
theorem deciding_le_one {base : ℤ} : ∀ {fs : List (Frame Ext ℤ Tls ℤ)} {cur : ℤ},
    Nested Tls.fiuCalled Guarantee (Steady Tls.fiuCalled) (fun _ _ => True) base fs cur →
      (fs.filter deciding).length ≤ 1 ∧ (fs.filter deciding ≠ [] → 1 ≤ cur) := by
  intro fs
  induction fs with
  | nil => exact fun _ => ⟨Nat.zero_le 1, fun h => absurd rfl h⟩
  | cons f fs ih =>
    rintro cur ⟨-, hG, -, hbelow⟩
    obtain ⟨hlen, hpos⟩ := ih hbelow
    by_cases hf : deciding f = true
    · -- it was entered at 0: no wrapper below it decides
      have hname : ∃ name, f.op = .fiuFail name := by
        unfold deciding at hf
        split at hf
        · rename_i name hop
          exact ⟨name, hop⟩
        · cases hf
      obtain ⟨name, hop⟩ := hname
      obtain ⟨hentry, hcur⟩ := hG.2 name hop
      have hnone : fs.filter deciding = [] := by
        by_contra hne
        have := hpos hne
        omega
      rw [List.filter_cons_of_pos hf, hnone]
      exact ⟨le_refl 1, fun _ => by omega⟩
    · rw [List.filter_cons_of_neg hf]
      refine ⟨hlen, fun hne => ?_⟩
      have := hpos hne
      have := hG.1
      omega

/-- **The recursion counter.** In every run of a thread that calls wrappers, nested in any way, as
    foreign calls may enter wrappers in turn:

    * when the outermost call has returned, the counter is what it was on entry;
    * a wrapper that waits for `fiu_fail` was entered with the counter at 0, so it was not called
      from another one;
    * and there is at most one such wrapper at a time. -/
theorem fiu_called_restored (entry : Tls) (acts : List (Act WrapperCall ℤ Foreign))
    {seen : List (Seen Ext ℤ)} {thread : Stack Ext ℤ Tls ℤ}
    (h : Machine.run threadStep ⟨entry, []⟩ acts = some (seen, thread)) :
    (thread.frames = [] → thread.state.fiuCalled = entry.fiuCalled) ∧
    (∀ f ∈ thread.frames, ∀ name, f.op = .fiuFail name → f.entry.fiuCalled = 0) ∧
    (thread.frames.filter deciding).length ≤ 1 := by
  let start : Stack Ext ℤ Tls ℤ := ⟨entry, []⟩
  have hstart : Nested Tls.fiuCalled Guarantee (Steady Tls.fiuCalled) (fun _ _ => True)
      entry.fiuCalled start.frames start.state.fiuCalled := rfl
  have halter : ∀ (e : Ext) (t : Tls) (r : ℤ) (d : Foreign) (t' : Tls), t'.fiuCalled = t.fiuCalled →
      Steady Tls.fiuCalled e t r (d.alter t') := fun _ _ _ _ _ h => h
  have hnested := run_nested wrappers_keep halter acts hstart h
  refine ⟨fun hempty => ?_, fun f hf name hop => ?_, (deciding_le_one hnested).1⟩
  · rw [hempty] at hnested
    exact hnested
  · exact ((hnested.guarantee f hf).2 name hop).1

/-- An injected failure of `fgetc`, in which `fiu_fail` calls `clearerr`: that is resolved first, and
    creates the table. -/
def fgetcActs : List (Act WrapperCall ℤ Foreign) :=
  [.enter ⟨someSource "posix.stdio.c", fgetcWrapper, [4096]⟩,
    .enter ⟨someSource "posix.custom.c", .clearerr, [4096]⟩,
    .back 1000 ⟨0, 0⟩, .back 0 ⟨0, 0⟩, .back 1 ⟨0, 0⟩, .back 0 ⟨0, 0⟩, .back 0 ⟨0, 0⟩,
    .back 1 ⟨0, 0⟩, .back 7 ⟨0, 0⟩, .back 0 ⟨0, 0⟩, .back 0 ⟨0, 0⟩]

theorem fiu_called_restored_fgetc : ∃ seen thread,
    Machine.run threadStep ⟨Tls.start, []⟩ fgetcActs = some (seen, thread) ∧ thread.frames = [] ∧
    (thread.frames = [] → thread.state.fiuCalled = Tls.start.fiuCalled) ∧
    (∀ f ∈ thread.frames, ∀ name, f.op = .fiuFail name → f.entry.fiuCalled = 0) ∧
    (thread.frames.filter deciding).length ≤ 1 :=
  ⟨_, _, rfl, rfl, fiu_called_restored Tls.start fgetcActs rfl⟩

end Posix

end Libfiu
