/-
  Programs that call foreign code, which may call them back before it returns.

  A program is run up to its next foreign call (`Run`): there it hands over what it asks for and the
  state of its thread, and goes on with the answer and with the state that it finds when the call
  returns.  `Code` is the monad of such programs.

  1. **One program** — `Run.Lasts` is what a program guarantees at its foreign calls and at its end,
     and where it may be undefined, when it may rely on something about each call; `Run.Safe` is the
     same with no promise that it is defined.  `Run.Agenda` is the order of the calls of a kind.
     `Run.play` runs it with foreign code that does not call back.

  2. **Programs that are called back** — while a foreign call is under way the thread may enter
     further programs, and those make foreign calls again: the thread has a stack of the programs
     whose foreign call is under way (`Stack`).  A run of `Stack.step` on ANY list of inputs is any
     tree of nested calls, finished or not.

  3. **The rule** — `Keeps`: each program alone, relying on something about each foreign call, leaves
     the level of the state as it found it.  Then all of them together do, whatever is called back
     (`run_nested`): the induction over the tree of calls is done here once.

  A program of this kind is a tree with a branch for each answer, so it is finite on every path, and
  a proof about it follows its syntax: `pure`, `bind`, a call, a branch. What makes the whole
  infinite is that foreign code may call programs again and again.
-/
import Libfiu.Lib.Machine

namespace Calls

/-- A program up to its next foreign call: `ε` are the calls, `ρ` their answers, `σ` the states of
    the thread, `α` the results.  `stuck` is where what the program does is undefined. -/
inductive Run (ε ρ σ α : Type) where
  | done (a : α) (s : σ)
  | stuck
  | call (e : ε) (s : σ) (k : ρ → σ → Run ε ρ σ α)

/-- A program, from the state in which it begins. -/
def Code (ε ρ σ α : Type) : Type := σ → Run ε ρ σ α

variable {ε ρ σ α β ω : Type}

/-- What follows goes on where the program is done. -/
def Run.bind (m : Run ε ρ σ α) (f : α → Code ε ρ σ β) : Run ε ρ σ β :=
  match m with
  | .done a s => f a s
  | .stuck => .stuck
  | .call e s k => .call e s fun r s' => (k r s').bind f

instance : Monad (Code ε ρ σ) where
  pure a := fun s => .done a s
  bind m f := fun s => (m s).bind f

namespace Code

/-- The state of the thread. -/
def get : Code ε ρ σ σ := fun s => .done s s

/-- Change the state of the thread. -/
def modify (f : σ → σ) : Code ε ρ σ Unit := fun s => .done () (f s)

/-- A foreign call. -/
def ask (e : ε) : Code ε ρ σ ρ := fun s => .call e s .done

/-- What the program does is undefined. -/
def stuck : Code ε ρ σ α := fun _ => .stuck

@[simp] theorem pure_apply (a : α) (s : σ) : (pure a : Code ε ρ σ α) s = .done a s := rfl

@[simp] theorem bind_apply (m : Code ε ρ σ α) (f : α → Code ε ρ σ β) (s : σ) :
    (m >>= f) s = (m s).bind f := rfl

@[simp] theorem get_apply (s : σ) : (get : Code ε ρ σ σ) s = .done s s := rfl

@[simp] theorem modify_apply (f : σ → σ) (s : σ) :
    (modify f : Code ε ρ σ Unit) s = .done () (f s) := rfl

@[simp] theorem ask_apply (e : ε) (s : σ) : (ask e : Code ε ρ σ ρ) s = .call e s .done := rfl

@[simp] theorem ite_apply (p : Prop) [Decidable p] (m n : Code ε ρ σ α) (s : σ) :
    (if p then m else n) s = if p then m s else n s := by
  split
  · rfl
  · rfl

end Code

namespace Run

@[simp] theorem bind_done (a : α) (s : σ) (f : α → Code ε ρ σ β) :
    (done a s : Run ε ρ σ α).bind f = f a s := rfl

@[simp] theorem bind_call (e : ε) (s : σ) (k : ρ → σ → Run ε ρ σ α) (f : α → Code ε ρ σ β) :
    (call e s k).bind f = call e s fun r s' => (k r s').bind f := rfl

/-! ## One program

A program is a tree: it ends, or is undefined, or makes a call and goes on for each answer. The
rules are those of a program logic, with a guarantee at each call; two are given, for programs that
may be undefined (`Safe`) and for those that may not (`Lasts`). -/

/-- The program makes its foreign calls as `G` says and ends as `Q` says, if each of them does as `R`
    says, and it is undefined only if `U`. -/
def Lasts (U : Prop) (G : ε → σ → Prop) (R : ε → σ → ρ → σ → Prop) (Q : α → σ → Prop) :
    Run ε ρ σ α → Prop
  | done a s => Q a s
  | stuck => U
  | call e s k => G e s ∧ ∀ r s', R e s r s' → (k r s').Lasts U G R Q

/-- The program makes its foreign calls as `G` says and ends as `Q` says, if each of them does as `R`
    says. -/
def Safe (G : ε → σ → Prop) (R : ε → σ → ρ → σ → Prop) (Q : α → σ → Prop) : Run ε ρ σ α → Prop
  | done a s => Q a s
  | stuck => True
  | call e s k => G e s ∧ ∀ r s', R e s r s' → (k r s').Safe G R Q

variable {U : Prop} {G : ε → σ → Prop} {R : ε → σ → ρ → σ → Prop}

theorem Lasts.mono {Q Q' : α → σ → Prop} (hQ : ∀ a s, Q a s → Q' a s) :
    ∀ {m : Run ε ρ σ α}, m.Lasts U G R Q → m.Lasts U G R Q'
  | done a s, h => hQ a s h
  | stuck, h => h
  | call _ _ _, h => ⟨h.1, fun r s' hr => (h.2 r s' hr).mono hQ⟩

/-- One program after another. -/
theorem Lasts.bind {Q : α → σ → Prop} {Q' : β → σ → Prop} {f : α → Code ε ρ σ β}
    (hf : ∀ a s, Q a s → (f a s).Lasts U G R Q') :
    ∀ {m : Run ε ρ σ α}, m.Lasts U G R Q → (m.bind f).Lasts U G R Q'
  | done a s, h => hf a s h
  | stuck, h => h
  | call _ _ _, h => ⟨h.1, fun r s' hr => (h.2 r s' hr).bind hf⟩

/-- Less is asked of it. -/
theorem Lasts.imp {U' : Prop} {G' : ε → σ → Prop} {Q Q' : α → σ → Prop} (hU : U → U')
    (hG : ∀ e s, G e s → G' e s) (hQ : ∀ a s, Q a s → Q' a s) :
    ∀ {m : Run ε ρ σ α}, m.Lasts U G R Q → m.Lasts U' G' R Q'
  | done a s, h => hQ a s h
  | stuck, h => hU h
  | call e s _, h => ⟨hG e s h.1, fun r s' hr => (h.2 r s' hr).imp hU hG hQ⟩

theorem safe_iff_lasts {Q : α → σ → Prop} :
    ∀ {m : Run ε ρ σ α}, m.Safe G R Q ↔ m.Lasts True G R Q
  | done _ _ => Iff.rfl
  | stuck => Iff.rfl
  | call _ _ _ => and_congr_right fun _ => forall_congr' fun _ => forall_congr' fun _ =>
    imp_congr_right fun _ => safe_iff_lasts

theorem Lasts.safe {Q : α → σ → Prop} {m : Run ε ρ σ α} (h : m.Lasts U G R Q) : m.Safe G R Q :=
  safe_iff_lasts.mpr (h.imp (fun _ => trivial) (fun _ _ hG => hG) fun _ _ hQ => hQ)

/-- The program is never undefined, if its foreign calls do as `R` says. -/
def Goes (R : ε → σ → ρ → σ → Prop) (m : Run ε ρ σ α) : Prop :=
  m.Lasts False (fun _ _ => True) R fun _ _ => True

theorem Lasts.goes {Q : α → σ → Prop} {m : Run ε ρ σ α} (h : m.Lasts False G R Q) : m.Goes R :=
  h.imp id (fun _ _ _ => trivial) fun _ _ _ => trivial

theorem Safe.mono {Q Q' : α → σ → Prop} (hQ : ∀ a s, Q a s → Q' a s) {m : Run ε ρ σ α}
    (h : m.Safe G R Q) : m.Safe G R Q' :=
  safe_iff_lasts.mpr ((safe_iff_lasts.mp h).mono hQ)

/-- One program after another. -/
theorem Safe.bind {Q : α → σ → Prop} {Q' : β → σ → Prop} {f : α → Code ε ρ σ β}
    (hf : ∀ a s, Q a s → (f a s).Safe G R Q') {m : Run ε ρ σ α} (h : m.Safe G R Q) :
    (m.bind f).Safe G R Q' :=
  safe_iff_lasts.mpr ((safe_iff_lasts.mp h).bind fun a s ha => safe_iff_lasts.mp (hf a s ha))

end Run

/-- From a state that meets `P` the program is safe. -/
def Code.Triple (G : ε → σ → Prop) (R : ε → σ → ρ → σ → Prop) (P : σ → Prop) (m : Code ε ρ σ α)
    (Q : α → σ → Prop) : Prop := ∀ s, P s → (m s).Safe G R Q

namespace Code.Triple

variable {G : ε → σ → Prop} {R : ε → σ → ρ → σ → Prop} {P P' : σ → Prop} {Q : α → σ → Prop}

theorem pure {a : α} : Triple G R (Q a) (pure a) Q := fun _ h => h

theorem bind {m : Code ε ρ σ α} {f : α → Code ε ρ σ β} {Q' : β → σ → Prop}
    (hm : Triple G R P m Q) (hf : ∀ a, Triple G R (Q a) (f a) Q') : Triple G R P (m >>= f) Q' :=
  fun s hs => (hm s hs).bind hf

theorem pre {m : Code ε ρ σ α} (hm : Triple G R P m Q) (hP : ∀ s, P' s → P s) :
    Triple G R P' m Q := fun s hs => hm s (hP s hs)

theorem ite {p : Prop} [Decidable p] {m n : Code ε ρ σ α} (hm : p → Triple G R P m Q)
    (hn : ¬ p → Triple G R P n Q) : Triple G R P (if p then m else n) Q := by
  split
  · rename_i hp
    exact hm hp
  · rename_i hp
    exact hn hp

theorem stuck : Triple G R P stuck Q := fun _ _ => trivial

end Code.Triple

/-- From a state that meets `P` the program lasts. -/
def Code.Lasting (U : Prop) (G : ε → σ → Prop) (R : ε → σ → ρ → σ → Prop) (P : σ → Prop)
    (m : Code ε ρ σ α) (Q : α → σ → Prop) : Prop := ∀ s, P s → (m s).Lasts U G R Q

theorem Code.triple_iff_lasting {G : ε → σ → Prop} {R : ε → σ → ρ → σ → Prop} {P : σ → Prop}
    {m : Code ε ρ σ α} {Q : α → σ → Prop} : Triple G R P m Q ↔ Lasting True G R P m Q :=
  forall_congr' fun _ => imp_congr_right fun _ => Run.safe_iff_lasts

namespace Code.Lasting

variable {U : Prop} {G : ε → σ → Prop} {R : ε → σ → ρ → σ → Prop} {P : σ → Prop}
  {Q : α → σ → Prop}

theorem pure {a : α} (h : ∀ s, P s → Q a s) : Lasting U G R P (Pure.pure a) Q := h

theorem done {a : α} : Lasting U G R P (Pure.pure a) fun _ => P := fun _ h => h

theorem bind {m : Code ε ρ σ α} {f : α → Code ε ρ σ β} {Q' : β → σ → Prop}
    (hm : Lasting U G R P m Q) (hf : ∀ a, Lasting U G R (Q a) (f a) Q') :
    Lasting U G R P (m >>= f) Q' := fun s hs => (hm s hs).bind hf

theorem mono {m : Code ε ρ σ α} {P' : σ → Prop} {Q' : α → σ → Prop} (hm : Lasting U G R P m Q)
    (hP : ∀ s, P' s → P s) (hQ : ∀ a s, Q a s → Q' a s) : Lasting U G R P' m Q' :=
  fun s hs => (hm s (hP s hs)).mono hQ

theorem ite {p : Prop} [Decidable p] {m n : Code ε ρ σ α} (hm : p → Lasting U G R P m Q)
    (hn : ¬ p → Lasting U G R P n Q) : Lasting U G R P (if p then m else n) Q := by
  split
  · rename_i hp
    exact hm hp
  · rename_i hp
    exact hn hp

/-- Reading the state. -/
theorem get : Lasting U G R P get fun s s' => s = s' ∧ P s' := fun _ h => ⟨rfl, h⟩

theorem modify {f : σ → σ} {Q : Unit → σ → Prop} (h : ∀ s, P s → Q () (f s)) :
    Lasting U G R P (modify f) Q := h

theorem ask {e : ε} {Q : ρ → σ → Prop} (h : ∀ s, P s → G e s ∧ ∀ r s', R e s r s' → Q r s') :
    Lasting U G R P (ask e) Q := h

theorem stuck (h : ∀ s, P s → U) : Lasting U G R P stuck Q := h

/-- A fact that does not depend on the state. -/
theorem of_and {p : Prop} {m : Code ε ρ σ α} (h : p → Lasting U G R P m Q) :
    Lasting U G R (fun s => p ∧ P s) m Q := fun s hs => h hs.1 s hs.2

end Code.Lasting

/-- The program, in the state `s`, changes the state by its foreign calls only. -/
def Run.Still (s : σ) : Run ε ρ σ α → Prop
  | .done _ s' => s' = s
  | .stuck => True
  | .call _ s' k => s' = s ∧ ∀ r t, (k r t).Still t

theorem Run.Still.bind {f : α → Code ε ρ σ β} (hf : ∀ a s, (f a s).Still s) :
    ∀ {m : Run ε ρ σ α} {s : σ}, m.Still s → (m.bind f).Still s
  | .done a s', s, h => by
    obtain rfl : s' = s := h
    exact hf a s'
  | .stuck, _, _ => trivial
  | .call _ _ _, _, h => ⟨h.1, fun r t => (h.2 r t).bind hf⟩

/-- From every state. -/
def Code.Still (m : Code ε ρ σ α) : Prop := ∀ s, (m s).Still s

namespace Code.Still

theorem pure {a : α} : Still (Pure.pure a : Code ε ρ σ α) := fun _ => rfl

theorem bind {m : Code ε ρ σ α} {f : α → Code ε ρ σ β} (hm : Still m) (hf : ∀ a, Still (f a)) :
    Still (m >>= f) := fun s => (hm s).bind hf

theorem ite {p : Prop} [Decidable p] {m n : Code ε ρ σ α} (hm : Still m) (hn : Still n) :
    Still (if p then m else n) := by
  split
  · exact hm
  · exact hn

theorem ask {e : ε} : Still (Code.ask e : Code ε ρ σ ρ) := fun _ => ⟨rfl, fun _ _ => rfl⟩

end Code.Still

/-! ## An agenda

Which of the labelled calls a program makes, and in which order, whatever is answered. -/

variable {ν : Type}

/-- Of the foreign calls that have a label, the program makes those of the list in this order, whatever
    is answered; where it is done, `Q` holds of the result and of what is left of the list. -/
def Run.Agenda (label : ε → Option ν) (Q : α → List ν → Prop) : Run ε ρ σ α → List ν → Prop
  | .done a _, todo => Q a todo
  | .stuck, _ => True
  | .call e _ k, todo =>
    ∃ rest, todo = (label e).toList ++ rest ∧ ∀ r s, (k r s).Agenda label Q rest

theorem Run.Agenda.bind {label : ε → Option ν} {Q : α → List ν → Prop} {Q' : β → List ν → Prop}
    {f : α → Code ε ρ σ β} (hf : ∀ a s todo, Q a todo → (f a s).Agenda label Q' todo) :
    ∀ {m : Run ε ρ σ α} {todo : List ν}, m.Agenda label Q todo → (m.bind f).Agenda label Q' todo
  | .done a s, todo, h => hf a s todo h
  | .stuck, _, _ => trivial
  | .call _ _ _, _, ⟨rest, htodo, h⟩ => ⟨rest, htodo, fun r s => (h r s).bind hf⟩

/-- From every state. -/
def Code.Agenda (label : ε → Option ν) (todo : List ν) (m : Code ε ρ σ α)
    (Q : α → List ν → Prop) : Prop := ∀ s, (m s).Agenda label Q todo

/-- The program makes no call that has a label. -/
def Code.Silent (label : ε → Option ν) (m : Code ε ρ σ α) : Prop :=
  ∀ todo, Code.Agenda label todo m fun _ rest => rest = todo

namespace Code.Agenda

variable {label : ε → Option ν} {todo : List ν} {Q : α → List ν → Prop}

theorem pure {a : α} (h : Q a todo) : Agenda label todo (Pure.pure a : Code ε ρ σ α) Q := fun _ => h

theorem bind {m : Code ε ρ σ α} {f : α → Code ε ρ σ β} {Q' : β → List ν → Prop}
    (hm : Agenda label todo m Q) (hf : ∀ a rest, Q a rest → Agenda label rest (f a) Q') :
    Agenda label todo (m >>= f) Q' := fun s => (hm s).bind fun a s rest h => hf a rest h s

theorem ite {p : Prop} [Decidable p] {m n : Code ε ρ σ α} (hm : Agenda label todo m Q)
    (hn : Agenda label todo n Q) : Agenda label todo (if p then m else n) Q := by
  split
  · exact hm
  · exact hn

theorem stuck : Agenda label todo (Code.stuck : Code ε ρ σ α) Q := fun _ => trivial

/-- The next call of the list. -/
theorem ask {e : ε} {n : ν} (h : label e = some n) :
    Agenda label (n :: todo) (Code.ask e : Code ε ρ σ ρ) fun _ rest => rest = todo :=
  fun _ => ⟨todo, by rw [h]; rfl, fun _ _ => rfl⟩

end Code.Agenda

namespace Code.Silent

variable {label : ε → Option ν}

theorem pure {a : α} : Silent label (Pure.pure a : Code ε ρ σ α) := fun _ _ => rfl

/-- What has no label does not matter. -/
theorem bind_agenda {m : Code ε ρ σ α} {f : α → Code ε ρ σ β} {Q : β → List ν → Prop} {todo : List ν}
    (hm : Silent label m) (hf : ∀ a, Agenda label todo (f a) Q) : Agenda label todo (m >>= f) Q :=
  (hm todo).bind fun a rest h => by
    rw [h]
    exact hf a

theorem bind {m : Code ε ρ σ α} {f : α → Code ε ρ σ β} (hm : Silent label m)
    (hf : ∀ a, Silent label (f a)) : Silent label (m >>= f) :=
  fun todo => hm.bind_agenda fun a => hf a todo

theorem ite {p : Prop} [Decidable p] {m n : Code ε ρ σ α} (hm : Silent label m)
    (hn : Silent label n) : Silent label (if p then m else n) :=
  fun todo => Agenda.ite (hm todo) (hn todo)

theorem get : Silent label (Code.get : Code ε ρ σ σ) := fun _ _ => rfl

theorem modify {f : σ → σ} : Silent label (Code.modify f : Code ε ρ σ Unit) := fun _ _ => rfl

theorem ask {e : ε} (h : label e = none) : Silent label (Code.ask e : Code ε ρ σ ρ) :=
  fun todo _ => ⟨todo, by rw [h]; rfl, fun _ _ => rfl⟩

theorem stuck : Silent label (Code.stuck : Code ε ρ σ α) := fun _ _ => trivial

end Code.Silent

namespace Run

/-- Run the program, `ext` doing the foreign calls in a world `ω`: the calls in order, with what was
    answered and the state in which it was, and how the program ended, if it did not get stuck. -/
def play (ext : ε → σ → ω → ρ × σ × ω) : Run ε ρ σ α → ω → List (ε × ρ × σ) × Option (α × σ × ω)
  | done a s, w => ([], some (a, s, w))
  | stuck, _ => ([], none)
  | call e s k, w =>
    let answer := ext e s w
    let rest := (k answer.1 answer.2.1).play ext answer.2.2
    ((e, answer.1, answer.2.1) :: rest.1, rest.2)

variable {ext : ε → σ → ω → ρ × σ × ω}

@[simp] theorem play_done (a : α) (s : σ) (w : ω) :
    (done a s : Run ε ρ σ α).play ext w = ([], some (a, s, w)) := rfl

@[simp] theorem play_call (e : ε) (s : σ) (k : ρ → σ → Run ε ρ σ α) (w : ω) :
    (call e s k).play ext w =
      ((e, (ext e s w).1, (ext e s w).2.1) ::
        ((k (ext e s w).1 (ext e s w).2.1).play ext (ext e s w).2.2).1,
        ((k (ext e s w).1 (ext e s w).2.1).play ext (ext e s w).2.2).2) := rfl

/-- Run the program, and then what follows it. By recursion on the first program. -/
theorem play_bind {f : α → Code ε ρ σ β} {out : Option (β × σ × ω)} {c' : List (ε × ρ × σ)} :
    ∀ {m : Run ε ρ σ α} {w w' : ω} {c : List (ε × ρ × σ)} {a : α} {s : σ},
      m.play ext w = (c, some (a, s, w')) → (f a s).play ext w' = (c', out) →
      (m.bind f).play ext w = (c ++ c', out)
  | done a s, w, w', c, b, t, hm, hf => by
    cases hm
    exact hf
  | stuck, w, w', c, b, t, hm, _ => by cases hm
  | call e s k, w, w', c, b, t, hm, hf => by
    rw [play_call] at hm
    obtain ⟨hc, hout⟩ := Prod.mk.inj hm
    have ih := play_bind (m := k (ext e s w).1 (ext e s w).2.1) (Prod.ext rfl hout) hf
    rw [bind_call, play_call, ih, ← hc]
    rfl

/-- The calls that have a label are the first ones of the agenda, and where the program ends, `Q` holds
    of the others. -/
theorem Agenda.play {ν : Type} {label : ε → Option ν} {Q : α → List ν → Prop} :
    ∀ {m : Run ε ρ σ α} {todo : List ν} (w : ω), m.Agenda label Q todo →
      ∃ rest, todo = ((m.play ext w).1.filterMap fun c => label c.1) ++ rest ∧
        ∀ out ∈ (m.play ext w).2, Q out.1 rest
  | done a s, todo, w, h => ⟨todo, rfl, fun out hout => by cases hout; exact h⟩
  | stuck, todo, w, h => ⟨todo, rfl, fun out hout => by cases hout⟩
  | call e s k, todo, w, ⟨rest, htodo, h⟩ => by
    obtain ⟨rest', hrest, hQ⟩ := (h (ext e s w).1 (ext e s w).2.1).play (ext e s w).2.2
    refine ⟨rest', ?_, hQ⟩
    rw [htodo, hrest, play_call]
    cases hlabel : label e <;> simp [hlabel]

/-- The program ends, and `Q` holds of the calls, the result, and the state and the world then. -/
def Ends (ext : ε → σ → ω → ρ × σ × ω) (m : Run ε ρ σ α) (w : ω)
    (Q : List (ε × ρ × σ) → α → σ → ω → Prop) : Prop :=
  ∃ c a s w', m.play ext w = (c, some (a, s, w')) ∧ Q c a s w'

variable {Q Q' : List (ε × ρ × σ) → α → σ → ω → Prop} {w : ω}

theorem Ends.mono {m : Run ε ρ σ α} (h : m.Ends ext w Q) (hQ : ∀ c a s w', Q c a s w' → Q' c a s w') :
    m.Ends ext w Q' := by
  obtain ⟨c, a, s, w', hplay, hQc⟩ := h
  exact ⟨c, a, s, w', hplay, hQ c a s w' hQc⟩

theorem ends_done {a : α} {s : σ} (h : Q [] a s w) : (done a s : Run ε ρ σ α).Ends ext w Q :=
  ⟨[], a, s, w, rfl, h⟩

theorem ends_call {e : ε} {s : σ} {k : ρ → σ → Run ε ρ σ α}
    (h : (k (ext e s w).1 (ext e s w).2.1).Ends ext (ext e s w).2.2 fun c a s' w' =>
      Q ((e, (ext e s w).1, (ext e s w).2.1) :: c) a s' w') : (call e s k).Ends ext w Q := by
  obtain ⟨c, a, s', w', hplay, hQ⟩ := h
  refine ⟨_, a, s', w', ?_, hQ⟩
  rw [play_call, hplay]

theorem ends_ask {e : ε} {s : σ} {Q : List (ε × ρ × σ) → ρ → σ → ω → Prop}
    (h : Q [(e, (ext e s w).1, (ext e s w).2.1)] (ext e s w).1 (ext e s w).2.1 (ext e s w).2.2) :
    (call e s done).Ends ext w Q := ends_call (ends_done h)

theorem Ends.bind {m : Run ε ρ σ α} {f : α → Code ε ρ σ β}
    {Q' : List (ε × ρ × σ) → β → σ → ω → Prop} (hm : m.Ends ext w Q)
    (hf : ∀ c a s w', Q c a s w' → (f a s).Ends ext w' fun c' b s' w'' => Q' (c ++ c') b s' w'') :
    (m.bind f).Ends ext w Q' := by
  obtain ⟨c, a, s, w', hplay, hQ⟩ := hm
  obtain ⟨c', b, s', w'', hplay', hQ'⟩ := hf c a s w' hQ
  exact ⟨c ++ c', b, s', w'', play_bind hplay hplay', hQ'⟩

/-- Run the program, `ext` doing the foreign calls in a world `ω`, as long as it says what they do:
    how the program ends. -/
def exec (ext : ε → σ → ω → Option (ρ × σ × ω)) : Run ε ρ σ α → ω → Option (α × σ × ω)
  | done a s, w => some (a, s, w)
  | stuck, _ => none
  | call e s k, w => (ext e s w).bind fun r => (k r.1 r.2.1).exec ext r.2.2

theorem exec_bind {ext : ε → σ → ω → Option (ρ × σ × ω)} {f : α → Code ε ρ σ β} :
    ∀ {m : Run ε ρ σ α} {w : ω},
      (m.bind f).exec ext w = (m.exec ext w).bind fun r => (f r.1 r.2.1).exec ext r.2.2
  | done _ _, _ => rfl
  | stuck, _ => rfl
  | call e s k, w => by
    rw [bind_call, exec, exec, Option.bind_assoc]
    congr 1
    funext r
    exact exec_bind

end Run

/-- From where `P` holds the program, if it ends, ends where `Q` holds. -/
def Code.Correct (ext : ε → σ → ω → Option (ρ × σ × ω)) (P : σ → ω → Prop) (m : Code ε ρ σ α)
    (Q : α → σ → ω → Prop) : Prop :=
  ∀ s w, P s w → ∀ r ∈ (m s).exec ext w, Q r.1 r.2.1 r.2.2

namespace Code.Correct

variable {ext : ε → σ → ω → Option (ρ × σ × ω)} {P P' : σ → ω → Prop} {Q Q' : α → σ → ω → Prop}

theorem bind {m : Code ε ρ σ α} {f : α → Code ε ρ σ β} {Q' : β → σ → ω → Prop}
    (hm : Correct ext P m Q) (hf : ∀ a, Correct ext (Q a) (f a) Q') : Correct ext P (m >>= f) Q' := by
  intro s w hs r hr
  have hr' : ((m s).bind f).exec ext w = some r := hr
  rw [Run.exec_bind] at hr'
  obtain ⟨r', hr₁, hr₂⟩ := Option.bind_eq_some_iff.mp hr'
  exact hf r'.1 r'.2.1 r'.2.2 (hm s w hs r' hr₁) r hr₂

theorem mono {m : Code ε ρ σ α} (hm : Correct ext P m Q) (hP : ∀ s w, P' s w → P s w)
    (hQ : ∀ a s w, Q a s w → Q' a s w) : Correct ext P' m Q' :=
  fun s w hs r hr => hQ _ _ _ (hm s w (hP s w hs) r hr)

theorem pure {a : α} (h : ∀ s w, P s w → Q a s w) : Correct ext P (Pure.pure a) Q := by
  intro s w hs r hr
  cases hr
  exact h s w hs

theorem ite {p : Prop} [Decidable p] {m n : Code ε ρ σ α} (hm : p → Correct ext P m Q)
    (hn : ¬ p → Correct ext P n Q) : Correct ext P (if p then m else n) Q := by
  split
  · rename_i hp
    exact hm hp
  · rename_i hp
    exact hn hp

theorem get {Q : σ → σ → ω → Prop} (h : ∀ s w, P s w → Q s s w) : Correct ext P Code.get Q := by
  intro s w hs r hr
  cases hr
  exact h s w hs

theorem modify {f : σ → σ} {Q : Unit → σ → ω → Prop} (h : ∀ s w, P s w → Q () (f s) w) :
    Correct ext P (Code.modify f) Q := by
  intro s w hs r hr
  cases hr
  exact h s w hs

theorem ask {e : ε} {Q : ρ → σ → ω → Prop}
    (h : ∀ s w, P s w → ∀ r ∈ ext e s w, Q r.1 r.2.1 r.2.2) : Correct ext P (Code.ask e) Q := by
  intro s w hs r hr
  obtain ⟨r', hr₁, hr₂⟩ := Option.bind_eq_some_iff.mp hr
  cases hr₂
  exact h s w hs r' hr₁

theorem stuck : Correct ext P Code.stuck Q := by
  intro s w _ r hr
  cases hr

end Code.Correct

/-- From where `P` holds the program ends, and it ends where `Q` holds. -/
def Code.Returns (ext : ε → σ → ω → Option (ρ × σ × ω)) (P : σ → ω → Prop) (m : Code ε ρ σ α)
    (Q : α → σ → ω → Prop) : Prop :=
  ∀ s w, P s w → ∃ r, (m s).exec ext w = some r ∧ Q r.1 r.2.1 r.2.2

namespace Code.Returns

variable {ext : ε → σ → ω → Option (ρ × σ × ω)} {P P' : σ → ω → Prop} {Q Q' : α → σ → ω → Prop}

theorem correct {m : Code ε ρ σ α} (h : Returns ext P m Q) : Correct ext P m Q := by
  intro s w hs r hr
  obtain ⟨r', hr', hQ⟩ := h s w hs
  cases hr.symm.trans hr'
  exact hQ

theorem bind {m : Code ε ρ σ α} {f : α → Code ε ρ σ β} {Q' : β → σ → ω → Prop}
    (hm : Returns ext P m Q) (hf : ∀ a, Returns ext (Q a) (f a) Q') : Returns ext P (m >>= f) Q' := by
  intro s w hs
  obtain ⟨r, hr, hQ⟩ := hm s w hs
  obtain ⟨r', hr', hQ'⟩ := hf r.1 r.2.1 r.2.2 hQ
  refine ⟨r', ?_, hQ'⟩
  show ((m s).bind f).exec ext w = some r'
  rw [Run.exec_bind, hr]
  exact hr'

theorem mono {m : Code ε ρ σ α} (hm : Returns ext P m Q) (hP : ∀ s w, P' s w → P s w)
    (hQ : ∀ a s w, Q a s w → Q' a s w) : Returns ext P' m Q' := by
  intro s w hs
  obtain ⟨r, hr, h⟩ := hm s w (hP s w hs)
  exact ⟨r, hr, hQ _ _ _ h⟩

theorem pure {a : α} (h : ∀ s w, P s w → Q a s w) : Returns ext P (Pure.pure a) Q :=
  fun s w hs => ⟨(a, s, w), rfl, h s w hs⟩

theorem ite {p : Prop} [Decidable p] {m n : Code ε ρ σ α} (hm : p → Returns ext P m Q)
    (hn : ¬ p → Returns ext P n Q) : Returns ext P (if p then m else n) Q := by
  split
  · rename_i hp
    exact hm hp
  · rename_i hp
    exact hn hp

theorem modify {f : σ → σ} {Q : Unit → σ → ω → Prop} (h : ∀ s w, P s w → Q () (f s) w) :
    Returns ext P (Code.modify f) Q := fun s w hs => ⟨((), f s, w), rfl, h s w hs⟩

theorem ask {e : ε} {Q : ρ → σ → ω → Prop}
    (h : ∀ s w, P s w → ∃ r, ext e s w = some r ∧ Q r.1 r.2.1 r.2.2) :
    Returns ext P (Code.ask e) Q := by
  intro s w hs
  obtain ⟨r, hr, hQ⟩ := h s w hs
  refine ⟨r, ?_, hQ⟩
  show (ext e s w).bind _ = some r
  rw [hr]
  rfl

end Code.Returns

/-! ## Programs that are called back

A foreign call may run programs of the same kind, which make foreign calls in turn. A thread is then
a stack of programs, each at a call that has not answered. -/

/-- A program whose foreign call `op` is under way: the state in which it was entered, the one in
    which it made the call, and how it goes on. -/
structure Frame (ε ρ σ α : Type) where
  entry : σ
  op : ε
  at_ : σ
  resume : ρ → σ → Run ε ρ σ α

/-- A thread: its state, and the foreign calls that are under way, the last one first. -/
structure Stack (ε ρ σ α : Type) where
  state : σ
  frames : List (Frame ε ρ σ α)

/-- What the code at the top of the stack does next, the program's own caller if the stack is
    empty: it calls one of the programs `π`, or it returns, with an answer and a change `δ` to the
    state. -/
inductive Act (π ρ δ : Type) where
  | enter (p : π)
  | back (r : ρ) (d : δ)

/-- What one sees of a step: a foreign call, or a program that ends. -/
inductive Seen (ε α : Type) where
  | calls (e : ε)
  | returns (a : α)

variable {π δ : Type}

/-- A program that was entered in the state `entry` and now runs `m`, on top of `frames`. -/
def Stack.settle (entry : σ) (frames : List (Frame ε ρ σ α)) :
    Run ε ρ σ α → Option (Seen ε α × Stack ε ρ σ α)
  | .done a s => some (.returns a, ⟨s, frames⟩)
  | .stuck => none
  | .call e s k => some (.calls e, ⟨s, ⟨entry, e, s, k⟩ :: frames⟩)

/-- One step of the thread: `prog` are the programs, `alter` what foreign code does to the state. -/
def Stack.step (prog : π → Code ε ρ σ α) (alter : δ → σ → σ) (c : Stack ε ρ σ α) :
    Act π ρ δ → Option (Seen ε α × Stack ε ρ σ α)
  | .enter p => Stack.settle c.state c.frames (prog p c.state)
  | .back r d =>
    match c.frames with
    | [] => none
    | f :: frames => Stack.settle f.entry frames (f.resume r (alter d c.state))

/-- Programs that change the state by their foreign calls only. -/
theorem settle_still {entry s : σ} {frames : List (Frame ε ρ σ α)} {m : Run ε ρ σ α} {o : Seen ε α}
    {c : Stack ε ρ σ α} (hm : m.Still s) (hbelow : ∀ f ∈ frames, ∀ r t, (f.resume r t).Still t)
    (h : Stack.settle entry frames m = some (o, c)) :
    c.state = s ∧ ∀ f ∈ c.frames, ∀ r t, (f.resume r t).Still t := by
  cases m with
  | done a s' =>
    cases h
    exact ⟨hm, hbelow⟩
  | stuck => cases h
  | call e s' k =>
    cases h
    refine ⟨hm.1, fun f hf => ?_⟩
    rcases List.mem_cons.mp hf with rfl | hf
    · exact hm.2
    · exact hbelow f hf

/-- Programs that are never undefined: the thread goes on, with programs of that kind. -/
theorem settle_goes {R : ε → σ → ρ → σ → Prop} (entry : σ) {frames : List (Frame ε ρ σ α)}
    {m : Run ε ρ σ α} (hm : m.Goes R)
    (hbelow : ∀ f ∈ frames, ∀ r s, R f.op f.at_ r s → (f.resume r s).Goes R) :
    ∃ o c, Stack.settle entry frames m = some (o, c) ∧
      ∀ f ∈ c.frames, ∀ r s, R f.op f.at_ r s → (f.resume r s).Goes R := by
  cases m with
  | done a s => exact ⟨_, _, rfl, hbelow⟩
  | stuck => exact hm.elim
  | call e s k =>
    refine ⟨_, _, rfl, fun f hf => ?_⟩
    rcases List.mem_cons.mp hf with rfl | hf
    · exact hm.2
    · exact hbelow f hf

/-- The foreign call at the top of the stack `c` answers, and the thread goes on to `c'`. -/
def Stack.Answered (c' c : Stack ε ρ σ α) : Prop :=
  ∃ f fs r s o, c.frames = f :: fs ∧ Stack.settle f.entry fs (f.resume r s) = some (o, c')

/-- **A thread does not go on for ever on answers alone.**  The induction is on the stack, and for the
    program at its top on the tree of what it does on all answers. -/
theorem answered_wellFounded : WellFounded (Stack.Answered (ε := ε) (ρ := ρ) (σ := σ) (α := α)) := by
  have hframes : ∀ (fs : List (Frame ε ρ σ α)) (s : σ), Acc Stack.Answered (⟨s, fs⟩ : Stack ε ρ σ α) := by
    intro fs
    induction fs with
    | nil =>
      intro s
      refine Acc.intro _ ?_
      rintro c' ⟨f, fs, r, s', o, hf, -⟩
      cases hf
    | cons f fs ih =>
      have hrun : ∀ (m : Run ε ρ σ α) (entry : σ) (o : Seen ε α) (c' : Stack ε ρ σ α),
          Stack.settle entry fs m = some (o, c') → Acc Stack.Answered c' := by
        intro m
        induction m with
        | done a s =>
          intro entry o c' h
          cases h
          exact ih s
        | stuck =>
          intro entry o c' h
          cases h
        | call e s k ihk =>
          intro entry o c' h
          cases h
          refine Acc.intro _ ?_
          rintro c'' ⟨g, gs, r, s', o', hg, hsettle⟩
          cases hg
          exact ihk r s' entry o' c'' hsettle
      intro s
      refine Acc.intro _ ?_
      rintro c' ⟨g, gs, r, s', o, hg, hsettle⟩
      cases hg
      exact hrun (f.resume r s') f.entry o c' hsettle
  exact ⟨fun c => hframes c.frames c.state⟩

/-! ## The rule

What every program keeps on its own, the whole stack keeps: the level at which a frame was entered
is the one at which the frame below it waits. -/

variable {κ : Type} (level : σ → κ) (G : κ → ε → κ → Prop) (R : ε → σ → ρ → σ → Prop)
  (Q : κ → α → Prop)

/-- Foreign calls that leave the level as it is. -/
def Steady : ε → σ → ρ → σ → Prop := fun _ s _ s' => level s' = level s

/-- A program that was entered at level `c` guarantees `G` and ends at level `c`, with a result that
    meets `Q`, if its foreign calls do as `R` says. -/
def Run.Level (c : κ) (m : Run ε ρ σ α) : Prop :=
  m.Safe (fun e s => G c e (level s)) R (fun a s => level s = c ∧ Q c a)

/-- Every program alone keeps the level. -/
def Keeps (prog : π → Code ε ρ σ α) : Prop := ∀ p s, (prog p s).Level level G R Q (level s)

/-- The stack is at the level `cur`, every frame at the level at which the next one was entered, the
    last one on top of `base`. -/
def Nested (base : κ) : List (Frame ε ρ σ α) → κ → Prop
  | [], cur => cur = base
  | f :: fs, cur => level f.at_ = cur ∧ G (level f.entry) f.op cur ∧
    (∀ r s, R f.op f.at_ r s → (f.resume r s).Level level G R Q (level f.entry)) ∧
    Nested base fs (level f.entry)

variable {level} {G} {R} {Q} {base : κ}

/-- A program that ends keeps the level, and its result meets `Q`; and if it makes a foreign call,
    then the stack is nested again. -/
theorem nested_settle {entry : σ} {frames : List (Frame ε ρ σ α)} {m : Run ε ρ σ α}
    {o : Seen ε α} {c : Stack ε ρ σ α} (hm : m.Level level G R Q (level entry))
    (hbelow : Nested level G R Q base frames (level entry))
    (h : Stack.settle entry frames m = some (o, c)) :
    Nested level G R Q base c.frames (level c.state) ∧
      ∀ a, o = .returns a → level c.state = level entry ∧ Q (level entry) a := by
  cases m with
  | done a s =>
    cases h
    obtain ⟨hend, hQ⟩ : level s = level entry ∧ Q (level entry) a := hm
    refine ⟨?_, fun b hb => ?_⟩
    · show Nested level G R Q base frames (level s)
      rwa [hend]
    · cases hb
      exact ⟨hend, hQ⟩
  | stuck => cases h
  | call e s k =>
    cases h
    obtain ⟨hG, hk⟩ := hm
    exact ⟨⟨rfl, hG, hk, hbelow⟩, fun b hb => by cases hb⟩

/-- One step, also when it is a program that is called back. -/
theorem nested_step {prog : π → Code ε ρ σ α} {alter : δ → σ → σ} (hprog : Keeps level G R Q prog)
    (halter : ∀ e s r d s', level s' = level s → R e s r (alter d s')) {c c' : Stack ε ρ σ α}
    {i : Act π ρ δ} {o : Seen ε α} (hc : Nested level G R Q base c.frames (level c.state))
    (h : c.step prog alter i = some (o, c')) :
    Nested level G R Q base c'.frames (level c'.state) := by
  cases i with
  | enter p => exact (nested_settle (hprog p c.state) hc h).1
  | back r d =>
    unfold Stack.step at h
    obtain ⟨s, frames⟩ := c
    cases frames with
    | nil => cases h
    | cons f fs =>
      obtain ⟨hat, -, hresume, hbelow⟩ := hc
      exact (nested_settle (hresume r _ (halter _ _ _ d s hat.symm)) hbelow h).1

/-- **Every tree of nested calls** keeps the level. -/
theorem run_nested {prog : π → Code ε ρ σ α} {alter : δ → σ → σ} (hprog : Keeps level G R Q prog)
    (halter : ∀ e s r d s', level s' = level s → R e s r (alter d s')) (is : List (Act π ρ δ))
    {c c' : Stack ε ρ σ α} {os : List (Seen ε α)}
    (hc : Nested level G R Q base c.frames (level c.state))
    (h : Machine.run (Stack.step prog alter) c is = some (os, c')) :
    Nested level G R Q base c'.frames (level c'.state) :=
  Machine.run_preserves
    (J := fun c : Stack ε ρ σ α => Nested level G R Q base c.frames (level c.state))
    (fun hc h => nested_step hprog halter hc h) is hc h

/-- In a nested stack every frame guarantees what it has to. -/
theorem Nested.guarantee : ∀ {fs : List (Frame ε ρ σ α)} {cur : κ}, Nested level G R Q base fs cur →
    ∀ f ∈ fs, G (level f.entry) f.op (level f.at_)
  | f :: fs, cur, h, g, hg => by
    obtain ⟨hat, hG, -, hbelow⟩ := h
    rcases List.mem_cons.mp hg with rfl | hg
    · rw [hat]
      exact hG
    · exact hbelow.guarantee g hg

end Calls
