/-
  Objects whose operations are atomic, and threads that implement one.

  The ATOMIC OBJECT of a sequential specification `spec` has clients that call an operation, wait, and
  get its result.  Somewhere in between, at one moment, the operation takes effect on the state of the
  object as `spec` says.  What its clients see in some run of it (`Runs`) is what a linearisable
  implementation may show: the moments are the linearisation points, and as each lies between the call
  and the return of its operation, an operation that returns before another one is called takes effect
  before that.

  Threads implement the object if each of their steps can be answered by moves of the object's client
  that show the same (`Simulates`).  As with `Threads.Invariant` there is an assertion `I`, about
  the shared state and the state of the object, and one `J i` about each thread, and a step has to
  keep the assertions of the other threads.  Then every run of the threads is answered by a run of the
  object (`Simulates.run`).

  Nothing is asked of an operation but that it is a relation, so an object may leave results open,
  and may refuse an operation in some states by having no result. A client that has called and not
  returned yet may or may not have taken effect; that is all the freedom that a history leaves.
-/
import Libfiu.Lib.Threads

namespace Atomic

variable {τ ζ κ ρ : Type*}

/-- What a client does that can be seen. -/
inductive Act (κ ρ : Type*) where
  | call (c : κ)
  | ret (r : ρ)
  deriving DecidableEq

/-- Where a client is: it may have called an operation, whose effect is still to come or not. -/
inductive Phase (κ ρ : Type*) where
  | idle
  | called (c : κ)
  | done (r : ρ)

/-- The moves of a client, and what is seen of them. -/
inductive Moves (spec : ζ → κ → ρ → ζ → Prop) :
    ζ → Phase κ ρ → List (Act κ ρ) → ζ → Phase κ ρ → Prop
  | refl (z : ζ) (φ : Phase κ ρ) : Moves spec z φ [] z φ
  | call {z z' : ζ} {φ : Phase κ ρ} {acts : List (Act κ ρ)} (c : κ)
      (hrest : Moves spec z (.called c) acts z' φ) : Moves spec z .idle (.call c :: acts) z' φ
  | effect {z z₁ z' : ζ} {φ : Phase κ ρ} {acts : List (Act κ ρ)} {c : κ} {r : ρ}
      (h : spec z c r z₁) (hrest : Moves spec z₁ (.done r) acts z' φ) :
      Moves spec z (.called c) acts z' φ
  | ret {z z' : ζ} {φ : Phase κ ρ} {acts : List (Act κ ρ)} (r : ρ)
      (hrest : Moves spec z .idle acts z' φ) : Moves spec z (.done r) (.ret r :: acts) z' φ

/-- The runs of the object, from its state and those of its clients, and what is seen of them. -/
inductive Runs [DecidableEq τ] (spec : ζ → κ → ρ → ζ → Prop) :
    ζ → (τ → Phase κ ρ) → List (τ × Act κ ρ) → ζ → (τ → Phase κ ρ) → Prop
  | refl (z : ζ) (f : τ → Phase κ ρ) : Runs spec z f [] z f
  | turn {z z₁ z' : ζ} {f f' : τ → Phase κ ρ} {acts : List (Act κ ρ)} {acts' : List (τ × Act κ ρ)}
      (i : τ) {φ : Phase κ ρ} (hmoves : Moves spec z (f i) acts z₁ φ)
      (hrest : Runs spec z₁ (Function.update f i φ) acts' z' f') :
      Runs spec z f (acts.map (fun a => (i, a)) ++ acts') z' f'

/-! ## Objects that implement one another

Where each operation of an object can be done by another one with the same answer, so can its runs;
the states need not be the same. -/

section refinement

variable {ζ' : Type*} {spec : ζ → κ → ρ → ζ → Prop} {spec' : ζ' → κ → ρ → ζ' → Prop}
  {R : ζ → ζ' → Prop} {p : κ → Prop}

/-- The operation that a client has called, if it has, meets `p`. -/
def Phase.Calls (p : κ → Prop) (φ : Phase κ ρ) : Prop := ∀ c, φ = .called c → p c

/-- Moves of a client of one object are moves of a client of the other one, which shows the same. -/
theorem Moves.refine (hspec : ∀ {z z₁ : ζ} {y : ζ'} {c : κ} {r : ρ}, R z y → p c → spec z c r z₁ →
      ∃ y₁, spec' y c r y₁ ∧ R z₁ y₁) {z z₁ : ζ} {φ φ₁ : Phase κ ρ} {acts : List (Act κ ρ)}
    (h : Moves spec z φ acts z₁ φ₁) {y : ζ'} (hR : R z y) (hφ : φ.Calls p)
    (hacts : ∀ c, .call c ∈ acts → p c) :
    ∃ y₁, Moves spec' y φ acts y₁ φ₁ ∧ R z₁ y₁ ∧ φ₁.Calls p := by
  induction h generalizing y with
  | refl z φ => exact ⟨y, .refl y φ, hR, hφ⟩
  | call c hrest ih =>
    obtain ⟨y₁, hmoves, hR₁, hφ₁⟩ := ih hR
      (fun c' he => by cases he; exact hacts c (List.mem_cons_self ..))
      fun c' hc => hacts c' (List.mem_cons_of_mem _ hc)
    exact ⟨y₁, .call c hmoves, hR₁, hφ₁⟩
  | effect hop hrest ih =>
    obtain ⟨y₂, hop', hR₂⟩ := hspec hR (hφ _ rfl) hop
    obtain ⟨y₁, hmoves, hR₁, hφ₁⟩ := ih hR₂ (fun c he => by cases he) hacts
    exact ⟨y₁, .effect hop' hmoves, hR₁, hφ₁⟩
  | ret r hrest ih =>
    obtain ⟨y₁, hmoves, hR₁, hφ₁⟩ := ih hR (fun c he => by cases he)
      fun c hc => hacts c (List.mem_cons_of_mem _ hc)
    exact ⟨y₁, .ret r hmoves, hR₁, hφ₁⟩

/-- **Runs of one object are runs of another one**, if each operation that meets `p` does in the second
    what it does in the first. -/
theorem Runs.refine [DecidableEq τ] (hspec : ∀ {z z₁ : ζ} {y : ζ'} {c : κ} {r : ρ}, R z y → p c →
      spec z c r z₁ → ∃ y₁, spec' y c r y₁ ∧ R z₁ y₁) {z z₁ : ζ} {f f₁ : τ → Phase κ ρ}
    {acts : List (τ × Act κ ρ)} (h : Runs spec z f acts z₁ f₁) {y : ζ'} (hR : R z y)
    (hf : ∀ i, (f i).Calls p) (hacts : ∀ i c, (i, .call c) ∈ acts → p c) :
    ∃ y₁, Runs spec' y f acts y₁ f₁ ∧ R z₁ y₁ := by
  induction h generalizing y with
  | refl z f => exact ⟨y, .refl y f, hR⟩
  | @turn z z₂ z₁ f f₁ acts acts' i φ hmoves hrest ih =>
    obtain ⟨y₂, hmoves', hR₂, hφ⟩ := hmoves.refine hspec hR (hf i) fun c hc =>
      hacts i c (List.mem_append_left _ (List.mem_map.mpr ⟨_, hc, rfl⟩))
    have hf' : ∀ j, (Function.update f i φ j).Calls p := by
      intro j
      by_cases hj : j = i
      · subst hj
        rw [Function.update_self]
        exact hφ
      · rw [Function.update_of_ne hj]
        exact hf j
    obtain ⟨y₁, hruns, hR₁⟩ := ih hR₂ hf' fun j c hc => hacts j c (List.mem_append_right _ hc)
    exact ⟨y₁, .turn i hmoves' hruns, hR₁⟩

end refinement

/-! ## Threads that implement it

A forward simulation, thread by thread: each step is answered by moves of the client of that thread.
-/

section simulation

open Threads

variable [DecidableEq τ] {σ ℓ ι ο : Type*}

/-- What is seen of a run of threads, if `see` tells what is seen of a step. -/
def seenOf (see : ι → ο → List (Act κ ρ)) (is : List (τ × ι)) (os : List (τ × ο)) : List (τ × Act κ ρ) :=
  (is.zip os).flatMap fun step => (see step.1.2 step.2.2).map fun a => (step.1.1, a)

/-- Each step of a thread that meets `Q` is answered by moves of the client that show the same, and the
    assertions are kept: its own, and those of the other threads.  `h` is the history. -/
def Simulates (act : τ → ι → σ → ℓ → Option (ο × σ × ℓ)) (spec : ζ → κ → ρ → ζ → Prop)
    (see : ι → ο → List (Act κ ρ)) (Q : τ → ι → σ → ℓ → Prop) (I : List (τ × ο) → σ → ζ → Prop)
    (J : τ → List (τ × ο) → σ → ζ → ℓ → Phase κ ρ → Prop) : Prop :=
  ∀ {h : List (τ × ο)} {i : τ} {a : ι} {s s' : σ} {l l' : ℓ} {o : ο} {z : ζ} {φ : Phase κ ρ},
    I h s z → J i h s z l φ → Q i a s l → act i a s l = some (o, s', l') →
    ∃ z' φ', Moves spec z φ (see a o) z' φ' ∧ I (h ++ [(i, o)]) s' z' ∧
      J i (h ++ [(i, o)]) s' z' l' φ' ∧
      ∀ (j : τ) (m : ℓ) (ψ : Phase κ ρ), i ≠ j → J j h s z m ψ → J j (h ++ [(i, o)]) s' z' m ψ

/-- **Every run** of the threads shows what a run of the object shows. -/
theorem Simulates.run {act : τ → ι → σ → ℓ → Option (ο × σ × ℓ)} {spec : ζ → κ → ρ → ζ → Prop}
    {see : ι → ο → List (Act κ ρ)} {Q : τ → ι → σ → ℓ → Prop} {I : List (τ × ο) → σ → ζ → Prop}
    {J : τ → List (τ × ο) → σ → ζ → ℓ → Phase κ ρ → Prop} (hsim : Simulates act spec see Q I J) :
    ∀ (is : List (τ × ι)) (h : List (τ × ο)) {c c' : Config τ σ ℓ} {os : List (τ × ο)} {z : ζ}
      {f : τ → Phase κ ρ}, I h c.shared z → (∀ i, J i h c.shared z (c.locals i) (f i)) →
      Guarded act Q c is → Threads.run act c is = some (os, c') →
      ∃ z' f', Runs spec z f (seenOf see is os) z' f' ∧ I (h ++ os) c'.shared z' ∧
        ∀ i, J i (h ++ os) c'.shared z' (c'.locals i) (f' i) := by
  intro is
  induction is with
  | nil =>
    intro h c c' os z f hI hJ _ hrun
    cases hrun
    rw [List.append_nil]
    exact ⟨z, f, .refl z f, hI, hJ⟩
  | cons i is ih =>
    intro h c c' os z f hI hJ hQ hrun
    obtain ⟨e, c₁, os₁, hstep, hrest, rfl⟩ := Machine.run_cons_eq_some hrun
    obtain ⟨hQi, hQrest⟩ := (Machine.guarded_cons hstep is).mp hQ
    obtain ⟨o, s, l, hact, rfl, rfl⟩ := step_eq_some hstep
    obtain ⟨z₁, φ, hmoves, hI', hJi, hothers⟩ := hsim hI (hJ i.1) hQi hact
    have hJ' : ∀ j, J j (h ++ [(i.1, o)]) s z₁ (Function.update c.locals i.1 l j)
        (Function.update f i.1 φ j) := by
      intro j
      by_cases hj : j = i.1
      · subst hj
        rw [Function.update_self, Function.update_self]
        exact hJi
      · rw [Function.update_of_ne hj, Function.update_of_ne hj]
        exact hothers j _ _ (Ne.symm hj) (hJ j)
    obtain ⟨z', f', hruns, hI₂, hJ₂⟩ := ih (h ++ [(i.1, o)]) hI' hJ' hQrest hrest
    rw [List.append_assoc] at hI₂
    simp only [List.append_assoc] at hJ₂
    exact ⟨z', f', .turn i.1 hmoves hruns, hI₂, hJ₂⟩

end simulation

end Atomic
