/-
  Programs that may raise an error.

  What is known of a program that ended without one: each of its parts did (`bind_ok`), an invariant of
  the body of a loop holds behind the loop (`foldlM_ok`), and what a list was mapped to is there because
  of something in the list (`mapM_ok`).

  `Except ε` is the monad of such programs, and loops over a list in it are `List.foldlM` and
  `List.mapM`. Each lemma starts from a result without an error, so that an invariant is carried
  along a program by taking it apart, and the errors need not be looked at.
-/
import Mathlib

namespace Errors

variable {ε α β : Type}

/-- One part after the other. -/
theorem bind_ok {x : Except ε α} {f : α → Except ε β} {b : β} (h : (x >>= f) = .ok b) :
    ∃ a, x = .ok a ∧ f a = .ok b := by
  rcases x with e | a
  · cases h
  · exact ⟨a, rfl, h⟩

/-- **A loop keeps what its body keeps.** By induction on the list, from any value. -/
theorem foldlM_ok {step : β → α → Except ε β} {I : β → Prop}
    (hstep : ∀ s a s', I s → step s a = .ok s' → I s') {xs : List α} :
    ∀ {s s' : β}, I s → xs.foldlM step s = .ok s' → I s' := by
  induction xs with
  | nil =>
    intro s s' hs h
    obtain rfl : s = s' := Except.ok.inj h
    exact hs
  | cons a xs ih =>
    intro s s' hs h
    rw [List.foldlM_cons] at h
    obtain ⟨s₁, hfirst, hrest⟩ := bind_ok h
    exact ih (hstep s a s₁ hs hfirst) hrest

/-- What comes out came from something. -/
theorem mapM_ok {f : α → Except ε β} {xs : List α} :
    ∀ {ys : List β}, xs.mapM f = .ok ys → ∀ y ∈ ys, ∃ x ∈ xs, f x = .ok y := by
  induction xs with
  | nil =>
    intro ys h y hy
    obtain rfl : [] = ys := Except.ok.inj h
    cases hy
  | cons x xs ih =>
    intro ys h y hy
    rw [List.mapM_cons] at h
    obtain ⟨z, hz, h⟩ := bind_ok h
    obtain ⟨zs, hzs, h⟩ := bind_ok h
    obtain rfl : z :: zs = ys := Except.ok.inj h
    rcases List.mem_cons.mp hy with rfl | hy
    · exact ⟨x, List.mem_cons_self .., hz⟩
    · obtain ⟨x', hx', hy⟩ := ih hzs y hy
      exact ⟨x', List.mem_cons_of_mem _ hx', hy⟩

end Errors
