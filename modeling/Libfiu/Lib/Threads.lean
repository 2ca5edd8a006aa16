/-
  Threads that share a state, interleaved in any order.

  A thread `i` in a local state acts on the shared state by `act i`, which also takes an input: what
  the program leaves open in that step (what a caller asks for, what foreign code answers).  `none`
  means that the step cannot be taken: the thread waits for a lock, the input does not fit, or what
  the program would do is undefined.  One step of one thread is a step of a `Machine` (`step`), whose
  inputs say whose turn it is; so a run on ANY list of inputs is any interleaving, and its outputs
  are the history of what happened.

  1. **The rule** — `Invariant`: an assertion `I` about the shared state and one `J i` about each
     thread, all with the history as a further argument, so that no auxiliary variables are put
     into the program.  Two things are to be shown of one step: it keeps `I` and the assertion of
     its own thread, and it does not interfere with the assertion of another thread.  Then all
     of them hold after every run (`Invariant.run`).

  2. **Coming to rest** — `Settles`: threads that always leave less to be done come to an end in any
     interleaving (`Settles.no_infinite_run`).

  3. **Alone** — `Leads`: what one thread does while no other one has the turn is a run too.

  4. **Read-write locks** — `RwLock`: whoever holds it for writing holds it alone.

  Assertions may speak of the history of a run, which is why no thread needs a variable that only a
  proof would look at. The interference of one thread with another is one premiss for all pairs of
  them; a program discharges it by saying once what a step of a thread leaves alone.
-/
import Libfiu.Lib.Machine

namespace Threads

variable {τ σ ℓ ι ο : Type*} [DecidableEq τ]

/-- The shared state, and the local state of each thread. -/
structure Config (τ σ ℓ : Type*) where
  shared : σ
  locals : τ → ℓ

/-- One step of the thread that the input names; the output is that thread's. -/
def step (act : τ → ι → σ → ℓ → Option (ο × σ × ℓ)) (c : Config τ σ ℓ) (i : τ × ι) :
    Option ((τ × ο) × Config τ σ ℓ) :=
  (act i.1 i.2 c.shared (c.locals i.1)).map fun r =>
    ((i.1, r.1), { shared := r.2.1, locals := Function.update c.locals i.1 r.2.2 })

theorem step_eq_some {act : τ → ι → σ → ℓ → Option (ο × σ × ℓ)} {c c' : Config τ σ ℓ} {i : τ × ι}
    {e : τ × ο} (h : step act c i = some (e, c')) :
    ∃ o s l, act i.1 i.2 c.shared (c.locals i.1) = some (o, s, l) ∧ e = (i.1, o) ∧
      c' = { shared := s, locals := Function.update c.locals i.1 l } := by
  obtain ⟨⟨o, s, l⟩, hact, he⟩ := Option.map_eq_some_iff.mp h
  cases he
  exact ⟨o, s, l, hact, rfl, rfl⟩

/-- The run of the threads on a list of inputs: whose turn it is, and what is left open. -/
def run (act : τ → ι → σ → ℓ → Option (ο × σ × ℓ)) (c : Config τ σ ℓ) (is : List (τ × ι)) :
    Option (List (τ × ο) × Config τ σ ℓ) :=
  Machine.run (step act) c is

/-- The condition `Q`, on a thread and the step that it takes, holds all along the run. -/
def Guarded (act : τ → ι → σ → ℓ → Option (ο × σ × ℓ)) (Q : τ → ι → σ → ℓ → Prop)
    (c : Config τ σ ℓ) (is : List (τ × ι)) : Prop :=
  Machine.Guarded (step act) (fun c i => Q i.1 i.2 c.shared (c.locals i.1)) c is

/-- A condition that all steps meet that get one of the inputs. -/
theorem guarded_of_forall {act : τ → ι → σ → ℓ → Option (ο × σ × ℓ)} {Q : τ → ι → σ → ℓ → Prop}
    {is : List (τ × ι)} (c : Config τ σ ℓ) (h : ∀ i ∈ is, ∀ s l, Q i.1 i.2 s l) :
    Guarded act Q c is :=
  Machine.guarded_of_forall c fun i hi _ => h i hi _ _

/-- A thread that takes no step stays where it is. -/
theorem run_locals {act : τ → ι → σ → ℓ → Option (ο × σ × ℓ)} {j : τ} :
    ∀ (is : List (τ × ι)) {c c' : Config τ σ ℓ} {os : List (τ × ο)}, run act c is = some (os, c') →
      (∀ i ∈ is, i.1 ≠ j) → c'.locals j = c.locals j
  | [], c, c', os, h, _ => by
    cases h
    rfl
  | i :: is, c, c', os, h, hj => by
    obtain ⟨e, c₁, os₁, hstep, hrest, -⟩ := Machine.run_cons_eq_some h
    obtain ⟨o, s, l, -, -, rfl⟩ := step_eq_some hstep
    rw [run_locals is hrest fun k hk => hj k (List.mem_cons_of_mem i hk)]
    exact Function.update_of_ne (hj i (List.mem_cons_self ..)).symm _ _

/-! ## The rule

The rule for threads that share a state: each thread has an assertion, and there is one for the
shared state. A step has to keep that of the thread which takes it, and may break no other one. -/

/-- An assertion about the shared state and one about each thread, which all steps that meet `Q`
    keep: their own thread's, and every other thread's.  `h` is the history. -/
structure Invariant (act : τ → ι → σ → ℓ → Option (ο × σ × ℓ)) (Q : τ → ι → σ → ℓ → Prop)
    (I : List (τ × ο) → σ → Prop) (J : τ → List (τ × ο) → σ → ℓ → Prop) : Prop where
  own : ∀ {h : List (τ × ο)} {i : τ} {a : ι} {s s' : σ} {l l' : ℓ} {o : ο}, I h s → J i h s l →
    Q i a s l → act i a s l = some (o, s', l') → I (h ++ [(i, o)]) s' ∧ J i (h ++ [(i, o)]) s' l'
  other : ∀ {h : List (τ × ο)} {i j : τ} {a : ι} {s s' : σ} {l l' m : ℓ} {o : ο}, i ≠ j → I h s →
    J i h s l → J j h s m → Q i a s l → act i a s l = some (o, s', l') → J j (h ++ [(i, o)]) s' m

/-- **After every run** the assertions hold that held before it. By induction on the steps of the
    run. -/
theorem Invariant.run {act : τ → ι → σ → ℓ → Option (ο × σ × ℓ)} {Q : τ → ι → σ → ℓ → Prop}
    {I : List (τ × ο) → σ → Prop} {J : τ → List (τ × ο) → σ → ℓ → Prop}
    (hinv : Invariant act Q I J) : ∀ (is : List (τ × ι)) (h : List (τ × ο)) {c c' : Config τ σ ℓ}
      {os : List (τ × ο)}, I h c.shared → (∀ i, J i h c.shared (c.locals i)) →
      Guarded act Q c is → Threads.run act c is = some (os, c') →
      I (h ++ os) c'.shared ∧ ∀ i, J i (h ++ os) c'.shared (c'.locals i) := by
  intro is
  induction is with
  | nil =>
    intro h c c' os hI hJ _ hrun
    cases hrun
    rw [List.append_nil]
    exact ⟨hI, hJ⟩
  | cons i is ih =>
    intro h c c' os hI hJ hQ hrun
    obtain ⟨e, c₁, os₁, hstep, hrest, rfl⟩ := Machine.run_cons_eq_some hrun
    obtain ⟨hQi, hQrest⟩ := (Machine.guarded_cons hstep is).mp hQ
    obtain ⟨o, s, l, hact, rfl, rfl⟩ := step_eq_some hstep
    obtain ⟨hI', hJ'⟩ := hinv.own hI (hJ i.1) hQi hact
    have hall : ∀ j, J j (h ++ [(i.1, o)]) s (Function.update c.locals i.1 l j) := by
      intro j
      by_cases hj : j = i.1
      · subst hj
        rw [Function.update_self]
        exact hJ'
      · rw [Function.update_of_ne hj]
        exact hinv.other (Ne.symm hj) hI (hJ i.1) (hJ j) hQi hact
    have hend := ih (h ++ [(i.1, o)]) hI' hall hQrest hrest
    rwa [List.append_assoc] at hend

/-- Two invariants at once. -/
theorem Invariant.and {τ : Type*} {act : τ → ι → σ → ℓ → Option (ο × σ × ℓ)} {Q₁ Q₂ : τ → ι → σ → ℓ → Prop}
    {I₁ I₂ : List (τ × ο) → σ → Prop} {J₁ J₂ : τ → List (τ × ο) → σ → ℓ → Prop}
    (h₁ : Invariant act Q₁ I₁ J₁) (h₂ : Invariant act Q₂ I₂ J₂) :
    Invariant act (fun i a s l => Q₁ i a s l ∧ Q₂ i a s l) (fun h s => I₁ h s ∧ I₂ h s)
      (fun i h s l => J₁ i h s l ∧ J₂ i h s l) where
  own := by
    rintro h i a s s' l l' o ⟨hI₁, hI₂⟩ ⟨hJ₁, hJ₂⟩ ⟨hQ₁, hQ₂⟩ hact
    obtain ⟨hI₁', hJ₁'⟩ := h₁.own hI₁ hJ₁ hQ₁ hact
    obtain ⟨hI₂', hJ₂'⟩ := h₂.own hI₂ hJ₂ hQ₂ hact
    exact ⟨⟨hI₁', hI₂'⟩, hJ₁', hJ₂'⟩
  other := by
    rintro h i j a s s' l l' m o hne ⟨hI₁, hI₂⟩ ⟨hi₁, hi₂⟩ ⟨hj₁, hj₂⟩ ⟨hQ₁, hQ₂⟩ hact
    exact ⟨h₁.other hne hI₁ hi₁ hj₁ hQ₁ hact, h₂.other hne hI₂ hi₂ hj₂ hQ₂ hact⟩

/-- A family of invariants at once. -/
theorem Invariant.forall {τ κ : Type*} {act : τ → ι → σ → ℓ → Option (ο × σ × ℓ)}
    {Q : κ → τ → ι → σ → ℓ → Prop} {I : κ → List (τ × ο) → σ → Prop}
    {J : κ → τ → List (τ × ο) → σ → ℓ → Prop} (hall : ∀ k, Invariant act (Q k) (I k) (J k)) :
    Invariant act (fun i a s l => ∀ k, Q k i a s l) (fun h s => ∀ k, I k h s)
      (fun i h s l => ∀ k, J k i h s l) where
  own := by
    intro h i a s s' l l' o hI hJ hQ hact
    exact ⟨fun k => ((hall k).own (hI k) (hJ k) (hQ k) hact).1,
      fun k => ((hall k).own (hI k) (hJ k) (hQ k) hact).2⟩
  other := by
    intro h i j a s s' l l' m o hne hI hi hj hQ hact k
    exact (hall k).other hne (hI k) (hi k) (hj k) (hQ k) hact

/-! ## Coming to rest

A measure in two parts, so that a step may make one of them larger if it makes the more important
one smaller. -/

/-- Some thread takes a step that meets `G`. -/
def Follows (act : τ → ι → σ → ℓ → Option (ο × σ × ℓ)) (G : τ → ι → σ → ℓ → Prop)
    (c c' : Config τ σ ℓ) : Prop :=
  ∃ i a e, G i a c.shared (c.locals i) ∧ step act c (i, a) = some (e, c')

/-- Steps that come to an end: only a thread that is not idle takes them, and they leave it less to
    do, either of what is its own (`first`), or of what depends on the shared state too (`second`),
    and that they leave to the other threads as it was. -/
structure Settles (act : τ → ι → σ → ℓ → Option (ο × σ × ℓ)) (G : τ → ι → σ → ℓ → Prop)
    (idle : ℓ → Prop) (first : ℓ → ℕ) (second : σ → ℓ → ℕ) : Prop where
  busy : ∀ {i : τ} {a : ι} {s s' : σ} {l l' : ℓ} {o : ο}, G i a s l → act i a s l = some (o, s', l') →
    ¬ idle l
  less : ∀ {i : τ} {a : ι} {s s' : σ} {l l' : ℓ} {o : ο}, G i a s l → act i a s l = some (o, s', l') →
    first l' < first l ∨
      (first l' = first l ∧ second s' l' < second s l ∧ ∀ m, second s' m = second s m)

namespace Settles

variable {act : τ → ι → σ → ℓ → Option (ο × σ × ℓ)} {G : τ → ι → σ → ℓ → Prop} {idle : ℓ → Prop}
  {first : ℓ → ℕ} {second : σ → ℓ → ℕ}

/-- What is left to do for the threads `B`. -/
def rank (first : ℓ → ℕ) (second : σ → ℓ → ℕ) (B : Finset τ) (c : Config τ σ ℓ) : ℕ ×ₗ ℕ :=
  toLex (∑ i ∈ B, first (c.locals i), ∑ i ∈ B, second c.shared (c.locals i))

/-- A sum with one summand changed. -/
theorem sum_update_lt {τ ℓ : Type*} [DecidableEq τ] {f g : ℓ → ℕ} {B : Finset τ} {locals : τ → ℓ}
    {i : τ} {l : ℓ} (hi : i ∈ B) (hsame : ∀ m, g m = f m) (hless : g l < f (locals i)) :
    ∑ j ∈ B, g (Function.update locals i l j) < ∑ j ∈ B, f (locals j) := by
  apply Finset.sum_lt_sum
  · intro j _
    by_cases hj : j = i
    · subst hj
      rw [Function.update_self]
      exact hless.le
    · rw [Function.update_of_ne hj, hsame]
  · refine ⟨i, hi, ?_⟩
    rw [Function.update_self]
    exact hless

/-- A step leaves less to do. -/
theorem rank_lt (hs : Settles act G idle first second) {B : Finset τ} {c c' : Config τ σ ℓ}
    (hidle : ∀ i, i ∉ B → idle (c.locals i)) (h : Follows act G c c') :
    rank first second B c' < rank first second B c ∧ ∀ i, i ∉ B → idle (c'.locals i) := by
  obtain ⟨i, a, e, hG, hstep⟩ := h
  obtain ⟨o, s, l, hact, -, rfl⟩ := step_eq_some hstep
  have hi : i ∈ B := by
    by_contra hi
    exact hs.busy hG hact (hidle i hi)
  constructor
  · rw [rank, rank, Prod.Lex.toLex_lt_toLex]
    rcases hs.less hG hact with hfirst | ⟨hfirst, hsecond, hothers⟩
    · exact Or.inl (sum_update_lt hi (fun _ => rfl) hfirst)
    · refine Or.inr ⟨?_, sum_update_lt hi hothers hsecond⟩
      apply Finset.sum_congr rfl
      intro j _
      show first (Function.update c.locals i l j) = _
      by_cases hj : j = i
      · subst hj
        rw [Function.update_self, hfirst]
      · rw [Function.update_of_ne hj]
  · intro j hj
    show idle (Function.update c.locals i l j)
    rw [Function.update_of_ne fun h => hj (by rw [h]; exact hi)]
    exact hidle j hj

/-- **No run goes on for ever**, if all but finitely many threads are idle. By induction on the rank
    of the configuration in which the run begins. -/
theorem no_infinite_run (hs : Settles act G idle first second) (B : Finset τ) (c : Config τ σ ℓ)
    (hidle : ∀ i, i ∉ B → idle (c.locals i)) :
    ¬ ∃ f : ℕ → Config τ σ ℓ, f 0 = c ∧ ∀ n, Follows act G (f n) (f (n + 1)) := by
  have hacc : ∀ r : ℕ ×ₗ ℕ, ∀ c, rank first second B c = r → (∀ i, i ∉ B → idle (c.locals i)) →
      Acc (fun c' c => Follows act G c c') c := by
    intro r
    induction r using WellFoundedLT.induction with
    | ind r ih =>
      rintro c rfl hidle
      constructor
      intro c' hfollows
      obtain ⟨hless, hidle'⟩ := hs.rank_lt hidle hfollows
      exact ih _ hless c' rfl hidle'
  rintro ⟨f, rfl, hf⟩
  exact (acc_iff_isEmpty_descending_chain.mp (hacc _ (f 0) rfl hidle)).false ⟨f, rfl, hf⟩

end Settles

/-! ## A thread on its own

What a thread does while nobody else has the turn is a part of a run. -/

/-- Thread `i` comes from `s` and `l` to `s'` and `l'` while no other thread has the turn. -/
inductive Leads (act : τ → ι → σ → ℓ → Option (ο × σ × ℓ)) (i : τ) :
    σ → ℓ → List ο → σ → ℓ → Prop
  | refl (s : σ) (l : ℓ) : Leads act i s l [] s l
  | step {a : ι} {s s₁ s' : σ} {l l₁ l' : ℓ} {o : ο} {os : List ο}
      (hact : act i a s l = some (o, s₁, l₁)) (hrest : Leads act i s₁ l₁ os s' l') :
      Leads act i s l (o :: os) s' l'

namespace Leads

variable {act : τ → ι → σ → ℓ → Option (ο × σ × ℓ)} {i : τ} {s s' s'' : σ} {l l' l'' : ℓ}
  {os os' : List ο}

/-- One way after another. -/
theorem trans {τ : Type*} {act : τ → ι → σ → ℓ → Option (ο × σ × ℓ)} {i : τ}
    (h : Leads act i s l os s' l') (h' : Leads act i s' l' os' s'' l'') :
    Leads act i s l (os ++ os') s'' l'' := by
  induction h with
  | refl => exact h'
  | step hact _ ih => exact .step hact (ih h')

/-- It is a run. -/
theorem run (h : Leads act i s l os s' l') : ∀ {locals : τ → ℓ}, locals i = l →
    ∃ is : List (τ × ι), Threads.run act ⟨s, locals⟩ is
      = some (os.map fun o => (i, o), ⟨s', Function.update locals i l'⟩) := by
  induction h with
  | refl s l =>
    rintro locals rfl
    refine ⟨[], ?_⟩
    rw [Function.update_eq_self]
    rfl
  | @step a s s₁ s' l l₁ l' o os hact _ ih =>
    rintro locals rfl
    obtain ⟨is, hrun⟩ := ih (Function.update_self i l₁ locals)
    have hstep : Threads.step act ⟨s, locals⟩ (i, a)
        = some ((i, o), ⟨s₁, Function.update locals i l₁⟩) := by
      rw [Threads.step, hact]
      rfl
    rw [Function.update_idem] at hrun
    refine ⟨(i, a) :: is, ?_⟩
    rw [Threads.run, Machine.run_cons hstep, ← Threads.run, hrun]
    rfl

end Leads

/-! ## Read-write locks

A lock is who holds it. To ask for one that cannot be had is no step. -/

/-- A lock that any number of threads hold for reading, or one thread for writing. -/
structure RwLock (τ : Type*) where
  readers : Finset τ
  writer : Option τ
  exclusive : writer ≠ none → readers = ∅

namespace RwLock

/-- Nobody holds the lock. -/
def free : RwLock τ := ⟨∅, none, fun _ => rfl⟩

/-- Thread `i` takes the lock for reading. -/
def rdlock (k : RwLock τ) (i : τ) : Option (RwLock τ) :=
  if k.writer = none then some ⟨insert i k.readers, none, fun hne => absurd rfl hne⟩ else none

/-- Thread `i` takes the lock for writing. -/
def wrlock (k : RwLock τ) (i : τ) : Option (RwLock τ) :=
  if k.writer = none ∧ k.readers = ∅ then some ⟨∅, some i, fun _ => rfl⟩ else none

/-- Thread `i` gives back what it holds. -/
def unlock (k : RwLock τ) (i : τ) : RwLock τ :=
  if k.writer = some i then free
  else ⟨k.readers.erase i, k.writer, fun h => by rw [k.exclusive h]; rfl⟩

variable {k k' : RwLock τ} {i j : τ}

/-- Taking the lock for reading. -/
theorem rdlock_eq_some (h : k.rdlock i = some k') :
    k.writer = none ∧ k'.writer = none ∧ k'.readers = insert i k.readers := by
  unfold rdlock at h
  split at h
  · rename_i hw
    cases h
    exact ⟨hw, rfl, rfl⟩
  · cases h

/-- Taking the lock for writing. -/
theorem wrlock_eq_some (h : k.wrlock i = some k') :
    k.writer = none ∧ k.readers = ∅ ∧ k'.writer = some i ∧ k'.readers = ∅ := by
  unfold wrlock at h
  split at h
  · rename_i hfree
    cases h
    exact ⟨hfree.1, hfree.2, rfl, rfl⟩
  · cases h

/-- A thread that holds the lock for reading keeps writers out. -/
theorem writer_eq_none {τ : Type*} {k : RwLock τ} {i : τ} (h : i ∈ k.readers) : k.writer = none := by
  by_contra hw
  rw [k.exclusive hw] at h
  exact absurd h (Finset.notMem_empty i)

/-! ### What thread `i` does to the lock is nothing to thread `j` -/

/-- Thread `i` holds the lock for reading in `k'` as in `k`, and for writing too. -/
def SameFor (k k' : RwLock τ) (i : τ) : Prop :=
  (i ∈ k'.readers ↔ i ∈ k.readers) ∧ (k'.writer = some i ↔ k.writer = some i)

/-- Taking the lock for reading is nothing to another thread. -/
theorem sameFor_rdlock (hne : i ≠ j) (h : k.rdlock i = some k') : k.SameFor k' j := by
  obtain ⟨hw, hw', hr⟩ := rdlock_eq_some h
  rw [SameFor, hr, hw, hw', Finset.mem_insert, or_iff_right (Ne.symm hne)]
  exact ⟨Iff.rfl, Iff.rfl⟩

/-- Taking the lock for writing is nothing to another thread. -/
theorem sameFor_wrlock (hne : i ≠ j) (h : k.wrlock i = some k') : k.SameFor k' j := by
  obtain ⟨hw, hr, hw', hr'⟩ := wrlock_eq_some h
  rw [SameFor, hr, hr', hw, hw', Option.some_inj]
  exact ⟨Iff.rfl, iff_of_false hne (by simp)⟩

/-- Giving the lock back is nothing to another thread. -/
theorem sameFor_unlock (hne : i ≠ j) : k.SameFor (k.unlock i) j := by
  unfold SameFor unlock
  split
  · rename_i hw
    have hr : k.readers = ∅ := k.exclusive (by rw [hw]; exact Option.some_ne_none i)
    rw [hr, hw, Option.some_inj]
    exact ⟨Iff.rfl, iff_of_false (by simp [free]) hne⟩
  · rw [Finset.mem_erase, and_iff_right (Ne.symm hne)]
    exact ⟨Iff.rfl, Iff.rfl⟩

/-- What it gave back, it does not hold any more. -/
theorem unlock_self (k : RwLock τ) (i : τ) :
    i ∉ (k.unlock i).readers ∧ (k.unlock i).writer ≠ some i := by
  unfold unlock
  split
  · exact ⟨Finset.notMem_empty i, by simp [free]⟩
  · rename_i hw
    exact ⟨Finset.notMem_erase i _, hw⟩

/-! ### Who holds the lock, and how -/

/-- Thread `i` holds the lock for reading exactly if `reads`, and for writing exactly if `writes`. -/
def HeldAs (k : RwLock τ) (i : τ) (reads writes : Bool) : Prop :=
  (i ∈ k.readers ↔ reads = true) ∧ (k.writer = some i ↔ writes = true)

theorem HeldAs.of_same {τ : Type*} {k k' : RwLock τ} {i : τ} {reads writes : Bool}
    (h : k.HeldAs i reads writes) (hsame : k.SameFor k' i) : k'.HeldAs i reads writes :=
  ⟨hsame.1.trans h.1, hsame.2.trans h.2⟩

/-- Nobody holds a lock that is free. -/
theorem heldAs_free {τ : Type*} (i : τ) : (free : RwLock τ).HeldAs i false false :=
  ⟨iff_of_false (Finset.notMem_empty i) Bool.false_ne_true,
    iff_of_false (by simp [free]) Bool.false_ne_true⟩

/-- Who took the lock for reading holds it for reading. -/
theorem heldAs_rdlock (h : k.rdlock i = some k') : k'.HeldAs i true false := by
  obtain ⟨-, hw, hr⟩ := rdlock_eq_some h
  rw [HeldAs, hr, hw]
  exact ⟨iff_of_true (Finset.mem_insert_self i _) rfl, iff_of_false (by simp) Bool.false_ne_true⟩

/-- Who took the lock for writing holds it for writing. -/
theorem heldAs_wrlock (h : k.wrlock i = some k') : k'.HeldAs i false true := by
  obtain ⟨-, -, hw, hr⟩ := wrlock_eq_some h
  rw [HeldAs, hr, hw]
  exact ⟨iff_of_false (Finset.notMem_empty i) Bool.false_ne_true, iff_of_true rfl rfl⟩

/-- Who gave the lock back does not hold it. -/
theorem heldAs_unlock (k : RwLock τ) (i : τ) : (k.unlock i).HeldAs i false false :=
  ⟨iff_of_false (unlock_self k i).1 Bool.false_ne_true,
    iff_of_false (unlock_self k i).2 Bool.false_ne_true⟩

/-- Thread `i` holds the lock, for reading or for writing. -/
def HeldBy (k : RwLock τ) (i : τ) : Prop := i ∈ k.readers ∨ k.writer = some i

theorem HeldAs.heldBy_iff {τ : Type*} {k : RwLock τ} {i : τ} {reads writes : Bool}
    (h : k.HeldAs i reads writes) : k.HeldBy i ↔ reads = true ∨ writes = true := or_congr h.1 h.2

/-- Who does not hold it holds it in no way. -/
theorem heldAs_of_not_heldBy {τ : Type*} {k : RwLock τ} {i : τ} (h : ¬ k.HeldBy i) :
    k.HeldAs i false false :=
  ⟨iff_of_false (fun hr => h (Or.inl hr)) Bool.false_ne_true,
    iff_of_false (fun hw => h (Or.inr hw)) Bool.false_ne_true⟩

/-- Who asks for a lock that is held for writing does not get it. -/
theorem rdlock_eq_none (h : k.writer = some i) : k.rdlock j = none :=
  if_neg fun hw => by rw [h] at hw; cases hw

/-- Who asks for writing for a lock that is held does not get it. -/
theorem wrlock_eq_none (h : k.HeldBy i) : k.wrlock j = none := by
  refine if_neg fun hfree => ?_
  rcases h with hr | hw
  · rw [hfree.2] at hr
    exact absurd hr (Finset.notMem_empty i)
  · rw [hfree.1] at hw
    cases hw

/-- Who takes a lock for reading and gives it back leaves it as it was. -/
theorem unlock_rdlock (h : k.rdlock i = some k') (hi : i ∉ k.readers) : k'.unlock i = k := by
  obtain ⟨readers, writer, hex⟩ := k
  obtain ⟨readers', writer', hex'⟩ := k'
  obtain ⟨rfl, rfl, rfl⟩ : writer = none ∧ writer' = none ∧ readers' = insert i readers :=
    rdlock_eq_some h
  rw [unlock, if_neg (by simp)]
  simp only [Finset.erase_insert hi]

/-- And who takes it for writing. -/
theorem unlock_wrlock (h : k.wrlock i = some k') : k'.unlock i = k := by
  obtain ⟨readers, writer, hex⟩ := k
  obtain ⟨rfl, rfl, hw, -⟩ : writer = none ∧ readers = ∅ ∧ k'.writer = some i ∧ k'.readers = ∅ :=
    wrlock_eq_some h
  rw [unlock, if_pos hw]
  rfl

/-- Nobody holds the lock: whoever asks for it gets it. -/
theorem take_of_not_heldBy (h : ∀ i, ¬ k.HeldBy i) (j : τ) :
    (k.rdlock j).isSome = true ∧ (k.wrlock j).isSome = true := by
  have hw : k.writer = none := by
    rw [Option.eq_none_iff_forall_ne_some]
    exact fun i hi => h i (Or.inr hi)
  have hr : k.readers = ∅ := Finset.eq_empty_of_forall_notMem fun i hi => h i (Or.inl hi)
  rw [rdlock, wrlock, if_pos hw, if_pos ⟨hw, hr⟩]
  exact ⟨rfl, rfl⟩

end RwLock

end Threads
