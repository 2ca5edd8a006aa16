/-
  Runs of a deterministic machine, and how a fact about one step becomes a fact about all runs.

  A machine is a function `step : σ → ι → Option (ο × σ)`: on an input it gives an output and a
  new state, or `none` when what the program would do there is undefined.  `run` feeds it a list
  of inputs.  Two inductions over that list are done here once:

  * `run_follows`   — the machine keeps a relation to an abstract state that moves by `next`, and
    every output meets `post`: the run is defined, its outputs FOLLOW the abstract run, and the
    relation holds at the end.  An invariant is the case where the abstract state is trivial;
  * `run_simulates` — two machines that answer alike at every step answer alike on every run.

  What the steps of a run cost together is bounded by a potential (`cost_le`), or by what they cost in
  another count (`cost_le_mul`).

  A premiss of a step that is only met on some runs is a condition ALONG the run: on the state,
  the abstract state and the input of each step (`Along`), or on the state and the input alone
  (`Guarded`), or on the abstract state and the input alone (`Throughout`).

  A step that is undefined makes the run undefined. So a rule either promises that a run is defined,
  as `run_follows` and `run_invariant` do, or takes it for granted, as `run_preserves` does.
-/
import Mathlib

namespace Machine

variable {ι ο σ τ α : Type*}

/-- Feed the inputs one after another; `none` as soon as one step is undefined. -/
def run (step : σ → ι → Option (ο × σ)) : σ → List ι → Option (List ο × σ)
  | s, [] => some ([], s)
  | s, i :: is => do
    let (o, s') ← step s i
    let (os, s'') ← run step s' is
    some (o :: os, s'')

@[simp] theorem run_nil (step : σ → ι → Option (ο × σ)) (s : σ) :
    run step s [] = some ([], s) := rfl

theorem run_cons {step : σ → ι → Option (ο × σ)} {s s' : σ} {i : ι} {o : ο}
    (h : step s i = some (o, s')) (is : List ι) :
    run step s (i :: is) = (run step s' is).map fun r => (o :: r.1, r.2) := by
  simp only [run, h, Option.bind_eq_bind, Option.bind_some]
  cases run step s' is <;> rfl

theorem run_cons_eq_some {step : σ → ι → Option (ο × σ)} {s s'' : σ} {i : ι} {is : List ι}
    {os : List ο} (h : run step s (i :: is) = some (os, s'')) :
    ∃ o s' os', step s i = some (o, s') ∧ run step s' is = some (os', s'') ∧ os = o :: os' := by
  cases hs : step s i with
  | none => simp [run, hs] at h
  | some r =>
    obtain ⟨o, s'⟩ := r
    rw [run_cons hs] at h
    obtain ⟨⟨os', t⟩, ht, he⟩ := Option.map_eq_some_iff.mp h
    cases he
    exact ⟨o, s', os', rfl, ht, rfl⟩

/-- A run of `is ++ js` is a run of `is` and then one of `js`. -/
theorem run_append {step : σ → ι → Option (ο × σ)} {s s' : σ} {is : List ι} {os : List ο}
    (h : run step s is = some (os, s')) (js : List ι) :
    run step s (is ++ js) = (run step s' js).map fun r => (os ++ r.1, r.2) := by
  induction is generalizing s os with
  | nil =>
    cases h
    rw [List.nil_append]
    cases run step s' js <;> rfl
  | cons i is ih =>
    obtain ⟨o, t, os', hs, ht, rfl⟩ := run_cons_eq_some h
    rw [List.cons_append, run_cons hs, ih ht]
    cases run step s' js <;> rfl

/-- A run whose steps all go from `x` to `f x`, with an output that `g` takes from `f x`. -/
theorem run_iterate {step : σ → ι → Option (ο × σ)} (f : σ → σ) (g : σ → ο) :
    ∀ (is : List ι) (x : σ), (∀ i ∈ is, ∀ x, step x i = some (g (f x), f x)) →
    run step x is = some ((List.range is.length).map fun n => g (f^[n] (f x)), f^[is.length] x) := by
  intro is
  induction is with
  | nil => exact fun x _ => rfl
  | cons i is ih =>
    intro x hstep
    rw [run_cons (hstep i (List.mem_cons_self ..) x),
      ih (f x) fun j hj => hstep j (List.mem_cons_of_mem _ hj),
      List.length_cons, List.range_succ_eq_map, List.map_cons, List.map_map, Option.map_some]
    simp only [Function.comp_def, Function.iterate_succ_apply, Function.iterate_zero, id]

/-! ## Runs against an abstract state

The abstract state moves with the inputs alone. A step lemma is about one step from related states,
and the run lemma is the induction, done once for all machines. -/

/-- The outputs `os` of the inputs `is` all meet `post`, the abstract state moving by `next`. -/
def Follows (next : α → ι → α) (post : α → ι → ο → Prop) : α → List ι → List ο → Prop
  | _, [], [] => True
  | a, i :: is, o :: os => post a i o ∧ Follows next post (next a i) is os
  | _, _, _ => False

/-- The condition `ok` holds at every step of the run of `is` that is reached. -/
def Along (step : σ → ι → Option (ο × σ)) (next : α → ι → α) (ok : σ → α → ι → Prop) :
    σ → α → List ι → Prop
  | _, _, [] => True
  | s, a, i :: is => ok s a i ∧ ∀ r ∈ step s i, Along step next ok r.2 (next a i) is

instance decidableAlong {step : σ → ι → Option (ο × σ)} {next : α → ι → α} {ok : σ → α → ι → Prop}
    [∀ s a i, Decidable (ok s a i)] : ∀ s a is, Decidable (Along step next ok s a is)
  | _, _, [] => .isTrue trivial
  | s, a, i :: is =>
    have (r : ο × σ) : Decidable (Along step next ok r.2 (next a i) is) :=
      decidableAlong r.2 (next a i) is
    inferInstanceAs (Decidable (ok s a i ∧ ∀ r ∈ step s i, Along step next ok r.2 (next a i) is))

/-- The condition `Q` on the state and the input holds at every step of the run of `is` that is
    reached. -/
def Guarded (step : σ → ι → Option (ο × σ)) (Q : σ → ι → Prop) : σ → List ι → Prop
  | _, [] => True
  | s, i :: is => Q s i ∧ ∀ r ∈ step s i, Guarded step Q r.2 is

instance decidableGuarded {step : σ → ι → Option (ο × σ)} {Q : σ → ι → Prop}
    [∀ s i, Decidable (Q s i)] : ∀ s is, Decidable (Guarded step Q s is)
  | _, [] => .isTrue trivial
  | s, i :: is =>
    have (r : ο × σ) : Decidable (Guarded step Q r.2 is) := decidableGuarded r.2 is
    inferInstanceAs (Decidable (Q s i ∧ ∀ r ∈ step s i, Guarded step Q r.2 is))

theorem guarded_cons {step : σ → ι → Option (ο × σ)} {Q : σ → ι → Prop} {s s' : σ} {i : ι} {o : ο}
    (h : step s i = some (o, s')) (is : List ι) :
    Guarded step Q s (i :: is) ↔ Q s i ∧ Guarded step Q s' is := by
  show (Q s i ∧ ∀ r ∈ step s i, Guarded step Q r.2 is) ↔ _
  rw [h]
  constructor
  · exact fun hg => ⟨hg.1, hg.2 (o, s') rfl⟩
  · rintro ⟨hQ, hg⟩
    refine ⟨hQ, fun r hr => ?_⟩
    cases hr
    exact hg

/-- Two conditions along a run. -/
theorem Guarded.and {step : σ → ι → Option (ο × σ)} {Q Q' : σ → ι → Prop} :
    ∀ {is : List ι} {s : σ}, Guarded step Q s is → Guarded step Q' s is →
      Guarded step (fun s i => Q s i ∧ Q' s i) s is
  | [], _, _, _ => trivial
  | _ :: _, _, h, h' => ⟨⟨h.1, h'.1⟩, fun r hr => (h.2 r hr).and (h'.2 r hr)⟩

/-- Two conditions that agree wherever `J` holds, which a step keeps that meets the second one, hold
    along the same runs. -/
theorem guarded_congr {step : σ → ι → Option (ο × σ)} {J : σ → Prop} {Q Q' : σ → ι → Prop}
    (hiff : ∀ s i, J s → (Q s i ↔ Q' s i))
    (hkeep : ∀ {s s' : σ} {i : ι} {o : ο}, J s → Q' s i → step s i = some (o, s') → J s') :
    ∀ (is : List ι) (s : σ), J s → (Guarded step Q s is ↔ Guarded step Q' s is) := by
  intro is
  induction is with
  | nil => exact fun _ _ => Iff.rfl
  | cons i is ih =>
    intro s hJ
    have hrest : Q' s i → ∀ r ∈ step s i, (Guarded step Q r.2 is ↔ Guarded step Q' r.2 is) :=
      fun hQ r hr => ih r.2 (hkeep hJ hQ hr)
    constructor
    · intro hg
      have hQ : Q' s i := (hiff s i hJ).mp hg.1
      exact ⟨hQ, fun r hr => (hrest hQ r hr).mp (hg.2 r hr)⟩
    · intro hg
      exact ⟨(hiff s i hJ).mpr hg.1, fun r hr => (hrest hg.1 r hr).mpr (hg.2 r hr)⟩

theorem Guarded.along {step : σ → ι → Option (ο × σ)} {next : α → ι → α} {Q : σ → ι → Prop} :
    ∀ {is : List ι} {s : σ} (a : α), Guarded step Q s is → Along step next (fun s _ i => Q s i) s a is
  | [], _, _, _ => trivial
  | _ :: _, _, _, h => ⟨h.1, fun r hr => (h.2 r hr).along _⟩

/-- A condition on the inputs alone can be added. -/
theorem Along.and_forall {step : σ → ι → Option (ο × σ)} {next : α → ι → α} {ok : σ → α → ι → Prop}
    {p : ι → Prop} : ∀ {is : List ι} {s : σ} {a : α}, Along step next ok s a is → (∀ i ∈ is, p i) →
    Along step next (fun s a i => ok s a i ∧ p i) s a is
  | [], _, _, _, _ => trivial
  | _ :: _, _, _, h, hp =>
    ⟨⟨h.1, hp _ (List.mem_cons_self ..)⟩, fun r hr =>
      Along.and_forall (h.2 r hr) fun j hj => hp j (List.mem_cons_of_mem _ hj)⟩

/-- **Runs follow the abstract state.** One step keeps `R` and meets `post` wherever `ok` holds; so
    does every run along which `ok` holds. By induction on the inputs, from any related states. -/
theorem run_follows {step : σ → ι → Option (ο × σ)} {next : α → ι → α}
    {post : α → ι → ο → Prop} {R : σ → α → Prop} {ok : σ → α → ι → Prop}
    (hstep : ∀ s a i, R s a → ok s a i →
      ∃ o s', step s i = some (o, s') ∧ post a i o ∧ R s' (next a i)) :
    ∀ (is : List ι) (s : σ) (a : α), R s a → Along step next ok s a is →
      ∃ os s', run step s is = some (os, s') ∧ Follows next post a is os ∧
        R s' (is.foldl next a) := by
  intro is
  induction is with
  | nil => exact fun s a hR _ => ⟨[], s, rfl, trivial, hR⟩
  | cons i is ih =>
    intro s a hR hok
    obtain ⟨o, s', hs, hpost, hR'⟩ := hstep s a i hR hok.1
    obtain ⟨os, s'', hrun, hfol, hend⟩ := ih s' (next a i) hR' (hok.2 (o, s') hs)
    exact ⟨o :: os, s'', by rw [run_cons hs, hrun]; rfl, ⟨hpost, hfol⟩, hend⟩

/-- The condition `ok` holds at every step of the abstract run. -/
def Throughout (next : α → ι → α) (ok : α → ι → Prop) : α → List ι → Prop
  | _, [] => True
  | a, i :: is => ok a i ∧ Throughout next ok (next a i) is

/-- A condition on the inputs alone. -/
theorem throughout_of_forall {next : α → ι → α} {p : ι → Prop} :
    ∀ {is : List ι}, (∀ i ∈ is, p i) → ∀ a, Throughout next (fun _ i => p i) a is
  | [], _, _ => trivial
  | i :: _, h, a =>
    ⟨h i (List.mem_cons_self ..),
      throughout_of_forall (fun j hj => h j (List.mem_cons_of_mem i hj)) (next a i)⟩

/-- **Exactly when runs follow the abstract state.**  From related states every input that `ok`
    admits gives an output, which meets `post` exactly under the condition `Q`. -/
theorem run_follows_iff {step : σ → ι → Option (ο × σ)} {next : α → ι → α}
    {post : α → ι → ο → Prop} {R : σ → α → Prop} {ok Q : α → ι → Prop}
    (hstep : ∀ s a i, R s a → ok a i →
      ∃ o s', step s i = some (o, s') ∧ (post a i o ↔ Q a i) ∧ R s' (next a i)) :
    ∀ (is : List ι) (s : σ) (a : α), R s a → Throughout next ok a is →
      ∃ os s', run step s is = some (os, s') ∧
        (Follows next post a is os ↔ Throughout next Q a is) ∧ R s' (is.foldl next a) := by
  intro is
  induction is with
  | nil => exact fun s a hR _ => ⟨[], s, rfl, Iff.rfl, hR⟩
  | cons i is ih =>
    intro s a hR hok
    obtain ⟨o, s', hs, hpost, hR'⟩ := hstep s a i hR hok.1
    obtain ⟨os, s'', hrun, hfol, hend⟩ := ih s' (next a i) hR' hok.2
    exact ⟨o :: os, s'', by rw [run_cons hs, hrun]; rfl, and_congr hpost hfol, hend⟩

/-- **Invariants**, of the machine and an abstract state: what one step keeps, a run keeps. -/
theorem run_keeps {step : σ → ι → Option (ο × σ)} {next : α → ι → α} {R : σ → α → Prop}
    {p : ι → Prop}
    (hstep : ∀ s a i, R s a → p i → ∃ o s', step s i = some (o, s') ∧ R s' (next a i))
    (is : List ι) (s : σ) (a : α) (hR : R s a) (hp : ∀ i ∈ is, p i) :
    ∃ os s', run step s is = some (os, s') ∧ R s' (is.foldl next a) := by
  have hstep' : ∀ s a i, R s a → p i →
      ∃ o s', step s i = some (o, s') ∧ (True ↔ True) ∧ R s' (next a i) := by
    intro s a i hR hi
    obtain ⟨o, s', hs, hR'⟩ := hstep s a i hR hi
    exact ⟨o, s', hs, Iff.rfl, hR'⟩
  obtain ⟨os, s', hrun, -, hend⟩ := run_follows_iff hstep' is s a hR (throughout_of_forall hp a)
  exact ⟨os, s', hrun, hend⟩

/-- **After each input.** All states of a run are defined and meet `K`, exactly when each step meets
    the condition `Q` under which it does; `G` is known to hold along the run. By induction on the
    inputs: the shortest prefix is the empty one, and the others are those of the rest. -/
theorem run_prefixes_iff {step : σ → ι → Option (ο × σ)} {J K : σ → Prop} {G Q : σ → ι → Prop}
    (hkeep : ∀ {s s' : σ} {i : ι} {o : ο}, J s → G s i → step s i = some (o, s') → J s')
    (hstep : ∀ s i, J s → K s → G s i → (Q s i ↔ ∃ o s', step s i = some (o, s') ∧ K s')) :
    ∀ (is : List ι) (s : σ), J s → K s → Guarded step G s is →
      ((∀ n ≤ is.length, ∃ os s', run step s (is.take n) = some (os, s') ∧ K s') ↔
        Guarded step Q s is) := by
  intro is
  induction is with
  | nil =>
    intro s _ hK _
    refine iff_of_true (fun n _ => ⟨[], s, ?_, hK⟩) trivial
    rw [List.take_nil]
    rfl
  | cons i is ih =>
    intro s hJ hK hG
    constructor
    · intro hall
      have hfirst : ∃ o s', step s i = some (o, s') ∧ K s' := by
        obtain ⟨os, s', hrun, hK'⟩ := hall 1 (Nat.succ_le_succ (Nat.zero_le _))
        obtain ⟨o, t, os', hs, hrest, -⟩ := run_cons_eq_some hrun
        cases hrest
        exact ⟨o, _, hs, hK'⟩
      obtain ⟨o, s', hs, hK'⟩ := hfirst
      have hG' := (guarded_cons hs is).mp hG
      rw [guarded_cons hs, ← ih s' (hkeep hJ hG'.1 hs) hK' hG'.2]
      refine ⟨(hstep s i hJ hK hG'.1).mpr ⟨o, s', hs, hK'⟩, fun n hn => ?_⟩
      obtain ⟨os, s'', hrun, hend⟩ := hall (n + 1) (Nat.succ_le_succ hn)
      obtain ⟨o', t, os', hs', hrest, -⟩ := run_cons_eq_some hrun
      rw [hs] at hs'
      cases hs'
      exact ⟨os', s'', hrest, hend⟩
    · intro hg n hn
      obtain ⟨o, s', hs, hK'⟩ := (hstep s i hJ hK hG.1).mp hg.1
      rw [guarded_cons hs] at hg hG
      cases n with
      | zero => exact ⟨[], s, rfl, hK⟩
      | succ n =>
        obtain ⟨os, s'', hrun, hend⟩ :=
          (ih s' (hkeep hJ hG.1 hs) hK' hG.2).mpr hg.2 n (Nat.le_of_succ_le_succ hn)
        exact ⟨o :: os, s'', by rw [List.take_succ_cons, run_cons hs, hrun]; rfl, hend⟩

/-- **Invariants** of the machine: what one step keeps, a run keeps. -/
theorem run_invariant {step : σ → ι → Option (ο × σ)} {J : σ → Prop} {p : ι → Prop}
    (hstep : ∀ s i, J s → p i → ∃ o s', step s i = some (o, s') ∧ J s') :
    ∀ (is : List ι) (s : σ), J s → (∀ i ∈ is, p i) → ∃ os s', run step s is = some (os, s') ∧ J s'
  | [], s, hJ, _ => ⟨[], s, rfl, hJ⟩
  | i :: is, s, hJ, hp => by
    obtain ⟨o, s', hs, hJ'⟩ := hstep s i hJ (hp i (List.mem_cons_self ..))
    obtain ⟨os, s'', hrun, hend⟩ :=
      run_invariant hstep is s' hJ' fun j hj => hp j (List.mem_cons_of_mem i hj)
    exact ⟨o :: os, s'', by rw [run_cons hs, hrun]; rfl, hend⟩

/-- **Invariants** of the runs that are defined, and along which `Q` holds: what a step keeps that can
    be taken. -/
theorem run_preserves_guarded {step : σ → ι → Option (ο × σ)} {J : σ → Prop} {Q : σ → ι → Prop}
    {p : ι → Prop} (hstep : ∀ {s s' i o}, J s → p i → Q s i → step s i = some (o, s') → J s') :
    ∀ (is : List ι) {s s' : σ} {os : List ο}, J s → (∀ i ∈ is, p i) → Guarded step Q s is →
      run step s is = some (os, s') → J s'
  | [], s, s', os, hJ, _, _, hrun => by
    cases hrun
    exact hJ
  | i :: is, s, s', os, hJ, hp, hg, hrun => by
    obtain ⟨o, t, os', hs, ht, -⟩ := run_cons_eq_some hrun
    have hJ' := hstep hJ (hp i (List.mem_cons_self ..)) hg.1 hs
    exact run_preserves_guarded hstep is hJ' (fun j hj => hp j (List.mem_cons_of_mem i hj))
      (hg.2 (o, t) hs) ht

/-- A condition that all inputs meet, whatever the state. -/
theorem guarded_of_forall {step : σ → ι → Option (ο × σ)} {Q : σ → ι → Prop} :
    ∀ {is : List ι} (s : σ), (∀ i ∈ is, ∀ s, Q s i) → Guarded step Q s is
  | [], _, _ => trivial
  | i :: _, s, h =>
    ⟨h i (List.mem_cons_self ..) s, fun r _ =>
      guarded_of_forall r.2 fun j hj => h j (List.mem_cons_of_mem i hj)⟩

/-- **Invariants** of the runs that are defined: what a step keeps that can be taken. -/
theorem run_preserves {step : σ → ι → Option (ο × σ)} {J : σ → Prop}
    (hstep : ∀ {s s' i o}, J s → step s i = some (o, s') → J s') (is : List ι) {s s' : σ}
    {os : List ο} (hJ : J s) (hrun : run step s is = some (os, s')) : J s' :=
  run_preserves_guarded (Q := fun _ _ => True) (p := fun _ => True) (fun hJ _ _ hs => hstep hJ hs)
    is hJ (fun _ _ => trivial) (guarded_of_forall s fun _ _ _ => trivial) hrun

/-- **Exactly when all outputs of a run are good.** As long as `K` holds, an output meets `post`
    exactly under the condition `Q`, and under it `K` is kept; `J` keeps the machine defined. By
    induction on the inputs; where the condition fails, nothing is said of what follows. -/
theorem run_forall_iff {step : σ → ι → Option (ο × σ)} {J K : σ → Prop} {post : ο → Prop}
    {Q : σ → ι → Prop} {p : ι → Prop}
    (hstep : ∀ s i, J s → p i → ∃ o s', step s i = some (o, s') ∧ J s' ∧
      (K s → (post o ↔ Q s i) ∧ (Q s i → K s'))) :
    ∀ (is : List ι) (s : σ), J s → K s → (∀ i ∈ is, p i) →
      ∃ os s', run step s is = some (os, s') ∧ ((∀ o ∈ os, post o) ↔ Guarded step Q s is) := by
  intro is
  induction is with
  | nil =>
    exact fun s _ _ _ => ⟨[], s, rfl, iff_of_true (fun o ho => absurd ho List.not_mem_nil) trivial⟩
  | cons i is ih =>
    intro s hJ hK hp
    have hp' : ∀ j ∈ is, p j := fun j hj => hp j (List.mem_cons_of_mem i hj)
    obtain ⟨o, s', hs, hJ', hpost⟩ := hstep s i hJ (hp i (List.mem_cons_self ..))
    obtain ⟨hiff, hkeep⟩ := hpost hK
    by_cases hQ : Q s i
    · obtain ⟨os, s'', hrun, hrest⟩ := ih s' hJ' (hkeep hQ) hp'
      refine ⟨o :: os, s'', by rw [run_cons hs, hrun]; rfl, ?_⟩
      rw [List.forall_mem_cons, guarded_cons hs]
      exact and_congr hiff hrest
    · -- the first output that is not good: the run goes on, but both sides are false
      obtain ⟨os, s'', hrun, -⟩ := run_invariant (p := p) (fun s j hJ hj => by
        obtain ⟨o, s', hs, hJ', -⟩ := hstep s j hJ hj
        exact ⟨o, s', hs, hJ'⟩) is s' hJ' hp'
      refine ⟨o :: os, s'', by rw [run_cons hs, hrun]; rfl, iff_of_false ?_ fun h => hQ h.1⟩
      exact fun h => hQ (hiff.mp (h o (List.mem_cons_self ..)))

/-- **Exactly when all outputs of a run that is defined are good**, where a step need not be, and the
    condition `G` holds along the run: as long as `K` holds, an output meets `post` exactly under the
    condition `Q`, and under it `K` is kept. -/
theorem run_forall_iff_of_guarded {step : σ → ι → Option (ο × σ)} {K : σ → Prop} {post : ο → Prop}
    {G Q : σ → ι → Prop}
    (hstep : ∀ {s s' i o}, K s → G s i → step s i = some (o, s') →
      (post o ↔ Q s i) ∧ (Q s i → K s')) :
    ∀ (is : List ι) {s s' : σ} {os : List ο}, K s → Guarded step G s is →
      run step s is = some (os, s') →
      ((∀ o ∈ os, post o) ↔ Guarded step Q s is) ∧ (Guarded step Q s is → K s') := by
  intro is
  induction is with
  | nil =>
    intro s s' os hK _ hrun
    cases hrun
    exact ⟨iff_of_true (fun o ho => absurd ho List.not_mem_nil) trivial, fun _ => hK⟩
  | cons i is ih =>
    intro s s'' os hK hG hrun
    obtain ⟨o, s', os, hs, hrest, rfl⟩ := run_cons_eq_some hrun
    obtain ⟨hiff, hkeep⟩ := hstep hK hG.1 hs
    rw [guarded_cons hs] at hG
    rw [List.forall_mem_cons, guarded_cons hs]
    by_cases hQ : Q s i
    · obtain ⟨hall, hend⟩ := ih (hkeep hQ) hG.2 hrest
      exact ⟨and_congr hiff hall, fun hg => hend hg.2⟩
    · exact ⟨iff_of_false (fun h => hQ (hiff.mp h.1)) fun h => hQ h.1, fun hg => absurd hg.1 hQ⟩

/-- The same without a condition along the run. -/
theorem run_forall_iff_of_run {step : σ → ι → Option (ο × σ)} {K : σ → Prop} {post : ο → Prop}
    {Q : σ → ι → Prop}
    (hstep : ∀ {s s' i o}, K s → step s i = some (o, s') → (post o ↔ Q s i) ∧ (Q s i → K s'))
    (is : List ι) {s s' : σ} {os : List ο} (hK : K s) (hrun : run step s is = some (os, s')) :
    ((∀ o ∈ os, post o) ↔ Guarded step Q s is) ∧ (Guarded step Q s is → K s') :=
  run_forall_iff_of_guarded (G := fun _ _ => True) (fun hK _ hs => hstep hK hs) is hK
    (guarded_of_forall s fun _ _ _ => trivial) hrun

/-- A run that is defined meets the condition without which its steps are not. -/
theorem guarded_of_run {step : σ → ι → Option (ο × σ)} {J : σ → Prop} {Q : σ → ι → Prop}
    (hstep : ∀ {s s' i o}, J s → step s i = some (o, s') → Q s i ∧ J s') :
    ∀ (is : List ι) {s s' : σ} {os : List ο}, J s → run step s is = some (os, s') →
      Guarded step Q s is
  | [], _, _, _, _, _ => trivial
  | i :: is, s, s'', os, hJ, hrun => by
    obtain ⟨o, s', os', hs, hrest, -⟩ := run_cons_eq_some hrun
    obtain ⟨hQ, hJ'⟩ := hstep hJ hs
    rw [guarded_cons hs]
    exact ⟨hQ, guarded_of_run hstep is hJ' hrest⟩

/-- The step after a run meets the condition that holds along the whole run. -/
theorem Guarded.last {step : σ → ι → Option (ο × σ)} {Q : σ → ι → Prop} {i : ι} :
    ∀ {is : List ι} {s s' : σ} {os : List ο}, Guarded step Q s (is ++ [i]) →
      run step s is = some (os, s') → Q s' i
  | [], s, s', os, hg, hrun => by
    cases hrun
    exact hg.1
  | j :: is, s, s', os, hg, hrun => by
    obtain ⟨o, t, os', hs, hrest, -⟩ := run_cons_eq_some hrun
    exact Guarded.last ((guarded_cons hs (is ++ [i])).mp hg).2 hrest

/-- The condition holds along the first part of a run along which it holds. -/
theorem Guarded.take {step : σ → ι → Option (ο × σ)} {Q : σ → ι → Prop} {js : List ι} :
    ∀ {is : List ι} {s : σ}, Guarded step Q s (is ++ js) → Guarded step Q s is
  | [], _, _ => trivial
  | _ :: _, _, h => ⟨h.1, fun r hr => (h.2 r hr).take⟩

/-! ## The cost of a run

Costs are natural numbers, summed over the steps that are taken. -/

/-- What the steps of a run cost together, where a step from `s` to `s'` on the input `i` costs
    `c s i s'`.  The run ends at a step that is undefined. -/
def cost (step : σ → ι → Option (ο × σ)) (c : σ → ι → σ → ℕ) : σ → List ι → ℕ
  | _, [] => 0
  | s, i :: is => (step s i).elim 0 fun r => c s i r.2 + cost step c r.2 is

/-- **The method of potentials.** Where a step pays its cost and the potential that it leaves out of
    the potential before it and `b` more, a run costs no more than its first potential and `b` for
    each input. By induction on the inputs, from any state. -/
theorem cost_le {step : σ → ι → Option (ο × σ)} {c : σ → ι → σ → ℕ} {J : σ → Prop} {Φ : σ → ℕ}
    {b : ℕ} (hstep : ∀ {s s' i o}, J s → step s i = some (o, s') →
      J s' ∧ c s i s' + Φ s' ≤ Φ s + b) :
    ∀ (is : List ι) (s : σ), J s → cost step c s is ≤ Φ s + b * is.length := by
  intro is
  induction is with
  | nil => exact fun s _ => Nat.zero_le _
  | cons i is ih =>
    intro s hJ
    rw [List.length_cons, Nat.mul_succ]
    unfold cost
    rcases hs : step s i with _ | ⟨o, s'⟩
    · exact Nat.zero_le _
    · obtain ⟨hJ', hpay⟩ := hstep hJ hs
      have hrest := ih s' hJ'
      show c s i s' + cost step c s' is ≤ _
      omega

/-- What a run costs in one count and in another, where no step on which `Q` holds costs more than
    `k` times as much in the first as in the second. -/
theorem cost_le_mul {step : σ → ι → Option (ο × σ)} {c d : σ → ι → σ → ℕ} {J : σ → Prop}
    {Q : σ → ι → Prop} {k : ℕ} (hstep : ∀ {s s' i o}, J s → Q s i → step s i = some (o, s') →
      J s' ∧ c s i s' ≤ k * d s i s') :
    ∀ (is : List ι) (s : σ), J s → Guarded step Q s is → cost step c s is ≤ k * cost step d s is := by
  intro is
  induction is with
  | nil => exact fun s _ _ => Nat.zero_le _
  | cons i is ih =>
    intro s hJ hg
    unfold cost
    rcases hs : step s i with _ | ⟨o, s'⟩
    · exact Nat.zero_le _
    · obtain ⟨hQ, hg'⟩ := (guarded_cons hs is).mp hg
      obtain ⟨hJ', hle⟩ := hstep hJ hQ hs
      calc c s i s' + cost step c s' is
          ≤ k * d s i s' + k * cost step d s' is := Nat.add_le_add hle (ih s' hJ' hg')
        _ = k * (d s i s' + cost step d s' is) := (Nat.mul_add ..).symm

/-! ## Two machines in step

A relation between two states is an invariant of the pair. -/

/-- Two states that are fed the same inputs. -/
def pair (step : σ → ι → Option (ο × σ)) (s : σ × σ) (i : ι) : Option ((ο × ο) × (σ × σ)) := do
  let (o, s') ← step s.1 i
  let (o', t') ← step s.2 i
  some ((o, o'), (s', t'))

theorem pair_eq {step : σ → ι → Option (ο × σ)} {s s' t t' : σ} {i : ι} {o o' : ο}
    (hs : step s i = some (o, s')) (ht : step t i = some (o', t')) :
    pair step (s, t) i = some ((o, o'), (s', t')) := by
  simp [pair, hs, ht]

/-- A run of the pair is a run of each. -/
theorem run_pair {step : σ → ι → Option (ο × σ)} :
    ∀ (is : List ι) (s : σ × σ) {os : List (ο × ο)} {s' : σ × σ},
      run (pair step) s is = some (os, s') →
      run step s.1 is = some (os.map Prod.fst, s'.1) ∧ run step s.2 is = some (os.map Prod.snd, s'.2)
  | [], s, os, s', h => by
    cases h
    exact ⟨rfl, rfl⟩
  | i :: is, s, os, s'', h => by
    obtain ⟨⟨o, o'⟩, ⟨s', t'⟩, os', hs, hrun, rfl⟩ := run_cons_eq_some h
    simp only [pair, Option.bind_eq_bind, Option.bind_eq_some_iff, Option.some.injEq,
      Prod.mk.injEq] at hs
    obtain ⟨⟨a, sa⟩, ha, ⟨b, sb⟩, hb, ⟨rfl, rfl⟩, rfl, rfl⟩ := hs
    obtain ⟨hra, hrb⟩ := run_pair is (sa, sb) hrun
    exact ⟨by rw [run_cons ha, hra]; rfl, by rw [run_cons hb, hrb]; rfl⟩

/-- Runs of two states along which `Q` holds, where both steps may be undefined: every step keeps `R`
    between the states and its outputs meet `post`, or neither machine can take it. -/
theorem run_pair_guarded {step : σ → ι → Option (ο × σ)} {R : σ × σ → Prop} {Q : σ × σ → ι → Prop}
    {post : ι → ο × ο → Prop} {p bad : ι → Prop}
    (hstep : ∀ s i, R s → p i → Q s i →
      (step s.1 i = none ∧ step s.2 i = none ∧ bad i) ∨
        ∃ o s', pair step s i = some (o, s') ∧ post i o ∧ R s') :
    ∀ (is : List ι) (s : σ × σ), R s → (∀ i ∈ is, p i) → Guarded (pair step) Q s is →
      (run step s.1 is = none ∧ run step s.2 is = none ∧ ∃ i ∈ is, bad i) ∨
        ∃ os s', run (pair step) s is = some (os, s') ∧ List.Forall₂ post is os
  | [], s, _, _, _ => Or.inr ⟨[], s, rfl, List.Forall₂.nil⟩
  | i :: is, s, hR, hp, hg => by
    rcases hstep s i hR (hp i (List.mem_cons_self ..)) hg.1 with
      ⟨h₁, h₂, hbad⟩ | ⟨o, s', hs, hpost, hR'⟩
    · exact Or.inl ⟨by simp [run, h₁], by simp [run, h₂], i, List.mem_cons_self .., hbad⟩
    · obtain ⟨t₁, t₂⟩ := s'
      have hone : run (pair step) s [i] = some ([o], (t₁, t₂)) := by rw [run_cons hs]; rfl
      obtain ⟨h₁, h₂⟩ := run_pair [i] s hone
      rcases run_pair_guarded hstep is (t₁, t₂) hR' (fun j hj => hp j (List.mem_cons_of_mem i hj))
          (hg.2 (o, (t₁, t₂)) hs) with ⟨hn₁, hn₂, j, hj, hbad⟩ | ⟨os, s'', hrun, hall⟩
      · refine Or.inl ⟨?_, ?_, j, List.mem_cons_of_mem i hj, hbad⟩
        · rw [← List.singleton_append, run_append h₁, hn₁]
          rfl
        · rw [← List.singleton_append, run_append h₂, hn₂]
          rfl
      · exact Or.inr ⟨o :: os, s'', by rw [run_cons hs, hrun]; rfl, List.Forall₂.cons hpost hall⟩

/-- **Simulation.** Two machines that give the same output at every step from related states, and
    stay related, give the same outputs on every run. By induction on the inputs, from any related
    states. -/
theorem run_simulates {stepA : σ → ι → Option (ο × σ)} {stepB : τ → ι → Option (ο × τ)}
    {R : σ → τ → Prop} {ok : ι → Prop}
    (hstep : ∀ s t i, R s t → ok i →
      ∃ o s' t', stepA s i = some (o, s') ∧ stepB t i = some (o, t') ∧ R s' t') :
    ∀ (is : List ι) (s : σ) (t : τ), R s t → (∀ i ∈ is, ok i) →
      ∃ os s' t', run stepA s is = some (os, s') ∧ run stepB t is = some (os, t') ∧ R s' t' := by
  intro is
  induction is with
  | nil => exact fun s t hR _ => ⟨[], s, t, rfl, rfl, hR⟩
  | cons i is ih =>
    intro s t hR hok
    obtain ⟨o, s', t', hs, ht, hR'⟩ := hstep s t i hR (hok i (List.mem_cons_self ..))
    obtain ⟨os, s'', t'', hrs, hrt, hend⟩ :=
      ih s' t' hR' (fun j hj => hok j (List.mem_cons_of_mem i hj))
    exact ⟨o :: os, s'', t'', by rw [run_cons hs, hrs]; rfl, by rw [run_cons ht, hrt]; rfl, hend⟩

/-! ## Inputs that can be left out

For reads, which change nothing: the other outputs are as if they had not been there. -/

/-- Inputs with a mark; the marked ones are left out. -/
def unmarked (l : List (Bool × ι)) : List ι := (l.filter fun m => ! m.1).map Prod.snd

/-- Inputs that never change the state can be left out of a run: the other outputs stay. By
    induction on the inputs. -/
theorem run_unmarked {step : σ → ι → Option (ο × σ)} :
    ∀ (l : List (Bool × ι)) (s : σ) (os : List ο) (s' : σ),
      (∀ m ∈ l, m.1 = true → ∀ s o t, step s m.2 = some (o, t) → t = s) →
      run step s (l.map Prod.snd) = some (os, s') →
      run step s (unmarked l) = some (unmarked ((l.map Prod.fst).zip os), s') := by
  intro l
  induction l with
  | nil =>
    intro s os s' _ hrun
    cases hrun
    rfl
  | cons m l ih =>
    intro s os s' hm hrun
    obtain ⟨mark, i⟩ := m
    obtain ⟨o, t, os', hs, ht, rfl⟩ := run_cons_eq_some hrun
    have htail := ih t os' s' (fun m' hm' => hm m' (List.mem_cons_of_mem _ hm')) ht
    cases mark with
    | true =>
      obtain rfl : t = s := hm (true, i) (List.mem_cons_self ..) rfl s o t hs
      simpa [unmarked] using htail
    | false =>
      have hl : unmarked ((false, i) :: l) = i :: unmarked l := by simp [unmarked]
      rw [hl, run_cons hs, htail]
      simp [unmarked]

end Machine
