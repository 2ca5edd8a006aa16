/-
  Foreign code that calls programs back as a script says.

  `Lib.Calls` runs a thread on any list of inputs, so a run may stop anywhere and says nothing about
  whether the calls come to an end.  Here the foreign code is a function, the SCRIPT: for each foreign
  call, from all that happened before, which programs it calls, one after another, each call depending
  on what the ones before returned, and what it returns in the end.  A tree of calls then has one outcome.

  1. **The outcome** — `callAt d` calls a program with room for `d` programs inside of each other.  It is
     a total function: what makes it not end is that the nesting is `tooDeep`.  The history has every
     foreign call, with those that are under way, and every return.

  2. **The rule** — `Contract` is what holds of every single program, if the programs that are called
     back keep it as well, with less room.  `callAt_good`: then every call returns, and whatever the
     contract says of foreign calls and returns holds of all the history.

  The outcome is unique because everything that foreign code could choose is in the script. That the
  theorem is for every script makes up for it: any behaviour of foreign code is that of some script.
-/
import Libfiu.Lib.Calls

namespace Calls

variable {ε ρ σ α β π δ η : Type}

/-! ## Scripts

What foreign code does may depend on all that has happened, so it is a function of the history. -/

/-- What foreign code does during one call: it calls a program and goes on with what that returns, or it
    returns a value and changes the state. -/
inductive Reply (π α ρ δ : Type) where
  | returns (value : ρ) (change : δ)
  | calls (p : π) (k : α → Reply π α ρ δ)

/-- The programs that are called meet `C`, and the values that are returned meet `V`. -/
def Reply.Meets (C : π → Prop) (V : ρ → Prop) : Reply π α ρ δ → Prop
  | returns value _ => V value
  | calls p k => C p ∧ ∀ a, (k a).Meets C V

/-- Something that happened: a foreign call was made, or a program returned.  `path` and `up` are the
    foreign calls under way, the last one first, with the programs that made them. -/
inductive Event (π ε σ α : Type) where
  | calls (path : List (π × ε)) (s : σ)
  | returns (up : List (π × ε)) (p : π) (entry : σ) (a : α) (s : σ)

/-- All that happened, the last event first. -/
abbrev History (π ε σ α : Type) : Type := List (Event π ε σ α)

/-- A script: the reply to the call that was made last. -/
abbrev Script (π ε ρ σ α δ : Type) : Type := History π ε σ α → Reply π α ρ δ

/-! ## The outcome of a call

With room for only so many programs inside of each other a call has an outcome by recursion; running
out of room is an outcome of its own, and one that has to be excluded. -/

/-- How a call ends, and what happened until then: it returns; or what it does next is undefined; or
    there is no room for it. -/
inductive Outcome (η σ α : Type) where
  | done (a : α) (s : σ) (h : η)
  | undefined (h : η)
  | tooDeep

/-- What follows goes on where the call returned. -/
def Outcome.bind (o : Outcome η σ α) (f : α → σ → η → Outcome η σ β) : Outcome η σ β :=
  match o with
  | done a s h => f a s h
  | undefined h => undefined h
  | tooDeep => tooDeep

/-- The foreign code runs, `nested` being how the programs that it calls run. -/
def Reply.play (nested : π → σ → η → Outcome η σ α) : Reply π α ρ δ → σ → η → Outcome η σ (ρ × δ)
  | returns value change, s, h => .done (value, change) s h
  | calls p k, s, h => (nested p s h).bind fun a s h => (k a).play nested s h

variable (script : Script π ε ρ σ α δ) (alter : δ → σ → σ)

/-- The program `p` runs to its end, having been entered in the state `entry`; `nested` is how the
    programs run that are called during a foreign call. -/
def Run.finish (nested : List (π × ε) → π → σ → History π ε σ α → Outcome (History π ε σ α) σ α)
    (up : List (π × ε)) (p : π) (entry : σ) :
    Run ε ρ σ α → History π ε σ α → Outcome (History π ε σ α) σ α
  | .done a s, h => .done a s (.returns up p entry a s :: h)
  | .stuck, h => .undefined h
  | .call e s k, h =>
    ((script (.calls ((p, e) :: up) s :: h)).play (nested ((p, e) :: up)) s
        (.calls ((p, e) :: up) s :: h)).bind fun r s h =>
      (k r.1 (alter r.2 s)).finish nested up p entry h

/-- A call of a program, with room for `d` programs inside of each other. -/
def callAt (prog : π → Code ε ρ σ α) :
    ℕ → List (π × ε) → π → σ → History π ε σ α → Outcome (History π ε σ α) σ α
  | 0, _, _, _, _ => .tooDeep
  | d + 1, up, p, s, h => (prog p s).finish script alter (callAt prog d) up p s h

/-! ## The rule

Induction on the room, for programs that keep a contract. -/

variable {script} {alter}

/-- The call returns, and then `P` holds; or it is undefined, and `U` holds.  What happened is as `H`
    says. -/
def Outcome.Good (U : Prop) (H : η → Prop) (P : α → σ → Prop) : Outcome η σ α → Prop
  | done a s h => P a s ∧ H h
  | undefined h => U ∧ H h
  | tooDeep => False

variable {U U' : Prop}

theorem Outcome.Good.bind {H : η → Prop} {P : α → σ → Prop} {P' : β → σ → Prop}
    {f : α → σ → η → Outcome η σ β} (hf : ∀ a s h, P a s → H h → (f a s h).Good U H P') :
    ∀ {o : Outcome η σ α}, o.Good U H P → (o.bind f).Good U H P'
  | done a s h, ho => hf a s h ho.1 ho.2
  | undefined _, ho => ho
  | tooDeep, ho => ho.elim

theorem Outcome.Good.mono {H : η → Prop} {P P' : α → σ → Prop} (hU : U → U')
    (hP : ∀ a s, P a s → P' a s) : ∀ {o : Outcome η σ α}, o.Good U H P → o.Good U' H P'
  | done a s _, ho => ⟨hP a s ho.1, ho.2⟩
  | undefined _, ho => ⟨hU ho.1, ho.2⟩
  | tooDeep, ho => ho.elim

/-- Foreign code keeps what every program keeps that it calls.  The induction is on the reply. -/
theorem Reply.play_good {Inv : σ → Prop} {H : η → Prop} {C : π → Prop} {V : ρ → Prop}
    {nested : π → σ → η → Outcome η σ α}
    (hnested : ∀ p, C p → ∀ s, Inv s → ∀ h, H h → (nested p s h).Good U H fun _ => Inv) :
    ∀ (r : Reply π α ρ δ), r.Meets C V → ∀ s, Inv s → ∀ h, H h →
      (r.play nested s h).Good U H fun v s' => V v.1 ∧ Inv s' := by
  intro r
  induction r with
  | returns value change => exact fun hV s hs h hh => ⟨⟨hV, hs⟩, hh⟩
  | calls p k ih =>
    intro hr s hs h hh
    refine (hnested p hr.1 s hs h hh).bind ?_
    intro a s' h' hs' hh'
    exact ih a (hr.2 a) s' hs' h' hh'

/-- **One program**, with foreign calls that keep what `R` says. By recursion on the program, call
    by call. -/
theorem Run.finish_good {H : History π ε σ α → Prop} {G : ε → σ → Prop}
    {R : ε → σ → ρ → σ → Prop} {Q : α → σ → Prop}
    {nested : List (π × ε) → π → σ → History π ε σ α → Outcome (History π ε σ α) σ α}
    {up : List (π × ε)} {p : π} {entry : σ}
    (hcall : ∀ e s h, G e s → H h →
      ((script (.calls ((p, e) :: up) s :: h)).play (nested ((p, e) :: up)) s
        (.calls ((p, e) :: up) s :: h)).Good U H fun v s' => R e s v.1 (alter v.2 s'))
    (hend : ∀ a s h, Q a s → H h → H (.returns up p entry a s :: h)) :
    ∀ {m : Run ε ρ σ α}, m.Lasts U G R Q → ∀ h, H h →
      (m.finish script alter nested up p entry h).Good U H Q := by
  intro m
  induction m with
  | done a s => exact fun hm h hh => ⟨hm, hend a s h hm hh⟩
  | stuck => exact fun hm _ hh => ⟨hm, hh⟩
  | call e s k ih =>
    intro hm h hh
    refine (hcall e s h hm.1 hh).bind ?_
    intro v s' h' hR hh'
    exact ih _ _ (hm.2 _ _ hR) h' hh'

/-- What a single program guarantees, entered where `Pre` says that there is room for `d` programs: at
    its foreign calls `Ev` holds of the event, and the programs that may be called then have room for one
    program less; `Post` holds at the end.  It is undefined only if `U`. -/
structure Contract (script : Script π ε ρ σ α δ) (alter : δ → σ → σ) (prog : π → Code ε ρ σ α)
    (Pre : ℕ → List (π × ε) → π → σ → Prop) (Post : π → σ → α → σ → Prop)
    (Ev : Event π ε σ α → Prop) (U : σ → Prop) : Prop where
  room : ∀ {up p s}, ¬ Pre 0 up p s
  body : ∀ {d up p s}, Pre (d + 1) up p s → ∃ (G : ε → σ → Prop) (R : ε → σ → ρ → σ → Prop),
    (prog p s).Lasts (U s) G R (Post p s) ∧ ∀ e t h, G e t → Ev (.calls ((p, e) :: up) t) ∧
      ∃ (C : π → Prop) (V : ρ → Prop) (Inv : σ → Prop),
        (script (.calls ((p, e) :: up) t :: h)).Meets C V ∧ Inv t ∧
        (∀ q u, C q → Inv u → Pre d ((p, e) :: up) q u ∧ (U u → U s) ∧
          ∀ a u', Post q u a u' → Inv u') ∧
        ∀ v c u, V v → Inv u → R e t v (alter c u)
  returns : ∀ {d up p s a t}, Pre d up p s → Post p s a t → Ev (.returns up p s a t)

/-- **The rule for trees of calls.**  Programs that keep a contract return, and their history is as the
    contract says.  The induction is on the room that is left. -/
theorem callAt_good {prog : π → Code ε ρ σ α} {Pre : ℕ → List (π × ε) → π → σ → Prop}
    {Post : π → σ → α → σ → Prop} {Ev : Event π ε σ α → Prop} {U : σ → Prop}
    (hc : Contract script alter prog Pre Post Ev U) :
    ∀ (d : ℕ) (up : List (π × ε)) (p : π) (s : σ), Pre d up p s →
      ∀ h : History π ε σ α, (∀ ev ∈ h, Ev ev) →
        (callAt script alter prog d up p s h).Good (U s) (fun h' => ∀ ev ∈ h', Ev ev) (Post p s) := by
  intro d
  induction d with
  | zero => exact fun up p s hpre => absurd hpre hc.room
  | succ d ih =>
    intro up p s hpre h hh
    obtain ⟨G, R, hlasts, hcalls⟩ := hc.body hpre
    refine Run.finish_good (fun e t h hG hh => ?_) (fun a t h hQ hh => ?_) hlasts h hh
    · obtain ⟨hev, C, V, Inv, hmeets, hinv, hnested, hR⟩ := hcalls e t h hG
      have hone : ∀ q, C q → ∀ u, Inv u → ∀ h : History π ε σ α, (∀ ev ∈ h, Ev ev) →
          (callAt script alter prog d ((p, e) :: up) q u h).Good (U s) (fun h' => ∀ ev ∈ h', Ev ev)
            fun _ => Inv := by
        intro q hq u hu h hh
        obtain ⟨hpre', hU, hpost⟩ := hnested q u hq hu
        exact (ih _ q u hpre' h hh).mono hU hpost
      have hh' : ∀ ev ∈ .calls ((p, e) :: up) t :: h, Ev ev := List.forall_mem_cons.mpr ⟨hev, hh⟩
      refine (Reply.play_good hone _ hmeets t hinv _ hh').mono id ?_
      rintro v u ⟨hV, hu⟩
      exact hR v.1 v.2 u hV hu
    · exact List.forall_mem_cons.mpr ⟨hc.returns hpre hQ, hh⟩

end Calls
